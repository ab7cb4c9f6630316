import Mathlib.Data.List.Basic
import Mathlib.Tactic.Common

/-!
# Reading a line

`readline` reads a line of a connection into a buffer of `maxlen` bytes: up to
and without the line feed, and without carriage returns. It reads at most
`maxlen - 1` bytes, so a line that is longer comes in pieces, each as if it were
a line.

## What is proved

`readline_cut` — on a plain line, one with no carriage return of its own,
`readline` returns the first of the pieces `cut` makes, and leaves what the next
calls make the others of. A line whose length is a multiple of `maxlen - 1` ends
with an empty piece.
-/

namespace Gross.Utils

/-- What a descriptor gives: some bytes, and then the end of the file or an error. -/
structure Conn where
  /-- The bytes that are left. -/
  bytes : List Char
  /-- After them, `read` fails. -/
  broken : Bool
  deriving DecidableEq, Repr

/-- What `readline` returns, and the line if there is one. -/
inductive ReadLine where
  /-- `ERROR` -/
  | error
  /-- `EMPTY` -/
  | empty
  /-- `DATA` -/
  | data (line : List Char) (rest : Conn)
  deriving DecidableEq, Repr

/-- The loop of `readline`, when it may read so many bytes more. The flag says that it
has read none. -/
def readLoop (broken : Bool) : Bool → ℕ → List Char → ReadLine
  | _, 0, s => .data [] ⟨s, broken⟩
  | first, _ + 1, [] => if broken then .error else if first then .empty else .data [] ⟨[], broken⟩
  | _, n + 1, c :: s =>
    if c = '\n' then .data [] ⟨s, broken⟩
    else
      match readLoop broken false n s with
      | .data line rest => .data (if c = '\r' then line else c :: line) rest
      | other => other

/-- `readline`. -/
def readline (conn : Conn) (maxlen : ℕ) : ReadLine := readLoop conn.broken true (maxlen - 1) conn.bytes

variable {n : ℕ} {line : List Char} {rest : Conn}

/-- What is read is taken from the connection. -/
theorem length_of_readLoop {broken first : Bool} {s : List Char} (h : readLoop broken first n s = .data line rest) :
    line.length + rest.bytes.length ≤ s.length := by
  induction n generalizing first s line rest with
  | zero =>
    cases h
    simp
  | succ n ih =>
    cases s with
    | nil =>
      simp only [readLoop] at h
      split_ifs at h
      cases h
      simp
    | cons c s =>
      simp only [readLoop] at h
      by_cases hc : c = '\n'
      · rw [if_pos hc] at h
        cases h
        simp
      · rw [if_neg hc] at h
        cases hloop : readLoop broken false n s with
        | error => simp [hloop] at h
        | empty => simp [hloop] at h
        | data line' rest' =>
          rw [hloop] at h
          cases h
          have := ih hloop
          split_ifs <;> simp only [List.length_cons] <;> omega

/-- A line that `readline` returns, and that is not empty, makes the connection
shorter. -/
theorem length_lt_of_readline {conn : Conn} {maxlen : ℕ} (h : readline conn maxlen = .data line rest)
    (hline : line ≠ []) : rest.bytes.length < conn.bytes.length := by
  have hlen := length_of_readLoop h
  have hpos := List.length_pos_iff.mpr hline
  omega

/-- A line that `readline` returns makes the connection shorter, also when it is empty. -/
theorem rest_lt_of_readline {conn : Conn} {maxlen : ℕ} (hmax : 1 < maxlen)
    (h : readline conn maxlen = .data line rest) : rest.bytes.length < conn.bytes.length := by
  obtain ⟨n, hn⟩ : ∃ n, maxlen - 1 = n + 1 := ⟨maxlen - 2, by omega⟩
  rw [readline, hn] at h
  cases hbytes : conn.bytes with
  | nil =>
    rw [hbytes] at h
    simp only [readLoop] at h
    split_ifs at h
  | cons c s =>
    rw [hbytes] at h
    simp only [readLoop] at h
    rw [List.length_cons]
    by_cases hc : c = '\n'
    · rw [if_pos hc] at h
      cases h
      exact Nat.lt_succ_self _
    · rw [if_neg hc] at h
      cases hloop : readLoop conn.broken false n s with
      | error => simp [hloop] at h
      | empty => simp [hloop] at h
      | data line' rest' =>
        rw [hloop] at h
        cases h
        have hle := length_of_readLoop hloop
        omega

/-! ### Pieces of a line -/

/-- No line feed and no carriage return. -/
def Plain (line : List Char) : Prop := ∀ c ∈ line, c ≠ '\n' ∧ c ≠ '\r'

/-- The pieces a line comes in, when `n` bytes are read at a time. -/
def cut (n : ℕ) (line : List Char) : List (List Char) :=
  if 0 < n ∧ n ≤ line.length then line.take n :: cut n (line.drop n) else [line]
termination_by line.length
decreasing_by
  rw [List.length_drop]
  omega

theorem cut_of_lt (h : line.length < n) : cut n line = [line] := by
  rw [cut, if_neg (by omega)]

theorem cut_of_le (hn : 0 < n) (h : n ≤ line.length) : cut n line = line.take n :: cut n (line.drop n) := by
  rw [cut, if_pos ⟨hn, h⟩]

theorem cut_append {a b : List Char} (ha : a.length = n) (hb : b.length < n) : cut n (a ++ b) = [a, b] := by
  have hle : n ≤ (a ++ b).length := by
    rw [List.length_append]
    omega
  rw [cut_of_le (by omega) hle, List.take_left' ha, List.drop_left' ha, cut_of_lt hb]

/-- A line whose length is no multiple of `n` has no empty piece. -/
theorem ne_nil_of_mem_cut {piece : List Char} (hn : 0 < n) (h : ¬ n ∣ line.length) (hp : piece ∈ cut n line) :
    piece ≠ [] := by
  rintro rfl
  fun_induction cut n line with
  | case1 line hle ih =>
    rcases List.mem_cons.mp hp with hp | hp
    · have hlen := congrArg List.length hp
      rw [List.length_take, List.length_nil] at hlen
      omega
    · refine ih ?_ hp
      rwa [List.length_drop, Nat.dvd_sub_iff_left hle.2 (Nat.dvd_refl n)]
  | case2 line hle =>
    rw [← List.mem_singleton.mp hp] at h
    exact h (Nat.dvd_zero n)

/-- A line whose length is a multiple of `n` has an empty piece, the last. -/
theorem cut_of_dvd (hn : 0 < n) (h : n ∣ line.length) : ∃ ps, cut n line = ps ++ [[]] ∧ ∀ piece ∈ ps, piece ≠ [] := by
  fun_induction cut n line with
  | case1 line hle ih =>
    obtain ⟨ps, heq, hne⟩ := ih (by rwa [List.length_drop, Nat.dvd_sub_iff_left hle.2 (Nat.dvd_refl n)])
    refine ⟨line.take n :: ps, by rw [heq, List.cons_append], List.forall_mem_cons.mpr ⟨fun h => ?_, hne⟩⟩
    have hlen := congrArg List.length h
    rw [List.length_take, List.length_nil] at hlen
    omega
  | case2 line hle =>
    obtain rfl : line = [] := List.length_eq_zero_iff.mp (Nat.eq_zero_of_dvd_of_lt h (by omega))
    exact ⟨[], rfl, by simp⟩

theorem plain_nil : Plain [] := fun _ h => absurd h List.not_mem_nil

theorem Plain.tail {c : Char} (h : Plain (c :: line)) : Plain line :=
  fun x hx => h x (List.mem_cons_of_mem _ hx)

theorem Plain.drop (h : Plain line) (n : ℕ) : Plain (line.drop n) :=
  fun x hx => h x (List.mem_of_mem_drop hx)

/-- A line that fits is read, and so is its line feed. -/
theorem readLoop_of_lt (broken first : Bool) (hp : Plain line) (hlt : line.length < n) (s : List Char) :
    readLoop broken first n (line ++ '\n' :: s) = .data line ⟨s, broken⟩ := by
  induction line generalizing first n with
  | nil =>
    cases n with
    | zero => simp at hlt
    | succ n => simp [readLoop]
  | cons c line ih =>
    cases n with
    | zero => simp at hlt
    | succ n =>
      obtain ⟨hlf, hcr⟩ := hp c (List.mem_cons_self ..)
      have hrec := ih false hp.tail (show line.length < n by simpa using hlt)
      simp [readLoop, hlf, hcr, hrec]

/-- Of a line that does not fit, as much as fits is read. -/
theorem readLoop_of_le (broken first : Bool) (hp : Plain line) (hle : n ≤ line.length) (s : List Char) :
    readLoop broken first n (line ++ s) = .data (line.take n) ⟨line.drop n ++ s, broken⟩ := by
  induction line generalizing first n with
  | nil =>
    obtain rfl : n = 0 := by simpa using hle
    simp [readLoop]
  | cons c line ih =>
    cases n with
    | zero => simp [readLoop]
    | succ n =>
      obtain ⟨hlf, hcr⟩ := hp c (List.mem_cons_self ..)
      have hrec := ih false hp.tail (show n ≤ line.length by simpa using hle)
      simp [readLoop, hlf, hcr, hrec]

/-- **Reading a plain line**: the first call returns the first piece, and what it leaves
is the rest of the line, or what comes after it. -/
theorem readline_cut (maxlen : ℕ) (hp : Plain line) (broken : Bool) (s : List Char) :
    (line.length < maxlen - 1 → readline ⟨line ++ '\n' :: s, broken⟩ maxlen = .data line ⟨s, broken⟩) ∧
    (maxlen - 1 ≤ line.length → readline ⟨line ++ '\n' :: s, broken⟩ maxlen =
      .data (line.take (maxlen - 1)) ⟨line.drop (maxlen - 1) ++ '\n' :: s, broken⟩) :=
  ⟨fun h => readLoop_of_lt broken true hp h s, fun h => readLoop_of_le broken true hp h _⟩

end Gross.Utils
