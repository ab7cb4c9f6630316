import Mathlib.Data.List.Basic

/-!
# Connections that are read piecemeal

A call of `read` on a connection may give fewer bytes than were asked for, or
none because a signal came first; once the connection is at its end it gives
none, and goes on to give none, or it fails. `readn` asks until it has all that
is wanted.

* `Conn` — a connection: what the calls will give, and how it ends.
* `Conn.readn` — the usual loop around `read`.
* `Conn.readn_of_holds`, `Conn.readn_of_not_holds` — what the loop returns does
  not depend on the pieces: the bytes wanted, or as many as there are where the
  connection is closed after them, or an error where it fails.
-/

namespace Gross.Foundation

universe u

variable {α : Type u}

/-- What a call of `read` gives while the connection lasts. -/
inductive Read (α : Type u) where
  /-- There are these bytes, one at least. A call that asks for fewer leaves the rest. -/
  | data (b : α) (bs : List α)
  /-- A signal came first. -/
  | eintr

/-- How a connection ends. -/
inductive Ending where
  /-- The other end closes it: `read` returns 0. -/
  | closed
  /-- It is lost: `read` returns -1, and not for a signal. -/
  | failed
  deriving DecidableEq, Repr

/-- A connection, as seen by a reader. -/
structure Conn (α : Type u) where
  /-- What the calls of `read` will give. -/
  reads : List (Read α)
  /-- What they give after that. -/
  ending : Ending

/-- The bytes that a call gives. -/
def Read.bytes : Read α → List α
  | .data b bs => b :: bs
  | .eintr => []

/-- The bytes that are still to be read. -/
def Conn.bytes (c : Conn α) : List α := c.reads.flatMap Read.bytes

/-- What is left of a piece. -/
def Read.rest (bs : List α) : List (Read α) :=
  match bs with
  | [] => []
  | b :: bs => [.data b bs]

/-- The loop of `readn`, with so many bytes left to read: what was read, or `none` for
an error. -/
def readLoop (ending : Ending) : List (Read α) → ℕ → Option (List α) × List (Read α)
  | rs, 0 => (some [], rs)
  | [], _ + 1 =>
    match ending with
    | .closed => (some [], [])
    | .failed => (none, [])
  | .eintr :: rs, nleft + 1 => readLoop ending rs (nleft + 1)
  | .data b bs :: rs, nleft + 1 =>
    if bs.length ≤ nleft then
      let (ret, rs) := readLoop ending rs (nleft - bs.length)
      (ret.map (b :: bs ++ ·), rs)
    else (some (b :: bs.take nleft), Read.rest (bs.drop nleft) ++ rs)

/-- `readn(fd, buf, n)`. -/
def Conn.readn (c : Conn α) (n : ℕ) : Option (List α) × Conn α :=
  let (ret, reads) := readLoop c.ending c.reads n
  (ret, ⟨reads, c.ending⟩)

/-- The connection does not fail before `n` bytes are read. -/
def Conn.Holds (c : Conn α) (n : ℕ) : Prop := n ≤ c.bytes.length ∨ c.ending = .closed

theorem Read.flatMap_rest (bs : List α) : (Read.rest bs).flatMap Read.bytes = bs := by
  cases bs with
  | nil => rfl
  | cons b bs => simp [Read.rest, Read.bytes]

/-- The loop on a connection that does not fail too early. -/
theorem readLoop_of_holds {ending : Ending} {rs : List (Read α)} {n : ℕ}
    (h : n ≤ (rs.flatMap Read.bytes).length ∨ ending = .closed) :
    ∃ rs', readLoop ending rs n = (some ((rs.flatMap Read.bytes).take n), rs') ∧
      rs'.flatMap Read.bytes = (rs.flatMap Read.bytes).drop n := by
  fun_induction readLoop ending rs n with
  | case1 rs => exact ⟨rs, by simp, by simp⟩
  | case2 n => exact ⟨[], by simp, by simp⟩
  | case3 n => simp_all
  | case4 rs n ih => simpa [Read.bytes] using ih (by simpa [Read.bytes] using h)
  | case5 b bs rs n hle ret rs' heq ih =>
    have hlen : n - bs.length ≤ (rs.flatMap Read.bytes).length ∨ ending = .closed := by
      refine h.imp_left fun h => ?_
      simp only [List.flatMap_cons, Read.bytes, List.length_append, List.length_cons] at h
      omega
    obtain ⟨rs'', hread, hrest⟩ := ih hlen
    rw [heq, Prod.mk.injEq] at hread
    obtain ⟨rfl, rfl⟩ := hread
    refine ⟨rs', ?_, ?_⟩
    · simp [Read.bytes, List.take_append, List.take_of_length_le hle]
    · simp [Read.bytes, hrest, List.drop_append, List.drop_of_length_le hle]
  | case6 b bs rs n hlt =>
    have hle : n ≤ bs.length := by omega
    refine ⟨Read.rest (bs.drop n) ++ rs, ?_, ?_⟩
    · simp [Read.bytes, List.take_append_of_le_length hle]
    · simp [Read.bytes, Read.flatMap_rest, List.drop_append_of_le_length hle]

/-- The loop on one that does. -/
theorem readLoop_of_not_holds {ending : Ending} {rs : List (Read α)} {n : ℕ}
    (h : ¬ (n ≤ (rs.flatMap Read.bytes).length ∨ ending = .closed)) : (readLoop ending rs n).1 = none := by
  fun_induction readLoop ending rs n with
  | case1 rs => simp at h
  | case2 n => simp_all
  | case3 n => rfl
  | case4 rs n ih => exact ih (by simpa [Read.bytes] using h)
  | case5 b bs rs n hle ret rs' heq ih =>
    have hlen : ¬ (n - bs.length ≤ (rs.flatMap Read.bytes).length ∨ ending = .closed) := by
      refine fun hn => h (hn.imp_left fun hn => ?_)
      simp only [List.flatMap_cons, Read.bytes, List.length_append, List.length_cons]
      omega
    have hnone := ih hlen
    rw [heq] at hnone
    rw [show ret = none from hnone]
    rfl
  | case6 b bs rs n hlt =>
    refine absurd (Or.inl ?_) h
    simp only [List.flatMap_cons, Read.bytes, List.length_append, List.length_cons]
    omega

/-- **Reading**: however the bytes come, `readn` has those it asked for, or those
there were before the connection was closed. -/
theorem Conn.readn_of_holds {c : Conn α} {n : ℕ} (h : c.Holds n) :
    ∃ c', c.readn n = (some (c.bytes.take n), c') ∧ c'.bytes = c.bytes.drop n ∧ c'.ending = c.ending := by
  obtain ⟨rs, hread, hrest⟩ := readLoop_of_holds h
  exact ⟨⟨rs, c.ending⟩, by simp only [readn, hread, bytes], hrest, rfl⟩

/-- **A connection that fails too early**: `readn` has nothing to show, whatever was
read. -/
theorem Conn.readn_of_not_holds {c : Conn α} {n : ℕ} (h : ¬ c.Holds n) : ∃ c', c.readn n = (none, c') := by
  have hread := readLoop_of_not_holds h
  exact ⟨(c.readn n).2, Prod.ext hread rfl⟩

end Gross.Foundation
