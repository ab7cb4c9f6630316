import Gross.Foundation.CArray
import Mathlib.Data.List.TakeWhile

/-!
# Strings in memory

A C string is an address: the string is what lies there up to the first NUL. A
function that is given one goes on to the NUL, so where the block has none it runs
past the end. A block is the list of what lies from the address on.

* `strdup`, `strlen`, `strchr`, `strspn`, `strncpy` — what they read is checked, item by
  item.
* `memcpy` — with the bounds of both blocks.
* `snprintf` — into the middle of a block, with the bounds of the block.
* `cstring mem` — the string that begins a block, for a block that has a NUL:
  `strdup_of_mem`, `strdup_of_notMem`. What lies behind the NUL does not count (`strdup_append`,
  `strchr_append`, `strncpy_append`).
-/

namespace Gross.Foundation

universe u

variable {α : Type u} [DecidableEq α] (nul : α)

/-- `strdup`: the string that begins the block. -/
def strdup : List α → Except Fault (List α)
  | [] => .error .outOfBounds
  | c :: mem =>
    if c = nul then .ok []
    else do
      let s ← strdup mem
      return c :: s

/-- `strchr`: how far off the first `a` of the string is, if there is one. -/
def strchr (a : α) : List α → Except Fault (Option ℕ)
  | [] => .error .outOfBounds
  | c :: mem =>
    if c = a then .ok (some 0)
    else if c = nul then .ok none
    else do
      let i ← strchr a mem
      return i.map (· + 1)

/-- `strlen` -/
def strlen : List α → Except Fault ℕ
  | [] => .error .outOfBounds
  | c :: mem =>
    if c = nul then .ok 0
    else do
      let n ← strlen mem
      return n + 1

/-- `strspn`: how many of the items that the string begins with are in a set. -/
def strspn (accept : α → Bool) : List α → Except Fault ℕ
  | [] => .error .outOfBounds
  | c :: mem =>
    if c ≠ nul ∧ accept c then do
      let n ← strspn accept mem
      return n + 1
    else .ok 0

/-- `strncpy`: the `n` items that are written. -/
def strncpy : ℕ → List α → Except Fault (List α)
  | 0, _ => .ok []
  | _ + 1, [] => .error .outOfBounds
  | n + 1, c :: mem =>
    if c = nul then .ok (List.replicate (n + 1) nul)
    else do
      let s ← strncpy n mem
      return c :: s

omit [DecidableEq α] in
/-- `memcpy(dst + off, src, n)`. -/
def memcpy (dst : List α) (off : ℕ) (src : List α) (n : ℕ) : Except Fault (List α) :=
  if n ≤ src.length ∧ off + n ≤ dst.length then .ok (overwrite dst off (src.take n)) else .error .outOfBounds

omit [DecidableEq α] in
theorem memcpy_ok {dst src : List α} {off n : ℕ} (hsrc : n ≤ src.length) (hdst : off + n ≤ dst.length) :
    memcpy dst off src n = .ok (overwrite dst off (src.take n)) := if_pos ⟨hsrc, hdst⟩

omit [DecidableEq α] in
/-- `snprintf(dst + off, n, …)`, where `text` is all that there is to print: at most `n` items are
written, the last of them a NUL. -/
def snprintf (dst : List α) (off n : ℕ) (text : List α) : Except Fault (List α) :=
  if n = 0 then .ok dst else memcpy dst off (text.take (n - 1) ++ [nul]) (text.take (n - 1) ++ [nul]).length

/-- The string that begins a block. -/
def cstring (mem : List α) : List α := mem.takeWhile (· ≠ nul)

variable {nul} {s : List α}

theorem nul_notMem_cstring (mem : List α) : nul ∉ cstring nul mem := by
  intro h
  simpa using List.mem_takeWhile_imp h

theorem cstring_append (hs : nul ∉ s) (mem : List α) : cstring nul (s ++ nul :: mem) = s := by
  rw [cstring, List.takeWhile_append_of_pos fun c hc => by simpa using ne_of_mem_of_not_mem hc hs]
  simp

theorem cstring_of_notMem {mem : List α} (h : nul ∉ mem) : cstring nul mem = mem :=
  List.takeWhile_eq_self_iff.mpr fun c hc => by simpa using ne_of_mem_of_not_mem hc h

/-- What lies behind the NUL does not count. -/
theorem strdup_append (hs : nul ∉ s) (mem : List α) : strdup nul (s ++ nul :: mem) = .ok s := by
  induction s with
  | nil => simp [strdup]
  | cons c s ih =>
    rw [List.mem_cons, not_or] at hs
    simp [strdup, Ne.symm hs.1, ih hs.2]

/-- A block that has a NUL begins with a string. -/
theorem strdup_of_mem {mem : List α} (h : nul ∈ mem) : strdup nul mem = .ok (cstring nul mem) := by
  obtain ⟨s, rest, rfl, hs⟩ := List.eq_append_cons_of_mem h
  rw [strdup_append hs, cstring_append hs]

/-- In a block that has none, a string has no end. -/
theorem strdup_of_notMem {mem : List α} (h : nul ∉ mem) : strdup nul mem = .error .outOfBounds := by
  induction mem with
  | nil => rfl
  | cons c mem ih =>
    rw [List.mem_cons, not_or] at h
    rw [strdup, if_neg (Ne.symm h.1), ih h.2]
    rfl

theorem strlen_append (hs : nul ∉ s) (mem : List α) : strlen nul (s ++ nul :: mem) = .ok s.length := by
  induction s with
  | nil => simp [strlen]
  | cons c s ih =>
    rw [List.mem_cons, not_or] at hs
    simp [strlen, Ne.symm hs.1, ih hs.2]

theorem strspn_append {accept : α → Bool} (hs : nul ∉ s) (mem : List α) :
    strspn nul accept (s ++ nul :: mem) = .ok (s.takeWhile accept).length := by
  induction s with
  | nil => simp [strspn]
  | cons c s ih =>
    rw [List.mem_cons, not_or] at hs
    by_cases hc : accept c
    · simp [strspn, Ne.symm hs.1, hc, ih hs.2]
    · simp [strspn, hc]

omit [DecidableEq α] in
/-- What `snprintf` leaves of a block that begins with `s`, when it goes on where `s` ends and has
room for `n` items there. -/
theorem snprintf_append {n : ℕ} {mem : List α} (hn : n ≠ 0) (hmem : n ≤ mem.length) (text : List α) :
    snprintf nul (s ++ mem) s.length n text =
      .ok (s ++ text.take (n - 1) ++ nul :: mem.drop ((text.take (n - 1)).length + 1)) := by
  have hlen : (text.take (n - 1) ++ [nul]).length = (text.take (n - 1)).length + 1 := by simp
  have htake : (text.take (n - 1)).length ≤ n - 1 := by
    rw [List.length_take]
    omega
  have hdst : (s ++ mem).length = s.length + mem.length := List.length_append
  rw [snprintf, if_neg hn, memcpy_ok le_rfl (by omega), List.take_length, overwrite, hlen, List.take_left,
    List.drop_append, List.drop_eq_nil_of_le (by omega), Nat.add_sub_cancel_left]
  simp

omit [DecidableEq α] in
/-- Behind a block, `snprintf` has no room for a NUL. -/
theorem snprintf_outside {dst : List α} {off n : ℕ} (hn : n ≠ 0) (hoff : dst.length ≤ off) (text : List α) :
    snprintf nul dst off n text = .error .outOfBounds := by
  rw [snprintf, if_neg hn, memcpy, if_neg]
  simp only [List.length_append, List.length_singleton]
  omega

omit [DecidableEq α] in
/-- `snprintf` keeps within a block that has room for what is printed of the text, and for a NUL. -/
theorem snprintf_ok_iff {dst : List α} {off n : ℕ} (hn : n ≠ 0) (text : List α) :
    (∃ dst', snprintf nul dst off n text = .ok dst') ↔ off + min (n - 1) text.length < dst.length := by
  have hlen : (text.take (n - 1) ++ [nul]).length = min (n - 1) text.length + 1 := by simp
  rw [snprintf, if_neg hn, memcpy, hlen]
  split_ifs with h
  · exact iff_of_true ⟨_, rfl⟩ (by omega)
  · exact iff_of_false (fun ⟨_, h⟩ => nomatch h) fun hlt => h ⟨Nat.le_refl _, by omega⟩

omit [DecidableEq α] in
theorem length_snprintf {dst dst' : List α} {off n : ℕ} {text : List α} (h : snprintf nul dst off n text = .ok dst') :
    dst'.length = dst.length := by
  unfold snprintf memcpy at h
  split_ifs at h with hn hroom
  · cases h
    rfl
  · cases h
    rw [List.take_length]
    exact length_overwrite hroom.2

theorem strchr_append {a : α} (ha : a ∉ s) (hs : nul ∉ s) (mem : List α) :
    strchr nul a (s ++ a :: mem) = .ok (some s.length) := by
  induction s with
  | nil => simp [strchr]
  | cons c s ih =>
    rw [List.mem_cons, not_or] at ha hs
    simp [strchr, Ne.symm ha.1, Ne.symm hs.1, ih ha.2 hs.2]

theorem lt_of_strchr {a : α} {mem : List α} {i : ℕ} (h : strchr nul a mem = .ok (some i)) : i < mem.length := by
  induction mem generalizing i with
  | nil => cases h
  | cons c mem ih =>
    unfold strchr at h
    split_ifs at h with ha hnul
    · cases h
      exact Nat.succ_pos _
    · cases h
    · obtain ⟨j, hj, h⟩ := bind_eq_ok h
      cases j with
      | none => cases h
      | some j =>
        cases h
        exact Nat.succ_lt_succ (ih hj)

theorem strchr_none {a : α} (ha : a ∉ s) (hs : nul ∉ s) (hne : a ≠ nul) (mem : List α) :
    strchr nul a (s ++ nul :: mem) = .ok none := by
  induction s with
  | nil => simp [strchr, hne.symm]
  | cons c s ih =>
    rw [List.mem_cons, not_or] at ha hs
    simp [strchr, Ne.symm ha.1, Ne.symm hs.1, ih ha.2 hs.2]

theorem strncpy_append {n : ℕ} (hs : nul ∉ s) (hn : s.length < n) (mem : List α) :
    strncpy nul n (s ++ nul :: mem) = .ok (s ++ List.replicate (n - s.length) nul) := by
  induction s generalizing n with
  | nil =>
    obtain ⟨n, rfl⟩ := Nat.exists_eq_add_one_of_ne_zero (Nat.ne_of_gt hn)
    simp [strncpy]
  | cons c s ih =>
    obtain ⟨n, rfl⟩ := Nat.exists_eq_add_one_of_ne_zero (Nat.ne_of_gt (Nat.zero_lt_of_lt hn))
    rw [List.mem_cons, not_or] at hs
    simp [strncpy, Ne.symm hs.1, ih hs.2 (Nat.lt_of_succ_lt_succ hn)]

/-- From a string, or from a block that is long enough, as many items are written as were asked for.
A string that is shorter is padded with NULs. -/
theorem strncpy_ok {n : ℕ} {mem : List α} (h : nul ∈ mem ∨ n ≤ mem.length) :
    ∃ buf, strncpy nul n mem = .ok buf ∧ buf.length = n ∧ (nul ∈ mem → mem.length ≤ n → nul ∈ buf) := by
  induction n generalizing mem with
  | zero =>
    refine ⟨[], by simp [strncpy], rfl, fun hnul hlen => ?_⟩
    rwa [List.length_eq_zero_iff.mp (Nat.le_zero.mp hlen)] at hnul
  | succ n ih =>
    cases mem with
    | nil => simp at h
    | cons c mem =>
      by_cases hc : c = nul
      · refine ⟨_, by rw [strncpy, if_pos hc], List.length_replicate, fun _ _ => ?_⟩
        exact List.mem_replicate.mpr ⟨Nat.succ_ne_zero n, rfl⟩
      · have htail : nul ∈ c :: mem → nul ∈ mem := fun h => (List.mem_cons.mp h).resolve_left (Ne.symm hc)
        obtain ⟨buf, hbuf, hlen, hnul⟩ := ih (h.imp htail Nat.le_of_succ_le_succ)
        refine ⟨c :: buf, ?_, by rw [List.length_cons, hlen], fun hmem hle => ?_⟩
        · rw [strncpy, if_neg hc, hbuf]
          rfl
        · exact List.mem_cons_of_mem _ (hnul (htail hmem) (Nat.le_of_succ_le_succ hle))

/-- As many items as the string has, and no NUL. -/
theorem strncpy_length (hs : nul ∉ s) (mem : List α) : strncpy nul s.length (s ++ mem) = .ok s := by
  induction s with
  | nil => simp [strncpy]
  | cons c s ih =>
    rw [List.mem_cons, not_or] at hs
    simp [strncpy, Ne.symm hs.1, ih hs.2]

end Gross.Foundation
