import Mathlib.Data.List.Basic

/-!
# Arrays that can be misused

The functions of a C program run to the end, or stop: at a failed `assert`, at an
`exit`, or (undefined behaviour, which no later statement may rely on) at an
access outside an array. Here a computation is a value of `Except Fault`, an
array is a list, and an array operation is checked.

* `foldlM_inv`, `foldlM_preserves` — the rules for runs: an invariant of each step
  is one of a run. `foldlM_range_inv`, `foldlM_range_preserves` — the rules for a loop
  that counts.
* `foldlStates` — the states a run passes through, for those who watch it.
* `load`, `store`, `check` — `a[i]`, `a[i] = x` and `assert(b)`.
* `updateLoop f n a` — `for (i = 0; i < n; i++) a[i] = f(i, a[i])`.
* `overwrite dst off src` — `memcpy(dst + off, src, n)`, with `slice` to read
  back what lies at an offset.
-/

namespace Gross.Foundation

universe u

variable {α : Type u}

/-- What stops a C program. -/
inductive Fault where
  /-- An `assert` whose expression is false. -/
  | assertion
  /-- An access outside the array it is made to. -/
  | outOfBounds
  /-- The program gives up. -/
  | exit
  deriving DecidableEq, Repr

/-- `assert(b)`. -/
def check (b : Prop) [Decidable b] : Except Fault Unit := if b then .ok () else .error .assertion

/-- `a[i]`, read. -/
def load (a : List α) (i : ℕ) : Except Fault α :=
  match a[i]? with
  | some x => .ok x
  | none => .error .outOfBounds

/-- `a[i] = x`. -/
def store (a : List α) (i : ℕ) (x : α) : Except Fault (List α) :=
  if i < a.length then .ok (a.set i x) else .error .outOfBounds

theorem check_pos {b : Prop} [Decidable b] (h : b) : check b = .ok () := if_pos h

theorem check_neg {b : Prop} [Decidable b] (h : ¬ b) : check b = .error .assertion := if_neg h

variable {a : List α} {i : ℕ} {x : α}

theorem load_of_getElem? (h : a[i]? = some x) : load a i = .ok x := by
  rw [load, h]

theorem load_lt (h : i < a.length) : load a i = .ok a[i] :=
  load_of_getElem? (List.getElem?_eq_getElem h)

theorem load_ge (h : a.length ≤ i) : load a i = .error .outOfBounds := by
  rw [load, List.getElem?_eq_none h]

theorem store_lt (h : i < a.length) (x : α) : store a i x = .ok (a.set i x) :=
  if_pos h

theorem load_append (a : List α) (x : α) (b : List α) : load (a ++ x :: b) a.length = .ok x :=
  load_of_getElem? (by simp)

theorem store_append (a : List α) (x : α) (b : List α) (y : α) : store (a ++ x :: b) a.length y = .ok (a ++ y :: b) := by
  rw [store_lt (by simp)]
  simp

theorem of_load_eq_ok (h : load a i = .ok x) : a[i]? = some x := by
  unfold load at h
  split at h
  · cases h
    assumption
  · cases h

theorem of_store_eq_ok {b : List α} (h : store a i x = .ok b) : b = a.set i x := by
  unfold store at h
  split at h
  · cases h
    rfl
  · cases h

/-! ### Binding -/

variable {σ β : Type u} {step : σ → β → Except Fault σ} {as : List β} {s s' : σ}

/-- A computation that runs on after its first part has run its first part. -/
theorem bind_eq_ok {x : Except Fault α} {f : α → Except Fault β} {b : β} (h : (x >>= f) = .ok b) :
    ∃ a, x = .ok a ∧ f a = .ok b := by
  cases x with
  | error e => cases h
  | ok a => exact ⟨a, rfl, h⟩

@[simp] theorem ok_bind (a : α) (f : α → Except Fault β) : ((Except.ok a : Except Fault α) >>= f) = f a := rfl

@[simp] theorem error_bind (e : Fault) (f : α → Except Fault β) :
    ((Except.error e : Except Fault α) >>= f) = .error e := rfl

/-- The result of a computation that does not fail. -/
def value (x : Except Fault α) (h : ∃ a, x = .ok a) : α :=
  match x, h with
  | .ok a, _ => a
  | .error _, h => absurd h (by rintro ⟨a, ha⟩; cases ha)

theorem eq_ok_value {x : Except Fault α} (h : ∃ a, x = .ok a) : x = .ok (value x h) := by
  obtain ⟨a, rfl⟩ := h
  rfl

/-- A computation known to end well has the result it is known to have. -/
theorem value_of_spec {x : Except Fault α} {P : α → Prop} (h : ∃ a, x = .ok a ∧ P a) :
    P (value x (h.imp fun _ h => h.1)) := by
  obtain ⟨a, rfl, ha⟩ := h
  exact ha

/-- Making a list of things, none of which fails. -/
theorem mapM_ok {f : β → Except Fault α} {g : β → α} {l : List β} (h : ∀ b ∈ l, f b = .ok (g b)) :
    l.mapM f = .ok (l.map g) := by
  induction l with
  | nil => rfl
  | cons b l ih =>
    rw [List.mapM_cons, h b (List.mem_cons_self ..), ih fun c hc => h c (List.mem_cons_of_mem _ hc)]
    rfl

/-- Making the same thing a number of times. -/
theorem mapM_const_ok (a : α) (l : List β) :
    (l.mapM fun _ => (.ok a : Except Fault α)) = .ok (List.replicate l.length a) := by
  rw [mapM_ok (g := fun _ => a) fun _ _ => rfl, List.map_const']

/-- Doing something with each of a list fails exactly if it fails with one of them. -/
theorem forM_eq_ok_iff {f : β → Except Fault PUnit} {l : List β} : l.forM f = .ok ⟨⟩ ↔ ∀ b ∈ l, f b = .ok ⟨⟩ := by
  induction l with
  | nil => simp [List.forM, pure, Except.pure]
  | cons b l ih =>
    rw [List.forall_mem_cons, ← ih, show (b :: l).forM f = (f b >>= fun _ => l.forM f) from rfl]
    cases f b with
    | error fault => simp
    | ok => simp

/-! ### Runs -/

/-- **The rule for runs**: when each step from a state that satisfies `P` does not
fail and leads to one that does, so does a run. -/
theorem foldlM_inv (step : σ → β → Except Fault σ) (P : σ → Prop) (as : List β)
    (hstep : ∀ s, ∀ a ∈ as, P s → ∃ s', step s a = .ok s' ∧ P s') (hs : P s) :
    ∃ s', as.foldlM step s = .ok s' ∧ P s' := by
  induction as generalizing s with
  | nil => exact ⟨s, rfl, hs⟩
  | cons a as ih =>
    obtain ⟨s₁, h₁, hs₁⟩ := hstep s a (List.mem_cons_self ..) hs
    obtain ⟨s₂, h₂, hs₂⟩ := ih (fun s b hb => hstep s b (List.mem_cons_of_mem _ hb)) hs₁
    refine ⟨s₂, ?_, hs₂⟩
    rw [List.foldlM_cons, h₁, ok_bind, h₂]

/-- **The rule for loops**: when turn `k`, from a state that satisfies `I k`, does not
fail and leads to one that satisfies `I (k + 1)`, then `n` turns lead from `I 0` to
`I n`. -/
theorem foldlM_range_inv (step : σ → ℕ → Except Fault σ) (I : ℕ → σ → Prop) {n : ℕ} (hs : I 0 s)
    (hstep : ∀ k < n, ∀ s, I k s → ∃ s', step s k = .ok s' ∧ I (k + 1) s') :
    ∃ s', (List.range n).foldlM step s = .ok s' ∧ I n s' := by
  induction n with
  | zero => exact ⟨s, rfl, hs⟩
  | succ n ih =>
    obtain ⟨s₁, h₁, hs₁⟩ := ih fun k hk => hstep k (Nat.lt_succ_of_lt hk)
    obtain ⟨s₂, h₂, hs₂⟩ := hstep n (Nat.lt_succ_self n) s₁ hs₁
    refine ⟨s₂, ?_, hs₂⟩
    rw [List.range_succ, List.foldlM_append, h₁, ok_bind, List.foldlM_cons, h₂]
    rfl

/-- The same for runs that are known not to fail. -/
theorem foldlM_preserves (P : σ → Prop) (hstep : ∀ s a s', P s → step s a = .ok s' → P s') (hs : P s)
    (hrun : as.foldlM step s = .ok s') : P s' := by
  induction as generalizing s with
  | nil =>
    cases hrun
    exact hs
  | cons a as ih =>
    obtain ⟨s₁, h₁, hrun⟩ := bind_eq_ok hrun
    exact ih (hstep s a s₁ hs h₁) hrun

/-- The same for loops. -/
theorem foldlM_range_preserves {step : σ → ℕ → Except Fault σ} (I : ℕ → σ → Prop) {n : ℕ} (hs : I 0 s)
    (hstep : ∀ k < n, ∀ s s', I k s → step s k = .ok s' → I (k + 1) s') (hrun : (List.range n).foldlM step s = .ok s') :
    I n s' := by
  induction n generalizing s' with
  | zero =>
    cases hrun
    exact hs
  | succ n ih =>
    rw [List.range_succ, List.foldlM_append] at hrun
    obtain ⟨s₁, h₁, hrun⟩ := bind_eq_ok hrun
    obtain ⟨s₂, h₂, hrun⟩ := bind_eq_ok hrun
    obtain rfl : s₂ = s' := Except.ok.inj hrun
    exact hstep n (Nat.lt_succ_self n) s₁ s₂ (ih (fun k hk => hstep k (Nat.lt_succ_of_lt hk)) h₁) h₂

/-- The states a run passes through: one after each step, the last of them its end. -/
def foldlStates {σ β : Type u} (step : σ → β → Except Fault σ) : σ → List β → Except Fault (List σ)
  | _, [] => .ok []
  | s, a :: as => do
    let s' ← step s a
    let ss ← foldlStates step s' as
    return s' :: ss

/-- When no step from a state that satisfies `P` fails, and each leads to one that does,
a run passes through such states only. -/
theorem foldlStates_inv (step : σ → β → Except Fault σ) (P : σ → Prop) (as : List β)
    (hstep : ∀ s, ∀ a ∈ as, P s → ∃ s', step s a = .ok s' ∧ P s') (hs : P s) :
    ∃ ss, foldlStates step s as = .ok ss ∧ ∀ t ∈ ss, P t := by
  induction as generalizing s with
  | nil => exact ⟨[], rfl, by simp⟩
  | cons a as ih =>
    obtain ⟨s₁, h₁, hs₁⟩ := hstep s a (List.mem_cons_self ..) hs
    obtain ⟨ss, hss, hP⟩ := ih (fun s b hb => hstep s b (List.mem_cons_of_mem _ hb)) hs₁
    refine ⟨s₁ :: ss, ?_, List.forall_mem_cons.mpr ⟨hs₁, hP⟩⟩
    rw [foldlStates, h₁, ok_bind, hss]
    rfl

/-- The last state a run passes through is where it ends. -/
theorem foldlM_of_foldlStates {ss : List σ} (h : foldlStates step s as = .ok ss) :
    as.foldlM step s = .ok (ss.getLastD s) := by
  induction as generalizing s ss with
  | nil =>
    cases h
    rfl
  | cons a as ih =>
    obtain ⟨s₁, h₁, h⟩ := bind_eq_ok h
    obtain ⟨ss₁, hss, h⟩ := bind_eq_ok h
    cases h
    rw [List.foldlM_cons, h₁, ok_bind, ih hss, List.getLastD_cons]

/-- A run that does not fail passes through states. -/
theorem foldlStates_of_foldlM (hrun : as.foldlM step s = .ok s') : ∃ ss, foldlStates step s as = .ok ss := by
  induction as generalizing s with
  | nil => exact ⟨[], rfl⟩
  | cons a as ih =>
    obtain ⟨s₁, h₁, hrun⟩ := bind_eq_ok hrun
    obtain ⟨ss, hss⟩ := ih hrun
    refine ⟨s₁ :: ss, ?_⟩
    rw [foldlStates, h₁, ok_bind, hss]
    rfl

/-- A run of some steps passes through its end, and through nothing after it. -/
theorem getLast?_of_foldlStates {ss : List σ} (h : foldlStates step s as = .ok ss) (has : as ≠ [])
    (hrun : as.foldlM step s = .ok s') : ss.getLast? = some s' := by
  rw [foldlM_of_foldlStates h] at hrun
  cases as with
  | nil => exact absurd rfl has
  | cons a as =>
    obtain ⟨s₁, -, h⟩ := bind_eq_ok h
    obtain ⟨ss₁, -, h⟩ := bind_eq_ok h
    cases h
    rw [List.getLast?_cons, ← Except.ok.inj hrun, List.getLastD_cons, List.getLastD_eq_getLast?]

/-! ### Loops -/

/-- One turn of `updateLoop`. -/
def updateBody (f : ℕ → α → Except Fault α) (a : List α) (i : ℕ) : Except Fault (List α) := do
  let x ← load a i
  let y ← f i x
  store a i y

/-- `for (i = 0; i < n; i++) a[i] = f(i, a[i])`. -/
def updateLoop (f : ℕ → α → Except Fault α) (n : ℕ) (a : List α) : Except Fault (List α) :=
  (List.range n).foldlM (updateBody f) a

/-- What `updateLoop` leaves: the first `n` items are updated, the others are not. -/
def updated (g : ℕ → α → α) (n : ℕ) (a : List α) : List α :=
  a.mapIdx fun i x => if i < n then g i x else x

@[simp] theorem length_updated (g : ℕ → α → α) (n : ℕ) (a : List α) :
    (updated g n a).length = a.length := by simp [updated]

theorem getElem?_updated (g : ℕ → α → α) (n : ℕ) (a : List α) (i : ℕ) :
    (updated g n a)[i]? = a[i]?.map fun x => if i < n then g i x else x := by simp [updated]

theorem updated_zero (g : ℕ → α → α) (a : List α) : updated g 0 a = a := by
  apply List.ext_getElem?
  intro i
  rw [getElem?_updated]
  simp

/-- The turn at `n` stores there and nowhere else. -/
theorem updated_set (g : ℕ → α → α) {n : ℕ} {a : List α} (hn : n < a.length) :
    (updated g n a).set n (g n a[n]) = updated g (n + 1) a := by
  apply List.ext_getElem?
  intro i
  rw [List.getElem?_set, getElem?_updated, getElem?_updated, length_updated]
  by_cases hi : n = i
  · subst hi
    simp [hn]
  · have : i < n + 1 ↔ i < n := by omega
    simp [hi, this]

/-- A loop over an array long enough for it, whose turns do not fail, ends with
the first `n` items updated. -/
theorem updateLoop_ok {f : ℕ → α → Except Fault α} {g : ℕ → α → α} {n : ℕ} {a : List α}
    (hn : n ≤ a.length) (hf : ∀ i x, i < n → a[i]? = some x → f i x = .ok (g i x)) :
    updateLoop f n a = .ok (updated g n a) := by
  obtain ⟨a', hrun, rfl⟩ := foldlM_range_inv (updateBody f) (fun k a' => a' = updated g k a) (n := n)
    (updated_zero g a).symm fun k hk a' ha' => by
      subst ha'
      have hlt : k < a.length := by omega
      have hget : (updated g k a)[k]? = some a[k] := by
        rw [getElem?_updated, List.getElem?_eq_getElem hlt]
        simp
      refine ⟨_, ?_, updated_set g hlt⟩
      simp only [updateBody, load_of_getElem? hget, hf k a[k] hk (List.getElem?_eq_getElem hlt), ok_bind]
      exact store_lt (by rwa [length_updated]) _
  exact hrun

/-! ### Blocks -/

/-- `memcpy(dst + off, src, n)` where `src` is the `n` items copied. -/
def overwrite (dst : List α) (off : ℕ) (src : List α) : List α :=
  dst.take off ++ src ++ dst.drop (off + src.length)

/-- The `n` items at offset `off`. -/
def slice (a : List α) (off n : ℕ) : List α := (a.drop off).take n

/-- Copying to the start. -/
theorem overwrite_start (dst src : List α) : overwrite dst 0 src = src ++ dst.drop src.length := by
  simp [overwrite]

variable {dst src : List α} {off n : ℕ}

theorem length_overwrite (h : off + src.length ≤ dst.length) : (overwrite dst off src).length = dst.length := by
  simp only [overwrite, List.length_append, List.length_take, List.length_drop]
  omega

theorem length_slice {a : List α} (h : off + n ≤ a.length) : (slice a off n).length = n := by
  simp only [slice, List.length_take, List.length_drop]
  omega

theorem getElem?_overwrite (h : off ≤ dst.length) (i : ℕ) :
    (overwrite dst off src)[i]? =
      if i < off then dst[i]? else if i < off + src.length then src[i - off]? else dst[i]? := by
  unfold overwrite
  have ht : (dst.take off).length = off := by simp [h]
  by_cases h1 : i < off
  · rw [if_pos h1, List.append_assoc, List.getElem?_append_left (by omega), List.getElem?_take_of_lt h1]
  · rw [if_neg h1, List.append_assoc, List.getElem?_append_right (by omega), ht]
    by_cases h2 : i < off + src.length
    · rw [if_pos h2, List.getElem?_append_left (by omega)]
    · rw [if_neg h2, List.getElem?_append_right (by omega), List.getElem?_drop]
      congr 1
      omega

theorem getElem?_slice {a : List α} (h : i < n) : (slice a off n)[i]? = a[off + i]? := by
  rw [slice, List.getElem?_take_of_lt h, List.getElem?_drop]

/-- A part of a part. -/
theorem slice_slice (a : List α) {k : ℕ} (h : i + k ≤ n) : slice (slice a off n) i k = slice a (off + i) k := by
  rw [slice, slice, slice, List.drop_take, List.take_take, List.drop_drop, Nat.min_eq_left (by omega)]

theorem slice_append_left {a b : List α} (h : i + n ≤ a.length) : slice (a ++ b) i n = slice a i n := by
  rw [slice, slice, List.drop_append_of_le_length (by omega),
    List.take_append_of_le_length (by rw [List.length_drop]; omega)]

theorem slice_append_right {a b : List α} (h : a.length ≤ i) : slice (a ++ b) i n = slice b (i - a.length) n := by
  rw [slice, slice, List.drop_append, List.drop_eq_nil_of_le h, List.nil_append]

/-- One turn of `for (k = 0; k < n; k++) dst[k + off] = src[k]`. -/
def copyTurn (src : List α) (off : ℕ) (dst : List α) (k : ℕ) : Except Fault (List α) := do
  let x ← load src k
  store dst (k + off) x

/-- Copying one item more. -/
theorem overwrite_set {k : ℕ} (hsrc : k < src.length) (hdst : off + k < dst.length) :
    (overwrite dst off (src.take k)).set (k + off) src[k] = overwrite dst off (src.take (k + 1)) := by
  apply List.ext_getElem?
  intro i
  have hlen : (src.take k).length = k := List.length_take_of_le (Nat.le_of_lt hsrc)
  have hlen' : (src.take (k + 1)).length = k + 1 := List.length_take_of_le hsrc
  rw [List.getElem?_set, length_overwrite (by omega), getElem?_overwrite (by omega), getElem?_overwrite (by omega),
    hlen, hlen']
  by_cases hi : k + off = i
  · subst hi
    simp [show ¬ k + off < off by omega, show k + off < dst.length by omega,
      show k + off < off + (k + 1) by omega, hsrc]
  · rw [if_neg hi]
    by_cases h : i < off + k
    · rw [if_pos h, if_pos (by omega : i < off + (k + 1)), List.getElem?_take, List.getElem?_take]
      by_cases hlt : i < off
      · rw [if_pos hlt, if_pos hlt]
      · rw [if_neg hlt, if_neg hlt, if_pos (by omega), if_pos (by omega)]
    · rw [if_neg h, if_neg (by omega : ¬ i < off + (k + 1))]

/-- A copy item by item is a copy. -/
theorem copyTurns_ok (hsrc : n ≤ src.length) (hdst : off + n ≤ dst.length) :
    (List.range n).foldlM (copyTurn src off) dst = .ok (overwrite dst off (src.take n)) := by
  have hstart : dst = overwrite dst off (src.take 0) := by simp [overwrite]
  obtain ⟨dst', hrun, rfl⟩ := foldlM_range_inv (copyTurn src off)
    (fun k a => a = overwrite dst off (src.take k)) (n := n) hstart fun k hk a ha => by
      subst ha
      have hlt : k < src.length := by omega
      refine ⟨_, ?_, overwrite_set hlt (by omega)⟩
      rw [copyTurn, load_lt hlt, ok_bind]
      exact store_lt (by rw [length_overwrite (by rw [List.length_take]; omega)]; omega) _
  exact hrun

/-- Reading back inside what was copied. -/
theorem slice_overwrite_inside (h : off ≤ dst.length) (hi : off ≤ i) (hn : i + n ≤ off + src.length) :
    slice (overwrite dst off src) i n = slice src (i - off) n := by
  apply List.ext_getElem?
  intro j
  by_cases hj : j < n
  · rw [getElem?_slice hj, getElem?_slice hj, getElem?_overwrite h, if_neg (by omega), if_pos (by omega)]
    congr 1
    omega
  · rw [List.getElem?_eq_none (by simp [slice]; omega), List.getElem?_eq_none (by simp [slice]; omega)]

/-- Reading back beyond what was copied. -/
theorem slice_overwrite_after (h : off ≤ dst.length) (hi : off + src.length ≤ i) :
    slice (overwrite dst off src) i n = slice dst i n := by
  apply List.ext_getElem?
  intro j
  by_cases hj : j < n
  · rw [getElem?_slice hj, getElem?_slice hj, getElem?_overwrite h, if_neg (by omega), if_neg (by omega)]
  · rw [List.getElem?_eq_none (by simp [slice]; omega), List.getElem?_eq_none (by simp [slice]; omega)]

end Gross.Foundation
