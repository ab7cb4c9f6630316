import Mathlib.Data.Set.Lattice
import Mathlib.Data.List.Count

/-!
# A sliding window of generations

Items are inserted, from time to time a generation ends (`rotate`), and now and
then everything is dropped (`clear`). What a window of `N` generations is to hold
is said over the history of events alone: an item has age `g` when it was
inserted, not cleared since, and `g` generations have ended since (`Aged`); the
window shows the items of age below `N` (`visible`).

A window is kept in `N` slots used in turn. The slot of the generation of age `g`
lies `g` before the current one, cyclically (`slot`); ending a generation moves
to the next slot and empties it. `Holds` says that the slots hold the
generations, and each event's rule says what must be done to the slots for
`Holds` to go on holding. Items denote sets (`den`), and a slot holds the union
of the sets of its items: nothing is ever removed from a slot but all of it.
-/

namespace Gross.Foundation.Window

universe u v

variable {ι : Type u} {α : Type v}

/-- What happens to a window. -/
inductive Event (ι : Type u) where
  /-- An item is inserted. -/
  | insert (i : ι)
  /-- A generation ends. -/
  | rotate
  /-- Everything is dropped. -/
  | clear
  deriving DecidableEq, Repr

/-- Whether an event ends a generation. -/
def Event.isRotate : Event ι → Bool
  | .rotate => true
  | _ => false

/-- How many generations end in a history. -/
def rotations (es : List (Event ι)) : ℕ := es.countP Event.isRotate

@[simp] theorem rotations_nil : rotations ([] : List (Event ι)) = 0 := rfl

@[simp] theorem rotations_append (es es' : List (Event ι)) :
    rotations (es ++ es') = rotations es + rotations es' := List.countP_append

@[simp] theorem rotations_insert (i : ι) : rotations [Event.insert i] = 0 := rfl

@[simp] theorem rotations_rotate : rotations [(Event.rotate : Event ι)] = 1 := rfl

/-- After the history `es` item `i` has age `g`: it was inserted, nothing was
cleared since, and `g` generations have ended since. -/
def Aged (es : List (Event ι)) (g : ℕ) (i : ι) : Prop :=
  ∃ pre post, es = pre ++ .insert i :: post ∧ .clear ∉ post ∧ rotations post = g

theorem not_aged_nil (g : ℕ) (i : ι) : ¬ Aged [] g i := by
  rintro ⟨pre, post, h, -⟩
  simp at h

/-- An age before the last event, from one after it: either the item is what the
last event inserted, or it had an age before, which the event has not ended. -/
theorem aged_snoc_iff (es : List (Event ι)) (e : Event ι) (g : ℕ) (i : ι) :
    Aged (es ++ [e]) g i ↔
      (e = .insert i ∧ g = 0) ∨ (e ≠ .clear ∧ ∃ g', Aged es g' i ∧ g = g' + rotations [e]) := by
  constructor
  · rintro ⟨pre, post, h, hc, rfl⟩
    rcases List.eq_nil_or_concat post with rfl | ⟨post', e', rfl⟩
    · have h' : es ++ [e] = pre ++ [Event.insert i] := h
      have he := List.append_inj_right' h' rfl
      simp only [List.cons.injEq, and_true] at he
      exact Or.inl ⟨he, rfl⟩
    · have h' : es ++ [e] = (pre ++ .insert i :: post') ++ [e'] := by rw [h]; simp
      obtain ⟨h1, h2⟩ := List.append_inj' h' rfl
      simp only [List.cons.injEq, and_true] at h2
      subst h2
      simp only [List.concat_eq_append, List.mem_append, List.mem_singleton, not_or] at hc
      exact Or.inr ⟨Ne.symm hc.2, _, ⟨pre, post', h1, hc.1, rfl⟩, by simp⟩
  · rintro (⟨rfl, rfl⟩ | ⟨he, g', ⟨pre, post, rfl, hc, rfl⟩, rfl⟩)
    · exact ⟨es, [], rfl, by simp, rfl⟩
    · refine ⟨pre, post ++ [e], by simp, ?_, by simp⟩
      simp only [List.mem_append, List.mem_singleton, not_or]
      exact ⟨hc, Ne.symm he⟩

theorem aged_insert_iff (es : List (Event ι)) (j i : ι) (g : ℕ) :
    Aged (es ++ [.insert j]) g i ↔ (i = j ∧ g = 0) ∨ Aged es g i := by
  rw [aged_snoc_iff]
  simp [eq_comm]

theorem aged_rotate_zero (es : List (Event ι)) (i : ι) : ¬ Aged (es ++ [.rotate]) 0 i := by
  rw [aged_snoc_iff]
  simp

theorem aged_rotate_succ (es : List (Event ι)) (g : ℕ) (i : ι) :
    Aged (es ++ [.rotate]) (g + 1) i ↔ Aged es g i := by
  rw [aged_snoc_iff]
  simp

theorem not_aged_clear (es : List (Event ι)) (g : ℕ) (i : ι) : ¬ Aged (es ++ [.clear]) g i := by
  rw [aged_snoc_iff]
  simp

/-! ### What a window holds -/

variable (den : ι → Set α)

/-- The generation of age `g`: the union of the sets of the items of that age. -/
def content (es : List (Event ι)) (g : ℕ) : Set α := {x | ∃ i, Aged es g i ∧ x ∈ den i}

/-- What a window of `N` generations shows. -/
def visible (N : ℕ) (es : List (Event ι)) : Set α := {x | ∃ g < N, x ∈ content den es g}

variable {den}

theorem content_nil (g : ℕ) : content den [] g = ∅ := by
  ext x
  simp only [content, Set.mem_ofPred_eq, Set.mem_empty_iff_false, iff_false]
  rintro ⟨i, h, -⟩
  exact not_aged_nil g i h

theorem content_insert_zero (es : List (Event ι)) (j : ι) :
    content den (es ++ [.insert j]) 0 = content den es 0 ∪ den j := by
  ext x
  simp only [content, aged_insert_iff, Set.mem_ofPred_eq, Set.mem_union]
  constructor
  · rintro ⟨i, ⟨rfl, -⟩ | h, hx⟩
    · exact Or.inr hx
    · exact Or.inl ⟨i, h, hx⟩
  · rintro (⟨i, h, hx⟩ | hx)
    · exact ⟨i, Or.inr h, hx⟩
    · exact ⟨j, Or.inl ⟨rfl, trivial⟩, hx⟩

theorem content_insert_succ (es : List (Event ι)) (j : ι) (g : ℕ) :
    content den (es ++ [.insert j]) (g + 1) = content den es (g + 1) := by
  ext x
  simp [content, aged_insert_iff]

theorem content_rotate_zero (es : List (Event ι)) : content den (es ++ [.rotate]) 0 = ∅ := by
  ext x
  simp [content, aged_rotate_zero]

theorem content_rotate_succ (es : List (Event ι)) (g : ℕ) :
    content den (es ++ [.rotate]) (g + 1) = content den es g := by
  ext x
  simp [content, aged_rotate_succ]

theorem content_clear (es : List (Event ι)) (g : ℕ) : content den (es ++ [.clear]) g = ∅ := by
  ext x
  simp [content, not_aged_clear]

/-! ### Slots -/

/-- The slot of the generation of age `g`, when `cur` is the current slot. -/
def slot (N cur g : ℕ) : ℕ := (cur + N - g) % N

/-- The slot a rotation moves to. -/
def next (N cur : ℕ) : ℕ := (cur + 1) % N

theorem slot_zero {N cur : ℕ} (h : cur < N) : slot N cur 0 = cur := by
  rw [slot, Nat.sub_zero, Nat.add_mod_right, Nat.mod_eq_of_lt h]

theorem slot_lt {N cur : ℕ} (h : cur < N) (g : ℕ) : slot N cur g < N := Nat.mod_lt _ (by omega)

theorem next_lt {N cur : ℕ} (h : cur < N) : next N cur < N := Nat.mod_lt _ (by omega)

/-- The slots of a window, without the wrap. -/
theorem slot_eq {N cur g : ℕ} (hc : cur < N) (hg : g < N) :
    slot N cur g = if g ≤ cur then cur - g else cur + N - g := by
  unfold slot
  split_ifs with h
  · rw [show cur + N - g = (cur - g) + N by omega, Nat.add_mod_right, Nat.mod_eq_of_lt (by omega)]
  · exact Nat.mod_eq_of_lt (by omega)

theorem next_eq {N cur : ℕ} (h : cur < N) : next N cur = if cur + 1 < N then cur + 1 else 0 := by
  unfold next
  split_ifs with h'
  · exact Nat.mod_eq_of_lt h'
  · rw [show cur + 1 = N by omega, Nat.mod_self]

/-- Moving on, every generation is one older in the slot where it is. -/
theorem slot_next_succ {N cur g : ℕ} (hc : cur < N) (hg : g + 1 < N) :
    slot N (next N cur) (g + 1) = slot N cur g := by
  rw [slot_eq (next_lt hc) hg, slot_eq hc (by omega), next_eq hc]
  split_ifs <;> omega

/-- Only the generation of age `0` is in the current slot. -/
theorem slot_succ_ne {N cur g : ℕ} (hc : cur < N) (hg : g + 1 < N) : slot N cur (g + 1) ≠ cur := by
  rw [slot_eq hc hg]
  split_ifs <;> omega

/-- Every slot is the slot of some age: that of slot `s` is `(cur + N - s) % N`. -/
theorem slot_slot {N cur s : ℕ} (hc : cur < N) (hs : s < N) : slot N cur (slot N cur s) = s := by
  rw [slot_eq hc (slot_lt hc s), slot_eq hc hs]
  split_ifs <;> omega

/-! ### Slots that hold the generations -/

variable (den)

/-- The slots `m`, of which `cur` is the current one, hold the generations of the
history `es`. -/
structure Holds (N : ℕ) (m : ℕ → Set α) (cur : ℕ) (es : List (Event ι)) : Prop where
  /-- The current slot is one of the `N`. -/
  lt : cur < N
  /-- Each slot holds the generation of its age. -/
  eq : ∀ g < N, m (slot N cur g) = content den es g

variable {den} {N : ℕ} {m m' : ℕ → Set α} {cur : ℕ} {es : List (Event ι)}

/-- Empty slots hold the generations of the empty history. -/
theorem holds_nil (hN : 0 < N) (hm : ∀ s < N, m s = ∅) : Holds den N m 0 [] :=
  ⟨hN, fun g _ => by rw [hm _ (slot_lt hN g), content_nil]⟩

/-- Insertion adds to the current slot. -/
theorem Holds.insert (h : Holds den N m cur es) (i : ι) (hcur : m' cur = m cur ∪ den i)
    (hne : ∀ s < N, s ≠ cur → m' s = m s) : Holds den N m' cur (es ++ [.insert i]) := by
  refine ⟨h.lt, fun g hg => ?_⟩
  rcases g with _ | g
  · rw [content_insert_zero, ← h.eq 0 hg, slot_zero h.lt, hcur]
  · rw [content_insert_succ, ← h.eq _ hg, hne _ (slot_lt h.lt _) (slot_succ_ne h.lt hg)]

/-- Rotation moves to the next slot and empties it. -/
theorem Holds.rotate (h : Holds den N m cur es) (hnext : m' (next N cur) = ∅)
    (hne : ∀ s < N, s ≠ next N cur → m' s = m s) :
    Holds den N m' (next N cur) (es ++ [.rotate]) := by
  have hlt := next_lt h.lt
  refine ⟨hlt, fun g hg => ?_⟩
  rcases g with _ | g
  · rw [content_rotate_zero, slot_zero hlt, hnext]
  · rw [content_rotate_succ, ← h.eq g (by omega), hne _ (slot_lt hlt _) (slot_succ_ne hlt hg),
      slot_next_succ h.lt hg]

/-- Clearing empties the slots, and starts again at slot `0`. -/
theorem Holds.clear (h : Holds den N m cur es) (hm : ∀ s < N, m' s = ∅) :
    Holds den N m' 0 (es ++ [.clear]) := by
  have hN : 0 < N := Nat.lt_of_le_of_lt (Nat.zero_le _) h.lt
  exact ⟨hN, fun g _ => by rw [hm _ (slot_lt hN g), content_clear]⟩

/-- What is in some slot is what the window shows. -/
theorem Holds.mem_visible (h : Holds den N m cur es) (x : α) :
    x ∈ visible den N es ↔ ∃ s < N, x ∈ m s := by
  constructor
  · rintro ⟨g, hg, hx⟩
    exact ⟨slot N cur g, slot_lt h.lt g, by rwa [h.eq g hg]⟩
  · rintro ⟨s, hs, hx⟩
    refine ⟨slot N cur s, slot_lt h.lt s, ?_⟩
    rwa [← h.eq _ (slot_lt h.lt s), slot_slot h.lt hs]

end Gross.Foundation.Window
