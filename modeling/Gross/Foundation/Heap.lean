import Gross.Foundation.CArray
import Mathlib.Data.List.Nodup

/-!
# Blocks on the heap, and chains of them

A pointer is the address of a block, or NULL. A block is there from the time it is
allocated until it is freed; reading through NULL, or a block that is not there, is
a fault.

* `Heap.read`, `Heap.write`, `Heap.free` — through a pointer.
* `Segment next h p l q` — from the pointer `p` the blocks of `l` follow one another,
  and the pointer in the last of them is `q`. With `q` NULL they are a list.
* `Segment.frame` — what is written elsewhere does not matter.
* `Segment.unique`, `Segment.nodup` — a list is told by its first pointer, and has no
  block twice.
* `Segment.push` — a block linked to the last one of a list is then the last one.
-/

namespace Gross.Foundation

universe u

variable {γ : Type u}

/-- An address. -/
abbrev Addr := ℕ

/-- What is in the block at each address, where there is one. -/
abbrev Heap (γ : Type u) := Addr → Option γ

namespace Heap

/-- Nothing is allocated. -/
def empty : Heap γ := fun _ => none

/-- The heap with another block at `a`. -/
def set (h : Heap γ) (a : Addr) (c : Option γ) : Heap γ := fun b => if b = a then c else h b

@[simp]
theorem set_self (h : Heap γ) (a : Addr) (c : Option γ) : h.set a c a = c := if_pos rfl

theorem set_ne (h : Heap γ) {a b : Addr} (hab : b ≠ a) (c : Option γ) : h.set a c b = h b := if_neg hab

/-- `*p` -/
def read (h : Heap γ) : Option Addr → Except Fault γ
  | none => .error .outOfBounds
  | some a =>
    match h a with
    | none => .error .outOfBounds
    | some c => .ok c

/-- `*p = c` -/
def write (h : Heap γ) (p : Option Addr) (c : γ) : Except Fault (Heap γ) :=
  match p with
  | none => .error .outOfBounds
  | some a => if (h a).isSome then .ok (h.set a (some c)) else .error .outOfBounds

/-- `free(p)` -/
def free (h : Heap γ) (p : Option Addr) : Except Fault (Heap γ) :=
  match p with
  | none => .ok h
  | some a => if (h a).isSome then .ok (h.set a none) else .error .outOfBounds

variable {h : Heap γ} {a : Addr} {c : γ}

theorem read_some (hc : h a = some c) : h.read (some a) = .ok c := by
  simp only [read, hc]

theorem write_some (hc : h a = some c) (d : γ) : h.write (some a) d = .ok (h.set a (some d)) := by
  simp only [write, hc, Option.isSome_some, if_true]

theorem free_some (hc : h a = some c) : h.free (some a) = .ok (h.set a none) := by
  simp only [free, hc, Option.isSome_some, if_true]

end Heap

variable (next : γ → Option Addr)

/-- From `p` the blocks of `l` follow one another, and the pointer in the last one is `q`. -/
def Segment (h : Heap γ) : Option Addr → List (Addr × γ) → Option Addr → Prop
  | p, [], q => p = q
  | p, (a, c) :: l, q => p = some a ∧ h a = some c ∧ Segment h (next c) l q

variable {next} {h h' : Heap γ} {p q : Option Addr} {a : Addr} {c : γ} {l l' : List (Addr × γ)}

@[simp]
theorem segment_nil : Segment next h p [] q ↔ p = q := Iff.rfl

@[simp]
theorem segment_cons : Segment next h p ((a, c) :: l) q ↔ p = some a ∧ h a = some c ∧ Segment next h (next c) l q :=
  Iff.rfl

theorem segment_append : Segment next h p (l ++ l') q ↔ ∃ r, Segment next h p l r ∧ Segment next h r l' q := by
  induction l generalizing p with
  | nil => simp
  | cons x l ih =>
    obtain ⟨a, c⟩ := x
    simp only [List.cons_append, segment_cons, ih]
    constructor
    · rintro ⟨hp, hc, r, hl, hl'⟩
      exact ⟨r, ⟨hp, hc, hl⟩, hl'⟩
    · rintro ⟨r, ⟨hp, hc, hl⟩, hl'⟩
      exact ⟨hp, hc, r, hl, hl'⟩

/-- Each block of a segment is there. -/
theorem Segment.mem (hseg : Segment next h p l q) (hx : (a, c) ∈ l) : h a = some c := by
  induction l generalizing p with
  | nil => cases hx
  | cons x l ih =>
    rw [List.mem_cons] at hx
    obtain rfl | hx := hx
    · exact hseg.2.1
    · exact ih hseg.2.2 hx

/-- What is written elsewhere does not matter. -/
theorem Segment.frame (hseg : Segment next h p l q) (hsame : ∀ a ∈ l.map Prod.fst, h' a = h a) :
    Segment next h' p l q := by
  induction l generalizing p with
  | nil => exact hseg
  | cons x l ih =>
    obtain ⟨a, c⟩ := x
    simp only [List.map_cons, List.forall_mem_cons] at hsame
    exact ⟨hseg.1, hsame.1.trans hseg.2.1, ih hseg.2.2 hsame.2⟩

theorem Segment.frame_set (hseg : Segment next h p l q) (ha : a ∉ l.map Prod.fst) (d : Option γ) :
    Segment next (h.set a d) p l q := by
  apply hseg.frame
  intro b hb
  exact Heap.set_ne h (ne_of_mem_of_not_mem hb ha) d

/-- A list is told by its first pointer. -/
theorem Segment.unique (hl : Segment next h p l none) (hl' : Segment next h p l' none) : l = l' := by
  induction l generalizing p l' with
  | nil =>
    cases hl
    cases l' with
    | nil => rfl
    | cons x l' => cases hl'.1
  | cons x l ih =>
    obtain ⟨a, c⟩ := x
    obtain ⟨rfl, hc, hl⟩ := hl
    cases l' with
    | nil => cases hl'
    | cons y l' =>
      obtain ⟨b, d⟩ := y
      obtain ⟨hab, hd, hl'⟩ := hl'
      cases hab
      rw [hc] at hd
      cases hd
      rw [ih hl hl']

/-- It has no block twice: what follows a block is told by its address. -/
theorem Segment.nodup (hl : Segment next h p l none) : (l.map Prod.fst).Nodup := by
  induction l generalizing p with
  | nil => exact List.nodup_nil
  | cons x l ih =>
    obtain ⟨a, c⟩ := x
    rw [List.map_cons, List.nodup_cons]
    refine ⟨?_, ih hl.2.2⟩
    intro ha
    obtain ⟨⟨b, d⟩, hmem, rfl⟩ := List.mem_map.mp ha
    obtain ⟨l₁, l₂, rfl⟩ := List.append_of_mem hmem
    obtain ⟨r, -, hr⟩ := segment_append.mp hl.2.2
    obtain ⟨rfl, hd, hl₂⟩ := hr
    have heq := hl.unique (show Segment next h p ((b, d) :: l₂) none from ⟨hl.1, hd, hl₂⟩)
    have hlen := congrArg List.length heq
    simp at hlen
    omega

/-- A list is empty when its first pointer is NULL. -/
theorem Segment.nil_iff (hl : Segment next h p l none) : l = [] ↔ p = none := by
  cases l with
  | nil => exact ⟨fun _ => hl, fun _ => rfl⟩
  | cons x l => simp [hl.1]

/-- A block linked to the last one of a list is then the last one. -/
theorem Segment.push {z : Addr} {cz cz' : γ} {l : List (Addr × γ)} (hl : Segment next h p (l ++ [(z, cz)]) none)
    (ha : a ∉ (l ++ [(z, cz)]).map Prod.fst) (hc : h a = some c) (hnext : next c = none) (hlink : next cz' = some a) :
    Segment next (h.set z (some cz')) p (l ++ [(z, cz'), (a, c)]) none := by
  have hnodup := hl.nodup
  rw [List.map_append, List.nodup_append] at hnodup
  obtain ⟨r, hfirst, rfl, -, -⟩ := segment_append.mp hl
  refine segment_append.mpr ⟨some z, hfirst.frame_set ?_ _, rfl, Heap.set_self .., ?_⟩
  · intro hz
    exact hnodup.2.2 z hz z (by simp) rfl
  · have haz : a ≠ z := by
      rintro rfl
      simp at ha
    exact ⟨hlink, (Heap.set_ne _ haz _).trans hc, hnext⟩

end Gross.Foundation
