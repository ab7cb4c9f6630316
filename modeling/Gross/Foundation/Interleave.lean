import Mathlib.Data.List.Perm.Basic

/-!
# Parties and what they send

Several parties, each with a list of things it sends, in order. What arrives is the
lists merged in any way that keeps each in order.

* `Interleave ls as` — `as` is such a merge of the lists `ls`. `Interleave.perm` — it
  is all of them.
* `tally f xs` — a number for each party, added up. `tally_set` — what one party's
  step does to it.
-/

namespace Gross.Foundation

universe u

variable {α : Type u}

/-- `as` is a merge of the lists, each in its order. -/
inductive Interleave : List (List α) → List α → Prop where
  /-- Nothing is left in any of them. -/
  | nil {ls : List (List α)} (h : ∀ l ∈ ls, l = []) : Interleave ls []
  /-- The next one is the next of list `i`. -/
  | cons {ls : List (List α)} {i : ℕ} {a : α} {l as : List α} (hi : ls[i]? = some (a :: l))
      (h : Interleave (ls.set i l) as) : Interleave ls (a :: as)

theorem flatten_set_perm {ls : List (List α)} {i : ℕ} {a : α} {l : List α} (hi : ls[i]? = some (a :: l)) :
    (a :: (ls.set i l).flatten).Perm ls.flatten := by
  induction ls generalizing i with
  | nil => cases hi
  | cons l' ls ih =>
    cases i with
    | zero =>
      cases hi
      exact .refl _
    | succ i =>
      simp only [List.set_cons_succ, List.flatten_cons]
      exact List.perm_middle.symm.trans ((ih hi).append_left l')

/-- All that was sent arrives, and nothing else. -/
theorem Interleave.perm {ls : List (List α)} {as : List α} (h : Interleave ls as) : as.Perm ls.flatten := by
  induction h with
  | nil h => rw [List.flatten_eq_nil_iff.mpr h]
  | cons hi _ ih => exact (ih.cons _).trans (flatten_set_perm hi)

/-- A number for each party, added up. -/
def tally (f : α → ℕ) : List α → ℕ
  | [] => 0
  | a :: xs => f a + tally f xs

variable {f : α → ℕ} {xs : List α}

@[simp] theorem tally_nil : tally f [] = 0 := rfl

@[simp] theorem tally_cons (a : α) : tally f (a :: xs) = f a + tally f xs := rfl

@[simp] theorem tally_append (ys : List α) : tally f (xs ++ ys) = tally f xs + tally f ys := by
  induction xs with
  | nil => simp
  | cons x xs ih => rw [List.cons_append, tally_cons, tally_cons, ih, Nat.add_assoc]

/-- When one party changes, the sum changes by the difference. -/
theorem tally_set {i : ℕ} {a : α} (hi : xs[i]? = some a) (b : α) :
    tally f (xs.set i b) + f a = tally f xs + f b := by
  induction xs generalizing i with
  | nil => cases hi
  | cons x xs ih =>
    cases i with
    | zero =>
      cases hi
      simp only [List.set_cons_zero, tally_cons]
      omega
    | succ i =>
      have h := ih hi
      simp only [List.set_cons_succ, tally_cons]
      omega

theorem le_tally {a : α} (ha : a ∈ xs) : f a ≤ tally f xs := by
  induction xs with
  | nil => cases ha
  | cons x xs ih =>
    rw [tally_cons]
    rcases List.mem_cons.mp ha with rfl | ha
    · exact Nat.le_add_right _ _
    · exact Nat.le_trans (ih ha) (Nat.le_add_left _ _)

/-- A sum of greater numbers is greater. -/
theorem tally_mono {g : α → ℕ} (h : ∀ a ∈ xs, f a ≤ g a) : tally f xs ≤ tally g xs := by
  induction xs with
  | nil => exact Nat.le_refl 0
  | cons x xs ih =>
    rw [List.forall_mem_cons] at h
    exact Nat.add_le_add h.1 (ih h.2)

theorem tally_congr {g : α → ℕ} (h : ∀ a ∈ xs, f a = g a) : tally f xs = tally g xs :=
  Nat.le_antisymm (tally_mono fun a ha => Nat.le_of_eq (h a ha)) (tally_mono fun a ha => Nat.le_of_eq (h a ha).symm)

theorem tally_const (n : ℕ) : tally (fun _ => n) xs = xs.length * n := by
  induction xs with
  | nil => simp
  | cons x xs ih => rw [tally_cons, ih, List.length_cons, Nat.succ_mul, Nat.add_comm]

theorem tally_eq_zero : tally f xs = 0 ↔ ∀ a ∈ xs, f a = 0 := by
  induction xs with
  | nil => simp
  | cons x xs ih => simp [ih]

end Gross.Foundation
