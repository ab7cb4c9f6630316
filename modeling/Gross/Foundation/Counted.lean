import Gross.Foundation.CArray

/-!
# Counted references

An object on the heap that several threads share has a count of the references to it.
Who drops the last one frees the object.

* `Counted` — the count, and how often the object has been freed.
* `Counted.reference`, `Counted.unlink` — taking and dropping a reference. Both fail on
  an object that is gone, and the latter if there is nothing to drop.
* `Counted.Held n` — there are `n` references: the count says so, and the object has
  been freed, once, if there is none. Who has a reference may take another one and may
  drop it (`Held.reference`, `Held.unlink`).
-/

namespace Gross.Foundation

/-- A counted object. -/
structure Counted where
  /-- The count. -/
  count : ℕ
  /-- How often it has been freed. -/
  freed : ℕ
  deriving DecidableEq, Repr

namespace Counted

/-- A new object, with the reference of who made it. -/
def new : Counted := ⟨1, 0⟩

/-- A reference is taken. -/
def reference (o : Counted) : Except Fault Counted :=
  if o.freed = 0 then .ok ⟨o.count + 1, o.freed⟩ else .error .outOfBounds

/-- A reference is dropped, and the object freed with the last one. -/
def unlink (o : Counted) : Except Fault Counted :=
  if o.freed = 0 then do
    check (o.count > 0)
    return if o.count - 1 = 0 then ⟨0, o.freed + 1⟩ else ⟨o.count - 1, o.freed⟩
  else .error .outOfBounds

/-- There are `n` references, and the object has been freed if there is none. -/
structure Held (o : Counted) (n : ℕ) : Prop where
  /-- The count. -/
  count : o.count = n
  /-- It has been freed once, or not yet. -/
  freed : o.freed = if n = 0 then 1 else 0

variable {o : Counted} {n : ℕ}

theorem held_new : new.Held 1 := ⟨rfl, rfl⟩

theorem Held.of_eq {m : ℕ} (h : o.Held m) (hmn : m = n) : o.Held n := hmn ▸ h

theorem Held.reference (h : o.Held n) (hn : n ≠ 0) : ∃ o', o.reference = .ok o' ∧ o'.Held (n + 1) := by
  have hfreed : o.freed = 0 := h.freed.trans (if_neg hn)
  exact ⟨_, if_pos hfreed, by simp [h.count], by simp [hfreed]⟩

theorem Held.unlink (h : o.Held (n + 1)) : ∃ o', o.unlink = .ok o' ∧ o'.Held n := by
  have hfreed : o.freed = 0 := h.freed.trans (if_neg (Nat.succ_ne_zero n))
  have hpos : o.count > 0 := by simp [h.count]
  rw [Counted.unlink, if_pos hfreed, check_pos hpos, ok_bind, h.count, hfreed]
  refine ⟨_, rfl, ?_⟩
  rw [Nat.add_sub_cancel]
  split_ifs with hn
  · exact ⟨hn.symm, by simp [hn]⟩
  · exact ⟨rfl, by simp [hn]⟩

end Counted

end Gross.Foundation
