import Mathlib.Data.List.Basic

/-!
# Blocks of memory, side by side

A block is a range of bytes, given by its offset and its length. Blocks laid one
after another, each beginning where the one before it ends, tile a range
(`Tiled`): then no two overlap (`Tiled.pairwise_apart`), and all lie between the
first offset and the last end (`Tiled.inside`).
-/

namespace Gross.Foundation

/-- A range of bytes. -/
structure Block where
  /-- Where it begins. -/
  off : ℕ
  /-- How long it is. -/
  len : ℕ
  deriving DecidableEq, Repr

/-- Two blocks do not overlap. -/
def Block.Apart (a b : Block) : Prop := a.off + a.len ≤ b.off ∨ b.off + b.len ≤ a.off

instance (a b : Block) : Decidable (a.Apart b) := inferInstanceAs (Decidable (_ ∨ _))

/-- The blocks lie one after another, from `s` to `e`. -/
def Tiled : ℕ → List Block → ℕ → Prop
  | s, [], e => s = e
  | s, b :: bs, e => b.off = s ∧ Tiled (s + b.len) bs e

variable {s m e : ℕ} {xs ys : List Block}

theorem Tiled.append (hx : Tiled s xs m) (hy : Tiled m ys e) : Tiled s (xs ++ ys) e := by
  induction xs generalizing s with
  | nil => exact hx ▸ hy
  | cons b xs ih => exact ⟨hx.1, ih hx.2⟩

/-- Blocks of one length. -/
theorem tiled_range (s l n : ℕ) : Tiled s ((List.range n).map fun i => ⟨s + i * l, l⟩) (s + n * l) := by
  induction n with
  | zero => simp [Tiled]
  | succ n ih =>
    rw [List.range_succ, List.map_append]
    refine ih.append ⟨rfl, ?_⟩
    show s + n * l + l = s + (n + 1) * l
    rw [Nat.succ_mul, Nat.add_assoc]

theorem Tiled.inside (h : Tiled s xs e) : s ≤ e ∧ ∀ b ∈ xs, s ≤ b.off ∧ b.off + b.len ≤ e := by
  induction xs generalizing s with
  | nil => exact ⟨Nat.le_of_eq h, by simp⟩
  | cons b xs ih =>
    obtain ⟨rfl, h⟩ := h
    obtain ⟨hle, hin⟩ := ih h
    refine ⟨by omega, fun c hc => ?_⟩
    rcases List.mem_cons.mp hc with rfl | hc
    · exact ⟨Nat.le_refl _, hle⟩
    · have := hin c hc
      exact ⟨by omega, this.2⟩

theorem Tiled.pairwise_apart (h : Tiled s xs e) : xs.Pairwise Block.Apart := by
  induction xs generalizing s with
  | nil => exact List.Pairwise.nil
  | cons b xs ih =>
    obtain ⟨rfl, h⟩ := h
    refine List.pairwise_cons.mpr ⟨fun c hc => ?_, ih h⟩
    exact Or.inl (h.inside.2 c hc).1

end Gross.Foundation
