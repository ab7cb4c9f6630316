import Gross.Foundation.CArray
import Mathlib.Data.Set.Lattice

/-!
# Words as sets of bits

An array of `w`-bit words holds a set of natural numbers: bit `n` is bit `n % w`
of word `n / w`. The set operations a program makes on such an array, and what
it does to the words for them:

* setting a bit is inserting its number (`bits_set_or`);
* or-ing one array into another is a union (`bits_updated_or`), and or-ing a
  block of words in at an offset is a union with the block moved there
  (`bits_or_block`);
* an array of zeros is empty (`bits_replicate_zero`).
-/

namespace Gross.Foundation

variable {w : ℕ}

/-- Bit `n` of an array of words; a word outside the array has no bits. -/
def testBit (a : List (BitVec w)) (n : ℕ) : Bool := (a[n / w]?.getD 0).getLsbD (n % w)

/-- The set of bits an array of words holds. -/
def bits (a : List (BitVec w)) : Set ℕ := {n | testBit a n = true}

theorem mem_bits {a : List (BitVec w)} {n : ℕ} : n ∈ bits a ↔ testBit a n = true := Iff.rfl

instance (a : List (BitVec w)) (n : ℕ) : Decidable (n ∈ bits a) :=
  inferInstanceAs (Decidable (testBit a n = true))

/-- Bit `w * i + j` is bit `j` of word `i`. -/
theorem testBit_mul_add {a : List (BitVec w)} {i j : ℕ} (hj : j < w) :
    testBit a (w * i + j) = (a[i]?.getD 0).getLsbD j := by
  unfold testBit
  rw [Nat.mul_add_div (by omega), Nat.div_eq_of_lt hj, Nat.mul_add_mod, Nat.mod_eq_of_lt hj, Nat.add_zero]

/-- A bit that is set lies inside the array. -/
theorem lt_of_mem_bits {a : List (BitVec w)} {n : ℕ} (h : n ∈ bits a) : n < w * a.length := by
  rw [mem_bits, testBit] at h
  have hw : 0 < w := by
    by_contra hw
    obtain rfl : w = 0 := by omega
    simp at h
  by_contra hn
  have hlen : a.length ≤ n / w := (Nat.le_div_iff_mul_le hw).mpr (by rw [Nat.mul_comm]; omega)
  rw [List.getElem?_eq_none hlen] at h
  simp at h

@[simp] theorem bits_replicate_zero (k : ℕ) : bits (List.replicate k (0 : BitVec w)) = ∅ := by
  ext n
  simp only [mem_bits, testBit, Set.mem_empty_iff_false, iff_false]
  by_cases h : n / w < k <;> simp [h]

/-! ### Setting a bit -/

/-- The word with bit `j` alone. -/
theorem getLsbD_one_shiftLeft {j k : ℕ} (hj : j < w) :
    ((1 : BitVec w) <<< j).getLsbD k = decide (k = j) := by
  rw [BitVec.getLsbD_shiftLeft]
  by_cases hk : k = j
  · subst hk
    simp [hj, show 0 < w by omega]
  · by_cases hlt : k < j
    · simp [hlt, hk]
    · have : k - j ≠ 0 := by omega
      simp [this, hk]

/-- Or-ing the word with bit `j` alone into word `i` inserts bit `w * i + j`. -/
theorem bits_set_or {a : List (BitVec w)} {i j : ℕ} {x : BitVec w} (hx : a[i]? = some x) (hj : j < w) :
    bits (a.set i (x ||| (1 : BitVec w) <<< j)) = insert (w * i + j) (bits a) := by
  ext n
  have hw : 0 < w := by omega
  obtain ⟨hi, hxi⟩ := List.getElem?_eq_some_iff.mp hx
  have hn := Nat.div_add_mod n w
  have hmod : n % w < w := Nat.mod_lt _ hw
  rw [Set.mem_insert_iff, mem_bits, mem_bits, testBit, testBit, List.getElem?_set]
  by_cases hni : i = n / w
  · rw [if_pos hni, if_pos hi, ← hni, hx]
    simp only [Option.getD_some, BitVec.getLsbD_or, getLsbD_one_shiftLeft hj, Bool.or_eq_true, decide_eq_true_eq]
    have : n % w = j ↔ n = w * i + j := by
      constructor
      · intro h
        rw [hni, ← h]
        omega
      · rintro rfl
        rw [Nat.mul_add_mod, Nat.mod_eq_of_lt hj]
    rw [this]
    tauto
  · rw [if_neg hni]
    have : n ≠ w * i + j := by
      rintro rfl
      apply hni
      rw [Nat.mul_add_div hw, Nat.div_eq_of_lt hj, Nat.add_zero]
    simp [this]

/-! ### Unions -/

/-- Or-ing the words of `b` into an array of the same length is a union. -/
theorem bits_updated_or {a b : List (BitVec w)} (hl : a.length = b.length) :
    bits (updated (fun i x => x ||| b[i]?.getD 0) a.length a) = bits a ∪ bits b := by
  ext n
  simp only [mem_bits, testBit, Set.mem_union, getElem?_updated]
  by_cases h : n / w < a.length
  · simp [h]
  · rw [List.getElem?_eq_none (by omega), List.getElem?_eq_none (by omega)]
    simp

/-- `a'` is `a` with the first `m` words of `b` or-ed in at word `i`. -/
def OrBlock (a b : List (BitVec w)) (i m : ℕ) (a' : List (BitVec w)) : Prop :=
  a'.length = a.length ∧ ∀ k : ℕ, a'[k]? = a[k]?.map fun x => if i ≤ k ∧ k < i + m then x ||| b[k - i]?.getD 0 else x

theorem orBlock_zero (a b : List (BitVec w)) (i : ℕ) : OrBlock a b i 0 a := by
  refine ⟨rfl, fun k => ?_⟩
  have : ¬ (i ≤ k ∧ k < i + 0) := by omega
  simp only [this, if_false]
  simp

/-- A word more. -/
theorem OrBlock.set {a a' b : List (BitVec w)} {i m : ℕ} (h : OrBlock a b i m a') (hi : i + m < a'.length)
    (hm : m < b.length) : OrBlock a b i (m + 1) (a'.set (i + m) (a'[i + m] ||| b[m])) := by
  obtain ⟨hlen, hget⟩ := h
  refine ⟨by rw [List.length_set, hlen], fun k => ?_⟩
  rw [List.getElem?_set]
  by_cases hk : i + m = k
  · subst hk
    have hia : i + m < a.length := hlen ▸ hi
    have hx := hget (i + m)
    rw [List.getElem?_eq_getElem hi, List.getElem?_eq_getElem hia] at hx
    simp only [Option.map_some, Option.some.injEq, Nat.lt_irrefl, and_false, if_false] at hx
    rw [if_pos rfl, if_pos hi, List.getElem?_eq_getElem hia, hx]
    simp [List.getElem?_eq_getElem hm]
  · rw [if_neg hk, hget k]
    have : k < i + (m + 1) ↔ k < i + m ∨ k = i + m := by omega
    simp only [this, show k ≠ i + m from fun h => hk h.symm, or_false]

theorem width_pos_of_getLsbD {x : BitVec w} {j : ℕ} (h : x.getLsbD j = true) : 0 < w :=
  (Nat.zero_le j).trans_lt (BitVec.lt_of_getLsbD h)

/-- The bits of the first `m` words of `b`, moved `i` words up. -/
theorem mem_bits_moved_iff {b : List (BitVec w)} {i m n : ℕ} : (∃ k ∈ bits (b.take m), n = w * i + k) ↔
    i ≤ n / w ∧ n / w < i + m ∧ (b[n / w - i]?.getD 0).getLsbD (n % w) = true := by
  constructor
  · rintro ⟨k, hk, rfl⟩
    rw [mem_bits, testBit] at hk
    have hw := width_pos_of_getLsbD hk
    have hkm : k / w < m := by
      by_contra hkm
      rw [List.getElem?_eq_none (by rw [List.length_take]; omega)] at hk
      simp at hk
    rw [List.getElem?_take_of_lt hkm] at hk
    rw [Nat.mul_add_div hw, Nat.mul_add_mod, Nat.add_sub_cancel_left]
    exact ⟨Nat.le_add_right _ _, by omega, hk⟩
  · rintro ⟨h1, h2, h3⟩
    have hn := Nat.div_add_mod n w
    refine ⟨w * (n / w - i) + n % w, ?_, ?_⟩
    · rw [mem_bits, testBit_mul_add (Nat.mod_lt _ (width_pos_of_getLsbD h3)), List.getElem?_take_of_lt (by omega)]
      exact h3
    · rw [Nat.mul_sub]
      have := Nat.mul_le_mul_left w h1
      omega

/-- Or-ing a block of words in at word `i` is a union with the block's bits,
each moved `i` words up. -/
theorem bits_or_block {a a' b : List (BitVec w)} {i m : ℕ} (him : i + m ≤ a.length) (h : OrBlock a b i m a') :
    bits a' = bits a ∪ {n | ∃ k ∈ bits (b.take m), n = w * i + k} := by
  ext n
  rw [Set.mem_union, Set.mem_ofPred_eq, mem_bits_moved_iff, mem_bits, mem_bits, testBit, testBit, h.2]
  by_cases hin : i ≤ n / w ∧ n / w < i + m
  · have hlt : n / w < a.length := by omega
    simp [List.getElem?_eq_getElem hlt, hin]
  · have : ¬ (i ≤ n / w ∧ n / w < i + m ∧ (b[n / w - i]?.getD 0).getLsbD (n % w) = true) := by tauto
    simp only [hin, this, if_false, or_false]
    simp

/-- Or-ing anything into a word keeps the bits. -/
theorem bits_subset_set_or {a : List (BitVec w)} {i : ℕ} {x : BitVec w} (hx : a[i]? = some x) (y : BitVec w) :
    bits a ⊆ bits (a.set i (x ||| y)) := by
  intro n hn
  have hi := (List.getElem?_eq_some_iff.mp hx).1
  rw [mem_bits, testBit] at hn ⊢
  rw [List.getElem?_set]
  split_ifs with hni
  · subst hni
    rw [hx] at hn
    rw [Option.getD_some, BitVec.getLsbD_or, show x.getLsbD (n % w) = true from hn, Bool.true_or]
  · exact hn

/-! ### A block of an array -/

/-- The bits of a block are those of the array, from the block's first word on. -/
theorem mem_bits_slice {a : List (BitVec w)} {off len n : ℕ} (hw : 0 < w) (hn : n / w < len) :
    n ∈ bits (slice a off len) ↔ w * off + n ∈ bits a := by
  rw [mem_bits, mem_bits, testBit, testBit, getElem?_slice hn, Nat.mul_add_div hw, Nat.mul_add_mod]

end Gross.Foundation
