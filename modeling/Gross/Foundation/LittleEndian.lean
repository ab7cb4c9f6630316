import Gross.Foundation.ByteOrder
import Mathlib.Data.BitVec
import Mathlib.Data.Nat.Digits.Lemmas

/-!
# Numbers that lie in memory with their least significant byte first

The number a few bytes make can be put together from bytes, from halves of words and
from words, and a word can be cut down to its first bytes by a mask. All of these are
`leAt`, the number that the `n` bytes from an offset on make.

* `leAt_add` — put together from two parts.
* `leAt_and` — cut down.
* `leAt_inj` — the bytes of the number, from the number.
* `load_leAt`, `loadHalf_leAt`, `loadWord_leAt` — read.
-/

namespace Gross.Foundation

/-- The number that bytes make, the least significant one first. -/
def leNat (bs : List Byte) : ℕ := Nat.ofDigits 256 (bs.map BitVec.toNat)

/-- The word that the `n` bytes from `off` on make. -/
def leAt (bs : List Byte) (off n : ℕ) : Word := BitVec.ofNat 32 (leNat (slice bs off n))

/-- `*(uint16_t *)(bs + off)`. -/
def loadHalf (e : Endian) (bs : List Byte) (off : ℕ) : Except Fault (BitVec 16) :=
  if off + 2 ≤ bs.length then .ok (halfOf e (slice bs off 2)) else .error .outOfBounds

section Numbers

variable {bs : List Byte} {off m n k : ℕ}

theorem digit_lt (bs : List Byte) : ∀ d ∈ bs.map BitVec.toNat, d < 256 := by
  intro d hd
  obtain ⟨b, -, rfl⟩ := List.mem_map.mp hd
  exact b.isLt

theorem leNat_lt (bs : List Byte) : leNat bs < 256 ^ bs.length := by
  have h := Nat.ofDigits_lt_base_pow_length (b := 256) (by decide) (digit_lt bs)
  rwa [List.length_map] at h

/-- Up to four bytes are one word. -/
theorem leNat_lt_word (h : bs.length ≤ 4) : leNat bs < 2 ^ 32 :=
  (leNat_lt bs).trans_le (Nat.pow_le_pow_right (by decide) h)

theorem toNat_leAt (hn : n ≤ 4) : (leAt bs off n).toNat = leNat (slice bs off n) := by
  have hlen : (slice bs off n).length ≤ 4 := (List.length_take_le _ _).trans hn
  rw [leAt, BitVec.toNat_ofNat, Nat.mod_eq_of_lt (leNat_lt_word hlen)]

@[simp] theorem leAt_zero (bs : List Byte) (off : ℕ) : leAt bs off 0 = 0 := by simp [leAt, leNat, slice]

/-- A slice in two parts. -/
theorem slice_add (bs : List Byte) (off m n : ℕ) : slice bs off (m + n) = slice bs off m ++ slice bs (off + m) n := by
  rw [slice, slice, slice, List.take_add, List.drop_drop]

/-- A number in two parts. -/
theorem leAt_add (h : off + m ≤ bs.length) : leAt bs off (m + n) = leAt bs off m + leAt bs (off + m) n <<< (8 * m) := by
  have hpow : BitVec.ofNat 32 (256 ^ m) = BitVec.twoPow 32 (8 * m) := by
    rw [show 256 ^ m = 2 ^ (8 * m) by rw [Nat.pow_mul]]
    exact BitVec.eq_of_toNat_eq (by simp)
  rw [leAt, slice_add, leNat, List.map_append, Nat.ofDigits_append, List.length_map, length_slice h, BitVec.ofNat_add,
    BitVec.ofNat_mul, hpow, BitVec.shiftLeft_eq_mul_twoPow, BitVec.mul_comm]
  rfl

/-- The first bytes of a number are what a mask leaves of it. -/
theorem leAt_and (hk : k ≤ n) (hn : n ≤ 4) : leAt bs off n &&& BitVec.ofNat 32 (2 ^ (8 * k) - 1) = leAt bs off k := by
  refine BitVec.eq_of_toNat_eq ?_
  have hmask : 2 ^ (8 * k) - 1 < 2 ^ 32 := by
    have := Nat.pow_le_pow_right (n := 2) (by decide) (show 8 * k ≤ 32 by omega)
    have := Nat.two_pow_pos (8 * k)
    omega
  have hslice : (slice bs off n).take k = slice bs off k := by
    rw [slice, slice, List.take_take, Nat.min_eq_left hk]
  rw [BitVec.toNat_and, toNat_leAt hn, toNat_leAt (hk.trans hn), BitVec.toNat_ofNat, Nat.mod_eq_of_lt hmask,
    Nat.and_two_pow_sub_one_eq_mod, Nat.pow_mul, leNat,
    Nat.ofDigits_mod_pow_eq_ofDigits_take k (by decide) _ (digit_lt _), ← List.map_take, hslice]
  rfl

/-- Numbers of equally many bytes are equal when the bytes are. -/
theorem leAt_inj {bs' : List Byte} (hn : n ≤ 4) (hlen : (slice bs off n).length = (slice bs' off n).length)
    (h : leAt bs off n = leAt bs' off n) : slice bs off n = slice bs' off n := by
  have hnat := congrArg BitVec.toNat h
  rw [toNat_leAt hn, toNat_leAt hn] at hnat
  refine List.map_injective_iff.mpr (fun _ _ => BitVec.eq_of_toNat_eq) ?_
  exact Nat.ofDigits_inj_of_len_eq (by decide) (by simpa using hlen) (digit_lt _) (digit_lt _) hnat

end Numbers

/-! ### Reading -/

section Reading

variable {bs : List Byte} {off : ℕ}

theorem slice_one (h : off + 1 ≤ bs.length) : slice bs off 1 = [bs[off]] := by
  rw [slice, List.drop_eq_getElem_cons (by omega), List.take_succ_cons, List.take_zero]

/-- A byte. -/
theorem load_leAt (h : off + 1 ≤ bs.length) : ∃ b, load bs off = .ok b ∧ b.setWidth 32 = leAt bs off 1 := by
  refine ⟨bs[off], load_lt (by omega), BitVec.eq_of_toNat_eq ?_⟩
  rw [toNat_leAt (by decide), slice_one h]
  simp [leNat]
  omega

/-- Half a word. -/
theorem loadHalf_leAt (h : off + 2 ≤ bs.length) :
    ∃ w, loadHalf .little bs off = .ok w ∧ w.setWidth 32 = leAt bs off 2 := by
  refine ⟨_, if_pos h, BitVec.eq_of_toNat_eq ?_⟩
  obtain ⟨a, b, hab⟩ := List.length_eq_two.mp (length_slice h)
  rw [toNat_leAt (by decide), hab]
  have hor := Nat.two_pow_add_eq_or_of_lt (i := 8) a.isLt b.toNat
  have := a.isLt
  have := b.isLt
  simp only [halfOf, leNat, BitVec.toNat_setWidth, BitVec.toNat_append, Nat.shiftLeft_eq, List.map_cons, List.map_nil,
    Nat.ofDigits_cons, Nat.ofDigits_nil]
  rw [Nat.mul_comm, ← hor]
  omega

/-- A word. -/
theorem loadWord_leAt (h : off + 4 ≤ bs.length) : loadWord .little bs off = .ok (leAt bs off 4) := by
  rw [loadWord_ok _ h]
  refine congrArg Except.ok (BitVec.eq_of_toNat_eq ?_)
  obtain ⟨a, b, c, d, habcd⟩ := List.length_eq_four.mp (length_slice h)
  rw [toNat_leAt (by decide), wordAt, habcd]
  have hb := Nat.two_pow_add_eq_or_of_lt (i := 8) a.isLt ((d ++ c ++ b : BitVec 24).toNat)
  have hc := Nat.two_pow_add_eq_or_of_lt (i := 8) b.isLt ((d ++ c : BitVec 16).toNat)
  have hd := Nat.two_pow_add_eq_or_of_lt (i := 8) c.isLt d.toNat
  simp only [wordOf, leNat, BitVec.toNat_append, Nat.shiftLeft_eq, List.map_cons, List.map_nil,
    Nat.ofDigits_cons, Nat.ofDigits_nil] at hb hc hd ⊢
  rw [Nat.mul_comm _ (2 ^ 8), ← hb, Nat.mul_comm _ (2 ^ 8), ← hc, Nat.mul_comm _ (2 ^ 8), ← hd]
  push_cast
  omega

end Reading

end Gross.Foundation
