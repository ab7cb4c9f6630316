import Gross.Foundation.ByteOrder

/-!
# The first bits of an address

An address is its bytes in network order, and its bits are counted from the first bit of
the first byte. A net is the addresses that have their first bits in common.

* `bitAt addr i` — a bit; behind the end there are zeros.
* `keepBits m addr` — the address with its first `m` bits, and zeros after them
  (`bitAt_keepBits`).
* `keepBits_eq_iff` — two addresses of one length are in one net exactly if the same is
  kept of both.
-/

namespace Gross.Foundation

/-- Bit `i` of an address. -/
def bitAt (addr : List Byte) (i : ℕ) : Bool := (addr.getD (i / 8) 0).getMsbD (i % 8)

/-- The byte that begins with `k` ones. -/
def ones (k : ℕ) : Byte := BitVec.allOnes 8 <<< (8 - k)

/-- The address with its first `m` bits, and zeros after them. -/
def keepBits (m : ℕ) (addr : List Byte) : List Byte := addr.mapIdx fun i b => b &&& ones (m - 8 * i)

@[simp] theorem length_keepBits (m : ℕ) (addr : List Byte) : (keepBits m addr).length = addr.length :=
  List.length_mapIdx

theorem getMsbD_and_ones (b : Byte) (k : ℕ) {j : ℕ} (hj : j < 8) :
    (b &&& ones k).getMsbD j = (b.getMsbD j && decide (j < k)) := by
  rw [ones, BitVec.getMsbD_and, BitVec.getMsbD_shiftLeft, BitVec.getMsbD_allOnes]
  congr 1
  rw [decide_eq_decide]
  omega

/-- **What is kept**: the bits before `m`. -/
theorem bitAt_keepBits (m : ℕ) (addr : List Byte) (i : ℕ) :
    bitAt (keepBits m addr) i = (bitAt addr i && decide (i < m)) := by
  have hj : i % 8 < 8 := Nat.mod_lt _ (by decide)
  rw [bitAt, bitAt, keepBits, List.getD_eq_getElem?_getD, List.getElem?_mapIdx, List.getD_eq_getElem?_getD]
  cases addr[i / 8]? with
  | none => simp
  | some b =>
    rw [Option.map_some, Option.getD_some, Option.getD_some, getMsbD_and_ones b _ hj]
    congr 1
    rw [decide_eq_decide]
    omega

/-- An address is told by its bits. -/
theorem eq_of_bitAt {a b : List Byte} (hlen : a.length = b.length) (h : ∀ i, bitAt a i = bitAt b i) : a = b := by
  apply List.ext_getElem hlen
  intro i hi hi'
  apply BitVec.eq_of_getMsbD_eq
  intro j hj
  have hbit := h (8 * i + j)
  rw [bitAt, bitAt, show (8 * i + j) / 8 = i by omega, show (8 * i + j) % 8 = j by omega] at hbit
  rwa [List.getD_eq_getElem?_getD, List.getD_eq_getElem?_getD, List.getElem?_eq_getElem hi,
    List.getElem?_eq_getElem hi'] at hbit

/-- **One net**: the same is kept of two addresses exactly if their first `m` bits agree. -/
theorem keepBits_eq_iff (m : ℕ) {a b : List Byte} (hlen : a.length = b.length) :
    keepBits m a = keepBits m b ↔ ∀ i < m, bitAt a i = bitAt b i := by
  constructor
  · intro h i hi
    have hbit : bitAt (keepBits m a) i = bitAt (keepBits m b) i := by rw [h]
    simpa [bitAt_keepBits, hi] using hbit
  · intro h
    apply eq_of_bitAt (by rw [length_keepBits, length_keepBits, hlen])
    intro i
    rw [bitAt_keepBits, bitAt_keepBits]
    by_cases hi : i < m
    · rw [h i hi]
    · simp [hi]

/-- What was kept is kept. -/
theorem keepBits_keepBits (m : ℕ) (addr : List Byte) : keepBits m (keepBits m addr) = keepBits m addr := by
  apply eq_of_bitAt (length_keepBits _ _)
  intro i
  rw [bitAt_keepBits, bitAt_keepBits, Bool.and_assoc, Bool.and_self]

end Gross.Foundation
