import Gross.Foundation.CArray

/-!
# Words and their bytes

A 32-bit word lies in memory as four bytes, in an order that depends on the
machine. Network order is big-endian; `htonl` turns a word into the one whose
bytes, on this machine, are the given word's bytes in network order, and `ntohl`
turns it back.

A machine's order is a parameter (`Endian`). What is sent in network order by a
machine of either kind is read back by a machine of either kind
(`ntohl_wordOf_bytesOf_htonl`).
-/

namespace Gross.Foundation

/-- A byte. -/
abbrev Byte := BitVec 8

/-- A 32-bit word. -/
abbrev Word := BitVec 32

/-- An `int`, while it is one. -/
theorem toInt_ofNat_of_lt {n : ℕ} (h : n < 2147483648) : (BitVec.ofNat 32 n).toInt = n := by
  rw [BitVec.toInt_ofNat', Int.bmod_def]
  omega

/-- The order of the bytes of a word in memory. -/
inductive Endian where
  /-- The least significant byte first. -/
  | little
  /-- The most significant byte first. -/
  | big
  deriving DecidableEq, Repr

/-- The bytes of a word, in memory order. -/
def bytesOf : Endian → Word → List Byte
  | .little, w => [w.extractLsb' 0 8, w.extractLsb' 8 8, w.extractLsb' 16 8, w.extractLsb' 24 8]
  | .big, w => [w.extractLsb' 24 8, w.extractLsb' 16 8, w.extractLsb' 8 8, w.extractLsb' 0 8]

/-- The word four bytes make, in memory order. -/
def wordOf : Endian → List Byte → Word
  | .little, [a, b, c, d] => d ++ c ++ b ++ a
  | .big, [a, b, c, d] => a ++ b ++ c ++ d
  | _, _ => 0

@[simp] theorem length_bytesOf (e : Endian) (w : Word) : (bytesOf e w).length = 4 := by cases e <;> rfl

/-- The four bytes of a word, put together again. -/
theorem extract_append (w : Word) :
    (w.extractLsb' 24 8 ++ w.extractLsb' 16 8 ++ w.extractLsb' 8 8 ++ w.extractLsb' 0 8 : BitVec 32) = w := by
  apply BitVec.eq_of_getLsbD_eq
  intro i hi
  simp only [BitVec.getLsbD_append, BitVec.getLsbD_extractLsb']
  split_ifs
  · simp_all
  · have : i - 8 < 8 := by assumption
    simp [this, show 8 + (i - 8) = i by omega]
  · have : i - 8 - 8 < 8 := by assumption
    simp [this, show 16 + (i - 8 - 8) = i by omega]
  · simp [show i - 8 - 8 - 8 < 8 by omega, show 24 + (i - 8 - 8 - 8) = i by omega]

@[simp] theorem wordOf_bytesOf (e : Endian) (w : Word) : wordOf e (bytesOf e w) = w := by
  cases e <;> exact extract_append w

/-- The bytes of the word four bytes make. -/
theorem bytesOf_wordOf (e : Endian) {bs : List Byte} (h : bs.length = 4) : bytesOf e (wordOf e bs) = bs := by
  obtain ⟨a, b, c, d, rfl⟩ := List.length_eq_four.mp h
  have key : ∀ a b c d : Byte, bytesOf .big (a ++ b ++ c ++ d : BitVec 32) = [a, b, c, d] := by
    intro a b c d
    simp only [bytesOf, List.cons.injEq, and_true]
    refine ⟨?_, ?_, ?_, ?_⟩ <;> apply BitVec.eq_of_getLsbD_eq <;> intro i hi <;>
      simp only [BitVec.getLsbD_append, BitVec.getLsbD_extractLsb', hi, decide_true, Bool.true_and]
    · simp [show ¬ 24 + i < 8 by omega, show ¬ 24 + i - 8 < 8 by omega,
        show ¬ 24 + i - 8 - 8 < 8 by omega, show 24 + i - 8 - 8 - 8 = i by omega]
    · simp [show ¬ 16 + i < 8 by omega, show ¬ 16 + i - 8 < 8 by omega,
        show 16 + i - 8 - 8 = i by omega, hi]
    · simp [show ¬ 8 + i < 8 by omega, show 8 + i - 8 = i by omega, hi]
    · simp [hi]
  cases e with
  | little => exact congrArg List.reverse (key d c b a)
  | big => exact key a b c d

/-- Bits are combined byte by byte. -/
theorem bytesOf_and (e : Endian) (v w : Word) :
    bytesOf e (v &&& w) = List.zipWith (· &&& ·) (bytesOf e v) (bytesOf e w) := by
  cases e <;> simp [bytesOf, BitVec.extractLsb'_and]

/-- `htonl`: the word whose bytes on this machine are `w`'s in network order. -/
def htonl (e : Endian) (w : Word) : Word := wordOf e (bytesOf .big w)

/-- `ntohl`. -/
def ntohl (e : Endian) (w : Word) : Word := wordOf .big (bytesOf e w)

theorem htonl_zero (e : Endian) : htonl e 0 = 0 := by cases e <;> rfl

/-- What `htonl` is for: its result lies in memory in network order. -/
theorem bytesOf_htonl (e : Endian) (w : Word) : bytesOf e (htonl e w) = bytesOf .big w :=
  bytesOf_wordOf e (length_bytesOf _ _)

/-- What is put on the wire on one machine is read back on the other. -/
theorem ntohl_wordOf_bytesOf_htonl (e e' : Endian) (w : Word) :
    ntohl e' (wordOf e' (bytesOf e (htonl e w))) = w := by
  rw [bytesOf_htonl, ntohl, bytesOf_wordOf e' (length_bytesOf _ _), wordOf_bytesOf]

/-! ### Words of two bytes -/

/-- The bytes of a 16-bit word, in memory order. -/
def bytesOfHalf : Endian → BitVec 16 → List Byte
  | .little, w => [w.extractLsb' 0 8, w.extractLsb' 8 8]
  | .big, w => [w.extractLsb' 8 8, w.extractLsb' 0 8]

/-- The 16-bit word two bytes make, in memory order. -/
def halfOf : Endian → List Byte → BitVec 16
  | .little, [a, b] => b ++ a
  | .big, [a, b] => a ++ b
  | _, _ => 0

/-- `htons`: the word whose bytes on this machine are `w`'s in network order. -/
def htons (e : Endian) (w : BitVec 16) : BitVec 16 := halfOf e (bytesOfHalf .big w)

/-- `ntohs`. -/
def ntohs (e : Endian) (w : BitVec 16) : BitVec 16 := halfOf .big (bytesOfHalf e w)

@[simp] theorem length_bytesOfHalf (e : Endian) (w : BitVec 16) : (bytesOfHalf e w).length = 2 := by cases e <;> rfl

/-- The bytes of the word two bytes make. -/
theorem bytesOfHalf_halfOf (e : Endian) {bs : List Byte} (h : bs.length = 2) : bytesOfHalf e (halfOf e bs) = bs := by
  obtain ⟨a, b, rfl⟩ := List.length_eq_two.mp h
  have key : ∀ a b : Byte, bytesOfHalf .big (a ++ b : BitVec 16) = [a, b] := by
    intro a b
    simp only [bytesOfHalf, List.cons.injEq, and_true]
    refine ⟨?_, ?_⟩ <;> apply BitVec.eq_of_getLsbD_eq <;> intro i hi <;>
      simp only [BitVec.getLsbD_append, BitVec.getLsbD_extractLsb', hi, decide_true, Bool.true_and]
    · simp [show ¬ 8 + i < 8 by omega, show 8 + i - 8 = i by omega]
    · simp [hi]
  cases e with
  | little => exact congrArg List.reverse (key b a)
  | big => exact key a b

/-- The two bytes of a word, put together again. -/
theorem halfOf_bytesOfHalf (e : Endian) (w : BitVec 16) : halfOf e (bytesOfHalf e w) = w := by
  have key : (w.extractLsb' 8 8 ++ w.extractLsb' 0 8 : BitVec 16) = w := by
    apply BitVec.eq_of_getLsbD_eq
    intro i hi
    simp only [BitVec.getLsbD_append, BitVec.getLsbD_extractLsb']
    split_ifs
    · simp_all
    · simp [show i - 8 < 8 by omega, show 8 + (i - 8) = i by omega]
  cases e <;> exact key

theorem halfOf_eq_iff {e : Endian} {bs : List Byte} (h : bs.length = 2) {w : BitVec 16} :
    halfOf e bs = w ↔ bs = bytesOfHalf e w := by
  constructor
  · rintro rfl
    exact (bytesOfHalf_halfOf e h).symm
  · rintro rfl
    exact halfOf_bytesOfHalf e w

theorem bytesOfHalf_htons (e : Endian) (w : BitVec 16) : bytesOfHalf e (htons e w) = bytesOfHalf .big w :=
  bytesOfHalf_halfOf e (length_bytesOfHalf _ _)

/-- What lies in memory in network order, as this machine reads it. -/
theorem ntohs_halfOf (e : Endian) {bs : List Byte} (h : bs.length = 2) : ntohs e (halfOf e bs) = halfOf .big bs := by
  rw [ntohs, bytesOfHalf_halfOf e h]

/-! ### Words of eight bytes -/

/-- The bytes of a 64-bit word, in memory order. -/
def bytesOfLong : Endian → BitVec 64 → List Byte
  | .little, w => (List.range 8).map fun k => w.extractLsb' (8 * k) 8
  | .big, w => ((List.range 8).map fun k => w.extractLsb' (8 * k) 8).reverse

@[simp] theorem length_bytesOfLong (e : Endian) (w : BitVec 64) : (bytesOfLong e w).length = 8 := by cases e <;> rfl

/-! ### Arrays of words -/

/-- The bytes of an array of words. -/
def bytesOfWords (e : Endian) (ws : List Word) : List Byte := ws.flatMap (bytesOf e)

/-- The word at a byte offset. -/
def wordAt (e : Endian) (bs : List Byte) (off : ℕ) : Word := wordOf e (slice bs off 4)

/-- `*(uint32_t *)(bs + off)`. -/
def loadWord (e : Endian) (bs : List Byte) (off : ℕ) : Except Fault Word :=
  if off + 4 ≤ bs.length then .ok (wordAt e bs off) else .error .outOfBounds

theorem loadWord_ok (e : Endian) {bs : List Byte} {off : ℕ} (h : off + 4 ≤ bs.length) :
    loadWord e bs off = .ok (wordAt e bs off) := if_pos h

@[simp] theorem length_bytesOfWords (e : Endian) (ws : List Word) :
    (bytesOfWords e ws).length = 4 * ws.length := by
  induction ws with
  | nil => rfl
  | cons w ws ih =>
    rw [bytesOfWords, List.flatMap_cons, List.length_append, length_bytesOf, List.length_cons]
    rw [bytesOfWords] at ih
    omega

/-- The bytes of the word at index `i`. -/
theorem slice_bytesOfWords (e : Endian) (ws : List Word) (i : ℕ) (hi : i < ws.length) :
    slice (bytesOfWords e ws) (4 * i) 4 = bytesOf e ws[i] := by
  induction ws generalizing i with
  | nil => simp at hi
  | cons w ws ih =>
    cases i with
    | zero =>
      rw [bytesOfWords, List.flatMap_cons, slice_append_left (by simp)]
      exact List.take_of_length_le (by simp)
    | succ i =>
      rw [bytesOfWords, List.flatMap_cons, slice_append_right (by rw [length_bytesOf]; omega), length_bytesOf,
        show 4 * (i + 1) - 4 = 4 * i by omega]
      exact ih i (by simpa using hi)

theorem bytesOfWords_cons (e : Endian) (w : Word) (ws : List Word) :
    bytesOfWords e (w :: ws) = bytesOf e w ++ bytesOfWords e ws := rfl

/-- The first bytes of an array are those of its first words. -/
theorem take_bytesOfWords (e : Endian) (ws : List Word) (k : ℕ) :
    (bytesOfWords e ws).take (4 * k) = bytesOfWords e (ws.take k) := by
  induction ws generalizing k with
  | nil => simp [bytesOfWords]
  | cons w ws ih =>
    cases k with
    | zero => rfl
    | succ k =>
      rw [bytesOfWords_cons, List.take_append, length_bytesOf, show 4 * (k + 1) - 4 = 4 * k by omega, ih,
        List.take_of_length_le (by rw [length_bytesOf]; omega), List.take_succ_cons, bytesOfWords_cons]

theorem wordAt_drop (e : Endian) (bs : List Byte) (k off : ℕ) :
    wordAt e (bs.drop k) off = wordAt e bs (k + off) := by
  rw [wordAt, wordAt, slice, slice, List.drop_drop]

/-- Copying an array of words to the start of a block: they can be read back, and
what lies beyond them is as it was. -/
theorem wordAt_overwrite (e : Endian) (bs : List Byte) (ws : List Word) (i : ℕ) :
    wordAt e (overwrite bs 0 (bytesOfWords e ws)) (4 * i) = ws[i]?.getD (wordAt e bs (4 * i)) := by
  by_cases hi : i < ws.length
  · rw [List.getElem?_eq_getElem hi, wordAt, slice_overwrite_inside (Nat.zero_le _) (Nat.zero_le _)
      (by rw [length_bytesOfWords]; omega), Nat.sub_zero, slice_bytesOfWords e ws i hi, wordOf_bytesOf]
    rfl
  · rw [List.getElem?_eq_none (by omega), wordAt, slice_overwrite_after (Nat.zero_le _)
      (by rw [length_bytesOfWords]; omega)]
    rfl

end Gross.Foundation
