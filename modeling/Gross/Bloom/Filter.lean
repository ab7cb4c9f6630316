import Gross.Foundation.BitArray
import Gross.Foundation.ByteOrder
import Mathlib.Data.Nat.Bitwise
import Mathlib.Tactic.NormNum

/-!
# Bloom filters

The filters of `bloom.c`: an array of 32-bit words, a mask that cuts a hash word
down to a bit index, and the sizes in bits and in words. A digest is eight hash
words; inserting it sets the eight bits their masked values number, and it is
reported as present when all eight are set.

The functions stand under the source's names, in `Except Fault`: an `assert` that
fails and an array index outside its array stop them. A filter of `2 ^ nb` bits,
`5 ≤ nb ≤ 31`, is well formed (`BloomFilter.WF`) when its fields agree, as
`build_bloom_ring` makes them; on well-formed filters nothing stops, and each
operation is what its name says on the set of bits held (`insertDigest_ok`,
`isInArray_ok`, `addFilter_ok`, `zeroBloomFilter_ok`).

Pointers and the assertions that they are not null are not modelled: a filter is
a value. Freshly allocated words are written as zeros here; the source fills them
by `zero_bloom_filter` before anything reads them. `create_bloom_filter` and the
functions that call it are for the tests of the source, and are left out.
-/

namespace Gross.Bloom

open Foundation

/-- `BITARRAY_BASE_SIZE`: the bits of a `bitarray_base_t`. -/
def bitarrayBaseSize : Word := 32

/-- `BITS_PER_CHAR`. -/
def bitsPerChar : Word := 8

/-- `sha_256_t`. -/
@[ext]
structure Digest where
  /-- The first word. -/
  h0 : Word
  /-- The second word. -/
  h1 : Word
  /-- The third word. -/
  h2 : Word
  /-- The fourth word. -/
  h3 : Word
  /-- The fifth word. -/
  h4 : Word
  /-- The sixth word. -/
  h5 : Word
  /-- The seventh word. -/
  h6 : Word
  /-- The eighth word. -/
  h7 : Word
  deriving DecidableEq, Repr

/-- The words of a digest, in the order of its fields. -/
def Digest.words (d : Digest) : List Word := [d.h0, d.h1, d.h2, d.h3, d.h4, d.h5, d.h6, d.h7]

/-- `array_index_t`: where a bit is. -/
structure ArrayIndex where
  /-- The word. -/
  arrayIndex : Word
  /-- The bit in the word. -/
  intraIndex : Word

/-- `bloom_filter_t`. -/
structure BloomFilter where
  /-- The words. -/
  filter : List Word
  /-- The number of bits. -/
  bitsize : Word
  /-- What a hash word is masked with. -/
  mask : Word
  /-- The number of words. -/
  size : Word
  deriving DecidableEq, Repr

/-! ### Bits -/

/-- `array_index`. -/
def arrayIndex (bitIndex : Word) : ArrayIndex := ⟨bitIndex / bitarrayBaseSize, bitIndex % bitarrayBaseSize⟩

/-- `add_mask`. -/
def addMask (intraIndex : Word) : Except Fault Word := do
  check (intraIndex ≤ 32)
  return (1 : Word) <<< intraIndex.toNat

/-- `get_bit`. -/
def getBit (array : List Word) (bitIndex : Word) : Except Fault Word := do
  let index := arrayIndex bitIndex
  check (index.intraIndex ≤ 32)
  let x ← load array index.arrayIndex.toNat
  return (x >>> index.intraIndex.toNat) &&& 1

/-- `insert_bit`. -/
def insertBit (array : List Word) (bitIndex : Word) : Except Fault (List Word) := do
  let index := arrayIndex bitIndex
  check (index.intraIndex ≤ 32)
  let x ← load array index.arrayIndex.toNat
  let m ← addMask index.intraIndex
  store array index.arrayIndex.toNat (x ||| m)

/-- `init_bit_array`. -/
def initBitArray (array : List Word) (size : Word) : Except Fault (List Word) :=
  updateLoop (fun _ _ => .ok 0) size.toNat array

/-- `int_to_index`. -/
def intToIndex (value mask : Word) : Word := value &&& mask

/-! ### Filters -/

/-- `insert_digest`: one `insert_bit` for each of `h0` to `h7`. -/
def insertDigest (f : BloomFilter) (digest : Digest) : Except Fault BloomFilter := do
  let a ← digest.words.foldlM (fun a h => insertBit a (intToIndex h f.mask)) f.filter
  return { f with filter := a }

/-- `is_in_array`: `get_bit(h0) && … && get_bit(h7)`, from left to right. -/
def isInArray (f : BloomFilter) (digest : Digest) : Except Fault Bool :=
  digest.words.allM fun h => do
    let b ← getBit f.filter (intToIndex h f.mask)
    return b != 0

/-- `zero_bloom_filter`. -/
def zeroBloomFilter (f : BloomFilter) : Except Fault BloomFilter := do
  let a ← initBitArray f.filter f.size
  return { f with filter := a }

/-- `memcpy` between two arrays of words, of a number of bytes. -/
def copyWords (dst src : List Word) (bytes : Word) : Except Fault (List Word) :=
  updateLoop (fun i _ => load src i) (bytes / 4).toNat dst

/-- `copy_bloom_filter`. -/
def copyBloomFilter (f : BloomFilter) (empty : Bool) : Except Fault BloomFilter := do
  check (f.bitsize / bitsPerChar ≠ 0)
  let tmp := { f with filter := List.replicate (f.bitsize / bitsPerChar / 4).toNat 0 }
  if empty then
    zeroBloomFilter tmp
  else
    let a ← copyWords tmp.filter f.filter (tmp.bitsize / bitsPerChar)
    return { tmp with filter := a }

/-- `add_filter`: the words of `rvalue` are or-ed into `lvalue`. -/
def addFilter (lvalue rvalue : BloomFilter) : Except Fault BloomFilter := do
  check (lvalue.size = rvalue.size)
  check (lvalue.mask = rvalue.mask)
  let a ← updateLoop (fun i x => do return x ||| (← load rvalue.filter i)) lvalue.size.toNat lvalue.filter
  return { lvalue with filter := a }

/-! ### Well-formed filters -/

/-- The mask of a filter of `2 ^ nb` bits. -/
def bitMask (nb : ℕ) : Word := BitVec.ofNat 32 (2 ^ nb - 1)

/-- The bit indices of a digest under a mask. -/
def maskedIndices (mask : Word) (d : Digest) : List ℕ := d.words.map fun h => (intToIndex h mask).toNat

/-- A digest as the set of its bit indices. -/
def indexSet (mask : Word) (d : Digest) : Set ℕ := {n | n ∈ maskedIndices mask d}

/-- A filter of `2 ^ nb` bits whose fields agree. -/
structure BloomFilter.WF (nb : ℕ) (f : BloomFilter) : Prop where
  /-- At least one word. -/
  lo : 5 ≤ nb
  /-- The number of bits fits a word. -/
  hi : nb ≤ 31
  /-- The number of bits. -/
  bitsize : f.bitsize.toNat = 2 ^ nb
  /-- The mask keeps `nb` bits. -/
  mask : f.mask = bitMask nb
  /-- The number of words. -/
  size : f.size.toNat = 2 ^ (nb - 5)
  /-- That many words are there. -/
  length : f.filter.length = 2 ^ (nb - 5)

@[simp] theorem toNat_bitarrayBaseSize : bitarrayBaseSize.toNat = 32 := rfl

@[simp] theorem toNat_bitsPerChar : bitsPerChar.toNat = 8 := rfl

theorem two_pow_eq {nb : ℕ} (h : 5 ≤ nb) : 2 ^ nb = 32 * 2 ^ (nb - 5) := by
  rw [show (32 : ℕ) = 2 ^ 5 by norm_num, ← pow_add]
  congr 1
  omega

theorem two_pow_lt {nb : ℕ} (h : nb ≤ 31) : 2 ^ nb < 2 ^ 32 := Nat.pow_lt_pow_right (by norm_num) (by omega)

/-- A masked hash word is the hash word modulo the number of bits. -/
theorem toNat_intToIndex {nb : ℕ} (hi : nb ≤ 31) (h : Word) :
    (intToIndex h (bitMask nb)).toNat = h.toNat % 2 ^ nb := by
  have hlt := two_pow_lt hi
  rw [intToIndex, BitVec.toNat_and, bitMask, BitVec.toNat_ofNat, Nat.mod_eq_of_lt (by omega),
    Nat.and_two_pow_sub_one_eq_mod]

/-- A masked hash word lies inside a well-formed filter. -/
theorem BloomFilter.WF.index_lt {nb : ℕ} {f : BloomFilter} (hf : f.WF nb) (h : Word) :
    (intToIndex h f.mask).toNat / 32 < f.filter.length := by
  have hpos : 0 < 2 ^ nb := Nat.two_pow_pos nb
  have hlt := Nat.mod_lt h.toNat hpos
  rw [hf.mask, toNat_intToIndex hf.hi, hf.length]
  rw [two_pow_eq hf.lo] at hlt ⊢
  omega

/-- The bits of a well-formed filter may be replaced, as many words as there were. -/
theorem BloomFilter.WF.with_filter {nb : ℕ} {f : BloomFilter} (hf : f.WF nb) {a : List Word}
    (ha : a.length = f.filter.length) : ({ f with filter := a } : BloomFilter).WF nb :=
  ⟨hf.lo, hf.hi, hf.bitsize, hf.mask, hf.size, ha.trans hf.length⟩

/-- What a filter's size in bytes divides into, in words. -/
theorem BloomFilter.WF.words {nb : ℕ} {f : BloomFilter} (hf : f.WF nb) :
    (f.bitsize / bitsPerChar / 4).toNat = 2 ^ (nb - 5) := by
  rw [BitVec.toNat_udiv, BitVec.toNat_udiv, hf.bitsize, two_pow_eq hf.lo, toNat_bitsPerChar,
    show (4 : Word).toNat = 4 from rfl]
  omega

theorem BloomFilter.WF.bytes_ne_zero {nb : ℕ} {f : BloomFilter} (hf : f.WF nb) :
    f.bitsize / bitsPerChar ≠ 0 := by
  intro h
  have h4 := hf.words
  rw [h] at h4
  have : 0 < 2 ^ (nb - 5) := Nat.two_pow_pos _
  simp at h4
  omega

/-! ### What the operations do to the bits -/

theorem toNat_arrayIndex (b : Word) : (arrayIndex b).arrayIndex.toNat = b.toNat / 32 := by
  simp [arrayIndex, bitarrayBaseSize]

theorem toNat_intraIndex (b : Word) : (arrayIndex b).intraIndex.toNat = b.toNat % 32 := by
  simp [arrayIndex, bitarrayBaseSize]

theorem intraIndex_le (b : Word) : (arrayIndex b).intraIndex ≤ 32 := by
  rw [BitVec.le_def, toNat_intraIndex]
  exact (Nat.mod_lt b.toNat (by norm_num)).le

/-- A bit shifted down and masked is not zero just when it is set. -/
theorem shiftRight_and_one_ne_zero (x : Word) (j : ℕ) : (x >>> j &&& 1 ≠ 0) ↔ x.getLsbD j = true := by
  constructor
  · intro h
    by_contra hj
    apply h
    apply BitVec.eq_of_getLsbD_eq
    intro i _
    rcases i with _ | i <;> simp_all
  · intro h h0
    have := congrArg (fun v : Word => v.getLsbD 0) h0
    simp [h] at this

/-- `get_bit` inside the array: not zero just when the bit is in the set. -/
theorem getBit_ok {a : List Word} {b : Word} (h : b.toNat / 32 < a.length) :
    ∃ v, getBit a b = .ok v ∧ (v ≠ 0 ↔ b.toNat ∈ bits a) := by
  refine ⟨a[b.toNat / 32] >>> (b.toNat % 32) &&& 1, ?_, ?_⟩
  · simp only [getBit, check_pos (intraIndex_le b), toNat_arrayIndex, toNat_intraIndex, load_lt h, ok_bind]
    rfl
  · rw [shiftRight_and_one_ne_zero, mem_bits, testBit, List.getElem?_eq_getElem h]
    rfl

/-- `insert_bit` inside the array inserts the bit. -/
theorem insertBit_ok {a : List Word} {b : Word} (h : b.toNat / 32 < a.length) :
    ∃ a', insertBit a b = .ok a' ∧ a'.length = a.length ∧ bits a' = insert b.toNat (bits a) := by
  refine ⟨a.set (b.toNat / 32) (a[b.toNat / 32] ||| (1 : Word) <<< (b.toNat % 32)), ?_, by simp, ?_⟩
  · simp only [insertBit, addMask, check_pos (intraIndex_le b), toNat_arrayIndex, toNat_intraIndex,
      load_lt h, ok_bind]
    exact store_lt h _
  · rw [bits_set_or (List.getElem?_eq_getElem h) (Nat.mod_lt _ (by norm_num)), Nat.div_add_mod]

/-- Inserting the bits of a list of hash words. -/
theorem foldlM_insertBit_ok (mask : Word) (hs : List Word) {a : List Word}
    (h : ∀ w : Word, (intToIndex w mask).toNat / 32 < a.length) :
    ∃ a', hs.foldlM (fun a w => insertBit a (intToIndex w mask)) a = .ok a' ∧ a'.length = a.length ∧
      bits a' = bits a ∪ {n | n ∈ hs.map fun w => (intToIndex w mask).toNat} := by
  induction hs generalizing a with
  | nil => exact ⟨a, rfl, rfl, by ext n; simp⟩
  | cons w hs ih =>
    obtain ⟨a₁, h₁, hl₁, hb₁⟩ := insertBit_ok (h w)
    obtain ⟨a₂, h₂, hl₂, hb₂⟩ := ih (a := a₁) (fun v => by rw [hl₁]; exact h v)
    refine ⟨a₂, ?_, hl₂.trans hl₁, ?_⟩
    · rw [List.foldlM_cons, h₁, ok_bind, h₂]
    · rw [hb₂, hb₁]
      ext n
      simp only [Set.mem_union, Set.mem_insert_iff, Set.mem_ofPred_eq, List.map_cons, List.mem_cons]
      tauto

variable {nb : ℕ} {f g : BloomFilter}

/-- `insert_digest` adds the digest's bits. -/
theorem insertDigest_ok (hf : f.WF nb) (d : Digest) :
    ∃ f', insertDigest f d = .ok f' ∧ f'.WF nb ∧
      bits f'.filter = bits f.filter ∪ indexSet (bitMask nb) d := by
  obtain ⟨a, ha, hl, hb⟩ := foldlM_insertBit_ok f.mask d.words hf.index_lt
  refine ⟨{ f with filter := a }, ?_, hf.with_filter hl, ?_⟩
  · rw [insertDigest, ha]
    rfl
  · rw [hb, hf.mask]
    rfl

/-- `is_in_array` asks whether the filter holds all the digest's bits. -/
theorem isInArray_ok (hf : f.WF nb) (d : Digest) :
    ∃ b, isInArray f d = .ok b ∧ (b = true ↔ indexSet (bitMask nb) d ⊆ bits f.filter) := by
  have key : ∀ hs : List Word, ∃ b,
      (hs.allM fun h => do let b ← getBit f.filter (intToIndex h f.mask); return b != 0) = .ok b ∧
        (b = true ↔ ∀ h ∈ hs, (intToIndex h f.mask).toNat ∈ bits f.filter) := by
    intro hs
    induction hs with
    | nil => exact ⟨true, rfl, by simp⟩
    | cons h hs ih =>
      obtain ⟨v, hv, hmem⟩ := getBit_ok (hf.index_lt h)
      obtain ⟨b, hb, hiff⟩ := ih
      simp only [List.allM, hv, ok_bind]
      by_cases hv0 : v = 0
      · have hnot : ¬ (intToIndex h f.mask).toNat ∈ bits f.filter := fun hm => hmem.mpr hm hv0
        exact ⟨false, by rw [hv0]; rfl, by simp [hnot]⟩
      · refine ⟨b, ?_, by rw [hiff]; simp [hmem.mp hv0]⟩
        rw [show (v != 0) = true by simpa using hv0]
        exact hb
  obtain ⟨b, hb, hiff⟩ := key d.words
  refine ⟨b, hb, hiff.trans ?_⟩
  rw [hf.mask]
  constructor
  · intro h n hn
    obtain ⟨w, hw, rfl⟩ := List.mem_map.mp hn
    exact h w hw
  · intro h w hw
    exact h (List.mem_map.mpr ⟨w, hw, rfl⟩)

/-- `zero_bloom_filter` empties the filter. -/
theorem zeroBloomFilter_ok (hf : f.WF nb) :
    ∃ f', zeroBloomFilter f = .ok f' ∧ f'.WF nb ∧ bits f'.filter = ∅ := by
  have hn : f.size.toNat = f.filter.length := hf.size.trans hf.length.symm
  have hz : updated (fun _ _ => (0 : Word)) f.size.toNat f.filter = List.replicate f.filter.length 0 := by
    apply List.ext_getElem?
    intro i
    rw [getElem?_updated, List.getElem?_replicate, hn]
    by_cases h : i < f.filter.length <;> simp [h]
  refine ⟨{ f with filter := List.replicate f.filter.length 0 }, ?_, hf.with_filter (by simp),
    bits_replicate_zero _⟩
  rw [zeroBloomFilter, initBitArray, updateLoop_ok (g := fun _ _ => 0) hn.le (fun _ _ _ _ => rfl), hz]
  rfl

/-- `add_filter` adds the other filter's bits. -/
theorem addFilter_ok (hf : f.WF nb) (hg : g.WF nb) :
    ∃ f', addFilter f g = .ok f' ∧ f'.WF nb ∧ bits f'.filter = bits f.filter ∪ bits g.filter := by
  have hn : f.size.toNat = f.filter.length := hf.size.trans hf.length.symm
  have hl : f.filter.length = g.filter.length := hf.length.trans hg.length.symm
  have hsize : f.size = g.size := BitVec.eq_of_toNat_eq (hf.size.trans hg.size.symm)
  refine ⟨{ f with filter := updated (fun i x => x ||| g.filter[i]?.getD 0) f.filter.length f.filter },
    ?_, hf.with_filter (by simp), bits_updated_or hl⟩
  rw [addFilter, check_pos hsize, check_pos (hf.mask.trans hg.mask.symm), ok_bind, ok_bind,
    updateLoop_ok (g := fun i x => x ||| g.filter[i]?.getD 0) hn.le ?_, hn]
  · rfl
  · intro i x hi _
    have hi' : i < g.filter.length := by omega
    rw [load_lt hi', List.getElem?_eq_getElem hi']
    rfl

/-- An empty copy of a filter. -/
theorem copyBloomFilter_ok (hf : f.WF nb) :
    ∃ f', copyBloomFilter f true = .ok f' ∧ f'.WF nb ∧ bits f'.filter = ∅ := by
  rw [copyBloomFilter, check_pos hf.bytes_ne_zero, ok_bind, if_pos rfl]
  exact zeroBloomFilter_ok (hf.with_filter (by rw [List.length_replicate, hf.words, hf.length]))

/-- Copying all the words of one well-formed filter over another's. -/
theorem copyWords_ok (hf : f.WF nb) (hg : g.WF nb) :
    copyWords f.filter g.filter (g.bitsize / bitsPerChar) = .ok g.filter := by
  have hl : f.filter.length = g.filter.length := hf.length.trans hg.length.symm
  rw [copyWords, hg.words, ← hg.length,
    updateLoop_ok (g := fun i x => g.filter[i]?.getD x) hl.ge ?_]
  · refine congrArg Except.ok (List.ext_getElem? fun i => ?_)
    rw [getElem?_updated]
    by_cases hi : i < g.filter.length
    · simp [hi, hl]
    · rw [List.getElem?_eq_none (by omega), List.getElem?_eq_none (by omega)]
      rfl
  · intro i x hi _
    rw [load_lt hi, List.getElem?_eq_getElem hi]
    rfl

/-- The fields that `build_bloom_ring` gives a filter agree, with as many words as it reserves. -/
theorem wf_of_length {numBits : Word} (lo : 5 ≤ numBits.toNat) (hi : numBits.toNat ≤ 31) {a : List Word}
    (ha : a.length = 2 ^ (numBits.toNat - 5)) :
    (⟨a, (1 : Word) <<< numBits.toNat, (-1 : Word) >>> (bitarrayBaseSize - numBits).toNat,
      (1 : Word) <<< numBits.toNat / bitarrayBaseSize⟩ : BloomFilter).WF numBits.toNat := by
  have hlt := two_pow_lt hi
  have hbits : ((1 : Word) <<< numBits.toNat).toNat = 2 ^ numBits.toNat := by
    rw [BitVec.toNat_shiftLeft]
    simpa [Nat.shiftLeft_eq] using Nat.mod_eq_of_lt hlt
  have hsub : (bitarrayBaseSize - numBits).toNat = 32 - numBits.toNat := by
    rw [BitVec.toNat_sub, toNat_bitarrayBaseSize]
    omega
  refine ⟨lo, hi, hbits, ?_, ?_, ha⟩
  · apply BitVec.eq_of_getLsbD_eq
    intro i hi'
    rw [hsub, bitMask, BitVec.getLsbD_ofNat, Nat.testBit_two_pow_sub_one, BitVec.getLsbD_ushiftRight,
      show (-1 : Word) = BitVec.allOnes 32 from rfl, BitVec.getLsbD_allOnes]
    simp only [hi', decide_true, Bool.true_and, decide_eq_decide]
    omega
  · rw [BitVec.toNat_udiv, hbits, two_pow_eq lo, toNat_bitarrayBaseSize]
    omega

/-- In particular with the words `build_bloom_ring` reserves. -/
theorem wf_new {numBits : Word} (lo : 5 ≤ numBits.toNat) (hi : numBits.toNat ≤ 31) :
    (⟨List.replicate ((1 : Word) <<< numBits.toNat / bitarrayBaseSize).toNat 0, (1 : Word) <<< numBits.toNat,
      (-1 : Word) >>> (bitarrayBaseSize - numBits).toNat,
      (1 : Word) <<< numBits.toNat / bitarrayBaseSize⟩ : BloomFilter).WF numBits.toNat := by
  apply wf_of_length lo hi
  rw [List.length_replicate]
  exact (wf_of_length lo hi (a := List.replicate _ 0) List.length_replicate).size

end Gross.Bloom
