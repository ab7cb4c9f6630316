import Gross.Bloom.Ring
import Gross.Foundation.Blocks
import Mathlib.Tactic.Ring

/-!
# How the ring lies in memory

`build_bloom_ring` lays a whole ring out in one block of memory, so that it can be
mapped to a file: the ring, its group, the pointers to the members, the fields of
the filters, and then their bits. This module follows where the block is asked
for and where the objects are put in it, in the integers the source has.

## The model

The block is sized by sums of `size_t`, of which the size of the bits,
`(num + 1) * (1 << num_bits) / BITS_PER_CHAR`, is computed in 32 bits. The objects are
placed by pointer arithmetic. Pointers and `size_t` have 64 bits, and the structures
the sizes that go with that. Offsets count from the beginning of the block. A shift
by 31 or 32, which C leaves undefined for an `int`, is written as what it leaves in
32 bits.

## What is proved

`layout_sound_iff` — the objects lie apart from each other and inside the block, and
every hash word falls into its filter, just when the bits of all filters can be
counted in 32 bits.
-/

namespace Gross.Bloom

open Foundation

/-- `size_t`. -/
abbrev Size := BitVec 64

/-- `sizeof(bloom_ring_queue_t)`. -/
def sizeofRingQueue : Size := 24

/-- `sizeof(bloom_filter_group_t)`. -/
def sizeofFilterGroup : Size := 16

/-- `sizeof(bloom_filter_t *)`. -/
def sizeofPointer : Size := 8

/-- `sizeof(bloom_filter_t)`. -/
def sizeofFilter : Size := 24

/-- `sizeof(bitarray_base_t)`. -/
def sizeofBase : Size := 4

/-- `sizeof(mmapped_brq_t)`. -/
def sizeofMmapped : Size := 32

/-- `1 << num_bits`. -/
def bitsizeOf (numBits : Word) : Word := (1 : Word) <<< numBits.toNat

/-- The number of words of a filter. -/
def wordsOf (numBits : Word) : Word := bitsizeOf numBits / bitarrayBaseSize

/-- `lumpsize`, as `build_bloom_ring` first computes it. -/
def lumpsize (num numBits : Word) : Size :=
  sizeofRingQueue + sizeofFilterGroup + num.setWidth 64 * sizeofPointer + (num + 1).setWidth 64 * sizeofFilter +
    ((num + 1) * bitsizeOf numBits / bitsPerChar).setWidth 64

/-- The size of the file `create_statefile` makes. -/
def statefileSize (num numBits : Word) : Size := lumpsize num numBits + sizeofMmapped

/-- Where `build_bloom_ring` puts things. -/
structure Layout where
  /-- The length of the block. -/
  lumpsize : Size
  /-- The `mmapped_brq_t` at the beginning, if there is one. -/
  mmapInfo : Option Size
  /-- `brq`. -/
  brq : Size
  /-- `brq->group`. -/
  group : Size
  /-- `brq->group->filter_group`. -/
  filterGroup : Size
  /-- `brq->group->group_size`. -/
  groupSize : Word
  /-- `brq->aggregate`. -/
  aggregate : Size
  /-- `brq->group->filter_group[i]`. -/
  member : ℕ → Size
  /-- `brq->aggregate->filter`. -/
  aggregateFilter : Size
  /-- `brq->group->filter_group[i]->filter`. -/
  memberFilter : ℕ → Size
  /-- The number of bits of the filters. -/
  bitsize : Word
  /-- The mask of the filters. -/
  mask : Word
  /-- The number of words of the filters. -/
  size : Word

/-- The layout of a ring. -/
def layout (useMmap : Bool) (num numBits : Word) : Layout :=
  let size := wordsOf numBits
  let lump := lumpsize num numBits
  let lump := if useMmap then lump + sizeofMmapped else lump
  -- skip over the `mmap_info`
  let brq : Size := if useMmap then sizeofMmapped else 0
  let group := brq + sizeofRingQueue
  let filterGroup := group + sizeofFilterGroup
  let aggregate := filterGroup + num.setWidth 64 * sizeofPointer
  let aggregateFilter := aggregate + (num + 1).setWidth 64 * sizeofFilter
  { lumpsize := lump
    mmapInfo := if useMmap then some 0 else none
    brq := brq
    group := group
    filterGroup := filterGroup
    groupSize := num
    aggregate := aggregate
    member := fun i => aggregate + sizeofFilter * (BitVec.ofNat 32 i + 1).setWidth 64
    aggregateFilter := aggregateFilter
    memberFilter := fun i => aggregateFilter + (BitVec.ofNat 32 i + 1).setWidth 64 * (sizeofBase * size.setWidth 64)
    bitsize := bitsizeOf numBits
    mask := (-1 : Word) >>> (bitarrayBaseSize - numBits).toNat
    size := size }

/-- The objects of a layout. -/
def Layout.objects (l : Layout) : List Block :=
  (l.mmapInfo.map fun p => ⟨p.toNat, sizeofMmapped.toNat⟩).toList ++
    [⟨l.brq.toNat, sizeofRingQueue.toNat⟩, ⟨l.group.toNat, sizeofFilterGroup.toNat⟩,
      ⟨l.filterGroup.toNat, l.groupSize.toNat * sizeofPointer.toNat⟩, ⟨l.aggregate.toNat, sizeofFilter.toNat⟩] ++
    (List.range l.groupSize.toNat).map (fun i => ⟨(l.member i).toNat, sizeofFilter.toNat⟩) ++
    [⟨l.aggregateFilter.toNat, sizeofBase.toNat * l.size.toNat⟩] ++
    (List.range l.groupSize.toNat).map (fun i => ⟨(l.memberFilter i).toNat, sizeofBase.toNat * l.size.toNat⟩)

/-- The objects do not overlap, they lie inside the block, and the word `get_bit` and
`insert_bit` go to is one of the filter. -/
structure Layout.Sound (l : Layout) : Prop where
  /-- No two objects overlap. -/
  apart : l.objects.Pairwise Block.Apart
  /-- The objects lie inside the block. -/
  inside : ∀ b ∈ l.objects, b.off + b.len ≤ l.lumpsize.toNat
  /-- Every hash word has its place. -/
  index : ∀ h : Word, (arrayIndex (intToIndex h l.mask)).arrayIndex < l.size

/-! ### Offsets as numbers -/

variable {useMmap : Bool} {num numBits : Word}

/-- The bytes before the ring. -/
def headroom (useMmap : Bool) : ℕ := if useMmap then 32 else 0

@[simp] theorem toNat_sizeofRingQueue : sizeofRingQueue.toNat = 24 := rfl

@[simp] theorem toNat_sizeofFilterGroup : sizeofFilterGroup.toNat = 16 := rfl

@[simp] theorem toNat_sizeofPointer : sizeofPointer.toNat = 8 := rfl

@[simp] theorem toNat_sizeofFilter : sizeofFilter.toNat = 24 := rfl

@[simp] theorem toNat_sizeofBase : sizeofBase.toNat = 4 := rfl

@[simp] theorem toNat_sizeofMmapped : sizeofMmapped.toNat = 32 := rfl

theorem headroom_le (useMmap : Bool) : headroom useMmap ≤ 32 := by cases useMmap <;> decide

/-- `i + 1` does not wrap around for the index of a member. -/
theorem toNat_succ {i : ℕ} (hi : i < num.toNat) : (BitVec.ofNat 32 i + 1).toNat = i + 1 := by
  have hnum := num.isLt
  rw [BitVec.toNat_add, BitVec.toNat_ofNat, show (1 : Word).toNat = 1 from rfl]
  omega

theorem toNat_wordsOf_le (numBits : Word) : (wordsOf numBits).toNat ≤ 134217728 := by
  have := (bitsizeOf numBits).isLt
  rw [wordsOf, BitVec.toNat_udiv, toNat_bitarrayBaseSize]
  omega

theorem toNat_brq : (layout useMmap num numBits).brq.toNat = headroom useMmap := by
  cases useMmap <;> rfl

theorem toNat_group : (layout useMmap num numBits).group.toNat = headroom useMmap + 24 := by
  cases useMmap <;> rfl

theorem toNat_filterGroup : (layout useMmap num numBits).filterGroup.toNat = headroom useMmap + 40 := by
  cases useMmap <;> rfl

theorem toNat_aggregate : (layout useMmap num numBits).aggregate.toNat = headroom useMmap + 40 + 8 * num.toNat := by
  have hnum := num.isLt
  have hroom := headroom_le useMmap
  rw [show (layout useMmap num numBits).aggregate =
      (layout useMmap num numBits).filterGroup + num.setWidth 64 * sizeofPointer from rfl,
    BitVec.toNat_add, toNat_filterGroup, BitVec.toNat_mul, BitVec.toNat_setWidth, toNat_sizeofPointer]
  omega

theorem toNat_member {i : ℕ} (hi : i < num.toNat) :
    ((layout useMmap num numBits).member i).toNat = headroom useMmap + 40 + 8 * num.toNat + 24 * (i + 1) := by
  have hnum := num.isLt
  have hroom := headroom_le useMmap
  rw [show (layout useMmap num numBits).member i =
      (layout useMmap num numBits).aggregate + sizeofFilter * (BitVec.ofNat 32 i + 1).setWidth 64 from rfl,
    BitVec.toNat_add, toNat_aggregate, BitVec.toNat_mul, BitVec.toNat_setWidth, toNat_succ hi, toNat_sizeofFilter]
  omega

theorem toNat_aggregateFilter :
    (layout useMmap num numBits).aggregateFilter.toNat =
      headroom useMmap + 40 + 8 * num.toNat + 24 * (num + 1).toNat := by
  have hnum := num.isLt
  have hnum1 := (num + 1).isLt
  have hroom := headroom_le useMmap
  rw [show (layout useMmap num numBits).aggregateFilter =
      (layout useMmap num numBits).aggregate + (num + 1).setWidth 64 * sizeofFilter from rfl,
    BitVec.toNat_add, toNat_aggregate, BitVec.toNat_mul, BitVec.toNat_setWidth, toNat_sizeofFilter]
  omega

theorem toNat_memberFilter {i : ℕ} (hi : i < num.toNat) :
    ((layout useMmap num numBits).memberFilter i).toNat =
      headroom useMmap + 40 + 8 * num.toNat + 24 * (num + 1).toNat + (i + 1) * (4 * (wordsOf numBits).toNat) := by
  have hnum := num.isLt
  have hnum1 := (num + 1).isLt
  have hsize := toNat_wordsOf_le numBits
  have hroom := headroom_le useMmap
  have hprod : (i + 1) * (4 * (wordsOf numBits).toNat) ≤ 4294967296 * 536870912 :=
    Nat.mul_le_mul (by omega) (by omega)
  rw [show (layout useMmap num numBits).memberFilter i =
      (layout useMmap num numBits).aggregateFilter +
        (BitVec.ofNat 32 i + 1).setWidth 64 * (sizeofBase * (wordsOf numBits).setWidth 64) from rfl,
    BitVec.toNat_add, toNat_aggregateFilter, BitVec.toNat_mul, BitVec.toNat_setWidth, toNat_succ hi,
    BitVec.toNat_mul, BitVec.toNat_setWidth, toNat_sizeofBase, Nat.mod_eq_of_lt (show i + 1 < 2 ^ 64 by omega),
    Nat.mod_eq_of_lt (show (wordsOf numBits).toNat < 2 ^ 64 by omega),
    Nat.mod_eq_of_lt (show 4 * (wordsOf numBits).toNat < 2 ^ 64 by omega)]
  omega

theorem toNat_lumpsize :
    (layout useMmap num numBits).lumpsize.toNat = headroom useMmap + 40 + 8 * num.toNat + 24 * (num + 1).toNat +
      (num + 1).toNat * (bitsizeOf numBits).toNat % 2 ^ 32 / 8 := by
  have hnum := num.isLt
  have hnum1 := (num + 1).isLt
  have hbytes : ((num + 1) * bitsizeOf numBits / bitsPerChar).toNat =
      (num + 1).toNat * (bitsizeOf numBits).toNat % 2 ^ 32 / 8 := by
    rw [BitVec.toNat_udiv, BitVec.toNat_mul, toNat_bitsPerChar]
  have hlump : (lumpsize num numBits).toNat = 40 + 8 * num.toNat + 24 * (num + 1).toNat +
      (num + 1).toNat * (bitsizeOf numBits).toNat % 2 ^ 32 / 8 := by
    -- without an `mmap_info`, what comes before the bits ends where the bits begin
    rw [show lumpsize num numBits = (layout false num numBits).aggregateFilter +
        ((num + 1) * bitsizeOf numBits / bitsPerChar).setWidth 64 from rfl,
      BitVec.toNat_add, toNat_aggregateFilter, BitVec.toNat_setWidth, hbytes]
    simp only [headroom, Bool.false_eq_true, if_false]
    omega
  cases useMmap with
  | false =>
    rw [show (layout false num numBits).lumpsize = lumpsize num numBits from rfl, hlump]
    simp [headroom]
  | true =>
    rw [show (layout true num numBits).lumpsize = lumpsize num numBits + sizeofMmapped from rfl, BitVec.toNat_add, hlump,
      toNat_sizeofMmapped]
    simp only [headroom, if_true]
    omega

/-! ### Side by side -/

/-- Where the last of the filters ends. -/
def layoutEnd (useMmap : Bool) (num numBits : Word) : ℕ :=
  headroom useMmap + 40 + 8 * num.toNat + 24 * (num + 1).toNat + (num.toNat + 1) * (4 * (wordsOf numBits).toNat)

theorem toNat_num_succ (h : num.toNat + 1 < 2 ^ 32) : (num + 1).toNat = num.toNat + 1 := by
  rw [BitVec.toNat_add, show (1 : Word).toNat = 1 from rfl]
  omega

/-- As long as the filters can be counted in 32 bits, the objects lie side by side. -/
theorem tiled_objects (h : num.toNat + 1 < 2 ^ 32) :
    Tiled 0 (layout useMmap num numBits).objects (layoutEnd useMmap num numBits) := by
  have hsucc := toNat_num_succ h
  let w := 4 * (wordsOf numBits).toNat
  let a := headroom useMmap + 40 + 8 * num.toNat
  have hhead : Tiled 0 (((layout useMmap num numBits).mmapInfo.map fun p => ⟨p.toNat, sizeofMmapped.toNat⟩).toList)
      (headroom useMmap) := by
    cases useMmap with
    | false => rfl
    | true => exact ⟨rfl, rfl⟩
  have hfields : Tiled (headroom useMmap)
      [⟨(layout useMmap num numBits).brq.toNat, sizeofRingQueue.toNat⟩,
        ⟨(layout useMmap num numBits).group.toNat, sizeofFilterGroup.toNat⟩,
        ⟨(layout useMmap num numBits).filterGroup.toNat, (layout useMmap num numBits).groupSize.toNat * sizeofPointer.toNat⟩,
        ⟨(layout useMmap num numBits).aggregate.toNat, sizeofFilter.toNat⟩] (a + 24) := by
    refine ⟨toNat_brq, ?_, ?_, ?_, ?_⟩
    · rw [toNat_group]
      rfl
    · rw [toNat_filterGroup]
      rfl
    · rw [toNat_aggregate, toNat_sizeofPointer, Nat.mul_comm 8]
      rfl
    · show headroom useMmap + 24 + 16 + num.toNat * 8 + 24 = headroom useMmap + 40 + 8 * num.toNat + 24
      omega
  have hmembers : Tiled (a + 24) ((List.range num.toNat).map fun i =>
      ⟨((layout useMmap num numBits).member i).toNat, sizeofFilter.toNat⟩) (a + 24 + num.toNat * 24) := by
    rw [List.map_congr_left (g := fun i => ⟨a + 24 + i * 24, 24⟩)]
    · exact tiled_range _ _ _
    · intro i hi
      rw [toNat_member (List.mem_range.mp hi), toNat_sizeofFilter, Block.mk.injEq]
      exact ⟨by omega, rfl⟩
  have hagg : Tiled (a + 24 + num.toNat * 24) [⟨(layout useMmap num numBits).aggregateFilter.toNat, w⟩]
      (a + 24 * (num.toNat + 1) + w) := by
    refine ⟨?_, ?_⟩
    · show (layout useMmap num numBits).aggregateFilter.toNat = _
      rw [toNat_aggregateFilter, hsucc]
      omega
    · show a + 24 + num.toNat * 24 + w = _
      omega
  have hfilters : Tiled (a + 24 * (num.toNat + 1) + w) ((List.range num.toNat).map fun i =>
      ⟨((layout useMmap num numBits).memberFilter i).toNat, w⟩) (layoutEnd useMmap num numBits) := by
    rw [show layoutEnd useMmap num numBits = a + 24 * (num.toNat + 1) + w + num.toNat * w by
        rw [layoutEnd, hsucc, show (num.toNat + 1) * (4 * (wordsOf numBits).toNat) = num.toNat * w + w from Nat.succ_mul _ _]
        omega,
      List.map_congr_left (g := fun i => ⟨a + 24 * (num.toNat + 1) + w + i * w, w⟩)]
    · exact tiled_range _ _ _
    · intro i hi
      rw [toNat_memberFilter (List.mem_range.mp hi), hsucc, Block.mk.injEq,
        show (i + 1) * (4 * (wordsOf numBits).toNat) = i * w + w from Nat.succ_mul _ _]
      exact ⟨by omega, rfl⟩
  exact (((hhead.append hfields).append hmembers).append hagg).append hfilters

/-! ### The sizes of a filter -/

theorem toNat_bitsizeOf (lo : 5 ≤ numBits.toNat) (hi : numBits.toNat ≤ 31) :
    (bitsizeOf numBits).toNat = 2 ^ numBits.toNat := (wf_new lo hi).bitsize

theorem toNat_wordsOf (lo : 5 ≤ numBits.toNat) (hi : numBits.toNat ≤ 31) :
    (wordsOf numBits).toNat = 2 ^ (numBits.toNat - 5) := (wf_new lo hi).size

/-- Every hash word falls into a filter of up to 2³¹ bits. -/
theorem arrayIndex_lt (lo : 5 ≤ numBits.toNat) (hi : numBits.toNat ≤ 31) (h : Word) :
    (arrayIndex (intToIndex h (layout useMmap num numBits).mask)).arrayIndex < (layout useMmap num numBits).size := by
  have hwf := wf_new lo hi
  rw [BitVec.lt_def, toNat_arrayIndex]
  exact Nat.lt_of_lt_of_eq (hwf.index_lt h) (hwf.length.trans hwf.size.symm)

/-- The file `create_statefile` makes has the size `build_bloom_ring` asks of it. -/
theorem statefileSize_eq (num numBits : Word) : statefileSize num numBits = (layout true num numBits).lumpsize := rfl

theorem bits_le_of_count (h : (num.toNat + 1) * 2 ^ numBits.toNat < 2 ^ 32) : numBits.toNat ≤ 31 := by
  by_contra h31
  have h32 : 2 ^ 32 ≤ 2 ^ numBits.toNat := Nat.pow_le_pow_right (by decide) (by omega)
  have : 1 * 2 ^ numBits.toNat ≤ (num.toNat + 1) * 2 ^ numBits.toNat := Nat.mul_le_mul_right _ (by omega)
  omega

theorem succ_lt_of_count (h : (num.toNat + 1) * 2 ^ numBits.toNat < 2 ^ 32) : num.toNat + 1 < 2 ^ 32 :=
  Nat.lt_of_le_of_lt (Nat.le_mul_of_pos_right _ (Nat.two_pow_pos _)) h

/-- When the bits can be counted, the last of the filters ends with the block. -/
theorem layoutEnd_eq (lo : 5 ≤ numBits.toNat) (h : (num.toNat + 1) * 2 ^ numBits.toNat < 2 ^ 32) :
    layoutEnd useMmap num numBits = (layout useMmap num numBits).lumpsize.toNat := by
  have hi := bits_le_of_count h
  have hbits : (num.toNat + 1) * 2 ^ numBits.toNat = 8 * ((num.toNat + 1) * (4 * 2 ^ (numBits.toNat - 5))) := by
    rw [two_pow_eq lo]
    ring
  rw [toNat_lumpsize, layoutEnd, toNat_num_succ (succ_lt_of_count h), toNat_bitsizeOf lo hi, toNat_wordsOf lo hi,
    Nat.mod_eq_of_lt h, hbits, Nat.mul_div_cancel_left _ (by decide)]

/-- **The layout is sound just when the bits of all filters can be counted in 32
bits.** -/
theorem layout_sound_iff (useMmap : Bool) (num numBits : Word) (hnum : 1 ≤ num.toNat) (lo : 5 ≤ numBits.toNat)
    (hi : numBits.toNat ≤ 32) :
    (layout useMmap num numBits).Sound ↔ (num.toNat + 1) * 2 ^ numBits.toNat < 2 ^ 32 := by
  constructor
  · intro h
    by_contra hbig
    by_cases h32 : numBits.toNat = 32
    · -- the filters have no words at all
      obtain rfl : numBits = 32 := BitVec.eq_of_toNat_eq h32
      have := h.index 0
      rw [show (layout useMmap num 32).size = 0 from rfl, BitVec.lt_def] at this
      exact absurd this (Nat.not_lt_zero _)
    · -- the last filter ends beyond the block
      have hi' : numBits.toNat ≤ 31 := by omega
      have hlast := h.inside ⟨((layout useMmap num numBits).memberFilter (num.toNat - 1)).toNat,
        4 * (wordsOf numBits).toNat⟩ (List.mem_append_right _ (List.mem_map.mpr
          ⟨num.toNat - 1, List.mem_range.mpr (show num.toNat - 1 < num.toNat by omega), rfl⟩))
      rw [toNat_memberFilter (show num.toNat - 1 < num.toNat by omega), toNat_lumpsize, Nat.sub_add_cancel hnum,
        toNat_bitsizeOf lo hi', toNat_wordsOf lo hi'] at hlast
      dsimp only at hlast
      have hbits : (num.toNat + 1) * 2 ^ numBits.toNat =
          8 * (num.toNat * (4 * 2 ^ (numBits.toNat - 5)) + 4 * 2 ^ (numBits.toNat - 5)) := by
        rw [two_pow_eq lo]
        ring
      omega
  · intro h
    have htiled : Tiled 0 (layout useMmap num numBits).objects (layoutEnd useMmap num numBits) :=
      tiled_objects (succ_lt_of_count h)
    refine ⟨htiled.pairwise_apart, fun b hb => ?_, arrayIndex_lt lo (bits_le_of_count h)⟩
    exact Nat.le_trans (htiled.inside.2 b hb).2 (Nat.le_of_eq (layoutEnd_eq lo h))

/-- The default configuration: eight filters of 2²⁴ bits. -/
theorem layout_sound_default : (layout true 8 24).Sound :=
  (layout_sound_iff true 8 24 (by decide) (by decide) (by decide)).mpr (by decide)

/-- Three filters of 2³⁰ bits, and the aggregate: their 2³² bits are counted as none, and
the block ends where they should begin. -/
theorem layout_unsound :
    ¬ (layout false 3 30).Sound ∧ (layout false 3 30).lumpsize = (layout false 3 30).aggregateFilter ∧
      (layout false 3 30).size = 33554432 := by
  refine ⟨fun h => ?_, by decide, by decide⟩
  have := h.inside ⟨(layout false 3 30).aggregateFilter.toNat, 134217728⟩ (by decide)
  revert this
  decide

end Gross.Bloom
