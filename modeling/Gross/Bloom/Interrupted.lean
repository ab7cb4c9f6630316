import Gross.Bloom.Aggregate
import Gross.Bloom.Resized

/-!
# A daemon that stops while it lays out the ring

`build_bloom_ring` takes a file without the magic string for a new one. The magic string
is the first thing that it stores there. A daemon that stops before it is done leaves
a file with the magic string and with some of the rest; the next one finds the string,
and moves pointers that may never have been stored.

## The model

A file of zero bytes has, at each place, the zero of what belongs there. The stores into
it are those of `build_bloom_ring`, in order, and the process stops after any of
them: they are kept, since the mapping is shared. `strncpy` stores the magic string byte
by byte, and `strncmp` finds it as soon as there are seven of them.

## What is proved

`interrupted_iff` — what the next `build_bloom_ring` returns is a well-formed ring just
when the process had stopped before the seventh byte of the magic string, or after
the last pointer.

## The argument

A null pointer that is moved with the others comes to be the distance between the two
addresses of the file, which is outside of it. Without the pointer to the group the
walk finds a group of no members; without the pointer to the aggregate, or to a
member, it goes through the null pointer; and without the pointer to the bits of the
last member it leaves that pointer outside. After that only zeros are stored, over zeros.
-/

namespace Gross.Bloom

open Foundation

/-- What zero bytes are at a place. They are no magic string. -/
def Place.zero : Place → Option Cell
  | .head .magic => none
  | .head .lastRotate => some (.time 0)
  | .head .brq | .head .group | .head .aggregate | .head .filterGroup => some (.pointer 0)
  | .head .currentIndex | .head .groupSize => some (.word 0)
  | .member _ | .field _ .filter => some (.pointer 0)
  | .field _ .bitsize | .field _ .mask | .field _ .size => some (.word 0)
  | .word _ _ => some (.word 0)

/-- The places of a layout, as `build_bloom_ring` comes to them. -/
def Layout.places (l : Layout) : List Place := (initStores l 0 0).map Prod.fst

/-- A file of zero bytes, as `create_statefile` writes it. -/
def zeroStatefile (num numBits : Word) (base : Size) : Mapped :=
  { newStatefile num numBits base with
    cells := fun o =>
      ((layout true num numBits).places.find? fun p => p.off (layout true num numBits) = o).bind Place.zero }

/-- The stores that count when the process stops after `k` of them: the first eight are the
bytes of the magic string, which is there as soon as there are seven. -/
def completed (k : ℕ) : ℕ := if k < 7 then 0 else max 1 (k - 7)

/-- A file of zero bytes, mapped at `base`, after `k` stores of `build_bloom_ring`. -/
def stopped (num numBits : Word) (base : Size) (now : ℤ) (k : ℕ) : Except Fault Mapped :=
  (zeroStatefile num numBits base).storeAll (Place.off (layout true num numBits))
    ((initStores (layout true num numBits) base now).take (completed k))

/-- An address of `n` bytes of the mapping. -/
def Inside (m : Mapped) (a : Size) (n : ℕ) : Prop := (a - m.base).toNat + n ≤ m.length

/-- There is a ring in the file as it is configured, whose aggregate is the members together and
whose pointers all point into the mapping. -/
structure WellFormed (num numBits : Word) (m : Mapped) : Prop where
  /-- The ring. -/
  ring : ∃ r : Ring num.toNat numBits.toNat, readRing m = .ok r.brq ∧ r.Settled
  /-- `brq`, `brq->group` and `brq->group->filter_group`. -/
  group : ∃ brq group filterGroup, loadPointer m (m.base + 8) = .ok brq ∧ Inside m brq 24 ∧
    loadPointer m brq = .ok group ∧ Inside m group 16 ∧
    loadPointer m group = .ok filterGroup ∧ Inside m filterGroup (8 * num.toNat)
  /-- The filters, and their bits. -/
  filters : ∀ k ≤ num.toNat, ∃ f d, filterPointer m k = .ok f ∧ Inside m f 24 ∧
    loadPointer m f = .ok d ∧ Inside m d (4 * (wordsOf numBits).toNat)

variable {l : Layout} {num numBits : Word} {old base : Size} {m : Mapped} {now : ℤ}

/-! ### Rings that are laid out -/

theorem inside_of_le (h : m.base = base) {o : Size} {n : ℕ} (hle : o.toNat + n ≤ m.length) : Inside m (base + o) n := by
  rw [Inside, h, Memory.base_add_sub]
  exact hle

/-- A new ring that is laid out where the file is is well formed. -/
theorem Laid.wellFormed (hc : Configured num numBits)
    (h : Laid (layout true num numBits) (newContent now) Set.univ old base m) : WellFormed num numBits m := by
  have hi := bits_le_of_count hc.count
  have hpl := h.placed
  have hlen : m.length = layoutEnd true num numBits := h.length.trans (layoutEnd_eq hc.five_le hc.count).symm
  have hsucc := toNat_num_succ (succ_lt_of_count hc.count)
  rw [layoutEnd, hsucc] at hlen
  simp only [headroom, if_true] at hlen
  refine ⟨⟨Ring.build hc.one_le hc.five_le hi, ?_, Ring.build_settled ..⟩,
    ⟨_, _, _, hpl.brq, ?_, hpl.group, ?_, hpl.filterGroup, ?_⟩, fun k hk => ⟨_, m.base + (layout true num numBits).data k,
      h.filterPointer_ok hk, ?_, ?_, ?_⟩⟩
  · rw [h.readRing_ok, ← buildBloomRing_newContent hc.three_lt now]
    exact Ring.build_eq ..
  · refine inside_of_le rfl ?_
    rw [toNat_brq, headroom, if_pos rfl]
    omega
  · refine inside_of_le rfl ?_
    rw [toNat_group, headroom, if_pos rfl]
    omega
  · refine inside_of_le rfl ?_
    rw [toNat_filterGroup, headroom, if_pos rfl]
    omega
  · refine inside_of_le rfl ?_
    rw [toNat_fields hk]
    omega
  · rw [← Place.off_filter, h.base_eq]
    exact h.load (p := .field k .filter) hk rfl (Set.mem_univ _)
  · refine inside_of_le rfl ?_
    have hle : (k + 1) * (4 * (wordsOf numBits).toNat) ≤ (num.toNat + 1) * (4 * (wordsOf numBits).toNat) :=
      Nat.mul_le_mul_right _ (Nat.succ_le_succ hk)
    rw [Nat.succ_mul] at hle
    rw [toNat_data hk, hsucc]
    omega

/-! ### Files that are not finished -/

/-- The fields of the structures there is one of. -/
def headPlaces : List Place :=
  [.head .magic, .head .lastRotate, .head .brq, .head .currentIndex, .head .group, .head .groupSize, .head .filterGroup,
    .head .aggregate]

/-- What has a place before the bits of the filters are zeroed. -/
def Layout.fieldPlaces (l : Layout) : List Place :=
  headPlaces ++
  [.field 0 .bitsize, .field 0 .mask, .field 0 .size] ++
  (List.range l.groupSize.toNat).flatMap (fun i =>
    [.member i, .field (i + 1) .bitsize, .field (i + 1) .mask, .field (i + 1) .size]) ++
  [.field 0 .filter] ++
  (List.range l.groupSize.toNat).map fun i => .field (i + 1) .filter

/-- The bits of the filters. -/
def Layout.wordPlaces (l : Layout) : List Place :=
  (List.range (l.groupSize.toNat + 1)).flatMap fun k => (List.range l.size.toNat).map (.word k)

theorem map_fst_initStores (l : Layout) (base : Size) (now : ℤ) :
    (initStores l base now).map Prod.fst = l.fieldPlaces ++ l.wordPlaces := by
  have hzero : ∀ k, (zeroWords l k).map Prod.fst = (List.range l.size.toNat).map (.word k) := by
    intro k
    simp [zeroWords]
  simp [initStores, headPlaces, Layout.fieldPlaces, Layout.wordPlaces, fieldStores, List.map_flatMap, hzero, List.range_succ_eq_map,
    List.flatMap_map]

theorem Layout.places_eq (l : Layout) : l.places = l.fieldPlaces ++ l.wordPlaces := map_fst_initStores l 0 0

theorem length_fieldPlaces (l : Layout) : l.fieldPlaces.length = 12 + 5 * l.groupSize.toNat := by
  simp [headPlaces, Layout.fieldPlaces, List.length_flatMap]
  omega

theorem mem_places {p : Place} : p ∈ l.places ↔ p.Valid l := by
  constructor
  · intro hp
    obtain ⟨s, hs, rfl⟩ := List.mem_map.mp hp
    exact (of_mem_initStores hs).1
  · intro hp
    exact List.mem_map.mpr ⟨_, mem_initStores hp, rfl⟩

theorem Layout.Fits.off_lt (hl : l.Fits) {p : Place} (hp : p.Valid l) : (p.off l).toNat < l.lumpsize.toNat :=
  Nat.lt_of_lt_of_le (Nat.lt_add_of_pos_right p.bytes_pos) (hl.inside p hp)

/-- A place that is no word has its turn before the words. -/
theorem mem_fieldPlaces {p : Place} (hp : p.Valid l) : p ∈ l.fieldPlaces ∨ ∃ k j, p = .word k j := by
  rw [← mem_places, Layout.places_eq, List.mem_append] at hp
  refine hp.imp_right fun hp => ?_
  obtain ⟨k, -, hp⟩ := List.mem_flatMap.mp hp
  obtain ⟨j, -, rfl⟩ := List.mem_map.mp hp
  exact ⟨k, j, rfl⟩

/-- The file, mapped at `base`, in which the places of `S` have been stored to. -/
structure Begun (l : Layout) (S : List Place) (now : ℤ) (base : Size) (m : Mapped) : Prop where
  /-- The address of the file. -/
  base_eq : m.base = base
  /-- The size of the file. -/
  length : m.length = l.lumpsize.toNat
  /-- What has been stored. -/
  stored : ∀ p : Place, p.Valid l → p ∈ S → m.cells (p.off l) = some ((newContent now).cell l base p)
  /-- What has not. -/
  zero : ∀ p : Place, p.Valid l → p ∉ S → m.cells (p.off l) = p.zero
  /-- Outside there is nothing. -/
  outside : ∀ o : Size, l.lumpsize.toNat ≤ o.toNat → m.cells o = none

theorem begun_zeroStatefile (hl : (layout true num numBits).Fits) (base : Size) (now : ℤ) :
    Begun (layout true num numBits) [] now base (zeroStatefile num numBits base) := by
  refine ⟨rfl, rfl, fun p _ hS => absurd hS (List.not_mem_nil), fun p hp _ => ?_, fun o ho => ?_⟩
  · cases hfind : (layout true num numBits).places.find? fun q =>
        q.off (layout true num numBits) = p.off (layout true num numBits) with
    | none => exact absurd (decide_eq_true rfl) (List.find?_eq_none.mp hfind p (mem_places.mpr hp))
    | some q =>
      have hq : q.Valid (layout true num numBits) := mem_places.mp (List.mem_of_find?_eq_some hfind)
      obtain rfl : q = p := hl.off_inj hq hp (by simpa using List.find?_some hfind)
      exact congrArg (Option.bind · Place.zero) hfind
  · have hfind : ((layout true num numBits).places.find? fun q => q.off (layout true num numBits) = o) = none := by
      rw [List.find?_eq_none]
      intro q hq heq
      exact Nat.not_le_of_lt (hl.off_lt (mem_places.mp hq)) (by rwa [of_decide_eq_true heq])
    exact congrArg (Option.bind · Place.zero) hfind

/-- The file after `n` of the stores. -/
theorem begun_take (hl : (layout true num numBits).Fits) (base : Size) (now : ℤ) (n : ℕ) :
    ∃ m, (zeroStatefile num numBits base).storeAll (Place.off (layout true num numBits))
        ((initStores (layout true num numBits) base now).take n) = .ok m ∧
      Begun (layout true num numBits) ((layout true num numBits).places.take n) now base m := by
  have h₀ := begun_zeroStatefile hl base now
  obtain ⟨m, hm, hbase, hlen, hcells, hframe⟩ := Memory.storeAll_ok (m := zeroStatefile num numBits base)
    (fun s hs => inside_initStores hl s (List.mem_of_mem_take hs))
    (fun s hs t ht => agree_initStores hl s (List.mem_of_mem_take hs) t (List.mem_of_mem_take ht))
  have hplaces : ∀ p : Place, p ∈ (layout true num numBits).places.take n ↔
      ∃ s ∈ (initStores (layout true num numBits) base now).take n, s.1 = p := by
    intro p
    rw [Layout.places_eq, ← map_fst_initStores _ base now, ← List.map_take, List.mem_map]
  refine ⟨m, hm, hbase, hlen, fun p hp hS => ?_, fun p hp hS => ?_, fun o ho => ?_⟩
  · obtain ⟨s, hs, rfl⟩ := (hplaces p).mp hS
    rw [hcells s hs, (of_mem_initStores (List.mem_of_mem_take hs)).2]
  · rw [hframe _ fun s hs hoff => hS ((hplaces p).mpr ⟨s, hs, ?_⟩)]
    · exact h₀.zero p hp List.not_mem_nil
    · exact hl.off_inj (of_mem_initStores (List.mem_of_mem_take hs)).1 hp hoff
  · rw [hframe _ fun s hs hoff => ?_]
    · exact h₀.outside o ho
    · exact Nat.not_le_of_lt (hl.off_lt (of_mem_initStores (List.mem_of_mem_take hs)).1) (by rwa [hoff])

/-! ### Null pointers -/

/-- Where the pointer at a place points, counted from where the file was: a null pointer has not
been stored. -/
def aimOf (l : Layout) (S : List Place) (old : Size) (p : Place) : Size :=
  if p ∈ S then (p.target l).getD 0 else -old

theorem Place.zero_of_target {p : Place} {t : Size} (ht : p.target l = some t) : p.zero = some (.pointer 0) := by
  cases p with
  | head h => cases h <;> first | rfl | cases ht
  | member i => rfl
  | field k f => cases f <;> first | rfl | cases ht
  | word k j => cases ht

variable {S : List Place}

theorem Begun.cells_pointer (h : Begun l S now old m) {p : Place} {t : Size} (hp : p.Valid l) (ht : p.target l = some t) :
    m.cells (p.off l) = some (.pointer (old + aimOf l S old p)) := by
  by_cases hS : p ∈ S
  · rw [h.stored p hp hS, Content.cell, ht, aimOf, if_pos hS, ht, Option.getD_some]
  · rw [h.zero p hp hS, Place.zero_of_target ht, aimOf, if_neg hS, BitVec.add_right_neg]
    rfl

/-- The pointer to the ring is stored anew, and the others are as they were. -/
theorem aimed_of_cells (hl : l.Fits) (hlen : m.length = l.lumpsize.toNat) {aim : Place → Size}
    (hbrq : aim (.head .brq) = l.brq) (hcells : ∀ (p : Place) (t : Size), p.Valid l → p.target l = some t →
      p ≠ .head .brq → m.cells (p.off l) = some (.pointer (old + aim p))) :
    ∃ m', m.store (m.base + 8) (.pointer (m.base + l.brq)) = .ok m' ∧
      Aimed l aim m.cells {.head .brq} old m.base m' := by
  have hin : (8 : Size).toNat + bytes (Cell.pointer (m.base + l.brq)) ≤ m.length := by
    rw [hlen]
    exact hl.inside (.head .brq) trivial
  refine ⟨_, Memory.store_at hin, rfl, hlen, fun p t hp ht hD => ?_, fun p t hp ht hD => ?_, fun o ho => ?_⟩
  · obtain rfl : p = .head .brq := hD
    rw [hbrq]
    exact Function.update_self (8 : Size) (some (Cell.pointer (m.base + l.brq))) m.cells
  · exact (Laid.update_of_ne hl (p := .head .brq) trivial hp hD _).trans (hcells p t hp ht hD)
  · exact Function.update_of_ne (ho (.head .brq) l.brq trivial rfl).symm ..

namespace Aimed

variable {aim : Place → Size} {rest : Size → Option Cell} {D : Set Place}

/-- Nothing is behind a null pointer that has been moved. -/
theorem load_null (hl : l.Fits) (h : Aimed l aim rest D old base m) (hnull : l.lumpsize.toNat ≤ (-old).toNat)
    (hrest : rest (-old) = none) : loadPointer m (base + -old) = .error .outOfBounds := by
  have hcell : m.cells (-old) = none :=
    (h.rest _ fun p t hp _ hoff => Nat.not_le_of_lt (hl.off_lt hp) (by rwa [hoff])).trans hrest
  rw [loadPointer, Memory.load, h.base_eq, Memory.base_add_sub, hcell]
  rfl

/-- Without the pointer to the aggregate the walk ends outside. -/
theorem walkGroup_null (hl : l.Fits) (hagg : aim (.head .aggregate) = -old) (hnull : l.lumpsize.toNat ≤ (-old).toNat)
    (hrest : rest (-old) = none)
    (h : Aimed l aim rest (insert (.head .aggregate) (insert (.head .group) {.head .brq})) old base m) :
    walkGroup (base + l.brq) (base - old) m = .error .outOfBounds := by
  have hload := h.load (p := .head .aggregate) trivial rfl (by simp)
  simp only [Place.off, ← BitVec.add_assoc, hagg] at hload
  simp only [walkGroup, hload, ok_bind, changeAddress, h.load_null hl hnull hrest, error_bind]

/-- Without the pointer to a member it does so there. -/
theorem walkTurn_null (hl : l.Fits) (hgroup : aim (.head .group) = l.group)
    (hfilterGroup : aim (.head .filterGroup) = l.filterGroup) {i : ℕ} (hi : i < l.groupSize.toNat)
    (hmember : aim (.member i) = -old) (hnull : l.lumpsize.toNat ≤ (-old).toNat) (hrest : rest (-old) = none)
    (h : Aimed l aim rest (walked i) old base m) :
    walkTurn (base + l.brq) (base - old) m i = .error .outOfBounds := by
  obtain ⟨m₁, hm₁, h₁⟩ := h.walkTurn_eq hl hgroup hfilterGroup hi
  rw [hm₁, hmember, changeAddress, h₁.load_null hl hnull hrest, error_bind]

/-- A pointer that has been moved is moved again. -/
theorem of_changeAddress (hl : l.Fits) (h : Aimed l aim rest D old base m) {p : Place} {t d : Size} (hp : p.Valid l)
    (ht : p.target l = some t) (hD : p ∈ D) {m' : Mapped} (hrun : changeAddress m (base + p.off l) d = .ok m') :
    ∃ aim', (∀ q, q ≠ p → aim' q = aim q) ∧ Aimed l aim' rest D old base m' := by
  rw [changeAddress, h.load hp ht hD, ok_bind, show base + p.off l = m.base + p.off l by rw [h.base_eq]] at hrun
  obtain ⟨-, rfl⟩ := Memory.of_store_at hrun
  refine ⟨Function.update aim p (aim p + d), fun q hq => Function.update_of_ne hq .., h.base_eq, h.length,
    fun q t' hq ht' hm => ?_, fun q t' hq ht' hm => ?_, fun o ho => ?_⟩
  · by_cases hqp : q = p
    · subst hqp
      rw [Function.update_self, ← BitVec.add_assoc]
      exact Function.update_self (q.off l) (some (Cell.pointer (base + aim q + d))) m.cells
    · rw [Function.update_of_ne hqp]
      exact (Laid.update_of_ne hl hp hq hqp _).trans (h.moved q t' hq ht' hm)
  · have hqp : q ≠ p := fun heq => hm (heq ▸ hD)
    rw [Function.update_of_ne hqp]
    exact (Laid.update_of_ne hl hp hq hqp _).trans (h.unmoved q t' hq ht' hm)
  · exact (Function.update_of_ne (ho p t hp ht).symm ..).trans (h.rest o ho)

/-- With all pointers null, the pointer to the aggregate comes to point to the group, whose first
field is moved twice, and there are no members. -/
theorem walkGroup_none (hl : l.Fits) (hbrq : aim (.head .brq) = l.brq) (hgroup : aim (.head .group) = l.group)
    (hagg : aim (.head .aggregate) = l.group) (hsize : rest ((Place.head .groupSize).off l) = some (.word 0))
    (h : Aimed l aim rest (insert (.head .aggregate) (insert (.head .group) {.head .brq})) old base m) {m' : Mapped}
    (hrun : walkGroup (base + l.brq) (base - old) m = .ok m') {r : BloomRingQueue} (hr : readRing m' = .ok r) :
    r.group.groupSize = 0 := by
  have hagg₂ := h.load (p := .head .aggregate) trivial rfl (by simp)
  obtain ⟨m₃, hm₃, h₃⟩ := h.change hl (p := .head .filterGroup) trivial rfl (by simp)
  have hgrp₃ := h₃.load (p := .head .group) trivial rfl (by simp)
  simp only [Place.off, ← BitVec.add_assoc, hgroup, hagg] at hagg₂ hm₃ hgrp₃
  simp only [walkGroup, hagg₂, hm₃, hgrp₃, ok_bind] at hrun
  obtain ⟨m₄, hm₄, hrun⟩ := bind_eq_ok hrun
  obtain ⟨aim', haim', h₄⟩ := h₃.of_changeAddress hl (p := .head .filterGroup) trivial rfl (by simp) hm₄
  have hbrq₄ := h₄.load (p := .head .brq) trivial rfl (by simp)
  have hgrp₄ := h₄.load (p := .head .group) trivial rfl (by simp)
  have hsize₄ := h₄.load_word hl (p := .head .groupSize) trivial rfl hsize
  rw [haim' _ (by simp)] at hbrq₄ hgrp₄
  simp only [Place.off, ← BitVec.add_assoc, hbrq, hgroup] at hbrq₄ hgrp₄ hsize₄
  simp only [hgrp₄, hsize₄, ok_bind] at hrun
  obtain rfl : m₄ = m' := Except.ok.inj hrun
  simp only [readRing, h₄.base_eq, hbrq₄, hgrp₄, hsize₄, ok_bind] at hr
  obtain ⟨members, -, hr⟩ := bind_eq_ok hr
  obtain ⟨f, -, hr⟩ := bind_eq_ok hr
  obtain ⟨a, -, hr⟩ := bind_eq_ok hr
  obtain ⟨c, -, hr⟩ := bind_eq_ok hr
  obtain rfl := Except.ok.inj hr
  rfl

/-- After the walk a member that was there is found again. -/
theorem filterPointer_succ (hl : l.Fits) (hbrq : aim (.head .brq) = l.brq) (hgroup : aim (.head .group) = l.group)
    (hfilterGroup : aim (.head .filterGroup) = l.filterGroup) {i : ℕ} (hi : i < l.groupSize.toNat)
    (hmember : aim (.member i) = l.member i) (hsize : rest ((Place.head .groupSize).off l) = some (.word l.groupSize))
    (h : Aimed l aim rest (walked l.groupSize.toNat) old base m) : filterPointer m (i + 1) = .ok (base + l.member i) := by
  have hb := h.load (p := .head .brq) trivial rfl trivial
  have hg := h.load (p := .head .group) trivial rfl trivial
  have hs := h.load_word hl (p := .head .groupSize) trivial rfl hsize
  have hfg := h.load (p := .head .filterGroup) trivial rfl trivial
  have hmem := h.load (p := .member i) hi rfl hi
  simp only [Place.off, ← BitVec.add_assoc, hbrq, hgroup, hfilterGroup, hmember] at hb hg hs hfg hmem
  simp only [filterPointer, h.base_eq, hb, hg, hs, hfg, hmem, check_pos hi, ok_bind]

end Aimed

/-! ### The next start -/

theorem Begun.cells_magic (h : Begun l S now old m) (hmagic : .head .magic ∈ S) : m.cells 0 = some .magic :=
  h.stored (.head .magic) trivial hmagic

/-- The next daemon finds the magic string, and walks over pointers of which some are null. -/
theorem Begun.buildStatefile_eq (hbits : 3 < numBits) (hl : (layout true num numBits).Fits)
    (h : Begun (layout true num numBits) S now old m) (hmagic : .head .magic ∈ S) {old' : Size} {aim : Place → Size}
    (hbrq : aim (.head .brq) = (layout true num numBits).brq)
    (hcells : ∀ (p : Place) (t : Size), p.Valid (layout true num numBits) → p.target (layout true num numBits) = some t →
      p ≠ .head .brq → m.cells (p.off (layout true num numBits)) = some (.pointer (old' + aim p))) (base' : Size) (now' : ℤ) :
    ∃ m₁, buildStatefile num numBits now' { m with base := base' } = walkMmapInfo m₁ ∧
      Aimed (layout true num numBits) aim m.cells {.head .brq} old' base' m₁ := by
  obtain ⟨m₁, hm₁, h₁⟩ := aimed_of_cells hl (m := { m with base := base' }) h.length hbrq hcells
  refine ⟨m₁, ?_, h₁⟩
  rw [buildStatefile_found hbits (m := { m with base := base' }) h.length (h.cells_magic hmagic)]
  exact congrArg (· >>= walkMmapInfo) hm₁

/-- The null pointer, moved, is outside. -/
theorem not_inside_null (hbase : m.base = base) (hnull : m.length < (-old).toNat) (n : ℕ) :
    ¬ Inside m (base + -old) n := by
  rw [Inside, hbase, Memory.base_add_sub]
  omega

/-- Without the pointer to the group there is nothing in the ring. -/
theorem Begun.no_group (hc : Configured num numBits) (h : Begun (layout true num numBits) S now old m)
    (hmagic : .head .magic ∈ S) (hsize : .head .groupSize ∉ S)
    (hnone : ∀ (p : Place) (t : Size), p.target (layout true num numBits) = some t → p ≠ .head .brq → p ∉ S)
    {base' : Size} {now' : ℤ} {m' : Mapped}
    (hbuild : buildStatefile num numBits now' { m with base := base' } = .ok m') : ¬ WellFormed num numBits m' := by
  let l := layout true num numBits
  let aim : Place → Size := fun p => if p = .head .brq then l.brq else l.group
  have hcells : ∀ (p : Place) (t : Size), p.Valid l → p.target l = some t → p ≠ .head .brq →
      m.cells (p.off l) = some (.pointer (-l.group + aim p)) := by
    intro p t hp ht hne
    rw [h.zero p hp (hnone p t ht hne), Place.zero_of_target ht, show aim p = l.group from if_neg hne,
      BitVec.add_left_neg]
    rfl
  obtain ⟨m₁, hm₁, h₁⟩ := h.buildStatefile_eq hc.three_lt hc.fits hmagic
    (show aim (.head .brq) = l.brq from rfl) hcells base' now'
  obtain ⟨m₂, hm₂, h₂⟩ := h₁.walkMmapInfo_eq hc.fits rfl rfl rfl
  rw [hm₁, hm₂] at hbuild
  rintro ⟨⟨r, hr, -⟩, -, -⟩
  have hzero := h₂.walkGroup_none hc.fits rfl rfl rfl (h.zero (.head .groupSize) trivial hsize) hbuild hr
  have hnum := hc.one_le
  rw [← r.wf.groupSize, hzero] at hnum
  exact Nat.not_succ_le_zero 0 hnum

/-- Without the pointer to the aggregate, `build_bloom_ring` ends outside. -/
theorem Begun.no_aggregate (hbits : 3 < numBits) (hl : (layout true num numBits).Fits)
    (h : Begun (layout true num numBits) S now old m) (hnull : (layout true num numBits).lumpsize.toNat < (-old).toNat)
    (hmagic : .head .magic ∈ S) (hbrq : .head .brq ∈ S) (hgroup : .head .group ∈ S) (hagg : .head .aggregate ∉ S)
    (base' : Size) (now' : ℤ) :
    buildStatefile num numBits now' { m with base := base' } = .error .outOfBounds := by
  obtain ⟨m₁, hm₁, h₁⟩ := h.buildStatefile_eq hbits hl hmagic (if_pos hbrq) (fun p t hp ht _ => h.cells_pointer hp ht)
    base' now'
  obtain ⟨m₂, hm₂, h₂⟩ := h₁.walkMmapInfo_eq hl rfl (if_pos hbrq) (if_pos hgroup)
  rw [hm₁, hm₂]
  exact h₂.walkGroup_null hl (if_neg hagg) (Nat.le_of_lt hnull) (h.outside _ (Nat.le_of_lt hnull))

/-- Without the pointer to the bits of the last member it ends outside, or leaves that pointer
there. -/
theorem Begun.no_filter (hc : Configured num numBits) (h : Begun (layout true num numBits) S now old m)
    (hnull : (layout true num numBits).lumpsize.toNat < (-old).toNat) (hheads : ∀ x : Head, .head x ∈ S)
    (hfilter : .field num.toNat .filter ∉ S) {base' : Size} {now' : ℤ} {m' : Mapped}
    (hbuild : buildStatefile num numBits now' { m with base := base' } = .ok m') : ¬ WellFormed num numBits m' := by
  have hl := hc.fits
  have hle := Nat.le_of_lt hnull
  obtain ⟨m₁, hm₁, h₁⟩ := h.buildStatefile_eq hc.three_lt hl (hheads _) (if_pos (hheads _))
    (fun p t hp ht _ => h.cells_pointer hp ht) base' now'
  obtain ⟨m₂, hm₂, h₂⟩ := h₁.walkMmapInfo_eq hl rfl (if_pos (hheads _)) (if_pos (hheads _))
  have hsize : m.cells ((Place.head .groupSize).off (layout true num numBits)) = some (.word num) :=
    h.stored (.head .groupSize) trivial (hheads _)
  obtain ⟨m₃, hm₃, h₃⟩ := h₂.walkGroup_eq hl (if_pos (hheads _)) (if_pos (hheads _)) hsize
  rw [hm₁, hm₂, hm₃] at hbuild
  -- a turn that does not fail has found its member
  obtain ⟨h', hmembers⟩ := foldlM_range_preserves
    (fun k m' => Aimed (layout true num numBits) (aimOf (layout true num numBits) S old) m.cells (walked k) old base' m' ∧
      ∀ i < k, .member i ∈ S) ⟨h₃, fun i hi => absurd hi (Nat.not_lt_zero i)⟩
    (fun k hk m₁ m₂ ⟨h₁, hmem⟩ hturn => by
      by_cases hk' : .member k ∈ S
      · obtain ⟨m₃, hm₃, h₃⟩ := h₁.walkTurn_ok hl (if_pos (hheads _)) (if_pos (hheads _)) hk (if_pos hk')
        obtain rfl : m₃ = m₂ := Except.ok.inj (hm₃.symm.trans hturn)
        refine ⟨h₃, fun i hi => ?_⟩
        rcases Nat.lt_succ_iff_lt_or_eq.mp hi with hi | rfl
        · exact hmem i hi
        · exact hk'
      · rw [h₁.walkTurn_null hl (if_pos (hheads _)) (if_pos (hheads _)) hk (if_neg hk') hle (h.outside _ hle)] at hturn
        cases hturn) hbuild
  intro hwf
  obtain ⟨i, hi⟩ : ∃ i, num.toNat = i + 1 := Nat.exists_eq_succ_of_ne_zero (Nat.ne_of_gt hc.one_le)
  have hlt : i < (layout true num numBits).groupSize.toNat := Nat.lt_of_lt_of_eq (Nat.lt_succ_self i) hi.symm
  obtain ⟨f, d, hf, -, hd, hin⟩ := hwf.filters num.toNat (Nat.le_refl _)
  rw [hi] at hf hfilter
  rw [h'.filterPointer_succ hl (if_pos (hheads _)) (if_pos (hheads _)) (if_pos (hheads _)) hlt
    (if_pos (hmembers i hlt)) hsize] at hf
  have hload := h'.load (p := .field (i + 1) .filter) hlt rfl hlt
  rw [Place.off_filter, aimOf, if_neg hfilter] at hload
  obtain rfl := Except.ok.inj hf
  obtain rfl := Except.ok.inj (hload.symm.trans hd)
  exact not_inside_null h'.base_eq (h'.length.trans_lt hnull) _ hin

/-- With all pointers in place, the zeros that have not been stored are there already. -/
theorem Begun.laid (h : Begun l S now old m) (hfields : ∀ p ∈ l.fieldPlaces, p ∈ S) :
    Laid l (newContent now) Set.univ old old m := by
  refine ⟨h.base_eq, h.length, fun p hp ht => ?_, fun p t hp ht _ => ?_, fun p t _ _ hn => absurd (Set.mem_univ p) hn⟩
  · by_cases hS : p ∈ S
    · rw [h.stored p hp hS, Content.cell, ht]
    · obtain ⟨k, j, rfl⟩ := (mem_fieldPlaces hp).resolve_left fun hf => hS (hfields p hf)
      exact h.zero _ hp hS
  · rcases mem_fieldPlaces hp with hf | ⟨k, j, rfl⟩
    · rw [h.stored p hp (hfields p hf), Content.cell, ht]
    · cases ht

/-! ### Any point in time -/

theorem take_places (l : Layout) {n : ℕ} (hn : n ≤ l.fieldPlaces.length) : l.places.take n = l.fieldPlaces.take n := by
  rw [Layout.places_eq, List.take_append_of_le_length hn]

theorem take_headPlaces (l : Layout) {n : ℕ} (hn : n ≤ 8) : l.places.take n = headPlaces.take n := by
  rw [take_places l (by rw [length_fieldPlaces]; omega), Layout.fieldPlaces]
  simp only [List.append_assoc]
  exact List.take_append_of_le_length hn

theorem mem_take_of_le {i n : ℕ} (hi : i ≤ n) {p : Place} (hp : p ∈ headPlaces.take i) (h8 : i ≤ 8) :
    p ∈ l.places.take n := by
  rw [← take_headPlaces l h8] at hp
  exact List.take_subset_take_left _ hi hp

theorem notMem_take_of_le {i n : ℕ} (hn : n ≤ i) {p : Place} (hp : p ∉ headPlaces.take i) (h8 : i ≤ 8) :
    p ∉ l.places.take n := by
  rw [← take_headPlaces l h8] at hp
  exact fun hmem => hp (List.take_subset_take_left _ hn hmem)

/-- The pointer to the ring is the only one among the first four. -/
theorem pointer_notMem_take {p : Place} {t : Size} (ht : p.target l = some t) (hne : p ≠ .head .brq) :
    p ∉ headPlaces.take 4 := by
  simp only [headPlaces, List.take_succ_cons, List.take_zero, List.mem_cons, List.not_mem_nil, or_false]
  rintro (rfl | rfl | rfl | rfl)
  · cases ht
  · cases ht
  · exact hne rfl
  · cases ht

/-- The last of the pointers is the one to the bits of the last member. -/
theorem last_notMem_take (l : Layout) {i n : ℕ} (hi : l.groupSize.toNat = i + 1) (hn : n < l.fieldPlaces.length) :
    .field (i + 1) .filter ∉ l.places.take n := by
  have hsplit : ∃ ps : List Place, l.fieldPlaces = ps ++ [.field (i + 1) .filter] ∧ .field (i + 1) .filter ∉ ps := by
    rw [Layout.fieldPlaces, hi, List.range_succ (n := i), List.map_append, ← List.append_assoc]
    refine ⟨_, rfl, ?_⟩
    simp [headPlaces]
  obtain ⟨ps, hps, hlast⟩ := hsplit
  rw [take_places l (Nat.le_of_lt hn), hps]
  rw [hps, List.length_append, List.length_singleton] at hn
  rw [List.take_append_of_le_length (Nat.le_of_lt_succ hn)]
  exact fun hmem => hlast (List.mem_of_mem_take hmem)

/-- What the next start finds after `n` stores: a well-formed ring, if there is none of them or
the last pointer is one of them. -/
theorem wellFormed_take_iff (hc : Configured num numBits) (hnull : (layout true num numBits).lumpsize.toNat < (-old).toNat)
    {n : ℕ} (h : Begun (layout true num numBits) ((layout true num numBits).places.take n) now old m) (base' : Size)
    (now' : ℤ) :
    (∃ m', buildStatefile num numBits now' { m with base := base' } = .ok m' ∧ WellFormed num numBits m') ↔
      n = 0 ∨ 12 + 5 * num.toNat ≤ n := by
  have hlen : (layout true num numBits).fieldPlaces.length = 12 + 5 * num.toNat := length_fieldPlaces _
  constructor
  · rintro ⟨m', hbuild, hwf⟩
    by_contra hn
    obtain ⟨hpos, hlt⟩ := not_or.mp hn
    have hmagic : .head .magic ∈ (layout true num numBits).places.take n :=
      mem_take_of_le (Nat.one_le_iff_ne_zero.mpr hpos) (by simp [headPlaces]) (by omega)
    by_cases h4 : n ≤ 4
    · have hsize : .head .groupSize ∉ (layout true num numBits).places.take n :=
        notMem_take_of_le h4 (by simp [headPlaces]) (by omega)
      exact h.no_group hc hmagic hsize (fun p t ht hne => notMem_take_of_le h4 (pointer_notMem_take ht hne) (by omega))
        hbuild hwf
    · by_cases h7 : n ≤ 7
      · have hstored : ∀ p ∈ headPlaces.take 5, p ∈ (layout true num numBits).places.take n :=
          fun p hp => mem_take_of_le (by omega) hp (by omega)
        rw [h.no_aggregate hc.three_lt hc.fits hnull hmagic (hstored _ (by simp [headPlaces]))
          (hstored _ (by simp [headPlaces])) (notMem_take_of_le h7 (by simp [headPlaces]) (by omega))] at hbuild
        cases hbuild
      · have hheads : ∀ x : Head, .head x ∈ (layout true num numBits).places.take n := by
          intro x
          refine mem_take_of_le (show 8 ≤ n by omega) ?_ (le_refl 8)
          cases x <;> simp [headPlaces]
        obtain ⟨i, hi⟩ : ∃ i, num.toNat = i + 1 := Nat.exists_eq_succ_of_ne_zero (Nat.ne_of_gt hc.one_le)
        have hlast := last_notMem_take (layout true num numBits) (n := n) hi (by omega)
        rw [← hi] at hlast
        exact h.no_filter hc hnull hheads hlast hbuild hwf
  · rintro (rfl | hn)
    · have hmagic : m.cells 0 ≠ some .magic := by
        rw [show m.cells 0 = none from h.zero (.head .magic) trivial List.not_mem_nil]
        exact nofun
      obtain ⟨m', hm', h'⟩ := storeAll_initStores hc.fits (m := { m with base := base' }) h.length now'
      refine ⟨m', ?_, h'.wellFormed hc⟩
      rw [buildStatefile_new hc.three_lt (m := { m with base := base' }) h.length hmagic]
      exact hm'
    · have hlaid := h.laid fun p hp => by
        rw [Layout.places_eq]
        exact List.take_subset_take_left _ (Nat.le_trans (Nat.le_of_eq hlen) hn) (by rwa [List.take_left])
      obtain ⟨m', hm', h'⟩ := buildStatefile_restart hc.fits hc.three_lt hlaid base' now'
      exact ⟨m', hm', h'.wellFormed hc⟩

/-- **The next start finds a well-formed ring just when the process has stopped before the seventh
byte of the magic string or after the last pointer.** -/
theorem interrupted_iff (hc : Configured num numBits) {base : Size} (hbase : base ≠ 0)
    (hend : base.toNat + (statefileSize num numBits).toNat < 2 ^ 64) (now : ℤ) (k : ℕ) (base' : Size) (now' : ℤ) :
    ∃ m, stopped num numBits base now k = .ok m ∧
      ((∃ m', buildStatefile num numBits now' { m with base := base' } = .ok m' ∧ WellFormed num numBits m') ↔
        k < 7 ∨ 19 + 5 * num.toNat ≤ k) := by
  obtain ⟨m, hm, h⟩ := begun_take hc.fits base now (completed k)
  have hpos : base.toNat ≠ 0 := fun h0 => hbase (BitVec.eq_of_toNat_eq h0)
  have hnull : (layout true num numBits).lumpsize.toNat < (-base).toNat := by
    rw [BitVec.toNat_neg, ← statefileSize_eq]
    omega
  refine ⟨m, hm, (wellFormed_take_iff hc hnull h base' now').trans ?_⟩
  have hnum := hc.one_le
  rw [completed]
  split_ifs
  · omega
  · omega

/-- A ring of one filter of one word: all pointers have been stored, and none of the bits. -/
theorem interrupted_after_pointers :
    ∃ m m', stopped 1 5 4096 1000 24 = .ok m ∧
      buildStatefile 1 5 2000 { m with base := 8192 } = .ok m' ∧ WellFormed 1 5 m' := by
  have hc : Configured 1 5 := ⟨by decide, by decide, by decide⟩
  obtain ⟨m, hm, hiff⟩ := interrupted_iff hc (show (4096 : Size) ≠ 0 by decide) (by decide) 1000 24 8192 2000
  obtain ⟨m', hm', hwf⟩ := hiff.mpr (by decide)
  exact ⟨m, m', hm, hm', hwf⟩

/-- The same ring, with the magic string and the first pointers, but not yet the one to the
aggregate: the next start goes through the null pointer. -/
theorem interrupted_before_aggregate :
    ∃ m, stopped 1 5 4096 1000 12 = .ok m ∧
      buildStatefile 1 5 2000 { m with base := 8192 } = .error .outOfBounds := ⟨_, rfl, rfl⟩

end Gross.Bloom
