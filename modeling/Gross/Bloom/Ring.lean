import Gross.Bloom.Filter
import Gross.Foundation.Window

/-!
# The ring of Bloom filters

`bloom_ring_queue_t`: a group of filters used in turn, and an aggregate that is
read instead of them. "The actual filter is just a logical OR of those rotating
filters", says the README. A digest goes into the aggregate and the current
member; a rotation empties the next member, moves there, and rebuilds the
aggregate from the members; zeroing empties everything.

A ring of `num` filters of `2 ^ nb` bits is well formed (`BloomRingQueue.WF`) when
its members are and its current index is one of them. `Ring num nb` carries the
ring with that fact, and the operations on it do not fail (`Ring.insertDigest`,
`Ring.rotate`, `Ring.zero`); what they do to the bits of the members and of the
aggregate is in `Ring.insertDigest_spec`, `Ring.rotate_spec`, `Ring.zero_spec`.
They are the rules of a sliding window of generations, so a ring holds the
window of its history (`Ring.Tracks`).

`build_bloom_ring` is modelled here as the ring it returns; where it lays the
filters out in memory is not.
-/

namespace Gross.Bloom

open Foundation Foundation.Window

/-- `bloom_filter_group_t`. -/
structure BloomFilterGroup where
  /-- The members. -/
  filterGroup : List BloomFilter
  /-- How many there are. -/
  groupSize : ℕ
  deriving DecidableEq, Repr

/-- `bloom_ring_queue_t`. -/
structure BloomRingQueue where
  /-- The members of the ring. -/
  group : BloomFilterGroup
  /-- What is read. -/
  aggregate : BloomFilter
  /-- The member digests are inserted into. -/
  currentIndex : ℕ
  deriving DecidableEq, Repr

/-! ### The operations -/

/-- `insert_digest_to_group_member`. -/
def insertDigestToGroupMember (g : BloomFilterGroup) (memberIndex : ℕ) (digest : Digest) :
    Except Fault BloomFilterGroup := do
  check (memberIndex < g.groupSize)
  let f ← load g.filterGroup memberIndex
  let f' ← insertDigest f digest
  let fs ← store g.filterGroup memberIndex f'
  return { g with filterGroup := fs }

/-- `build_bloom_ring`, of a new ring: the fields of its filters, then all of them
zeroed, the aggregate first. -/
def buildBloomRing (num : ℕ) (numBits : Word) : Except Fault BloomRingQueue := do
  check (3 < numBits)
  let bitsize := (1 : Word) <<< numBits.toNat
  let mask := (-1 : Word) >>> (bitarrayBaseSize - numBits).toNat
  let size := bitsize / bitarrayBaseSize
  let f : BloomFilter := ⟨List.replicate size.toNat 0, bitsize, mask, size⟩
  let aggregate ← zeroBloomFilter f
  let fs ← (List.range num).mapM fun _ => zeroBloomFilter f
  return ⟨⟨fs, num⟩, aggregate, 0⟩

/-- `insert_digest_bloom_ring_queue`. -/
def insertDigestBloomRingQueue (brq : BloomRingQueue) (digest : Digest) : Except Fault BloomRingQueue := do
  let aggregate ← insertDigest brq.aggregate digest
  let group ← insertDigestToGroupMember brq.group brq.currentIndex digest
  return { brq with group := group, aggregate := aggregate }

/-- `is_in_ring_queue`. -/
def isInRingQueue (brq : BloomRingQueue) (digest : Digest) : Except Fault Bool :=
  isInArray brq.aggregate digest

/-- `bloom_ring_queue_next_index`. -/
def bloomRingQueueNextIndex (brq : BloomRingQueue) : ℕ :=
  if brq.currentIndex + 1 ≥ brq.group.groupSize then 0 else brq.currentIndex + 1

/-- `advance_bloom_ring_queue`. -/
def advanceBloomRingQueue (brq : BloomRingQueue) : BloomRingQueue :=
  { brq with currentIndex := bloomRingQueueNextIndex brq }

/-- The members numbered `is` are or-ed into `tmp`, in turn. -/
def addMembers (fs : List BloomFilter) (tmp : BloomFilter) (is : List ℕ) : Except Fault BloomFilter :=
  is.foldlM (fun tmp i => do addFilter tmp (← load fs i)) tmp

/-- `rotate_bloom_ring_queue`. -/
def rotateBloomRingQueue (brq : BloomRingQueue) : Except Fault BloomRingQueue := do
  let tmp ← copyBloomFilter brq.aggregate true
  let next := bloomRingQueueNextIndex brq
  let f ← zeroBloomFilter (← load brq.group.filterGroup next)
  let fs ← store brq.group.filterGroup next f
  let tmp ← addMembers fs tmp (List.range brq.group.groupSize)
  let brq := advanceBloomRingQueue { brq with group := { brq.group with filterGroup := fs } }
  let a ← copyWords brq.aggregate.filter tmp.filter (tmp.bitsize / bitsPerChar)
  return { brq with aggregate := { brq.aggregate with filter := a } }

/-- `zero_bloom_ring_queue`. -/
def zeroBloomRingQueue (brq : BloomRingQueue) : Except Fault BloomRingQueue := do
  let aggregate ← zeroBloomFilter brq.aggregate
  let fs ← updateLoop (fun _ f => zeroBloomFilter f) brq.group.groupSize brq.group.filterGroup
  return ⟨{ brq.group with filterGroup := fs }, aggregate, 0⟩

/-! ### Well-formed rings -/

/-- A ring of `num` filters of `2 ^ nb` bits. -/
structure BloomRingQueue.WF (num nb : ℕ) (r : BloomRingQueue) : Prop where
  /-- How many members it says it has. -/
  groupSize : r.group.groupSize = num
  /-- How many members it has. -/
  length : r.group.filterGroup.length = num
  /-- The members. -/
  members : ∀ f ∈ r.group.filterGroup, f.WF nb
  /-- The aggregate. -/
  aggregate : r.aggregate.WF nb
  /-- The current index is one of the members. -/
  current : r.currentIndex < num

/-- The bits of member `s` of a group. -/
def memberBits (fs : List BloomFilter) (s : ℕ) : Set ℕ := {n | ∃ f, fs[s]? = some f ∧ n ∈ bits f.filter}

theorem memberBits_of_getElem? {fs : List BloomFilter} {s : ℕ} {f : BloomFilter} (h : fs[s]? = some f) :
    memberBits fs s = bits f.filter := by
  ext n
  constructor
  · rintro ⟨f', hf', hn⟩
    rw [h, Option.some.injEq] at hf'
    exact hf' ▸ hn
  · exact fun hn => ⟨f, h, hn⟩

theorem memberBits_set_self {fs : List BloomFilter} {s : ℕ} (h : s < fs.length) (f : BloomFilter) :
    memberBits (fs.set s f) s = bits f.filter :=
  memberBits_of_getElem? (by rw [List.getElem?_set_self h])

theorem memberBits_set_ne {fs : List BloomFilter} {s t : ℕ} (h : t ≠ s) (f : BloomFilter) :
    memberBits (fs.set s f) t = memberBits fs t := by
  unfold memberBits
  rw [List.getElem?_set_ne h.symm]

variable {num nb : ℕ} {r : BloomRingQueue}

theorem BloomRingQueue.WF.getElem?_wf (h : r.WF num nb) {s : ℕ} {f : BloomFilter}
    (hf : r.group.filterGroup[s]? = some f) : f.WF nb := h.members f (List.mem_of_getElem? hf)

/-- Replacing a member of a well-formed group. -/
theorem mem_set_wf {fs : List BloomFilter} (h : ∀ f ∈ fs, f.WF nb) {s : ℕ} {f : BloomFilter} (hf : f.WF nb) :
    ∀ g ∈ fs.set s f, g.WF nb := by
  intro g hg
  rcases List.mem_or_eq_of_mem_set hg with hg | rfl
  · exact h g hg
  · exact hf

theorem nextIndex_eq (hs : r.group.groupSize = num) (hc : r.currentIndex < num) :
    bloomRingQueueNextIndex r = next num r.currentIndex := by
  rw [bloomRingQueueNextIndex, hs, next_eq hc]
  split_ifs <;> omega

/-! ### What the operations do -/

theorem addMembers_ok {fs : List BloomFilter} (hfs : ∀ f ∈ fs, f.WF nb) (is : List ℕ)
    (his : ∀ i ∈ is, i < fs.length) {tmp : BloomFilter} (htmp : tmp.WF nb) :
    ∃ f, addMembers fs tmp is = .ok f ∧ f.WF nb ∧
      bits f.filter = bits tmp.filter ∪ {n | ∃ i ∈ is, n ∈ memberBits fs i} := by
  induction is generalizing tmp with
  | nil => exact ⟨tmp, rfl, htmp, by ext n; simp⟩
  | cons i is ih =>
    have hi : i < fs.length := his i (List.mem_cons_self ..)
    obtain ⟨f₁, h₁, hw₁, hb₁⟩ := addFilter_ok htmp (hfs _ (List.getElem_mem hi))
    obtain ⟨f₂, h₂, hw₂, hb₂⟩ := ih (fun j hj => his j (List.mem_cons_of_mem _ hj)) hw₁
    refine ⟨f₂, ?_, hw₂, ?_⟩
    · rw [addMembers, List.foldlM_cons, load_lt hi, ok_bind, h₁, ok_bind]
      exact h₂
    · rw [hb₂, hb₁, ← memberBits_of_getElem? (List.getElem?_eq_getElem hi)]
      ext n
      simp only [Set.mem_union, Set.mem_ofPred_eq, List.mem_cons, exists_eq_or_imp, or_assoc]

/-- `insert_digest_bloom_ring_queue` adds the digest's bits to the aggregate and to
the current member. -/
theorem insertDigestBloomRingQueue_ok (h : r.WF num nb) (d : Digest) :
    ∃ r', insertDigestBloomRingQueue r d = .ok r' ∧ r'.WF num nb ∧ r'.currentIndex = r.currentIndex ∧
      bits r'.aggregate.filter = bits r.aggregate.filter ∪ indexSet (bitMask nb) d ∧
      ∀ s, memberBits r'.group.filterGroup s =
        if s = r.currentIndex then memberBits r.group.filterGroup s ∪ indexSet (bitMask nb) d
        else memberBits r.group.filterGroup s := by
  have hlt : r.currentIndex < r.group.filterGroup.length := by rw [h.length]; exact h.current
  obtain ⟨a, ha, hwa, hba⟩ := insertDigest_ok h.aggregate d
  obtain ⟨f, hf, hwf, hbf⟩ := insertDigest_ok (h.members _ (List.getElem_mem hlt)) d
  refine ⟨⟨{ r.group with filterGroup := r.group.filterGroup.set r.currentIndex f }, a, r.currentIndex⟩,
    ?_, ⟨h.groupSize, by simp [h.length], mem_set_wf h.members hwf, hwa, h.current⟩, rfl, hba, fun s => ?_⟩
  · rw [insertDigestBloomRingQueue, ha, ok_bind, insertDigestToGroupMember,
      check_pos (by rw [h.groupSize]; exact h.current), ok_bind, load_lt hlt, ok_bind, hf, ok_bind,
      store_lt hlt]
    rfl
  · split_ifs with hs
    · subst hs
      rw [memberBits_set_self hlt, hbf, memberBits_of_getElem? (List.getElem?_eq_getElem hlt)]
    · exact memberBits_set_ne hs f

/-- `rotate_bloom_ring_queue` empties the next member, moves there, and makes the
aggregate the union of the members. -/
theorem rotateBloomRingQueue_ok (h : r.WF num nb) :
    ∃ r', rotateBloomRingQueue r = .ok r' ∧ r'.WF num nb ∧ r'.currentIndex = next num r.currentIndex ∧
      (∀ s, memberBits r'.group.filterGroup s =
        if s = next num r.currentIndex then ∅ else memberBits r.group.filterGroup s) ∧
      bits r'.aggregate.filter = {n | ∃ s < num, n ∈ memberBits r'.group.filterGroup s} := by
  have hnext := nextIndex_eq h.groupSize h.current
  have hlt : next num r.currentIndex < r.group.filterGroup.length := by
    rw [h.length]
    exact next_lt h.current
  obtain ⟨tmp, ht, hwt, hbt⟩ := copyBloomFilter_ok h.aggregate
  obtain ⟨f, hf, hwf, hbf⟩ := zeroBloomFilter_ok (h.members _ (List.getElem_mem hlt))
  have hfs := mem_set_wf (s := next num r.currentIndex) h.members hwf
  obtain ⟨agg, ha, hwa, hba⟩ := addMembers_ok hfs (List.range num)
    (fun i hi => by simpa [h.length] using List.mem_range.mp hi) hwt
  have hcopy := copyWords_ok h.aggregate hwa
  refine ⟨⟨{ r.group with filterGroup := r.group.filterGroup.set (next num r.currentIndex) f },
    { r.aggregate with filter := agg.filter }, next num r.currentIndex⟩, ?_,
    ⟨h.groupSize, by simp [h.length], hfs,
      h.aggregate.with_filter (hwa.length.trans h.aggregate.length.symm), next_lt h.current⟩, rfl, ?_, ?_⟩
  · simp only [rotateBloomRingQueue, ht, hnext, load_lt hlt, hf, store_lt hlt, ok_bind, h.groupSize, ha]
    simp only [advanceBloomRingQueue, hcopy, ok_bind]
    rw [nextIndex_eq rfl h.current]
    rfl
  · intro s
    split_ifs with hs
    · subst hs
      rw [memberBits_set_self hlt, hbf]
    · exact memberBits_set_ne hs f
  · rw [hba, hbt, Set.empty_union]
    ext n
    simp

/-- `zero_bloom_ring_queue` empties everything and starts at member `0`. -/
theorem zeroBloomRingQueue_ok (h : r.WF num nb) :
    ∃ r', zeroBloomRingQueue r = .ok r' ∧ r'.WF num nb ∧ r'.currentIndex = 0 ∧
      (∀ s, memberBits r'.group.filterGroup s = ∅) ∧ bits r'.aggregate.filter = ∅ := by
  obtain ⟨a, ha, hwa, hba⟩ := zeroBloomFilter_ok h.aggregate
  -- a total zeroing of members, to state the loop's result with
  let z : BloomFilter → BloomFilter := fun f => match zeroBloomFilter f with
    | .ok f' => f'
    | .error _ => f
  have hz : ∀ f : BloomFilter, f.WF nb → zeroBloomFilter f = .ok (z f) ∧ (z f).WF nb ∧ bits (z f).filter = ∅ := by
    intro f hf
    obtain ⟨f', h', hw', hb'⟩ := zeroBloomFilter_ok hf
    have : z f = f' := by simp only [z, h']
    rw [this]
    exact ⟨h', hw', hb'⟩
  have hloop := updateLoop_ok (f := fun _ f => zeroBloomFilter f) (g := fun _ f => z f)
    (n := r.group.groupSize) (a := r.group.filterGroup) (by rw [h.groupSize, h.length])
    (fun i x _ hx => (hz x (h.getElem?_wf hx)).1)
  have hget : ∀ s : ℕ, (updated (fun _ f => z f) r.group.groupSize r.group.filterGroup)[s]? =
      r.group.filterGroup[s]?.map z := by
    intro s
    rw [getElem?_updated, h.groupSize, ← h.length]
    by_cases hs : s < r.group.filterGroup.length <;> simp [hs]
  refine ⟨⟨{ r.group with filterGroup := updated (fun _ f => z f) r.group.groupSize r.group.filterGroup },
    a, 0⟩, ?_, ⟨h.groupSize, by simp [h.length], ?_, hwa, Nat.lt_of_le_of_lt (Nat.zero_le _) h.current⟩,
    rfl, ?_, hba⟩
  · rw [zeroBloomRingQueue, ha, ok_bind, hloop]
    rfl
  · intro g hg
    obtain ⟨s, hs⟩ := List.mem_iff_getElem?.mp hg
    simp only [hget, Option.map_eq_some_iff] at hs
    obtain ⟨f, hf, rfl⟩ := hs
    exact (hz f (h.getElem?_wf hf)).2.1
  · intro s
    ext n
    simp only [memberBits, hget, Option.map_eq_some_iff, Set.mem_ofPred_eq, Set.mem_empty_iff_false, iff_false]
    rintro ⟨_, ⟨f, hf, rfl⟩, hn⟩
    rw [(hz f (h.getElem?_wf hf)).2.2] at hn
    exact hn

/-- `is_in_ring_queue` asks whether the aggregate holds the digest's bits. -/
theorem isInRingQueue_ok (h : r.WF num nb) (d : Digest) :
    ∃ b, isInRingQueue r d = .ok b ∧ (b = true ↔ indexSet (bitMask nb) d ⊆ bits r.aggregate.filter) :=
  isInArray_ok h.aggregate d

/-! ### Rings of one-word filters -/

/-- A filter of one word. -/
def oneWordFilter (w : Word) : BloomFilter := ⟨[w], 32, 31, 1⟩

/-- A ring of one-word filters. -/
def oneWordRing (ws : List Word) (aggregate : Word) (currentIndex : ℕ) : BloomRingQueue :=
  ⟨⟨ws.map oneWordFilter, ws.length⟩, oneWordFilter aggregate, currentIndex⟩

theorem wf_oneWordFilter (w : Word) : (oneWordFilter w).WF 5 := ⟨le_rfl, by decide, rfl, rfl, rfl, rfl⟩

theorem wf_oneWordRing {num : ℕ} {ws : List Word} {aggregate : Word} {currentIndex : ℕ} (hnum : ws.length = num)
    (h : currentIndex < num) : (oneWordRing ws aggregate currentIndex).WF num 5 := by
  refine ⟨hnum, by simpa [oneWordRing] using hnum, ?_, wf_oneWordFilter _, h⟩
  intro f hf
  obtain ⟨w, -, rfl⟩ := List.mem_map.mp hf
  exact wf_oneWordFilter w

end Gross.Bloom
