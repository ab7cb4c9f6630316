import Gross.Bloom.History

/-!
# Filters that come from a peer

A peer sends its filters member by member, in chunks of `FILTER_SIZE` words.
`insert_absolute_bloom_ring_queue` ors a chunk into the member of the same
number, at the place its index says, and leaves the aggregate alone;
`sync_aggregate` then makes the aggregate the union of the members again.

A filter smaller than a chunk is taken whole: the number of words merged is
clamped to the filter's size, and the index counts pieces of that length
(`chunkLen`). A chunk that lies inside its member is merged without failing
(`insertAbsoluteBloomRingQueue_ok`).

The assertion of the loop is about the index plus the number of the word, and the
word is stored at the index times the length of a piece plus that number. So an
index that is smaller than the size, but not smaller than the number of pieces, gets
past the assertion, and the words are stored outside the member
(`insertAbsoluteBloomRingQueue_inside_iff`).
-/

namespace Gross.Bloom

open Foundation Foundation.Window

/-- `FILTER_SIZE`: the words of a chunk. -/
def filterSize : Word := 32

@[simp] theorem toNat_filterSize : filterSize.toNat = 32 := rfl

/-- `startup_sync_t`: a chunk. -/
structure StartupSync where
  /-- The member it is for. -/
  buffer : Word
  /-- Its number in the member. -/
  index : Word
  /-- Its words. -/
  filter : Vector Word 32
  deriving DecidableEq, Repr

/-- One turn of the loop of `insert_absolute_bloom_ring_queue`, on the words of the
member. The sum and the product are those of unsigned 32-bit integers. -/
def mergeBody (buffer : List Word) (size index fsize : Word) (a : List Word) (i : ℕ) :
    Except Fault (List Word) := do
  check (index + BitVec.ofNat 32 i < fsize)
  let x ← load a (index * size + BitVec.ofNat 32 i).toNat
  let b ← load buffer i
  store a (index * size + BitVec.ofNat 32 i).toNat (x ||| b)

/-- `insert_absolute_bloom_ring_queue`. -/
def insertAbsoluteBloomRingQueue (brq : BloomRingQueue) (buffer : List Word) (size index bufIndex : Word) :
    Except Fault BloomRingQueue := do
  check (bufIndex.toNat < brq.group.groupSize)
  let f ← load brq.group.filterGroup bufIndex.toNat
  let size := if f.size < size then f.size else size
  let a ← (List.range size.toNat).foldlM (mergeBody buffer size index f.size) f.filter
  let fs ← store brq.group.filterGroup bufIndex.toNat { f with filter := a }
  return { brq with group := { brq.group with filterGroup := fs } }

/-- The members in the order `sync_aggregate` takes them: from the current one on,
round to the one before it. -/
def indicesFrom (groupSize : ℕ) : ℕ → ℕ → List ℕ
  | 0, _ => []
  | n + 1, index => index :: indicesFrom groupSize n (if index + 1 ≥ groupSize then 0 else index + 1)

/-- `sync_aggregate`. -/
def syncAggregate (brq : BloomRingQueue) : Except Fault BloomRingQueue := do
  let aggregate ← zeroBloomFilter brq.aggregate
  let aggregate ← addMembers brq.group.filterGroup aggregate
    (indicesFrom brq.group.groupSize brq.group.groupSize brq.currentIndex)
  return { brq with aggregate := aggregate }

/-! ### Merging a chunk -/

/-- The number of words of a chunk that go into a filter of `2 ^ nb` bits. -/
def chunkLen (nb : ℕ) : ℕ := min 32 (2 ^ (nb - 5))

/-- The bits a chunk adds to its member: those of the words taken, each moved to the
place of the chunk. -/
def StartupSync.bits (nb : ℕ) (ss : StartupSync) : Set ℕ :=
  {n | ∃ k ∈ Foundation.bits (ss.filter.toList.take (chunkLen nb)), n = 32 * (ss.index.toNat * chunkLen nb) + k}

/-- A ring of `num` members of `2 ^ k` words. -/
structure BloomRingQueue.Sized (num k : ℕ) (r : BloomRingQueue) : Prop where
  /-- How many members it says it has. -/
  groupSize : r.group.groupSize = num
  /-- How many members it has. -/
  length : r.group.filterGroup.length = num
  /-- How many words the members say they have. -/
  size : ∀ f ∈ r.group.filterGroup, f.size.toNat = 2 ^ k
  /-- How many they have. -/
  words : ∀ f ∈ r.group.filterGroup, f.filter.length = 2 ^ k

theorem BloomRingQueue.WF.sized {num nb : ℕ} {r : BloomRingQueue} (h : r.WF num nb) : r.Sized num (nb - 5) :=
  ⟨h.groupSize, h.length, fun f hf => (h.members f hf).size, fun f hf => (h.members f hf).length⟩

/-- Each of its members is there. -/
theorem BloomRingQueue.Sized.member {num k i : ℕ} {r : BloomRingQueue} (h : r.Sized num k) (hi : i < num) :
    ∃ f, r.group.filterGroup[i]? = some f ∧ f.size.toNat = 2 ^ k ∧ f.filter.length = 2 ^ k := by
  have hlt : i < r.group.filterGroup.length := h.length.symm ▸ hi
  have hmem := List.getElem_mem hlt
  exact ⟨_, List.getElem?_eq_getElem hlt, h.size _ hmem, h.words _ hmem⟩

/-- A chunk that lies inside its member, in a ring of `num` filters of `2 ^ nb` bits. -/
structure StartupSync.Fits (num nb : ℕ) (ss : StartupSync) : Prop where
  /-- There is such a member. -/
  buffer : ss.buffer.toNat < num
  /-- There is such a piece of it. -/
  index : ss.index.toNat * chunkLen nb + chunkLen nb ≤ 2 ^ (nb - 5)

theorem chunkLen_pos (nb : ℕ) : 0 < chunkLen nb := by
  have : 0 < 2 ^ (nb - 5) := Nat.two_pow_pos _
  unfold chunkLen
  omega

theorem chunkLen_le (nb : ℕ) : chunkLen nb ≤ 32 := min_le_left _ _

theorem chunkLen_dvd (nb : ℕ) : chunkLen nb ∣ 2 ^ (nb - 5) := by
  unfold chunkLen
  rcases Nat.le_total 32 (2 ^ (nb - 5)) with h | h
  · rw [Nat.min_eq_left h]
    exact (Nat.pow_dvd_pow_iff_le_right (by decide)).mpr
      ((Nat.pow_le_pow_iff_right (by decide)).mp (show 2 ^ 5 ≤ 2 ^ (nb - 5) from h))
  · rw [Nat.min_eq_right h]

/-- One turn: none of the unsigned operations wraps around. -/
theorem mergeBody_ok {buffer a : List Word} {size index fsize : Word} {n : ℕ}
    (hsize : index.toNat * size.toNat + size.toNat ≤ fsize.toNat) (hn : n < size.toNat)
    (hin : index.toNat * size.toNat + n < a.length) (hb : n < buffer.length) :
    mergeBody buffer size index fsize a n =
      .ok (a.set (index.toNat * size.toNat + n) (a[index.toNat * size.toNat + n] ||| buffer[n])) := by
  have hfs := fsize.isLt
  have hpos : (index * size + BitVec.ofNat 32 n).toNat = index.toNat * size.toNat + n := by
    rw [BitVec.toNat_add, BitVec.toNat_mul, BitVec.toNat_ofNat, Nat.mod_eq_of_lt (show n < 2 ^ 32 by omega),
      Nat.mod_eq_of_lt (show index.toNat * size.toNat < 2 ^ 32 by omega), Nat.mod_eq_of_lt (by omega)]
  have hle : index.toNat ≤ index.toNat * size.toNat := Nat.le_mul_of_pos_right _ (by omega)
  have hlt : index + BitVec.ofNat 32 n < fsize := by
    rw [BitVec.lt_def, BitVec.toNat_add, BitVec.toNat_ofNat, Nat.mod_eq_of_lt (show n < 2 ^ 32 by omega),
      Nat.mod_eq_of_lt (by omega)]
    omega
  simp only [mergeBody, check_pos hlt, hpos, load_lt hin, load_lt hb, store_lt hin, ok_bind]

/-- The loop over a chunk: after `n` turns the first `n` words of the chunk are merged. -/
theorem foldlM_mergeBody_ok (buffer a : List Word) (size index fsize : Word) {n : ℕ}
    (hsize : index.toNat * size.toNat + size.toNat ≤ fsize.toNat) (hlen : a.length = fsize.toNat)
    (hbuf : size.toNat ≤ buffer.length) (hn : n ≤ size.toNat) :
    ∃ a', (List.range n).foldlM (mergeBody buffer size index fsize) a = .ok a' ∧
      OrBlock a buffer (index.toNat * size.toNat) n a' := by
  refine foldlM_range_inv _ (fun k a' => OrBlock a buffer (index.toNat * size.toNat) k a') (orBlock_zero a buffer _) ?_
  intro k hk a' h
  have hin : index.toNat * size.toNat + k < a'.length := by
    rw [h.1]
    omega
  exact ⟨_, mergeBody_ok hsize (by omega) hin (by omega), h.set hin (by omega)⟩

variable {num nb : ℕ} {r : BloomRingQueue}

/-- The number of words merged, as the source clamps it. -/
theorem clamp_eq {f : BloomFilter} (hsize : f.size.toNat = 2 ^ (nb - 5)) :
    (if f.size < filterSize then f.size else filterSize).toNat = chunkLen nb := by
  unfold chunkLen
  split_ifs with h <;> rw [BitVec.lt_def, hsize, toNat_filterSize] at h
  · rw [hsize]
    omega
  · rw [toNat_filterSize]
    omega

/-- `insert_absolute_bloom_ring_queue` on a chunk inside its member ors the words of the
chunk into those of the member, and changes nothing else. -/
theorem insertAbsoluteBloomRingQueue_orBlock (h : r.Sized num (nb - 5)) {ss : StartupSync} (hss : ss.Fits num nb)
    {f : BloomFilter} (hf : r.group.filterGroup[ss.buffer.toNat]? = some f) :
    ∃ a, insertAbsoluteBloomRingQueue r ss.filter.toList filterSize ss.index ss.buffer =
        .ok { r with group := { r.group with
          filterGroup := r.group.filterGroup.set ss.buffer.toNat { f with filter := a } } } ∧
      OrBlock f.filter ss.filter.toList (ss.index.toNat * chunkLen nb) (chunkLen nb) a := by
  have hlt : ss.buffer.toNat < r.group.filterGroup.length := h.length.symm ▸ hss.buffer
  have hgroup : ss.buffer.toNat < r.group.groupSize := h.groupSize.symm ▸ hss.buffer
  have hsize := h.size f (List.mem_of_getElem? hf)
  have hwords := h.words f (List.mem_of_getElem? hf)
  have hclamp := clamp_eq hsize
  have hbuf : chunkLen nb ≤ ss.filter.toList.length := by simpa using chunkLen_le nb
  obtain ⟨a, ha, hor⟩ := foldlM_mergeBody_ok ss.filter.toList f.filter
    (if f.size < filterSize then f.size else filterSize) ss.index f.size
    (by rw [hclamp, hsize]; exact hss.index) (hwords.trans hsize.symm) (by rw [hclamp]; exact hbuf) le_rfl
  rw [hclamp] at hor
  refine ⟨a, ?_, hor⟩
  simp only [insertAbsoluteBloomRingQueue, check_pos hgroup, load_of_getElem? hf, ha, store_lt hlt, ok_bind]
  rfl

/-- `insert_absolute_bloom_ring_queue` on a chunk inside its member adds the chunk's
bits to the member, and changes nothing else. -/
theorem insertAbsoluteBloomRingQueue_ok (h : r.WF num nb) {ss : StartupSync} (hss : ss.Fits num nb) :
    ∃ r', insertAbsoluteBloomRingQueue r ss.filter.toList filterSize ss.index ss.buffer = .ok r' ∧
      r'.WF num nb ∧ r'.currentIndex = r.currentIndex ∧ r'.aggregate = r.aggregate ∧
      ∀ s, memberBits r'.group.filterGroup s =
        if s = ss.buffer.toNat then memberBits r.group.filterGroup s ∪ ss.bits nb
        else memberBits r.group.filterGroup s := by
  have hlt : ss.buffer.toNat < r.group.filterGroup.length := h.length.symm ▸ hss.buffer
  have hget := List.getElem?_eq_getElem hlt
  have hf := h.getElem?_wf hget
  obtain ⟨a, hrun, hor⟩ := insertAbsoluteBloomRingQueue_orBlock h.sized hss hget
  refine ⟨_, hrun, ⟨h.groupSize, by simp [h.length], mem_set_wf h.members (hf.with_filter hor.1), h.aggregate, h.current⟩,
    rfl, rfl, fun s => ?_⟩
  split_ifs with hs
  · subst hs
    rw [memberBits_set_self hlt, memberBits_of_getElem? hget]
    exact bits_or_block (by rw [hf.length]; exact hss.index) hor
  · exact memberBits_set_ne hs _

/-- Merging whatever a chunk says, if it does not fail, takes nothing away. -/
theorem insertAbsoluteBloomRingQueue_of_ok (h : r.WF num nb) {buffer : List Word} {size index bufIndex : Word}
    {r' : BloomRingQueue} (hr : insertAbsoluteBloomRingQueue r buffer size index bufIndex = .ok r') :
    r'.WF num nb ∧ r'.currentIndex = r.currentIndex ∧ r'.aggregate = r.aggregate ∧
      ∀ s, memberBits r.group.filterGroup s ⊆ memberBits r'.group.filterGroup s := by
  obtain ⟨-, -, hr⟩ := bind_eq_ok hr
  obtain ⟨f, hload, hr⟩ := bind_eq_ok hr
  obtain ⟨a, ha, hr⟩ := bind_eq_ok hr
  obtain ⟨fs, hstore, hr⟩ := bind_eq_ok hr
  cases hr
  have hget := of_load_eq_ok hload
  have hlt := (List.getElem?_eq_some_iff.mp hget).1
  obtain rfl := of_store_eq_ok hstore
  -- each turn of the loop ors something into a word
  obtain ⟨hlen, hbits⟩ := foldlM_preserves (fun c => c.length = f.filter.length ∧ bits f.filter ⊆ bits c)
    (fun c i c' ⟨hlen, hbits⟩ hstep => by
      obtain ⟨-, -, hstep⟩ := bind_eq_ok hstep
      obtain ⟨x, hx, hstep⟩ := bind_eq_ok hstep
      obtain ⟨y, -, hstep⟩ := bind_eq_ok hstep
      obtain rfl := of_store_eq_ok hstep
      exact ⟨by simpa using hlen, hbits.trans (bits_subset_set_or (of_load_eq_ok hx) y)⟩)
    ⟨rfl, subset_rfl⟩ ha
  refine ⟨⟨h.groupSize, by simp [h.length], mem_set_wf h.members ((h.getElem?_wf hget).with_filter hlen),
    h.aggregate, h.current⟩, rfl, rfl, fun s => ?_⟩
  by_cases hs : s = bufIndex.toNat
  · subst hs
    rw [memberBits_set_self hlt, memberBits_of_getElem? hget]
    exact hbits
  · rw [memberBits_set_ne hs]

/-! ### Chunks from anywhere -/

/-- A chunk that begins in its member ends in it, as its length divides the size. -/
theorem StartupSync.Fits.of_begins {ss : StartupSync} (hbuffer : ss.buffer.toNat < num)
    (hbegins : ss.index.toNat * chunkLen nb < 2 ^ (nb - 5)) : ss.Fits num nb := by
  obtain ⟨m, hm⟩ := chunkLen_dvd nb
  refine ⟨hbuffer, ?_⟩
  rw [hm, Nat.mul_comm] at hbegins ⊢
  have hidx : ss.index.toNat < m := Nat.lt_of_mul_lt_mul_left hbegins
  exact Nat.mul_le_mul_left (chunkLen nb) hidx

/-- The first word decides: if its turn fails, so does `insert_absolute_bloom_ring_queue`. -/
theorem insertAbsoluteBloomRingQueue_first (h : r.Sized num (nb - 5)) (ss : StartupSync) {f : BloomFilter} {e : Fault}
    (hf : r.group.filterGroup[ss.buffer.toNat]? = some f)
    (he : mergeBody ss.filter.toList (if f.size < filterSize then f.size else filterSize) ss.index f.size f.filter 0 =
      .error e) :
    insertAbsoluteBloomRingQueue r ss.filter.toList filterSize ss.index ss.buffer = .error e := by
  have hgroup : ss.buffer.toNat < r.group.groupSize := by
    rw [h.groupSize, ← h.length]
    exact (List.getElem?_eq_some_iff.mp hf).1
  have hclamp := clamp_eq (h.size f (List.mem_of_getElem? hf))
  obtain ⟨c, hc⟩ := Nat.exists_eq_succ_of_ne_zero (chunkLen_pos nb).ne'
  simp only [insertAbsoluteBloomRingQueue, check_pos hgroup, load_of_getElem? hf, ok_bind, hclamp, hc,
    List.range_succ_eq_map, List.foldlM_cons, he, error_bind]

/-- **Where the words of a chunk go**: in a ring of filters of `2 ^ k` words,
`insert_absolute_bloom_ring_queue` stops at an assertion, or stores inside the member,
exactly if there is no member of that number, or the index is not smaller than the number
of words, or the chunk begins in the member. -/
theorem insertAbsoluteBloomRingQueue_inside_iff {brq : BloomRingQueue} {num k : ℕ} (h : brq.Sized num k) (hk : k ≤ 26)
    (ss : StartupSync) :
    (insertAbsoluteBloomRingQueue brq ss.filter.toList filterSize ss.index ss.buffer = .error .assertion ∨
      ∃ brq', insertAbsoluteBloomRingQueue brq ss.filter.toList filterSize ss.index ss.buffer = .ok brq') ↔
    num ≤ ss.buffer.toNat ∨ 2 ^ k ≤ ss.index.toNat ∨ ss.index.toNat * min 32 (2 ^ k) < 2 ^ k := by
  change _ ↔ _ ∨ _ ∨ ss.index.toNat * chunkLen (k + 5) < _
  rcases Nat.lt_or_ge ss.buffer.toNat num with hlt | hge
  swap
  · have hcheck : ¬ ss.buffer.toNat < brq.group.groupSize := by
      rw [h.groupSize]
      exact Nat.not_lt.mpr hge
    exact iff_of_true (.inl (by simp only [insertAbsoluteBloomRingQueue, check_neg hcheck, error_bind])) (.inl hge)
  obtain ⟨f, hget, hn, hlen⟩ := h.member hlt
  have hsized : brq.Sized num (k + 5 - 5) := h
  have hclamp : (if f.size < filterSize then f.size else filterSize).toNat = chunkLen (k + 5) := clamp_eq hn
  have hfirst := fun e => insertAbsoluteBloomRingQueue_first hsized ss (e := e) hget
  rcases Nat.lt_or_ge ss.index.toNat (2 ^ k) with hidx | hidx
  swap
  · have hcheck : ¬ ss.index + BitVec.ofNat 32 0 < f.size := by
      simpa [BitVec.lt_def, hn] using hidx
    exact iff_of_true (.inl (hfirst _ (by simp only [mergeBody, check_neg hcheck, error_bind]))) (.inr (.inl hidx))
  rcases Nat.lt_or_ge (ss.index.toNat * chunkLen (k + 5)) (2 ^ k) with hpos | hpos
  · obtain ⟨a, ha, -⟩ := insertAbsoluteBloomRingQueue_orBlock hsized (.of_begins hlt hpos) hget
    exact iff_of_true (.inr ⟨_, ha⟩) (.inr (.inr hpos))
  · -- the first word gets past the assertion, and its place does not wrap around
    have hcheck : ss.index + BitVec.ofNat 32 0 < f.size := by
      simpa [BitVec.lt_def, hn] using hidx
    have hpow : 2 ^ k ≤ 2 ^ 26 := Nat.pow_le_pow_right (by decide) hk
    have hwrap : ss.index.toNat * chunkLen (k + 5) < 2 ^ 32 :=
      Nat.lt_of_le_of_lt (Nat.mul_le_mul_left _ (chunkLen_le _)) (by omega)
    have hout : f.filter.length ≤ (ss.index * (if f.size < filterSize then f.size else filterSize) +
        BitVec.ofNat 32 0).toNat := by
      rw [BitVec.add_zero, BitVec.toNat_mul, hclamp, Nat.mod_eq_of_lt hwrap, hlen]
      exact hpos
    have hrun := hfirst .outOfBounds (by simp only [mergeBody, check_pos hcheck, load_ge hout, ok_bind, error_bind])
    rw [hrun]
    exact iff_of_false (by simp) (by omega)

/-- A ring of one filter of two words. -/
def twoWordRing : BloomRingQueue := ⟨⟨[⟨[0, 0], 64, 63, 2⟩], 1⟩, ⟨[0, 0], 64, 63, 2⟩, 0⟩

/-- A chunk for its member, of words that are all one. -/
def chunkAt (index : Word) : StartupSync := ⟨0, index, Vector.replicate 32 1⟩

/-- The chunk at index 0 is merged. -/
theorem insertAbsoluteBloomRingQueue_inside_zero :
    insertAbsoluteBloomRingQueue twoWordRing (chunkAt 0).filter.toList filterSize 0 0 = .error .assertion ∨
      ∃ brq', insertAbsoluteBloomRingQueue twoWordRing (chunkAt 0).filter.toList filterSize 0 0 = .ok brq' := by
  have hsized : twoWordRing.Sized 1 1 := ⟨rfl, rfl, by decide, by decide⟩
  exact (insertAbsoluteBloomRingQueue_inside_iff hsized (by decide) (chunkAt 0)).mpr (by decide)

/-- The chunk at index 1 gets past the assertion, as there are two words, and its first word
is stored after them. -/
theorem insertAbsoluteBloomRingQueue_outside :
    twoWordRing.WF 1 6 ∧ insertAbsoluteBloomRingQueue twoWordRing (chunkAt 1).filter.toList filterSize 1 0 =
      .error .outOfBounds := by
  have hfilter : BloomFilter.WF 6 ⟨[0, 0], 64, 63, 2⟩ := ⟨by decide, by decide, rfl, rfl, rfl, rfl⟩
  exact ⟨⟨rfl, rfl, by simpa [twoWordRing] using hfilter, hfilter, by decide⟩, by decide⟩

/-! ### Rebuilding the aggregate -/

theorem mem_indicesFrom_lt {groupSize n index : ℕ} (h : index < groupSize) :
    ∀ i ∈ indicesFrom groupSize n index, i < groupSize := by
  induction n generalizing index with
  | zero => simp [indicesFrom]
  | succ n ih =>
    intro i hi
    rcases List.mem_cons.mp hi with rfl | hi
    · exact h
    · refine ih ?_ i hi
      split_ifs <;> omega

/-- The members taken from `index` on, `n` of them, are those from `index` up, and
from the first up for what is left. -/
theorem mem_indicesFrom {groupSize n index s : ℕ} (h : index < groupSize) (hs : s < groupSize)
    (hn : (if index ≤ s then s - index else s + groupSize - index) < n) :
    s ∈ indicesFrom groupSize n index := by
  induction n generalizing index with
  | zero => omega
  | succ n ih =>
    by_cases hsi : s = index
    · subst hsi
      exact List.mem_cons_self ..
    · refine List.mem_cons_of_mem _ (ih (by split_ifs <;> omega) ?_)
      split_ifs at hn ⊢ <;> omega

/-- `sync_aggregate` takes every member. -/
theorem mem_indicesFrom_iff {num index : ℕ} (h : index < num) (s : ℕ) :
    s ∈ indicesFrom num num index ↔ s < num := by
  constructor
  · exact fun hs => mem_indicesFrom_lt h s hs
  · intro hs
    refine mem_indicesFrom h hs ?_
    split_ifs <;> omega

/-- `sync_aggregate` makes the aggregate the union of the members. -/
theorem syncAggregate_ok (h : r.WF num nb) :
    ∃ r', syncAggregate r = .ok r' ∧ r'.WF num nb ∧ r'.currentIndex = r.currentIndex ∧ r'.group = r.group ∧
      bits r'.aggregate.filter = {n | ∃ s < num, n ∈ memberBits r.group.filterGroup s} := by
  obtain ⟨z, hz, hwz, hbz⟩ := zeroBloomFilter_ok h.aggregate
  obtain ⟨a, ha, hwa, hba⟩ := addMembers_ok h.members (indicesFrom num num r.currentIndex)
    (fun i hi => by rw [h.length]; exact mem_indicesFrom_lt h.current i hi) hwz
  refine ⟨{ r with aggregate := a }, ?_, ⟨h.groupSize, h.length, h.members, hwa, h.current⟩, rfl, rfl, ?_⟩
  · rw [syncAggregate, hz, ok_bind, h.groupSize, ha]
    rfl
  · rw [hba, hbz, Set.empty_union]
    ext n
    simp only [Set.mem_ofPred_eq, mem_indicesFrom_iff h.current]

namespace Ring

/-- `insert_absolute_bloom_ring_queue`, of a chunk that fits. -/
def insertAbsolute (r : Ring num nb) (ss : StartupSync) (hss : ss.Fits num nb) : Ring num nb :=
  ⟨_, (value_of_spec (insertAbsoluteBloomRingQueue_ok r.wf hss)).1⟩

/-- `sync_aggregate`. -/
def syncAggregate (r : Ring num nb) : Ring num nb := ⟨_, (value_of_spec (syncAggregate_ok r.wf)).1⟩

theorem insertAbsolute_eq (r : Ring num nb) (ss : StartupSync) (hss : ss.Fits num nb) :
    insertAbsoluteBloomRingQueue r.brq ss.filter.toList filterSize ss.index ss.buffer =
      .ok (r.insertAbsolute ss hss).brq := eq_ok_value _

theorem syncAggregate_eq (r : Ring num nb) : Bloom.syncAggregate r.brq = .ok r.syncAggregate.brq :=
  eq_ok_value _

theorem insertAbsolute_spec (r : Ring num nb) (ss : StartupSync) (hss : ss.Fits num nb) :
    (r.insertAbsolute ss hss).cur = r.cur ∧ (r.insertAbsolute ss hss).agg = r.agg ∧
      ∀ s, (r.insertAbsolute ss hss).member s =
        if s = ss.buffer.toNat then r.member s ∪ ss.bits nb else r.member s := by
  obtain ⟨hcur, hagg, hmem⟩ := (value_of_spec (insertAbsoluteBloomRingQueue_ok r.wf hss)).2
  exact ⟨hcur, congrArg (fun f : BloomFilter => bits f.filter) hagg, hmem⟩

theorem syncAggregate_spec (r : Ring num nb) :
    r.syncAggregate.cur = r.cur ∧ (∀ s, r.syncAggregate.member s = r.member s) ∧
      r.syncAggregate.agg = {n | ∃ s < num, n ∈ r.member s} := by
  obtain ⟨hcur, hgroup, hagg⟩ := (value_of_spec (syncAggregate_ok r.wf)).2
  exact ⟨hcur, fun s => congrArg (fun g : BloomFilterGroup => memberBits g.filterGroup s) hgroup, hagg⟩

end Ring

end Gross.Bloom
