import Gross.Sync.Filters

/-!
# What a peer's filters leave

`send_filters` cuts the members of a ring into chunks, by a running index, and
`insert_absolute_bloom_ring_queue` ors a chunk into a member of another ring, at a place
it computes from the index of the chunk and the size of the member. Here the two meet:
the chunks of one ring are merged into another of the same sizes.

## The model

`Sized` rings have members of `2 ^ k` words, and what else their filters say of
themselves does not matter. The chunks come in any order, and any of them may come
again. `merged` is the receiver on the way: the words that some chunk so far was for
have been or-ed with the sender's.

## What is proved

`merged_in_any_order` — when each chunk has come at least once, each member is the
bitwise or of what it was and the sender's member of that number, nothing else has
changed, and no assertion failed.
-/

namespace Gross.Sync

open Foundation Bloom

/-- A chunk is merged. -/
def mergeChunk (brq : BloomRingQueue) (ss : StartupSync) : Except Fault BloomRingQueue :=
  insertAbsoluteBloomRingQueue brq ss.filter.toList filterSize ss.index ss.buffer

/-- A ring with other members. -/
def withMembers (R : BloomRingQueue) (fs : List BloomFilter) : BloomRingQueue :=
  { R with group := { R.group with filterGroup := fs } }

/-- The bitwise or of two filters of one size. -/
def orFilter (f g : BloomFilter) : BloomFilter := { f with filter := List.zipWith (· ||| ·) f.filter g.filter }

/-- A ring with the members of another or-ed into its own. -/
def orMembers (R S : BloomRingQueue) : BloomRingQueue :=
  withMembers R (List.zipWith orFilter R.group.filterGroup S.group.filterGroup)

/-- The chunk has a word for word `j` of member `i`, where chunks have `m` words. -/
def Covers (m : ℕ) (ss : StartupSync) (i j : ℕ) : Prop :=
  ss.buffer.toNat = i ∧ ss.index.toNat * m ≤ j ∧ j < ss.index.toNat * m + m

instance (m : ℕ) (ss : StartupSync) (i j : ℕ) : Decidable (Covers m ss i j) := inferInstanceAs (Decidable (_ ∧ _))

/-- The words of member `i` when the chunks `done` have been merged; `ws` are the sender's. -/
def mergedWords (m : ℕ) (done : List StartupSync) (i : ℕ) (ws old : List Word) : List Word :=
  old.mapIdx fun j x => if ∃ ss ∈ done, Covers m ss i j then x ||| ws[j]?.getD 0 else x

/-- The receiver when the chunks `done` of `S` have been merged. -/
def merged (S : BloomRingQueue) (m : ℕ) (done : List StartupSync) (R : BloomRingQueue) : BloomRingQueue :=
  withMembers R (R.group.filterGroup.mapIdx fun i f =>
    { f with filter := mergedWords m done i (memberWords S i) f.filter })

section

variable {S R : BloomRingQueue} {num k m i j : ℕ} {done : List StartupSync} {ss : StartupSync} {ws old : List Word}

theorem length_mergedWords : (mergedWords m done i ws old).length = old.length := by simp [mergedWords]

theorem getElem?_mergedWords : (mergedWords m done i ws old)[j]? =
    old[j]?.map fun x => if ∃ ss ∈ done, Covers m ss i j then x ||| ws[j]?.getD 0 else x := by simp [mergedWords]

theorem getElem?_merged : (merged S m done R).group.filterGroup[i]? =
    R.group.filterGroup[i]?.map fun f => { f with filter := mergedWords m done i (memberWords S i) f.filter } := by
  simp [merged, withMembers]

/-- Before the first chunk. -/
theorem merged_nil : merged S m [] R = R := by
  have hwords : ∀ (i : ℕ) (old : List Word), mergedWords m [] i (memberWords S i) old = old := by
    intro i old
    apply List.ext_getElem?
    intro j
    rw [getElem?_mergedWords]
    simp
  have hmembers : (merged S m [] R).group.filterGroup = R.group.filterGroup := by
    apply List.ext_getElem?
    intro i
    rw [getElem?_merged]
    simp only [hwords]
    simp
  exact congrArg (withMembers R) hmembers

theorem sized_merged (hR : R.Sized num k) : (merged S m done R).Sized num k where
  groupSize := hR.groupSize
  length := by simp [merged, withMembers, hR.length]
  size f hf := by
    obtain ⟨i, hi⟩ := List.getElem?_of_mem hf
    rw [getElem?_merged, Option.map_eq_some_iff] at hi
    obtain ⟨g, hg, rfl⟩ := hi
    exact hR.size g (List.mem_of_getElem? hg)
  words f hf := by
    obtain ⟨i, hi⟩ := List.getElem?_of_mem hf
    rw [getElem?_merged, Option.map_eq_some_iff] at hi
    obtain ⟨g, hg, rfl⟩ := hi
    exact length_mergedWords.trans (hR.words g (List.mem_of_getElem? hg))

/-- A word of a chunk, where the member has one. -/
theorem getElem?_pad_slice {c : ℕ} (hm : m ≤ 32) (hin : c * m ≤ j) (hlt : j < c * m + m) :
    (pad (slice ws (c * m) m)).toList[j - c * m]?.getD 0 = ws[j]?.getD 0 := by
  have hj : j - c * m < 32 := by omega
  have hword : (slice ws (c * m) m)[j - c * m]? = ws[j]? := by
    rw [getElem?_slice (by omega), Nat.add_sub_cancel' hin]
  simp [pad, hj, hword]

/-- A chunk of a ring, by the number of its member and its own. -/
theorem exists_chunkOf (hS : S.Sized num k) (hmax : num ≤ 2 ^ 32)
    (hss : ss ∈ (List.range num).flatMap fun i => memberChunks (chunkLen (k + 5)) i (memberWords S i)) :
    ss.Fits num (k + 5) ∧ ss.filter = pad (slice (memberWords S ss.buffer.toNat)
      (ss.index.toNat * chunkLen (k + 5)) (chunkLen (k + 5))) := by
  obtain ⟨i, hi, f, hget, hss⟩ := mem_allChunks hS.length hss
  have hf := List.mem_of_getElem? hget
  have hk : k < 32 := by
    have hlt := f.size.isLt
    rw [hS.size f hf] at hlt
    exact (Nat.pow_lt_pow_iff_right (by decide)).mp hlt
  have hwords : f.filter.length = 2 ^ (k + 5 - 5) := hS.words f hf
  obtain ⟨hfits, hbuffer⟩ := fits_of_mem_memberChunks hwords (by omega) hi hmax hss
  refine ⟨hfits, ?_⟩
  rw [hbuffer, memberWords_eq hget]
  obtain ⟨c, hc, rfl⟩ := List.mem_map.mp hss
  have hclt : c < 2 ^ 32 := by
    have hpow : 2 ^ k ≤ 2 ^ 31 := Nat.pow_le_pow_right (by decide) (by omega)
    have hle := Nat.div_le_self f.filter.length (chunkLen (k + 5))
    rw [hS.words f hf] at hle hc
    rw [List.mem_range] at hc
    omega
  rw [chunkOf, BitVec.toNat_ofNat, Nat.mod_eq_of_lt hclt]

/-- **One chunk**: it is merged, and so the receiver has one chunk more. A chunk that came before
changes nothing. -/
theorem mergeChunk_merged (hS : S.Sized num k) (hR : R.Sized num k) (hmax : num ≤ 2 ^ 32)
    (hss : ss ∈ (List.range num).flatMap fun i => memberChunks (chunkLen (k + 5)) i (memberWords S i)) :
    mergeChunk (merged S (chunkLen (k + 5)) done R) ss = .ok (merged S (chunkLen (k + 5)) (ss :: done) R) := by
  obtain ⟨hfits, hfilter⟩ := exists_chunkOf hS hmax hss
  obtain ⟨f, hget, -, -⟩ := hR.member hfits.buffer
  have hsized : (merged S (chunkLen (k + 5)) done R).Sized num (k + 5 - 5) := sized_merged hR
  have hmem : (merged S (chunkLen (k + 5)) done R).group.filterGroup[ss.buffer.toNat]? = _ := getElem?_merged
  rw [hget, Option.map_some] at hmem
  obtain ⟨a, hrun, hlen, hor⟩ := insertAbsoluteBloomRingQueue_orBlock hsized hfits hmem
  rw [mergeChunk, hrun]
  refine congrArg (fun fs => Except.ok (withMembers R fs)) (List.ext_getElem? fun i => ?_)
  have hi : (merged S (chunkLen (k + 5)) (ss :: done) R).group.filterGroup[i]? = _ := getElem?_merged
  rw [List.getElem?_set]
  refine Eq.trans ?_ hi.symm
  by_cases hbuf : ss.buffer.toNat = i
  · -- the member the chunk is for
    subst hbuf
    rw [if_pos rfl, if_pos (by rw [hsized.length]; exact hfits.buffer), hget, Option.map_some]
    congr 2
    apply List.ext_getElem?
    intro j
    rw [hor, getElem?_mergedWords, getElem?_mergedWords, Option.map_map]
    congr 1
    funext x
    simp only [Function.comp_apply, List.exists_mem_cons_iff]
    by_cases hin : ss.index.toNat * chunkLen (k + 5) ≤ j ∧ j < ss.index.toNat * chunkLen (k + 5) + chunkLen (k + 5)
    · have hcov : Covers (chunkLen (k + 5)) ss ss.buffer.toNat j := ⟨rfl, hin⟩
      rw [if_pos hin, hfilter, getElem?_pad_slice (chunkLen_le _) hin.1 hin.2, if_pos (Or.inl hcov)]
      split_ifs
      · rw [BitVec.or_assoc, BitVec.or_self]
      · rfl
    · have hcov : ¬ Covers (chunkLen (k + 5)) ss ss.buffer.toNat j := fun h => hin h.2
      rw [if_neg hin]
      simp only [hcov, false_or]
  · -- another one
    have hcov : ∀ j, ¬ Covers (chunkLen (k + 5)) ss i j := fun j h => hbuf h.1
    rw [if_neg hbuf, getElem?_merged]
    simp only [mergedWords, List.exists_mem_cons_iff, hcov, false_or]

/-- Chunks of a ring, in a row. -/
theorem foldlM_mergeChunk (hS : S.Sized num k) (hR : R.Sized num k) (hmax : num ≤ 2 ^ 32) {seq : List StartupSync}
    (hseq : ∀ ss ∈ seq, ss ∈ (List.range num).flatMap fun i => memberChunks (chunkLen (k + 5)) i (memberWords S i)) :
    seq.foldlM mergeChunk (merged S (chunkLen (k + 5)) done R) =
      .ok (merged S (chunkLen (k + 5)) (seq.reverse ++ done) R) := by
  induction seq generalizing done with
  | nil => rfl
  | cons ss seq ih =>
    rw [List.forall_mem_cons] at hseq
    rw [List.foldlM_cons, mergeChunk_merged hS hR hmax hseq.1, ok_bind, ih hseq.2]
    simp

/-- The chunks tile the members: there is one for each word. -/
theorem exists_covers (hS : S.Sized num k) (hmax : num ≤ 2 ^ 32) (hi : i < num) (hj : j < 2 ^ k) :
    ∃ ss ∈ (List.range num).flatMap fun i => memberChunks (chunkLen (k + 5)) i (memberWords S i),
      Covers (chunkLen (k + 5)) ss i j := by
  obtain ⟨f, hget, hfsize, hwords⟩ := hS.member hi
  have hpos := chunkLen_pos (k + 5)
  have hdvd : 2 ^ k / chunkLen (k + 5) * chunkLen (k + 5) = 2 ^ k := Nat.div_mul_cancel (chunkLen_dvd (k + 5))
  have hc : j / chunkLen (k + 5) < f.filter.length / chunkLen (k + 5) := by
    rw [hwords]
    exact Nat.div_lt_of_lt_mul (by rw [Nat.mul_comm, hdvd]; exact hj)
  have hss : chunkOf (chunkLen (k + 5)) i (j / chunkLen (k + 5)) f.filter ∈
      (List.range num).flatMap fun i => memberChunks (chunkLen (k + 5)) i (memberWords S i) := by
    refine List.mem_flatMap.mpr ⟨i, List.mem_range.mpr hi, ?_⟩
    rw [memberWords_eq hget]
    exact List.mem_map.mpr ⟨_, List.mem_range.mpr hc, rfl⟩
  have hsize := f.size.isLt
  rw [hfsize] at hsize
  have hjlt : j / chunkLen (k + 5) < 2 ^ 32 := (Nat.div_le_self _ _).trans_lt (hj.trans hsize)
  refine ⟨_, hss, ?_, ?_, ?_⟩
  · rw [chunkOf, BitVec.toNat_ofNat, Nat.mod_eq_of_lt (hi.trans_le hmax)]
  · rw [chunkOf, BitVec.toNat_ofNat, Nat.mod_eq_of_lt hjlt]
    exact Nat.div_mul_le_self _ _
  · rw [chunkOf, BitVec.toNat_ofNat, Nat.mod_eq_of_lt hjlt]
    exact Nat.lt_div_mul_add hpos

/-- When there was a chunk for each word, the members have been or-ed. -/
theorem merged_eq_orMembers (hS : S.Sized num k) (hR : R.Sized num k)
    (hdone : ∀ i < num, ∀ j < 2 ^ k, ∃ ss ∈ done, Covers m ss i j) : merged S m done R = orMembers R S := by
  refine congrArg (withMembers R) (List.ext_getElem? fun i => ?_)
  rw [List.getElem?_mapIdx, List.getElem?_zipWith]
  by_cases hi : i < num
  · obtain ⟨f, hgetR, -, hflen⟩ := hR.member hi
    obtain ⟨g, hgetS, -, hglen⟩ := hS.member hi
    rw [hgetR, hgetS, memberWords_eq hgetS, Option.map_some]
    simp only [orFilter]
    congr 2
    apply List.ext_getElem?
    intro j
    rw [getElem?_mergedWords, List.getElem?_zipWith]
    by_cases hj : j < 2 ^ k
    · have hcov := hdone i hi j hj
      simp [List.getElem?_eq_getElem (hflen.symm ▸ hj), List.getElem?_eq_getElem (hglen.symm ▸ hj), hcov]
    · simp [List.getElem?_eq_none (show f.filter.length ≤ j by omega)]
  · simp [List.getElem?_eq_none (show R.group.filterGroup.length ≤ i by rw [hR.length]; omega)]

/-- **The chunks of one ring, merged into another**: for any number of members, of `2 ^ k` words in
both rings, as many as an `int` can count, whatever the words are. The chunks that `send_filters` produces can come in any
order and any number of times; once each has come, each member is the bitwise or of the two
members, and nothing else has changed. -/
theorem merged_in_any_order (hS : S.Sized num k) (hR : R.Sized num k) (hk : k ≤ 30) (hnum : 0 < num)
    (hmax : num < 2 ^ 32) :
    ∃ chunks, sendFilters S = .ok chunks ∧ ∀ seq : List StartupSync, (∀ ss, ss ∈ seq ↔ ss ∈ chunks) →
      seq.foldlM mergeChunk R = .ok (orMembers R S) := by
  have hsized : S.Sized num (k + 5 - 5) := hS
  refine ⟨_, sendFilters_eq hsized (by omega) hnum, fun seq hseq => ?_⟩
  have hrun : seq.foldlM mergeChunk (merged S (chunkLen (k + 5)) [] R) = _ :=
    foldlM_mergeChunk hS hR hmax.le fun ss hss => (hseq ss).mp hss
  rw [merged_nil] at hrun
  rw [hrun, merged_eq_orMembers hS hR]
  intro i hi j hj
  obtain ⟨ss, hss, hcov⟩ := exists_covers hS hmax.le hi hj
  exact ⟨ss, by simpa using (hseq ss).mpr hss, hcov⟩

end

/-- A ring of two members of one word. -/
def twoMembers (v w : Word) : BloomRingQueue :=
  ⟨⟨[⟨[v], 32, 31, 1⟩, ⟨[w], 32, 31, 1⟩], 2⟩, ⟨[v ||| w], 32, 31, 1⟩, 0⟩

theorem sized_twoMembers (v w : Word) : (twoMembers v w).Sized 2 0 := by
  refine ⟨rfl, rfl, ?_, ?_⟩ <;> simp [twoMembers]

/-- The second chunk first, then the first one, then the second once more. -/
theorem merged_in_any_order_twice :
    [⟨1, 0, pad [4]⟩, ⟨0, 0, pad [3]⟩, ⟨1, 0, pad [4]⟩].foldlM mergeChunk (twoMembers 9 0) =
      .ok (orMembers (twoMembers 9 0) (twoMembers 3 4)) := by
  obtain ⟨chunks, hsend, hmerge⟩ := merged_in_any_order (sized_twoMembers 3 4) (sized_twoMembers 9 0)
    (by decide) (by decide) (by decide)
  have hchunks : sendFilters (twoMembers 3 4) = .ok [⟨0, 0, pad [3]⟩, ⟨1, 0, pad [4]⟩] := by rfl
  rw [hsend] at hchunks
  cases hchunks
  apply hmerge
  intro ss
  simp only [List.mem_cons, List.not_mem_nil, or_false]
  tauto

end Gross.Sync
