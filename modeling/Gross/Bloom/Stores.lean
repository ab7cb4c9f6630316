import Gross.Bloom.Aggregate

/-!
# The aggregate between stores

`test_tuple` looks a digest up without the bloom guard, so it can see the
aggregate while `bloommgr` changes it, after any of the words stored so far. This
module follows the three operations that change the aggregate word by word.

* `insert_digest_bloom_ring_queue` ors a bit in at a time.
* `rotate_bloom_ring_queue` builds the new aggregate aside, in `tmp`, and copies it
  over the old one with `memcpy`, which may take the words in any order.
* `sync_aggregate` empties the aggregate in place and then ors the members in.

`Operation.stores` lists the words of the aggregate after each store, and
`Operation.run` is the operation as a whole; the last of the stores leaves what the
operation leaves. `reported_between_iff` says when a digest that is reported before
and after is reported all the way: unless the operation is `sync_aggregate`, which
passes through an empty aggregate.
-/

namespace Gross.Bloom

open Foundation

/-- An operation that stores into the aggregate. -/
inductive Operation where
  /-- `insert_digest_bloom_ring_queue`. -/
  | insertDigest (digest : Digest)
  /-- `rotate_bloom_ring_queue`, with the order in which its `memcpy` takes the words. -/
  | rotate (order : List ℕ)
  /-- `sync_aggregate`. -/
  | syncAggregate
  deriving DecidableEq, Repr

/-- The operation as a whole. -/
def Operation.run (brq : BloomRingQueue) : Operation → Except Fault BloomRingQueue
  | .insertDigest digest => insertDigestBloomRingQueue brq digest
  | .rotate _ => rotateBloomRingQueue brq
  | .syncAggregate => Bloom.syncAggregate brq

/-- A `memcpy` takes each of the words it copies once. -/
def Operation.Takes (brq : BloomRingQueue) : Operation → Prop
  | .rotate order => order.Perm (List.range (brq.aggregate.bitsize / bitsPerChar / 4).toNat)
  | .insertDigest _ | .syncAggregate => True

/-! ### Store by store -/

/-- `insert_digest`. -/
def insertDigestStores (f : BloomFilter) (digest : Digest) : Except Fault (List (List Word)) :=
  foldlStates (fun a h => insertBit a (intToIndex h f.mask)) f.filter digest.words

/-- `zero_bloom_filter`. -/
def zeroStores (f : BloomFilter) : Except Fault (List (List Word)) :=
  foldlStates (updateBody fun _ _ => .ok 0) f.filter (List.range f.size.toNat)

/-- `memcpy`, word by word. -/
def copyStores (order : List ℕ) (dst src : List Word) : Except Fault (List (List Word)) :=
  foldlStates (updateBody fun i _ => load src i) dst order

/-- `add_filter`. -/
def addFilterStores (lvalue rvalue : BloomFilter) : Except Fault (List (List Word)) := do
  check (lvalue.size = rvalue.size)
  check (lvalue.mask = rvalue.mask)
  foldlStates (updateBody fun i x => do return x ||| (← load rvalue.filter i)) lvalue.filter
    (List.range lvalue.size.toNat)

/-- The loop that adds the members numbered `is`. -/
def addMembersStores (fs : List BloomFilter) : BloomFilter → List ℕ → Except Fault (List (List Word))
  | _, [] => .ok []
  | tmp, i :: is => do
    let f ← load fs i
    let ss ← addFilterStores tmp f
    let tmp ← addFilter tmp f
    let rest ← addMembersStores fs tmp is
    return ss ++ rest

/-- The words of the aggregate after each store an operation makes to them. -/
def Operation.stores (brq : BloomRingQueue) : Operation → Except Fault (List (List Word))
  | .insertDigest digest => insertDigestStores brq.aggregate digest
  | .rotate order => do
    let tmp ← copyBloomFilter brq.aggregate true
    let next := bloomRingQueueNextIndex brq
    let f ← zeroBloomFilter (← load brq.group.filterGroup next)
    let fs ← store brq.group.filterGroup next f
    -- `tmp` is nobody else's: these stores are not seen
    let tmp ← addMembers fs tmp (List.range brq.group.groupSize)
    copyStores order brq.aggregate.filter tmp.filter
  | .syncAggregate => do
    let zeroing ← zeroStores brq.aggregate
    let aggregate ← zeroBloomFilter brq.aggregate
    let adding ← addMembersStores brq.group.filterGroup aggregate
      (indicesFrom brq.group.groupSize brq.group.groupSize brq.currentIndex)
    return zeroing ++ adding

/-- The ring with these words in its aggregate. -/
def BloomRingQueue.showing (brq : BloomRingQueue) (a : List Word) : BloomRingQueue :=
  { brq with aggregate := { brq.aggregate with filter := a } }

variable {num nb : ℕ} {f g : BloomFilter} {r : BloomRingQueue}

/-- What is reported while the aggregate holds the words `a`. -/
theorem isInRingQueue_showing (h : r.WF num nb) {a : List Word} (ha : a.length = r.aggregate.filter.length)
    (d : Digest) : isInRingQueue (r.showing a) d = .ok true ↔ indexSet (bitMask nb) d ⊆ bits a := by
  obtain ⟨b, hb, hiff⟩ := isInArray_ok (h.aggregate.with_filter ha) d
  rw [isInRingQueue, BloomRingQueue.showing, hb, Except.ok.injEq, hiff]

/-! ### Or-ing in place -/

/-- The stores of `insert_digest` take no bit away. -/
theorem insertDigestStores_ok (hf : f.WF nb) (d : Digest) :
    ∃ ss f', insertDigestStores f d = .ok ss ∧ insertDigest f d = .ok f' ∧ ss.getLast? = some f'.filter ∧
      ∀ a ∈ ss, a.length = f.filter.length ∧ bits f.filter ⊆ bits a := by
  obtain ⟨ss, hss, hP⟩ := foldlStates_inv (fun a h => insertBit a (intToIndex h f.mask))
    (fun a => a.length = f.filter.length ∧ bits f.filter ⊆ bits a) d.words
    (fun a h _ ⟨hl, hb⟩ => by
      obtain ⟨a', ha', hl', hb'⟩ := insertBit_ok (a := a) (by rw [hl]; exact hf.index_lt h)
      refine ⟨a', ha', hl'.trans hl, hb.trans ?_⟩
      rw [hb']
      exact Set.subset_insert _ _)
    ⟨rfl, subset_rfl⟩
  obtain ⟨a, ha, -, -⟩ := foldlM_insertBit_ok f.mask d.words hf.index_lt
  refine ⟨ss, { f with filter := a }, hss, ?_, getLast?_of_foldlStates hss (by simp [Digest.words]) ha, hP⟩
  rw [insertDigest, ha]
  rfl

/-! ### Copying over -/

/-- Each word of `a` is that of `x` or that of `y`. -/
def Mixed (x y a : List Word) : Prop := a.length = x.length ∧ ∀ i : ℕ, a[i]? = x[i]? ∨ a[i]? = y[i]?

/-- A bit of both is one of the mixture. -/
theorem Mixed.mem_bits {x y a : List Word} (h : Mixed x y a) {n : ℕ} (hx : n ∈ bits x) (hy : n ∈ bits y) :
    n ∈ bits a := by
  rw [Foundation.mem_bits, testBit] at hx hy ⊢
  rcases h.2 (n / 32) with h | h
  · rwa [h]
  · rwa [h]

/-- One word copied. -/
theorem copyBody_ok {src a : List Word} {i : ℕ} (ha : i < a.length) (hs : i < src.length) :
    updateBody (fun i _ => load src i) a i = .ok (a.set i src[i]) := by
  simp only [updateBody, load_lt ha, load_lt hs, ok_bind]
  exact store_lt ha _

/-- A copy of the words numbered `order` leaves those, and the others as they were. -/
theorem foldlM_copyBody_ok {src : List Word} (order : List ℕ) (ho : ∀ i ∈ order, i < src.length) {a : List Word}
    (ha : a.length = src.length) :
    ∃ a', order.foldlM (updateBody fun i _ => load src i) a = .ok a' ∧ a'.length = src.length ∧
      ∀ i : ℕ, a'[i]? = if i ∈ order then src[i]? else a[i]? := by
  induction order generalizing a with
  | nil => exact ⟨a, rfl, ha, fun i => by simp⟩
  | cons k order ih =>
    have hk : k < src.length := ho k (List.mem_cons_self ..)
    obtain ⟨a', hrun, hlen, hget⟩ := ih (fun i hi => ho i (List.mem_cons_of_mem _ hi)) (a := a.set k src[k])
      (by simpa using ha)
    refine ⟨a', ?_, hlen, fun i => ?_⟩
    · rw [List.foldlM_cons, copyBody_ok (by omega) hk, ok_bind, hrun]
    · rw [hget]
      by_cases hi : i ∈ order
      · rw [if_pos hi, if_pos (List.mem_cons_of_mem _ hi)]
      · rw [if_neg hi, List.getElem?_set]
        by_cases hki : k = i
        · subst hki
          rw [if_pos rfl, if_pos (by omega), if_pos (List.mem_cons_self ..), List.getElem?_eq_getElem hk]
        · rw [if_neg hki, if_neg]
          simp [hi, Ne.symm hki]

/-- The stores of a `memcpy` show a mixture of the old and the new words, and end with
the new ones. -/
theorem copyStores_ok {dst src : List Word} {order : List ℕ} (hlen : dst.length = src.length) (hsrc : src ≠ [])
    (ho : order.Perm (List.range src.length)) :
    ∃ ss, copyStores order dst src = .ok ss ∧ ss.getLast? = some src ∧ ∀ a ∈ ss, Mixed dst src a := by
  have hmem : ∀ i, i ∈ order ↔ i < src.length := fun i => ho.mem_iff.trans List.mem_range
  obtain ⟨ss, hss, hP⟩ := foldlStates_inv (updateBody fun i _ => load src i) (Mixed dst src) order
    (fun a i hi ⟨hl, hm⟩ => by
      have hs : i < src.length := (hmem i).mp hi
      refine ⟨_, copyBody_ok (by omega) hs, by simpa using hl, fun k => ?_⟩
      rw [List.getElem?_set]
      by_cases hik : i = k
      · subst hik
        rw [if_pos rfl, if_pos (by omega), List.getElem?_eq_getElem hs]
        exact Or.inr rfl
      · rw [if_neg hik]
        exact hm k)
    ⟨rfl, fun _ => Or.inl rfl⟩
  obtain ⟨a, ha, hla, hget⟩ := foldlM_copyBody_ok order (fun i hi => (hmem i).mp hi) hlen
  obtain rfl : a = src := by
    apply List.ext_getElem?
    intro i
    rw [hget]
    split_ifs with hi
    · rfl
    · have hle : src.length ≤ i := Nat.le_of_not_lt fun h => hi ((hmem i).mpr h)
      rw [List.getElem?_eq_none (by omega), List.getElem?_eq_none hle]
  have hne : order ≠ [] := by
    rintro rfl
    exact hsrc (List.length_eq_zero_iff.mp (by simpa using ho.length_eq.symm))
  exact ⟨ss, hss, getLast?_of_foldlStates hss hne ha, hP⟩

/-- What `rotate_bloom_ring_queue` copies over the aggregate is what it leaves there. -/
theorem rotate_stores_eq (h : r.WF num nb) :
    ∃ (tmp : BloomFilter) (r' : BloomRingQueue), tmp.WF nb ∧ rotateBloomRingQueue r = .ok r' ∧ r'.aggregate.filter = tmp.filter ∧
      ∀ order, (Operation.rotate order).stores r = copyStores order r.aggregate.filter tmp.filter := by
  have hlt : bloomRingQueueNextIndex r < r.group.filterGroup.length := by
    rw [nextIndex_eq h.groupSize h.current, h.length]
    exact Window.next_lt h.current
  obtain ⟨t, ht, hwt, -⟩ := copyBloomFilter_ok h.aggregate
  obtain ⟨f, hf, hwf, -⟩ := zeroBloomFilter_ok (h.members _ (List.getElem_mem hlt))
  have hfs := mem_set_wf (s := bloomRingQueueNextIndex r) h.members hwf
  obtain ⟨tmp, htmp, hwtmp, -⟩ := addMembers_ok hfs (List.range r.group.groupSize)
    (fun i hi => by simpa [h.length, h.groupSize] using List.mem_range.mp hi) hwt
  refine ⟨tmp, advanceBloomRingQueue
      ⟨{ r.group with filterGroup := r.group.filterGroup.set (bloomRingQueueNextIndex r) f },
        { r.aggregate with filter := tmp.filter }, r.currentIndex⟩, hwtmp, ?_, rfl, fun order => ?_⟩
  · simp only [rotateBloomRingQueue, ht, load_lt hlt, hf, store_lt hlt, ok_bind, htmp]
    simp only [advanceBloomRingQueue, copyWords_ok h.aggregate hwtmp, ok_bind]
    rfl
  · simp only [Operation.stores, ht, load_lt hlt, hf, store_lt hlt, ok_bind, htmp]

/-! ### Clearing and rebuilding -/

theorem range_size_ne_nil (hf : f.WF nb) : List.range f.size.toNat ≠ [] := by
  rw [Ne, List.range_eq_nil, hf.size]
  exact (Nat.two_pow_pos _).ne'

/-- The stores of `zero_bloom_filter` end with an empty filter. -/
theorem zeroStores_ok (hf : f.WF nb) :
    ∃ ss f', zeroStores f = .ok ss ∧ zeroBloomFilter f = .ok f' ∧ f'.WF nb ∧ f'.filter ∈ ss ∧ bits f'.filter = ∅ := by
  obtain ⟨f', hz, hwf, hb⟩ := zeroBloomFilter_ok hf
  obtain ⟨a, ha, hz'⟩ := bind_eq_ok hz
  cases hz'
  obtain ⟨ss, hss⟩ := foldlStates_of_foldlM ha
  have hlast := getLast?_of_foldlStates hss (range_size_ne_nil hf) ha
  exact ⟨ss, _, hss, hz, hwf, List.mem_of_getLast? hlast, hb⟩

/-- The stores of `add_filter` end with its result. -/
theorem addFilterStores_ok (hf : f.WF nb) (hg : g.WF nb) :
    ∃ ss f', addFilterStores f g = .ok ss ∧ addFilter f g = .ok f' ∧ f'.WF nb ∧ ss.getLast? = some f'.filter := by
  obtain ⟨f', hadd, hwf, -⟩ := addFilter_ok hf hg
  have hsize : f.size = g.size := BitVec.eq_of_toNat_eq (hf.size.trans hg.size.symm)
  have hmask : f.mask = g.mask := hf.mask.trans hg.mask.symm
  have hadd' := hadd
  rw [addFilter, check_pos hsize, check_pos hmask, ok_bind, ok_bind] at hadd'
  obtain ⟨a, ha, hadd'⟩ := bind_eq_ok hadd'
  cases hadd'
  obtain ⟨ss, hss⟩ := foldlStates_of_foldlM ha
  refine ⟨ss, _, ?_, hadd, hwf, getLast?_of_foldlStates hss (range_size_ne_nil hf) ha⟩
  rw [addFilterStores, check_pos hsize, check_pos hmask, ok_bind, ok_bind, hss]

/-- The stores of the loop over the members end with its result. -/
theorem addMembersStores_ok {fs : List BloomFilter} (hfs : ∀ f ∈ fs, f.WF nb) (is : List ℕ)
    (his : ∀ i ∈ is, i < fs.length) {tmp : BloomFilter} (htmp : tmp.WF nb) :
    ∃ ss f', addMembersStores fs tmp is = .ok ss ∧ addMembers fs tmp is = .ok f' ∧
      (is ≠ [] → ss.getLast? = some f'.filter) := by
  induction is generalizing tmp with
  | nil => exact ⟨[], tmp, rfl, rfl, fun h => absurd rfl h⟩
  | cons i is ih =>
    have hi : i < fs.length := his i (List.mem_cons_self ..)
    obtain ⟨ss₁, f₁, hs₁, h₁, hw₁, hlast₁⟩ := addFilterStores_ok htmp (hfs _ (List.getElem_mem hi))
    obtain ⟨ss₂, f₂, hs₂, h₂, hlast₂⟩ := ih (fun j hj => his j (List.mem_cons_of_mem _ hj)) hw₁
    refine ⟨ss₁ ++ ss₂, f₂, ?_, ?_, fun _ => ?_⟩
    · simp only [addMembersStores, load_lt hi, hs₁, h₁, hs₂, ok_bind]
      rfl
    · rw [addMembers, List.foldlM_cons, load_lt hi, ok_bind, h₁, ok_bind]
      exact h₂
    · cases is with
      | nil =>
        cases hs₂
        cases h₂
        rw [List.append_nil, hlast₁]
      | cons j is => rw [List.getLast?_append, hlast₂ (List.cons_ne_nil j is), Option.some_or]

/-- `sync_aggregate` passes through an empty aggregate. -/
theorem syncAggregate_stores_ok (h : r.WF num nb) :
    ∃ ss r', Operation.syncAggregate.stores r = .ok ss ∧ syncAggregate r = .ok r' ∧
      ss.getLast? = some r'.aggregate.filter ∧
      ∃ a ∈ ss, a.length = r.aggregate.filter.length ∧ bits a = ∅ := by
  obtain ⟨zs, z, hzs, hz, hwz, hmem, hbz⟩ := zeroStores_ok h.aggregate
  obtain ⟨ss, f, hss, hf, hlast⟩ := addMembersStores_ok h.members
    (indicesFrom r.group.groupSize r.group.groupSize r.currentIndex)
    (fun i hi => by
      rw [h.length, ← h.groupSize]
      exact mem_indicesFrom_lt (by rw [h.groupSize]; exact h.current) i hi) hwz
  have hne : indicesFrom r.group.groupSize r.group.groupSize r.currentIndex ≠ [] := by
    rw [h.groupSize]
    exact List.ne_nil_of_mem ((mem_indicesFrom_iff h.current _).mpr h.current)
  refine ⟨zs ++ ss, { r with aggregate := f }, ?_, ?_, ?_, z.filter, List.mem_append_left _ hmem,
    hwz.length.trans h.aggregate.length.symm, hbz⟩
  · simp only [Operation.stores, hzs, hz, hss, ok_bind]
    rfl
  · rw [syncAggregate, hz, ok_bind, hf]
    rfl
  · rw [List.getLast?_append, hlast hne, Option.some_or]

/-! ### What a lookup can see -/

/-- **A digest reported before and after an operation is reported after each of its
stores, unless the operation is `sync_aggregate`.** The ring is one whose aggregate
is the union of its members; no store fails, and the last one leaves the aggregate of
the result. -/
theorem reported_between_iff (r : Ring num nb) (hr : r.Settled) (op : Operation) (hop : op.Takes r.brq) (d : Digest) :
    ∃ ss r', op.stores r.brq = .ok ss ∧ op.run r.brq = .ok r' ∧ ss.getLast? = some r'.aggregate.filter ∧
      ((isInRingQueue r.brq d = .ok true → isInRingQueue r' d = .ok true →
          ∀ a ∈ ss, isInRingQueue (r.brq.showing a) d = .ok true) ↔
        (op ≠ .syncAggregate ∨ isInRingQueue r.brq d ≠ .ok true)) := by
  have hwf := r.wf
  cases op with
  | insertDigest d' =>
    obtain ⟨ss, f', hss, hf', hlast, hP⟩ := insertDigestStores_ok hwf.aggregate d'
    have hrun := r.insertDigest_eq d'
    have hagg : (r.insertDigest d').brq.aggregate = f' := by
      obtain ⟨f, hf, hrun⟩ := bind_eq_ok hrun
      obtain ⟨g, -, hrun⟩ := bind_eq_ok hrun
      rw [hf', Except.ok.injEq] at hf
      rw [← Except.ok.inj hrun, ← hf]
    refine ⟨ss, _, hss, hrun, by rw [hagg]; exact hlast, ?_⟩
    simp only [ne_eq, reduceCtorEq, not_false_eq_true, true_or, iff_true]
    intro hbefore _ a ha
    rw [isInRingQueue_showing hwf (hP a ha).1]
    exact ((r.isInRingQueue_eq_true d).mp hbefore).trans (hP a ha).2
  | rotate order =>
    obtain ⟨tmp, r', hwt, hr', hagg, hstores⟩ := rotate_stores_eq hwf
    have hlen : r.brq.aggregate.filter.length = tmp.filter.length := hwf.aggregate.length.trans hwt.length.symm
    have hsrc : tmp.filter ≠ [] := by
      rw [← List.length_pos_iff, hwt.length]
      exact Nat.two_pow_pos _
    rw [Operation.Takes, hwf.aggregate.words, ← hwt.length] at hop
    obtain ⟨ss, hss, hlast, hP⟩ := copyStores_ok hlen hsrc hop
    refine ⟨ss, r', by rw [hstores, hss], hr', by rw [hagg]; exact hlast, ?_⟩
    simp only [ne_eq, reduceCtorEq, not_false_eq_true, true_or, iff_true]
    intro hbefore hafter a ha
    rw [isInRingQueue_showing hwf (hP a ha).1]
    obtain rfl : r.rotate.brq = r' := Except.ok.inj (r.rotate_eq.symm.trans hr')
    have hold := (r.isInRingQueue_eq_true d).mp hbefore
    have hnew := (r.rotate.isInRingQueue_eq_true d).mp hafter
    rw [Ring.Reports, Ring.agg, hagg] at hnew
    exact fun n hn => (hP a ha).mem_bits (hold hn) (hnew hn)
  | syncAggregate =>
    obtain ⟨ss, r', hss, hr', hlast, a, ha, hla, hempty⟩ := syncAggregate_stores_ok hwf
    refine ⟨ss, r', hss, hr', hlast, ?_⟩
    simp only [ne_eq, not_true_eq_false, false_or]
    constructor
    · intro h hbefore
      -- the aggregate was the union of the members already, so the digest is reported after
      have hafter : isInRingQueue r' d = .ok true := by
        obtain rfl : r.syncAggregate.brq = r' := Except.ok.inj (r.syncAggregate_eq.symm.trans hr')
        rw [Ring.isInRingQueue_eq_true, Ring.Reports, r.syncAggregate_spec.2.2]
        exact ((r.isInRingQueue_eq_true d).mp hbefore).trans hr.subset
      have hsub := (isInRingQueue_showing hwf hla d).mp (h hbefore hafter a ha)
      rw [hempty] at hsub
      exact hsub (a := (intToIndex d.h0 (bitMask nb)).toNat) (List.mem_cons_self ..)
    · exact fun h hbefore => absurd hbefore h

/-- The digest of all zeros, which has the one bit `0`. -/
def zeroDigest : Digest := ⟨0, 0, 0, 0, 0, 0, 0, 0⟩

/-- In a ring of three, a digest of a member that a rotation keeps. -/
theorem reported_between_rotate :
    ∃ ss, (Operation.rotate [0]).stores (oneWordRing [1, 0, 0] 1 1) = .ok ss ∧
      ∀ a ∈ ss, isInRingQueue ((oneWordRing [1, 0, 0] 1 1).showing a) zeroDigest = .ok true := by
  let r : Ring 3 5 := ⟨oneWordRing [1, 2, 0] 3 0, wf_oneWordRing rfl (by decide)⟩
  have hbrq : r.rotate.brq = oneWordRing [1, 0, 0] 1 1 := Except.ok.inj (r.rotate_eq.symm.trans (by decide))
  obtain ⟨ss, r', hss, hr', -, hiff⟩ := reported_between_iff r.rotate r.rotate_spec.2.2 (.rotate [0])
    (by rw [hbrq]; exact List.Perm.refl _) zeroDigest
  rw [hbrq] at hss hr' hiff
  refine ⟨ss, hss, hiff.mpr (Or.inl (by decide)) (by decide) ?_⟩
  rw [show r' = oneWordRing [1, 0, 0] 1 2 from Except.ok.inj (hr'.symm.trans (by decide))]
  decide

/-- In a ring of one member, up to date, `sync_aggregate` changes nothing and yet loses a
digest for the time of a store. -/
theorem reported_between_lost :
    ∃ r : Ring 1 5, r.Settled ∧ r.brq = oneWordRing [1] 1 0 ∧
      isInRingQueue (oneWordRing [1] 1 0) zeroDigest = .ok true ∧
      Operation.syncAggregate.run (oneWordRing [1] 1 0) = .ok (oneWordRing [1] 1 0) ∧
      Operation.syncAggregate.stores (oneWordRing [1] 1 0) = .ok [[0], [1]] ∧
      isInRingQueue ((oneWordRing [1] 1 0).showing [0]) zeroDigest = .ok false := by
  let r : Ring 1 5 := ⟨oneWordRing [1] 1 0, wf_oneWordRing rfl (by decide)⟩
  have hbrq : r.syncAggregate.brq = oneWordRing [1] 1 0 := Except.ok.inj (r.syncAggregate_eq.symm.trans (by decide))
  exact ⟨r.syncAggregate, r.syncAggregate_settled, hbrq, by decide, by decide, by decide, by decide⟩

end Gross.Bloom
