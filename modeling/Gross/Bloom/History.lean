import Gross.Bloom.Ring

/-!
# A ring and its history

A run of a ring is a list of events: a digest inserted, a rotation, a zeroing.
This module proves what `is_in_ring_queue` says after any run of a ring
`build_bloom_ring` made (`isInRingQueue_run`): the digest is reported just when
each of its eight bit indices is one of the eight of a digest that has been
inserted since the last zeroing and less than `num` rotations ago. So nothing
inserted in the last `num - 1` rotations is missed, and nothing older is seen.

## The argument

`Ring num nb` carries a ring and that it is well formed, so the operations on it
are total. `Ring.Tracks` relates a ring to its history: the members hold the
generations of the history, in the slots where a sliding window keeps them, and
the aggregate holds what the window shows. Each operation keeps it
(`Ring.Tracks.step`), and so does every run (`Ring.Tracks.run`).
-/

namespace Gross.Bloom

open Foundation Foundation.Window

/-- What a ring does on an event of its history. -/
def ringStep (brq : BloomRingQueue) : Event Digest → Except Fault BloomRingQueue
  | .insert d => insertDigestBloomRingQueue brq d
  | .rotate => rotateBloomRingQueue brq
  | .clear => zeroBloomRingQueue brq

/-- A run of a ring. -/
def ringRun (brq : BloomRingQueue) (es : List (Event Digest)) : Except Fault BloomRingQueue :=
  es.foldlM ringStep brq

/-- A well-formed ring of `num` filters of `2 ^ nb` bits. -/
structure Ring (num nb : ℕ) where
  /-- The ring. -/
  brq : BloomRingQueue
  /-- It is well formed. -/
  wf : brq.WF num nb

namespace Ring

variable {num nb : ℕ}

/-- The bits of member `s`. -/
def member (r : Ring num nb) (s : ℕ) : Set ℕ := memberBits r.brq.group.filterGroup s

/-- The bits of the aggregate. -/
def agg (r : Ring num nb) : Set ℕ := bits r.brq.aggregate.filter

/-- The current index. -/
def cur (r : Ring num nb) : ℕ := r.brq.currentIndex

/-- The ring reports a digest: the aggregate holds its bits. -/
def Reports (r : Ring num nb) (d : Digest) : Prop := indexSet (bitMask nb) d ⊆ r.agg

theorem cur_lt (r : Ring num nb) : r.cur < num := r.wf.current

theorem isInRingQueue_eq_true (r : Ring num nb) (d : Digest) :
    isInRingQueue r.brq d = .ok true ↔ r.Reports d := by
  obtain ⟨b, hb, hiff⟩ := isInRingQueue_ok r.wf d
  rw [hb, Reports, agg, ← hiff, Except.ok.injEq]

/-- `insert_digest_bloom_ring_queue`. -/
def insertDigest (r : Ring num nb) (d : Digest) : Ring num nb :=
  ⟨_, (value_of_spec (insertDigestBloomRingQueue_ok r.wf d)).1⟩

/-- `rotate_bloom_ring_queue`. -/
def rotate (r : Ring num nb) : Ring num nb := ⟨_, (value_of_spec (rotateBloomRingQueue_ok r.wf)).1⟩

/-- `zero_bloom_ring_queue`. -/
def zero (r : Ring num nb) : Ring num nb := ⟨_, (value_of_spec (zeroBloomRingQueue_ok r.wf)).1⟩

theorem insertDigest_eq (r : Ring num nb) (d : Digest) :
    insertDigestBloomRingQueue r.brq d = .ok (r.insertDigest d).brq := eq_ok_value _

theorem rotate_eq (r : Ring num nb) : rotateBloomRingQueue r.brq = .ok r.rotate.brq := eq_ok_value _

theorem zero_eq (r : Ring num nb) : zeroBloomRingQueue r.brq = .ok r.zero.brq := eq_ok_value _

theorem insertDigest_spec (r : Ring num nb) (d : Digest) :
    (r.insertDigest d).cur = r.cur ∧ (r.insertDigest d).agg = r.agg ∪ indexSet (bitMask nb) d ∧
      ∀ s, (r.insertDigest d).member s =
        if s = r.cur then r.member s ∪ indexSet (bitMask nb) d else r.member s :=
  (value_of_spec (insertDigestBloomRingQueue_ok r.wf d)).2

theorem rotate_spec (r : Ring num nb) :
    r.rotate.cur = next num r.cur ∧
      (∀ s, r.rotate.member s = if s = next num r.cur then ∅ else r.member s) ∧
      r.rotate.agg = {n | ∃ s < num, n ∈ r.rotate.member s} :=
  (value_of_spec (rotateBloomRingQueue_ok r.wf)).2

theorem zero_spec (r : Ring num nb) :
    r.zero.cur = 0 ∧ (∀ s, r.zero.member s = ∅) ∧ r.zero.agg = ∅ :=
  (value_of_spec (zeroBloomRingQueue_ok r.wf)).2

/-- What a well-formed ring does on an event. -/
def step (r : Ring num nb) : Event Digest → Ring num nb
  | .insert d => r.insertDigest d
  | .rotate => r.rotate
  | .clear => r.zero

theorem step_eq (r : Ring num nb) (e : Event Digest) : ringStep r.brq e = .ok (r.step e).brq := by
  cases e with
  | insert d => exact r.insertDigest_eq d
  | rotate => exact r.rotate_eq
  | clear => exact r.zero_eq

/-- A run of a well-formed ring. -/
def run (r : Ring num nb) (es : List (Event Digest)) : Ring num nb := es.foldl step r

theorem run_eq (r : Ring num nb) (es : List (Event Digest)) : ringRun r.brq es = .ok (r.run es).brq := by
  induction es generalizing r with
  | nil => rfl
  | cons e es ih =>
    rw [ringRun, List.foldlM_cons, r.step_eq e, ok_bind]
    exact ih (r.step e)

/-! ### Rings that hold the window of a history -/

/-- The ring holds the window of the history `es`. -/
structure Tracks (r : Ring num nb) (es : List (Event Digest)) : Prop where
  /-- The members hold the generations. -/
  holds : Holds (indexSet (bitMask nb)) num r.member r.cur es
  /-- The aggregate holds what the window shows. -/
  agg : r.agg = visible (indexSet (bitMask nb)) num es

variable {r : Ring num nb} {es : List (Event Digest)}

/-- What the members hold is what the window shows. -/
theorem visible_eq (h : Holds (indexSet (bitMask nb)) num r.member r.cur es) :
    visible (indexSet (bitMask nb)) num es = {n | ∃ s < num, n ∈ r.member s} := by
  ext n
  exact h.mem_visible n

theorem Tracks.insertDigest (h : r.Tracks es) (d : Digest) : (r.insertDigest d).Tracks (es ++ [.insert d]) := by
  obtain ⟨hcur, hagg, hmem⟩ := r.insertDigest_spec d
  have hholds : Holds (indexSet (bitMask nb)) num (r.insertDigest d).member (r.insertDigest d).cur
      (es ++ [.insert d]) := by
    rw [hcur]
    refine h.holds.insert d ?_ fun s _ hs => ?_
    · rw [hmem, if_pos rfl]
    · rw [hmem, if_neg hs]
  refine ⟨hholds, ?_⟩
  rw [visible_eq hholds, hagg, h.agg, visible_eq h.holds]
  -- the aggregate gets the digest's bits just as the current member does
  ext n
  simp only [hmem, Set.mem_union, Set.mem_ofPred_eq]
  constructor
  · rintro (⟨s, hs, hn⟩ | hn)
    · refine ⟨s, hs, ?_⟩
      split_ifs
      · exact Or.inl hn
      · exact hn
    · exact ⟨r.cur, r.cur_lt, by rw [if_pos rfl]; exact Or.inr hn⟩
  · rintro ⟨s, hs, hn⟩
    split_ifs at hn
    · exact hn.imp_left fun hn => ⟨s, hs, hn⟩
    · exact Or.inl ⟨s, hs, hn⟩

theorem Tracks.rotate (h : r.Tracks es) : r.rotate.Tracks (es ++ [.rotate]) := by
  obtain ⟨hcur, hmem, hagg⟩ := r.rotate_spec
  have hholds : Holds (indexSet (bitMask nb)) num r.rotate.member r.rotate.cur (es ++ [.rotate]) := by
    rw [hcur]
    refine h.holds.rotate ?_ fun s _ hs => ?_
    · rw [hmem, if_pos rfl]
    · rw [hmem, if_neg hs]
  exact ⟨hholds, by rw [visible_eq hholds, hagg]⟩

theorem Tracks.zero (h : r.Tracks es) : r.zero.Tracks (es ++ [.clear]) := by
  obtain ⟨hcur, hmem, hagg⟩ := r.zero_spec
  have hholds : Holds (indexSet (bitMask nb)) num r.zero.member r.zero.cur (es ++ [.clear]) := by
    rw [hcur]
    exact h.holds.clear fun s _ => hmem s
  refine ⟨hholds, ?_⟩
  rw [visible_eq hholds, hagg]
  ext n
  simp [hmem]

/-- One event keeps a ring in step with its history. -/
theorem Tracks.step (h : r.Tracks es) (e : Event Digest) : (r.step e).Tracks (es ++ [e]) := by
  cases e with
  | insert d => exact h.insertDigest d
  | rotate => exact h.rotate
  | clear => exact h.zero

/-- A run keeps a ring in step with its history. -/
theorem Tracks.run (h : r.Tracks es) (es' : List (Event Digest)) : (r.run es').Tracks (es ++ es') := by
  induction es' generalizing r es with
  | nil => rwa [List.append_nil]
  | cons e es' ih =>
    have := ih (h.step e)
    rwa [List.append_assoc] at this

/-- A ring in step with its history reports a digest when each of its bits is one
of a digest of age below `num`. -/
theorem Tracks.reports_iff (h : r.Tracks es) (d : Digest) :
    r.Reports d ↔ ∀ n ∈ maskedIndices (bitMask nb) d,
      ∃ d' g, g < num ∧ Aged es g d' ∧ n ∈ maskedIndices (bitMask nb) d' := by
  rw [Reports, h.agg]
  constructor
  · intro hd n hn
    obtain ⟨g, hg, d', ha, hn'⟩ := hd hn
    exact ⟨d', g, hg, ha, hn'⟩
  · intro hd n hn
    obtain ⟨d', g, hg, ha, hn'⟩ := hd n hn
    exact ⟨g, hg, d', ha, hn'⟩

end Ring

/-! ### New rings -/

/-- `build_bloom_ring` makes a well-formed ring with nothing in it. -/
theorem buildBloomRing_ok {num : ℕ} {numBits : Word} (hnum : 1 ≤ num) (lo : 5 ≤ numBits.toNat)
    (hi : numBits.toNat ≤ 31) :
    ∃ r, buildBloomRing num numBits = .ok r ∧ r.WF num numBits.toNat ∧ r.currentIndex = 0 ∧
      (∀ s, memberBits r.group.filterGroup s = ∅) ∧ bits r.aggregate.filter = ∅ := by
  obtain ⟨f, hf, hw, hb⟩ := zeroBloomFilter_ok (wf_new lo hi)
  have h3 : 3 < numBits := by
    rw [BitVec.lt_def]
    exact Nat.lt_of_lt_of_le (by decide) lo
  refine ⟨⟨⟨List.replicate num f, num⟩, f, 0⟩, ?_, ⟨rfl, List.length_replicate, ?_, hw, hnum⟩, rfl, ?_, hb⟩
  · simp only [buildBloomRing, check_pos h3, ok_bind, hf, mapM_const_ok, List.length_range]
    rfl
  · intro g hg
    rw [List.eq_of_mem_replicate hg]
    exact hw
  · intro s
    ext n
    simp only [memberBits, Set.mem_ofPred_eq, Set.mem_empty_iff_false, iff_false]
    rintro ⟨g, hg, hn⟩
    rw [List.eq_of_mem_replicate (List.mem_of_getElem? hg), hb] at hn
    exact hn

/-- The ring `build_bloom_ring` makes, as a well-formed ring. -/
def Ring.build {num : ℕ} {numBits : Word} (hnum : 1 ≤ num) (lo : 5 ≤ numBits.toNat)
    (hi : numBits.toNat ≤ 31) : Ring num numBits.toNat :=
  ⟨_, (value_of_spec (buildBloomRing_ok hnum lo hi)).1⟩

theorem Ring.build_eq {num : ℕ} {numBits : Word} (hnum : 1 ≤ num) (lo : 5 ≤ numBits.toNat)
    (hi : numBits.toNat ≤ 31) : buildBloomRing num numBits = .ok (Ring.build hnum lo hi).brq := eq_ok_value _

/-- A new ring has an empty history. -/
theorem Ring.tracks_build {num : ℕ} {numBits : Word} (hnum : 1 ≤ num) (lo : 5 ≤ numBits.toNat)
    (hi : numBits.toNat ≤ 31) : (Ring.build hnum lo hi).Tracks [] := by
  obtain ⟨hcur, hmem, hagg⟩ := (value_of_spec (buildBloomRing_ok hnum lo hi)).2
  have hholds : Holds (indexSet (bitMask numBits.toNat)) num (Ring.build hnum lo hi).member
      (Ring.build hnum lo hi).cur [] := by
    rw [show (Ring.build hnum lo hi).cur = 0 from hcur]
    exact holds_nil hnum fun s _ => hmem s
  refine ⟨hholds, ?_⟩
  rw [visible_eq hholds, show (Ring.build hnum lo hi).agg = ∅ from hagg]
  ext n
  simp [show ∀ s, (Ring.build hnum lo hi).member s = ∅ from hmem]

/-- **What a ring reports**: after any run of a ring of `num` filters, a digest is
reported just when each of its masked bit indices is a masked bit index of a
digest inserted since the last zeroing, with less than `num` rotations since. -/
theorem isInRingQueue_run (num : ℕ) (numBits : Word) (hnum : 1 ≤ num) (lo : 5 ≤ numBits.toNat)
    (hi : numBits.toNat ≤ 31) (es : List (Event Digest)) (d : Digest) :
    ∃ r₀ r b, buildBloomRing num numBits = .ok r₀ ∧ ringRun r₀ es = .ok r ∧ isInRingQueue r d = .ok b ∧
      (b = true ↔ ∀ n ∈ maskedIndices r.aggregate.mask d, ∃ d' pre post,
        es = pre ++ .insert d' :: post ∧ .clear ∉ post ∧ rotations post < num ∧
          n ∈ maskedIndices r.aggregate.mask d') := by
  let r := (Ring.build hnum lo hi).run es
  have htracks : r.Tracks es := (Ring.tracks_build hnum lo hi).run es
  obtain ⟨b, hb, hiff⟩ := isInRingQueue_ok r.wf d
  refine ⟨_, r.brq, b, Ring.build_eq hnum lo hi, Ring.run_eq _ es, hb, ?_⟩
  rw [hiff, r.wf.aggregate.mask]
  refine (htracks.reports_iff d).trans (forall₂_congr fun n _ => ?_)
  constructor
  · rintro ⟨d', g, hg, ⟨pre, post, he, hc, rfl⟩, hn⟩
    exact ⟨d', pre, post, he, hc, hg, hn⟩
  · rintro ⟨d', pre, post, he, hc, hg, hn⟩
    exact ⟨d', _, hg, ⟨pre, post, he, hc, rfl⟩, hn⟩

/-- A ring of two one-word filters, a rotation after the insertion. -/
theorem isInRingQueue_run_rotated : ∃ r₀ r b, buildBloomRing 2 5 = .ok r₀ ∧
    ringRun r₀ [.insert ⟨1, 2, 3, 4, 5, 6, 7, 40⟩, .rotate] = .ok r ∧
      isInRingQueue r ⟨1, 2, 3, 4, 5, 6, 7, 8⟩ = .ok b ∧
      (b = true ↔ ∀ n ∈ maskedIndices r.aggregate.mask ⟨1, 2, 3, 4, 5, 6, 7, 8⟩, ∃ d' pre post,
        [.insert ⟨1, 2, 3, 4, 5, 6, 7, 40⟩, .rotate] = pre ++ .insert d' :: post ∧ .clear ∉ post ∧
          rotations post < 2 ∧ n ∈ maskedIndices r.aggregate.mask d') :=
  isInRingQueue_run 2 5 (by decide) (by decide) (by decide) [.insert ⟨1, 2, 3, 4, 5, 6, 7, 40⟩, .rotate]
    ⟨1, 2, 3, 4, 5, 6, 7, 8⟩

end Gross.Bloom
