import Gross.Bloom.Manager

/-!
# The aggregate and the members

Lookups read the aggregate and nothing else. Updates go into the aggregate and
into a member; chunks of a peer go into a member only, and wait for
`sync_aggregate`; a rotation builds the aggregate anew from the members, and
zeroing empties all.

## What is proved

`coherent_of_run` — in every state that `bloommgr` can reach, whatever messages it
takes: each bit of the aggregate is one of a member; the aggregate is all of the
members, unless chunks have been merged since it was last rebuilt
(`Ctx.upToDate`); the current index is one of a member; and the filters agree in
their sizes and masks. Messages whose chunks lie inside their members do not fail.

## The argument

For filters of up to 2³¹ bits the ring is well formed, and each message keeps it
covered (`Ctx.execute_covered`), and settled if it does not merge a chunk
(`Ctx.execute_settled`). A configured size of 32 bits gives filters without words
(`BloomRingQueue.Hollow`): no update comes through, and there is nothing to keep.
-/

namespace Gross.Bloom

open Foundation Foundation.Window

variable {num nb : ℕ}

namespace Ring

/-! ### Rings whose aggregate is up to date -/

/-- The bits of all members. -/
def all (r : Ring num nb) : Set ℕ := {n | ∃ s < num, n ∈ r.member s}

/-- Every bit of the aggregate is one of a member. -/
def Covered (r : Ring num nb) : Prop := r.agg ⊆ r.all

theorem insertDigest_covered {r : Ring num nb} (h : r.Covered) (d : Digest) : (r.insertDigest d).Covered := by
  obtain ⟨hcur, hagg, hmem⟩ := r.insertDigest_spec d
  intro n hn
  rw [hagg] at hn
  rcases hn with hn | hn
  · obtain ⟨s, hs, hn⟩ := h hn
    refine ⟨s, hs, ?_⟩
    rw [hmem]
    split_ifs
    · exact Or.inl hn
    · exact hn
  · refine ⟨r.cur, r.cur_lt, ?_⟩
    rw [hmem, if_pos rfl]
    exact Or.inr hn

/-- Events keep a ring covered. -/
theorem run_covered {r : Ring num nb} (h : r.Covered) (es : List (Event Digest)) : (r.run es).Covered := by
  induction es generalizing r with
  | nil => exact h
  | cons e es ih =>
    refine ih ?_
    cases e with
    | insert d => exact insertDigest_covered h d
    | rotate => exact r.rotate_spec.2.2.subset
    | clear =>
      intro n hn
      rw [show (r.step .clear).agg = ∅ from r.zero_spec.2.2] at hn
      exact hn.elim

/-- The aggregate is all of the members. -/
def Settled (r : Ring num nb) : Prop := r.agg = r.all

end Ring

/-! ### Reachable rings -/

/-- `bloommgr`, started with a new ring, can come to this state. -/
def Reached (num : ℕ) (numBits : Word) (ctx : Ctx) : Prop :=
  ∃ (ctx₀ : Ctx) (cmds : List Command), buildBloomRing num numBits = .ok ctx₀.filter ∧ ctx₀.run cmds = .ok ctx

/-- After `sync_aggregate` the ring is the one with the new aggregate. -/
theorem Ctx.filter_of_syncAggregate {ctx ctx' : Ctx} {r : Ring num nb} (hr : ctx.filter = r.brq)
    (hexec : ctx.execute .syncAggregate = .ok ctx') : ctx'.filter = r.syncAggregate.brq := by
  obtain ⟨brq, hbrq, hexec⟩ := bind_eq_ok hexec
  cases hexec
  rw [hr, r.syncAggregate_eq] at hbrq
  cases hbrq
  rfl

/-- A command that does not fail keeps the ring well formed and covered. -/
theorem Ctx.execute_covered {ctx ctx' : Ctx} {cmd : Command} (h : ∃ r : Ring num nb, ctx.filter = r.brq ∧ r.Covered)
    (hexec : ctx.execute cmd = .ok ctx') : ∃ r : Ring num nb, ctx'.filter = r.brq ∧ r.Covered := by
  obtain ⟨r, hr, hcov⟩ := h
  have hlocal : cmd.isLocal = true → ∃ r : Ring num nb, ctx'.filter = r.brq ∧ r.Covered := by
    intro hc
    rw [ctx.execute_local r hr hc] at hexec
    cases hexec
    exact ⟨_, rfl, Ring.run_covered hcov _⟩
  cases cmd with
  | update d => exact hlocal rfl
  | updateOper d => exact hlocal rfl
  | rotate clock => exact hlocal rfl
  | absoluteUpdate ss =>
    obtain ⟨brq, hbrq, hexec⟩ := bind_eq_ok hexec
    cases hexec
    rw [hr] at hbrq
    obtain ⟨hwf, -, hagg, hmem⟩ := insertAbsoluteBloomRingQueue_of_ok r.wf hbrq
    refine ⟨⟨brq, hwf⟩, rfl, fun n hn => ?_⟩
    have hn' : n ∈ r.agg := by
      rw [Ring.agg, ← hagg]
      exact hn
    obtain ⟨s, hs, hn⟩ := hcov hn'
    exact ⟨s, hs, hmem s hn⟩
  | syncAggregate =>
    obtain ⟨-, hmem, hagg⟩ := r.syncAggregate_spec
    refine ⟨r.syncAggregate, Ctx.filter_of_syncAggregate hr hexec, fun n hn => ?_⟩
    rw [hagg] at hn
    obtain ⟨s, hs, hn⟩ := hn
    exact ⟨s, hs, by rw [hmem]; exact hn⟩
  | unknown =>
    cases hexec
    exact ⟨r, hr, hcov⟩

/-- Reachable rings are well formed and covered. -/
theorem Reached.covered {numBits : Word} {ctx : Ctx} (h : Reached num numBits ctx) (hnum : 1 ≤ num)
    (lo : 5 ≤ numBits.toNat) (hi : numBits.toNat ≤ 31) :
    ∃ r : Ring num numBits.toNat, ctx.filter = r.brq ∧ r.Covered := by
  obtain ⟨ctx₀, cmds, hbuild, hrun⟩ := h
  refine foldlM_preserves (fun ctx => ∃ r : Ring num numBits.toNat, ctx.filter = r.brq ∧ r.Covered)
    (fun _ _ _ => Ctx.execute_covered) ?_ hrun
  rw [Ring.build_eq hnum lo hi] at hbuild
  refine ⟨Ring.build hnum lo hi, (Except.ok.inj hbuild).symm, ?_⟩
  have htracks := Ring.tracks_build hnum lo hi
  rw [Ring.Covered, htracks.agg, Ring.visible_eq htracks.holds]
  exact subset_rfl

/-! ### Chunks that have not reached the aggregate -/

/-- Whether the aggregate is known to be up to date after a command, when it is known
before, or is not (`b`). -/
def Ctx.upToDateAfter (ctx : Ctx) (b : Bool) : Command → Bool
  | .absoluteUpdate _ => false
  | .syncAggregate => true
  | .rotate clock => if ctx.outcome clock = .notNeeded then b else true
  | .update _ | .updateOper _ | .unknown => b

/-- No chunk has been merged in a run since the last `SYNC_AGGREGATE`, effective
rotation or zeroing, or since the beginning. -/
def Ctx.upToDate (ctx : Ctx) (cmds : List Command) : Bool :=
  (ctx.trace cmds).foldl (fun b p => p.1.upToDateAfter b p.2) true

theorem Ring.insertDigest_settled {r : Ring num nb} (h : r.Settled) (d : Digest) : (r.insertDigest d).Settled := by
  refine Set.Subset.antisymm (insertDigest_covered h.subset d) ?_
  obtain ⟨hcur, hagg, hmem⟩ := r.insertDigest_spec d
  rintro n ⟨s, hs, hn⟩
  rw [hagg, show r.agg = r.all from h]
  rw [hmem] at hn
  split_ifs at hn
  · exact hn.imp_left fun hn => ⟨s, hs, hn⟩
  · exact Or.inl ⟨s, hs, hn⟩

theorem Ring.build_settled {numBits : Word} (hnum : 1 ≤ num) (lo : 5 ≤ numBits.toNat) (hi : numBits.toNat ≤ 31) :
    (Ring.build hnum lo hi).Settled := by
  have htracks := Ring.tracks_build hnum lo hi
  exact htracks.agg.trans (Ring.visible_eq htracks.holds)

theorem Ring.zero_settled (r : Ring num nb) : r.zero.Settled := by
  obtain ⟨-, hmem, hagg⟩ := r.zero_spec
  rw [Settled, hagg, all]
  ext n
  simp [hmem]

theorem Ring.syncAggregate_settled (r : Ring num nb) : r.syncAggregate.Settled := by
  obtain ⟨-, hmem, hagg⟩ := r.syncAggregate_spec
  rw [Settled, hagg, all]
  simp only [hmem]

/-- A command that does not fail leaves the aggregate up to date, as far as
`upToDateAfter` says. -/
theorem Ctx.execute_settled {ctx ctx' : Ctx} {cmd : Command} {r : Ring num nb} (hr : ctx.filter = r.brq) {b : Bool}
    (hb : b = true → r.Settled) (hexec : ctx.execute cmd = .ok ctx') (hafter : ctx.upToDateAfter b cmd = true) :
    ∃ r' : Ring num nb, ctx'.filter = r'.brq ∧ r'.Settled := by
  cases cmd with
  | absoluteUpdate ss => cases hafter
  | update d | updateOper d =>
    rw [ctx.execute_local r hr rfl] at hexec
    cases hexec
    exact ⟨_, rfl, Ring.insertDigest_settled (hb hafter) d⟩
  | rotate clock =>
    rw [ctx.execute_local r hr rfl] at hexec
    cases hexec
    refine ⟨_, rfl, ?_⟩
    simp only [upToDateAfter] at hafter
    simp only [events]
    cases hout : ctx.outcome clock with
    | notNeeded =>
      rw [hout] at hafter
      exact hb hafter
    | zeroed => exact r.zero_settled
    | rotated => exact r.rotate_spec.2.2
  | syncAggregate => exact ⟨r.syncAggregate, Ctx.filter_of_syncAggregate hr hexec, r.syncAggregate_settled⟩
  | unknown =>
    cases hexec
    exact ⟨r, hr, hb hafter⟩

/-- A run, from a state of which `b` says whether the aggregate is up to date. -/
theorem Ctx.run_settled {ctx ctx' : Ctx} (cmds : List Command) {r : Ring num nb} (hr : ctx.filter = r.brq)
    (hcov : r.Covered) {b : Bool} (hb : b = true → r.Settled) (hrun : ctx.run cmds = .ok ctx') :
    ∃ r' : Ring num nb, ctx'.filter = r'.brq ∧ r'.Covered ∧
      ((ctx.trace cmds).foldl (fun b p => p.1.upToDateAfter b p.2) b = true → r'.Settled) := by
  induction cmds generalizing ctx r b with
  | nil =>
    cases hrun
    exact ⟨r, hr, hcov, hb⟩
  | cons cmd cmds ih =>
    obtain ⟨ctx₁, hexec, hrun⟩ := bind_eq_ok hrun
    obtain ⟨r₁, hr₁, hcov₁⟩ := execute_covered ⟨r, hr, hcov⟩ hexec
    have hb₁ : ctx.upToDateAfter b cmd = true → r₁.Settled := by
      intro hafter
      obtain ⟨r₂, hr₂, hset⟩ := execute_settled hr hb hexec hafter
      obtain ⟨brq, hwf⟩ := r₁
      obtain ⟨brq', hwf'⟩ := r₂
      obtain rfl : brq = brq' := hr₁.symm.trans hr₂
      exact hset
    simp only [trace, hexec, List.foldl_cons]
    exact ih hr₁ hcov₁ hb₁ hrun

/-! ### Filters without words -/

/-- The filter that 32 configured bits give: `1 << 32` leaves no word. -/
def hollowFilter : BloomFilter := ⟨[], 0, -1, 0⟩

/-- A ring of such filters. -/
structure BloomRingQueue.Hollow (num : ℕ) (r : BloomRingQueue) : Prop where
  /-- How many members it says it has. -/
  groupSize : r.group.groupSize = num
  /-- How many members it has. -/
  length : r.group.filterGroup.length = num
  /-- The members. -/
  members : ∀ f ∈ r.group.filterGroup, f = hollowFilter
  /-- The aggregate. -/
  aggregate : r.aggregate = hollowFilter
  /-- The current index is one of the members. -/
  current : r.currentIndex < num

theorem hollow_build {brq : BloomRingQueue} (hnum : 1 ≤ num) (hbuild : buildBloomRing num 32 = .ok brq) :
    brq.Hollow num := by
  have hf : zeroBloomFilter ⟨[], (1 : Word) <<< 32, (-1 : Word) >>> (bitarrayBaseSize - 32).toNat,
      (1 : Word) <<< 32 / bitarrayBaseSize⟩ = .ok hollowFilter := by decide
  have heq : buildBloomRing num 32 = .ok ⟨⟨List.replicate num hollowFilter, num⟩, hollowFilter, 0⟩ := by
    simp only [buildBloomRing, check_pos (show (3 : Word) < 32 by decide), ok_bind]
    rw [show (32 : Word).toNat = 32 from rfl, show ((1 : Word) <<< 32 / bitarrayBaseSize).toNat = 0 from rfl,
      List.replicate_zero, hf, ok_bind, mapM_const_ok, List.length_range]
    rfl
  rw [heq] at hbuild
  cases hbuild
  exact ⟨rfl, List.length_replicate, fun f hf => List.eq_of_mem_replicate hf, rfl, hnum⟩

/-- Members are zeroed one after the other, and stay what they are. -/
theorem BloomRingQueue.Hollow.zero {r r' : BloomRingQueue} (h : r.Hollow num) (hzero : zeroBloomRingQueue r = .ok r') :
    r'.Hollow num := by
  have hz : zeroBloomFilter hollowFilter = .ok hollowFilter := by decide
  obtain ⟨a, ha, hzero⟩ := bind_eq_ok hzero
  obtain ⟨fs, hfs, hzero⟩ := bind_eq_ok hzero
  cases hzero
  rw [h.aggregate, hz] at ha
  cases ha
  obtain ⟨hlen, hall⟩ := foldlM_preserves
    (fun fs : List BloomFilter => fs.length = num ∧ ∀ f ∈ fs, f = hollowFilter)
    (fun fs i fs' ⟨hlen, hall⟩ hstep => by
      obtain ⟨f, hload, hstep⟩ := bind_eq_ok hstep
      obtain ⟨f', hf', hstep⟩ := bind_eq_ok hstep
      obtain rfl := hall f (List.mem_of_getElem? (of_load_eq_ok hload))
      obtain rfl : hollowFilter = f' := Except.ok.inj (hz.symm.trans hf')
      obtain rfl := of_store_eq_ok hstep
      refine ⟨by simpa using hlen, fun g hg => ?_⟩
      rcases List.mem_or_eq_of_mem_set hg with hg | rfl
      · exact hall g hg
      · rfl) ⟨h.length, h.members⟩ hfs
  exact ⟨h.groupSize, hlen, hall, rfl, (Nat.zero_le _).trans_lt h.current⟩

/-- An update of a member leaves it without words. -/
theorem BloomRingQueue.Hollow.insertAbsolute {r r' : BloomRingQueue} {buffer : List Word} {size index bufIndex : Word}
    (h : r.Hollow num) (hins : insertAbsoluteBloomRingQueue r buffer size index bufIndex = .ok r') : r'.Hollow num := by
  have hnone : (if hollowFilter.size < size then hollowFilter.size else size) = 0 := by
    split
    · rfl
    · exact BitVec.le_zero_iff.mp (BitVec.not_lt.mp ‹_›)
  obtain ⟨-, -, hins⟩ := bind_eq_ok hins
  obtain ⟨f, hload, hins⟩ := bind_eq_ok hins
  obtain rfl := h.members f (List.mem_of_getElem? (of_load_eq_ok hload))
  obtain ⟨a, ha, hins⟩ := bind_eq_ok hins
  obtain ⟨fs, hstore, hins⟩ := bind_eq_ok hins
  cases hins
  rw [hnone] at ha
  obtain rfl : a = [] := (Except.ok.inj ha).symm
  obtain rfl := of_store_eq_ok hstore
  refine ⟨h.groupSize, by simp [h.length], fun g hg => ?_, h.aggregate, h.current⟩
  rcases List.mem_or_eq_of_mem_set hg with hg | rfl
  · exact h.members g hg
  · rfl

/-- The aggregate is put together from members without words. -/
theorem BloomRingQueue.Hollow.syncAggregate {r r' : BloomRingQueue} (h : r.Hollow num)
    (hsync : Bloom.syncAggregate r = .ok r') : r'.Hollow num := by
  obtain ⟨z, hz, hsync⟩ := bind_eq_ok hsync
  obtain ⟨a, ha, hsync⟩ := bind_eq_ok hsync
  cases hsync
  rw [h.aggregate] at hz
  cases hz
  refine ⟨h.groupSize, h.length, h.members, ?_, h.current⟩
  refine foldlM_preserves (fun f => f = hollowFilter) (fun f i f' hf hstep => ?_) rfl ha
  obtain ⟨g, hload, hstep⟩ := bind_eq_ok hstep
  rw [hf, h.members g (List.mem_of_getElem? (of_load_eq_ok hload))] at hstep
  cases hstep
  rfl

/-- There is no bit to insert. -/
theorem insertDigest_hollowFilter (d : Digest) : insertDigest hollowFilter d = .error .outOfBounds := by
  have hbit : insertBit hollowFilter.filter (intToIndex d.h0 hollowFilter.mask) = .error .outOfBounds := by
    simp only [insertBit, check_pos (intraIndex_le _), ok_bind]
    rfl
  simp only [insertDigest, Digest.words, List.foldlM_cons, hbit, error_bind]

/-- No command changes such a ring but for its current index; updates and rotations
fail. -/
theorem Ctx.execute_hollow {ctx ctx' : Ctx} {cmd : Command} (h : ctx.filter.Hollow num)
    (hexec : ctx.execute cmd = .ok ctx') : ctx'.filter.Hollow num := by
  have hinsert : ∀ d, insertDigestBloomRingQueue ctx.filter d = .error .outOfBounds := by
    intro d
    rw [insertDigestBloomRingQueue, h.aggregate, insertDigest_hollowFilter, error_bind]
  cases cmd with
  | update d | updateOper d =>
    simp only [execute, hinsert, error_bind] at hexec
    cases hexec
  | absoluteUpdate ss =>
    obtain ⟨brq, hbrq, hexec⟩ := bind_eq_ok hexec
    cases hexec
    exact h.insertAbsolute hbrq
  | rotate clock =>
    simp only [execute, rotate] at hexec
    cases hout : ctx.outcome clock with
    | notNeeded =>
      rw [hout] at hexec
      cases hexec
      exact h
    | zeroed =>
      rw [hout] at hexec
      obtain ⟨brq, hbrq, hexec⟩ := bind_eq_ok hexec
      cases hexec
      exact h.zero hbrq
    | rotated =>
      -- `copy_bloom_filter` asks `Malloc` for nothing
      rw [hout] at hexec
      simp only [rotateBloomRingQueue, h.aggregate] at hexec
      cases hexec
  | syncAggregate =>
    obtain ⟨brq, hbrq, hexec⟩ := bind_eq_ok hexec
    cases hexec
    exact h.syncAggregate hbrq
  | unknown =>
    cases hexec
    exact h

/-! ### Every run -/

/-- What holds of the ring in every state. -/
structure BloomRingQueue.Coherent (num : ℕ) (r : BloomRingQueue) : Prop where
  /-- The ring has the configured number of members. -/
  groupSize : r.group.groupSize = num
  /-- All of them are there. -/
  length : r.group.filterGroup.length = num
  /-- The current index is one of a member. -/
  current : r.currentIndex < r.group.groupSize
  /-- Each bit of the aggregate is one of a member. -/
  covered : bits r.aggregate.filter ⊆ {n | ∃ s < num, n ∈ memberBits r.group.filterGroup s}
  /-- The filters have one size in bits, one mask and one size in words. -/
  uniform : ∀ f ∈ r.group.filterGroup,
    f.bitsize = r.aggregate.bitsize ∧ f.mask = r.aggregate.mask ∧ f.size = r.aggregate.size

theorem Ring.Covered.coherent {r : Ring num nb} (h : r.Covered) : r.brq.Coherent num := by
  refine ⟨r.wf.groupSize, r.wf.length, r.wf.groupSize.symm ▸ r.wf.current, h, fun f hf => ?_⟩
  have hwf := r.wf.members f hf
  exact ⟨BitVec.eq_of_toNat_eq (hwf.bitsize.trans r.wf.aggregate.bitsize.symm),
    hwf.mask.trans r.wf.aggregate.mask.symm, BitVec.eq_of_toNat_eq (hwf.size.trans r.wf.aggregate.size.symm)⟩

theorem BloomRingQueue.Hollow.bits_eq {r : BloomRingQueue} (h : r.Hollow num) :
    bits r.aggregate.filter = {n | ∃ s < num, n ∈ memberBits r.group.filterGroup s} := by
  have hempty : bits hollowFilter.filter = ∅ := bits_replicate_zero 0
  rw [h.aggregate, hempty]
  ext n
  simp only [Set.mem_empty_iff_false, false_iff]
  rintro ⟨s, -, f, hf, hn⟩
  rw [h.members f (List.mem_of_getElem? hf), hempty] at hn
  exact hn

theorem BloomRingQueue.Hollow.coherent {r : BloomRingQueue} (h : r.Hollow num) : r.Coherent num := by
  refine ⟨h.groupSize, h.length, h.groupSize.symm ▸ h.current, h.bits_eq.subset, fun f hf => ?_⟩
  rw [h.members f hf, h.aggregate]
  exact ⟨rfl, rfl, rfl⟩

/-- Messages whose chunks lie inside their members do not fail. -/
theorem Ctx.run_ok (ctx : Ctx) (r : Ring num nb) (hr : ctx.filter = r.brq) (cmds : List Command)
    (hfits : ∀ ss, .absoluteUpdate ss ∈ cmds → ss.Fits num nb) : ∃ ctx', ctx.run cmds = .ok ctx' := by
  have hstep : ∀ ctx : Ctx, ∀ cmd ∈ cmds, (∃ r : Ring num nb, ctx.filter = r.brq) →
      ∃ ctx', ctx.execute cmd = .ok ctx' ∧ ∃ r : Ring num nb, ctx'.filter = r.brq := by
    rintro ctx cmd hmem ⟨r, hr⟩
    cases cmd with
    | update d | updateOper d | rotate clock => exact ⟨_, ctx.execute_local r hr rfl, _, rfl⟩
    | absoluteUpdate ss =>
      refine ⟨{ ctx with filter := (r.insertAbsolute ss (hfits ss hmem)).brq }, ?_, _, rfl⟩
      simp only [execute, hr, r.insertAbsolute_eq ss (hfits ss hmem)]
      rfl
    | syncAggregate =>
      refine ⟨{ ctx with filter := r.syncAggregate.brq, syncGuard := ctx.syncGuard + 1 }, ?_, _, rfl⟩
      simp only [execute, hr, r.syncAggregate_eq]
      rfl
    | unknown => exact ⟨ctx, rfl, r, hr⟩
  obtain ⟨ctx', hrun, -⟩ := foldlM_inv execute (fun ctx => ∃ r : Ring num nb, ctx.filter = r.brq) cmds hstep ⟨r, hr⟩
  exact ⟨ctx', hrun⟩

/-- **The aggregate in every run**: whatever messages `bloommgr` takes, the ring is
coherent in every state that it reaches, and the aggregate is all of the members
if no chunk was merged since it was last made from them. Chunks that lie inside
their members do not stop `bloommgr`, as long as the filters have words. -/
theorem coherent_of_run (num : ℕ) (numBits : Word) (hnum : 1 ≤ num) (lo : 5 ≤ numBits.toNat) (hi : numBits.toNat ≤ 32)
    (ctx₀ : Ctx) (hbuild : buildBloomRing num numBits = .ok ctx₀.filter) (cmds : List Command) :
    (∀ ctx, ctx₀.run cmds = .ok ctx → ctx.filter.Coherent num ∧
      (ctx₀.upToDate cmds = true → bits ctx.filter.aggregate.filter =
        {n | ∃ s < num, n ∈ memberBits ctx.filter.group.filterGroup s})) ∧
    (numBits.toNat ≤ 31 → (∀ ss, .absoluteUpdate ss ∈ cmds → ss.Fits num numBits.toNat) →
      ∃ ctx, ctx₀.run cmds = .ok ctx) := by
  by_cases h31 : numBits.toNat ≤ 31
  · rw [Ring.build_eq hnum lo h31] at hbuild
    have hr := (Except.ok.inj hbuild).symm
    have hsettled := Ring.build_settled hnum lo h31
    refine ⟨fun ctx hrun => ?_, fun _ hfits => ctx₀.run_ok _ hr cmds hfits⟩
    obtain ⟨r, hr', hcov, hset⟩ := Ctx.run_settled cmds hr hsettled.subset (b := true) (fun _ => hsettled) hrun
    rw [hr']
    exact ⟨hcov.coherent, hset⟩
  · obtain rfl : numBits = 32 := BitVec.eq_of_toNat_eq (show numBits.toNat = 32 by omega)
    refine ⟨fun ctx hrun => ?_, fun h => absurd h h31⟩
    have hhollow := foldlM_preserves (fun ctx : Ctx => ctx.filter.Hollow num) (fun _ _ _ => Ctx.execute_hollow)
      (hollow_build hnum hbuild) hrun
    exact ⟨hhollow.coherent, fun _ => hhollow.bits_eq⟩

/-- A digest, a chunk and the rebuilding of the aggregate, in a ring of two one-word
filters. -/
theorem coherent_of_run_chunk : ∃ ctx, (Ctx.mk 10 2 (oneWordRing [0, 0] 0 0) 100 1).run
    [.update ⟨1, 2, 3, 4, 5, 6, 7, 8⟩, .absoluteUpdate ⟨1, 0, Vector.replicate 32 7⟩, .syncAggregate] = .ok ctx ∧
      ctx.filter.Coherent 2 ∧ bits ctx.filter.aggregate.filter =
        {n | ∃ s < 2, n ∈ memberBits ctx.filter.group.filterGroup s} := by
  obtain ⟨hall, hok⟩ := coherent_of_run 2 5 (by decide) (by decide) (by decide) ⟨10, 2, oneWordRing [0, 0] 0 0, 100, 1⟩
    (by decide)
    [.update ⟨1, 2, 3, 4, 5, 6, 7, 8⟩, .absoluteUpdate ⟨1, 0, Vector.replicate 32 7⟩, .syncAggregate]
  obtain ⟨ctx, hrun⟩ := hok (by decide) fun ss hss => by
    obtain rfl : ss = ⟨1, 0, Vector.replicate 32 7⟩ := by simpa using hss
    exact ⟨by decide, by decide⟩
  obtain ⟨hcoherent, hsettled⟩ := hall ctx hrun
  exact ⟨ctx, hrun, hcoherent, hsettled (by decide)⟩

end Gross.Bloom
