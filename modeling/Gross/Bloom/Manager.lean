import Gross.Bloom.Absolute
import Mathlib.Tactic.Linarith
import Mathlib.Tactic.Ring

/-!
# The bloom manager

`bloommgr` takes the messages of the update queue one by one and does what each
says to the ring: insert a digest, merge a peer's chunk, rebuild the aggregate,
or rotate. `rotate()` looks at the clock first: within `rotate_interval` of the
last rotation there is nothing to do, after more than `num_bufs` intervals the
whole ring is zeroed, and in between the ring is rotated once and `last_rotate`
moves on by one interval.

## What is proved

`retention` — the two sides of the retention window, over any run of updates and
rotations, from any well-formed ring. A digest inserted when `last_rotate` is
`L` is reported as long as no clock value read is past `L + N * I`; and a
`rotate()` at or past `L + (N + 1) * I` that finds nothing to do comes after the
digest's member has been cleared.

## The argument

While the member of the digest has not been cleared (`Ctx.Kept`), the `k`
rotations since have moved `last_rotate` to `L + k * I` and the current index
`k` members on, with `k < N`. A step that clears the member has read a clock
value past `L + N * I` (`Ctx.Kept.step`). The clock need not be monotone.

## Honest scope

The clock and the interval are integers: the arithmetic of `time_t` does not
wrap around. The log messages are left out, and so is the clock value that
`rotate()` reads only to log it, but for that it was read.
-/

namespace Gross.Bloom

open Foundation Foundation.Window

/-- The clock values a `rotate()` can read, in turn. -/
structure Clock where
  /-- To see whether a rotation is needed. -/
  needed : ℤ
  /-- For the log. -/
  logged : ℤ
  /-- To see whether the whole ring is too old. -/
  tooOld : ℤ
  /-- As the new `last_rotate`, after zeroing. -/
  zeroed : ℤ
  deriving DecidableEq, Repr

/-- What a message of the update queue tells `bloommgr` to do. A rotation comes
with the clock values it will read. -/
inductive Command where
  /-- `UPDATE` -/
  | update (digest : Digest)
  /-- `UPDATE_OPER` -/
  | updateOper (digest : Digest)
  /-- `ABSOLUTE_UPDATE` -/
  | absoluteUpdate (ss : StartupSync)
  /-- `ROTATE` -/
  | rotate (clock : Clock)
  /-- `SYNC_AGGREGATE` -/
  | syncAggregate
  /-- Any other message type. -/
  | unknown
  deriving DecidableEq, Repr

/-- What `bloommgr` uses of `ctx`. -/
structure Ctx where
  /-- `config.rotate_interval` -/
  rotateInterval : ℤ
  /-- `config.num_bufs` -/
  numBufs : ℕ
  /-- `filter`: the ring. -/
  filter : BloomRingQueue
  /-- `*last_rotate` -/
  lastRotate : ℤ
  /-- `locks.sync_guard`: the value of the semaphore. -/
  syncGuard : ℕ
  deriving DecidableEq, Repr

/-- The three ways through `rotate()`. -/
inductive Outcome where
  | notNeeded
  | zeroed
  | rotated
  deriving DecidableEq, Repr

namespace Ctx

/-- Which way `rotate()` takes. -/
def outcome (ctx : Ctx) (clock : Clock) : Outcome :=
  if clock.needed - ctx.lastRotate ≤ ctx.rotateInterval then .notNeeded
  else if clock.tooOld - ctx.lastRotate > ctx.rotateInterval * ctx.numBufs then .zeroed
  else .rotated

/-- `rotate`. -/
def rotate (ctx : Ctx) (clock : Clock) : Except Fault Ctx :=
  match ctx.outcome clock with
  | .notNeeded => .ok ctx
  | .zeroed => do
    let filter ← zeroBloomRingQueue ctx.filter
    return { ctx with filter := filter, lastRotate := clock.zeroed }
  | .rotated => do
    let filter ← rotateBloomRingQueue ctx.filter
    return { ctx with filter := filter, lastRotate := ctx.lastRotate + ctx.rotateInterval }

/-- A turn of the loop of `bloommgr`, once it has a message. -/
def execute (ctx : Ctx) : Command → Except Fault Ctx
  | .update digest => do return { ctx with filter := ← insertDigestBloomRingQueue ctx.filter digest }
  | .updateOper digest => do return { ctx with filter := ← insertDigestBloomRingQueue ctx.filter digest }
  | .absoluteUpdate ss => do
    return { ctx with
      filter := ← insertAbsoluteBloomRingQueue ctx.filter ss.filter.toList filterSize ss.index ss.buffer }
  | .rotate clock => ctx.rotate clock
  | .syncAggregate => do
    return { ctx with filter := ← Bloom.syncAggregate ctx.filter, syncGuard := ctx.syncGuard + 1 }
  | .unknown => .ok ctx

/-- A run of `bloommgr`. -/
def run (ctx : Ctx) (cmds : List Command) : Except Fault Ctx := cmds.foldlM execute ctx

/-- The commands of a run, each with the state it meets. -/
def trace (ctx : Ctx) : List Command → List (Ctx × Command)
  | [] => []
  | cmd :: cmds => (ctx, cmd) ::
    match ctx.execute cmd with
    | .ok ctx' => ctx'.trace cmds
    | .error _ => []

/-- The clock values that a command reads. -/
def readings (ctx : Ctx) : Command → List ℤ
  | .rotate clock =>
    match ctx.outcome clock with
    | .notNeeded => [clock.needed]
    | .zeroed => [clock.needed, clock.logged, clock.tooOld, clock.zeroed]
    | .rotated => [clock.needed, clock.logged, clock.tooOld]
  | _ => []

/-- The clock values that a run reads. -/
def runReadings (ctx : Ctx) (cmds : List Command) : List ℤ :=
  (ctx.trace cmds).flatMap fun p => p.1.readings p.2

/-- The command clears member `s`. -/
def clears (ctx : Ctx) (s : ℕ) : Command → Bool
  | .rotate clock =>
    match ctx.outcome clock with
    | .notNeeded => false
    | .zeroed => true
    | .rotated => bloomRingQueueNextIndex ctx.filter == s
  | _ => false

end Ctx

/-- Updates and rotations: the commands that the node's own work gives. -/
def Command.isLocal : Command → Bool
  | .update _ | .updateOper _ | .rotate _ => true
  | _ => false

/-! ### One command -/

/-- What a command does to the ring, as an event of its history. -/
def Ctx.events (ctx : Ctx) : Command → List (Event Digest)
  | .update d | .updateOper d => [.insert d]
  | .rotate clock =>
    match ctx.outcome clock with
    | .notNeeded => []
    | .zeroed => [.clear]
    | .rotated => [.rotate]
  | _ => []

/-- What a command does to `last_rotate`. -/
def Ctx.nextLastRotate (ctx : Ctx) : Command → ℤ
  | .rotate clock =>
    match ctx.outcome clock with
    | .notNeeded => ctx.lastRotate
    | .zeroed => clock.zeroed
    | .rotated => ctx.lastRotate + ctx.rotateInterval
  | _ => ctx.lastRotate

variable {num nb : ℕ}

/-- Updates and rotations do not fail on a well-formed ring, and the ring runs
through the events. -/
theorem Ctx.execute_local (ctx : Ctx) (r : Ring num nb) (hr : ctx.filter = r.brq) {cmd : Command}
    (hc : cmd.isLocal = true) :
    ctx.execute cmd = .ok { ctx with
      filter := (r.run (ctx.events cmd)).brq, lastRotate := ctx.nextLastRotate cmd } := by
  obtain ⟨interval, bufs, filter, last, guard⟩ := ctx
  cases hr
  cases cmd with
  | update d =>
    simp only [execute, r.insertDigest_eq d]
    rfl
  | updateOper d =>
    simp only [execute, r.insertDigest_eq d]
    rfl
  | rotate clock =>
    simp only [execute, rotate, events, nextLastRotate]
    cases outcome _ clock
    · rfl
    · simp only [r.zero_eq]
      rfl
    · simp only [r.rotate_eq]
      rfl
  | absoluteUpdate ss => cases hc
  | syncAggregate => cases hc
  | unknown => cases hc

/-- A run of updates and rotations does not fail either, and leaves the ring well
formed. -/
theorem Ctx.run_local (ctx : Ctx) (hwf : ctx.filter.WF num nb) {cmds : List Command}
    (hc : ∀ cmd ∈ cmds, cmd.isLocal = true) :
    ∃ ctx', ctx.run cmds = .ok ctx' ∧ ctx'.filter.WF num nb ∧ ctx'.numBufs = ctx.numBufs ∧
      ctx'.rotateInterval = ctx.rotateInterval := by
  refine foldlM_inv _ _ _ (fun ctx' cmd hcmd h => ?_) ⟨hwf, rfl, rfl⟩
  exact ⟨_, ctx'.execute_local ⟨ctx'.filter, h.1⟩ rfl (hc cmd hcmd), Ring.wf _, h.2⟩

/-! ### A digest and its member -/

/-- The ring has kept a digest for `k` rotations: the member `k` places back holds
its bits, and so does the aggregate. -/
structure Ring.Keeps (r : Ring num nb) (d : Digest) (k : ℕ) : Prop where
  /-- The member has not come round again. -/
  lt : k < num
  /-- The member holds the bits. -/
  member : indexSet (bitMask nb) d ⊆ r.member (slot num r.cur k)
  /-- The digest is reported. -/
  reports : r.Reports d

theorem Ring.keeps_insertDigest (r : Ring num nb) (d : Digest) : (r.insertDigest d).Keeps d 0 := by
  obtain ⟨hcur, hagg, hmem⟩ := r.insertDigest_spec d
  refine ⟨(Nat.zero_le _).trans_lt r.cur_lt, ?_, ?_⟩
  · rw [hcur, slot_zero r.cur_lt, hmem, if_pos rfl]
    exact Set.subset_union_right
  · rw [Reports, hagg]
    exact Set.subset_union_right

theorem Ring.Keeps.insertDigest {r : Ring num nb} {d : Digest} {k : ℕ} (h : r.Keeps d k) (d' : Digest) :
    (r.insertDigest d').Keeps d k := by
  obtain ⟨hcur, hagg, hmem⟩ := r.insertDigest_spec d'
  refine ⟨h.lt, ?_, ?_⟩
  · rw [hcur, hmem]
    split_ifs
    · exact h.member.trans Set.subset_union_left
    · exact h.member
  · rw [Reports, hagg]
    exact h.reports.trans Set.subset_union_left

/-- A rotation keeps the digest, unless it comes round to its member. -/
theorem Ring.Keeps.rotate {r : Ring num nb} {d : Digest} {k : ℕ} (h : r.Keeps d k) (hk : k + 1 < num) :
    r.rotate.Keeps d (k + 1) := by
  obtain ⟨hcur, hmem, hagg⟩ := r.rotate_spec
  have hslot := slot_next_succ r.cur_lt hk
  have hne : slot num r.cur k ≠ next num r.cur := hslot ▸ slot_succ_ne (next_lt r.cur_lt) hk
  have hmember : r.rotate.member (slot num r.cur k) = r.member (slot num r.cur k) := by
    rw [hmem, if_neg hne]
  refine ⟨hk, ?_, ?_⟩
  · rw [hcur, hslot, hmember]
    exact h.member
  · rw [Reports, hagg]
    exact fun n hn => ⟨slot num r.cur k, slot_lt r.cur_lt k, by rw [hmember]; exact h.member hn⟩

/-- After `num - 1` rotations the next one is the member's. -/
theorem next_eq_slot {N cur k : ℕ} (hc : cur < N) (hk : k + 1 = N) : next N cur = slot N cur k := by
  rw [next_eq hc, slot_eq hc (by omega)]
  split_ifs <;> omega

/-! ### The retention window -/

/-- The digest's member `m` has not been cleared in the `k` rotations since
`last_rotate` was `L`. -/
structure Ctx.Kept (ctx : Ctx) (r : Ring num nb) (d : Digest) (L : ℤ) (m k : ℕ) : Prop where
  /-- The ring. -/
  filter : ctx.filter = r.brq
  /-- The ring has the configured number of members. -/
  numBufs : ctx.numBufs = num
  /-- Each rotation has moved `last_rotate` on by one interval. -/
  lastRotate : ctx.lastRotate = L + k * ctx.rotateInterval
  /-- The digest is kept. -/
  keeps : r.Keeps d k
  /-- In its member. -/
  slot : slot num r.cur k = m

/-- A rotation that is due leaves the digest in its member, or comes round to the member;
then the clock is past the window. -/
theorem Ctx.Kept.rotated {ctx : Ctx} {r : Ring num nb} {d : Digest} {L : ℤ} {m k : ℕ} (h : ctx.Kept r d L m k)
    {clock : Clock} (hout : ctx.outcome clock = .rotated) :
    (∃ k', Ctx.Kept { ctx with filter := r.rotate.brq, lastRotate := ctx.lastRotate + ctx.rotateInterval }
      r.rotate d L m k') ∨
    (next num r.cur = m ∧ r.rotate.member m = ∅ ∧ L + num * ctx.rotateInterval < clock.needed) := by
  have hk := h.keeps.lt
  have hlast := h.lastRotate
  obtain ⟨hcur, hmem, -⟩ := r.rotate_spec
  by_cases hk' : k + 1 < num
  · refine .inl ⟨k + 1, rfl, h.numBufs, ?_, h.keeps.rotate hk', ?_⟩
    · simp only [hlast]
      push_cast
      ring
    · rw [hcur, slot_next_succ r.cur_lt hk']
      exact h.slot
  · have hkn : k + 1 = num := by omega
    have hnext : next num r.cur = m := (next_eq_slot r.cur_lt hkn).trans h.slot
    refine .inr ⟨hnext, (hmem m).trans (if_pos hnext.symm), ?_⟩
    unfold outcome at hout
    split_ifs at hout with hneed
    rw [← hkn]
    push_cast
    linarith

/-- A command either leaves the digest in its member, or clears the member; then it
has read a clock value past the window. -/
theorem Ctx.Kept.step {ctx : Ctx} {r : Ring num nb} {d : Digest} {L : ℤ} {m k : ℕ} (h : ctx.Kept r d L m k)
    (hI : 1 ≤ ctx.rotateInterval) {cmd : Command} (hc : cmd.isLocal = true) :
    (∃ k', Ctx.Kept { ctx with filter := (r.run (ctx.events cmd)).brq, lastRotate := ctx.nextLastRotate cmd }
      (r.run (ctx.events cmd)) d L m k') ∨
    (ctx.clears m cmd = true ∧ (r.run (ctx.events cmd)).member m = ∅ ∧
      ∃ t ∈ ctx.readings cmd, L + num * ctx.rotateInterval < t) := by
  have hlast := h.lastRotate
  cases cmd with
  | absoluteUpdate ss => cases hc
  | syncAggregate => cases hc
  | unknown => cases hc
  | update d' =>
    exact .inl ⟨k, rfl, h.numBufs, h.lastRotate, h.keeps.insertDigest d', by
      rw [← h.slot, ← (r.insertDigest_spec d').1]; rfl⟩
  | updateOper d' =>
    exact .inl ⟨k, rfl, h.numBufs, h.lastRotate, h.keeps.insertDigest d', by
      rw [← h.slot, ← (r.insertDigest_spec d').1]; rfl⟩
  | rotate clock =>
    have hspan : (0 : ℤ) ≤ k * ctx.rotateInterval := by positivity
    simp only [events, nextLastRotate, readings, clears]
    cases hout : ctx.outcome clock with
    | notNeeded => exact .inl ⟨k, rfl, h.numBufs, h.lastRotate, h.keeps, h.slot⟩
    | zeroed =>
      refine .inr ⟨rfl, r.zero_spec.2.1 m, clock.tooOld, by simp, ?_⟩
      unfold outcome at hout
      split_ifs at hout with _ hold
      rw [h.numBufs] at hold
      linarith
    | rotated =>
      rcases h.rotated hout with hkept | ⟨hnext, hempty, hpast⟩
      · exact .inl hkept
      · refine .inr ⟨?_, hempty, clock.needed, by simp, hpast⟩
        rw [h.filter, nextIndex_eq r.wf.groupSize r.wf.current]
        exact beq_iff_eq.mpr hnext

/-- Over a run: the digest is still in its member, or some command has cleared the
member and has read a clock value past the window. -/
theorem Ctx.Kept.run {ctx : Ctx} {r : Ring num nb} {d : Digest} {L : ℤ} {m k : ℕ} (h : ctx.Kept r d L m k)
    (hI : 1 ≤ ctx.rotateInterval) {cmds : List Command} (hc : ∀ cmd ∈ cmds, cmd.isLocal = true) {ctx' : Ctx}
    (hrun : ctx.run cmds = .ok ctx') :
    (∃ (r' : Ring num nb) (k' : ℕ), ctx'.Kept r' d L m k') ∨
    ∃ p ∈ ctx.trace cmds, p.1.clears m p.2 = true ∧
      (∃ ctx'', p.1.execute p.2 = .ok ctx'' ∧ memberBits ctx''.filter.group.filterGroup m = ∅) ∧
      ∃ t ∈ p.1.readings p.2, L + num * ctx.rotateInterval < t := by
  induction cmds generalizing ctx r k with
  | nil =>
    cases hrun
    exact .inl ⟨r, k, h⟩
  | cons cmd cmds ih =>
    have hcmd := hc cmd (List.mem_cons_self ..)
    have hexec := ctx.execute_local r h.filter hcmd
    rw [Ctx.run, List.foldlM_cons, hexec, ok_bind] at hrun
    rcases h.step hI hcmd with ⟨k', hkept⟩ | ⟨hclears, hempty, hread⟩
    · rcases ih hkept hI (fun c h => hc c (List.mem_cons_of_mem _ h)) hrun with hkept | ⟨p, hp, hp'⟩
      · exact .inl hkept
      · refine .inr ⟨p, List.mem_cons_of_mem _ ?_, hp'⟩
        simpa only [hexec] using hp
    · exact .inr ⟨(ctx, cmd), List.mem_cons_self .., hclears, ⟨_, hexec, hempty⟩, hread⟩

/-- As long as the member is untouched, `last_rotate` is too far back for a `rotate()`
past the window to find no rotation needed. -/
theorem Ctx.Kept.outcome_ne {ctx : Ctx} {r : Ring num nb} {d : Digest} {L : ℤ} {m k : ℕ} (h : ctx.Kept r d L m k)
    (hI : 1 ≤ ctx.rotateInterval) {clock : Clock} (hlate : L + (num + 1) * ctx.rotateInterval ≤ clock.needed) :
    ctx.outcome clock ≠ .notNeeded := by
  intro hout
  have hneed : clock.needed - ctx.lastRotate ≤ ctx.rotateInterval := by
    by_contra hneed
    unfold Ctx.outcome at hout
    rw [if_neg hneed] at hout
    split_ifs at hout
  have hlt : (k : ℤ) + 1 ≤ num := by exact_mod_cast h.keeps.lt
  have hmul := mul_le_mul_of_nonneg_right hlt (show (0 : ℤ) ≤ ctx.rotateInterval by linarith)
  rw [h.lastRotate] at hneed
  linarith

/-- **The retention window**: with `N` members and a rotation interval of `I`, take
any run of updates and rotations that inserts a digest when `last_rotate` is `L`.
As long as no clock value read since is past `L + N * I`, the digest is reported.
And when a `rotate()` at or past `L + (N + 1) * I` finds no rotation needed, the
member that the digest was inserted into has been cleared since. -/
theorem retention (num nb : ℕ) (ctx : Ctx) (hwf : ctx.filter.WF num nb) (hnum : ctx.numBufs = num)
    (hI : 1 ≤ ctx.rotateInterval) (pre post : List Command) (hpre : ∀ cmd ∈ pre, cmd.isLocal = true)
    (hpost : ∀ cmd ∈ post, cmd.isLocal = true) (d : Digest) (ins : Command)
    (hins : ins = .update d ∨ ins = .updateOper d) :
    ∃ before inserted after, ctx.run pre = .ok before ∧ before.execute ins = .ok inserted ∧
      inserted.run post = .ok after ∧
      ((∀ t ∈ inserted.runReadings post, t ≤ before.lastRotate + num * ctx.rotateInterval) →
        isInRingQueue after.filter d = .ok true) ∧
      ∀ clock, before.lastRotate + (num + 1) * ctx.rotateInterval ≤ clock.needed →
        after.outcome clock = .notNeeded →
        ∃ p ∈ inserted.trace post, p.1.clears before.filter.currentIndex p.2 = true ∧
          ∃ cleared, p.1.execute p.2 = .ok cleared ∧
            memberBits cleared.filter.group.filterGroup before.filter.currentIndex = ∅ := by
  obtain ⟨before, hbefore, hwf₁, hnum₁, hint₁⟩ := ctx.run_local hwf hpre
  let r : Ring num nb := ⟨before.filter, hwf₁⟩
  let inserted : Ctx := { before with filter := (r.insertDigest d).brq }
  have hinsert : before.execute ins = .ok inserted := by
    rcases hins with rfl | rfl
    · exact before.execute_local r rfl rfl
    · exact before.execute_local r rfl rfl
  have hkept : inserted.Kept (r.insertDigest d) d before.lastRotate before.filter.currentIndex 0 :=
    ⟨rfl, hnum₁.trans hnum, by simp [inserted], r.keeps_insertDigest d, by
      rw [(r.insertDigest_spec d).1]; exact slot_zero r.cur_lt⟩
  obtain ⟨after, hafter, -, -, hint₂⟩ := inserted.run_local (r.insertDigest d).wf hpost
  have hint₃ : after.rotateInterval = ctx.rotateInterval := hint₂.trans hint₁
  have hI₁ : 1 ≤ inserted.rotateInterval := hint₁ ▸ hI
  refine ⟨before, inserted, after, hbefore, hinsert, hafter, fun hreads => ?_, fun clock hlate hout => ?_⟩
  · rcases hkept.run hI₁ hpost hafter with ⟨r', k, hk⟩ | ⟨p, hp, -, -, t, ht, hlt⟩
    · rw [hk.filter, r'.isInRingQueue_eq_true]
      exact hk.keeps.reports
    · have hle := hreads t (List.mem_flatMap.mpr ⟨p, hp, ht⟩)
      rw [show inserted.rotateInterval = ctx.rotateInterval from hint₁] at hlt
      exact absurd hle (not_le.mpr hlt)
  · rcases hkept.run hI₁ hpost hafter with ⟨r', k, hk⟩ | ⟨p, hp, hclears, hempty, -⟩
    · rw [← hint₃] at hI hlate
      exact absurd hout (hk.outcome_ne hI hlate)
    · exact ⟨p, hp, hclears, hempty⟩

/-- Two one-word filters rotated every 10 seconds, and a digest inserted when
`last_rotate` is 100. After the rotation of 111 it is reported; the rotation of
121 clears its member, and at 130 there is nothing to do. -/
theorem retention_two :
    (∃ after, (Ctx.mk 10 2 (oneWordRing [510, 0] 510 0) 100 1).run [.rotate ⟨111, 111, 111, 111⟩] = .ok after ∧
      isInRingQueue after.filter ⟨1, 2, 3, 4, 5, 6, 7, 8⟩ = .ok true) ∧
    ∃ p ∈ (Ctx.mk 10 2 (oneWordRing [510, 0] 510 0) 100 1).trace
        [.rotate ⟨111, 111, 111, 111⟩, .rotate ⟨121, 121, 121, 121⟩],
      p.1.clears 0 p.2 = true := by
  have hins : (Ctx.mk 10 2 (oneWordRing [0, 0] 0 0) 100 1).execute (.update ⟨1, 2, 3, 4, 5, 6, 7, 8⟩) =
      .ok (Ctx.mk 10 2 (oneWordRing [510, 0] 510 0) 100 1) := by decide
  have hwf : (oneWordRing [0, 0] 0 0).WF 2 5 := wf_oneWordRing rfl (by decide)
  constructor
  · obtain ⟨before, inserted, after, h₁, h₂, h₃, hkeep, -⟩ := retention 2 5
      (Ctx.mk 10 2 (oneWordRing [0, 0] 0 0) 100 1) hwf rfl (by decide) [] [.rotate ⟨111, 111, 111, 111⟩]
      (by decide) (by decide) ⟨1, 2, 3, 4, 5, 6, 7, 8⟩ _ (.inl rfl)
    cases h₁
    rw [hins] at h₂
    cases h₂
    exact ⟨after, h₃, hkeep (by decide)⟩
  · obtain ⟨before, inserted, after, h₁, h₂, h₃, -, hclear⟩ := retention 2 5
      (Ctx.mk 10 2 (oneWordRing [0, 0] 0 0) 100 1) hwf rfl (by decide) []
      [.rotate ⟨111, 111, 111, 111⟩, .rotate ⟨121, 121, 121, 121⟩]
      (by decide) (by decide) ⟨1, 2, 3, 4, 5, 6, 7, 8⟩ _ (.inl rfl)
    cases h₁
    rw [hins] at h₂
    cases h₂
    have hrun : (Ctx.mk 10 2 (oneWordRing [510, 0] 510 0) 100 1).run
        [.rotate ⟨111, 111, 111, 111⟩, .rotate ⟨121, 121, 121, 121⟩] =
        .ok (Ctx.mk 10 2 (oneWordRing [0, 0] 0 0) 120 1) := by decide
    rw [hrun] at h₃
    cases h₃
    obtain ⟨p, hp, hclears, -⟩ := hclear ⟨130, 130, 130, 130⟩ (by decide) (by decide)
    exact ⟨p, hp, hclears⟩

end Gross.Bloom
