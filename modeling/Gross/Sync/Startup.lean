import Gross.Bloom.Aggregate
import Gross.Sync.Filters

/-!
# Two rings after a startup synchronisation

When a peer connects, a node sends it all its filters, and the peer merges each
chunk into its member of the same number and then rebuilds its aggregate. Each
node goes on to rotate its own ring, from its own current index: no message of
the protocol tells the peer where the sender's ring stands.

## What is proved

`startup_reports` — what the receiver reports after `k` more rotations of its
own: the digests each of whose bits is in a member, of the receiver or of the
sender at the time, that is not one of the `k` members *the receiver* comes to
next. So what the sender would report after `k` rotations the receiver reports
too, if their rings stand at the same index, or if `k` is zero. From different
positions a member can be one of the next for the receiver and not for the
sender, and its digests are lost early (`startup_position`).

## Honest scope

The rings are any that `bloommgr` can reach, with whatever messages. The chunks
are merged as they were sent.
-/

namespace Gross.Bloom

open Foundation Foundation.Window

variable {num nb : ℕ}

/-! ### Rotations -/

/-- After rotations the members are as before, but for those the ring has come to. -/
theorem Ring.run_rotate (r : Ring num nb) (k : ℕ) :
    (r.run (List.replicate k .rotate)).cur = (r.cur + k) % num ∧
    (∀ s n, n ∈ (r.run (List.replicate k .rotate)).member s ↔
      n ∈ r.member s ∧ ∀ t < k, (r.cur + t + 1) % num ≠ s) ∧
    (r.Settled → (r.run (List.replicate k .rotate)).Settled) := by
  induction k with
  | zero => exact ⟨(Nat.mod_eq_of_lt r.cur_lt).symm, fun s n => by simp [run], id⟩
  | succ k ih =>
    obtain ⟨ihcur, ihmem, -⟩ := ih
    obtain ⟨r', hr'⟩ : ∃ r', r.run (List.replicate k .rotate) = r' := ⟨_, rfl⟩
    have hstep : r.run (List.replicate (k + 1) .rotate) = r'.rotate := by
      rw [List.replicate_succ', run, List.foldl_append]
      exact congrArg rotate hr'
    rw [hr'] at ihcur ihmem
    obtain ⟨hcur, hmem, hagg⟩ := r'.rotate_spec
    have hnext : next num r'.cur = (r.cur + k + 1) % num := by rw [next, ihcur, Nat.mod_add_mod]
    rw [hstep]
    refine ⟨hcur.trans hnext, fun s n => ?_, fun _ => hagg⟩
    rw [hmem, hnext]
    split_ifs with hs
    · constructor
      · exact fun hn => hn.elim
      · rintro ⟨-, hne⟩
        exact (hne k (Nat.lt_succ_self k) hs.symm).elim
    · rw [ihmem]
      refine and_congr_right fun _ => ⟨fun h t ht => ?_, fun h t ht => h t (Nat.lt_succ_of_lt ht)⟩
      rcases Nat.lt_succ_iff_lt_or_eq.mp ht with ht | rfl
      · exact h t ht
      · exact fun h => hs h.symm

/-! ### Merging all chunks -/

/-- Chunks that fit, one after the other. -/
theorem Ctx.run_absoluteUpdate (ctx : Ctx) (r : Ring num nb) (hr : ctx.filter = r.brq) (chunks : List StartupSync)
    (hfits : ∀ ss ∈ chunks, ss.Fits num nb) :
    ∃ r' : Ring num nb, ctx.run (chunks.map .absoluteUpdate) = .ok { ctx with filter := r'.brq } ∧ r'.cur = r.cur ∧
      ∀ s n, n ∈ r'.member s ↔ n ∈ r.member s ∨ ∃ ss ∈ chunks, ss.buffer.toNat = s ∧ n ∈ ss.bits nb := by
  induction chunks generalizing ctx r with
  | nil => exact ⟨r, by rw [← hr]; rfl, rfl, fun s n => by simp⟩
  | cons ss chunks ih =>
    have hss := hfits ss (List.mem_cons_self ..)
    obtain ⟨hcur, -, hmem⟩ := r.insertAbsolute_spec ss hss
    have hexec : ctx.execute (.absoluteUpdate ss) = .ok { ctx with filter := (r.insertAbsolute ss hss).brq } := by
      simp only [execute, hr, r.insertAbsolute_eq ss hss]
      rfl
    obtain ⟨r', hrun, hcur', hmem'⟩ := ih { ctx with filter := (r.insertAbsolute ss hss).brq }
      (r.insertAbsolute ss hss) rfl fun ss' h => hfits ss' (List.mem_cons_of_mem _ h)
    refine ⟨r', ?_, hcur'.trans hcur, fun s n => ?_⟩
    · rw [run, List.map_cons, List.foldlM_cons, hexec, ok_bind]
      exact hrun
    · rw [hmem', hmem, List.exists_mem_cons_iff]
      by_cases hs : s = ss.buffer.toNat
      · rw [if_pos hs, Set.mem_union, or_assoc, and_iff_right hs.symm]
      · rw [if_neg hs, or_iff_right (fun h : ss.buffer.toNat = s ∧ _ => hs h.1.symm)]

/-- All chunks and then the aggregate: the members have the bits of the chunks too, and
the aggregate is their union. -/
theorem Ctx.run_startupSync (ctx : Ctx) (r : Ring num nb) (hr : ctx.filter = r.brq) (chunks : List StartupSync)
    (hfits : ∀ ss ∈ chunks, ss.Fits num nb) :
    ∃ r' : Ring num nb, ctx.run (chunks.map .absoluteUpdate ++ [.syncAggregate]) =
        .ok { ctx with filter := r'.brq, syncGuard := ctx.syncGuard + 1 } ∧ r'.Settled ∧ r'.cur = r.cur ∧
      ∀ s n, n ∈ r'.member s ↔ n ∈ r.member s ∨ ∃ ss ∈ chunks, ss.buffer.toNat = s ∧ n ∈ ss.bits nb := by
  obtain ⟨r₁, hrun, hcur, hmem⟩ := ctx.run_absoluteUpdate r hr chunks hfits
  obtain ⟨hcur₂, hmem₂, hagg₂⟩ := r₁.syncAggregate_spec
  refine ⟨r₁.syncAggregate, ?_, ?_, hcur₂.trans hcur, fun s n => by rw [hmem₂, hmem]⟩
  · rw [run] at hrun ⊢
    rw [List.foldlM_append, hrun, ok_bind, List.foldlM_cons]
    simp only [execute, r₁.syncAggregate_eq]
    rfl
  · rw [Ring.Settled, hagg₂, Ring.all]
    simp only [hmem₂]

end Gross.Bloom

namespace Gross.Sync

open Foundation Foundation.Window Bloom

/-- **After a startup synchronisation**: from any rings the two nodes can have, the
sender's chunks are merged and the aggregate is rebuilt, and then each node rotates
`k` times. The receiver reports the digests whose every bit was in a member of
one of the two that is not among the next `k` of the receiver. These are all the
digests that the sender reports, if both rings stood at the same index or `k` is
zero. -/
theorem startup_reports (num : ℕ) (numBits : Word) (hnum : 1 ≤ num) (hmax : num ≤ 2 ^ 32) (lo : 5 ≤ numBits.toNat)
    (hi : numBits.toNat ≤ 31) (S R : Ctx) (hS : Reached num numBits S) (hR : Reached num numBits R) (k : ℕ)
    (d : Digest) :
    ∃ chunks R' S'' R'', sendFilters S.filter = .ok chunks ∧
      R.run (chunks.map .absoluteUpdate ++ [.syncAggregate]) = .ok R' ∧
      ringRun S.filter (List.replicate k .rotate) = .ok S'' ∧
      ringRun R'.filter (List.replicate k .rotate) = .ok R'' ∧
      (isInRingQueue R'' d = .ok true ↔ ∀ n ∈ maskedIndices (bitMask numBits.toNat) d, ∃ s < num,
        (n ∈ memberBits S.filter.group.filterGroup s ∨ n ∈ memberBits R.filter.group.filterGroup s) ∧
          ∀ t < k, (R.filter.currentIndex + t + 1) % num ≠ s) ∧
      (S.filter.currentIndex = R.filter.currentIndex ∨ k = 0 →
        isInRingQueue S'' d = .ok true → isInRingQueue R'' d = .ok true) := by
  obtain ⟨rS, hrS, hcovS⟩ := hS.covered hnum lo hi
  obtain ⟨rR, hrR, -⟩ := hR.covered hnum lo hi
  obtain ⟨chunks, hsend, hfits, hbits⟩ := sendFilters_ok rS.wf hmax
  obtain ⟨r₁, hrun, hsettled, hcur₁, hmem₁⟩ := R.run_startupSync rR hrR chunks hfits
  obtain ⟨-, hmemS, -⟩ := rS.run_rotate k
  obtain ⟨-, hmemR, hsettledR⟩ := r₁.run_rotate k
  have hiff : ∀ n, n ∈ (r₁.run (List.replicate k .rotate)).agg ↔ ∃ s < num,
      (n ∈ rS.member s ∨ n ∈ rR.member s) ∧ ∀ t < k, (rR.cur + t + 1) % num ≠ s := by
    intro n
    rw [show _ = _ from hsettledR hsettled]
    refine exists_congr fun s => and_congr_right fun hs => ?_
    rw [hmemR, hcur₁, hmem₁, hbits]
    exact and_congr_left fun _ => or_comm
  refine ⟨chunks, _, _, _, hrS ▸ hsend, hrun, by rw [hrS]; exact rS.run_eq _, Ring.run_eq _ _, ?_, ?_⟩
  · rw [Ring.isInRingQueue_eq_true, Ring.Reports, hrS, hrR]
    exact forall₂_congr fun n _ => hiff n
  · intro hsame hreport
    rw [Ring.isInRingQueue_eq_true] at hreport ⊢
    intro n hn
    obtain ⟨s, hs, hns⟩ := Ring.run_covered hcovS _ (hreport hn)
    obtain ⟨hns, hnot⟩ := (hmemS s n).mp hns
    refine (hiff n).mpr ⟨s, hs, Or.inl hns, fun t ht => ?_⟩
    rcases hsame with hsame | rfl
    · have hcur : rS.cur = rR.cur := by rw [Ring.cur, Ring.cur, ← hrS, ← hrR, hsame]
      rw [← hcur]
      exact hnot t ht
    · omega

theorem reached_update : Reached 2 5 ⟨10, 2, oneWordRing [510, 0] 510 0, 100, 1⟩ :=
  ⟨⟨10, 2, oneWordRing [0, 0] 0 0, 100, 1⟩, [.update ⟨1, 2, 3, 4, 5, 6, 7, 8⟩], by decide, by decide⟩

theorem reached_new : Reached 2 5 ⟨10, 2, oneWordRing [0, 0] 0 0, 100, 1⟩ :=
  ⟨⟨10, 2, oneWordRing [0, 0] 0 0, 100, 1⟩, [], by decide, rfl⟩

theorem reached_rotate : Reached 2 5 ⟨10, 2, oneWordRing [0, 0] 0 1, 110, 1⟩ :=
  ⟨⟨10, 2, oneWordRing [0, 0] 0 0, 100, 1⟩, [.rotate ⟨111, 111, 111, 111⟩], by decide, by decide⟩

/-- Two nodes at index 0: a digest of the sender is reported by the receiver after a
rotation of each. -/
theorem startup_reports_zero :
    ∃ chunks R' R'', sendFilters (oneWordRing [510, 0] 510 0) = .ok chunks ∧
      (Ctx.mk 10 2 (oneWordRing [0, 0] 0 0) 100 1).run (chunks.map .absoluteUpdate ++ [.syncAggregate]) = .ok R' ∧
      ringRun R'.filter [.rotate] = .ok R'' ∧ isInRingQueue R'' ⟨1, 2, 3, 4, 5, 6, 7, 8⟩ = .ok true := by
  obtain ⟨chunks, R', S'', R'', hsend, hrun, hS, hR, -, hreports⟩ := startup_reports 2 5 (by decide) (by decide)
    (by decide) (by decide) _ _ reached_update reached_new 1 ⟨1, 2, 3, 4, 5, 6, 7, 8⟩
  have hS' : ringRun (oneWordRing [510, 0] 510 0) [.rotate] = .ok (oneWordRing [510, 0] 510 1) := by decide
  rw [show ringRun _ (List.replicate 1 .rotate) = _ from hS'] at hS
  cases hS
  exact ⟨chunks, R', R'', hsend, hrun, hR, hreports (.inl rfl) (by decide)⟩

/-- The sender at index 0, with a digest in its current member, and the receiver at
index 1: after one rotation the sender still reports the digest, and the receiver,
which has come to that member, does not. -/
theorem startup_position :
    ∃ S R chunks R' S'' R'', Reached 2 5 S ∧ Reached 2 5 R ∧ sendFilters S.filter = .ok chunks ∧
      R.run (chunks.map .absoluteUpdate ++ [.syncAggregate]) = .ok R' ∧
      ringRun S.filter [.rotate] = .ok S'' ∧ ringRun R'.filter [.rotate] = .ok R'' ∧
      isInRingQueue S'' ⟨1, 2, 3, 4, 5, 6, 7, 8⟩ = .ok true ∧
      isInRingQueue R'' ⟨1, 2, 3, 4, 5, 6, 7, 8⟩ = .ok false :=
  ⟨⟨10, 2, oneWordRing [510, 0] 510 0, 100, 1⟩, ⟨10, 2, oneWordRing [0, 0] 0 1, 110, 1⟩,
    [⟨0, 0, pad [510]⟩, ⟨1, 0, pad [0]⟩], ⟨10, 2, oneWordRing [510, 0] 510 1, 110, 2⟩,
    oneWordRing [510, 0] 510 1, oneWordRing [0, 0] 0 0, reached_update, reached_rotate, by decide, by decide,
    by decide, by decide, by decide, by decide⟩

end Gross.Sync
