import Gross.Bloom.History
import Gross.Conf.Configure

/-!
# Repeated attempts

A sender that is told to try again later does, and then its tuple is in the filter. A
sender that is blocked may try again too.

## The model

Any number of calls of `test_tuple` with one tuple run at the same time, and beside
them `bloommgr`, which takes the updates from the queue. A call reads the filter when it
begins and again when it decides, and puts the update at its end; the checks are
evaluated in between, with any results that the registered checks can give (`Evaluation`).

## What is proved

`never_admitted_iff` — for a configuration that `configure_grossd` makes, without dry
run and with a check, and a filter that does not have the tuple: if every evaluation of
the checks blocks, no call lets the tuple through, except if the updates are `always`
made, `block_threshold` is zero, and there is a check that can block. Then the first
call puts the tuple that it blocks in the filter, and the second finds it there
(`blocked_then_matched`).
-/

namespace Gross.Worker.Repeat

open Foundation Bloom Conf Utils

/-- The judgments that a check can give. -/
def gives : Pool → Judgment → Bool
  | .dnsbl, j | .rhsbl, j | .reverse, j | .helo, j | .blocker, j => j = .undefined || j = .suspicious
  | .dnswl, j => j = .undefined || j = .pass
  | .spf, j => j = .undefined || j = .suspicious || j = .block
  | .random, _ => true

/-- There is a check that can block. -/
def CanBlock (checklist : List Check) : Prop := ∃ check ∈ checklist, gives check.pool .block = true

/-- What the checks are asked with, and what comes back. -/
structure Evaluation where
  /-- `ta` -/
  ta : Option (List TmoutAction)
  /-- `start` -/
  start : Timespec
  /-- The turns of the loop. -/
  turns : List Turn
  deriving DecidableEq, Repr

/-- The loop at its end. -/
def Evaluation.loop (e : Evaluation) (conf : Config) (checklist : List Check) : Loop :=
  listen conf e.start (.init checklist (timeouts conf e.ta)) e.turns

/-- The results are such as the registered checks give, and together they block. -/
structure Evaluation.Blocks (e : Evaluation) (conf : Config) (checklist : List Check) : Prop where
  /-- Each result is one that a registered check can give. -/
  given : ∀ t ∈ e.turns, ∀ r, t.message = some (some r) → ∃ check ∈ checklist, gives check.pool r.judgment = true
  /-- The combined judgment is `J_BLOCK`. -/
  judgment : (e.loop conf checklist).judgment = .block

/-- Where a call of `test_tuple` is. -/
inductive Call where
  /-- Before the filter is read. -/
  | entered
  /-- The checks have been asked. -/
  | waiting
  /-- It has decided. -/
  | decided (decision : Decision) (entry : QuerylogEntry)
  /-- It has returned. -/
  | returned (final : Final)
  deriving DecidableEq, Repr

/-- The filter, the update queue and the calls. -/
structure Site where
  /-- `filter` -/
  filter : BloomRingQueue
  /-- `update_q`: the digests of the updates. -/
  updateQ : List Digest
  /-- The calls, in the order they began. -/
  calls : List Call
  deriving DecidableEq, Repr

/-- A step of a call, or of `bloommgr`. -/
inductive Act where
  /-- A call begins. -/
  | enter
  /-- Call `i` reads the filter, and may decide by it alone. -/
  | look (i : ℕ)
  /-- The loop of call `i` is over, and the call decides. -/
  | conclude (i : ℕ) (e : Evaluation)
  /-- Call `i` puts the update, and returns. -/
  | leave (i : ℕ)
  /-- `bloommgr` takes an update. -/
  | bloommgr
  deriving DecidableEq, Repr

section Steps

variable (conf : Config) (checklist : List Check) (digest : Digest)

/-- The start of a call. -/
def looked (seen : Bool) : Call :=
  match shortcut conf checklist seen with
  | some decision => .decided decision ⟨0, [], .grey⟩
  | none => .waiting

/-- What a step does. -/
def step (s : Site) : Act → Except Fault Site
  | .enter => .ok { s with calls := s.calls ++ [.entered] }
  | .look i =>
    match s.calls[i]? with
    | some .entered => do
      let seen ← isInRingQueue s.filter digest
      return { s with calls := s.calls.set i (looked conf checklist seen) }
    | _ => .ok s
  | .conclude i e =>
    match s.calls[i]? with
    | some .waiting =>
      let l := e.loop conf checklist
      if l.ended then do
        let seen ← isInRingQueue s.filter digest
        return { s with calls := s.calls.set i (.decided (l.verdict conf seen) l.entry) }
      else .ok s
    | _ => .ok s
  | .leave i =>
    match s.calls[i]? with
    | some (.decided decision entry) =>
      let final := finish conf decision entry
      .ok { s with
        updateQ := if final.update then s.updateQ ++ [digest] else s.updateQ
        calls := s.calls.set i (.returned final) }
    | _ => .ok s
  | .bloommgr =>
    match s.updateQ with
    | [] => .ok s
    | d :: updateQ => do
      let filter ← insertDigestBloomRingQueue s.filter d
      return { s with filter := filter, updateQ := updateQ }

/-- A run. -/
def run (s : Site) (acts : List Act) : Except Fault Site := acts.foldlM (step conf checklist digest) s

/-- In the step, if it is one, the evaluation of the checks blocks. -/
def Act.Blocks : Act → Prop
  | .conclude _ e => e.Blocks conf checklist
  | _ => True

end Steps

/-- No call has begun. -/
def start (filter : BloomRingQueue) : Site := ⟨filter, [], []⟩

/-! ### An evaluation that blocks -/

/-- A judgment of the loop comes from a result. -/
theorem exists_of_judgment_listen {conf : Config} {start : Timespec} {l : Loop} {turns : List Turn}
    (h : (listen conf start l turns).judgment = .block) :
    l.judgment = .block ∨ ∃ t ∈ turns, ∃ r, t.message = some (some r) ∧ r.judgment = .block := by
  induction turns generalizing l with
  | nil => exact .inl h
  | cons t turns ih =>
    rw [listen, List.foldl_cons, ← listen] at h
    rcases ih h with hnext | ⟨t', ht', hr⟩
    · split_ifs at hnext
      · exact .inl hnext
      · rcases Loop.judgment_turn conf start l t with heq | ⟨r, hr, heq⟩
        · exact .inl (heq ▸ hnext)
        · rw [heq, Judgment.max_eq_block] at hnext
          exact hnext.1.imp id fun hj => ⟨t, List.mem_cons_self, r, hr, hj⟩
    · exact .inr ⟨t', List.mem_cons_of_mem _ ht', hr⟩

theorem Evaluation.Blocks.canBlock {e : Evaluation} {conf : Config} {checklist : List Check}
    (h : e.Blocks conf checklist) : CanBlock checklist := by
  rcases exists_of_judgment_listen h.judgment with hinit | ⟨t, ht, r, hr, hj⟩
  · cases hinit
  · obtain ⟨check, hcheck, hgives⟩ := h.given t ht r hr
    exact ⟨check, hcheck, hj ▸ hgives⟩

/-! ### No call lets the tuple through -/

section Quiet

variable {conf : Config} {checklist : List Check} {digest : Digest} {num nb : ℕ} {s : Site}

/-- The call has blocked the tuple, if it has decided, and there is a check that can. -/
def Call.Blocked (checklist : List Check) : Call → Prop
  | .entered | .waiting => True
  | .decided decision _ => decision.retvalue = .block ∧ CanBlock checklist
  | .returned final => final.status = .block

/-- No call has let the tuple through, and if the filter is a shortcut, it does not have the tuple. -/
structure Quiet (conf : Config) (checklist : List Check) (digest : Digest) (num nb : ℕ) (s : Site) : Prop where
  /-- The filter is well formed. -/
  wf : s.filter.WF num nb
  /-- The calls have blocked the tuple. -/
  calls : ∀ c ∈ s.calls, c.Blocked checklist
  /-- The tuple is not in the filter, and will not be. -/
  unseen : conf.matchShortcut = true → isInRingQueue s.filter digest = .ok false ∧ s.updateQ = []

/-- One call goes on. -/
theorem Quiet.set (h : Quiet conf checklist digest num nb s) (i : ℕ) (c : Call) (hc : c.Blocked checklist) :
    Quiet conf checklist digest num nb { s with calls := s.calls.set i c } := by
  refine ⟨h.wf, fun c' hc' => ?_, h.unseen⟩
  rcases List.mem_or_eq_of_mem_set hc' with hc' | rfl
  · exact h.calls c' hc'
  · exact hc

theorem exists_isInRingQueue (h : s.filter.WF num nb) (digest : Digest) :
    ∃ seen, isInRingQueue s.filter digest = .ok seen := by
  obtain ⟨seen, hseen, -⟩ := isInRingQueue_ok h digest
  exact ⟨seen, hseen⟩

/-- With a check, and the tuple not in the filter if that is a shortcut, the checks are asked. -/
theorem looked_eq_waiting (hne : checklist ≠ []) {seen : Bool} (h : conf.matchShortcut = true → seen = false) :
    looked conf checklist seen = .waiting := by
  have hshort : ¬ (seen = true ∧ conf.matchShortcut = true) := by
    rintro ⟨hseen, hm⟩
    simp [h hm] at hseen
  simp only [looked, shortcut, List.length_eq_zero_iff, hne, or_false, if_neg hshort, if_false]

/-- Each step keeps it, unless the filter is a shortcut and a tuple that is blocked is put in it. -/
theorem Quiet.step (hne : checklist ≠ []) (hdry : conf.dryrun = false)
    (hcond : ¬ (conf.updateAlways = true ∧ conf.matchShortcut = true ∧ CanBlock checklist))
    (h : Quiet conf checklist digest num nb s) {a : Act} (ha : a.Blocks conf checklist) :
    ∃ s', step conf checklist digest s a = .ok s' ∧ Quiet conf checklist digest num nb s' := by
  obtain ⟨seen, hseen⟩ := exists_isInRingQueue h.wf digest
  cases a with
  | enter =>
    refine ⟨_, rfl, h.wf, fun c hc => ?_, h.unseen⟩
    rcases List.mem_append.mp hc with hc | hc
    · exact h.calls c hc
    · rw [List.mem_singleton.mp hc]
      trivial
  | look i =>
    simp only [Repeat.step]
    split
    · have hwait : looked conf checklist seen = .waiting := looked_eq_waiting hne fun hm => by
        simpa [(h.unseen hm).1] using hseen.symm
      rw [hseen, ok_bind, hwait]
      exact ⟨_, rfl, h.set i .waiting trivial⟩
    · exact ⟨s, rfl, h⟩
  | conclude i e =>
    simp only [Repeat.step]
    split
    · split_ifs
      · rw [hseen, ok_bind]
        refine ⟨_, rfl, h.set i (.decided _ _) ⟨?_, ha.canBlock⟩⟩
        simp only [Loop.verdict, ha.judgment]
      · exact ⟨s, rfl, h⟩
    · exact ⟨s, rfl, h⟩
  | leave i =>
    simp only [Repeat.step]
    split
    · rename_i decision entry hget
      obtain ⟨hblock, hcan⟩ := h.calls _ (List.mem_of_getElem? hget)
      refine ⟨_, rfl, h.wf, (h.set i (.returned (finish conf decision entry)) ?_).calls, fun hm => ?_⟩
      · simp [Call.Blocked, finish, hdry, hblock]
      · have halways : conf.updateAlways = false := by
          by_contra ha
          exact hcond ⟨by simpa using ha, hm, hcan⟩
        have hupdate : (finish conf decision entry).update = false := by
          simp [finish, updates, hblock, halways]
        simpa [hupdate] using h.unseen hm
    · exact ⟨s, rfl, h⟩
  | bloommgr =>
    simp only [Repeat.step]
    cases hq : s.updateQ with
    | nil => exact ⟨s, rfl, h⟩
    | cons d updateQ =>
      obtain ⟨filter, hfilter, hwf, -⟩ := insertDigestBloomRingQueue_ok h.wf d
      simp only [hfilter, ok_bind]
      refine ⟨{ s with filter := filter, updateQ := updateQ }, rfl, hwf, h.calls, fun hm => ?_⟩
      have := (h.unseen hm).2
      simp [hq] at this

end Quiet

/-! ### A blocked tuple that is let through -/

/-- One check blocks, and the others do not answer in time. -/
def blocking : Evaluation where
  ta := some [⟨1000, none⟩]
  start := ⟨0, 0⟩
  turns := [⟨⟨0, 0⟩, some (some ⟨false, false, 0, .block, none, none⟩)⟩, ⟨⟨1, 0⟩, none⟩]

variable {conf : Config} {checklist : List Check} {digest : Digest} {num nb : ℕ}

theorem blocking_loop (conf : Config) (hne : checklist ≠ []) :
    (blocking.loop conf checklist).ended = true ∧ (blocking.loop conf checklist).judgment = .block := by
  let l := (Loop.init checklist [⟨1000, none⟩]).hear conf (some ⟨false, false, 0, .block, none, none⟩)
  have hgo : ¬ (Loop.init checklist [⟨1000, none⟩]).ended = true := by simp [Loop.ended, Loop.init, hne]
  have hta : l.ta = [⟨1000, none⟩] := Loop.ta_hear _ _ _
  have hj : l.judgment = .block := Loop.judgment_hear _ _ _
  -- the result comes in time, and the next turn is too late
  have hloop : blocking.loop conf checklist = if l.ended then l else { l with ta := [] } := by
    have hlast : l.turn conf ⟨0, 0⟩ ⟨⟨1, 0⟩, none⟩ = { l with ta := [] } := by
      simp only [Loop.turn, hta]
      rfl
    have hfirst : (Loop.init checklist [⟨1000, none⟩]).turn conf ⟨0, 0⟩
        ⟨⟨0, 0⟩, some (some ⟨false, false, 0, .block, none, none⟩)⟩ = l := rfl
    simp only [Evaluation.loop, blocking, listen, timeouts, List.foldl_cons, List.foldl_nil, if_neg hgo, hfirst, hlast]
  rw [hloop]
  split_ifs with hended
  · exact ⟨hended, hj⟩
  · exact ⟨by simp [Loop.ended], hj⟩

theorem blocking_blocks (conf : Config) (hcan : CanBlock checklist) : blocking.Blocks conf checklist := by
  obtain ⟨check, hcheck, hgives⟩ := hcan
  refine ⟨fun t ht r hr => ?_, (blocking_loop conf (List.ne_nil_of_mem hcheck)).2⟩
  have hr' : r.judgment = .block := by
    simp only [blocking, List.mem_cons, List.not_mem_nil, or_false] at ht
    rcases ht with rfl | rfl
    · cases hr
      rfl
    · cases hr
  exact ⟨check, hcheck, hr' ▸ hgives⟩

/-- Two calls, and the update between them. -/
def twice : List Act :=
  [.enter, .look 0, .conclude 0 blocking, .leave 0, .bloommgr, .enter, .look 1, .leave 1]

/-- The first call blocks the tuple and puts it in the filter, where the second finds it. -/
theorem run_twice (hcan : CanBlock checklist) (halways : conf.updateAlways = true) (hshort : conf.matchShortcut = true)
    (hdry : conf.dryrun = false) (r : Ring num nb) (hout : isInRingQueue r.brq digest = .ok false) :
    ∃ s final, run conf checklist digest (start r.brq) twice = .ok s ∧ .returned final ∈ s.calls ∧
      final.status = .matched := by
  let l := blocking.loop conf checklist
  obtain ⟨check, hcheck, -⟩ := id hcan
  have hne : checklist ≠ [] := List.ne_nil_of_mem hcheck
  obtain ⟨hended, hj⟩ := blocking_loop conf hne
  have hwait : looked conf checklist false = .waiting := looked_eq_waiting hne fun _ => rfl
  have hin : isInRingQueue (r.insertDigest digest).brq digest = .ok true :=
    (Ring.isInRingQueue_eq_true _ _).mpr (by
      rw [Ring.Reports, (r.insertDigest_spec digest).2.1]
      exact Set.subset_union_right)
  have hmatch : looked conf checklist true = .decided ⟨.matched, none⟩ ⟨0, [], .grey⟩ := by
    simp [looked, shortcut, hshort]
  have hblocked : ∀ decision entry, (finish conf decision entry).update = true := by simp [finish, updates, halways]
  refine ⟨⟨(r.insertDigest digest).brq, [digest],
      [.returned (finish conf (l.verdict conf false) l.entry), .returned (finish conf ⟨.matched, none⟩ ⟨0, [], .grey⟩)]⟩,
    finish conf ⟨.matched, none⟩ ⟨0, [], .grey⟩, ?_, List.mem_cons_of_mem _ List.mem_cons_self, by simp [finish, hdry]⟩
  -- the first call
  simp only [run, twice, start, step, List.foldlM_cons, List.foldlM_nil, ok_bind, pure_bind, List.nil_append,
    List.getElem?_cons_zero, List.set_cons_zero, hout, hwait, hended, if_true, hblocked, r.insertDigest_eq]
  -- and the second
  simp only [List.cons_append, List.nil_append, List.getElem?_cons_succ, List.getElem?_cons_zero, List.set_cons_succ,
    List.set_cons_zero, ok_bind, pure_bind, hin, hmatch]
  rfl

theorem gives_block {p : Pool} : gives p .block = true ↔ p = .random ∨ p = .spf := by
  cases p <;> decide

theorem spf_startable : ∀ build : Build, (∃ check ∈ startable build, check.pool = .spf) → build.spf = true := by
  rintro ⟨_ | _, _ | _⟩ <;> decide

/-- The checks that can block are `random` and `spf`. -/
theorem canBlock_checklist {build : Build} {config : List ConfigItem} :
    CanBlock (Conf.checklist build config) ↔
      .random ∈ checks config ∨ build.spf = true ∧ .spf ∈ checks config := by
  constructor
  · rintro ⟨check, hmem, hgives⟩
    obtain ⟨hstart, hchecks⟩ := List.mem_filter.mp hmem
    rcases gives_block.mp hgives with hp | hp
    · exact .inl (by simpa [hp] using hchecks)
    · exact .inr ⟨spf_startable build ⟨check, hstart, hp⟩, by simpa [hp] using hchecks⟩
  · rintro (h | ⟨hspf, h⟩)
    · exact ⟨⟨.random, true⟩, by simp [Conf.checklist, startable, h], rfl⟩
    · exact ⟨⟨.spf, true⟩, by simp [Conf.checklist, startable, h, hspf], rfl⟩

/-- **A tuple that every evaluation of the checks blocks is let through only if the updates are
always made, the filter is a shortcut because `block_threshold` is zero, and a check can block.** -/
theorem never_admitted_iff {config : List ConfigItem} (hconf : configureGrossd false config = .ok conf) {build : Build}
    (hne : Conf.checklist build config ≠ []) (r : Ring num nb) (hout : isInRingQueue r.brq digest = .ok false) :
    (∀ acts : List Act, (∀ a ∈ acts, a.Blocks conf (Conf.checklist build config)) →
      ∃ s, run conf (Conf.checklist build config) digest (start r.brq) acts = .ok s ∧
        ∀ final, .returned final ∈ s.calls → final.status ≠ .matched ∧ final.status ≠ .trust) ↔
    ¬ (gconf config "update" = some "always" ∧ conf.blockThreshold = 0 ∧
        (.random ∈ checks config ∨ build.spf = true ∧ .spf ∈ checks config)) := by
  obtain ⟨hupdate, hshort, hdry⟩ := configureGrossd_ok hconf
  rw [← hupdate, ← hshort, ← canBlock_checklist]
  constructor
  · rintro h ⟨halways, hm, hcan⟩
    obtain ⟨s, final, hrun, hmem, hstatus⟩ := run_twice hcan halways hm hdry r hout
    obtain ⟨s', hrun', hall⟩ := h twice (by simp [twice, Act.Blocks, blocking_blocks conf hcan])
    cases hrun.symm.trans hrun'
    exact (hall final hmem).1 hstatus
  · intro hcond acts hacts
    have hstart : Quiet conf (Conf.checklist build config) digest num nb (start r.brq) :=
      ⟨r.wf, by simp [start], fun _ => ⟨hout, rfl⟩⟩
    obtain ⟨s, hrun, hs⟩ := foldlM_inv _ (Quiet conf (Conf.checklist build config) digest num nb) acts
      (fun s a ha h => h.step hne hdry hcond (hacts a ha)) hstart
    refine ⟨s, hrun, fun final hmem => ?_⟩
    have hblock : final.status = .block := hs.calls _ hmem
    simp [hblock]

/-- The checks `random` and `spf`, the update style and the default thresholds. -/
def randomSpf (update : String) : List ConfigItem :=
  [⟨"check", "spf", [], false⟩, ⟨"check", "random", [], false⟩, ⟨"update", update, [], false⟩,
    ⟨"block_threshold", "0", [], true⟩, ⟨"grey_threshold", "1", [], true⟩, ⟨"query_timelimit", "5000", [], true⟩]

/-- What `configure_grossd` makes of it. -/
def randomSpfConf (updateAlways : Bool) : Config := ⟨1, 0, true, updateAlways, false, 5000, "", ""⟩

/-- An empty filter. -/
def emptyRing : Ring 1 5 := ⟨oneWordRing [0] 0 0, wf_oneWordRing rfl (by decide)⟩

/-- If only greylisted tuples are put in the filter, no call lets the tuple through. -/
theorem never_admitted_grey :
    configureGrossd false (randomSpf "grey") = .ok (randomSpfConf false) ∧
      ∀ acts : List Act, (∀ a ∈ acts, a.Blocks (randomSpfConf false) (Conf.checklist ⟨true, true⟩ (randomSpf "grey"))) →
        ∃ s, run (randomSpfConf false) (Conf.checklist ⟨true, true⟩ (randomSpf "grey")) ⟨0, 0, 0, 0, 0, 0, 0, 0⟩
            (start emptyRing.brq) acts = .ok s ∧
          ∀ final, .returned final ∈ s.calls → final.status ≠ .matched ∧ final.status ≠ .trust := by
  have hconf : configureGrossd false (randomSpf "grey") = .ok (randomSpfConf false) := rfl
  have hout : isInRingQueue emptyRing.brq ⟨0, 0, 0, 0, 0, 0, 0, 0⟩ = .ok false := rfl
  have hne : Conf.checklist ⟨true, true⟩ (randomSpf "grey") ≠ [] := List.ne_nil_of_mem (a := ⟨.random, true⟩) (by decide)
  exact ⟨hconf, (never_admitted_iff hconf hne emptyRing hout).mpr (by decide)⟩

/-- If all are, the second call finds the tuple that the first blocked. -/
theorem blocked_then_matched :
    let checklist := Conf.checklist ⟨true, true⟩ (randomSpf "always")
    configureGrossd false (randomSpf "always") = .ok (randomSpfConf true) ∧
      (∀ a ∈ twice, a.Blocks (randomSpfConf true) checklist) ∧
      isInRingQueue emptyRing.brq ⟨0, 0, 0, 0, 0, 0, 0, 0⟩ = .ok false ∧
      ∃ s final, run (randomSpfConf true) checklist ⟨0, 0, 0, 0, 0, 0, 0, 0⟩ (start emptyRing.brq) twice = .ok s ∧
        .returned final ∈ s.calls ∧ final.status = .matched := by
  intro checklist
  have hout : isInRingQueue emptyRing.brq ⟨0, 0, 0, 0, 0, 0, 0, 0⟩ = .ok false := rfl
  have hcan : CanBlock checklist := canBlock_checklist.mpr (.inl (by decide))
  exact ⟨rfl, by simp [twice, Act.Blocks, blocking_blocks _ hcan], hout, run_twice hcan rfl rfl rfl emptyRing hout⟩

end Gross.Worker.Repeat
