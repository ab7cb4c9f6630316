import Gross.Foundation.Counted
import Gross.Foundation.Interleave
import Gross.Foundation.Run
import Gross.Worker.TestTuple

/-!
# The references to a request and its edict

A request is shared by the thread that handles it and the threads of the pools that
check it; so is the edict, by which the results come back. Each has a count of its
references. `test_tuple` takes a reference to both for every check. A thread that runs
its check drops both. A thread that cannot, because the pool is exhausted or `dnsblc` is
not able to start, sends `NULL`, keeps the reference to the request and drops that to the
edict; it is `test_tuple` that drops the other when it receives the `NULL`. Who drops the
last reference to the edict flushes the results that are left on its queue.

## The model

The thread of `test_tuple` and those of the pools take steps in any order (`Act`): the
loop of `test_tuple` is that of `TestTuple`, the checks send any results. `Stage` and
`Job` say where each of them is. The queue of the edict has a number that is not
zero; the queues with the numbers 0 and 1 are those of the updates.

## What is proved

`freed_once` — if a `NULL` is sent only while `test_tuple` is in its loop, and it does not
leave the loop while a `NULL` is on the queue (`Meets`), then no assertion fails, nothing
is used after it was freed, and when all are done the request and the edict have been
freed, once each. Otherwise who drops the last reference to the edict finds the `NULL` and
fails: a run that comes to its end without failing has met the condition in each step.

## The argument

Each reference is in somebody's hands (`Accounts`): those to the request in the hands of the
threads and of the `NULL`s on the queue, those to the edict in the hands of the threads.
-/

namespace Gross.Worker.References

open Foundation Utils

/-- How far `test_tuple` is with giving the request to a check. -/
inductive Submission where
  /-- Before `request_reference`. -/
  | fresh
  /-- Before `edict_reference`, in `submit_job`. -/
  | requested
  /-- Before `put_msg`. -/
  | counted
  deriving DecidableEq, Repr

/-- Where the thread of `test_tuple` is. -/
inductive Stage where
  /-- Giving the request to these checks. -/
  | submitting (checks : List Check) (submission : Submission)
  /-- In the loop. -/
  | listening (l : Loop)
  /-- In the loop, with a `NULL`, before `request_unlink`. -/
  | unlinking (l : Loop)
  /-- After the loop, before `edict_unlink`. -/
  | leaving
  /-- Back in its caller, before `request_unlink`. -/
  | returned
  /-- After it. -/
  | done
  deriving DecidableEq, Repr

/-- Where a check is, from when it is given the request. -/
inductive Job where
  /-- The job is on the queue of the pool. -/
  | queued
  /-- A thread runs it. -/
  | running
  /-- It is done with the request, before `edict_unlink`. -/
  | finishing
  /-- After it. -/
  | done
  deriving DecidableEq, Repr

/-- The request, the edict and the threads. -/
structure State where
  /-- The request's `reference`. -/
  request : Counted
  /-- The edict's `reference`. -/
  edict : Counted
  /-- `resultmq` -/
  resultmq : List (Option ChkResult)
  /-- `test_tuple` -/
  stage : Stage
  /-- The checks, in the order they were given the request. -/
  jobs : List Job
  deriving DecidableEq, Repr

/-- `test_tuple` has made the edict. -/
def start (checklist : List Check) : State := ⟨.new, .new, [], .submitting checklist .fresh, []⟩

/-- The rest of the queue is flushed. -/
def flush : List (Option ChkResult) → Except Fault Unit
  | [] => .ok ()
  | result :: resultmq => do
    check (result.isSome = true)
    flush resultmq

/-- `edict_unlink` -/
def edictUnlink (s : State) : Except Fault State := do
  let edict ← s.edict.unlink
  if edict.count = 0 then
    -- last reference
    flush s.resultmq
    return { s with edict := edict, resultmq := [] }
  else return { s with edict := edict }

/-- What `test_tuple` goes by. -/
structure Call where
  /-- The configuration. -/
  conf : Config
  /-- The checks. -/
  checklist : List Check
  /-- The timeouts. -/
  ta : List TmoutAction
  /-- When it was called. -/
  start : Timespec

/-- The timeout that the loop waits for has not come. -/
def inTime (start now : Timespec) (l : Loop) : Bool :=
  match l.ta with
  | [] => false
  | ta :: _ => msDiff now start < ta.timeout

/-- A turn of the loop of `test_tuple`. -/
def hearing (call : Call) (s : State) (l : Loop) (now : Timespec) : State :=
  if inTime call.start now l then
    match s.resultmq with
    | [] => s
    | message :: resultmq =>
      let l := l.turn call.conf call.start ⟨now, some message⟩
      { s with resultmq := resultmq, stage := if message.isSome then .listening l else .unlinking l }
  else { s with stage := .listening (l.turn call.conf call.start ⟨now, none⟩) }

/-- A step of `test_tuple`, or of its caller when it has returned. -/
def tester (call : Call) (s : State) (now : Timespec) : Except Fault State :=
  match s.stage with
  | .submitting [] _ => .ok { s with stage := .listening (.init call.checklist call.ta) }
  | .submitting (check :: checks) .fresh => do
    return { s with request := ← s.request.reference, stage := .submitting (check :: checks) .requested }
  | .submitting (check :: checks) .requested => do
    return { s with edict := ← s.edict.reference, stage := .submitting (check :: checks) .counted }
  | .submitting (_ :: checks) .counted =>
    .ok { s with jobs := s.jobs ++ [.queued], stage := .submitting checks .fresh }
  | .listening l => .ok (if l.ended then { s with stage := .leaving } else hearing call s l now)
  | .unlinking l => do return { s with request := ← s.request.unlink, stage := .listening l }
  | .leaving => edictUnlink { s with stage := .returned }
  | .returned => do return { s with request := ← s.request.unlink, stage := .done }
  | .done => .ok s

/-- A step. -/
inductive Act where
  /-- Of `test_tuple`, or its caller; the clock says `now`. -/
  | tester (now : Timespec)
  /-- A thread takes check `i`, and will run it. -/
  | run (i : ℕ)
  /-- A thread takes check `i`, and sends `NULL`. -/
  | refuse (i : ℕ)
  /-- Check `i` sends a result. -/
  | send (i : ℕ) (result : ChkResult)
  /-- Check `i` is over, with `request_unlink`. -/
  | unlink (i : ℕ)
  /-- The thread of check `i` is done, with `edict_unlink`. -/
  | finish (i : ℕ)
  deriving DecidableEq, Repr

/-- What a step does. -/
def step (call : Call) (s : State) : Act → Except Fault State
  | .tester now => tester call s now
  | .run i =>
    match s.jobs[i]? with
    | some .queued => .ok { s with jobs := s.jobs.set i .running }
    | _ => .ok s
  | .refuse i =>
    match s.jobs[i]? with
    | some .queued => .ok { s with jobs := s.jobs.set i .finishing, resultmq := s.resultmq ++ [none] }
    | _ => .ok s
  | .send i result =>
    match s.jobs[i]? with
    | some .running => .ok { s with resultmq := s.resultmq ++ [some result] }
    | _ => .ok s
  | .unlink i =>
    match s.jobs[i]? with
    | some .running => do
      return { s with request := ← s.request.unlink, jobs := s.jobs.set i .finishing }
    | _ => .ok s
  | .finish i =>
    match s.jobs[i]? with
    | some .finishing => edictUnlink { s with jobs := s.jobs.set i .done }
    | _ => .ok s

/-- A run. -/
def run (call : Call) (acts : List Act) : Except Fault State := acts.foldlM (step call) (start call.checklist)

/-- `test_tuple` has left its loop. -/
def Stage.left : Stage → Bool
  | .leaving | .returned | .done => true
  | _ => false

/-- The `NULL`s on a queue. -/
def nulls (resultmq : List (Option ChkResult)) : ℕ := resultmq.countP (·.isNone)

/-- `NULL` is sent only while `test_tuple` is in its loop, and it does not leave the loop while one is
on the queue. -/
def Meets (s : State) : Act → Prop
  | .tester _ =>
    match s.stage with
    | .listening l => l.ended = true → nulls s.resultmq = 0
    | _ => True
  | .refuse i => s.jobs[i]? = some .queued → s.stage.left = false
  | _ => True

/-- All are done. -/
def AllDone (s : State) : Prop := s.stage = .done ∧ ∀ j ∈ s.jobs, j = .done

/-! ### Whose hands the references are in -/

/-- The references to the request in the hands of `test_tuple` and its caller. -/
def Stage.request : Stage → ℕ
  | .submitting [] _ => 1
  | .submitting (_ :: _) .fresh => 1
  | .submitting (_ :: _) _ => 2
  | .listening _ => 1
  | .unlinking _ => 2
  | .leaving | .returned => 1
  | .done => 0

/-- Those to the edict. -/
def Stage.edict : Stage → ℕ
  | .submitting (_ :: _) .counted => 2
  | .submitting _ _ | .listening _ | .unlinking _ | .leaving => 1
  | .returned | .done => 0

/-- The references to the request in the hands of a check. -/
def Job.request : Job → ℕ
  | .queued | .running => 1
  | .finishing | .done => 0

/-- Those to the edict. -/
def Job.edict : Job → ℕ
  | .queued | .running | .finishing => 1
  | .done => 0

/-- Each reference is in somebody's hands. -/
structure Accounts (s : State) : Prop where
  /-- Those to the request are with the threads, and with each `NULL` on the queue. -/
  request : s.request.Held (s.stage.request + tally Job.request s.jobs + nulls s.resultmq)
  /-- Those to the edict are with the threads. -/
  edict : s.edict.Held (s.stage.edict + tally Job.edict s.jobs)
  /-- With the last of those the queue has been flushed. -/
  flushed : s.stage.edict + tally Job.edict s.jobs = 0 → s.resultmq = []

/-- When `test_tuple` has left its loop there is no `NULL` any more. -/
def Received (s : State) : Prop := s.stage.left = true → nulls s.resultmq = 0

variable {call : Call} {s : State}

theorem Stage.request_fresh (checks : List Check) : (Stage.submitting checks .fresh).request = 1 := by
  cases checks <;> rfl

theorem Stage.edict_fresh (checks : List Check) : (Stage.submitting checks .fresh).edict = 1 := by
  cases checks <;> rfl

theorem accounts_start (checklist : List Check) : Accounts (start checklist) := by
  refine ⟨Counted.held_new.of_eq ?_, Counted.held_new.of_eq ?_, fun _ => rfl⟩
  · simp [start, Stage.request_fresh, nulls]
  · simp [start, Stage.edict_fresh]

/-- The references to the request, at a stage with `n` of them. -/
theorem Accounts.request_at (h : Accounts s) {stage : Stage} {n : ℕ} (hst : s.stage = stage)
    (hn : stage.request = n) : s.request.Held (n + tally Job.request s.jobs + nulls s.resultmq) := by
  subst hst hn
  exact h.request

/-- Those to the edict. -/
theorem Accounts.edict_at (h : Accounts s) {stage : Stage} {n : ℕ} (hst : s.stage = stage)
    (hn : stage.edict = n) : s.edict.Held (n + tally Job.edict s.jobs) := by
  subst hst hn
  exact h.edict

theorem received_start (checklist : List Check) : Received (start checklist) := by simp [Received, start, Stage.left]

@[simp]
theorem nulls_nil : nulls [] = 0 := rfl

@[simp]
theorem nulls_none (resultmq : List (Option ChkResult)) : nulls (none :: resultmq) = nulls resultmq + 1 := by
  simp [nulls]

@[simp]
theorem nulls_some (result : ChkResult) (resultmq : List (Option ChkResult)) :
    nulls (some result :: resultmq) = nulls resultmq := by
  simp [nulls]

@[simp]
theorem nulls_append (q q' : List (Option ChkResult)) : nulls (q ++ q') = nulls q + nulls q' := List.countP_append

/-- A queue can be flushed if there is no `NULL` on it. -/
theorem flush_eq (resultmq : List (Option ChkResult)) :
    flush resultmq = if nulls resultmq = 0 then .ok () else .error .assertion := by
  induction resultmq with
  | nil => rfl
  | cons result resultmq ih =>
    cases result with
    | none => simp [flush, check, error_bind]
    | some result => rw [flush, check_pos Option.isSome_some, ok_bind, ih, nulls_some]

/-- `edict_unlink` drops a reference, and with the last one goes the queue; but if there is a `NULL` on
it, the assertion fails. -/
theorem edictUnlink_cases {n : ℕ} (h : s.edict.Held (n + 1)) :
    (∃ edict resultmq, edictUnlink s = .ok { s with edict := edict, resultmq := resultmq } ∧ edict.Held n ∧
      nulls resultmq = nulls s.resultmq ∧ (n = 0 → resultmq = [])) ∨
    (n = 0 ∧ nulls s.resultmq ≠ 0 ∧ edictUnlink s = .error .assertion) := by
  obtain ⟨edict, hunlink, hheld⟩ := h.unlink
  rw [edictUnlink, hunlink, ok_bind, hheld.count]
  by_cases hn : n = 0
  · rw [if_pos hn, flush_eq]
    by_cases hnull : nulls s.resultmq = 0
    · rw [if_pos hnull]
      exact .inl ⟨edict, [], rfl, hheld, hnull.symm, fun _ => rfl⟩
    · rw [if_neg hnull]
      exact .inr ⟨hn, hnull, rfl⟩
  · rw [if_neg hn]
    exact .inl ⟨edict, s.resultmq, rfl, hheld, rfl, fun h => absurd h hn⟩

/-! ### One step -/

/-- The references are in somebody's hands after the step; and a `NULL` is received in time after it if
it was before and the step meets the condition. -/
structure Kept (s : State) (a : Act) (s' : State) : Prop where
  /-- The references. -/
  accounts : Accounts s'
  /-- The `NULL`s. -/
  received : Received s' ↔ Received s ∧ Meets s a

/-- The step is not one. -/
theorem Accounts.stay (h : Accounts s) {a : Act} (ha : Meets s a) : Kept s a s := ⟨h, (and_iff_left ha).symm⟩

theorem Stage.left_of_edict {stage : Stage} (h : stage.edict = 0) : stage.left = true := by
  cases stage with
  | submitting checks submission => cases checks <;> cases submission <;> cases h
  | listening l | unlinking l | leaving => cases h
  | returned | done => rfl

/-- A thread drops the edict, from the state `s₁` in which the rest of its step is done. -/
theorem kept_edictUnlink {s₁ : State} {a : Act}
    (hrequest : s₁.request.Held (s₁.stage.request + tally Job.request s₁.jobs + nulls s₁.resultmq))
    (hedict : s₁.edict.Held (s₁.stage.edict + tally Job.edict s₁.jobs + 1)) (hq : s₁.resultmq = s.resultmq)
    (hleft : s₁.stage.left = s.stage.left) (hlast : s₁.stage.edict = 0 → s.stage.left = true) (ha : Meets s a) :
    (∃ s', edictUnlink s₁ = .ok s' ∧ Kept s a s') ∨ ¬ Received s ∧ edictUnlink s₁ = .error .assertion := by
  rcases edictUnlink_cases hedict with ⟨edict, resultmq, hok, hheld, hnulls, hflush⟩ | ⟨hn, hnull, hfail⟩
  · refine .inl ⟨_, hok, ⟨hnulls ▸ hrequest, hheld, hflush⟩, ?_⟩
    rw [and_iff_left ha, Received, Received, hleft, hnulls, hq]
  · refine .inr ⟨fun hreceived => hnull ?_, hfail⟩
    rw [hq]
    exact hreceived (hlast (by omega))

section Jobs

variable {i : ℕ}

/-- A check that is not done holds the edict, so the queue has not been flushed. -/
theorem Accounts.edict_pos {j : Job} (hi : s.jobs[i]? = some j) (hj : j.edict = 1) : tally Job.edict s.jobs ≠ 0 := by
  have := le_tally (f := Job.edict) (List.mem_of_getElem? hi)
  omega

theorem Accounts.run (h : Accounts s) (hi : s.jobs[i]? = some .queued) :
    Kept s (.run i) { s with jobs := s.jobs.set i .running } := by
  have hreq : tally Job.request (s.jobs.set i .running) + 1 = tally Job.request s.jobs + 1 := tally_set hi .running
  have hed : tally Job.edict (s.jobs.set i .running) + 1 = tally Job.edict s.jobs + 1 := tally_set hi .running
  refine ⟨⟨h.request.of_eq ?_, h.edict.of_eq ?_, fun hzero => h.flushed ?_⟩, (and_iff_left trivial).symm⟩
  all_goals
    dsimp only at *
    omega

/-- The `NULL` has the reference to the request that the check had. -/
theorem Accounts.refuse (h : Accounts s) (hi : s.jobs[i]? = some .queued) :
    Kept s (.refuse i) { s with jobs := s.jobs.set i .finishing, resultmq := s.resultmq ++ [none] } := by
  have hreq : tally Job.request (s.jobs.set i .finishing) + 1 = tally Job.request s.jobs + 0 := tally_set hi .finishing
  have hed : tally Job.edict (s.jobs.set i .finishing) + 1 = tally Job.edict s.jobs + 1 := tally_set hi .finishing
  have hpos := Accounts.edict_pos hi rfl
  refine ⟨⟨h.request.of_eq ?_, h.edict.of_eq ?_, fun hzero => ?_⟩, ?_⟩
  · simp only [nulls_append, nulls_none, nulls_nil]
    omega
  · dsimp only
    omega
  · dsimp only at hzero
    omega
  · cases hleft : s.stage.left <;> simp [Received, Meets, hi, hleft]

theorem Accounts.send (h : Accounts s) (hi : s.jobs[i]? = some .running) (result : ChkResult) :
    Kept s (.send i result) { s with resultmq := s.resultmq ++ [some result] } := by
  have hpos := Accounts.edict_pos hi rfl
  have hnulls : nulls (s.resultmq ++ [some result]) = nulls s.resultmq := by simp
  refine ⟨⟨h.request.of_eq (by rw [hnulls]), h.edict, fun hzero => ?_⟩, ?_⟩
  · dsimp only at hzero
    omega
  · simp [Received, Meets]

/-- The check drops the request. -/
theorem Accounts.unlink (h : Accounts s) (hi : s.jobs[i]? = some .running) :
    ∃ request, s.request.unlink = .ok request ∧
      Kept s (.unlink i) { s with request := request, jobs := s.jobs.set i .finishing } := by
  have hreq : tally Job.request (s.jobs.set i .finishing) + 1 = tally Job.request s.jobs + 0 := tally_set hi .finishing
  have hed : tally Job.edict (s.jobs.set i .finishing) + 1 = tally Job.edict s.jobs + 1 := tally_set hi .finishing
  obtain ⟨request, hunlink, hheld⟩ := (h.request.of_eq (n := s.stage.request +
    tally Job.request (s.jobs.set i .finishing) + nulls s.resultmq + 1) (by omega)).unlink
  refine ⟨request, hunlink, ⟨hheld, h.edict.of_eq ?_, fun hzero => h.flushed ?_⟩, (and_iff_left trivial).symm⟩
  all_goals
    dsimp only at *
    omega

/-- The check drops the edict. -/
theorem Accounts.finish (h : Accounts s) (hi : s.jobs[i]? = some .finishing) :
    (∃ s', edictUnlink { s with jobs := s.jobs.set i .done } = .ok s' ∧ Kept s (.finish i) s') ∨
      ¬ Received s ∧ edictUnlink { s with jobs := s.jobs.set i .done } = .error .assertion := by
  have hreq : tally Job.request (s.jobs.set i .done) + 0 = tally Job.request s.jobs + 0 := tally_set hi .done
  have hed : tally Job.edict (s.jobs.set i .done) + 1 = tally Job.edict s.jobs + 0 := tally_set hi .done
  refine kept_edictUnlink (h.request.of_eq ?_) (h.edict.of_eq ?_) rfl rfl Stage.left_of_edict trivial
  · dsimp only
    omega
  · dsimp only
    omega

end Jobs

/-- While `test_tuple` is in its loop, or before, it holds the edict, and a `NULL` is in time. -/
theorem kept_inside {s' : State} {a : Act} {stage : Stage} {n k : ℕ} (hst : s.stage = stage)
    (hs : stage.left = false) (hs' : s'.stage.left = false) (hn : s'.stage.request = n) (hk : s'.stage.edict = k)
    (hrequest : s'.request.Held (n + tally Job.request s'.jobs + nulls s'.resultmq))
    (hedict : s'.edict.Held (k + tally Job.edict s'.jobs)) (ha : Meets s a) : Kept s a s' := by
  subst hst hn hk
  refine ⟨⟨hrequest, hedict, fun hzero => ?_⟩, ?_⟩
  · have hleft : s'.stage.left = true := Stage.left_of_edict (by omega)
    simp [hs'] at hleft
  · simp [Received, hs, hs', ha]

section Tester

variable {now : Timespec} {check : Check} {checks : List Check} {l : Loop}

/-- Only where `test_tuple` listens is there a condition on its step. -/
theorem meets_of_stage {stage : Stage} (hst : s.stage = stage) (h : ∀ l, stage ≠ .listening l) :
    Meets s (.tester now) := by
  unfold Meets
  rw [hst]
  cases stage with
  | listening l => exact absurd rfl (h l)
  | submitting _ _ | unlinking _ | leaving | returned | done => trivial

/-- `test_tuple` gives the request to a check: it takes a reference to the request, -/
theorem Accounts.requestReference (h : Accounts s) (hst : s.stage = .submitting (check :: checks) .fresh) :
    ∃ request, s.request.reference = .ok request ∧
      Kept s (.tester now) { s with request := request, stage := .submitting (check :: checks) .requested } := by
  obtain ⟨request, href, hheld⟩ := (h.request_at (n := 1) hst rfl).reference (by omega)
  refine ⟨request, href, kept_inside (n := 2) hst rfl rfl rfl rfl (hheld.of_eq ?_) (h.edict_at hst rfl)
    (meets_of_stage hst fun l hl => by cases hl)⟩
  dsimp only
  omega

/-- one to the edict, -/
theorem Accounts.edictReference (h : Accounts s) (hst : s.stage = .submitting (check :: checks) .requested) :
    ∃ edict, s.edict.reference = .ok edict ∧
      Kept s (.tester now) { s with edict := edict, stage := .submitting (check :: checks) .counted } := by
  obtain ⟨edict, href, hheld⟩ := (h.edict_at (n := 1) hst rfl).reference (by omega)
  refine ⟨edict, href, kept_inside (k := 2) hst rfl rfl rfl rfl (h.request_at hst rfl) (hheld.of_eq ?_)
    (meets_of_stage hst fun l hl => by cases hl)⟩
  dsimp only
  omega

/-- and both are the check's. -/
theorem Accounts.putJob (h : Accounts s) (hst : s.stage = .submitting (check :: checks) .counted) :
    Kept s (.tester now) { s with jobs := s.jobs ++ [.queued], stage := .submitting checks .fresh } := by
  have hreq : tally Job.request (s.jobs ++ [.queued]) = tally Job.request s.jobs + 1 :=
    tally_append [Job.queued]
  have hed : tally Job.edict (s.jobs ++ [.queued]) = tally Job.edict s.jobs + 1 := tally_append [Job.queued]
  refine kept_inside hst rfl rfl (Stage.request_fresh checks) (Stage.edict_fresh checks)
    ((h.request_at (n := 2) hst rfl).of_eq ?_) ((h.edict_at (n := 2) hst rfl).of_eq ?_)
    (meets_of_stage hst fun l hl => by cases hl)
  · simp only [hreq]
    omega
  · simp only [hed]
    omega

/-- All checks have the request. -/
theorem Accounts.listen (h : Accounts s) {submission : Submission} (hst : s.stage = .submitting [] submission)
    (l : Loop) : Kept s (.tester now) { s with stage := .listening l } :=
  kept_inside hst rfl rfl rfl rfl (h.request_at hst rfl) (h.edict_at hst rfl)
    (meets_of_stage hst fun l hl => by cases hl)

/-- A turn of the loop: a `NULL` gives the reference it has to `test_tuple`. -/
theorem Accounts.hearing (h : Accounts s) (call : Call) (hst : s.stage = .listening l) (hended : ¬ l.ended = true) :
    Kept s (.tester now) (hearing call s l now) := by
  have hmeets : Meets s (.tester now) := by simp [Meets, hst, hended]
  have hrequest := h.request_at (n := 1) hst rfl
  have hedict := h.edict_at (n := 1) hst rfl
  unfold References.hearing
  split_ifs
  · cases hq : s.resultmq with
    | nil => exact h.stay hmeets
    | cons message resultmq =>
      rw [hq] at hrequest
      cases message with
      | none =>
        refine kept_inside (n := 2) hst rfl rfl rfl rfl (hrequest.of_eq ?_) hedict hmeets
        simp only [nulls_none]
        omega
      | some result =>
        refine kept_inside (n := 1) hst rfl rfl rfl rfl (hrequest.of_eq ?_) hedict hmeets
        simp only [nulls_some]
  · exact kept_inside hst rfl rfl rfl rfl hrequest hedict hmeets

/-- `test_tuple` leaves the loop, whatever is on the queue. -/
theorem Accounts.leave (h : Accounts s) (hst : s.stage = .listening l) (hended : l.ended = true) :
    Kept s (.tester now) { s with stage := .leaving } := by
  refine ⟨⟨h.request_at hst rfl, h.edict_at hst rfl, fun hzero => ?_⟩, ?_⟩
  · change 1 + tally Job.edict s.jobs = 0 at hzero
    omega
  · simp [Received, Meets, hst, hended, Stage.left]

/-- `test_tuple` has dropped that reference. -/
theorem Accounts.unlinked (h : Accounts s) (hst : s.stage = .unlinking l) :
    ∃ request, s.request.unlink = .ok request ∧
      Kept s (.tester now) { s with request := request, stage := .listening l } := by
  have hrequest := h.request_at (n := 2) hst rfl
  obtain ⟨request, hunlink, hheld⟩ := (hrequest.of_eq (n := 1 + tally Job.request s.jobs + nulls s.resultmq + 1)
    (by omega)).unlink
  exact ⟨request, hunlink, kept_inside hst rfl rfl rfl rfl hheld (h.edict_at hst rfl)
    (meets_of_stage hst fun l hl => by cases hl)⟩

/-- The caller drops its reference to the request. -/
theorem Accounts.callerUnlink (h : Accounts s) (hst : s.stage = .returned) :
    ∃ request, s.request.unlink = .ok request ∧ Kept s (.tester now) { s with request := request, stage := .done } := by
  have hrequest := h.request_at (n := 1) hst rfl
  have hflushed := h.flushed
  rw [hst] at hflushed
  obtain ⟨request, hunlink, hheld⟩ := (hrequest.of_eq (n := 0 + tally Job.request s.jobs + nulls s.resultmq + 1)
    (by omega)).unlink
  exact ⟨request, hunlink, ⟨hheld, h.edict_at hst rfl, hflushed⟩, by simp [Received, Meets, hst, Stage.left]⟩

end Tester

theorem Accounts.tester (h : Accounts s) (now : Timespec) :
    (∃ s', tester call s now = .ok s' ∧ Kept s (.tester now) s') ∨
      ¬ Received s ∧ tester call s now = .error .assertion := by
  cases hst : s.stage with
  | submitting checks submission =>
    cases checks with
    | nil => exact .inl ⟨_, by simp only [References.tester, hst], h.listen hst (.init call.checklist call.ta)⟩
    | cons check checks =>
      cases submission with
      | fresh =>
        obtain ⟨request, href, hkept⟩ := h.requestReference hst
        exact .inl ⟨_, by simp only [References.tester, hst, href, ok_bind]; rfl, hkept⟩
      | requested =>
        obtain ⟨edict, href, hkept⟩ := h.edictReference hst
        exact .inl ⟨_, by simp only [References.tester, hst, href, ok_bind]; rfl, hkept⟩
      | counted => exact .inl ⟨_, by simp only [References.tester, hst], h.putJob hst⟩
  | listening l =>
    by_cases hended : l.ended = true
    · exact .inl ⟨_, by simp only [References.tester, hst, if_pos hended], h.leave hst hended⟩
    · exact .inl ⟨_, by simp only [References.tester, hst, if_neg hended], h.hearing call hst hended⟩
  | unlinking l =>
    obtain ⟨request, hunlink, hkept⟩ := h.unlinked hst
    exact .inl ⟨_, by simp only [References.tester, hst, hunlink, ok_bind]; rfl, hkept⟩
  | leaving =>
    have hleft : s.stage.left = true := by rw [hst]; rfl
    simp only [References.tester, hst]
    refine kept_edictUnlink (h.request_at hst rfl) ((h.edict_at (n := 1) hst rfl).of_eq ?_) rfl hleft.symm
      (fun _ => hleft) (meets_of_stage hst fun l hl => by cases hl)
    change 1 + tally Job.edict s.jobs = 0 + tally Job.edict s.jobs + 1
    omega
  | returned =>
    obtain ⟨request, hunlink, hkept⟩ := h.callerUnlink hst
    exact .inl ⟨_, by simp only [References.tester, hst, hunlink, ok_bind]; rfl, hkept⟩
  | done =>
    exact .inl ⟨s, by simp only [References.tester, hst], h.stay (meets_of_stage hst fun l hl => by cases hl)⟩

/-- A step leaves each reference in somebody's hands; it fails only if a `NULL` has not been received. -/
theorem Accounts.step (h : Accounts s) (call : Call) (a : Act) :
    (∃ s', step call s a = .ok s' ∧ Kept s a s') ∨ ¬ Received s ∧ step call s a = .error .assertion := by
  cases a with
  | tester now => exact h.tester now
  | run i =>
    simp only [References.step]
    split
    · rename_i hi
      exact .inl ⟨_, rfl, h.run hi⟩
    · exact .inl ⟨s, rfl, h.stay trivial⟩
  | refuse i =>
    simp only [References.step]
    split
    · rename_i hi
      exact .inl ⟨_, rfl, h.refuse hi⟩
    · rename_i hi
      exact .inl ⟨s, rfl, h.stay fun h => absurd h hi⟩
  | send i result =>
    simp only [References.step]
    split
    · rename_i hi
      exact .inl ⟨_, rfl, h.send hi result⟩
    · exact .inl ⟨s, rfl, h.stay trivial⟩
  | unlink i =>
    simp only [References.step]
    split
    · rename_i hi
      obtain ⟨request, hunlink, hkept⟩ := h.unlink hi
      rw [hunlink]
      exact .inl ⟨_, rfl, hkept⟩
    · exact .inl ⟨s, rfl, h.stay trivial⟩
  | finish i =>
    simp only [References.step]
    split
    · rename_i hi
      exact h.finish hi
    · exact .inl ⟨s, rfl, h.stay trivial⟩

/-! ### Whole runs -/

/-- When all are done, nobody holds the edict. -/
theorem AllDone.edict (hdone : AllDone s) : s.stage.edict + tally Job.edict s.jobs = 0 := by
  have hjobs : tally Job.edict s.jobs = 0 := tally_eq_zero.mpr fun j hj => by rw [hdone.2 j hj]; rfl
  rw [hdone.1, hjobs]
  rfl

/-- Nor the request, since no `NULL` is left. -/
theorem Accounts.freed (h : Accounts s) (hdone : AllDone s) : s.request.freed = 1 ∧ s.edict.freed = 1 := by
  have hjobs : tally Job.request s.jobs = 0 := tally_eq_zero.mpr fun j hj => by rw [hdone.2 j hj]; rfl
  constructor
  · simpa [hdone.1, Stage.request, hjobs, h.flushed hdone.edict] using h.request.freed
  · simpa [hdone.edict] using h.edict.freed

theorem accounts_of_run {acts : List Act} {s' : State} (h : Accounts s) (hrun : acts.foldlM (step call) s = .ok s') :
    Accounts s' := by
  refine foldlM_preserves Accounts (fun s a s₁ hs hstep => ?_) h hrun
  rcases hs.step call a with ⟨s₁', hstep', hkept⟩ | ⟨-, hfail⟩
  · cases hstep.symm.trans hstep'
    exact hkept.accounts
  · cases hstep.symm.trans hfail

/-- A run at whose end no `NULL` is lost has met the condition in each step. -/
theorem alongM_of_received {acts : List Act} {s' : State} (h : Accounts s) (hrun : acts.foldlM (step call) s = .ok s')
    (hs' : Received s') : Received s ∧ AlongM (step call) Meets s acts := by
  induction acts generalizing s with
  | nil =>
    cases hrun
    exact ⟨hs', trivial⟩
  | cons a acts ih =>
    obtain ⟨s₁, hstep, hrun⟩ := bind_eq_ok hrun
    rcases h.step call a with ⟨s₁', hstep', hkept⟩ | ⟨-, hfail⟩
    · cases hstep.symm.trans hstep'
      obtain ⟨hs₁, halong⟩ := ih hkept.accounts hrun
      obtain ⟨hs, ha⟩ := hkept.received.mp hs₁
      refine ⟨hs, ha, ?_⟩
      rw [hstep]
      exact halong
    · cases hstep.symm.trans hfail

/-- **If every `NULL` is received, no assertion fails, and in the end the request and the edict have been
freed, once each. And a run that comes to its end without failing is such a run.** -/
theorem freed_once (call : Call) (acts : List Act) :
    (AlongM (step call) Meets (start call.checklist) acts →
      ∃ s, run call acts = .ok s ∧ (AllDone s → s.request.freed = 1 ∧ s.edict.freed = 1)) ∧
    ∀ s, run call acts = .ok s → AllDone s → AlongM (step call) Meets (start call.checklist) acts := by
  constructor
  · intro halong
    obtain ⟨s, hrun, hs, -⟩ := halong.inv (fun s => Accounts s ∧ Received s) (fun s a hs ha => by
      rcases hs.1.step call a with ⟨s', hstep, hkept⟩ | ⟨hlost, -⟩
      · exact ⟨s', hstep, hkept.accounts, hkept.received.mpr ⟨hs.2, ha⟩⟩
      · exact absurd hs.2 hlost) ⟨accounts_start _, received_start _⟩
    exact ⟨s, hrun, hs.freed⟩
  · intro s hrun hdone
    have hflushed := (accounts_of_run (accounts_start _) hrun).flushed hdone.edict
    exact (alongM_of_received (accounts_start _) hrun fun _ => by simp [hflushed]).2

/-- A call with one check and a time limit of a second. -/
def oneCheck : Call := ⟨⟨1, 0, false, false, false, 1000, "", ""⟩, [⟨.dnsbl, false⟩], [⟨1000, none⟩], ⟨0, 0⟩⟩

/-- `test_tuple` gives the request to the check, and goes on to its loop. -/
def submitted : List Act := List.replicate 4 (.tester ⟨0, 0⟩)

/-- The pool is exhausted, and `test_tuple` is there to hear of it. -/
theorem freed_once_refused :
    let acts := submitted ++ .refuse 0 :: List.replicate 5 (.tester ⟨0, 0⟩) ++ [.finish 0]
    AlongM (step oneCheck) Meets (start oneCheck.checklist) acts ∧
      run oneCheck acts = .ok ⟨⟨0, 1⟩, ⟨0, 1⟩, [], .done, [.done]⟩ := by
  intro acts
  have hrun : run oneCheck acts = .ok ⟨⟨0, 1⟩, ⟨0, 1⟩, [], .done, [.done]⟩ := rfl
  exact ⟨(freed_once oneCheck acts).2 _ hrun ⟨rfl, by simp⟩, hrun⟩

/-- The pool is exhausted after `test_tuple` has left the loop at its time limit. Its thread drops the
last reference to the edict, and finds its own `NULL`. -/
theorem null_after_timeout :
    run oneCheck (submitted ++ List.replicate 4 (.tester ⟨2, 0⟩) ++ [.refuse 0, .finish 0]) = .error .assertion := rfl

end Gross.Worker.References
