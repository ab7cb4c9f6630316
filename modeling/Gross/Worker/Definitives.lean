import Gross.Worker.References
import Gross.Worker.Results

/-!
# Waiting for the definitive checks

`test_tuple` may stop waiting when the weight is enough to decide, but not before every
check that could let the request through or block it has answered. It counts them:
`definitives_running` is raised for each check that is registered as definitive, and
lowered for each result that says it is definitive.

## The model

A `Job` is a registered check with what it meets when it is run (`Results.Exit`). In each
turn of the loop the next message of one of the checks may be there; `Arrival` says what the
clock says and which check it is, so that a list of them is any order in which the results
arrive. `InStep` is what the counter is for: it counts the definitive checks whose final
result has not come, and when there are none left and the weight is reached, the loop ends.

## What is proved

`inStep_iff` — the counter is in step for all results and in any order exactly if no
registered check is definitive. No check sets `definitive` in its results, so the counter is
never lowered (`definitivesRunning_run`): with a definitive check registered, the weight alone
never ends the loop.
-/

namespace Gross.Worker.Definitives

open Foundation Utils Results

/-- A registered check, and what it meets when it is run; nothing if the pool is exhausted. -/
structure Job where
  /-- The check, as it is registered. -/
  check : Check
  /-- What it meets. -/
  exit : Option (Exit check.pool)

/-- A check that has been submitted, and its messages that have not come yet. -/
structure Submitted where
  /-- The check, as it is registered. -/
  check : Check
  /-- The messages. -/
  messages : List (Option ChkResult)
  deriving DecidableEq, Repr

/-- `submit_job` -/
def Job.submitted (job : Job) : Submitted := ⟨job.check, sends job.check.pool job.exit⟩

/-- One, if the check is definitive and its final result has not come. -/
def Submitted.outstanding (s : Submitted) : ℕ :=
  if s.check.definitive = true ∧ s.messages.any isFinal = true then 1 else 0

/-- The loop, and the checks that it waits for. -/
structure Wait where
  /-- The loop. -/
  loop : Loop
  /-- The checks. -/
  submitted : List Submitted
  deriving DecidableEq, Repr

/-- A turn: the clock, and the check whose message is there, if there is one. -/
structure Arrival where
  /-- `now` -/
  now : Timespec
  /-- The number of the check. -/
  sender : Option ℕ
  deriving DecidableEq, Repr

/-- The next message of a check, and what is still to come. -/
def receive (submitted : List Submitted) (i : ℕ) : Option (Option ChkResult × List Submitted) :=
  match submitted[i]? with
  | some ⟨check, message :: messages⟩ => some (message, submitted.set i ⟨check, messages⟩)
  | _ => none

/-- What `get_msg_timed` returns, if it is called at all. -/
def getMsgTimed (start : Timespec) (w : Wait) (a : Arrival) : Option (Option ChkResult × List Submitted) :=
  if References.inTime start a.now w.loop = true then a.sender.bind (receive w.submitted) else none

/-- A turn of the loop, if it goes on. -/
def turn (conf : Config) (start : Timespec) (w : Wait) (a : Arrival) : Wait :=
  if w.loop.ended = true then w
  else
    match getMsgTimed start w a with
    | some (message, submitted) => ⟨w.loop.turn conf start ⟨a.now, some message⟩, submitted⟩
    | none => ⟨w.loop.turn conf start ⟨a.now, none⟩, w.submitted⟩

/-- The checks have been submitted. -/
def init (jobs : List Job) (ta : List TmoutAction) : Wait :=
  ⟨.init (jobs.map Job.check) ta, jobs.map Job.submitted⟩

/-- The loop. -/
def run (conf : Config) (start : Timespec) (jobs : List Job) (ta : List TmoutAction) (arrivals : List Arrival) : Wait :=
  arrivals.foldl (turn conf start) (init jobs ta)

/-- The weight is enough to decide. -/
def Reached (conf : Config) (l : Loop) : Prop :=
  conf.blockThreshold ≠ 0 ∧ l.suspWeight ≥ conf.blockThreshold ∨
    conf.blockThreshold = 0 ∧ l.suspWeight ≥ conf.greyThreshold

/-- `definitives_running` is in step with the checks. -/
structure InStep (conf : Config) (jobs : List Job) (w : Wait) : Prop where
  /-- It is the number of definitive checks whose final result has not come. -/
  counts : w.loop.definitivesRunning = tally Submitted.outstanding w.submitted
  /-- When there are none, and a message has brought the weight, the loop waits for no other. -/
  stops : w.submitted ≠ jobs.map Job.submitted → tally Submitted.outstanding w.submitted = 0 →
    Reached conf w.loop → w.loop.ended = true

variable {conf : Config} {start : Timespec} {jobs : List Job} {ta : List TmoutAction} {w : Wait}

/-! ### A turn -/

theorem receive_eq_some {submitted after : List Submitted} {i : ℕ} {message : Option ChkResult}
    (h : receive submitted i = some (message, after)) :
    ∃ check messages, submitted[i]? = some ⟨check, message :: messages⟩ ∧ after = submitted.set i ⟨check, messages⟩ := by
  unfold receive at h
  split at h
  · next check m messages hi =>
    cases h
    exact ⟨check, messages, hi, rfl⟩
  · cases h

/-- What a turn can do: nothing, take the next timeout or none, or take a message in. -/
theorem turn_cases (conf : Config) (start : Timespec) (w : Wait) (a : Arrival) :
    turn conf start w a = w ∨
      (∃ ta performed, turn conf start w a = ⟨{ w.loop with ta := ta, performed := performed }, w.submitted⟩) ∨
      ∃ i check message messages, w.submitted[i]? = some ⟨check, message :: messages⟩ ∧
        turn conf start w a = ⟨w.loop.hear conf message, w.submitted.set i ⟨check, messages⟩⟩ := by
  unfold turn
  split_ifs with hended
  · exact Or.inl rfl
  · right
    cases hget : getMsgTimed start w a with
    | none =>
      left
      dsimp only
      unfold Loop.turn
      cases hta : w.loop.ta with
      | nil => exact ⟨_, _, rfl⟩
      | cons b next =>
        dsimp only
        split_ifs
        · exact ⟨_, _, rfl⟩
        · cases b.action <;> exact ⟨_, _, rfl⟩
    | some got =>
      right
      obtain ⟨message, submitted⟩ := got
      unfold getMsgTimed at hget
      split_ifs at hget with htime
      obtain ⟨i, -, hreceive⟩ := Option.bind_eq_some_iff.mp hget
      obtain ⟨check, messages, hi, rfl⟩ := receive_eq_some hreceive
      refine ⟨i, check, message, messages, hi, ?_⟩
      unfold References.inTime at htime
      unfold Loop.turn
      cases hta : w.loop.ta with
      | nil => simp [hta] at htime
      | cons b next =>
        rw [hta] at htime
        dsimp only at htime ⊢
        rw [if_pos (of_decide_eq_true htime)]

/-- With no definitive check running, the weight ends the loop. -/
theorem settle_of_reached {l : Loop} (hzero : l.definitivesRunning = 0) (hreached : Reached conf l) :
    (l.settle conf).definitive = true := by
  unfold Loop.settle
  rcases hreached with h | h <;> split_ifs <;> rfl

theorem definitive_hear {l : Loop} {message : Option ChkResult} (hzero : (l.hear conf message).definitivesRunning = 0)
    (hreached : Reached conf (l.hear conf message)) : (l.hear conf message).definitive = true := by
  cases message with
  | none =>
    obtain ⟨b, heq, -⟩ := Loop.settle_eq conf { l with checksRunning := l.checksRunning - 1 }
    rw [Loop.hear, heq] at hzero hreached
    exact settle_of_reached hzero hreached
  | some result =>
    obtain ⟨b, heq, -⟩ := Loop.settle_eq conf (l.take result)
    rw [Loop.hear, heq] at hzero hreached
    exact settle_of_reached hzero hreached

/-- A result that does not say that it is definitive does not lower the counter. -/
theorem definitivesRunning_hear (conf : Config) (l : Loop) {message : Option ChkResult} (h : Unset message) :
    (l.hear conf message).definitivesRunning = l.definitivesRunning := by
  cases message with
  | none =>
    obtain ⟨b, heq, -⟩ := Loop.settle_eq conf { l with checksRunning := l.checksRunning - 1 }
    rw [Loop.hear, heq]
  | some result =>
    obtain ⟨b, heq, -⟩ := Loop.settle_eq conf (l.take result)
    rw [Loop.hear, heq]
    exact if_neg (by rw [h result rfl]; exact Bool.false_ne_true)

/-! ### A run of turns -/

/-- What holds of the loop all the time. -/
structure Inv (conf : Config) (jobs : List Job) (w : Wait) : Prop where
  /-- No message that is still to come says that it is definitive. -/
  unset : ∀ s ∈ w.submitted, ∀ message ∈ s.messages, Unset message
  /-- The checks are those that were submitted. -/
  checks : w.submitted.map Submitted.check = jobs.map Job.check
  /-- The counter is as it was. -/
  stays : w.loop.definitivesRunning = ((jobs.map Job.check).countP (·.definitive) : ℕ)
  /-- A message that has brought the weight has ended the loop, if the counter was zero. -/
  stopped : w.submitted ≠ jobs.map Job.submitted → w.loop.definitivesRunning = 0 → Reached conf w.loop →
    w.loop.definitive = true

theorem inv_init (conf : Config) (jobs : List Job) (ta : List TmoutAction) : Inv conf jobs (init jobs ta) where
  unset s hs := by
    obtain ⟨job, -, rfl⟩ := List.mem_map.mp hs
    exact (sound_sends job.check.pool job.exit).unset
  checks := List.map_map
  stays := rfl
  stopped hne := absurd rfl hne

theorem Inv.turn (h : Inv conf jobs w) (a : Arrival) : Inv conf jobs (turn conf start w a) := by
  obtain heq | ⟨ta, performed, heq⟩ | ⟨i, check, message, messages, hi, heq⟩ := turn_cases conf start w a
  · rwa [heq]
  · rw [heq]
    exact ⟨h.unset, h.checks, h.stays, h.stopped⟩
  · rw [heq]
    have hmessages := h.unset _ (List.mem_of_getElem? hi)
    refine ⟨fun s hs => ?_, ?_, ?_, fun _ => definitive_hear⟩
    · rcases List.mem_or_eq_of_mem_set hs with hs | rfl
      · exact h.unset s hs
      · exact fun m hm => hmessages m (List.mem_cons_of_mem _ hm)
    · -- the check is the one that was there
      have hcheck : (w.submitted.map Submitted.check)[i]? = some check := by rw [List.getElem?_map, hi]; rfl
      obtain ⟨hlt, hget⟩ := List.getElem?_eq_some_iff.mp hcheck
      rw [List.map_set, ← h.checks]
      exact hget ▸ List.set_getElem_self hlt
    · exact (definitivesRunning_hear conf w.loop (hmessages message List.mem_cons_self)).trans h.stays

theorem inv_run (conf : Config) (start : Timespec) (jobs : List Job) (ta : List TmoutAction) (arrivals : List Arrival) :
    Inv conf jobs (run conf start jobs ta arrivals) :=
  foldl_inv (Inv conf jobs) (fun _ a h => h.turn a) (inv_init conf jobs ta) arrivals

/-- **The counter is never lowered.** -/
theorem definitivesRunning_run (conf : Config) (start : Timespec) (jobs : List Job) (ta : List TmoutAction)
    (arrivals : List Arrival) :
    (run conf start jobs ta arrivals).loop.definitivesRunning = ((jobs.map Job.check).countP (·.definitive) : ℕ) :=
  (inv_run conf start jobs ta arrivals).stays

/-! ### The counter and the checks -/

/-- Before the first message, every definitive check is outstanding. -/
theorem tally_submitted (jobs : List Job) :
    tally Submitted.outstanding (jobs.map Job.submitted) = (jobs.map Job.check).countP (·.definitive) := by
  induction jobs with
  | nil => rfl
  | cons job jobs ih =>
    obtain ⟨partials, last, heq, hlast, -⟩ := (sound_sends job.check.pool job.exit).final
    have hany : job.submitted.messages.any isFinal = true := by
      rw [Job.submitted, heq, List.any_append, List.any_cons, hlast, Bool.true_or, Bool.or_true]
    rw [List.map_cons, tally_cons, ih, List.map_cons, List.countP_cons, Nat.add_comm, Submitted.outstanding, hany]
    simp only [Job.submitted, and_true]

/-- Without a definitive check none is outstanding. -/
theorem Inv.tally_eq_zero (h : Inv conf jobs w) (hnone : ∀ check ∈ jobs.map Job.check, check.definitive = false) :
    tally Submitted.outstanding w.submitted = 0 := by
  refine Foundation.tally_eq_zero.mpr fun s hs => if_neg fun hout => ?_
  have hmem : s.check ∈ jobs.map Job.check := h.checks ▸ List.mem_map_of_mem hs
  rw [hnone _ hmem] at hout
  exact Bool.false_ne_true hout.1

/-- An answer of a check that meets nothing of note. -/
def plain : (pool : Pool) → Exit pool
  | .dnsbl | .dnswl | .rhsbl => DnsblcExit.unasked
  | .reverse => ReverseExit.canonical true
  | .helo => HeloExit.compared true true
  | .blocker => (⟨0, none⟩ : BlockerExit)
  | .random => (1 : ℕ)
  | .spf => SpfcExit.pass

/-- Every check has been run, and meets nothing of note. -/
def plainJobs (checklist : List Check) : List Job := checklist.map fun check => ⟨check, some (plain check.pool)⟩

theorem sends_plain (pool : Pool) : ∃ result, sends pool (some (plain pool)) = [some result] ∧ result.wait = false := by
  cases pool <;> exact ⟨_, rfl, rfl⟩

theorem check_plainJobs (checklist : List Check) : (plainJobs checklist).map Job.check = checklist := by
  rw [plainJobs, List.map_map]
  exact List.map_id checklist

/-- In a turn that is in time, the message of a check is received. -/
theorem submitted_run_of_getElem? {i : ℕ} {check : Check} {message : Option ChkResult} {messages : List (Option ChkResult)}
    (conf : Config) (hi : (jobs.map Job.submitted)[i]? = some ⟨check, message :: messages⟩) :
    (run conf ⟨0, 0⟩ jobs [⟨1, none⟩] [⟨⟨0, 0⟩, some i⟩]).submitted =
      (jobs.map Job.submitted).set i ⟨check, messages⟩ := by
  have hne : jobs ≠ [] := by
    rintro rfl
    cases hi
  have hgo : (init jobs [⟨1, none⟩]).loop.ended = false := by simp [init, Loop.init, Loop.ended, hne]
  have htime : References.inTime ⟨0, 0⟩ ⟨0, 0⟩ (init jobs [⟨1, none⟩]).loop = true := rfl
  have hget : getMsgTimed ⟨0, 0⟩ (init jobs [⟨1, none⟩]) ⟨⟨0, 0⟩, some i⟩ =
      some (message, (jobs.map Job.submitted).set i ⟨check, messages⟩) := by
    rw [getMsgTimed, if_pos htime, Option.bind_some, receive, init, hi]
  rw [run, List.foldl_cons, List.foldl_nil, turn, hgo, if_neg Bool.false_ne_true, hget]

/-- When a definitive check answers, the counter is out of step. -/
theorem not_inStep_of_definitive {checklist : List Check} {check : Check} (hmem : check ∈ checklist)
    (hdef : check.definitive = true) (conf : Config) :
    ∃ i, ¬ InStep conf (plainJobs checklist) (run conf ⟨0, 0⟩ (plainJobs checklist) [⟨1, none⟩] [⟨⟨0, 0⟩, some i⟩]) := by
  obtain ⟨i, hi⟩ := List.mem_iff_getElem?.mp hmem
  obtain ⟨result, hsends, hwait⟩ := sends_plain check.pool
  have hsubmitted : ((plainJobs checklist).map Job.submitted)[i]? = some ⟨check, [some result]⟩ := by
    rw [plainJobs, List.getElem?_map, List.getElem?_map, hi, ← hsends]
    rfl
  refine ⟨i, fun h => ?_⟩
  -- the check is not outstanding any more, and the counter is as it was
  have hcounts := h.counts
  rw [definitivesRunning_run, submitted_run_of_getElem? conf hsubmitted, Int.natCast_inj, ← tally_submitted] at hcounts
  have hset := tally_set (f := Submitted.outstanding) hsubmitted ⟨check, []⟩
  have hbefore : Submitted.outstanding ⟨check, [some result]⟩ = 1 := by
    simp [Submitted.outstanding, hdef, isFinal, hwait]
  have hafter : Submitted.outstanding ⟨check, []⟩ = 0 := if_neg fun hout => Bool.false_ne_true hout.2
  omega

/-- **`definitives_running` is in step**, for all results and in any order, exactly if no registered check is
definitive. -/
theorem inStep_iff (conf : Config) (checklist : List Check) :
    (∀ jobs : List Job, jobs.map Job.check = checklist → ∀ ta start arrivals,
      InStep conf jobs (run conf start jobs ta arrivals)) ↔ ∀ check ∈ checklist, check.definitive = false := by
  constructor
  · intro h check hmem
    by_contra hdef
    obtain ⟨i, hnot⟩ := not_inStep_of_definitive hmem (eq_true_of_ne_false hdef) conf
    exact hnot (h _ (check_plainJobs checklist) _ _ _)
  · rintro hnone jobs rfl ta start arrivals
    have hinv := inv_run conf start jobs ta arrivals
    have htally := hinv.tally_eq_zero hnone
    have hzero : (run conf start jobs ta arrivals).loop.definitivesRunning = 0 := by
      rw [hinv.stays, List.countP_eq_zero.mpr fun check hmem => by rw [hnone check hmem]; exact Bool.false_ne_true]
      rfl
    refine ⟨by rw [hzero, htally]; rfl, fun hcame _ hreached => ?_⟩
    rw [Loop.ended, hinv.stopped hcame hzero hreached, Bool.true_or, Bool.true_or]

/-- One suspicion is enough. -/
def oneSuspicion : Config := ⟨1, 0, false, false, false, 5000, "", ""⟩

/-- `spf` has found a soft failure, and `dnsbl` has not answered. -/
def softfail : List Job := [⟨⟨.spf, true⟩, some SpfcExit.softfail⟩, ⟨⟨.dnsbl, false⟩, some (DnsblcExit.asked [])⟩]

/-- The only definitive check has answered and the weight is reached, but the counter says that one is running:
the loop goes on waiting. -/
theorem softfail_waits_for_dnsbl :
    let w := run oneSuspicion ⟨0, 0⟩ softfail [⟨5000, none⟩] [⟨⟨0, 0⟩, some 0⟩]
    w.loop.suspWeight = 1 ∧ tally Submitted.outstanding w.submitted = 0 ∧ w.loop.definitivesRunning = 1 ∧
      w.loop.ended = false :=
  ⟨rfl, rfl, rfl, rfl⟩

end Gross.Worker.Definitives
