import Gross.Foundation.Interleave
import Gross.Foundation.Run
import Mathlib.Data.Int.Notation

/-!
# How many threads a pool has

A pool starts with one thread. A thread that takes a job and leaves no other waiting
for the next one starts another, up to `max_thread`. The new thread counts itself when
it first gets the lock. A thread that finds the pool idle takes itself off the count
and ends.

## The model

The threads of a pool take turns; what a thread does under the pool's lock is one step.
`get_msg_timed` returns with a job if there is one, and may time out. Whether
`IDLETIME` is over, and whether the average of the idle threads, a `float`, is above
half the threads, is part of the action, and may be either.

## What is proved

* `counts_and_alive_le_iff` — the counts are right in every run; but that there are
  never more threads than `max_thread`, in runs with `n` jobs, is so exactly if `n` is
  less than `max_thread`: the test is `<=`, and a thread that is not yet counted is not
  seen by it.

## Honest scope

The watchdog is left out, and so are the jobs' results. Starting a thread does not fail
(the daemon exits if it does), and the counts do not overflow. A thread is finished when
it has taken itself off the count; what it still does is clean up.
-/

namespace Gross.Worker.ThreadPool

open Foundation

/-- Where a thread is. -/
inductive Phase where
  /-- `create_thread` has returned. -/
  | created
  /-- At the head of the loop. -/
  | looping
  /-- In `get_msg_timed`. -/
  | waiting
  /-- After it, and whether there was a job. -/
  | woken (job : Bool)
  /-- With a job, before it is known whether to start another thread. -/
  | taken
  /-- In the routine, or else in `send_result`. -/
  | working (process : Bool)
  /-- Off the count, cleaning up. -/
  | leaving
  /-- After `pthread_exit`. -/
  | gone
  deriving DecidableEq, Repr

/-- It has counted itself, and not taken itself off. -/
def Phase.counted : Phase → ℕ
  | .looping | .waiting | .woken _ | .taken | .working _ => 1
  | .created | .leaving | .gone => 0

/-- It counts as idle. -/
def Phase.idle : Phase → ℕ
  | .waiting | .woken _ => 1
  | _ => 0

/-- It is created, and not finished. -/
def Phase.alive : Phase → ℕ
  | .leaving | .gone => 0
  | _ => 1

/-- It may yet start another thread for the job it has. -/
def Phase.carries : Phase → ℕ
  | .woken true | .taken => 1
  | _ => 0

/-- The pool. -/
structure State where
  /-- The threads, in the order they were created. -/
  threads : List Phase
  /-- `count_thread` -/
  countThread : ℤ
  /-- `count_idle` -/
  countIdle : ℤ
  /-- The jobs in the queue. -/
  jobs : ℕ
  /-- The jobs there have been. -/
  submitted : ℕ
  deriving DecidableEq, Repr

/-- What `create_thread_pool` makes. -/
def start : State := ⟨[.created], 0, 0, 0, 0⟩

/-- A step of thread `i`, or a new job. -/
inductive Act where
  /-- `submit_job` -/
  | submit
  /-- The thread counts itself. -/
  | start (i : ℕ)
  /-- The head of the loop: `waited` if `IDLETIME` is over, `idling` if the average of the idle
  threads is above half the threads. -/
  | check (i : ℕ) (waited idling : Bool)
  /-- `get_msg_timed` returns with a job. -/
  | receive (i : ℕ)
  /-- It times out. -/
  | timeout (i : ℕ)
  /-- The thread does not idle any more. -/
  | unidle (i : ℕ)
  /-- The last thread to idle starts another. -/
  | spawn (i : ℕ)
  /-- The job is done. -/
  | done (i : ℕ)
  /-- `pthread_exit` -/
  | exit (i : ℕ)
  deriving DecidableEq, Repr

/-- A step. An action that is not one of its thread at the time does nothing. -/
def step (maxThread : ℤ) (s : State) : Act → State
  | .submit => { s with jobs := s.jobs + 1, submitted := s.submitted + 1 }
  | .start i =>
    match s.threads[i]? with
    | some .created => { s with threads := s.threads.set i .looping, countThread := s.countThread + 1 }
    | _ => s
  | .check i waited idling =>
    match s.threads[i]? with
    | some .looping =>
      if waited = true ∧ s.countThread > 8 ∧ idling = true then
        { s with threads := s.threads.set i .leaving, countThread := s.countThread - 1 }
      else { s with threads := s.threads.set i .waiting, countIdle := s.countIdle + 1 }
    | _ => s
  | .receive i =>
    match s.threads[i]? with
    | some .waiting =>
      if s.jobs = 0 then s else { s with threads := s.threads.set i (.woken true), jobs := s.jobs - 1 }
    | _ => s
  | .timeout i =>
    match s.threads[i]? with
    | some .waiting => { s with threads := s.threads.set i (.woken false) }
    | _ => s
  | .unidle i =>
    match s.threads[i]? with
    | some (.woken job) =>
      { s with threads := s.threads.set i (if job then .taken else .looping), countIdle := s.countIdle - 1 }
    | _ => s
  | .spawn i =>
    match s.threads[i]? with
    | some .taken =>
      if s.countIdle < 1 then
        if s.countThread ≤ maxThread ∨ maxThread = 0 then
          { s with threads := s.threads.set i (.working true) ++ [.created] }
        else { s with threads := s.threads.set i (.working false) }
      else { s with threads := s.threads.set i (.working true) }
    | _ => s
  | .done i =>
    match s.threads[i]? with
    | some (.working _) => { s with threads := s.threads.set i .looping }
    | _ => s
  | .exit i =>
    match s.threads[i]? with
    | some .leaving => { s with threads := s.threads.set i .gone }
    | _ => s

/-- How many threads have started and are not finished. -/
def State.started (s : State) : ℕ := tally Phase.counted s.threads

/-- How many are created and not finished. -/
def State.alive (s : State) : ℕ := tally Phase.alive s.threads

/-- What the counts of a pool are to say. -/
structure Counts (s : State) : Prop where
  /-- No fewer than none are idle. -/
  idle_nonneg : 0 ≤ s.countIdle
  /-- Only threads are idle. -/
  idle_le : s.countIdle ≤ s.countThread
  /-- The threads are counted. -/
  thread : s.countThread = s.started

/-! ### One step -/

/-- A thread goes from `ph` to `ph'`, and may create others. -/
structure Moves (s s' : State) (i : ℕ) (ph ph' : Phase) (new : List Phase) : Prop where
  /-- It was there. -/
  before : s.threads[i]? = some ph
  /-- It is there now. -/
  threads : s'.threads = s.threads.set i ph' ++ new
  /-- What it creates is created. -/
  fresh : ∀ ph ∈ new, ph = .created
  /-- It counts itself. -/
  thread : s'.countThread + ph.counted = s.countThread + ph'.counted
  /-- It counts itself as idle. -/
  idle : s'.countIdle + ph.idle = s.countIdle + ph'.idle
  /-- It takes a job from the queue, or uses the one it has. -/
  jobs : new.length + s'.jobs + ph'.carries ≤ s.jobs + ph.carries
  /-- No job comes. -/
  submitted : s'.submitted = s.submitted
  /-- It is not alive again. -/
  alive : ph'.alive ≤ ph.alive

section

variable {maxThread : ℤ} {s s' : State} {i : ℕ} {ph ph' : Phase}

/-- It creates none. -/
theorem Moves.alone (hi : s.threads[i]? = some ph) (hthreads : s'.threads = s.threads.set i ph')
    (hthread : s'.countThread + ph.counted = s.countThread + ph'.counted)
    (hidle : s'.countIdle + ph.idle = s.countIdle + ph'.idle) (hjobs : s'.jobs + ph'.carries ≤ s.jobs + ph.carries)
    (hsubmitted : s'.submitted = s.submitted) (halive : ph'.alive ≤ ph.alive) : Moves s s' i ph ph' [] where
  before := hi
  threads := by rw [hthreads, List.append_nil]
  fresh _ h := by cases h
  thread := hthread
  idle := hidle
  jobs := by simpa using hjobs
  submitted := hsubmitted
  alive := halive

/-- What a step can do. -/
inductive Effect (maxThread : ℤ) (s : State) (act : Act) : State → Prop where
  /-- Nothing. -/
  | none : Effect maxThread s act s
  /-- A job comes. -/
  | job : Effect maxThread s act { s with jobs := s.jobs + 1, submitted := s.submitted + 1 }
  /-- A thread moves on. It creates another only where the test has passed. -/
  | move {s' : State} {i : ℕ} {ph ph' : Phase} {new : List Phase} (h : Moves s s' i ph ph' new)
    (hnew : new ≠ [] → act = .spawn i ∧ new = [.created] ∧ (s.countThread ≤ maxThread ∨ maxThread = 0)) :
    Effect maxThread s act s'

/-- A thread moves on alone. -/
theorem Effect.alone {act : Act} (ph' : Phase) (hi : s.threads[i]? = some ph) (hthreads : s'.threads = s.threads.set i ph')
    (hthread : s'.countThread + ph.counted = s.countThread + ph'.counted)
    (hidle : s'.countIdle + ph.idle = s.countIdle + ph'.idle) (hjobs : s'.jobs + ph'.carries ≤ s.jobs + ph.carries)
    (hsubmitted : s'.submitted = s.submitted) (halive : ph'.alive ≤ ph.alive) : Effect maxThread s act s' :=
  .move (Moves.alone hi hthreads hthread hidle hjobs hsubmitted halive) fun h => absurd rfl h

/-- A thread that has a job looks for other threads that wait. -/
theorem spawn_effect (maxThread : ℤ) (s : State) (i : ℕ) :
    Effect maxThread s (.spawn i) (step maxThread s (.spawn i)) := by
  simp only [step]
  split
  · rename_i hi
    split_ifs with hidle htest
    · have hmoves : Moves s { s with threads := s.threads.set i (.working true) ++ [.created] } i .taken (.working true)
          [.created] := by
        refine ⟨hi, rfl, ?_, rfl, rfl, ?_, rfl, Nat.le_refl _⟩
        · intro ph hph
          exact List.mem_singleton.mp hph
        · simp only [List.length_singleton, Phase.carries]
          omega
      exact .move hmoves fun _ => ⟨rfl, rfl, htest⟩
    · exact .alone (.working false) hi rfl rfl rfl (Nat.le_succ _) rfl (Nat.le_refl _)
    · exact .alone (.working true) hi rfl rfl rfl (Nat.le_succ _) rfl (Nat.le_refl _)
  · exact .none

/-- **One step.** -/
theorem step_effect (maxThread : ℤ) (s : State) (act : Act) : Effect maxThread s act (step maxThread s act) := by
  cases act with
  | submit => exact .job
  | spawn i => exact spawn_effect maxThread s i
  | start i =>
    simp only [step]
    split
    · rename_i hi
      refine .alone .looping hi rfl ?_ rfl (Nat.le_refl _) rfl (Nat.le_refl _)
      simp [Phase.counted]
    · exact .none
  | check i waited idling =>
    simp only [step]
    split
    · rename_i hi
      split_ifs
      · refine .alone .leaving hi rfl ?_ rfl (Nat.le_refl _) rfl (Nat.zero_le _)
        simp [Phase.counted]
      · refine .alone .waiting hi rfl rfl ?_ (Nat.le_refl _) rfl (Nat.le_refl _)
        simp [Phase.idle]
    · exact .none
  | receive i =>
    simp only [step]
    split
    · rename_i hi
      split_ifs with hjobs
      · exact .none
      · refine .alone (.woken true) hi rfl rfl rfl ?_ rfl (Nat.le_refl _)
        simp only [Phase.carries]
        omega
    · exact .none
  | timeout i =>
    simp only [step]
    split
    · rename_i hi
      exact .alone (.woken false) hi rfl rfl rfl (Nat.le_refl _) rfl (Nat.le_refl _)
    · exact .none
  | unidle i =>
    simp only [step]
    split
    · rename_i job hi
      refine .alone (if job then .taken else .looping) hi rfl ?_ ?_ ?_ rfl ?_
      all_goals cases job <;> simp [Phase.counted, Phase.idle, Phase.carries, Phase.alive]
    · exact .none
  | done i =>
    simp only [step]
    split
    · rename_i hi
      exact .alone .looping hi rfl rfl rfl (Nat.le_refl _) rfl (Nat.le_refl _)
    · exact .none
  | exit i =>
    simp only [step]
    split
    · rename_i hi
      exact .alone .gone hi rfl rfl rfl (Nat.le_refl _) rfl (Nat.le_refl _)
    · exact .none

/-! ### The counts -/

/-- The counts are right, and there are no more threads than jobs and one. -/
structure Inv (s : State) : Prop where
  /-- The threads are counted. -/
  thread : s.countThread = s.started
  /-- The idle ones are counted. -/
  idle : s.countIdle = tally Phase.idle s.threads
  /-- Each job starts one thread at most. -/
  jobs : s.threads.length + s.jobs + tally Phase.carries s.threads ≤ 1 + s.submitted

theorem inv_start : Inv start := ⟨rfl, rfl, Nat.le_refl 1⟩

/-- What threads that are only created add to a sum. -/
theorem tally_fresh {f : Phase → ℕ} {new : List Phase} (h : ∀ ph ∈ new, ph = .created) :
    tally f new = new.length * f .created := by
  rw [← tally_const (f .created)]
  apply tally_congr
  intro ph hph
  rw [h ph hph]

/-- A sum after a thread has moved on. -/
theorem Moves.tally {new : List Phase} (h : Moves s s' i ph ph' new) (f : Phase → ℕ) :
    tally f s'.threads + f ph = tally f s.threads + f ph' + new.length * f .created := by
  rw [h.threads, tally_append, tally_fresh h.fresh]
  have hset := tally_set h.before (f := f) ph'
  omega

/-- A sum to which threads that are only created add nothing. -/
theorem Moves.tally_eq {new : List Phase} (h : Moves s s' i ph ph' new) {f : Phase → ℕ} (hf : f .created = 0) :
    Foundation.tally f s'.threads + f ph = Foundation.tally f s.threads + f ph' := by
  have hsum := h.tally f
  rwa [hf, Nat.mul_zero, Nat.add_zero] at hsum

theorem Inv.step (h : Inv s) (maxThread : ℤ) (act : Act) : Inv (step maxThread s act) := by
  have heffect := step_effect maxThread s act
  generalize ThreadPool.step maxThread s act = s' at heffect
  cases heffect with
  | none => exact h
  | job =>
    have hjobs := h.jobs
    refine ⟨h.thread, h.idle, ?_⟩
    simp only
    omega
  | @move _ i ph ph' new hmove _ =>
    have hthread := hmove.thread
    have hidle := hmove.idle
    have hjobs := hmove.jobs
    refine ⟨?_, ?_, ?_⟩
    · have hsum := hmove.tally_eq (f := Phase.counted) rfl
      have hbefore := h.thread
      rw [State.started] at hbefore ⊢
      omega
    · have hsum := hmove.tally_eq (f := Phase.idle) rfl
      have hbefore := h.idle
      omega
    · have hsum := hmove.tally_eq (f := Phase.carries) rfl
      have hbefore := h.jobs
      have hlen : s'.threads.length = s.threads.length + new.length := by
        rw [hmove.threads, List.length_append, List.length_set]
      rw [hmove.submitted, hlen]
      omega

/-- **A whole run.** -/
theorem inv_run (maxThread : ℤ) (acts : List Act) : Inv (acts.foldl (ThreadPool.step maxThread) start) :=
  foldl_inv Inv (fun _ act h => h.step maxThread act) inv_start acts

/-- There are no more idle threads than threads. -/
theorem tally_idle_le (threads : List Phase) : tally Phase.idle threads ≤ tally Phase.counted threads := by
  apply tally_mono
  intro ph _
  cases ph <;> simp [Phase.idle, Phase.counted]

/-- Nor more alive than there are. -/
theorem tally_alive_le (threads : List Phase) : tally Phase.alive threads ≤ threads.length := by
  rw [← Nat.mul_one threads.length, ← tally_const 1]
  apply tally_mono
  intro ph _
  cases ph <;> simp [Phase.alive]

theorem Inv.counts (h : Inv s) : Counts s where
  idle_nonneg := by
    rw [h.idle]
    exact Int.natCast_nonneg _
  idle_le := by
    rw [h.idle, h.thread]
    exact Int.ofNat_le.mpr (tally_idle_le s.threads)
  thread := h.thread

/-- There are no more threads than there were jobs, and the first one. -/
theorem Inv.alive_le (h : Inv s) : s.alive ≤ 1 + s.submitted := by
  have hjobs := h.jobs
  have hlen := tally_alive_le s.threads
  rw [State.alive]
  omega

end

/-! ### More threads than the maximum -/

/-- A job, which the first thread takes and finishes. -/
def round : List Act := [.submit, .check 0 false false, .receive 0, .unidle 0, .spawn 0, .done 0]

/-- The first thread starts and does `n` jobs, while the threads it creates are yet to start. -/
def rounds (n : ℕ) : List Act := .start 0 :: (List.replicate n round).flatten

/-- The pool after that. -/
def crowd (n : ℕ) : State := ⟨.looping :: List.replicate n .created, 1, 0, 0, n⟩

theorem round_crowd {maxThread : ℤ} (hmax : 1 ≤ maxThread) (n : ℕ) :
    round.foldl (step maxThread) (crowd n) = crowd (n + 1) := by
  simp [round, crowd, step, hmax, List.replicate_succ']

theorem rounds_crowd {maxThread : ℤ} (hmax : 1 ≤ maxThread) (n : ℕ) :
    (rounds n).foldl (step maxThread) start = crowd n := by
  induction n with
  | zero => rfl
  | succ n ih =>
    have hsplit : rounds (n + 1) = rounds n ++ round := by
      simp [rounds, List.replicate_succ', List.flatten_append]
    rw [hsplit, List.foldl_append, ih, round_crowd hmax]

theorem alive_crowd (n : ℕ) : (crowd n).alive = n + 1 := by
  have hfresh : ∀ ph ∈ List.replicate n Phase.created, ph = .created := fun ph hph => (List.mem_replicate.mp hph).2
  rw [State.alive, crowd, tally_cons, tally_fresh hfresh, List.length_replicate]
  simp only [Phase.alive]
  omega

/-- In every run the idle threads are no fewer than none and no more than the threads, and the
threads are counted. But no more than `max_thread` are created and not finished, in every run
with at most `n` jobs, exactly if `n` is less than `max_thread`. -/
theorem counts_and_alive_le_iff (maxThread n : ℕ) :
    (∀ acts : List Act, Counts (acts.foldl (step maxThread) start)) ∧
      ((∀ acts : List Act, (acts.foldl (step maxThread) start).submitted ≤ n →
          (acts.foldl (step maxThread) start).alive ≤ maxThread) ↔ n < maxThread) := by
  refine ⟨fun acts => (inv_run maxThread acts).counts, ?_, ?_⟩
  · intro h
    by_contra hn
    cases maxThread with
    | zero => exact absurd (h [] (Nat.zero_le n)) (by decide)
    | succ m =>
      have hrun : (rounds (m + 1)).foldl (step (m + 1 : ℕ)) start = crowd (m + 1) := rounds_crowd (by omega) (m + 1)
      have halive := h (rounds (m + 1)) (by rw [hrun]; exact Nat.le_of_not_lt hn)
      rw [hrun, alive_crowd] at halive
      omega
  · intro hn acts hjobs
    have halive := (inv_run maxThread acts).alive_le
    omega

/-- Two threads are allowed, and after two jobs there are three. -/
theorem alive_crowd_two :
    ((rounds 2).foldl (step 2) start).submitted = 2 ∧ ((rounds 2).foldl (step 2) start).alive = 3 := by
  decide

end Gross.Worker.ThreadPool
