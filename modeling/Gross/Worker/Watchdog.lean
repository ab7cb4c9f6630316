import Gross.Foundation.Linked
import Gross.Utils.Time
import Gross.Worker.ThreadPool

/-!
# The watchdog of a pool

A thread of a pool is to be woken with a signal if its routine hangs. Each thread has
a `watchdog_t` on its stack, with its id and when it was last seen, and these are
linked to a list, `wdlist`. A thread that begins puts its own at the head of the list.
It notes the time whenever it comes by. Once in `IDLETIME`, the thread that is at the
head of its loop goes along the list and signals those that have not been seen for more
than `watchdog_time`. A thread that ends takes its own off the list, and with its stack
it is gone.

## The model

The steps are those of `Gross.Worker.ThreadPool`, with the times that are read and with
the memory (`State`, `step`). The stack of a thread is a block that there is from when
the thread begins until it has ended. The ids of threads may be used again when a thread
has ended, but not before. `Kept` is the same pool with a list of threads in place of the
memory: who is in the loop, and when each was last seen.

## What is proved

`watchdog_run` — in every run, no thread goes along a stack that is gone, and the threads
that are signalled are those of `Kept`. On the list are the threads that have begun and
not left the loop, each once.

## Honest scope

What a thread does under the lock of the pool is one step. Whether the signal helps is left
out: `pthread_kill` has no effect here. A pool whose `watchdog_time` is 0 has no list.
-/

namespace Gross.Worker.Watchdog

open Foundation Utils ThreadPool

/-- `IDLETIME` -/
def idletime : ℤ := 1000

/-- `watchdog_t`, but for `next`. -/
structure Dog where
  /-- `last_seen` -/
  lastSeen : Timespec
  /-- `tid` -/
  tid : ℕ
  deriving DecidableEq, Repr

/-- `watchdog_t`: the rest, and `next`. -/
abbrev Block := Dog × Option Addr

/-- The list. -/
def kind : Linked Dog Block where
  link w next := (w, next)
  unlink := some
  unlink_link _ _ := rfl

/-- A step of thread `i`, or a new job, with the times that the thread reads. -/
inductive Act where
  /-- `submit_job` -/
  | submit
  /-- The thread counts itself. Its id is `tid`. -/
  | start (i tid : ℕ) (seen ref : Timespec)
  /-- The head of the loop. -/
  | check (i : ℕ) (seen now ref : Timespec) (idling : Bool)
  /-- `get_msg_timed` returns with a job. -/
  | receive (i : ℕ)
  /-- It times out. -/
  | timeout (i : ℕ)
  /-- The thread does not idle any more. -/
  | unidle (i : ℕ) (seen : Timespec)
  /-- The last thread to idle starts another. -/
  | spawn (i : ℕ)
  /-- The job is done. -/
  | done (i : ℕ)
  /-- `pthread_exit` -/
  | exit (i : ℕ)
  deriving DecidableEq, Repr

/-- What there is beside the watchdogs. -/
structure Control where
  /-- The pool. -/
  pool : ThreadPool.State
  /-- The ids of the threads that have begun and not ended. -/
  ids : List (ℕ × ℕ)
  /-- `last_idle_check` -/
  lastIdleCheck : Timespec
  /-- Who was signalled, each time that a thread looked. -/
  signals : List (List ℕ)
  deriving DecidableEq, Repr

/-- The thread is not seen. -/
def Dog.stuck (watchdogTime : ℤ) (now : Timespec) (w : Dog) : Bool := msDiff now w.lastSeen > watchdogTime

/-- `IDLETIME` is over. -/
def Control.waited (c : Control) (now : Timespec) : Bool := msDiff now c.lastIdleCheck > idletime

/-- The thread ends. -/
def Control.quits (c : Control) (now : Timespec) (idling : Bool) : Bool :=
  c.waited now && (c.pool.countThread > 8 && idling)

/-- The head of the loop, but for the watchdogs. -/
def Control.check (maxThread : ℤ) (c : Control) (i : ℕ) (now ref : Timespec) (idling : Bool)
    (signals : List (List ℕ)) : Control where
  pool := ThreadPool.step maxThread c.pool (.check i (c.waited now) idling)
  ids := c.ids
  lastIdleCheck := if c.waited now then ref else c.lastIdleCheck
  signals := signals

/-! ### The pool and its memory -/

/-- The pool. -/
structure State where
  /-- What there is beside the watchdogs. -/
  control : Control
  /-- `wdlist` -/
  wdlist : Option Addr
  /-- Where the watchdog of a thread is. -/
  frames : List (ℕ × Addr)
  deriving DecidableEq, Repr

/-- A program. -/
abbrev Prog := Mem Block

section Memory

variable (maxThread watchdogTime : ℤ)

/-- The thread notes the time. -/
def kick (s : State) (i : ℕ) (seen : Timespec) : Prog Unit :=
  if watchdogTime = 0 then pure ()
  else do
    let a ← Mem.deref (s.frames.lookup i)
    kind.modify a fun w => { w with lastSeen := seen }

/-- The thread puts its watchdog at the head of the list. -/
def enlist (s : State) (a : Addr) (seen : Timespec) (tid : ℕ) : Prog (Option Addr) :=
  if watchdogTime = 0 then pure s.wdlist
  else do
    Mem.put a (⟨seen, tid⟩, s.wdlist)
    pure (some a)

/-- The thread looks who is stuck. -/
def look (s : State) (now : Timespec) : Prog (List (List ℕ)) :=
  if s.control.waited now = true ∧ watchdogTime ≠ 0 then do
    let dogs ← kind.collect (← Mem.brk) s.wdlist
    return s.control.signals ++ [(dogs.filter (Dog.stuck watchdogTime now)).map Dog.tid]
  else pure s.control.signals

/-- The thread takes its watchdog off the list, if it is to end. -/
def takeOff (s : State) (i : ℕ) (now : Timespec) (idling : Bool) : Prog (Option Addr) :=
  if s.control.quits now idling = true ∧ watchdogTime ≠ 0 then do
    let tid ← Mem.deref (s.control.ids.lookup i)
    kind.remove (fun w => w.tid == tid) s.wdlist
  else pure s.wdlist

/-- The thread begins, with its watchdog on its stack. -/
def startThread (s : State) (i tid : ℕ) (seen ref : Timespec) : Prog State := do
  let a ← Mem.malloc (⟨⟨0, 0⟩, 0⟩, none)
  let wdlist ← enlist watchdogTime s a seen tid
  return ⟨⟨ThreadPool.step maxThread s.control.pool (.start i), (i, tid) :: s.control.ids, ref, s.control.signals⟩,
    wdlist, (i, a) :: s.frames⟩

/-- The head of the loop. -/
def checkThread (s : State) (i : ℕ) (seen now ref : Timespec) (idling : Bool) : Prog State := do
  kick watchdogTime s i seen
  let signals ← look watchdogTime s now
  let wdlist ← takeOff watchdogTime s i now idling
  return ⟨s.control.check maxThread i now ref idling signals, wdlist, s.frames⟩

/-- The stack of the thread is gone. -/
def exitThread (s : State) (i : ℕ) : Prog State := do
  let a ← Mem.deref (s.frames.lookup i)
  Mem.free a
  return ⟨{ s.control with
      pool := ThreadPool.step maxThread s.control.pool (.exit i)
      ids := s.control.ids.filter (·.1 ≠ i) },
    s.wdlist, s.frames.filter (·.1 ≠ i)⟩

/-- A step of the pool that has nothing to do with the watchdogs. -/
def State.pass (s : State) (a : ThreadPool.Act) : State :=
  { s with control := { s.control with pool := ThreadPool.step maxThread s.control.pool a } }

/-- A step. -/
def step (s : State) : Act → Prog State
  | .submit => pure (s.pass maxThread .submit)
  | .start i tid seen ref =>
    if s.control.pool.threads[i]? = some .created ∧ tid ∉ s.control.ids.map Prod.snd then
      startThread maxThread watchdogTime s i tid seen ref
    else pure s
  | .check i seen now ref idling =>
    if s.control.pool.threads[i]? = some .looping then checkThread maxThread watchdogTime s i seen now ref idling
    else pure s
  | .receive i => pure (s.pass maxThread (.receive i))
  | .timeout i => pure (s.pass maxThread (.timeout i))
  | .unidle i seen =>
    if s.control.pool.threads[i]? = some (.woken true) ∨ s.control.pool.threads[i]? = some (.woken false) then do
      kick watchdogTime s i seen
      return s.pass maxThread (.unidle i)
    else pure s
  | .spawn i => pure (s.pass maxThread (.spawn i))
  | .done i => pure (s.pass maxThread (.done i))
  | .exit i => if s.control.pool.threads[i]? = some .leaving then exitThread maxThread s i else pure s

/-- What `create_thread_pool` makes. -/
def begin : State := ⟨⟨ThreadPool.start, [], ⟨0, 0⟩, []⟩, none, []⟩

/-- A run. -/
def run (acts : List Act) : Prog State := acts.foldlM (step maxThread watchdogTime) begin

end Memory

/-! ### The pool without its memory -/

/-- The pool, with the threads that are in the loop, the newest first. -/
structure Kept where
  /-- What there is beside the watchdogs. -/
  control : Control
  /-- The threads in the loop, with their ids and when they were last seen. -/
  registry : List (ℕ × Dog)
  deriving DecidableEq, Repr

namespace Kept

/-- The thread is seen. -/
def see (registry : List (ℕ × Dog)) (i : ℕ) (seen : Timespec) : List (ℕ × Dog) :=
  registry.map fun e => if e.1 = i then (e.1, { e.2 with lastSeen := seen }) else e

variable (maxThread watchdogTime : ℤ)

/-- A step of the pool that has nothing to do with the watchdogs. -/
def pass (k : Kept) (a : ThreadPool.Act) : Kept :=
  { k with control := { k.control with pool := ThreadPool.step maxThread k.control.pool a } }

/-- The thread begins. -/
def startThread (k : Kept) (i tid : ℕ) (seen ref : Timespec) : Kept where
  control := ⟨ThreadPool.step maxThread k.control.pool (.start i), (i, tid) :: k.control.ids, ref, k.control.signals⟩
  registry := if watchdogTime = 0 then k.registry else (i, ⟨seen, tid⟩) :: k.registry

/-- The head of the loop. -/
def checkThread (k : Kept) (i : ℕ) (seen now ref : Timespec) (idling : Bool) : Kept where
  control := k.control.check maxThread i now ref idling
    (if k.control.waited now = true ∧ watchdogTime ≠ 0 then
      k.control.signals ++
        [(((see k.registry i seen).map Prod.snd).filter (Dog.stuck watchdogTime now)).map Dog.tid]
    else k.control.signals)
  registry :=
    if k.control.quits now idling = true then (see k.registry i seen).filter (·.1 ≠ i) else see k.registry i seen

/-- A step. -/
def step (k : Kept) : Act → Kept
  | .submit => k.pass maxThread .submit
  | .start i tid seen ref =>
    if k.control.pool.threads[i]? = some .created ∧ tid ∉ k.control.ids.map Prod.snd then
      k.startThread maxThread watchdogTime i tid seen ref
    else k
  | .check i seen now ref idling =>
    if k.control.pool.threads[i]? = some .looping then k.checkThread maxThread watchdogTime i seen now ref idling else k
  | .receive i => k.pass maxThread (.receive i)
  | .timeout i => k.pass maxThread (.timeout i)
  | .unidle i seen =>
    if k.control.pool.threads[i]? = some (.woken true) ∨ k.control.pool.threads[i]? = some (.woken false) then
      { k.pass maxThread (.unidle i) with registry := see k.registry i seen }
    else k
  | .spawn i => k.pass maxThread (.spawn i)
  | .done i => k.pass maxThread (.done i)
  | .exit i =>
    if k.control.pool.threads[i]? = some .leaving then
      { k with control := { k.control with
          pool := ThreadPool.step maxThread k.control.pool (.exit i)
          ids := k.control.ids.filter (·.1 ≠ i) } }
    else k

/-- What `create_thread_pool` makes. -/
def begin : Kept := ⟨⟨ThreadPool.start, [], ⟨0, 0⟩, []⟩, []⟩

/-- A run. -/
def run (acts : List Act) : Kept := acts.foldl (step maxThread watchdogTime) begin

end Kept

/-! ### Where a thread stands -/

/-- Where a thread stands. -/
inductive Standing where
  /-- It has not begun, or there is no such thread. -/
  | outside
  /-- It is in the loop. -/
  | inside
  /-- It has left the loop. -/
  | leaving
  /-- It has ended. -/
  | gone
  deriving DecidableEq, Repr

/-- Where a thread in that phase stands. -/
def standing : Option Phase → Standing
  | none | some .created => .outside
  | some .leaving => .leaving
  | some .gone => .gone
  | some _ => .inside

/-- Where thread `j` stands. -/
def at_ (s : ThreadPool.State) (j : ℕ) : Standing := standing s.threads[j]?

section Standing

variable {maxThread : ℤ} {p : ThreadPool.State} {i : ℕ} {ph : Phase}

/-- A thread moves on, and may create others. -/
theorem standing_set (hi : p.threads[i]? = some ph) (ph' : Phase) (new : List Phase) (hnew : ∀ ph ∈ new, ph = .created)
    (j : ℕ) : standing (p.threads.set i ph' ++ new)[j]? = if j = i then standing (some ph') else at_ p j := by
  obtain ⟨hlt, -⟩ := List.getElem?_eq_some_iff.mp hi
  rcases Nat.lt_or_ge j p.threads.length with hj | hj
  · rw [List.getElem?_append_left (by rwa [List.length_set]), List.getElem?_set]
    by_cases h : i = j
    · subst h
      rw [if_pos rfl, if_pos hlt, if_pos rfl]
    · rw [if_neg h, if_neg (Ne.symm h)]
      rfl
  · have hout : at_ p j = .outside := by rw [at_, List.getElem?_eq_none hj]; rfl
    rw [List.getElem?_append_right (by rwa [List.length_set]), if_neg (by omega), hout]
    cases hget : new[j - (p.threads.set i ph').length]? with
    | none => rfl
    | some ph => rw [hnew ph (List.mem_of_getElem? hget)]; rfl

/-- A thread moves on alone. -/
theorem at_set (hi : p.threads[i]? = some ph) (ph' : Phase) (j : ℕ) {q : ThreadPool.State}
    (hq : q.threads = p.threads.set i ph') : at_ q j = if j = i then standing (some ph') else at_ p j := by
  have h := standing_set hi ph' [] (by simp) j
  rw [List.append_nil] at h
  rw [at_, hq, h]

/-- A thread moves on, and stands where it stood. -/
theorem at_same (hi : p.threads[i]? = some ph) (ph' : Phase) (hph : standing (some ph') = standing (some ph)) (j : ℕ)
    {q : ThreadPool.State} (hq : q.threads = p.threads.set i ph') : at_ q j = at_ p j := by
  rw [at_set hi ph' j hq]
  split_ifs with h
  · rw [h, at_, hi, hph]
  · rfl

theorem at_start (hi : p.threads[i]? = some .created) (j : ℕ) :
    at_ (ThreadPool.step maxThread p (.start i)) j = if j = i then .inside else at_ p j := by
  refine at_set hi .looping j ?_
  simp only [ThreadPool.step, hi]

theorem at_exit (hi : p.threads[i]? = some .leaving) (j : ℕ) :
    at_ (ThreadPool.step maxThread p (.exit i)) j = if j = i then .gone else at_ p j := by
  refine at_set hi .gone j ?_
  simp only [ThreadPool.step, hi]

theorem at_check (hi : p.threads[i]? = some .looping) (waited idling : Bool) (j : ℕ) :
    at_ (ThreadPool.step maxThread p (.check i waited idling)) j =
      if (waited && (p.countThread > 8 && idling)) = true ∧ j = i then .leaving else at_ p j := by
  by_cases h : waited = true ∧ p.countThread > 8 ∧ idling = true
  · have hq : (waited && (p.countThread > 8 && idling)) = true := by simp [h]
    rw [at_set hi .leaving j (by simp only [ThreadPool.step, hi, if_pos h]), hq]
    simp [standing]
  · have hq : (waited && (p.countThread > 8 && idling)) ≠ true := by simpa using h
    rw [at_same hi .waiting rfl j (by simp only [ThreadPool.step, hi, if_neg h]), if_neg fun h => hq h.1]

/-- The other steps leave the threads where they stand. -/
def Calm : ThreadPool.Act → Prop
  | .start _ | .check .. | .exit _ => False
  | _ => True

theorem at_calm {a : ThreadPool.Act} (h : Calm a) (j : ℕ) : at_ (ThreadPool.step maxThread p a) j = at_ p j := by
  cases a with
  | submit => rfl
  | start i => cases h
  | check i waited idling => cases h
  | exit i => cases h
  | receive i =>
    simp only [ThreadPool.step]
    split
    · rename_i hi
      split_ifs
      · rfl
      · exact at_same hi (.woken true) rfl j rfl
    · rfl
  | timeout i =>
    simp only [ThreadPool.step]
    split
    · rename_i hi
      exact at_same hi (.woken false) rfl j rfl
    · rfl
  | unidle i =>
    simp only [ThreadPool.step]
    split
    · rename_i job hi
      exact at_same hi (if job then .taken else .looping) (by cases job <;> rfl) j rfl
    · rfl
  | spawn i =>
    simp only [ThreadPool.step]
    split
    · rename_i hi
      split_ifs
      · have h := standing_set hi (.working true) [.created] (by simp) j
        refine h.trans ?_
        split_ifs with hj
        · rw [hj, at_, hi]
          rfl
        · rfl
      · exact at_same hi (.working false) rfl j rfl
      · exact at_same hi (.working true) rfl j rfl
    · rfl
  | done i =>
    simp only [ThreadPool.step]
    split
    · rename_i process hi
      exact at_same hi .looping rfl j rfl
    · rfl

end Standing

/-! ### Who is in the registry -/

/-- What is so all the time. -/
structure Kept.Ok (watchdogTime : ℤ) (k : Kept) : Prop where
  /-- Each thread has one id. -/
  threads_nodup : (k.control.ids.map Prod.fst).Nodup
  /-- No id is that of two. -/
  ids_nodup : (k.control.ids.map Prod.snd).Nodup
  /-- They are those that have begun and not ended. -/
  begun : ∀ i, i ∈ k.control.ids.map Prod.fst ↔ at_ k.control.pool i = .inside ∨ at_ k.control.pool i = .leaving
  /-- In the registry are those in the loop. -/
  registered : ∀ i, i ∈ k.registry.map Prod.fst ↔ watchdogTime ≠ 0 ∧ at_ k.control.pool i = .inside
  /-- Each is there once. -/
  registry_nodup : (k.registry.map Prod.fst).Nodup
  /-- The ids are right. -/
  known : ∀ e ∈ k.registry, (e.1, e.2.tid) ∈ k.control.ids

section Ok

variable {maxThread watchdogTime : ℤ} {k : Kept}

theorem Kept.ok_begin : (Kept.begin).Ok watchdogTime where
  threads_nodup := .nil
  ids_nodup := .nil
  begun i := by
    cases i <;> simp [Kept.begin, at_, ThreadPool.start, standing]
  registered i := by
    cases i <;> simp [Kept.begin, at_, ThreadPool.start, standing]
  registry_nodup := .nil
  known _ h := absurd h List.not_mem_nil

theorem Kept.Ok.pass (h : k.Ok watchdogTime) {a : ThreadPool.Act} (ha : Calm a) : (k.pass maxThread a).Ok watchdogTime where
  threads_nodup := h.threads_nodup
  ids_nodup := h.ids_nodup
  begun i := by
    rw [Kept.pass, at_calm ha]
    exact h.begun i
  registered i := by
    rw [Kept.pass, at_calm ha]
    exact h.registered i
  registry_nodup := h.registry_nodup
  known := h.known

theorem Kept.map_fst_see (registry : List (ℕ × Dog)) (i : ℕ) (seen : Timespec) :
    (Kept.see registry i seen).map Prod.fst = registry.map Prod.fst := by
  rw [Kept.see, List.map_map]
  refine List.map_congr_left fun e _ => ?_
  simp only [Function.comp]
  split_ifs <;> rfl

/-- To be seen changes neither the threads nor the ids. -/
theorem Kept.Ok.see (h : k.Ok watchdogTime) (i : ℕ) (seen : Timespec) :
    Kept.Ok watchdogTime { k with registry := Kept.see k.registry i seen } where
  threads_nodup := h.threads_nodup
  ids_nodup := h.ids_nodup
  begun := h.begun
  registered j := by
    rw [Kept.map_fst_see]
    exact h.registered j
  registry_nodup := by
    rw [Kept.map_fst_see]
    exact h.registry_nodup
  known e he := by
    obtain ⟨e', he', rfl⟩ := List.mem_map.mp he
    have hknown := h.known e' he'
    split_ifs <;> exact hknown

theorem Kept.Ok.start (h : k.Ok watchdogTime) {i tid : ℕ} (hi : k.control.pool.threads[i]? = some .created)
    (htid : tid ∉ k.control.ids.map Prod.snd) (seen ref : Timespec) :
    (k.startThread maxThread watchdogTime i tid seen ref).Ok watchdogTime := by
  have hout : at_ k.control.pool i = .outside := by rw [at_, hi]; rfl
  have hnew : i ∉ k.control.ids.map Prod.fst := by
    rw [h.begun, hout]
    simp
  have hreg : i ∉ k.registry.map Prod.fst := by
    rw [h.registered, hout]
    simp
  refine ⟨List.nodup_cons.mpr ⟨hnew, h.threads_nodup⟩, List.nodup_cons.mpr ⟨htid, h.ids_nodup⟩, fun j => ?_, fun j => ?_, ?_, ?_⟩
  · simp only [Kept.startThread, List.map_cons, List.mem_cons, h.begun, at_start hi]
    by_cases hj : j = i <;> simp [hj]
  · have hat : at_ (ThreadPool.step maxThread k.control.pool (.start i)) j = if j = i then .inside else at_ k.control.pool j :=
      at_start hi j
    simp only [Kept.startThread]
    rw [hat]
    split_ifs with hw hj hj
    · rw [h.registered]
      simp [hw]
    · exact h.registered j
    · simp [hj, hw]
    · rw [List.map_cons, List.mem_cons, h.registered]
      simp [hj]
  · simp only [Kept.startThread]
    split_ifs
    · exact h.registry_nodup
    · exact List.nodup_cons.mpr ⟨hreg, h.registry_nodup⟩
  · intro e he
    simp only [Kept.startThread] at he ⊢
    split_ifs at he
    · exact List.mem_cons_of_mem _ (h.known e he)
    · rcases List.mem_cons.mp he with rfl | he
      · exact List.mem_cons_self
      · exact List.mem_cons_of_mem _ (h.known e he)

theorem Kept.Ok.check (h : k.Ok watchdogTime) {i : ℕ} (hi : k.control.pool.threads[i]? = some .looping)
    (seen now ref : Timespec) (idling : Bool) :
    (k.checkThread maxThread watchdogTime i seen now ref idling).Ok watchdogTime := by
  have hin : at_ k.control.pool i = .inside := by rw [at_, hi]; rfl
  have hsee := h.see i seen
  have hat : ∀ j, at_ (k.checkThread maxThread watchdogTime i seen now ref idling).control.pool j =
      if k.control.quits now idling = true ∧ j = i then .leaving else at_ k.control.pool j :=
    fun j => @at_check maxThread _ _ hi _ _ j
  refine ⟨h.threads_nodup, h.ids_nodup, fun j => ?_, fun j => ?_, ?_, ?_⟩
  · rw [hat]
    refine (h.begun j).trans ?_
    split_ifs with hq
    · simp [hq.2, hin]
    · rfl
  · rw [hat]
    simp only [Kept.checkThread]
    by_cases hq : k.control.quits now idling = true
    · rw [if_pos hq]
      by_cases hj : j = i
      · simp [hj, hq]
      · rw [if_neg fun h => hj h.2, ← hsee.registered j]
        simp [hj]
    · rw [if_neg hq, if_neg fun h => hq h.1]
      exact hsee.registered j
  · simp only [Kept.checkThread]
    split_ifs
    · exact hsee.registry_nodup.sublist (List.filter_sublist.map _)
    · exact hsee.registry_nodup
  · intro e he
    simp only [Kept.checkThread] at he
    split_ifs at he
    · exact hsee.known e (List.mem_of_mem_filter he)
    · exact hsee.known e he

theorem Kept.Ok.exit (h : k.Ok watchdogTime) {i : ℕ} (hi : k.control.pool.threads[i]? = some .leaving) :
    Kept.Ok watchdogTime { k with control := { k.control with
      pool := ThreadPool.step maxThread k.control.pool (.exit i)
      ids := k.control.ids.filter (·.1 ≠ i) } } := by
  have hleaving : at_ k.control.pool i = .leaving := by rw [at_, hi]; rfl
  refine ⟨h.threads_nodup.sublist (List.filter_sublist.map _), h.ids_nodup.sublist (List.filter_sublist.map _),
    fun j => ?_, fun j => ?_, h.registry_nodup, fun e he => ?_⟩
  · rw [at_exit hi]
    by_cases hj : j = i
    · simp [hj]
    · rw [if_neg hj, ← h.begun j]
      simp [hj]
  · rw [at_exit hi]
    refine (h.registered j).trans ?_
    split_ifs with hj
    · simp [hj, hleaving]
    · rfl
  · refine List.mem_filter.mpr ⟨h.known e he, ?_⟩
    have hin := ((h.registered e.1).mp (List.mem_map_of_mem he)).2
    rw [decide_eq_true_eq]
    rintro heq
    rw [heq, hleaving] at hin
    cases hin

theorem Kept.Ok.step (h : k.Ok watchdogTime) (a : Act) : (k.step maxThread watchdogTime a).Ok watchdogTime := by
  cases a with
  | submit => exact h.pass trivial
  | receive i => exact h.pass trivial
  | timeout i => exact h.pass trivial
  | spawn i => exact h.pass trivial
  | done i => exact h.pass trivial
  | start i tid seen ref =>
    rw [Kept.step]
    split_ifs with hi
    · exact h.start hi.1 hi.2 seen ref
    · exact h
  | check i seen now ref idling =>
    rw [Kept.step]
    split_ifs with hi
    · exact h.check hi seen now ref idling
    · exact h
  | unidle i seen =>
    rw [Kept.step]
    split_ifs with hi
    · exact (h.see i seen).pass (a := .unidle i) trivial
    · exact h
  | exit i =>
    rw [Kept.step]
    split_ifs with hi
    · exact h.exit hi
    · exact h

theorem Kept.ok_run (acts : List Act) : (Kept.run maxThread watchdogTime acts).Ok watchdogTime :=
  foldl_inv (Kept.Ok watchdogTime) (fun _ a h => h.step a) Kept.ok_begin acts

/-- Without a watchdog, no thread is in the registry. -/
theorem Kept.Ok.registry_eq_nil (h : k.Ok watchdogTime) (hw : watchdogTime = 0) : k.registry = [] := by
  refine List.eq_nil_iff_forall_not_mem.mpr fun e he => ?_
  exact ((h.registered e.1).mp (List.mem_map_of_mem he)).1 hw

end Ok

/-! ### What is where -/

theorem lookup_of_mem {β : Type} {l : List (ℕ × β)} (hl : (l.map Prod.fst).Nodup) {i : ℕ} {b : β} (h : (i, b) ∈ l) :
    l.lookup i = some b := by
  induction l with
  | nil => cases h
  | cons e l ih =>
    obtain ⟨hnew, hl⟩ := List.nodup_cons.mp hl
    rcases List.mem_cons.mp h with rfl | h
    · exact List.lookup_cons_self
    · have hne : i ≠ e.1 := fun heq => hnew (heq ▸ List.mem_map_of_mem h)
      rw [List.lookup_cons, beq_eq_false_iff_ne.mpr hne]
      exact ih hl h

theorem map_fst_filter {β : Type} (l : List (ℕ × β)) (i : ℕ) :
    (l.filter (·.1 ≠ i)).map Prod.fst = (l.map Prod.fst).filter (· ≠ i) := by
  rw [List.filter_map]
  rfl

/-- The nodes of the list, from where each entry of the registry is. -/
def nodes (reg : List (Addr × ℕ × Dog)) : List (Addr × Dog) := reg.map fun x => (x.1, x.2.2)

/-- The pool and its memory are as the registry says: the list has an entry each, at `reg`. The threads that are not
in the registry have their watchdogs off the list, at `loose`. -/
structure Rep (s : State) (k : Kept) (reg : List (Addr × ℕ × Dog)) (loose : List (ℕ × Addr × Block))
    (l : List (Addr × Block)) : Prop where
  /-- All but the watchdogs. -/
  control : s.control = k.control
  /-- The entries. -/
  registry : k.registry = reg.map Prod.snd
  /-- The list. -/
  wdlist : s.wdlist = Linked.first (nodes reg) none
  /-- Each thread that has begun has a watchdog. -/
  keys : s.frames.map Prod.fst = s.control.ids.map Prod.fst
  /-- Where they are. -/
  frames : s.frames.Perm (reg.map (fun x => (x.2.1, x.1)) ++ loose.map fun x => (x.1, x.2.1))
  /-- The memory. -/
  blocks : l.Perm (kind.blocks (nodes reg) none ++ loose.map Prod.snd)

section Rep

variable {maxThread watchdogTime : ℤ} {s : State} {k : Kept} {reg : List (Addr × ℕ × Dog)} {loose : List (ℕ × Addr × Block)}
  {l : List (Addr × Block)} {i : ℕ}

theorem rep_begin : Rep begin .begin [] [] [] := ⟨rfl, rfl, rfl, rfl, .refl _, .refl _⟩

/-- A thread of the registry, and those before and after it. -/
theorem Rep.split (h : Rep s k reg loose l) (hk : k.Ok watchdogTime) (hi : i ∈ k.registry.map Prod.fst) :
    ∃ pre a w post, reg = pre ++ (a, i, w) :: post ∧ (∀ x ∈ pre ++ post, x.2.1 ≠ i) ∧ s.frames.lookup i = some a ∧
      (i, w.tid) ∈ k.control.ids := by
  obtain ⟨e, he, rfl⟩ := List.mem_map.mp hi
  have hknown := hk.known e he
  rw [h.registry] at he
  obtain ⟨x, hx, rfl⟩ := List.mem_map.mp he
  obtain ⟨pre, post, rfl⟩ := List.append_of_mem hx
  refine ⟨pre, x.1, x.2.2, post, rfl, ?_, ?_, hknown⟩
  · have hnodup := hk.registry_nodup
    rw [h.registry, List.map_map, List.map_append, List.map_cons] at hnodup
    have hnot := (List.nodup_middle.mp hnodup)
    rw [← List.map_append] at hnot
    intro y hy heq
    exact (List.nodup_cons.mp hnot).1 (List.mem_map.mpr ⟨y, hy, heq⟩)
  · refine lookup_of_mem ?_ ?_
    · rw [h.keys, h.control]
      exact hk.threads_nodup
    · refine h.frames.mem_iff.mpr (List.mem_append_left _ (List.mem_map.mpr ⟨x, hx, rfl⟩))

theorem nodes_middle (pre post : List (Addr × ℕ × Dog)) (a : Addr) (i : ℕ) (w : Dog) :
    nodes (pre ++ (a, i, w) :: post) = nodes pre ++ (a, w) :: nodes post := by
  rw [nodes, List.map_append, List.map_cons]
  rfl

/-- The entries of others are left as they are. -/
theorem see_middle {pre post : List (Addr × ℕ × Dog)} {a : Addr} {w : Dog} (hne : ∀ x ∈ pre ++ post, x.2.1 ≠ i)
    (seen : Timespec) : Kept.see ((pre ++ (a, i, w) :: post).map Prod.snd) i seen =
      (pre ++ (a, i, { w with lastSeen := seen }) :: post).map Prod.snd := by
  have hsame : ∀ xs : List (Addr × ℕ × Dog), (∀ x ∈ xs, x.2.1 ≠ i) →
      Kept.see (xs.map Prod.snd) i seen = xs.map Prod.snd := by
    intro xs hxs
    rw [Kept.see, List.map_map]
    refine List.map_congr_left fun x hx => ?_
    simp only [Function.comp, if_neg (hxs x hx)]
  obtain ⟨hpre, hpost⟩ := List.forall_mem_append.mp hne
  rw [List.map_append, List.map_append, List.map_cons, List.map_cons, Kept.see, List.map_append, List.map_cons,
    if_pos rfl]
  exact congrArg₂ _ (hsame pre hpre) (congrArg _ (hsame post hpost))

/-- A thread of the loop notes the time. -/
theorem Rep.kick (h : Rep s k reg loose l) (hk : k.Ok watchdogTime) (hi : at_ k.control.pool i = .inside)
    (seen : Timespec) : Runs l (kick watchdogTime s i seen) fun _ l' =>
      ∃ reg', Rep s { k with registry := Kept.see k.registry i seen } reg' loose l' := by
  unfold Watchdog.kick
  split_ifs with hw
  · obtain rfl : reg = [] := List.map_eq_nil_iff.mp (h.registry.symm.trans (hk.registry_eq_nil hw))
    exact runs_pure ⟨[], h.control, by rw [h.registry]; rfl, h.wdlist, h.keys, h.frames, h.blocks⟩
  · obtain ⟨pre, a, w, post, rfl, hne, hframe, -⟩ := h.split hk ((hk.registered i).mpr ⟨hw, hi⟩)
    rw [hframe]
    refine (runs_deref a).known ?_
    refine ((Linked.runs_modify _).perm (nodes_middle pre post a i w ▸ h.blocks)).imp ?_
    intro _ l' hl'
    refine ⟨pre ++ (a, i, { w with lastSeen := seen }) :: post, h.control, ?_, ?_, h.keys, ?_, ?_⟩
    · rw [h.registry, see_middle hne]
    · rw [h.wdlist, nodes_middle, nodes_middle]
      cases pre <;> rfl
    · refine h.frames.trans (.of_eq ?_)
      rw [List.map_append, List.map_append, List.map_cons, List.map_cons]
    · rw [nodes_middle]
      exact hl'

/-- The thread sees who is stuck. -/
theorem Rep.look (h : Rep s k reg loose l) (now : Timespec) :
    Runs l (look watchdogTime s now) fun signals l' =>
      signals = (if k.control.waited now = true ∧ watchdogTime ≠ 0 then
        k.control.signals ++ [((k.registry.map Prod.snd).filter (Dog.stuck watchdogTime now)).map Dog.tid]
      else k.control.signals) ∧ l' = l := by
  unfold Watchdog.look
  rw [h.control]
  split_ifs
  · refine runs_brk.bind ?_
    rintro fuel _ ⟨rfl, hfuel⟩
    have hlen : (nodes reg).length ≤ fuel := by
      have := h.blocks.length_eq
      rw [List.length_append, Linked.length_blocks] at this
      omega
    rw [h.wdlist]
    refine (Linked.runs_collect hlen fun x hx => h.blocks.mem_iff.mpr (List.mem_append_left _ hx)).known ?_
    refine runs_pure ⟨?_, rfl⟩
    rw [h.registry, nodes, List.map_map, List.map_map]
    rfl
  · exact runs_pure ⟨rfl, rfl⟩

/-- The thread that is to end takes its own watchdog off the list, and no other. -/
theorem Rep.takeOff (h : Rep s k reg loose l) (hk : k.Ok watchdogTime) (hi : at_ k.control.pool i = .inside)
    (now : Timespec) (idling : Bool) : Runs l (takeOff watchdogTime s i now idling) fun wdlist l' => ∃ reg' loose',
      Rep { s with wdlist := wdlist }
        ⟨k.control, if k.control.quits now idling = true then k.registry.filter (·.1 ≠ i) else k.registry⟩ reg' loose' l' := by
  have hquits : s.control.quits now idling = k.control.quits now idling := by rw [h.control]
  have hids : s.control.ids = k.control.ids := by rw [h.control]
  unfold Watchdog.takeOff
  rw [hquits, hids]
  by_cases hq : k.control.quits now idling = true
  swap
  · rw [if_neg fun h => hq h.1, if_neg hq]
    exact runs_pure ⟨reg, loose, h.control, h.registry, h.wdlist, h.keys, h.frames, h.blocks⟩
  rw [if_pos hq]
  by_cases hw : watchdogTime = 0
  · obtain rfl : reg = [] := List.map_eq_nil_iff.mp (h.registry.symm.trans (hk.registry_eq_nil hw))
    rw [if_neg fun h => h.2 hw]
    exact runs_pure ⟨[], loose, h.control, by rw [h.registry]; rfl, h.wdlist, h.keys, h.frames, h.blocks⟩
  rw [if_pos ⟨hq, hw⟩]
  obtain ⟨pre, a, w, post, rfl, hne, -, hid⟩ := h.split hk ((hk.registered i).mpr ⟨hw, hi⟩)
  rw [lookup_of_mem hk.threads_nodup hid]
  refine (runs_deref w.tid).known ?_
  -- no other has the same id
  have hpre : ∀ n ∈ nodes pre, (n.2.tid == w.tid) = false := by
    intro n hn
    obtain ⟨x, hx, rfl⟩ := List.mem_map.mp hn
    refine beq_eq_false_iff_ne.mpr fun htid => hne x (List.mem_append_left _ hx) ?_
    have hx' : (x.2.1, w.tid) ∈ k.control.ids := by
      rw [← htid]
      exact hk.known x.2 (h.registry ▸ List.mem_map_of_mem (List.mem_append_left _ hx))
    exact congrArg Prod.fst (List.inj_on_of_nodup_map hk.ids_nodup hx' hid rfl)
  rw [h.wdlist, nodes_middle]
  refine ((Linked.runs_remove (b := w) hpre (beq_self_eq_true w.tid)).perm (nodes_middle pre post a i w ▸ h.blocks)).imp ?_
  rintro _ l' ⟨rfl, hl'⟩
  have hnodes : nodes (pre ++ post) = nodes pre ++ nodes post := List.map_append
  refine ⟨pre ++ post, (i, a, (w, Linked.first (nodes post) none)) :: loose, h.control, ?_, ?_, h.keys, ?_, ?_⟩
  · obtain ⟨hpre', hpost'⟩ := List.forall_mem_append.mp hne
    have hkeep : ∀ xs : List (Addr × ℕ × Dog), (∀ x ∈ xs, x.2.1 ≠ i) →
        (xs.map Prod.snd).filter (·.1 ≠ i) = xs.map Prod.snd := by
      intro xs hxs
      exact List.filter_eq_self.mpr (List.forall_mem_map.mpr fun x hx => decide_eq_true (hxs x hx))
    simp only [h.registry, List.map_append, List.map_cons, List.filter_append, hkeep pre hpre']
    rw [List.filter_cons_of_neg (by simp), hkeep post hpost']
  · rw [hnodes]
  · refine h.frames.trans ?_
    rw [List.map_append, List.map_append, List.map_cons, List.map_cons, List.append_assoc, List.append_assoc]
    exact .append_left _ List.perm_middle.symm
  · refine hl'.trans ?_
    rw [hnodes]
    exact List.perm_middle.symm

/-- A thread begins. -/
theorem Rep.start (h : Rep s k reg loose l) (tid : ℕ) (seen ref : Timespec) :
    Runs l (startThread maxThread watchdogTime s i tid seen ref) fun s' l' => ∃ reg' loose',
      Rep s' (k.startThread maxThread watchdogTime i tid seen ref) reg' loose' l' := by
  refine (runs_malloc _).bind ?_
  rintro a _ rfl
  unfold Watchdog.enlist Kept.startThread
  split_ifs with hw
  · refine runs_pure ⟨reg, (i, a, (⟨⟨0, 0⟩, 0⟩, none)) :: loose, ?_, h.registry, h.wdlist, ?_, ?_, ?_⟩
    · rw [h.control]
    · rw [List.map_cons, List.map_cons, h.keys]
    · exact (h.frames.cons _).trans List.perm_middle.symm
    · exact (h.blocks.cons _).trans List.perm_middle.symm
  · have hput : Runs ((a, ((⟨⟨0, 0⟩, 0⟩ : Dog), none)) :: l)
        (do Mem.put a ((⟨seen, tid⟩ : Dog), s.wdlist); pure (some a) : Prog (Option Addr))
        fun wdlist l' => wdlist = some a ∧ l' = (a, (⟨seen, tid⟩, s.wdlist)) :: l := by
      refine (runs_put _).seq ?_
      exact runs_pure ⟨rfl, rfl⟩
    refine hput.known ?_
    refine runs_pure ⟨(a, i, ⟨seen, tid⟩) :: reg, loose, ?_, ?_, rfl, ?_, ?_, ?_⟩
    · rw [h.control]
    · rw [List.map_cons, h.registry]
    · rw [List.map_cons, List.map_cons, h.keys]
    · exact h.frames.cons _
    · rw [h.wdlist]
      exact h.blocks.cons _

/-- The head of the loop. -/
theorem Rep.check (h : Rep s k reg loose l) (hk : k.Ok watchdogTime) (hi : at_ k.control.pool i = .inside)
    (seen now ref : Timespec) (idling : Bool) :
    Runs l (checkThread maxThread watchdogTime s i seen now ref idling) fun s' l' => ∃ reg' loose',
      Rep s' (k.checkThread maxThread watchdogTime i seen now ref idling) reg' loose' l' := by
  refine (h.kick hk hi seen).bind ?_
  rintro _ _ ⟨reg₁, h₁⟩
  refine (h₁.look now).bind ?_
  rintro signals _ ⟨rfl, rfl⟩
  refine (h₁.takeOff (hk.see i seen) hi now idling).bind ?_
  rintro wdlist l' ⟨reg₂, loose₂, h₂⟩
  refine runs_pure ⟨reg₂, loose₂, ?_, h₂.registry, h₂.wdlist, h₂.keys, h₂.frames, h₂.blocks⟩
  rw [Kept.checkThread, h.control]

/-- A thread ends, and its watchdog is not on the list. -/
theorem Rep.exit (h : Rep s k reg loose l) (hk : k.Ok watchdogTime) (hi : at_ k.control.pool i = .leaving) :
    Runs l (exitThread maxThread s i) fun s' l' => ∃ loose',
      Rep s' { k with control := { k.control with
        pool := ThreadPool.step maxThread k.control.pool (.exit i)
        ids := k.control.ids.filter (·.1 ≠ i) } } reg loose' l' := by
  have hkeys : (s.frames.map Prod.fst).Nodup := by
    rw [h.keys, h.control]
    exact hk.threads_nodup
  have hreg : ∀ x ∈ reg, x.2.1 ≠ i := by
    rintro x hx rfl
    have hin := ((hk.registered x.2.1).mp (h.registry ▸ List.mem_map_of_mem (List.mem_map_of_mem hx))).2
    rw [hi] at hin
    cases hin
  -- its watchdog is one of those that are off the list
  obtain ⟨⟨i', a, c⟩, hx, rfl⟩ : ∃ x ∈ loose, x.1 = i := by
    have hmem : i ∈ s.frames.map Prod.fst := by
      rw [h.keys, h.control]
      exact (hk.begun i).mpr (.inr hi)
    obtain ⟨e, he, rfl⟩ := List.mem_map.mp hmem
    rcases List.mem_append.mp (h.frames.mem_iff.mp he) with he | he
    · obtain ⟨x, hx, rfl⟩ := List.mem_map.mp he
      exact absurd rfl (hreg x hx)
    · obtain ⟨x, hx, rfl⟩ := List.mem_map.mp he
      exact ⟨x, hx, rfl⟩
  obtain ⟨pre, post, rfl⟩ := List.append_of_mem hx
  have hframes : s.frames.Perm ((i', a) :: (reg.map (fun x => (x.2.1, x.1)) ++ (pre ++ post).map fun x => (x.1, x.2.1))) := by
    refine h.frames.trans ?_
    rw [List.map_append, List.map_append, List.map_cons, ← List.append_assoc, ← List.append_assoc]
    exact List.perm_middle
  have hblocks : l.Perm ((a, c) :: (kind.blocks (nodes reg) none ++ (pre ++ post).map Prod.snd)) := by
    refine h.blocks.trans ?_
    rw [List.map_append, List.map_append, List.map_cons, ← List.append_assoc, ← List.append_assoc]
    exact List.perm_middle
  have hlookup : s.frames.lookup i' = some a := lookup_of_mem hkeys (hframes.mem_iff.mpr List.mem_cons_self)
  unfold Watchdog.exitThread
  rw [hlookup]
  refine (runs_deref a).known ?_
  refine (runs_free.perm hblocks).seq ?_
  refine runs_pure ⟨pre ++ post, ?_, h.registry, h.wdlist, ?_, ?_, .refl _⟩
  · rw [h.control]
  · simp only [map_fst_filter, h.keys]
  · -- no other is that of the thread
    have hothers := List.nodup_cons.mp ((hframes.map Prod.fst).nodup_iff.mp hkeys)
    refine (hframes.filter _).trans (.of_eq ?_)
    rw [List.filter_cons_of_neg (by simp), List.filter_eq_self]
    intro e he
    refine decide_eq_true fun heq => hothers.1 ?_
    rw [← heq]
    exact List.mem_map_of_mem he

/-- A step keeps the memory as the registry says. -/
theorem Rep.step (h : Rep s k reg loose l) (hk : k.Ok watchdogTime) (a : Act) :
    Runs l (step maxThread watchdogTime s a) fun s' l' => ∃ reg' loose',
      Rep s' (k.step maxThread watchdogTime a) reg' loose' l' := by
  have hpass : ∀ b, Rep (s.pass maxThread b) (k.pass maxThread b) reg loose l := fun b =>
    ⟨by rw [State.pass, Kept.pass, h.control], h.registry, h.wdlist, h.keys, h.frames, h.blocks⟩
  have hpool : s.control.pool = k.control.pool := by rw [h.control]
  cases a with
  | submit => exact runs_pure ⟨reg, loose, hpass _⟩
  | receive i => exact runs_pure ⟨reg, loose, hpass _⟩
  | timeout i => exact runs_pure ⟨reg, loose, hpass _⟩
  | spawn i => exact runs_pure ⟨reg, loose, hpass _⟩
  | done i => exact runs_pure ⟨reg, loose, hpass _⟩
  | start i tid seen ref =>
    have hids : s.control.ids = k.control.ids := by rw [h.control]
    rw [Watchdog.step, Kept.step, hpool, hids]
    split_ifs
    · exact h.start tid seen ref
    · exact runs_pure ⟨reg, loose, h⟩
  | check i seen now ref idling =>
    rw [Watchdog.step, Kept.step, hpool]
    split_ifs with hi
    · exact h.check hk (by rw [at_, hi]; rfl) seen now ref idling
    · exact runs_pure ⟨reg, loose, h⟩
  | unidle i seen =>
    rw [Watchdog.step, Kept.step, hpool]
    split_ifs with hi
    · have hin : at_ k.control.pool i = .inside := by
        rw [at_]
        rcases hi with hi | hi <;> rw [hi] <;> rfl
      refine (h.kick hk hin seen).bind ?_
      rintro _ l' ⟨reg', h'⟩
      exact runs_pure ⟨reg', loose, by rw [State.pass, Kept.pass, h.control], h'.registry, h'.wdlist, h'.keys, h'.frames,
        h'.blocks⟩
    · exact runs_pure ⟨reg, loose, h⟩
  | exit i =>
    rw [Watchdog.step, Kept.step, hpool]
    split_ifs with hi
    · refine (h.exit hk (by rw [at_, hi]; rfl)).imp ?_
      rintro _ l' ⟨loose', h'⟩
      exact ⟨reg, loose', h'⟩
    · exact runs_pure ⟨reg, loose, h⟩

theorem Rep.run (h : Rep s k reg loose l) (hk : k.Ok watchdogTime) (acts : List Act) :
    Runs l (acts.foldlM (Watchdog.step maxThread watchdogTime) s) fun s' l' => ∃ reg' loose',
      Rep s' (acts.foldl (Kept.step maxThread watchdogTime) k) reg' loose' l' := by
  induction acts generalizing s k reg loose l with
  | nil => exact runs_pure ⟨reg, loose, h⟩
  | cons a acts ih =>
    rw [List.foldlM_cons]
    refine (h.step hk a).bind ?_
    rintro s' l' ⟨reg', loose', h'⟩
    exact ih h' (hk.step a)

end Rep

/-- **The watchdogs of a pool**: in every run of its threads, no thread reads or writes a stack that is gone, and what
is done and who is signalled is what the registry says. The list has the watchdogs of the threads that are in the
loop, each once; and the stacks that there are are those of the threads that have begun and not ended. -/
theorem watchdog_run (maxThread watchdogTime : ℤ) (acts : List Act) :
    let k := Kept.run maxThread watchdogTime acts
    ∃ s arena l, run maxThread watchdogTime acts Arena.empty = .ok (s, arena) ∧ Owns arena l ∧ s.control = k.control ∧
      (∃ arena', kind.collect arena.brk s.wdlist arena = .ok (k.registry.map Prod.snd, arena')) ∧
      (∀ i, i ∈ k.registry.map Prod.fst ↔ watchdogTime ≠ 0 ∧ at_ k.control.pool i = .inside) ∧
      (k.registry.map Prod.fst).Nodup ∧ (s.frames.map Prod.snd).Perm (l.map Prod.fst) ∧
      ∀ i, i ∈ s.frames.map Prod.fst ↔ at_ k.control.pool i = .inside ∨ at_ k.control.pool i = .leaving := by
  intro k
  have hk : k.Ok watchdogTime := Kept.ok_run acts
  obtain ⟨s, arena, l, hrun, howns, reg, loose, h⟩ := @Rep.run maxThread watchdogTime _ _ _ _ _ rep_begin Kept.ok_begin acts
    Arena.empty [] owns_empty
  rw [List.append_nil] at howns
  have hperm : (l.map Prod.fst).Perm (reg.map Prod.fst ++ loose.map fun x => x.2.1) := by
    refine (h.blocks.map Prod.fst).trans (.of_eq ?_)
    rw [List.map_append, Linked.map_fst_blocks, nodes, List.map_map, List.map_map]
    rfl
  refine ⟨s, arena, l, hrun, howns, h.control, ?_, hk.registered, hk.registry_nodup, ?_, fun i => ?_⟩
  · have hlen : (nodes reg).length ≤ arena.brk := by
      have hle := howns.length_le
      rw [h.blocks.length_eq, List.length_append, Linked.length_blocks] at hle
      omega
    have hcollect := Linked.runs_collect hlen fun x hx => h.blocks.mem_iff.mpr (List.mem_append_left _ hx)
    obtain ⟨_, arena', _, hread, -, rfl, -⟩ := hcollect arena [] (by rwa [List.append_nil])
    refine ⟨arena', ?_⟩
    rw [h.wdlist, hread, show k.registry = reg.map Prod.snd from h.registry, nodes, List.map_map, List.map_map]
    rfl
  · refine ((h.frames.map Prod.snd).trans (.of_eq ?_)).trans hperm.symm
    rw [List.map_append, List.map_map, List.map_map]
    rfl
  · rw [h.keys, h.control]
    exact hk.begun i

end Gross.Worker.Watchdog
