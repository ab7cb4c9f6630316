import Gross.Utils.Time
import Gross.Foundation.Run
import Mathlib.Data.List.Perm.Basic
import Mathlib.Data.List.Nodup

/-!
# The delay queue

A delay queue is a pair of queues and a thread between them. `put_msg` puts a
message on the first, with the time; the thread waits until the message there has
been there for the delay, and passes it on to the second; `get_msg` takes from the
second. `instant_msg` puts a message on the second at once.

## The model

The calls of `put_msg` and `instant_msg` are of two steps: the message is made, with
the time it then is, and later it is put on its queue. Calls of several threads
overlap in any way. The thread peeks at the first message, looks at the clock,
sleeps, takes the message and passes it on, a step for each. `get_msg` and
`get_msg_timed` take a message if there is one, and wait, or return without one, if
there is none.

The clock goes on by itself, and never back. A sleep that is not interrupted ends
when the time asked for is over; one that is interrupted leaves a rest, and what has
passed and the rest together are no less than what was asked for.

Beside the queues the state has what came to pass: the messages in the order they
were put on each queue, those delivered, and when the thread passed one on.

## What is proved

`delayed_in_order` — of all messages put, each is in one place: the first queue, the
thread's hand, the second queue, or delivered. The messages of `put_msg` are delivered
in the order they were put. And the thread passes none on before the time it was made
plus the delay.
-/

namespace Gross.Queue.Delay

open Utils Foundation

universe u

variable {α : Type u}

/-- `msg_t` -/
structure Msg (α : Type u) where
  /-- Which one it is: no two calls make the same message. -/
  id : ℕ
  /-- `timestamp` -/
  timestamp : Timespec
  /-- Whether it is one of `put_msg`, and not of `instant_msg`. -/
  delayed : Bool
  /-- What it says. -/
  body : α
  deriving DecidableEq, Repr

/-- How the pair of queues is set up. -/
structure Conf where
  /-- `*delay_ts` -/
  delayTs : Timespec
  /-- `*impose_delay` -/
  imposeDelay : Bool
  deriving DecidableEq, Repr

/-- Where the thread is in its loop. -/
inductive Stage (α : Type u) where
  /-- Before `peek_msg_timestamp`. -/
  | peeking
  /-- After it: this is the timestamp of the first message. -/
  | peeked (msgtimestamp : Timespec)
  /-- In `nanosleep`, asked for at a time and for a time. -/
  | sleeping (since sleeptime : Timespec)
  /-- Before `get_msg_raw`. -/
  | taking
  /-- Before `put_msg_raw`, with the message. -/
  | passing (msg : Msg α)
  deriving DecidableEq, Repr

/-- The pair of queues, the thread and the clock. -/
structure State (α : Type u) where
  /-- The clock. -/
  now : Timespec
  /-- The next message to be made. -/
  next : ℕ
  /-- The messages of calls that have not yet put them on a queue. -/
  calls : List (Msg α)
  /-- `inq` -/
  inq : List (Msg α)
  /-- `outq` -/
  outq : List (Msg α)
  /-- The thread. -/
  stage : Stage α
  /-- The messages returned by `get_msg`. -/
  delivered : List (Msg α)
  /-- The messages `put_msg` has put on `inq`, in order. -/
  appended : List (Msg α)
  /-- The messages `instant_msg` has put on `outq`, in order. -/
  instant : List (Msg α)
  /-- The messages the thread has passed on, with the time it did. -/
  entered : List (Msg α × Timespec)
  deriving DecidableEq, Repr

/-- The message in the thread's hand. -/
def State.hand (s : State α) : List (Msg α) :=
  match s.stage with
  | .passing msg => [msg]
  | _ => []

/-- No message has been put. -/
def start (now : Timespec) : State α := ⟨now, 0, [], [], [], .peeking, [], [], [], []⟩

/-- A step of a thread, or of the clock. -/
inductive Act (α : Type u) where
  /-- The clock goes on. -/
  | tick (t : Timespec)
  /-- A call of `put_msg`, or else of `instant_msg`, makes its message. -/
  | stamp (delayed : Bool) (body : α)
  /-- Call `i` puts its message on the queue. -/
  | append (i : ℕ)
  /-- `get_msg`, or `get_msg_timed`. -/
  | get
  /-- The next step of the thread, if it is not asleep. -/
  | delay
  /-- `nanosleep` returns, with the rest of the time if it was interrupted. -/
  | wake (sleepleft : Option Timespec)
  deriving DecidableEq, Repr

/-- A step of `delay`, the thread. -/
def delay (conf : Conf) (s : State α) : State α :=
  match s.stage with
  | .peeking =>
    match s.inq with
    | [] => s
    | msg :: _ => { s with stage := .peeked msg.timestamp }
  | .peeked msgtimestamp =>
    if conf.imposeDelay = true ∧ (conf.delayTs.sec ≠ 0 ∨ conf.delayTs.nsec ≠ 0) then
      match tsDiff (tsSum msgtimestamp conf.delayTs) s.now with
      | some sleeptime => { s with stage := .sleeping s.now sleeptime }
      | none => { s with stage := .taking }
    else { s with stage := .taking }
  | .sleeping _ _ => s
  | .taking =>
    match s.inq with
    | [] => s
    | msg :: inq => { s with inq := inq, stage := .passing msg }
  | .passing msg => { s with outq := s.outq ++ [msg], entered := s.entered ++ [(msg, s.now)], stage := .peeking }

/-- `nanosleep` returns: at the end of the time, or else with what is left of it. -/
def wake (s : State α) (sleepleft : Option Timespec) : State α :=
  match s.stage with
  | .sleeping since sleeptime =>
    match sleepleft with
    | none => if since.ns + sleeptime.ns ≤ s.now.ns then { s with stage := .taking } else s
    | some left =>
      if since.ns + sleeptime.ns ≤ s.now.ns + left.ns then { s with stage := .sleeping s.now left } else s
  | _ => s

/-- `put_msg_raw`, of a call. -/
def append (s : State α) (i : ℕ) : State α :=
  match s.calls[i]? with
  | none => s
  | some msg =>
    let s := { s with calls := s.calls.eraseIdx i }
    if msg.delayed then { s with inq := s.inq ++ [msg], appended := s.appended ++ [msg] }
    else { s with outq := s.outq ++ [msg], instant := s.instant ++ [msg] }

/-- What a step does. -/
def step (conf : Conf) (s : State α) : Act α → State α
  | .tick t => if t.Valid ∧ s.now.ns ≤ t.ns then { s with now := t } else s
  | .stamp delayed body =>
    { s with next := s.next + 1, calls := s.calls ++ [⟨s.next, s.now, delayed, body⟩] }
  | .append i => append s i
  | .get =>
    match s.outq with
    | [] => s
    | msg :: outq => { s with outq := outq, delivered := s.delivered ++ [msg] }
  | .delay => delay conf s
  | .wake sleepleft => wake s sleepleft

/-! ### What is kept -/

variable {conf : Conf} {s : State α}

/-- When a message may be passed on. -/
def due (conf : Conf) (msg : Msg α) : ℤ := msg.timestamp.ns + conf.delayTs.ns

/-- What the thread knows of the first message of `inq`, or of the one it has: how long it
has slept so far, and will sleep yet. -/
def Stage.Knows (conf : Conf) (now : Timespec) (inq : List (Msg α)) : Stage α → Prop
  | .peeking => True
  | .peeked msgtimestamp => ∃ msg, inq.head? = some msg ∧ msgtimestamp = msg.timestamp
  | .sleeping since sleeptime => ∃ msg, inq.head? = some msg ∧ due conf msg ≤ since.ns + sleeptime.ns
  | .taking => ∃ msg, inq.head? = some msg ∧ due conf msg ≤ now.ns
  | .passing msg => due conf msg ≤ now.ns

/-- What is so all the time. -/
structure Inv (conf : Conf) (s : State α) : Prop where
  /-- The clock is a clock. -/
  now : s.now.Valid
  /-- The timestamps are those of a clock. -/
  stamps : ∀ msg ∈ s.calls ++ s.inq, msg.timestamp.Valid
  /-- Messages to be made are new. -/
  fresh : ∀ msg ∈ s.calls ++ (s.appended ++ s.instant), msg.id < s.next
  /-- No two messages are the same. -/
  nodup : ((s.calls ++ (s.appended ++ s.instant)).map Msg.id).Nodup
  /-- Those put on `inq` are of `put_msg`. -/
  delayed : ∀ msg ∈ s.appended, msg.delayed = true
  /-- The messages of `put_msg` are delivered, in `outq`, in hand and in `inq`, in that order. -/
  appended : s.appended = (s.delivered ++ s.outq).filter (·.delayed) ++ (s.hand ++ s.inq)
  /-- The messages of `instant_msg` are delivered or in `outq`. -/
  instant : s.instant = (s.delivered ++ s.outq).filter (!·.delayed)
  /-- The thread has passed on those messages of `put_msg` that are there. -/
  passed : ∀ msg ∈ s.delivered ++ s.outq, msg.delayed = true → ∃ t, (msg, t) ∈ s.entered
  /-- And it has passed none on before its time. -/
  late : ∀ p ∈ s.entered, due conf p.1 ≤ p.2.ns
  /-- The thread does not forget the delay. -/
  stage : s.stage.Knows conf s.now s.inq

/-- Time and new messages change nothing for the thread. -/
theorem Stage.Knows.mono {st : Stage α} {now now' : Timespec} {inq : List (Msg α)} (h : st.Knows conf now inq)
    (hnow : now.ns ≤ now'.ns) (msgs : List (Msg α)) : st.Knows conf now' (inq ++ msgs) := by
  cases st with
  | peeking => trivial
  | peeked msgtimestamp =>
    obtain ⟨msg, hmsg, hts⟩ := h
    exact ⟨msg, by rw [List.head?_append, hmsg, Option.some_or], hts⟩
  | sleeping since sleeptime =>
    obtain ⟨msg, hmsg, hdue⟩ := h
    exact ⟨msg, by rw [List.head?_append, hmsg, Option.some_or], hdue⟩
  | taking =>
    obtain ⟨msg, hmsg, hdue⟩ := h
    exact ⟨msg, by rw [List.head?_append, hmsg, Option.some_or], Int.le_trans hdue hnow⟩
  | passing msg => exact Int.le_trans h hnow

theorem inv_start {now : Timespec} (h : now.Valid) : Inv conf (start now : State α) :=
  ⟨h, by simp [start], by simp [start], by simp [start], by simp [start], by simp [start, State.hand], by simp [start],
    by simp [start], by simp [start], trivial⟩

theorem Inv.tick (h : Inv conf s) {t : Timespec} (ht : t.Valid) (hnow : s.now.ns ≤ t.ns) :
    Inv conf { s with now := t } := by
  refine ⟨ht, h.stamps, h.fresh, h.nodup, h.delayed, h.appended, h.instant, h.passed, h.late, ?_⟩
  have := h.stage.mono hnow []
  rwa [List.append_nil] at this

/-- A call makes its message. -/
theorem Inv.stamp (h : Inv conf s) (delayed : Bool) (body : α) :
    Inv conf { s with next := s.next + 1, calls := s.calls ++ [⟨s.next, s.now, delayed, body⟩] } := by
  have hperm : (s.calls ++ [(⟨s.next, s.now, delayed, body⟩ : Msg α)] ++ (s.appended ++ s.instant)).Perm
      (⟨s.next, s.now, delayed, body⟩ :: (s.calls ++ (s.appended ++ s.instant))) := by
    rw [List.append_assoc]
    exact List.perm_middle
  refine ⟨h.now, fun msg hmsg => ?_, fun msg hmsg => ?_, ?_, h.delayed, h.appended, h.instant, h.passed, h.late, h.stage⟩
  · simp only [List.mem_append, List.mem_singleton] at hmsg
    rcases hmsg with (hmsg | rfl) | hmsg
    · exact h.stamps msg (List.mem_append_left _ hmsg)
    · exact h.now
    · exact h.stamps msg (List.mem_append_right _ hmsg)
  · rcases List.mem_cons.mp (hperm.mem_iff.mp hmsg) with rfl | hmsg
    · exact Nat.lt_succ_self _
    · exact Nat.lt_succ_of_lt (h.fresh msg hmsg)
  · rw [(hperm.map Msg.id).nodup_iff, List.map_cons, List.nodup_cons]
    refine ⟨fun hmem => ?_, h.nodup⟩
    obtain ⟨msg, hmsg, hid⟩ := List.mem_map.mp hmem
    exact Nat.lt_irrefl _ (hid ▸ h.fresh msg hmsg)

/-- The messages made, when one of them moves from its call to the list `ys` of those put. -/
theorem perm_of_eraseIdx {calls : List (Msg α)} {i : ℕ} (hi : i < calls.length) (xs ys : List (Msg α)) :
    (calls.eraseIdx i ++ (xs ++ [calls[i]] ++ ys)).Perm (calls ++ (xs ++ ys)) := by
  have hout : (calls.eraseIdx i ++ (xs ++ [calls[i]] ++ ys)).Perm (calls[i] :: (calls.eraseIdx i ++ (xs ++ ys))) := by
    rw [List.append_assoc, ← List.append_assoc, List.singleton_append]
    refine List.perm_middle.trans ?_
    rw [List.append_assoc]
  exact hout.trans ((List.getElem_cons_eraseIdx_perm hi).append_right (xs ++ ys))

/-- Those of the messages that have been put on `outq`, when there is one more. -/
theorem State.filter_outq_concat (s : State α) (msg : Msg α) (p : Msg α → Bool) :
    (s.delivered ++ (s.outq ++ [msg])).filter p = (s.delivered ++ s.outq).filter p ++ [msg].filter p := by
  rw [← List.append_assoc, List.filter_append]

/-- A call puts its message on its queue. -/
theorem Inv.append (h : Inv conf s) (i : ℕ) : Inv conf (append s i) := by
  unfold Delay.append
  cases hcall : s.calls[i]? with
  | none => exact h
  | some msg =>
    obtain ⟨hi, rfl⟩ := List.getElem?_eq_some_iff.mp hcall
    have hstamp : (s.calls[i]).timestamp.Valid := h.stamps _ (List.mem_append_left _ (List.getElem_mem hi))
    have hsub : ∀ m ∈ s.calls.eraseIdx i, m.timestamp.Valid :=
      fun m hm => h.stamps m (List.mem_append_left _ (List.mem_of_mem_eraseIdx hm))
    have hinq : ∀ m ∈ s.inq, m.timestamp.Valid := fun m hm => h.stamps m (List.mem_append_right _ hm)
    dsimp only
    split_ifs with hdelayed
    · have hperm := perm_of_eraseIdx hi s.appended s.instant
      refine ⟨h.now, fun m hm => ?_, fun m hm => h.fresh m (hperm.mem_iff.mp hm), ?_, fun m hm => ?_, ?_, h.instant, h.passed,
        h.late, h.stage.mono (Int.le_refl _) _⟩
      · simp only [List.mem_append, List.mem_singleton] at hm
        rcases hm with hm | hm | rfl
        · exact hsub m hm
        · exact hinq m hm
        · exact hstamp
      · exact ((hperm.map Msg.id).nodup_iff).mpr h.nodup
      · rcases List.mem_append.mp hm with hm | hm
        · exact h.delayed m hm
        · rw [List.mem_singleton] at hm
          rw [hm, hdelayed]
      · rw [h.appended]
        simp only [List.append_assoc]
        rfl
    · have hperm : (s.calls.eraseIdx i ++ (s.appended ++ (s.instant ++ [s.calls[i]]))).Perm
          (s.calls ++ (s.appended ++ s.instant)) := by
        have := perm_of_eraseIdx hi (s.appended ++ s.instant) []
        simpa only [List.append_nil, List.append_assoc] using this
      refine ⟨h.now, fun m hm => ?_, fun m hm => h.fresh m (hperm.mem_iff.mp hm), ?_, h.delayed, ?_, ?_, ?_, h.late, h.stage⟩
      · rcases List.mem_append.mp hm with hm | hm
        · exact hsub m hm
        · exact hinq m hm
      · exact ((hperm.map Msg.id).nodup_iff).mpr h.nodup
      · rw [h.appended, s.filter_outq_concat]
        simp [hdelayed, State.hand]
      · rw [h.instant, s.filter_outq_concat]
        simp [hdelayed]
      · intro m hm hmd
        rw [← List.append_assoc] at hm
        rcases List.mem_append.mp hm with hm | hm
        · exact h.passed m hm hmd
        · rw [List.mem_singleton] at hm
          subst hm
          exact absurd hmd hdelayed

/-- `get_msg` takes the first message of `outq`. -/
theorem Inv.get (h : Inv conf s) {msg : Msg α} {outq : List (Msg α)} (hout : s.outq = msg :: outq) :
    Inv conf { s with outq := outq, delivered := s.delivered ++ [msg] } := by
  have hall : s.delivered ++ [msg] ++ outq = s.delivered ++ s.outq := by
    rw [hout, List.append_assoc, List.singleton_append]
  refine ⟨h.now, h.stamps, h.fresh, h.nodup, h.delayed, ?_, ?_, ?_, h.late, h.stage⟩
  · dsimp only
    rw [hall]
    exact h.appended
  · dsimp only
    rw [hall]
    exact h.instant
  · dsimp only
    rw [hall]
    exact h.passed

/-- The thread goes to another stage, without a message in its hand before or after. -/
theorem Inv.goto (h : Inv conf s) {st : Stage α} (hhand : s.hand = []) (hhand' : ({ s with stage := st } : State α).hand = [])
    (hst : st.Knows conf s.now s.inq) : Inv conf { s with stage := st } := by
  refine ⟨h.now, h.stamps, h.fresh, h.nodup, h.delayed, ?_, h.instant, h.passed, h.late, hst⟩
  rw [hhand', ← hhand]
  exact h.appended

/-- The thread compares the time of the message with the clock. -/
theorem Inv.compare (h : Inv conf s) (hdelay : conf.delayTs.Valid) (hon : conf.imposeDelay = true)
    (hne : conf.delayTs.sec ≠ 0 ∨ conf.delayTs.nsec ≠ 0) {msgtimestamp : Timespec} (hst : s.stage = .peeked msgtimestamp) :
    Inv conf (delay conf s) := by
  have hknows := h.stage
  rw [hst] at hknows
  obtain ⟨msg, hmsg, rfl⟩ := hknows
  have hvalid : msg.timestamp.Valid := h.stamps msg (List.mem_append_right _ (List.mem_of_head? hmsg))
  obtain ⟨hsum, hsumValid⟩ := ns_tsSum hvalid hdelay
  have hhand : s.hand = [] := by rw [State.hand, hst]
  simp only [delay, hst, if_pos (And.intro hon hne)]
  cases hdiff : tsDiff (tsSum msg.timestamp conf.delayTs) s.now with
  | none =>
    -- its time is over
    have hlt := lt_of_tsDiff_eq_none hsumValid h.now hdiff
    refine h.goto hhand rfl ⟨msg, hmsg, ?_⟩
    rw [due, ← hsum]
    exact Int.le_of_lt hlt
  | some sleeptime =>
    obtain ⟨hns, -⟩ := ns_of_tsDiff_eq_some hsumValid h.now hdiff
    refine h.goto hhand rfl ⟨msg, hmsg, ?_⟩
    rw [due, ← hsum]
    omega

/-- The thread takes the first message of `inq`. -/
theorem Inv.take (h : Inv conf s) (hst : s.stage = .taking) {msg : Msg α} {inq : List (Msg α)} (hinq : s.inq = msg :: inq) :
    Inv conf { s with inq := inq, stage := .passing msg } := by
  have hknows := h.stage
  rw [hst, hinq] at hknows
  obtain ⟨msg', hmsg, hdue⟩ := hknows
  obtain rfl : msg = msg' := Option.some.inj hmsg
  refine ⟨h.now, fun m hm => h.stamps m ?_, h.fresh, h.nodup, h.delayed, ?_, h.instant, h.passed, h.late, hdue⟩
  · rw [hinq]
    rcases List.mem_append.mp hm with hm | hm
    · exact List.mem_append_left _ hm
    · exact List.mem_append_right _ (List.mem_cons_of_mem _ hm)
  · have := h.appended
    rw [show s.hand = [] by rw [State.hand, hst], hinq] at this
    exact this

/-- The thread passes its message on. -/
theorem Inv.pass (h : Inv conf s) {msg : Msg α} (hst : s.stage = .passing msg) :
    Inv conf { s with outq := s.outq ++ [msg], entered := s.entered ++ [(msg, s.now)], stage := .peeking } := by
  have hknows := h.stage
  rw [hst] at hknows
  have hhand : s.hand = [msg] := by rw [State.hand, hst]
  have hdelayed : msg.delayed = true := by
    apply h.delayed
    rw [h.appended, hhand]
    exact List.mem_append_right _ (List.mem_cons_self ..)
  refine ⟨h.now, h.stamps, h.fresh, h.nodup, h.delayed, ?_, ?_, ?_, ?_, trivial⟩
  · rw [h.appended, hhand, s.filter_outq_concat]
    simp [hdelayed, State.hand]
  · rw [h.instant, s.filter_outq_concat]
    simp [hdelayed]
  · intro m hm hmd
    rw [← List.append_assoc] at hm
    rcases List.mem_append.mp hm with hm | hm
    · obtain ⟨t, ht⟩ := h.passed m hm hmd
      exact ⟨t, List.mem_append_left _ ht⟩
    · rw [List.mem_singleton] at hm
      subst hm
      exact ⟨s.now, List.mem_append_right _ (List.mem_singleton.mpr rfl)⟩
  · intro p hp
    rcases List.mem_append.mp hp with hp | hp
    · exact h.late p hp
    · rw [List.mem_singleton] at hp
      subst hp
      exact hknows

/-- A step of the thread. -/
theorem Inv.delay (h : Inv conf s) (hdelay : conf.delayTs.Valid) (hon : conf.imposeDelay = true)
    (hne : conf.delayTs.sec ≠ 0 ∨ conf.delayTs.nsec ≠ 0) : Inv conf (delay conf s) := by
  cases hst : s.stage with
  | peeking =>
    simp only [Delay.delay, hst]
    cases hinq : s.inq with
    | nil => exact h
    | cons msg inq =>
      have hpeeked : Inv conf { s with stage := .peeked msg.timestamp } :=
        h.goto (by rw [State.hand, hst]) rfl ⟨msg, by rw [hinq]; rfl, rfl⟩
      simpa only [hinq] using hpeeked
  | peeked msgtimestamp => exact h.compare hdelay hon hne hst
  | sleeping since sleeptime =>
    simp only [Delay.delay, hst]
    exact h
  | taking =>
    simp only [Delay.delay, hst]
    cases hinq : s.inq with
    | nil => exact h
    | cons msg inq => exact h.take hst hinq
  | passing msg =>
    simp only [Delay.delay, hst]
    exact h.pass hst

/-- `nanosleep` returns. -/
theorem Inv.wake (h : Inv conf s) (sleepleft : Option Timespec) : Inv conf (wake s sleepleft) := by
  cases hst : s.stage with
  | sleeping since sleeptime =>
    have hhand : s.hand = [] := by rw [State.hand, hst]
    have hknows := h.stage
    rw [hst] at hknows
    obtain ⟨msg, hmsg, hdue⟩ := hknows
    simp only [Delay.wake, hst]
    cases sleepleft with
    | none =>
      dsimp only
      split_ifs with hover
      · exact h.goto hhand rfl ⟨msg, hmsg, Int.le_trans hdue hover⟩
      · exact h
    | some left =>
      dsimp only
      split_ifs with hrest
      · exact h.goto hhand rfl ⟨msg, hmsg, Int.le_trans hdue hrest⟩
      · exact h
  | peeking | peeked msgtimestamp | taking | passing msg =>
    simp only [Delay.wake, hst]
    exact h

theorem Inv.step (h : Inv conf s) (hdelay : conf.delayTs.Valid) (hon : conf.imposeDelay = true)
    (hne : conf.delayTs.sec ≠ 0 ∨ conf.delayTs.nsec ≠ 0) (a : Act α) : Inv conf (step conf s a) := by
  cases a with
  | tick t =>
    simp only [Delay.step]
    split_ifs with ht
    · exact h.tick ht.1 ht.2
    · exact h
  | stamp delayed body => exact h.stamp delayed body
  | append i => exact h.append i
  | get =>
    simp only [Delay.step]
    cases hout : s.outq with
    | nil => exact h
    | cons msg outq => exact h.get hout
  | delay => exact h.delay hdelay hon hne
  | wake sleepleft => exact h.wake sleepleft

/-- **No message is lost or delivered twice, those of `put_msg` are delivered in order, and
none of them before its time.** -/
theorem delayed_in_order (hdelay : conf.delayTs.Valid) (hon : conf.imposeDelay = true)
    (hne : conf.delayTs.sec ≠ 0 ∨ conf.delayTs.nsec ≠ 0) {now : Timespec} (hnow : now.Valid) (acts : List (Act α)) :
    let s := acts.foldl (step conf) (start now)
    -- the messages put are in the four places, each once
    (s.delivered ++ s.outq ++ (s.hand ++ s.inq)).Perm (s.appended ++ s.instant) ∧
      ((s.appended ++ s.instant).map Msg.id).Nodup ∧
      -- those delivered of `put_msg` are the first of those put
      s.delivered.filter (·.delayed) <+: s.appended ∧
      -- the others have come to `outq` by the thread, which waited
      (∀ msg ∈ s.delivered ++ s.outq, msg.delayed = true → ∃ t, (msg, t) ∈ s.entered) ∧
      ∀ p ∈ s.entered, p.1.timestamp.ns + conf.delayTs.ns ≤ p.2.ns := by
  intro s
  have h : Inv conf s := foldl_inv (Inv conf) (fun s a hs => hs.step hdelay hon hne a) (inv_start hnow) acts
  refine ⟨?_, ?_, ?_, h.passed, h.late⟩
  · rw [h.appended, h.instant]
    -- the two kinds of messages that came to `outq`, put together again
    have hout := List.filter_append_perm (·.delayed) (s.delivered ++ s.outq)
    refine (hout.symm.append_right _).trans ?_
    rw [List.append_assoc, List.append_assoc]
    exact List.perm_append_comm.append_left _
  · exact (List.nodup_append.mp (List.map_append ▸ h.nodup)).2.1
  · rw [h.appended, List.filter_append, List.append_assoc]
    exact List.prefix_append _ _

/-- A delay of two seconds: a message made at second 5 is in nobody's hand at second 6, and is
delivered at second 7, after an interrupted sleep and another. -/
theorem delayed_in_order_two :
    let s := [Act.stamp true "digest", .append 0, .delay, .delay, .tick ⟨6, 0⟩, .wake (some ⟨1, 0⟩), .tick ⟨7, 0⟩,
      .wake none, .delay, .delay, .get].foldl (step ⟨⟨2, 0⟩, true⟩) (start ⟨5, 0⟩)
    s.delivered.map Msg.id = [0] ∧ (s.delivered ++ s.outq ++ (s.hand ++ s.inq)).Perm (s.appended ++ s.instant) ∧
      ∀ p ∈ s.entered, p.1.timestamp.ns + 2000000000 ≤ p.2.ns := by
  have hdelay : (⟨⟨2, 0⟩, true⟩ : Conf).delayTs.Valid := by decide
  have hnow : (⟨5, 0⟩ : Timespec).Valid := by decide
  have h := delayed_in_order hdelay rfl (by decide) hnow
    [Act.stamp true "digest", .append 0, .delay, .delay, .tick ⟨6, 0⟩, .wake (some ⟨1, 0⟩), .tick ⟨7, 0⟩,
      .wake none, .delay, .delay, .get]
  exact ⟨by decide, h.1, h.2.2.2.2⟩

end Gross.Queue.Delay
