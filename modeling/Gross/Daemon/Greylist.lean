import Gross.Bloom.Manager
import Gross.Queue.Delay
import Gross.Worker.Repeat

/-!
# Greylisting

A sender that is not known is told to come again later, and is let through when it does. What
makes this so is spread over the daemon: a call of `test_tuple` reads the filter and puts an update
on the delay queue, the delay thread passes the update on when its time has come, `bloommgr`
inserts it, and the main loop sees to it that old updates are rotated out of the filter. Here
these threads run together.

## The model

The delay queue is that of `Gross.Queue.Delay`, with its thread and its clock, the filter that of
`Gross.Bloom.Manager`, and a call of `test_tuple` is that of `Gross.Worker.TestTuple`, for any digest:
it reads the filter when it begins and again when it decides, and at its end calls `put_msg`.
The receiver of the peer's digests puts updates on the queue as well. Any step of any of them may
come next (`Act`). Beside what the source has, the state has the messages that `bloommgr` has carried
out, and each call when it read the filter to decide.

## What is proved

* `matched_late` — no call finds its digest in the filter too early: each of its bits comes from an
  update that was put at least the delay before.
* `not_greyed_again` — once `bloommgr` has inserted a digest, no call that has not decided by then
  is told to come again later, as long as the clock that `rotate()` reads is not past the window.
* `updates_accounted` — each call that is to put an update puts one, of its own, and all
  updates put are in one place: on the way, or carried out.

## Honest scope

No filters are received from a peer. What `bloommgr` inserts for a digest of the peer is what it finds
in its buffer, and need not be what was sent (`Gross.Sync.Receive`); the digest in `recvOperSync` is the
one that it finds. The calls are for digests: how the digest of a
request is made, and that `grey_mask` refuses some addresses, is left out. The clock of the delay
queue and the one that `rotate()` reads are two.
-/

namespace Gross.Daemon

open Foundation Foundation.Window Bloom Utils Worker Queue

/-- A message of the update queue. -/
inductive Message where
  /-- `UPDATE` -/
  | update (digest : Digest)
  /-- `UPDATE_OPER` -/
  | updateOper (digest : Digest)
  /-- `ROTATE` -/
  | rotate
  deriving DecidableEq, Repr

/-- What `bloommgr` is told to do; `rotate()` reads the clock. -/
def Message.command (clock : Clock) : Message → Command
  | .update d => .update d
  | .updateOper d => .updateOper d
  | .rotate => .rotate clock

/-- The digest that is to be inserted. -/
def Message.digest? : Message → Option Digest
  | .update d | .updateOper d => some d
  | .rotate => none

/-- How the daemon is set up. -/
structure Setup where
  /-- `config` -/
  conf : Config
  /-- `checklist` -/
  checklist : List Check
  /-- The update queue. -/
  delay : Delay.Conf
  /-- `rotate_interval` -/
  rotateInterval : ℤ
  /-- `num_bufs` -/
  numBufs : ℕ

/-- Where a call of `test_tuple` is. When it has decided, `read` is when it read the filter for it. -/
inductive Call where
  /-- Before the filter is read. -/
  | entered
  /-- The checks have been asked. -/
  | waiting
  /-- It has decided. -/
  | decided (decision : Decision) (entry : QuerylogEntry) (read : Timespec)
  /-- It is in `put_msg`, with the message of this number. -/
  | putting (id : ℕ) (final : Final) (read : Timespec)
  /-- It has returned, and has put a message or not. -/
  | returned (id : Option ℕ) (final : Final) (read : Timespec)
  deriving DecidableEq, Repr

/-- What has been decided, and when the filter was read for it. -/
def Call.verdict? : Call → Option (Status × Timespec)
  | .entered | .waiting => none
  | .decided decision _ read => some (decision.retvalue, read)
  | .putting _ final read | .returned _ final read => some (final.entry.action, read)

/-- The daemon. -/
structure State where
  /-- `update_q`, the delay thread and the clock. -/
  queue : Delay.State Message
  /-- The message that `bloommgr` has taken. -/
  hand : Option (Delay.Msg Message)
  /-- The messages that `bloommgr` has carried out. -/
  executed : List (Delay.Msg Message)
  /-- What `bloommgr` works on. -/
  bloom : Ctx
  /-- The calls, in the order they began, each with its digest. -/
  calls : List (Digest × Call)
  deriving DecidableEq, Repr

/-- A step of one of the threads. -/
inductive Act where
  /-- The clock goes on. -/
  | tick (t : Timespec)
  /-- A call begins. -/
  | enter (digest : Digest)
  /-- Call `i` reads the filter, and may decide by it alone. -/
  | look (i : ℕ)
  /-- The loop of call `i` is over, and the call decides. -/
  | conclude (i : ℕ) (e : Repeat.Evaluation)
  /-- Call `i` calls `put_msg`, or returns if there is nothing to put. -/
  | put (i : ℕ)
  /-- `put_msg_raw`, of whichever thread. -/
  | append (j : ℕ)
  /-- Call `i` returns from `put_msg`. -/
  | leave (i : ℕ)
  /-- `recv_oper_sync` calls `put_msg`, with what `bloommgr` will take for this digest. -/
  | recvOperSync (digest : Digest)
  /-- The main loop looks at the clock. -/
  | main (time : ℤ)
  /-- A step of the delay thread. -/
  | delay
  /-- `nanosleep` of the delay thread returns. -/
  | wake (sleepleft : Option Timespec)
  /-- `bloommgr` takes a message. -/
  | get
  /-- `bloommgr` does what the message says. -/
  | manage (clock : Clock)
  deriving DecidableEq, Repr

section Steps

variable (setup : Setup)

/-- The start of a call. -/
def looked (seen : Bool) (now : Timespec) : Call :=
  match shortcut setup.conf setup.checklist seen with
  | some decision => .decided decision ⟨0, [], .grey⟩ now
  | none => .waiting

/-- The end of a call that has decided: what it puts on the queue. -/
def leaving (s : State) (i : ℕ) (d : Digest) (final : Final) (read : Timespec) : State :=
  if final.update then
    { s with
      queue := Delay.step setup.delay s.queue (.stamp true (.update d))
      calls := s.calls.set i (d, .putting s.queue.next final read) }
  else { s with calls := s.calls.set i (d, .returned none final read) }

/-- What a step does. -/
def step (s : State) : Act → Except Fault State
  | .tick t => .ok { s with queue := Delay.step setup.delay s.queue (.tick t) }
  | .enter d => .ok { s with calls := s.calls ++ [(d, .entered)] }
  | .look i =>
    match s.calls[i]? with
    | some (d, .entered) => do
      let seen ← isInRingQueue s.bloom.filter d
      return { s with calls := s.calls.set i (d, looked setup seen s.queue.now) }
    | _ => .ok s
  | .conclude i e =>
    match s.calls[i]? with
    | some (d, .waiting) =>
      let l := e.loop setup.conf setup.checklist
      if l.ended then do
        let seen ← isInRingQueue s.bloom.filter d
        return { s with calls := s.calls.set i (d, .decided (l.verdict setup.conf seen) l.entry s.queue.now) }
      else .ok s
    | _ => .ok s
  | .put i =>
    match s.calls[i]? with
    | some (d, .decided decision entry read) => .ok (leaving setup s i d (finish setup.conf decision entry) read)
    | _ => .ok s
  | .append j => .ok { s with queue := Delay.step setup.delay s.queue (.append j) }
  | .leave i =>
    match s.calls[i]? with
    | some (d, .putting id final read) =>
      -- `put_msg` returns when the message is on the queue
      if id ∈ s.queue.calls.map Delay.Msg.id then .ok s
      else .ok { s with calls := s.calls.set i (d, .returned (some id) final read) }
    | _ => .ok s
  | .recvOperSync d => .ok { s with queue := Delay.step setup.delay s.queue (.stamp true (.updateOper d)) }
  | .main time =>
    if time - s.bloom.lastRotate > s.bloom.rotateInterval then
      -- `instant_msg`
      .ok { s with queue := Delay.step setup.delay s.queue (.stamp false .rotate) }
    else .ok s
  | .delay => .ok { s with queue := Delay.step setup.delay s.queue .delay }
  | .wake sleepleft => .ok { s with queue := Delay.step setup.delay s.queue (.wake sleepleft) }
  | .get =>
    match s.hand, s.queue.outq with
    | none, msg :: _ => .ok { s with queue := Delay.step setup.delay s.queue .get, hand := some msg }
    | _, _ => .ok s
  | .manage clock =>
    match s.hand with
    | none => .ok s
    | some msg => do
      let bloom ← s.bloom.execute (msg.body.command clock)
      return { s with hand := none, executed := s.executed ++ [msg], bloom := bloom }

/-- A run. -/
def run (s : State) (acts : List Act) : Except Fault State := acts.foldlM (step setup) s

end Steps

/-- The daemon as it starts: nothing is on the queue, and no call has begun. -/
def start (setup : Setup) (now : Timespec) (filter : BloomRingQueue) (lastRotate : ℤ) (syncGuard : ℕ) : State :=
  ⟨Delay.start now, none, [], ⟨setup.rotateInterval, setup.numBufs, filter, lastRotate, syncGuard⟩, []⟩

/-! ### What a step of the queue does -/

section Queue

variable {conf : Delay.Conf} {q : Delay.State Message}

/-- The messages made so far, put on a queue or not. -/
def made (q : Delay.State Message) : List (Delay.Msg Message) := q.calls ++ (q.appended ++ q.instant)

/-- A step of the delay thread: it goes on, or passes its message on. -/
theorem delay_eq (conf : Delay.Conf) (q : Delay.State Message) :
    (∃ inq stage, Delay.delay conf q = { q with inq := inq, stage := stage }) ∨
      ∃ msg, Delay.delay conf q =
        { q with outq := q.outq ++ [msg], entered := q.entered ++ [(msg, q.now)], stage := .peeking } := by
  unfold Delay.delay
  split
  · split
    · exact .inl ⟨_, _, rfl⟩
    · exact .inl ⟨_, _, rfl⟩
  · split_ifs
    · split
      · exact .inl ⟨_, _, rfl⟩
      · exact .inl ⟨_, _, rfl⟩
    · exact .inl ⟨_, _, rfl⟩
  · exact .inl ⟨_, _, rfl⟩
  · split
    · exact .inl ⟨_, _, rfl⟩
    · exact .inl ⟨_, _, rfl⟩
  · exact .inr ⟨_, rfl⟩

theorem wake_eq (q : Delay.State Message) (sleepleft : Option Timespec) :
    ∃ stage, Delay.wake q sleepleft = { q with stage := stage } := by
  unfold Delay.wake
  split
  · split
    · split_ifs
      · exact ⟨_, rfl⟩
      · exact ⟨_, rfl⟩
    · split_ifs
      · exact ⟨_, rfl⟩
      · exact ⟨_, rfl⟩
  · exact ⟨_, rfl⟩

/-- What a step of the queue can do. -/
structure Grows (q : Delay.State Message) (a : Delay.Act Message) (q' : Delay.State Message) : Prop where
  /-- The clock does not go back. -/
  now : q.now.ns ≤ q'.now.ns
  /-- What was put stays put. -/
  appended : ∀ msg ∈ q.appended, msg ∈ q'.appended
  /-- The thread dates what it passes on. -/
  entered : ∀ p ∈ q'.entered, p ∈ q.entered ∨ p.2.ns ≤ q.now.ns
  /-- Messages are made by `put_msg` and `instant_msg`, and none is forgotten. -/
  made : ∀ msg, msg ∈ made q' ↔
    msg ∈ made q ∨ ∃ delayed body, a = .stamp delayed body ∧ msg = ⟨q.next, q.now, delayed, body⟩
  /-- Only `bloommgr` takes messages from the queue. -/
  delivered : a ≠ .get → q'.delivered = q.delivered

/-- **Every step of the queue**. -/
theorem grows_step (q : Delay.State Message) (a : Delay.Act Message) : Grows q a (Delay.step conf q a) := by
  cases a with
  | tick t =>
    simp only [Delay.step]
    split_ifs with ht
    · exact ⟨ht.2, fun _ h => h, fun _ h => .inl h, by simp [made], fun _ => rfl⟩
    · exact ⟨Int.le_refl _, fun _ h => h, fun _ h => .inl h, by simp, fun _ => rfl⟩
  | stamp delayed body =>
    refine ⟨Int.le_refl _, fun _ h => h, fun _ h => .inl h, fun msg => ?_, fun _ => rfl⟩
    simp only [Delay.step, made, List.mem_append, List.mem_singleton, Delay.Act.stamp.injEq]
    constructor
    · rintro ((h | rfl) | h)
      · exact .inl (.inl h)
      · exact .inr ⟨_, _, ⟨rfl, rfl⟩, rfl⟩
      · exact .inl (.inr h)
    · rintro ((h | h) | ⟨_, _, ⟨rfl, rfl⟩, rfl⟩)
      · exact .inl (.inl h)
      · exact .inr h
      · exact .inl (.inr rfl)
  | append j =>
    simp only [Delay.step, Delay.append]
    cases hcall : q.calls[j]? with
    | none => exact ⟨Int.le_refl _, fun _ h => h, fun _ h => .inl h, by simp, fun _ => rfl⟩
    | some m =>
      -- a message that is put is one that was made
      obtain ⟨hj, rfl⟩ := List.getElem?_eq_some_iff.mp hcall
      dsimp only
      split_ifs
      · refine ⟨Int.le_refl _, fun _ h => List.mem_append_left _ h, fun _ h => .inl h, fun msg => ?_, fun _ => rfl⟩
        exact (Delay.perm_of_eraseIdx hj q.appended q.instant).mem_iff.trans (by simp [made])
      · refine ⟨Int.le_refl _, fun _ h => h, fun _ h => .inl h, fun msg => ?_, fun _ => rfl⟩
        have hperm := Delay.perm_of_eraseIdx hj (q.appended ++ q.instant) []
        simp only [List.append_nil, List.append_assoc] at hperm
        exact hperm.mem_iff.trans (by simp [made])
  | get =>
    simp only [Delay.step]
    cases q.outq <;> exact ⟨Int.le_refl _, fun _ h => h, fun _ h => .inl h, by simp [made], fun h => absurd rfl h⟩
  | delay =>
    simp only [Delay.step]
    obtain ⟨inq, stage, heq⟩ | ⟨msg, heq⟩ := delay_eq conf q
    · rw [heq]
      exact ⟨Int.le_refl _, fun _ h => h, fun _ h => .inl h, by simp [made], fun _ => rfl⟩
    · rw [heq]
      refine ⟨Int.le_refl _, fun _ h => h, fun p hp => ?_, by simp [made], fun _ => rfl⟩
      rcases List.mem_append.mp hp with hp | hp
      · exact .inl hp
      · rw [List.mem_singleton.mp hp]
        exact .inr (Int.le_refl _)
  | wake sleepleft =>
    simp only [Delay.step]
    obtain ⟨stage, heq⟩ := wake_eq q sleepleft
    rw [heq]
    exact ⟨Int.le_refl _, fun _ h => h, fun _ h => .inl h, by simp [made], fun _ => rfl⟩

end Queue

/-! ### What is kept -/

/-- The queue delays what is put on it. -/
structure Setup.Delays (setup : Setup) : Prop where
  /-- The delay is a time. -/
  valid : setup.delay.delayTs.Valid
  /-- It is imposed. -/
  imposed : setup.delay.imposeDelay = true
  /-- It is not zero. -/
  ne_zero : setup.delay.delayTs.sec ≠ 0 ∨ setup.delay.delayTs.nsec ≠ 0

/-- Bit `n` is one of an update that was put on the queue, the delay before `t` or earlier. -/
def Heard (setup : Setup) (nb : ℕ) (q : Delay.State Message) (t : Timespec) (n : ℕ) : Prop :=
  ∃ msg ∈ q.appended, ∃ d, msg.body.digest? = some d ∧ n ∈ maskedIndices (bitMask nb) d ∧
    Delay.due setup.delay msg ≤ t.ns

/-- The message of a call. -/
def Call.id? : Call → Option ℕ
  | .putting id _ _ => some id
  | .returned id _ _ => id
  | _ => none

/-- What is known of a call. -/
structure CallOk (setup : Setup) (nb : ℕ) (q : Delay.State Message) (c : Digest × Call) : Prop where
  /-- A digest that was found had been heard of. -/
  matched : ∀ t, c.2.verdict? = some (.matched, t) → ∀ n ∈ maskedIndices (bitMask nb) c.1, Heard setup nb q t n
  /-- Its message is an update. -/
  message : ∀ id, c.2.id? = some id → ∃ msg ∈ made q, msg.id = id ∧ msg.delayed = true ∧ msg.body = .update c.1
  /-- In `put_msg` there is something to put. -/
  putting : ∀ id final read, c.2 = .putting id final read → final.update = true
  /-- When it has returned, the message has been put, if there is one. -/
  returned : ∀ id final read, c.2 = .returned id final read →
    if final.update then ∃ msg ∈ q.appended, id = some msg.id ∧ msg.body = .update c.1 else id = none

/-- No two calls have the same message. -/
def Own (calls : List (Digest × Call)) : Prop :=
  ∀ (i j : ℕ) (ci cj : Digest × Call) (id : ℕ), calls[i]? = some ci → calls[j]? = some cj → ci.2.id? = some id →
    cj.2.id? = some id → i = j

/-- What is so all the time, with filters of `2 ^ nb` bits. -/
structure Inv (setup : Setup) (nb : ℕ) (s : State) : Prop where
  /-- The queue. -/
  queue : Delay.Inv setup.delay s.queue
  /-- What was passed on was passed on by now. -/
  entered : ∀ p ∈ s.queue.entered, p.2.ns ≤ s.queue.now.ns
  /-- Only rotations are not delayed. -/
  rotates : ∀ msg ∈ made s.queue, msg.delayed = false → msg.body = .rotate
  /-- What was taken from the queue has been carried out, or is in the hand of `bloommgr`. -/
  delivered : s.queue.delivered = s.executed ++ s.hand.toList
  /-- `num_bufs` and `rotate_interval` stay as they are. -/
  conf : s.bloom.numBufs = setup.numBufs ∧ s.bloom.rotateInterval = setup.rotateInterval
  /-- The ring has a history of messages that have been carried out. -/
  ring : ∃ (r : Ring setup.numBufs nb) (es : List (Event Digest)), s.bloom.filter = r.brq ∧ r.Tracks es ∧
    ∀ d, .insert d ∈ es → ∃ msg ∈ s.executed, msg.body.digest? = some d
  /-- The calls. -/
  calls : ∀ c ∈ s.calls, CallOk setup nb s.queue c
  /-- The messages of the calls. -/
  own : Own s.calls

section Kept

variable {setup : Setup} {nb : ℕ} {s : State}

section Grows

variable {q q' : Delay.State Message} {a : Delay.Act Message} (hg : Grows q a q')

include hg

theorem Grows.heard {t : Timespec} {n : ℕ} (h : Heard setup nb q t n) : Heard setup nb q' t n := by
  obtain ⟨msg, hmsg, hrest⟩ := h
  exact ⟨msg, hg.appended msg hmsg, hrest⟩

theorem Grows.callOk {c : Digest × Call} (h : CallOk setup nb q c) : CallOk setup nb q' c where
  matched t ht n hn := hg.heard (h.matched t ht n hn)
  message id hid := by
    obtain ⟨msg, hmsg, hrest⟩ := h.message id hid
    exact ⟨msg, (hg.made msg).mpr (.inl hmsg), hrest⟩
  putting := h.putting
  returned id final read hc := by
    have hret := h.returned id final read hc
    split_ifs at hret ⊢
    · obtain ⟨msg, hmsg, hrest⟩ := hret
      exact ⟨msg, hg.appended msg hmsg, hrest⟩
    · exact hret

theorem Grows.entered_le (h : ∀ p ∈ q.entered, p.2.ns ≤ q.now.ns) (p : Delay.Msg Message × Timespec) (hp : p ∈ q'.entered) :
    p.2.ns ≤ q'.now.ns := by
  rcases hg.entered p hp with hp | hp
  · exact Int.le_trans (h p hp) hg.now
  · exact Int.le_trans hp hg.now

end Grows

/-- The numbers of the messages of calls have been given out. -/
theorem Inv.id_lt (h : Inv setup nb s) {c : Digest × Call} (hc : c ∈ s.calls) {id : ℕ} (hid : c.2.id? = some id) :
    id < s.queue.next := by
  obtain ⟨msg, hmsg, rfl, -⟩ := (h.calls c hc).message id hid
  exact h.queue.fresh msg hmsg

/-- What is at a place after one place is written. -/
theorem getElem?_set_cases {calls : List (Digest × Call)} {i j : ℕ} {c c' : Digest × Call}
    (h : (calls.set i c)[j]? = some c') : i = j ∧ c' = c ∨ i ≠ j ∧ calls[j]? = some c' := by
  by_cases hij : i = j
  · subst hij
    rw [List.getElem?_set_self'] at h
    obtain ⟨-, -, rfl⟩ := Option.map_eq_some_iff.mp h
    exact .inl ⟨rfl, rfl⟩
  · rw [List.getElem?_set_ne hij] at h
    exact .inr ⟨hij, h⟩

/-- A call goes on; its message is its own. -/
theorem Own.set {calls : List (Digest × Call)} (h : Own calls) {i : ℕ} {c : Digest × Call}
    (hc : ∀ id, c.2.id? = some id → ∀ (j : ℕ) (cj : Digest × Call), calls[j]? = some cj → cj.2.id? = some id → j = i) :
    Own (calls.set i c) := by
  intro j k cj ck id hj hk hcj hck
  rcases getElem?_set_cases hj with ⟨rfl, rfl⟩ | ⟨-, hj'⟩
  · rcases getElem?_set_cases hk with ⟨rfl, -⟩ | ⟨-, hk'⟩
    · rfl
    · exact (hc id hcj k ck hk' hck).symm
  · rcases getElem?_set_cases hk with ⟨rfl, rfl⟩ | ⟨-, hk'⟩
    · exact hc id hck j cj hj' hcj
    · exact h j k cj ck id hj' hk' hcj hck

/-- A call that begins has no message. -/
theorem Own.enter {calls : List (Digest × Call)} (h : Own calls) (d : Digest) : Own (calls ++ [(d, .entered)]) := by
  have hold : ∀ (i : ℕ) (c : Digest × Call) (id : ℕ), (calls ++ [(d, .entered)])[i]? = some c → c.2.id? = some id →
      calls[i]? = some c := by
    intro i c id hi hid
    rw [List.getElem?_append] at hi
    split_ifs at hi
    · exact hi
    · rw [List.mem_singleton.mp (List.mem_of_getElem? hi)] at hid
      cases hid
  intro i j ci cj id hi hj hci hcj
  exact h i j ci cj id (hold i ci id hi hci) (hold j cj id hj hcj) hci hcj

/-- A step of the queue, but for `bloommgr` taking a message. -/
theorem Inv.step_queue (h : Inv setup nb s) (hset : setup.Delays) (a : Delay.Act Message) (hget : a ≠ .get)
    (hrot : ∀ body, a = .stamp false body → body = .rotate) :
    Inv setup nb { s with queue := Delay.step setup.delay s.queue a } where
  queue := h.queue.step hset.valid hset.imposed hset.ne_zero a
  entered := (grows_step s.queue a).entered_le h.entered
  rotates msg hmsg hd := by
    rcases ((grows_step s.queue a).made msg).mp hmsg with hmsg | ⟨delayed, body, rfl, rfl⟩
    · exact h.rotates msg hmsg hd
    · exact hrot body (by rw [show delayed = false from hd])
  delivered := ((grows_step s.queue a).delivered hget).trans h.delivered
  conf := h.conf
  ring := h.ring
  calls c hc := (grows_step s.queue a).callOk (h.calls c hc)
  own := h.own

/-- A call goes on. -/
theorem Inv.set_call (h : Inv setup nb s) (i : ℕ) {c : Digest × Call} (hc : CallOk setup nb s.queue c)
    (hown : Own (s.calls.set i c)) : Inv setup nb { s with calls := s.calls.set i c } where
  queue := h.queue
  entered := h.entered
  rotates := h.rotates
  delivered := h.delivered
  conf := h.conf
  ring := h.ring
  calls c' hc' := by
    rcases List.mem_or_eq_of_mem_set hc' with hc' | rfl
    · exact h.calls c' hc'
    · exact hc
  own := hown

/-- What was taken from the queue had been there for the delay. -/
theorem Inv.due_of_delivered (h : Inv setup nb s) {msg : Delay.Msg Message} (hmsg : msg ∈ s.queue.delivered) {d : Digest}
    (hd : msg.body.digest? = some d) : msg ∈ s.queue.appended ∧ Delay.due setup.delay msg ≤ s.queue.now.ns := by
  have hout : msg ∈ s.queue.delivered ++ s.queue.outq := List.mem_append_left _ hmsg
  have hdelayed : msg.delayed = true := by
    by_contra hnot
    have hinst : msg ∈ s.queue.instant := by
      rw [h.queue.instant]
      exact List.mem_filter.mpr ⟨hout, by simpa using hnot⟩
    have hbody := h.rotates msg (List.mem_append_right _ (List.mem_append_right _ hinst)) (by simpa using hnot)
    rw [hbody] at hd
    cases hd
  constructor
  · rw [h.queue.appended]
    exact List.mem_append_left _ (List.mem_filter.mpr ⟨hout, hdelayed⟩)
  · obtain ⟨t, ht⟩ := h.queue.passed msg hout hdelayed
    exact Int.le_trans (h.queue.late _ ht) (h.entered _ ht)

/-- A digest that is in the filter has been heard of. -/
theorem Inv.heard (h : Inv setup nb s) {d : Digest} (hseen : isInRingQueue s.bloom.filter d = .ok true) {n : ℕ}
    (hn : n ∈ maskedIndices (bitMask nb) d) : Heard setup nb s.queue s.queue.now n := by
  obtain ⟨r, es, hr, htracks, hes⟩ := h.ring
  rw [hr, r.isInRingQueue_eq_true, htracks.reports_iff] at hseen
  obtain ⟨d', g, -, ⟨pre, post, rfl, -⟩, hn'⟩ := hseen n hn
  obtain ⟨msg, hmsg, hd'⟩ := hes d' (List.mem_append_right _ List.mem_cons_self)
  have hdel : msg ∈ s.queue.delivered := by
    rw [h.delivered]
    exact List.mem_append_left _ hmsg
  obtain ⟨happ, hdue⟩ := h.due_of_delivered hdel hd'
  exact ⟨msg, happ, d', hd', hn', hdue⟩

theorem Inv.exists_seen (h : Inv setup nb s) (d : Digest) : ∃ seen, isInRingQueue s.bloom.filter d = .ok seen := by
  obtain ⟨r, -, hr, -⟩ := h.ring
  rw [hr]
  obtain ⟨seen, hseen, -⟩ := isInRingQueue_ok r.wf d
  exact ⟨seen, hseen⟩

/-! ### The steps -/

theorem eq_true_of_shortcut {conf : Config} {checklist : List Check} {seen : Bool} {decision : Decision}
    (h : shortcut conf checklist seen = some decision) (hm : decision.retvalue = .matched) : seen = true := by
  unfold shortcut at h
  split_ifs at h with hseen
  · exact hseen.1
  · cases h
    cases hm

theorem eq_true_of_verdict {conf : Config} {l : Loop} {seen : Bool} (h : (l.verdict conf seen).retvalue = .matched) :
    seen = true := by
  unfold Loop.verdict at h
  split at h
  · cases h
  · cases h
  all_goals
    split_ifs at h with _ _ hseen
    exact hseen

/-- A call that has just decided, or goes on to wait. -/
theorem Inv.decide (h : Inv setup nb s) (i : ℕ) {d : Digest} {c : Call} (hid : c.id? = none)
    (hput : ∀ id final read, c ≠ .putting id final read) (hret : ∀ id final read, c ≠ .returned id final read)
    (hm : ∀ t, c.verdict? = some (.matched, t) → t = s.queue.now ∧ isInRingQueue s.bloom.filter d = .ok true) :
    Inv setup nb { s with calls := s.calls.set i (d, c) } := by
  refine h.set_call i ⟨fun t ht n hn => ?_, fun id heq => ?_, fun id final read heq => absurd heq (hput id final read),
    fun id final read heq => absurd heq (hret id final read)⟩ (h.own.set fun id heq => ?_)
  · obtain ⟨rfl, hseen⟩ := hm t ht
    exact h.heard hseen hn
  · rw [hid] at heq
    cases heq
  · rw [hid] at heq
    cases heq

/-- A call reads the filter at its start. -/
theorem Inv.look (h : Inv setup nb s) (i : ℕ) {d : Digest} {seen : Bool} (hseen : isInRingQueue s.bloom.filter d = .ok seen) :
    Inv setup nb { s with calls := s.calls.set i (d, looked setup seen s.queue.now) } := by
  cases hshort : shortcut setup.conf setup.checklist seen with
  | none =>
    refine h.decide i ?_ ?_ ?_ ?_ <;> simp [looked, hshort, Call.id?, Call.verdict?]
  | some decision =>
    refine h.decide i ?_ ?_ ?_ fun t ht => ?_
    · simp [looked, hshort, Call.id?]
    · simp [looked, hshort]
    · simp [looked, hshort]
    · simp only [looked, hshort, Call.verdict?, Option.some.injEq, Prod.mk.injEq] at ht
      rw [eq_true_of_shortcut hshort ht.1] at hseen
      exact ⟨ht.2.symm, hseen⟩

/-- And again when it decides. -/
theorem Inv.conclude (h : Inv setup nb s) (i : ℕ) {d : Digest} {seen : Bool}
    (hseen : isInRingQueue s.bloom.filter d = .ok seen) (l : Loop) :
    Inv setup nb { s with calls := s.calls.set i (d, .decided (l.verdict setup.conf seen) l.entry s.queue.now) } := by
  refine h.decide i rfl (fun _ _ _ heq => nomatch heq) (fun _ _ _ heq => nomatch heq) fun t ht => ?_
  simp only [Call.verdict?, Option.some.injEq, Prod.mk.injEq] at ht
  rw [eq_true_of_verdict ht.1] at hseen
  exact ⟨ht.2.symm, hseen⟩

/-- A call that has decided puts its update, or returns. -/
theorem Inv.leaving (h : Inv setup nb s) (hset : setup.Delays) {i : ℕ} {d : Digest} {decision : Decision}
    {entry : QuerylogEntry} {read : Timespec} (hi : s.calls[i]? = some (d, .decided decision entry read)) :
    Inv setup nb (leaving setup s i d (finish setup.conf decision entry) read) := by
  have hold := h.calls _ (List.mem_of_getElem? hi)
  unfold Daemon.leaving
  split_ifs with hup
  · have hq := h.step_queue hset (.stamp true (.update d)) (by simp) (by simp)
    have hnew := hq.calls _ (List.mem_of_getElem? hi)
    refine hq.set_call i ⟨hnew.matched, fun id heq => ?_, fun id final read heq => ?_, fun _ _ _ heq => nomatch heq⟩
      (h.own.set fun id heq j cj hj hcj => ?_)
    · cases heq
      exact ⟨_, ((grows_step ..).made _).mpr (.inr ⟨true, .update d, rfl, rfl⟩), rfl, rfl, rfl⟩
    · cases heq
      exact hup
    · -- the number is new
      cases heq
      exact absurd (h.id_lt (List.mem_of_getElem? hj) hcj) (Nat.lt_irrefl _)
  · refine h.set_call i ⟨hold.matched, fun id heq => (nomatch heq), fun _ _ _ heq => (nomatch heq),
      fun id final read heq => ?_⟩ (h.own.set fun id heq => nomatch heq)
    cases heq
    rw [if_neg hup]

/-- A call returns from `put_msg`. -/
theorem Inv.leave (h : Inv setup nb s) {i : ℕ} {d : Digest} {id : ℕ} {final : Final} {read : Timespec}
    (hi : s.calls[i]? = some (d, .putting id final read)) (hput : id ∉ s.queue.calls.map Delay.Msg.id) :
    Inv setup nb { s with calls := s.calls.set i (d, .returned (some id) final read) } := by
  have hold := h.calls _ (List.mem_of_getElem? hi)
  refine h.set_call i ⟨hold.matched, hold.message, fun _ _ _ heq => (nomatch heq), fun id' final' read' heq => ?_⟩
    (h.own.set fun id' heq j cj hj hcj => ?_)
  · cases heq
    rw [if_pos (hold.putting id final read rfl)]
    obtain ⟨msg, hmsg, rfl, hdelayed, hbody⟩ := hold.message id rfl
    rcases List.mem_append.mp hmsg with hcalls | hmsg
    · exact absurd (List.mem_map_of_mem hcalls) hput
    · rcases List.mem_append.mp hmsg with happ | hinst
      · exact ⟨msg, happ, rfl, hbody⟩
      · rw [h.queue.instant, List.mem_filter, hdelayed] at hinst
        exact absurd hinst.2 Bool.false_ne_true
  · exact h.own j i cj _ id' hj hi hcj heq

/-- `bloommgr` takes a message. -/
theorem Inv.get (h : Inv setup nb s) (hset : setup.Delays) (hhand : s.hand = none) {msg : Delay.Msg Message}
    {outq : List (Delay.Msg Message)} (hout : s.queue.outq = msg :: outq) :
    Inv setup nb { s with queue := Delay.step setup.delay s.queue .get, hand := some msg } := by
  have hg : Grows s.queue .get (Delay.step setup.delay s.queue .get) := grows_step s.queue .get
  refine ⟨h.queue.step hset.valid hset.imposed hset.ne_zero .get, hg.entered_le h.entered, fun m hm => ?_,
    ?_, h.conf, h.ring, fun c hc => hg.callOk (h.calls c hc), h.own⟩
  · exact h.rotates m (((hg.made m).mp hm).resolve_right (by simp))
  · have hdel := h.delivered
    rw [hhand, Option.toList_none, List.append_nil] at hdel
    simp only [Delay.step, hout, hdel, Option.toList_some]

theorem isLocal_command (clock : Clock) (m : Message) : (m.command clock).isLocal = true := by
  cases m <;> rfl

theorem digest?_of_mem_events {ctx : Ctx} {clock : Clock} {m : Message} {d : Digest}
    (h : .insert d ∈ ctx.events (m.command clock)) : m.digest? = some d := by
  cases m with
  | update d' | updateOper d' =>
    simp only [Message.command, Ctx.events, List.mem_singleton, Event.insert.injEq] at h
    rw [h]
    rfl
  | rotate =>
    simp only [Message.command, Ctx.events] at h
    split at h <;> simp at h

/-- `bloommgr` does what its message says. -/
theorem Inv.manage (h : Inv setup nb s) {msg : Delay.Msg Message} (hhand : s.hand = some msg) (clock : Clock) :
    ∃ bloom, s.bloom.execute (msg.body.command clock) = .ok bloom ∧
      Inv setup nb { s with hand := none, executed := s.executed ++ [msg], bloom := bloom } := by
  obtain ⟨r, es, hr, htracks, hes⟩ := h.ring
  refine ⟨_, s.bloom.execute_local r hr (isLocal_command clock msg.body), ?_⟩
  refine ⟨h.queue, h.entered, h.rotates, ?_, h.conf, ⟨_, _, rfl, htracks.run _, fun d hd => ?_⟩, h.calls, h.own⟩
  · rw [h.delivered, hhand]
    simp
  · rcases List.mem_append.mp hd with hd | hd
    · obtain ⟨m, hm, hmd⟩ := hes d hd
      exact ⟨m, List.mem_append_left _ hm, hmd⟩
    · exact ⟨msg, List.mem_append_right _ (List.mem_singleton.mpr rfl), digest?_of_mem_events hd⟩

/-- No step fails, and each keeps what is kept. -/
theorem Inv.step (h : Inv setup nb s) (hset : setup.Delays) (a : Act) :
    ∃ s', step setup s a = .ok s' ∧ Inv setup nb s' := by
  cases a with
  | tick t => exact ⟨_, rfl, h.step_queue hset _ (by simp) (by simp)⟩
  | enter d =>
    refine ⟨_, rfl, h.queue, h.entered, h.rotates, h.delivered, h.conf, h.ring, fun c hc => ?_, ?_⟩
    · rcases List.mem_append.mp hc with hc | hc
      · exact h.calls c hc
      · rw [List.mem_singleton.mp hc]
        exact ⟨fun t heq => (nomatch heq), fun id heq => (nomatch heq), fun _ _ _ heq => (nomatch heq),
          fun _ _ _ heq => (nomatch heq)⟩
    · exact h.own.enter d
  | look i =>
    simp only [Daemon.step]
    split
    · rename_i d hi
      obtain ⟨seen, hseen⟩ := h.exists_seen d
      rw [hseen]
      exact ⟨_, rfl, h.look i hseen⟩
    · exact ⟨s, rfl, h⟩
  | conclude i e =>
    simp only [Daemon.step]
    split
    · rename_i d hi
      split_ifs
      · obtain ⟨seen, hseen⟩ := h.exists_seen d
        rw [hseen]
        exact ⟨_, rfl, h.conclude i hseen _⟩
      · exact ⟨s, rfl, h⟩
    · exact ⟨s, rfl, h⟩
  | put i =>
    simp only [Daemon.step]
    split
    · rename_i hi
      exact ⟨_, rfl, h.leaving hset hi⟩
    · exact ⟨s, rfl, h⟩
  | append j => exact ⟨_, rfl, h.step_queue hset _ (by simp) (by simp)⟩
  | leave i =>
    simp only [Daemon.step]
    split
    · rename_i hi
      split_ifs with hput
      · exact ⟨s, rfl, h⟩
      · exact ⟨_, rfl, h.leave hi hput⟩
    · exact ⟨s, rfl, h⟩
  | recvOperSync d => exact ⟨_, rfl, h.step_queue hset _ (by simp) (by simp)⟩
  | main time =>
    simp only [Daemon.step]
    split_ifs
    · refine ⟨_, rfl, h.step_queue hset _ (by simp) fun body heq => ?_⟩
      cases heq
      rfl
    · exact ⟨s, rfl, h⟩
  | delay => exact ⟨_, rfl, h.step_queue hset _ (by simp) (by simp)⟩
  | wake sleepleft => exact ⟨_, rfl, h.step_queue hset _ (by simp) (by simp)⟩
  | get =>
    simp only [Daemon.step]
    split
    · rename_i hhand hout
      exact ⟨_, rfl, h.get hset hhand hout⟩
    · exact ⟨s, rfl, h⟩
  | manage clock =>
    simp only [Daemon.step]
    split
    · exact ⟨s, rfl, h⟩
    · rename_i hhand
      obtain ⟨bloom, hexec, hinv⟩ := h.manage hhand clock
      rw [hexec]
      exact ⟨_, rfl, hinv⟩

/-- Nor does a run. -/
theorem Inv.run (h : Inv setup nb s) (hset : setup.Delays) (acts : List Act) :
    ∃ s', run setup s acts = .ok s' ∧ Inv setup nb s' :=
  foldlM_inv _ _ _ (fun _ a _ hs => hs.step hset a) h

end Kept

/-! ### What the daemon does -/

/-- A daemon that starts with a new ring. -/
theorem inv_start {setup : Setup} {numBits : Word} (hnum : 1 ≤ setup.numBufs) (lo : 5 ≤ numBits.toNat)
    (hi : numBits.toNat ≤ 31) {now : Timespec} (hnow : now.Valid) (last : ℤ) (guard : ℕ) :
    Inv setup numBits.toNat (start setup now (Ring.build hnum lo hi).brq last guard) where
  queue := Delay.inv_start hnow
  entered _ hp := nomatch hp
  rotates _ hmsg := nomatch hmsg
  delivered := rfl
  conf := ⟨rfl, rfl⟩
  ring := ⟨_, [], rfl, Ring.tracks_build hnum lo hi, fun _ hd => nomatch hd⟩
  calls _ hc := nomatch hc
  own _ _ _ _ _ hi := nomatch hi

/-- **Nothing is let through too early**: whatever the threads do, when a call finds its digest in the
filter, each bit of the digest comes from an update that was put on the queue at least the delay
before. -/
theorem matched_late (setup : Setup) (hset : setup.Delays) (hnum : 1 ≤ setup.numBufs) (numBits : Word)
    (lo : 5 ≤ numBits.toNat) (hi : numBits.toNat ≤ 31) (now : Timespec) (hnow : now.Valid) (last : ℤ) (guard : ℕ)
    (acts : List Act) :
    ∃ ring s, buildBloomRing setup.numBufs numBits = .ok ring ∧ run setup (start setup now ring last guard) acts = .ok s ∧
      ∀ d call, (d, call) ∈ s.calls → ∀ t, call.verdict? = some (.matched, t) →
        ∀ n ∈ maskedIndices ring.aggregate.mask d, ∃ msg ∈ s.queue.appended, ∃ d', msg.body.digest? = some d' ∧
          n ∈ maskedIndices ring.aggregate.mask d' ∧ msg.timestamp.ns + setup.delay.delayTs.ns ≤ t.ns := by
  obtain ⟨s, hrun, hinv⟩ := (inv_start hnum lo hi hnow last guard).run hset acts
  refine ⟨_, s, Ring.build_eq hnum lo hi, hrun, fun d call hcall t ht => ?_⟩
  rw [(Ring.build hnum lo hi).wf.aggregate.mask]
  exact (hinv.calls _ hcall).matched t ht

/-- One one-word filter, a delay of two seconds, and no checks. -/
def setupTwo : Setup where
  conf := ⟨1, 0, true, false, false, 5000, "Please try again later", "Bad reputation"⟩
  checklist := []
  delay := ⟨⟨2, 0⟩, true⟩
  rotateInterval := 3600
  numBufs := 1

theorem delays_setupTwo : setupTwo.Delays := ⟨by decide, rfl, .inl (by decide)⟩

/-- A digest. -/
def digestTwo : Digest := ⟨1, 2, 3, 4, 5, 6, 7, 8⟩

/-- A call at second 5, and its update on its way until `bloommgr` takes it at second 7. -/
def actsTwo : List Act :=
  [.enter digestTwo, .look 0, .put 0, .append 0, .leave 0, .delay, .delay, .tick ⟨7, 0⟩, .wake none, .delay, .delay, .get]

/-- The daemon at second 5. -/
def startTwo : State := start setupTwo ⟨5, 0⟩ (oneWordRing [0] 0 0) 0 1

theorem buildBloomRing_two : buildBloomRing setupTwo.numBufs 5 = .ok (oneWordRing [0] 0 0) := by decide

/-- A second call, when `bloommgr` has inserted the update of the first one, finds it. -/
theorem matched_late_two :
    ∃ s, run setupTwo startTwo (actsTwo ++ [.manage ⟨0, 0, 0, 0⟩, .enter digestTwo, .look 1]) = .ok s ∧
      s.calls.map (fun c => (c.1, c.2.verdict?)) =
        [(digestTwo, some (.grey, ⟨5, 0⟩)), (digestTwo, some (.matched, ⟨7, 0⟩))] ∧
      ∃ msg ∈ s.queue.appended, msg.timestamp.ns + 2000000000 ≤ 7000000000 := by
  obtain ⟨ring, s, hring, hrun, h⟩ := matched_late setupTwo delays_setupTwo (by decide) 5 (by decide) (by decide) ⟨5, 0⟩
    (by decide) 0 1 (actsTwo ++ [.manage ⟨0, 0, 0, 0⟩, .enter digestTwo, .look 1])
  cases buildBloomRing_two.symm.trans hring
  have hmap : (run setupTwo startTwo (actsTwo ++ [.manage ⟨0, 0, 0, 0⟩, .enter digestTwo, .look 1])).map
      (fun s => s.calls.map fun c => (c.1, c.2.verdict?)) =
      .ok [(digestTwo, some (.grey, ⟨5, 0⟩)), (digestTwo, some (.matched, ⟨7, 0⟩))] := by decide +kernel
  have hcalls : s.calls.map (fun c => (c.1, c.2.verdict?)) =
      [(digestTwo, some (.grey, ⟨5, 0⟩)), (digestTwo, some (.matched, ⟨7, 0⟩))] := by
    rw [show run setupTwo startTwo _ = .ok s from hrun] at hmap
    exact Except.ok.inj hmap
  refine ⟨s, hrun, hcalls, ?_⟩
  have hmem : (digestTwo, some (Status.matched, (⟨7, 0⟩ : Timespec))) ∈ s.calls.map fun c => (c.1, c.2.verdict?) := by
    rw [hcalls]
    exact List.mem_cons_of_mem _ List.mem_cons_self
  obtain ⟨⟨d, call⟩, hcall, heq⟩ := List.mem_map.mp hmem
  obtain ⟨rfl, hverdict⟩ := Prod.mk.inj heq
  obtain ⟨msg, hmsg, -, -, -, hle⟩ := h _ call hcall _ hverdict 1 (by decide)
  exact ⟨msg, hmsg, hle⟩

/-- **Every update is accounted for**: a call that is to put an update has put one when it returns, with
its digest, and no other call has put the same; and what was put on the queue is carried out, in the
hand of `bloommgr`, or still on its way, each message in one of these places. -/
theorem updates_accounted (setup : Setup) (hset : setup.Delays) (hnum : 1 ≤ setup.numBufs) (numBits : Word)
    (lo : 5 ≤ numBits.toNat) (hi : numBits.toNat ≤ 31) (now : Timespec) (hnow : now.Valid) (last : ℤ) (guard : ℕ)
    (acts : List Act) :
    ∃ ring s, buildBloomRing setup.numBufs numBits = .ok ring ∧ run setup (start setup now ring last guard) acts = .ok s ∧
      (∀ (i : ℕ) d id final read, s.calls[i]? = some (d, .returned id final read) →
        if final.update then
          (∃ msg ∈ s.queue.appended, id = some msg.id ∧ msg.body = .update d) ∧
            ∀ (j : ℕ) d' final' read', s.calls[j]? = some (d', .returned id final' read') → j = i
        else id = none) ∧
      (s.executed ++ s.hand.toList ++ s.queue.outq ++ (s.queue.hand ++ s.queue.inq)).Perm
        (s.queue.appended ++ s.queue.instant) ∧
      ((s.queue.appended ++ s.queue.instant).map Delay.Msg.id).Nodup := by
  obtain ⟨s, hrun, hinv⟩ := (inv_start hnum lo hi hnow last guard).run hset acts
  refine ⟨_, s, Ring.build_eq hnum lo hi, hrun, fun i d id final read hcall => ?_, ?_, ?_⟩
  · have hret := (hinv.calls _ (List.mem_of_getElem? hcall)).returned id final read rfl
    split_ifs at hret ⊢
    · obtain ⟨msg, hmsg, rfl, hbody⟩ := hret
      exact ⟨⟨msg, hmsg, rfl, hbody⟩, fun j d' final' read' hj => hinv.own j i _ _ _ hj hcall rfl rfl⟩
    · exact hret
  · rw [← hinv.delivered, hinv.queue.appended, hinv.queue.instant]
    -- the two kinds of messages that came to `outq`, put together again
    have hout := List.filter_append_perm (·.delayed) (s.queue.delivered ++ s.queue.outq)
    refine (hout.symm.append_right _).trans ?_
    rw [List.append_assoc, List.append_assoc]
    exact List.perm_append_comm.append_left _
  · exact (List.nodup_append.mp (List.map_append ▸ hinv.queue.nodup)).2.1

/-- The call of second 5 has put its update, which `bloommgr` has in its hand. -/
theorem updates_accounted_two :
    ∃ s, run setupTwo startTwo actsTwo = .ok s ∧ s.queue.appended.length = 1 ∧
      (s.executed ++ s.hand.toList ++ s.queue.outq ++ (s.queue.hand ++ s.queue.inq)).Perm
        (s.queue.appended ++ s.queue.instant) := by
  obtain ⟨ring, s, hring, hrun, -, hperm, -⟩ := updates_accounted setupTwo delays_setupTwo (by decide) 5 (by decide)
    (by decide) ⟨5, 0⟩ (by decide) 0 1 actsTwo
  cases buildBloomRing_two.symm.trans hring
  have hlen : (run setupTwo startTwo actsTwo).map (fun s => s.queue.appended.length) = .ok 1 := by decide +kernel
  rw [show run setupTwo startTwo actsTwo = .ok s from hrun] at hlen
  exact ⟨s, hrun, Except.ok.inj hlen, hperm⟩

/-! ### A digest that has been inserted -/

/-- The call has decided that the sender is to come again later. -/
def Call.Greyed (c : Call) : Prop := ∃ t, c.verdict? = some (.grey, t)

theorem not_greyed_looked {setup : Setup} {now : Timespec} : ¬ (looked setup true now).Greyed := by
  rintro ⟨t, ht⟩
  unfold looked shortcut at ht
  split_ifs at ht with hmatch hnone
  · simp [Call.verdict?] at ht
  · exact hmatch ⟨rfl, .inr hnone⟩
  · cases ht

theorem verdict_ne_grey (conf : Config) (l : Loop) : (l.verdict conf true).retvalue ≠ .grey := by
  unfold Loop.verdict
  split
  · exact fun heq => nomatch heq
  · exact fun heq => nomatch heq
  all_goals
    simp only [↓reduceIte]
    split_ifs <;> exact fun heq => nomatch heq

section Greyed

variable {setup : Setup} {nb : ℕ} {d : Digest} {s s' : State}

/-- What becomes of the filter and of the verdicts: only `bloommgr` changes the filter, and a call decides
that the sender is to come again later only when it does not find its digest there. -/
structure Effect (s : State) (a : Act) (s' : State) : Prop where
  /-- The filter. -/
  bloom : s'.bloom = s.bloom ∨ ∃ clock msg, a = .manage clock ∧ s.hand = some msg ∧
    s.bloom.execute (msg.body.command clock) = .ok s'.bloom
  /-- The verdicts. -/
  greyed : ∀ (i : ℕ) (d : Digest) (c' : Call), s'.calls[i]? = some (d, c') → c'.Greyed →
    (∃ c, s.calls[i]? = some (d, c) ∧ c.Greyed) ∨ isInRingQueue s.bloom.filter d = .ok false

/-- A step that decides nothing. -/
theorem effect_same {a : Act} (hbloom : s'.bloom = s.bloom) (hcalls : s'.calls = s.calls) : Effect s a s' :=
  ⟨.inl hbloom, fun _ _ c' h' hg => .inl ⟨c', hcalls ▸ h', hg⟩⟩

/-- A call goes on, and has the verdict it had. -/
theorem effect_set {a : Act} {j : ℕ} {d₀ : Digest} {c c₀ : Call} (hj : s.calls[j]? = some (d₀, c))
    (hbloom : s'.bloom = s.bloom) (hcalls : s'.calls = s.calls.set j (d₀, c₀)) (hc : c₀.verdict? = c.verdict?) :
    Effect s a s' := by
  refine ⟨.inl hbloom, fun i d c' h' hg => .inl ?_⟩
  rw [hcalls] at h'
  rcases getElem?_set_cases h' with ⟨rfl, heq⟩ | ⟨-, hold⟩
  · cases heq
    obtain ⟨t, ht⟩ := hg
    exact ⟨c, hj, t, hc ▸ ht⟩
  · exact ⟨c', hold, hg⟩

/-- A call reads the filter. -/
theorem effect_read {a : Act} {j : ℕ} {d₀ : Digest} {seen : Bool} {c₀ : Call}
    (hseen : isInRingQueue s.bloom.filter d₀ = .ok seen) (hbloom : s'.bloom = s.bloom)
    (hcalls : s'.calls = s.calls.set j (d₀, c₀)) (hc : seen = true → ¬ c₀.Greyed) : Effect s a s' := by
  refine ⟨.inl hbloom, fun i d c' h' hg => ?_⟩
  rw [hcalls] at h'
  rcases getElem?_set_cases h' with ⟨rfl, heq⟩ | ⟨-, hold⟩
  · cases heq
    cases seen with
    | false => exact .inr hseen
    | true => exact absurd hg (hc rfl)
  · exact .inl ⟨c', hold, hg⟩

theorem step_effect {a : Act} (hstep : step setup s a = .ok s') : Effect s a s' := by
  cases a with
  | tick t | append j | recvOperSync d | delay | wake sleepleft =>
    cases hstep
    exact effect_same rfl rfl
  | enter d₀ =>
    cases hstep
    refine ⟨.inl rfl, fun i d c' h' hg => ?_⟩
    rw [List.getElem?_append] at h'
    split_ifs at h'
    · exact .inl ⟨c', h', hg⟩
    · cases List.mem_singleton.mp (List.mem_of_getElem? h')
      obtain ⟨t, ht⟩ := hg
      cases ht
  | look j =>
    simp only [step] at hstep
    split at hstep
    · obtain ⟨seen, hseen, hstep⟩ := bind_eq_ok hstep
      cases hstep
      exact effect_read hseen rfl rfl fun heq => heq ▸ not_greyed_looked
    · cases hstep
      exact effect_same rfl rfl
  | conclude j e =>
    simp only [step] at hstep
    split at hstep
    · split_ifs at hstep
      · obtain ⟨seen, hseen, hstep⟩ := bind_eq_ok hstep
        cases hstep
        refine effect_read hseen rfl rfl ?_
        rintro rfl ⟨t, ht⟩
        simp only [Call.verdict?, Option.some.injEq, Prod.mk.injEq] at ht
        exact verdict_ne_grey _ _ ht.1
      · cases hstep
        exact effect_same rfl rfl
    · cases hstep
      exact effect_same rfl rfl
  | put j =>
    simp only [step] at hstep
    split at hstep
    · rename_i hj
      cases hstep
      unfold leaving
      split_ifs
      · exact effect_set hj rfl rfl rfl
      · exact effect_set hj rfl rfl rfl
    · cases hstep
      exact effect_same rfl rfl
  | leave j =>
    simp only [step] at hstep
    split at hstep
    · rename_i hj
      split_ifs at hstep
      · cases hstep
        exact effect_same rfl rfl
      · cases hstep
        exact effect_set hj rfl rfl rfl
    · cases hstep
      exact effect_same rfl rfl
  | main time =>
    simp only [step] at hstep
    split_ifs at hstep <;> cases hstep <;> exact effect_same rfl rfl
  | get =>
    simp only [step] at hstep
    split at hstep <;> cases hstep <;> exact effect_same rfl rfl
  | manage clock =>
    simp only [step] at hstep
    split at hstep
    · cases hstep
      exact effect_same rfl rfl
    · rename_i msg hhand
      obtain ⟨bloom, hexec, hstep⟩ := bind_eq_ok hstep
      cases hstep
      exact ⟨.inr ⟨clock, msg, rfl, hhand, hexec⟩, fun _ _ c' h' hg => .inl ⟨c', h', hg⟩⟩

/-- The step reads no clock value past `T` to rotate. -/
def InTime (T : ℤ) (s : State) : Act → Prop
  | .manage clock => ∀ msg ∈ s.hand, ∀ t ∈ s.bloom.readings (msg.body.command clock), t ≤ T
  | _ => True

/-- The digest, inserted when `last_rotate` was `L`, has been kept since. -/
structure Remembers (setup : Setup) (nb : ℕ) (d : Digest) (L : ℤ) (s : State) : Prop where
  /-- As all the time. -/
  inv : Inv setup nb s
  /-- It is in its member. -/
  kept : ∃ (r : Ring setup.numBufs nb) (m k : ℕ), s.bloom.Kept r d L m k

theorem Remembers.seen {L : ℤ} (h : Remembers setup nb d L s) : isInRingQueue s.bloom.filter d = .ok true := by
  obtain ⟨r, m, k, hkept⟩ := h.kept
  rw [hkept.filter, r.isInRingQueue_eq_true]
  exact hkept.keeps.reports

/-- `bloommgr` has inserted the digest. -/
theorem Inv.remembers (h : Inv setup nb s) {msg : Delay.Msg Message} (hhand : s.hand = some msg)
    (hd : msg.body.digest? = some d) {clock : Clock} (hstep : Daemon.step setup s (.manage clock) = .ok s')
    (h' : Inv setup nb s') : Remembers setup nb d s.bloom.lastRotate s' := by
  obtain ⟨r, -, hr, -⟩ := h.ring
  simp only [Daemon.step, hhand, s.bloom.execute_local r hr (isLocal_command clock msg.body)] at hstep
  cases hstep
  have hkept : Ctx.Kept ⟨s.bloom.rotateInterval, s.bloom.numBufs, (r.insertDigest d).brq, s.bloom.lastRotate,
      s.bloom.syncGuard⟩ (r.insertDigest d) d s.bloom.lastRotate r.cur 0 := by
    refine ⟨rfl, h.conf.1, by simp, r.keeps_insertDigest d, ?_⟩
    rw [(r.insertDigest_spec d).1]
    exact slot_zero r.cur_lt
  refine ⟨h', r.insertDigest d, r.cur, 0, ?_⟩
  cases hbody : msg.body with
  | update d' | updateOper d' =>
    rw [hbody] at hd
    cases hd
    exact hkept
  | rotate =>
    rw [hbody] at hd
    cases hd

/-- A step that reads no clock value past the window keeps the digest. -/
theorem Remembers.step {L : ℤ} (h : Remembers setup nb d L s) (hset : setup.Delays) (hI : 1 ≤ setup.rotateInterval) {a : Act}
    (htime : InTime (L + setup.numBufs * setup.rotateInterval) s a) :
    ∃ s', step setup s a = .ok s' ∧ Remembers setup nb d L s' := by
  obtain ⟨s', hstep, hinv⟩ := h.inv.step hset a
  refine ⟨s', hstep, hinv, ?_⟩
  obtain ⟨r, m, k, hkept⟩ := h.kept
  rcases (step_effect hstep).bloom with hsame | ⟨clock, msg, rfl, hhand, hexec⟩
  · rw [hsame]
    exact ⟨r, m, k, hkept⟩
  · have hlocal := isLocal_command clock msg.body
    have hconf := h.inv.conf.2
    rw [s.bloom.execute_local r hkept.filter hlocal] at hexec
    rcases hkept.step (by rw [hconf]; exact hI) hlocal with ⟨k', hkept'⟩ | ⟨-, -, t, ht, hlt⟩
    · rw [← Except.ok.inj hexec]
      exact ⟨_, m, k', hkept'⟩
    · rw [hconf] at hlt
      exact absurd (htime msg hhand t ht) (not_le.mpr hlt)

end Greyed

/-- **Nobody is told to come again twice**: when `bloommgr` has inserted a digest, with `last_rotate` at
`L`, then whatever the threads do, as long as `rotate()` reads no clock value past `L + N * I`, the
digest is in the filter, and the only calls for it that tell the sender to come again are those that
had already decided so. -/
theorem not_greyed_again (setup : Setup) (hset : setup.Delays) (hnum : 1 ≤ setup.numBufs) (hI : 1 ≤ setup.rotateInterval)
    (numBits : Word) (lo : 5 ≤ numBits.toNat) (hi : numBits.toNat ≤ 31) (now : Timespec) (hnow : now.Valid) (last : ℤ)
    (guard : ℕ) (acts : List Act) :
    ∃ ring s, buildBloomRing setup.numBufs numBits = .ok ring ∧ run setup (start setup now ring last guard) acts = .ok s ∧
      ∀ msg d, s.hand = some msg → msg.body.digest? = some d → ∀ clock, ∃ inserted,
        step setup s (.manage clock) = .ok inserted ∧
        ∀ acts', AlongM (step setup) (InTime (s.bloom.lastRotate + setup.numBufs * setup.rotateInterval)) inserted acts' →
          ∃ s', run setup inserted acts' = .ok s' ∧ isInRingQueue s'.bloom.filter d = .ok true ∧
            ∀ (i : ℕ) call, s'.calls[i]? = some (d, call) → call.Greyed →
              ∃ call₀, inserted.calls[i]? = some (d, call₀) ∧ call₀.Greyed := by
  obtain ⟨s, hrun, hinv⟩ := (inv_start hnum lo hi hnow last guard).run hset acts
  refine ⟨_, s, Ring.build_eq hnum lo hi, hrun, fun msg d hhand hd clock => ?_⟩
  obtain ⟨inserted, hstep, hinv'⟩ := hinv.step hset (.manage clock)
  refine ⟨inserted, hstep, fun acts' htime => ?_⟩
  have hrem : Remembers setup numBits.toNat d s.bloom.lastRotate inserted := hinv.remembers hhand hd hstep hinv'
  -- the calls that tell the sender to come again are carried along with the digest
  obtain ⟨s', hrun', hrem', hcalls⟩ := htime.inv
    (fun s' => Remembers setup numBits.toNat d s.bloom.lastRotate s' ∧
      ∀ (i : ℕ) call, s'.calls[i]? = some (d, call) → call.Greyed →
        ∃ call₀, inserted.calls[i]? = some (d, call₀) ∧ call₀.Greyed)
    (fun s₁ a ⟨hr, hc⟩ ha => by
      obtain ⟨s₂, hstep, hr₂⟩ := hr.step hset hI ha
      refine ⟨s₂, hstep, hr₂, fun i call hcall hg => ?_⟩
      rcases (step_effect hstep).greyed i d call hcall hg with ⟨call₁, hcall₁, hg₁⟩ | hunseen
      · exact hc i call₁ hcall₁ hg₁
      · rw [hr.seen] at hunseen
        cases hunseen)
    ⟨hrem, fun i call hcall hg => ⟨call, hcall, hg⟩⟩
  exact ⟨s', hrun', hrem'.seen, hcalls⟩

/-- The second call, at second 7, is not told to come again. -/
theorem not_greyed_again_two :
    ∃ s inserted s', run setupTwo startTwo actsTwo = .ok s ∧ step setupTwo s (.manage ⟨0, 0, 0, 0⟩) = .ok inserted ∧
      run setupTwo inserted [.enter digestTwo, .look 1] = .ok s' ∧ isInRingQueue s'.bloom.filter digestTwo = .ok true := by
  obtain ⟨ring, s, hring, hrun, h⟩ := not_greyed_again setupTwo delays_setupTwo (by decide) (by decide) 5 (by decide)
    (by decide) ⟨5, 0⟩ (by decide) 0 1 actsTwo
  cases buildBloomRing_two.symm.trans hring
  have hmap : (run setupTwo startTwo actsTwo).map (fun s => s.hand.map Delay.Msg.body) = .ok (some (.update digestTwo)) := by
    decide +kernel
  have hhand : s.hand.map Delay.Msg.body = some (.update digestTwo) := by
    rw [show run setupTwo startTwo actsTwo = .ok s from hrun] at hmap
    exact Except.ok.inj hmap
  obtain ⟨msg, hmsg, hbody⟩ := Option.map_eq_some_iff.mp hhand
  obtain ⟨inserted, hstep, hafter⟩ := h msg digestTwo hmsg (by rw [hbody]; rfl) ⟨0, 0, 0, 0⟩
  obtain ⟨s', hrun', hseen, -⟩ := hafter [.enter digestTwo, .look 1] (alongM_of_forall (by simp [InTime]) _)
  exact ⟨s, inserted, s', hrun, hstep, hrun', hseen⟩

end Gross.Daemon
