import Mathlib.Data.List.Nodup
import Mathlib.Logic.Function.Basic

/-!
# The pool of message queues

A queue is addressed by its number, the index in the array `queues`. A thread
that needs one calls `get_queue` and gives it back with `release_queue`, which
puts it on a queue of its own, the `metaqueue`; `get_queue` takes one from there
before it makes a new one. A queue that is given back is marked as not active,
and `put_msg` refuses to put a message on it.

## The model

A queue is its messages and its mark. Each operation here is done at once, under
a lock of the source; what the source does in several of these is several steps
(`release_queue` looks at the head without the lock, then clears the mark, then
puts the queue on the metaqueue).

## What is proved

`Owned` — each queue has one owner or is free: `get_queue` returns a free queue
(`Owned.owner_getQueue`, `Owned.getQueue`), and a queue that its owner puts on
the metaqueue is free again (`Owned.putFree`).

## Honest scope

The array `queues` is a list, so its growth is left out; `Gross.Queue.Ids` has it, and
`Gross.Queue.Runs` shows that the threads' steps there are the operations here.
Queues with a delay are never given back, and are not here.
-/

namespace Gross.Queue

universe u v

variable {α : Type u}

/-- `msgqueue_t` -/
structure MsgQueue (α : Type u) where
  /-- The messages, from `head` to `tail`. -/
  msgs : List α
  /-- `active` -/
  active : Bool
  deriving DecidableEq, Repr

/-- The queues, and those that are free. -/
structure Queues (α : Type u) where
  /-- `queues` -/
  queues : List (MsgQueue α)
  /-- `metaqueue` -/
  metaqueue : List ℕ
  deriving DecidableEq, Repr

namespace Queues

/-- No queue has been asked for. -/
def start : Queues α := ⟨[], []⟩

/-- The messages on a queue. -/
def msgs (qs : Queues α) (q : ℕ) : List α :=
  match qs.queues[q]? with
  | some mq => mq.msgs
  | none => []

/-- `mq->active` -/
def active (qs : Queues α) (q : ℕ) : Bool :=
  match qs.queues[q]? with
  | some mq => mq.active
  | none => false

/-- A change of one queue. -/
def modify (qs : Queues α) (q : ℕ) (f : MsgQueue α → MsgQueue α) : Queues α :=
  { qs with queues := qs.queues.modify q f }

/-- `get_queue`, with `try_available`. -/
def getQueue (qs : Queues α) : ℕ × Queues α :=
  match qs.metaqueue with
  | q :: free => (q, { qs with metaqueue := free }.modify q fun mq => { mq with active := true })
  | [] => (qs.queues.length, { qs with queues := qs.queues ++ [⟨[], true⟩] })

/-- What `put_msg_raw` does with the lock. -/
def putMsgRaw (qs : Queues α) (q : ℕ) (msg : α) : Queues α := qs.modify q fun mq => { mq with msgs := mq.msgs ++ [msg] }

/-- What `get_msg_raw` does with the lock, once there is a message. -/
def getMsgRaw (qs : Queues α) (q : ℕ) : Queues α := qs.modify q fun mq => { mq with msgs := mq.msgs.tail }

/-- What `release_queue` does with the lock. -/
def deactivate (qs : Queues α) (q : ℕ) : Queues α := qs.modify q fun mq => { mq with active := false }

/-- What `release_queue` does in the end. -/
def putFree (qs : Queues α) (q : ℕ) : Queues α := { qs with metaqueue := qs.metaqueue ++ [q] }

/-! ### Messages -/

theorem msgs_modify_ne (qs : Queues α) {p q : ℕ} (h : p ≠ q) (f : MsgQueue α → MsgQueue α) :
    (qs.modify p f).msgs q = qs.msgs q := by
  simp only [msgs, modify, List.getElem?_modify]
  cases qs.queues[q]? <;> simp [h]

theorem msgs_modify_of_msgs (qs : Queues α) (f : MsgQueue α → MsgQueue α) (hf : ∀ mq, (f mq).msgs = mq.msgs) (p q : ℕ) :
    (qs.modify p f).msgs q = qs.msgs q := by
  simp only [msgs, modify, List.getElem?_modify]
  cases qs.queues[q]? with
  | none => rfl
  | some mq => by_cases h : p = q <;> simp [h, hf]

theorem getQueue_cons {qs : Queues α} {q : ℕ} {free : List ℕ} (h : qs.metaqueue = q :: free) :
    qs.getQueue = (q, { qs with metaqueue := free }.modify q fun mq => { mq with active := true }) := by
  simp only [getQueue, h]

theorem getQueue_nil {qs : Queues α} (h : qs.metaqueue = []) :
    qs.getQueue = (qs.queues.length, ⟨qs.queues ++ [⟨[], true⟩], []⟩) := by
  simp only [getQueue, h]

/-- A new queue has no messages, and one that is used again has those it had. -/
@[simp]
theorem msgs_getQueue (qs : Queues α) (q : ℕ) : qs.getQueue.2.msgs q = qs.msgs q := by
  cases hfree : qs.metaqueue with
  | cons p free =>
    rw [getQueue_cons hfree]
    exact msgs_modify_of_msgs { qs with metaqueue := free } (fun mq => { mq with active := true }) (fun _ => rfl) p q
  | nil =>
    rw [getQueue_nil hfree]
    simp only [msgs]
    rcases Nat.lt_trichotomy q qs.queues.length with hlt | rfl | hgt
    · rw [List.getElem?_append_left hlt]
    · simp
    · have hold : qs.queues[q]? = none := List.getElem?_eq_none (Nat.le_of_lt hgt)
      rw [hold, List.getElem?_eq_none (by simpa using Nat.succ_le_of_lt hgt)]

@[simp]
theorem msgs_deactivate (qs : Queues α) (p q : ℕ) : (qs.deactivate p).msgs q = qs.msgs q :=
  qs.msgs_modify_of_msgs (fun mq => { mq with active := false }) (fun _ => rfl) p q

@[simp]
theorem msgs_putFree (qs : Queues α) (p q : ℕ) : (qs.putFree p).msgs q = qs.msgs q := rfl

/-- What is on a queue after `get_msg` was there before. -/
theorem mem_msgs_getMsgRaw {qs : Queues α} {p q : ℕ} {r : α} (h : r ∈ (qs.getMsgRaw p).msgs q) : r ∈ qs.msgs q := by
  by_cases hpq : p = q
  · subst hpq
    simp only [msgs, getMsgRaw, modify, List.getElem?_modify] at h ⊢
    cases hp : qs.queues[p]? with
    | none => simp [hp] at h
    | some mq =>
      rw [hp] at h
      exact List.mem_of_mem_tail (by simpa using h)
  · rwa [getMsgRaw, msgs_modify_ne qs hpq] at h

/-- Of what is on a queue after `put_msg`, all but the message was there before. -/
theorem mem_msgs_putMsgRaw {qs : Queues α} {p q : ℕ} {msg r : α} (h : r ∈ (qs.putMsgRaw p msg).msgs q) :
    p = q ∧ r = msg ∨ r ∈ qs.msgs q := by
  by_cases hpq : p = q
  · subst hpq
    simp only [msgs, putMsgRaw, modify, List.getElem?_modify] at h ⊢
    cases hp : qs.queues[p]? with
    | none => simp [hp] at h
    | some mq => simpa [hp, or_comm] using h
  · rw [putMsgRaw, msgs_modify_ne qs hpq] at h
    exact .inr h

/-! ### Owners -/

/-- Each queue has an owner or is free. Those on the metaqueue, and those that have not
been made, are free. -/
structure Owned {ι : Type v} (qs : Queues α) (owner : ℕ → Option ι) : Prop where
  /-- A queue on the metaqueue is free. -/
  free : ∀ q ∈ qs.metaqueue, owner q = none
  /-- It has been made. -/
  made : ∀ q ∈ qs.metaqueue, q < qs.queues.length
  /-- It is there once. -/
  nodup : qs.metaqueue.Nodup
  /-- A queue that has not been made is free. -/
  new : ∀ q, qs.queues.length ≤ q → owner q = none

variable {ι : Type v} {qs : Queues α} {owner : ℕ → Option ι}

theorem owned_start : (start : Queues α).Owned fun _ => (none : Option ι) :=
  ⟨fun _ _ => rfl, fun _ h => absurd h List.not_mem_nil, List.nodup_nil, fun _ _ => rfl⟩

/-- `get_queue` returns a queue that was free. -/
theorem Owned.owner_getQueue (h : qs.Owned owner) : owner qs.getQueue.1 = none := by
  cases hfree : qs.metaqueue with
  | cons p free =>
    rw [getQueue_cons hfree]
    exact h.free p (hfree ▸ List.mem_cons_self)
  | nil =>
    rw [getQueue_nil hfree]
    exact h.new _ (Nat.le_refl _)

theorem Owned.modify (h : qs.Owned owner) (q : ℕ) (f : MsgQueue α → MsgQueue α) : (qs.modify q f).Owned owner := by
  have hlen : (qs.modify q f).queues.length = qs.queues.length := List.length_modify ..
  exact ⟨h.free, fun p hp => hlen ▸ h.made p hp, h.nodup, fun p hp => h.new p (hlen ▸ hp)⟩

/-- The queue that `get_queue` returns may be given an owner. -/
theorem Owned.getQueue (h : qs.Owned owner) (i : ι) :
    qs.getQueue.2.Owned (Function.update owner qs.getQueue.1 (some i)) := by
  cases hfree : qs.metaqueue with
  | cons p free =>
    rw [getQueue_cons hfree]
    obtain ⟨hp, hnodup⟩ := List.nodup_cons.mp (hfree ▸ h.nodup)
    have hmem : ∀ q ∈ free, q ∈ qs.metaqueue := fun q hq => hfree ▸ List.mem_cons_of_mem p hq
    have hlt : p < qs.queues.length := h.made p (hfree ▸ List.mem_cons_self)
    have howned : Owned (Queues.mk qs.queues free) (Function.update owner p (some i)) := by
      refine ⟨fun q hq => ?_, fun q hq => h.made q (hmem q hq), hnodup, fun q hq => ?_⟩
      · rw [Function.update_of_ne (ne_of_mem_of_not_mem hq hp)]
        exact h.free q (hmem q hq)
      · rw [Function.update_of_ne (Nat.ne_of_gt (Nat.lt_of_lt_of_le hlt hq))]
        exact h.new q hq
    exact howned.modify p _
  | nil =>
    rw [getQueue_nil hfree]
    have hnone : ∀ q, q ∉ ([] : List ℕ) := fun _ => List.not_mem_nil
    refine ⟨fun q hq => absurd hq (hnone q), fun q hq => absurd hq (hnone q), List.nodup_nil, fun q hq => ?_⟩
    rw [List.length_append, List.length_singleton] at hq
    rw [Function.update_of_ne (Nat.ne_of_gt hq)]
    exact h.new q (Nat.le_of_succ_le hq)

/-- A queue that is put on the metaqueue is free again. -/
theorem Owned.putFree (h : qs.Owned owner) {q : ℕ} {i : ι} (hq : owner q = some i) :
    (qs.putFree q).Owned (Function.update owner q none) := by
  have hnone : ∀ {p}, owner p = none → Function.update owner q none p = none := by
    intro p hp
    rw [Function.update_apply, hp, ite_self]
  have hmem : q ∉ qs.metaqueue := fun hmem => by
    rw [h.free q hmem] at hq
    cases hq
  have hlt : q < qs.queues.length := by
    by_contra hlt
    rw [h.new q (Nat.le_of_not_lt hlt)] at hq
    cases hq
  refine ⟨fun p hp => ?_, fun p hp => ?_, ?_, fun p hp => hnone (h.new p hp)⟩
  · rcases List.mem_append.mp hp with hp | hp
    · exact hnone (h.free p hp)
    · rw [List.mem_singleton.mp hp, Function.update_self]
  · rcases List.mem_append.mp hp with hp | hp
    · exact h.made p hp
    · exact List.mem_singleton.mp hp ▸ hlt
  · exact List.nodup_append.mpr ⟨h.nodup, List.nodup_singleton q, fun a ha b hb hab =>
      hmem (List.mem_singleton.mp hb ▸ hab ▸ ha)⟩

end Queues

end Gross.Queue
