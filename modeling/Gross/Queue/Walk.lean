import Gross.Queue.Linked
import Gross.Sync.Snapshot

/-!
# Walking through a delay queue

When a peer connects, `synchronize` freezes the update queue and calls `walk_queue`,
which is to call a function on each message that is waiting: on those of the inner
queue, and then on those of its `delaypair`, the outer one.

## The model

The two queues are lists of nodes in a heap, as `put_msg_raw` leaves them. The callback is
any function with a state of its own, and is given the pointer and what it points at.
`walkQueue` only reads, so the queues stay as they are. Its loops go on to NULL: they are
given a number of turns, and end within it when the lists are no longer than that.

## What is proved

* `walkQueue_eq` — the second loop starts from the head of the inner queue as well. So the
  callback is called on each message of the inner queue, in order; if the outer one is not
  empty, on each of them again; and on none of the outer one.
* `visits_each_once_iff` — each message of both is visited once, in order, exactly if there
  is none in the outer queue.
* `walkQueue_snapshot` — with `send_update_msg_as_oper_sync` this is the walk of
  `Sync.Snapshot`.
-/

namespace Gross.Queue.Walk

open Foundation Linked

universe u

variable {σ : Type u}

/-- A loop of `walk_queue` from a node on: what it returns, or nothing if it does not end in so
many turns. -/
def walkList (heap : Heap Msg) (callback : σ → Addr × List Byte → ℤ × σ) :
    ℕ → Option Addr → σ → Except Fault (Option (ℤ × σ))
  | _, none, s => .ok (some (0, s))
  | 0, some _, _ => .ok none
  | n + 1, some msg, s =>
    match heap.read (some msg) with
    | .error fault => .error fault
    | .ok node =>
      if (callback s (msg, node.msgp)).1 < 0 then .ok (some (-1, (callback s (msg, node.msgp)).2))
      else walkList heap callback n node.next (callback s (msg, node.msgp)).2

/-- What `walk_queue` does about the `delaypair`. -/
def walkPair (heap : Heap Msg) (callback : σ → Addr × List Byte → ℤ × σ) (n : ℕ) (mq : Linked.MsgQueue)
    (delaypair : Option Linked.MsgQueue) (s : σ) : Except Fault (Option (ℤ × σ)) :=
  match delaypair with
  | none => .ok (some (0, s))
  | some pair => if pair.head = none then .ok (some (0, s)) else walkList heap callback n mq.head s

/-- `walk_queue` -/
def walkQueue (heap : Heap Msg) (callback : σ → Addr × List Byte → ℤ × σ) (n : ℕ) (mq : Linked.MsgQueue)
    (delaypair : Option Linked.MsgQueue) (s : σ) : Except Fault (Option (ℤ × σ)) :=
  if mq.active = false then .ok (some (-1, s))
  else
    match walkList heap callback n mq.head s with
    | .error fault => .error fault
    | .ok none => .ok none
    | .ok (some (ret, s)) =>
      if ret < 0 then .ok (some (ret, s)) else walkPair heap callback n mq delaypair s

/-! ### A delay queue -/

/-- A delay queue that nobody changes: two lists of nodes, with no node in both. -/
structure Frozen (heap : Heap Msg) (inq outq : Linked.MsgQueue) (ins outs : List (Addr × Msg)) : Prop where
  /-- It has not been released; a delay queue never is. -/
  active : inq.active = true
  /-- The inner queue. -/
  inq : Represents inq heap ins
  /-- The outer queue. -/
  outq : Represents outq heap outs
  /-- A node is in one of them. -/
  apart : ∀ x ∈ outs, x.1 ∉ ins.map Prod.fst

/-- What the callback is given for a node. -/
def message (x : Addr × Msg) : Addr × List Byte := (x.1, x.2.msgp)

/-- The callback is called on these messages, one after another. -/
def visit (callback : σ → Addr × List Byte → ℤ × σ) (nodes : List (Addr × Msg)) (s : σ) : σ :=
  nodes.foldl (fun s x => (callback s (message x)).2) s

section

variable {heap : Heap Msg} {callback : σ → Addr × List Byte → ℤ × σ} {n : ℕ} {p : Option Addr}
  {nodes ins outs : List (Addr × Msg)} {inq outq : Linked.MsgQueue}

theorem visit_append (l l' : List (Addr × Msg)) (s : σ) :
    visit callback (l ++ l') s = visit callback l' (visit callback l s) := List.foldl_append

/-- A loop over a list visits its nodes. -/
theorem walkList_eq (hcallback : ∀ s m, 0 ≤ (callback s m).1) (hlist : Segment Msg.next heap p nodes none)
    (hn : nodes.length ≤ n) (s : σ) : walkList heap callback n p s = .ok (some (0, visit callback nodes s)) := by
  induction nodes generalizing n p s with
  | nil =>
    cases hlist
    cases n <;> rfl
  | cons x nodes ih =>
    obtain ⟨a, c⟩ := x
    obtain ⟨rfl, hc, hlist⟩ := hlist
    obtain ⟨n, rfl⟩ := Nat.exists_eq_add_one_of_ne_zero (Nat.ne_of_gt (Nat.lt_of_lt_of_le (Nat.succ_pos _) hn))
    simp only [walkList, Heap.read_some hc, if_neg (Int.not_lt.mpr (hcallback s (a, c.msgp)))]
    exact ih hlist (Nat.le_of_succ_le_succ hn) _

/-- **What `walk_queue` visits**: the inner queue, and the inner queue again if the outer one is not
empty. -/
theorem walkQueue_eq (hq : Frozen heap inq outq ins outs) (hcallback : ∀ s m, 0 ≤ (callback s m).1)
    (hn : ins.length ≤ n) (s : σ) :
    walkQueue heap callback n inq (some outq) s =
      .ok (some (0, visit callback (ins ++ if outs = [] then [] else ins) s)) := by
  have hfirst := walkList_eq hcallback hq.inq.list hn
  simp only [walkQueue, hq.active, Bool.true_eq_false, if_false, hfirst, Int.lt_irrefl, walkPair,
    ← hq.outq.list.nil_iff]
  split_ifs
  · rw [List.append_nil]
  · rw [visit_append]

/-- A callback that adds something to a list at each call. -/
def collect {α : Type u} (f : Addr × List Byte → List α) (s : List α) (m : Addr × List Byte) : ℤ × List α :=
  (0, s ++ f m)

theorem visit_collect {α : Type u} (f : Addr × List Byte → List α) (nodes : List (Addr × Msg)) (s : List α) :
    visit (collect f) nodes s = s ++ nodes.flatMap fun x => f (message x) := by
  induction nodes generalizing s with
  | nil => simp [visit]
  | cons x nodes ih =>
    rw [show visit (collect f) (x :: nodes) s = visit (collect f) nodes (s ++ f (message x)) from rfl, ih,
      List.flatMap_cons, List.append_assoc]

/-- A callback that remembers what it was called on. -/
def remember : List (Addr × List Byte) → Addr × List Byte → ℤ × List (Addr × List Byte) := collect fun m => [m]

theorem visit_remember (nodes : List (Addr × Msg)) : visit remember nodes [] = nodes.map message := by
  rw [remember, visit_collect, List.nil_append, List.map_eq_flatMap]

/-- **Each message once**: `walk_queue` with a callback that never returns a negative value calls it
exactly once on every message of the inner queue and then exactly once on every message of the
outer one, each in order, exactly if the outer one is empty. -/
theorem visits_each_once_iff (hq : Frozen heap inq outq ins outs) (hn : ins.length + outs.length ≤ n) :
    (∀ (σ : Type) (callback : σ → Addr × List Byte → ℤ × σ), (∀ s m, 0 ≤ (callback s m).1) → ∀ s,
        walkQueue heap callback n inq (some outq) s = .ok (some (0, visit callback (ins ++ outs) s))) ↔
      outs = [] := by
  have hlen : ins.length ≤ n := by omega
  constructor
  · intro h
    by_contra hne
    have hcalls := h _ remember (fun _ _ => Int.le_refl 0) []
    rw [walkQueue_eq hq (fun _ _ => Int.le_refl 0) hlen, if_neg hne] at hcalls
    injection hcalls with hcalls
    simp only [visit_remember, Option.some.injEq, Prod.mk.injEq, true_and, List.map_append,
      List.append_cancel_left_eq] at hcalls
    -- the first node of the outer queue would be one of the inner queue
    cases outs with
    | nil => exact hne rfl
    | cons x outs =>
      have hx : message x ∈ ins.map message := by
        rw [hcalls]
        exact List.mem_cons_self ..
      obtain ⟨y, hy, hxy⟩ := List.mem_map.mp hx
      have haddr : y.1 = x.1 := congrArg (fun m => m.1) hxy
      exact hq.apart x (List.mem_cons_self ..) (List.mem_map.mpr ⟨y, hy, haddr⟩)
  · rintro rfl σ callback hcallback s
    rw [walkQueue_eq hq hcallback hlen, if_pos rfl]

/-! ### As the peer sees it -/

/-- `send_update_msg_as_oper_sync`, which keeps what was sent, to a peer that takes it. -/
def sendUpdate (decode : List Byte → Sync.Msg) :
    List Bloom.Digest → Addr × List Byte → ℤ × List Bloom.Digest :=
  collect fun m => (Sync.sendUpdateMsgAsOperSync (decode m.2)).toList

theorem visit_sendUpdate (decode : List Byte → Sync.Msg) (nodes : List (Addr × Msg)) :
    visit (sendUpdate decode) nodes [] =
      (nodes.map fun x => decode x.2.msgp).filterMap Sync.sendUpdateMsgAsOperSync := by
  rw [sendUpdate, visit_collect, List.nil_append, List.filterMap_map, List.filterMap_eq_flatMap_toList]
  rfl

/-- With `send_update_msg_as_oper_sync`, what is sent is what `Sync.walkQueue` says. -/
theorem walkQueue_snapshot (decode : List Byte → Sync.Msg) (hq : Frozen heap inq outq ins outs)
    (hn : ins.length ≤ n) :
    walkQueue heap (sendUpdate decode) n inq (some outq) [] = .ok (some (0, Sync.walkQueue
      (ins.map fun x => decode x.2.msgp) (outs.map fun x => decode x.2.msgp))) := by
  rw [walkQueue_eq hq (fun _ _ => Int.le_refl 0) hn, visit_sendUpdate, Sync.walkQueue,
    List.map_append, List.filterMap_append]
  simp only [List.map_eq_nil_iff]
  split_ifs <;> rfl

end

/-! ### One message in each queue -/

/-- A message that was put a while ago, and one that has just been put. -/
def oneEach : Heap Msg := fun a =>
  if a = 1 then some ⟨[1], 1, none⟩ else if a = 2 then some ⟨[2], 1, none⟩ else none

/-- The inner queue, with the new message. -/
def newer : Linked.MsgQueue := ⟨some 1, some 1, 1, true⟩

/-- The outer queue, with the old one. -/
def older : Linked.MsgQueue := ⟨some 2, some 2, 1, true⟩

theorem frozen_oneEach : Frozen oneEach newer older [(1, ⟨[1], 1, none⟩)] [(2, ⟨[2], 1, none⟩)] where
  active := rfl
  inq := ⟨⟨rfl, rfl, rfl⟩, rfl, rfl⟩
  outq := ⟨⟨rfl, rfl, rfl⟩, rfl, rfl⟩
  apart := by simp

/-- A queue with nothing in it. -/
def nothing : Linked.MsgQueue := ⟨none, none, 0, true⟩

theorem frozen_newer : Frozen oneEach newer nothing [(1, ⟨[1], 1, none⟩)] [] where
  active := rfl
  inq := ⟨⟨rfl, rfl, rfl⟩, rfl, rfl⟩
  outq := ⟨rfl, rfl, rfl⟩
  apart := by simp

theorem visits_each_once_newer :
    Frozen oneEach newer nothing [(1, ⟨[1], 1, none⟩)] [] ∧
      walkQueue oneEach remember 1 newer (some nothing) [] = .ok (some (0, [(1, [1])])) :=
  ⟨frozen_newer, (visits_each_once_iff frozen_newer (n := 1) (Nat.le_refl 1)).mpr rfl _ remember
    (fun _ _ => Int.le_refl 0) []⟩

/-- With a message in each, the one in the inner queue is visited twice and the one in the outer
queue not at all. -/
theorem walkQueue_oneEach :
    Frozen oneEach newer older [(1, ⟨[1], 1, none⟩)] [(2, ⟨[2], 1, none⟩)] ∧
      walkQueue oneEach remember 2 newer (some older) [] = .ok (some (0, [(1, [1]), (1, [1])])) :=
  ⟨frozen_oneEach, rfl⟩

end Gross.Queue.Walk
