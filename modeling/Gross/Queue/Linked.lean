import Gross.Foundation.ByteOrder
import Gross.Foundation.Heap
import Gross.Foundation.Run
import Mathlib.Data.Int.Notation
import Mathlib.Logic.Function.Basic

/-!
# The queue as it is linked

A message queue is a list of nodes, with a pointer to the first and one to the last,
and a count. `put_msg` makes a node and links it to the last; `get_msg` unlinks the
first, copies what it says and frees it. What is between the lock and the unlock of a
queue is one step; before and after, threads overlap in any way.

## The model

A node and the text its `msgp` points at are one block. `malloc` returns the address of
any block that is not there. A thread that waits may return from the wait at any time
and with any status: signalled, or not, or timed out.

* `putMsgRaw` — the critical section of `put_msg_raw`.
* `getMsgRaw`, `getMsgRawWoken` — that of `get_msg_raw`, from the lock and from the
  return of the wait.
* `step` — a step of one of the threads.

Beside the queue the state has the messages in the order they were appended, and those
in the order they were delivered.

## What is proved

* `linked_in_order` — whatever the threads do, the nodes are a list from `head` to
  `tail`, no assertion fails and no pointer is bad, and what was appended is what was
  delivered and then what is in the list. The count is right while it fits an `int`.
* `msgcount_wraps` — with 2³¹ messages pending the count is negative.

## Honest scope

Locking and unlocking do not fail. `msgcount` wraps, which is what an increment in
memory does; C leaves it undefined. The queue is a plain one, without a `delaypair`, and
`release_queue` is not called.
-/

namespace Gross.Queue.Linked

open Foundation

/-- `ETIMEDOUT` -/
def etimedout : ℤ := 110

/-- `msg_t`, with what is at `msgp`. -/
structure Msg where
  /-- `msgp` -/
  msgp : List Byte
  /-- `msgsz` -/
  msgsz : ℕ
  /-- `next` -/
  next : Option Addr
  deriving DecidableEq, Repr

/-- `msgqueue_t` -/
structure MsgQueue where
  /-- `head` -/
  head : Option Addr
  /-- `tail` -/
  tail : Option Addr
  /-- `msgcount` -/
  msgcount : Word
  /-- `active` -/
  active : Bool
  deriving DecidableEq, Repr

/-- What `put_msg_raw` does with the node before the new one. -/
def link (mq : MsgQueue) (heap : Heap Msg) (msg : Addr) : Except Fault (MsgQueue × Heap Msg) :=
  match mq.tail with
  | some tail => do
    -- the queue is not empty
    check (mq.head.isSome = true)
    let node ← heap.read (some tail)
    let heap ← heap.write (some tail) { node with next := some msg }
    return (mq, heap)
  | none => do
    check (mq.head = none)
    return ({ mq with head := some msg }, heap)

/-- `put_msg_raw`, on a queue that is active. -/
def putMsgRaw (mq : MsgQueue) (heap : Heap Msg) (msg : Addr) : Except Fault (MsgQueue × Heap Msg) := do
  let (mq, heap) ← link mq heap msg
  let node ← heap.read (some msg)
  check (node.next = none)
  return ({ mq with tail := some msg, msgcount := mq.msgcount + 1 }, heap)

/-- What `get_msg_raw` does after the wait. -/
def takeMsg (mq : MsgQueue) (heap : Heap Msg) (ret : ℤ) : Except Fault (Option Addr × MsgQueue × Heap Msg) :=
  if ret = 0 then do
    check (mq.head.isSome = true)
    check (mq.tail.isSome = true)
    let node ← heap.read mq.head
    let heap ← heap.write mq.head { node with next := none }
    let msgcount := mq.msgcount - 1
    if node.next = none then do
      -- the queue is now empty
      check (mq.tail = mq.head)
      check (msgcount = 0)
      return (mq.head, { mq with head := none, tail := none, msgcount := msgcount }, heap)
    else return (mq.head, { mq with head := node.next, msgcount := msgcount }, heap)
  else .ok (none, mq, heap)

/-- What a critical section of `get_msg_raw` comes to. -/
inductive Result where
  /-- The thread waits. -/
  | waits
  /-- It goes on and returns `msg`. -/
  | returns (msg : Option Addr) (mq : MsgQueue) (heap : Heap Msg)

/-- `get_msg_raw` returns. -/
def returnMsg (mq : MsgQueue) (heap : Heap Msg) (ret : ℤ) : Except Fault Result := do
  let (msg, mq, heap) ← takeMsg mq heap ret
  return .returns msg mq heap

/-- `get_msg_raw`, from the lock to the wait, or to its end. -/
def getMsgRaw (mq : MsgQueue) (heap : Heap Msg) (timeout : ℤ) : Except Fault Result :=
  if timeout ≥ 0 then
    if mq.head = none then .ok .waits else returnMsg mq heap 0
  else if mq.head = none then returnMsg mq heap (-1)
  else returnMsg mq heap 0

/-- `get_msg_raw`, from where a wait has returned `ret`. -/
def getMsgRawWoken (mq : MsgQueue) (heap : Heap Msg) (timeout ret : ℤ) : Except Fault Result :=
  if timeout ≠ 0 ∧ ret = etimedout then returnMsg mq heap ret
  else if mq.head = none then .ok .waits
  else returnMsg mq heap ret

/-- What `get_msg_timed` copies out of a message. -/
def copyMsg (heap : Heap Msg) (msg : Addr) (maxsize : ℕ) : Except Fault (List Byte) := do
  let node ← heap.read (some msg)
  let msglen := if maxsize < node.msgsz then maxsize else node.msgsz
  if msglen ≤ node.msgp.length then return node.msgp.take msglen else .error .outOfBounds

/-! ### Threads -/

/-- Where a thread is. -/
inductive Phase where
  /-- In neither. -/
  | idle
  /-- In `put_msg`, before the lock, with the node. -/
  | putting (msg : Addr)
  /-- In `get_msg_timed`, before the lock. -/
  | getting (maxsize : ℕ) (timeout : ℤ)
  /-- In the wait. -/
  | waiting (maxsize : ℕ) (timeout : ℤ)
  /-- In `get_msg_timed`, with the message delivered as the `n`th. -/
  | got (maxsize : ℕ) (msg : Addr) (n : ℕ)
  deriving DecidableEq, Repr

/-- The node a thread has that is not in the queue. -/
def Phase.hand : Phase → Option Addr
  | .putting msg => some msg
  | .got _ msg _ => some msg
  | _ => none

/-- The queue, the threads, and what came to pass. -/
structure State where
  /-- The heap. -/
  heap : Heap Msg
  /-- The queue. -/
  mq : MsgQueue
  /-- The threads. -/
  threads : ℕ → Phase
  /-- The messages appended, in order. -/
  appended : List (List Byte)
  /-- The messages delivered, in order. -/
  delivered : List (List Byte)

/-- A new queue. -/
def start (active : Bool) : State := ⟨Heap.empty, ⟨none, none, 0, active⟩, fun _ => .idle, [], []⟩

/-- A step of thread `t`. -/
inductive Act where
  /-- `put_msg` is called, and makes a node at `a`. -/
  | put (t : ℕ) (a : Addr) (omsgp : List Byte)
  /-- `put_msg_raw` from lock to unlock. -/
  | append (t : ℕ)
  /-- `get_msg_timed` is called; `get_msg` is the one with timeout 0. -/
  | get (t : ℕ) (maxsize : ℕ) (timeout : ℤ)
  /-- `get_msg_raw` takes the lock. -/
  | enter (t : ℕ)
  /-- The wait returns. -/
  | wake (t : ℕ) (ret : ℤ)
  /-- The message is copied and freed. -/
  | finish (t : ℕ)
  deriving DecidableEq, Repr

/-- What the node at `a` says. -/
def textAt (heap : Heap Msg) (a : Addr) : List Byte := (heap a).elim [] Msg.msgp

namespace State

/-- Thread `t` is at `ph`. -/
def goto (s : State) (t : ℕ) (ph : Phase) : State := { s with threads := Function.update s.threads t ph }

/-- Thread `t` leaves the critical section of `get_msg_raw`. -/
def leave (s : State) (t maxsize : ℕ) (timeout : ℤ) : Result → State
  | .waits => s.goto t (.waiting maxsize timeout)
  | .returns none mq heap => { s.goto t .idle with mq := mq, heap := heap }
  | .returns (some msg) mq heap =>
    { s.goto t (.got maxsize msg s.delivered.length) with
      mq := mq, heap := heap, delivered := s.delivered ++ [textAt heap msg] }

end State

/-- A step. An action that is not one of its thread at the time does nothing. -/
def step (s : State) : Act → Except Fault State
  | .put t a omsgp =>
    if s.threads t = .idle ∧ s.heap a = none then do
      -- `Malloc(msgsz)`
      check (omsgp ≠ [])
      let heap := s.heap.set a (some ⟨omsgp, omsgp.length, none⟩)
      -- on a queue that is not active the node is left behind
      return { s.goto t (if s.mq.active then .putting a else .idle) with heap := heap }
    else .ok s
  | .append t =>
    match s.threads t with
    | .putting msg => do
      let (mq, heap) ← putMsgRaw s.mq s.heap msg
      return { s.goto t .idle with mq := mq, heap := heap, appended := s.appended ++ [textAt s.heap msg] }
    | _ => .ok s
  | .get t maxsize timeout =>
    if s.threads t = .idle ∧ s.mq.active = true then .ok (s.goto t (.getting maxsize timeout)) else .ok s
  | .enter t =>
    match s.threads t with
    | .getting maxsize timeout => do
      let r ← getMsgRaw s.mq s.heap timeout
      return s.leave t maxsize timeout r
    | _ => .ok s
  | .wake t ret =>
    match s.threads t with
    | .waiting maxsize timeout => do
      let r ← getMsgRawWoken s.mq s.heap timeout ret
      return s.leave t maxsize timeout r
    | _ => .ok s
  | .finish t =>
    match s.threads t with
    | .got maxsize msg _ => do
      let _ ← copyMsg s.heap msg maxsize
      let heap ← s.heap.free (some msg)
      return { s.goto t .idle with heap := heap }
    | _ => .ok s

/-! ### The list -/

/-- The queue is the list of these nodes. -/
structure Represents (mq : MsgQueue) (heap : Heap Msg) (nodes : List (Addr × Msg)) : Prop where
  /-- They follow one another from the head, and the last points to none. -/
  list : Segment Msg.next heap mq.head nodes none
  /-- The tail is the last. -/
  tail : mq.tail = nodes.getLast?.map Prod.fst
  /-- They are counted. -/
  count : mq.msgcount = BitVec.ofNat 32 nodes.length

/-- What is written changes no text. -/
def SameTexts (heap heap' : Heap Msg) : Prop :=
  ∀ a, (heap' a).map (fun c => (c.msgp, c.msgsz)) = (heap a).map fun c => (c.msgp, c.msgsz)

theorem sameTexts_refl (heap : Heap Msg) : SameTexts heap heap := fun _ => rfl

/-- A pointer to the next node is written. -/
theorem sameTexts_set {heap : Heap Msg} {a : Addr} {c : Msg} (hc : heap a = some c) (next : Option Addr) :
    SameTexts heap (heap.set a (some { c with next := next })) := by
  intro b
  by_cases hb : b = a
  · rw [hb, Heap.set_self, hc]
    rfl
  · rw [Heap.set_ne _ hb]

/-- A node says after what it said before. -/
theorem SameTexts.node {heap heap' : Heap Msg} (h : SameTexts heap heap') {a : Addr} {c' : Msg} (hc' : heap' a = some c') :
    ∃ c, heap a = some c ∧ c'.msgp = c.msgp ∧ c'.msgsz = c.msgsz := by
  have ha := h a
  rw [hc', Option.map_some, eq_comm, Option.map_eq_some_iff] at ha
  obtain ⟨c, hc, heq⟩ := ha
  rw [Prod.mk.injEq] at heq
  exact ⟨c, hc, heq.1.symm, heq.2.symm⟩

section

variable {mq : MsgQueue} {heap : Heap Msg} {nodes : List (Addr × Msg)} {msg : Addr} {c : Msg}

theorem Represents.head_isSome (h : Represents mq heap nodes) : mq.head.isSome = true ↔ nodes ≠ [] := by
  rw [Option.isSome_iff_ne_none, Ne, Ne, h.list.nil_iff]

theorem Represents.tail_isSome (h : Represents mq heap nodes) : mq.tail.isSome = true ↔ nodes ≠ [] := by
  rw [h.tail, Option.isSome_map, Option.isSome_iff_ne_none, Ne, Ne, List.getLast?_eq_none_iff]

/-- The first node of an empty queue is linked. -/
theorem link_empty (h : Represents mq heap []) (msg : Addr) :
    link mq heap msg = .ok ({ mq with head := some msg }, heap) := by
  have htail : mq.tail = none := h.tail
  have hhead : mq.head = none := h.list
  simp only [link, htail, check_pos hhead]
  rfl

/-- A node is linked to the last one. -/
theorem link_last {l : List (Addr × Msg)} {z : Addr} {cz : Msg} (h : Represents mq heap (l ++ [(z, cz)])) (msg : Addr) :
    link mq heap msg = .ok (mq, heap.set z (some { cz with next := some msg })) := by
  have htail : mq.tail = some z := by simp [h.tail]
  have hhead : mq.head.isSome = true := h.head_isSome.mpr (by simp)
  have hz : heap z = some cz := h.list.mem (by simp)
  simp only [link, htail, check_pos hhead, Heap.read_some hz, Heap.write_some hz, ok_bind]
  rfl

/-- **`put_msg_raw`** on a queue that is a list appends the node to the list. -/
theorem putMsgRaw_ok (h : Represents mq heap nodes) (hmsg : heap msg = some c) (hnext : c.next = none)
    (hnew : msg ∉ nodes.map Prod.fst) :
    ∃ mq' heap' nodes', putMsgRaw mq heap msg = .ok (mq', heap') ∧ Represents mq' heap' nodes' ∧
      nodes'.map (·.2.msgp) = nodes.map (·.2.msgp) ++ [c.msgp] ∧ nodes'.map Prod.fst = nodes.map Prod.fst ++ [msg] ∧
      mq'.active = mq.active ∧ SameTexts heap heap' ∧ ∀ a ∉ nodes.map Prod.fst, heap' a = heap a := by
  obtain rfl | ⟨l, ⟨z, cz⟩, rfl⟩ := List.eq_nil_or_concat' nodes
  · refine ⟨{ mq with head := some msg, tail := some msg, msgcount := mq.msgcount + 1 }, heap, [(msg, c)], ?_, ?_,
      rfl, rfl, rfl, sameTexts_refl heap, fun _ _ => rfl⟩
    · simp only [putMsgRaw, link_empty h, Heap.read_some hmsg, check_pos hnext, ok_bind]
      rfl
    · refine ⟨⟨rfl, hmsg, hnext⟩, rfl, ?_⟩
      simp [h.count]
  · have hz : heap z = some cz := h.list.mem (by simp)
    have hne : msg ≠ z := by
      rintro rfl
      simp at hnew
    have hmsg' : heap.set z (some { cz with next := some msg }) msg = some c := (Heap.set_ne _ hne _).trans hmsg
    refine ⟨{ mq with tail := some msg, msgcount := mq.msgcount + 1 }, _,
      l ++ [(z, { cz with next := some msg }), (msg, c)], ?_, ?_, by simp, by simp, rfl,
      sameTexts_set hz (some msg), ?_⟩
    · simp only [putMsgRaw, link_last h, Heap.read_some hmsg', check_pos hnext, ok_bind]
      rfl
    · refine ⟨h.list.push hnew hmsg hnext rfl, by simp, ?_⟩
      simp only [h.count, List.length_append, List.length_cons, List.length_nil]
      exact (BitVec.ofNat_add _ 1).symm
    · intro a ha
      refine Heap.set_ne _ ?_ _
      rintro rfl
      simp at ha

/-- **`get_msg_raw`**, when it goes on with status 0, unlinks the first node. -/
theorem takeMsg_ok (h : Represents mq heap ((msg, c) :: nodes)) :
    ∃ mq', takeMsg mq heap 0 = .ok (some msg, mq', heap.set msg (some { c with next := none })) ∧
      Represents mq' (heap.set msg (some { c with next := none })) nodes ∧ mq'.active = mq.active := by
  obtain ⟨hhead, hmsg, hrest⟩ := h.list
  have htail : mq.tail.isSome = true := h.tail_isSome.mpr (by simp)
  have hcount : mq.msgcount - 1 = BitVec.ofNat 32 nodes.length := by
    rw [h.count, List.length_cons, BitVec.ofNat_add]
    exact BitVec.add_sub_cancel ..
  -- the node taken is not one of those that stay
  have hrest' : Segment Msg.next (heap.set msg (some { c with next := none })) c.next nodes none := by
    have hnodup := h.list.nodup
    rw [List.map_cons, List.nodup_cons] at hnodup
    exact hrest.frame_set hnodup.1 _
  by_cases hempty : c.next = none
  · have hnil : nodes = [] := hrest.nil_iff.mpr hempty
    subst hnil
    have hlast : mq.tail = some msg := h.tail
    have hzero : mq.msgcount - 1 = 0 := hcount
    refine ⟨{ mq with head := none, tail := none, msgcount := mq.msgcount - 1 }, ?_, ⟨rfl, rfl, hcount⟩, rfl⟩
    simp only [takeMsg, hhead, hlast, Heap.read_some hmsg, Heap.write_some hmsg, Option.isSome_some, ok_bind, if_true,
      hempty, hzero, check_pos]
    rfl
  · have hne : nodes ≠ [] := fun hnil => hempty (hrest.nil_iff.mp hnil)
    refine ⟨{ mq with head := c.next, msgcount := mq.msgcount - 1 }, ?_, ⟨hrest', ?_, hcount⟩, rfl⟩
    · simp only [takeMsg, hhead, htail, Heap.read_some hmsg, Heap.write_some hmsg, Option.isSome_some, ok_bind, if_true,
        hempty, check_pos, if_false]
      rfl
    · rw [h.tail, List.getLast?_cons_of_ne_nil hne]

/-- What a critical section of `get_msg_raw` may come to. -/
inductive Serves (mq : MsgQueue) (heap : Heap Msg) (nodes : List (Addr × Msg)) : Except Fault Result → Prop where
  /-- The thread waits. -/
  | waits : Serves mq heap nodes (.ok .waits)
  /-- It returns without a message. -/
  | none : Serves mq heap nodes (.ok (.returns none mq heap))
  /-- It returns with the first one. -/
  | first {msg : Addr} {c : Msg} {rest : List (Addr × Msg)} {mq' : MsgQueue} (hnodes : nodes = (msg, c) :: rest)
    (hrest : Represents mq' (heap.set msg (some { c with next := none })) rest) (hactive : mq'.active = mq.active) :
    Serves mq heap nodes (.ok (.returns (some msg) mq' (heap.set msg (some { c with next := none }))))

theorem returnMsg_serves (h : Represents mq heap nodes) {ret : ℤ} (hret : ret = 0 → nodes ≠ []) :
    Serves mq heap nodes (returnMsg mq heap ret) := by
  by_cases hzero : ret = 0
  · obtain ⟨⟨msg, c⟩, rest, rfl⟩ := List.exists_cons_of_ne_nil (hret hzero)
    obtain ⟨mq', htake, hrest, hactive⟩ := takeMsg_ok h
    rw [returnMsg, hzero, htake]
    exact .first rfl hrest hactive
  · rw [returnMsg, takeMsg, if_neg hzero]
    exact .none

theorem Represents.nodes_ne_nil (h : Represents mq heap nodes) (hhead : ¬ mq.head = none) : nodes ≠ [] :=
  fun hnil => hhead (h.list.nil_iff.mp hnil)

theorem getMsgRaw_serves (h : Represents mq heap nodes) (timeout : ℤ) :
    Serves mq heap nodes (getMsgRaw mq heap timeout) := by
  unfold getMsgRaw
  split_ifs with htime hhead hhead
  · exact .waits
  · exact returnMsg_serves h fun _ => h.nodes_ne_nil hhead
  · exact returnMsg_serves h fun hret => by cases hret
  · exact returnMsg_serves h fun _ => h.nodes_ne_nil hhead

/-- A wait that has timed out takes no message, also when one is there by then. -/
theorem getMsgRawWoken_serves (h : Represents mq heap nodes) (timeout ret : ℤ) :
    Serves mq heap nodes (getMsgRawWoken mq heap timeout ret) := by
  unfold getMsgRawWoken
  split_ifs with htimedout hhead
  · refine returnMsg_serves h fun hret => ?_
    rw [htimedout.2] at hret
    cases hret
  · exact .waits
  · exact returnMsg_serves h fun _ => h.nodes_ne_nil hhead

end

/-! ### What holds whatever the threads do -/

/-- The queue is the list `nodes`, and each node in a thread's hand is there, is in no other
hand, and not in the list. -/
structure Inv (s : State) (nodes : List (Addr × Msg)) : Prop where
  /-- The queue is the list. -/
  queue : Represents s.mq s.heap nodes
  /-- What was appended was delivered, or is in the list. -/
  order : s.appended = s.delivered ++ nodes.map (·.2.msgp)
  /-- Each text has the size it says. -/
  sized : ∀ a c, s.heap a = some c → c.msgsz = c.msgp.length
  /-- A node in hand is linked to none, and not in the list. -/
  hand : ∀ t a, (s.threads t).hand = some a → a ∉ nodes.map Prod.fst ∧ ∃ c, s.heap a = some c ∧ c.next = none
  /-- It is in one hand. -/
  once : ∀ t t' a, (s.threads t).hand = some a → (s.threads t').hand = some a → t = t'
  /-- A message that is being copied is the one that was delivered. -/
  copied : ∀ t maxsize a n, s.threads t = .got maxsize a n → ∃ c, s.heap a = some c ∧ s.delivered[n]? = some c.msgp

theorem inv_start (active : Bool) : Inv (start active) [] where
  queue := ⟨rfl, rfl, rfl⟩
  order := rfl
  sized _ _ h := by cases h
  hand _ _ h := by cases h
  once _ _ _ h := by cases h
  copied _ _ _ _ h := by cases h

section

variable {s : State} {nodes : List (Addr × Msg)} {t : ℕ}

@[simp]
theorem State.threads_goto_self (s : State) (t : ℕ) (ph : Phase) : (s.goto t ph).threads t = ph :=
  Function.update_self ..

theorem State.threads_goto_ne (s : State) {t t' : ℕ} (h : t' ≠ t) (ph : Phase) :
    (s.goto t ph).threads t' = s.threads t' := Function.update_of_ne h ..

/-- A hand after thread `t` has gone on with empty hands is one of another thread. -/
theorem State.hand_goto {ph : Phase} (hph : ph.hand = none) {t' : ℕ} {a : Addr}
    (h : ((s.goto t ph).threads t').hand = some a) : t' ≠ t ∧ (s.threads t').hand = some a := by
  by_cases ht : t' = t
  · rw [ht, State.threads_goto_self, hph] at h
    cases h
  · rw [State.threads_goto_ne s ht] at h
    exact ⟨ht, h⟩

theorem Phase.hand_got {ph : Phase} {maxsize n : ℕ} {a : Addr} (h : ph = .got maxsize a n) : ph.hand = some a := by
  rw [h]
  rfl

/-- A thread goes on with empty hands. -/
theorem Inv.goto (h : Inv s nodes) {ph : Phase} (hph : ph.hand = none) : Inv (s.goto t ph) nodes where
  queue := h.queue
  order := h.order
  sized := h.sized
  hand t' a ha := h.hand t' a (State.hand_goto hph ha).2
  once t₁ t₂ a h₁ h₂ := h.once t₁ t₂ a (State.hand_goto hph h₁).2 (State.hand_goto hph h₂).2
  copied t' maxsize a n hgot := by
    have ht := (State.hand_goto hph (Phase.hand_got hgot)).1
    rw [State.threads_goto_ne s ht] at hgot
    exact h.copied t' maxsize a n hgot

/-- A node in a hand is not at an address that is free. -/
theorem Inv.hand_ne (h : Inv s nodes) {a : Addr} (ha : s.heap a = none) (t : ℕ) : (s.threads t).hand ≠ some a := by
  intro hhand
  obtain ⟨-, c, hc, -⟩ := h.hand t a hhand
  rw [ha] at hc
  cases hc

/-- A node of the list is not there either. -/
theorem Inv.notMem_of_free (h : Inv s nodes) {a : Addr} (ha : s.heap a = none) : a ∉ nodes.map Prod.fst := by
  intro hmem
  obtain ⟨⟨b, c⟩, hbc, rfl⟩ := List.mem_map.mp hmem
  rw [h.queue.list.mem hbc] at ha
  cases ha

/-- A node is made. -/
theorem Inv.alloc (h : Inv s nodes) {a : Addr} (ha : s.heap a = none) (omsgp : List Byte) :
    Inv { s with heap := s.heap.set a (some ⟨omsgp, omsgp.length, none⟩) } nodes where
  queue := ⟨h.queue.list.frame_set (h.notMem_of_free ha) _, h.queue.tail, h.queue.count⟩
  order := h.order
  sized b c hc := by
    change s.heap.set a _ b = some c at hc
    by_cases hb : b = a
    · rw [hb, Heap.set_self] at hc
      cases hc
      rfl
    · rw [Heap.set_ne _ hb] at hc
      exact h.sized b c hc
  hand t b hb := by
    have hba : b ≠ a := by
      rintro rfl
      exact h.hand_ne ha t hb
    obtain ⟨hmem, c, hc, hnext⟩ := h.hand t b hb
    exact ⟨hmem, c, (Heap.set_ne _ hba _).trans hc, hnext⟩
  once := h.once
  copied t maxsize b n hgot := by
    have hba : b ≠ a := by
      rintro rfl
      exact h.hand_ne ha t (Phase.hand_got hgot)
    obtain ⟨c, hc, htext⟩ := h.copied t maxsize b n hgot
    exact ⟨c, (Heap.set_ne _ hba _).trans hc, htext⟩

/-- A thread takes in its hand a node that is in no other, and not in the list. -/
theorem Inv.hold (h : Inv s nodes) {ph : Phase} {a : Addr} {c : Msg} (hph : ph.hand = some a)
    (hmem : a ∉ nodes.map Prod.fst) (hc : s.heap a = some c) (hnext : c.next = none)
    (hfree : ∀ t, (s.threads t).hand ≠ some a)
    (hgot : ∀ maxsize n, ph = .got maxsize a n → s.delivered[n]? = some c.msgp) : Inv (s.goto t ph) nodes where
  queue := h.queue
  order := h.order
  sized := h.sized
  hand t' b hb := by
    by_cases ht : t' = t
    · rw [ht, State.threads_goto_self, hph] at hb
      cases hb
      exact ⟨hmem, c, hc, hnext⟩
    · rw [State.threads_goto_ne s ht] at hb
      exact h.hand t' b hb
  once t₁ t₂ b h₁ h₂ := by
    by_cases ht₁ : t₁ = t <;> by_cases ht₂ : t₂ = t
    · rw [ht₁, ht₂]
    · rw [ht₁, State.threads_goto_self, hph] at h₁
      rw [State.threads_goto_ne s ht₂] at h₂
      cases h₁
      exact absurd h₂ (hfree t₂)
    · rw [State.threads_goto_ne s ht₁] at h₁
      rw [ht₂, State.threads_goto_self, hph] at h₂
      cases h₂
      exact absurd h₁ (hfree t₁)
    · rw [State.threads_goto_ne s ht₁] at h₁
      rw [State.threads_goto_ne s ht₂] at h₂
      exact h.once t₁ t₂ b h₁ h₂
  copied t' maxsize b n hb := by
    by_cases ht : t' = t
    · rw [ht, State.threads_goto_self] at hb
      have hab := Phase.hand_got hb
      rw [hph] at hab
      cases hab
      exact ⟨c, hc, hgot maxsize n hb⟩
    · rw [State.threads_goto_ne s ht] at hb
      exact h.copied t' maxsize b n hb

/-- A thread appends the node in its hand. -/
theorem Inv.append (h : Inv s nodes) {msg : Addr} (hph : s.threads t = .putting msg) :
    ∃ s' nodes', step s (.append t) = .ok s' ∧ Inv s' nodes' ∧ s'.threads t = .idle ∧ s'.mq.active = s.mq.active ∧
      nodes'.map Prod.fst = nodes.map Prod.fst ++ [msg] ∧ ∀ a ∉ nodes.map Prod.fst, s'.heap a = s.heap a := by
  have hhand : (s.threads t).hand = some msg := by rw [hph]; rfl
  obtain ⟨hmem, c, hc, hnext⟩ := h.hand t msg hhand
  obtain ⟨mq', heap', nodes', hput, hqueue, htexts, haddrs, hactive, hsame, hframe⟩ := putMsgRaw_ok h.queue hc hnext hmem
  refine ⟨{ s.goto t .idle with mq := mq', heap := heap', appended := s.appended ++ [textAt s.heap msg] }, nodes', ?_, ?_,
    State.threads_goto_self s t .idle, hactive, haddrs, hframe⟩
  · simp only [step, hph, hput]
    rfl
  have h' : Inv (s.goto t .idle) nodes := h.goto rfl
  refine ⟨hqueue, ?_, ?_, ?_, h'.once, ?_⟩
  · simp [h.order, htexts, textAt, hc, State.goto]
  · intro a d hd
    obtain ⟨c₀, hc₀, htext, hsize⟩ := hsame.node hd
    rw [htext, hsize]
    exact h.sized a c₀ hc₀
  · intro t' a ha
    obtain ⟨hne, hold⟩ := State.hand_goto rfl ha
    obtain ⟨hmem', d, hd, hd'⟩ := h.hand t' a hold
    refine ⟨?_, d, (hframe a hmem').trans hd, hd'⟩
    rw [haddrs, List.mem_append, List.mem_singleton, not_or]
    refine ⟨hmem', ?_⟩
    rintro rfl
    exact hne (h.once t' t a hold hhand)
  · intro t' maxsize a n hgot
    obtain ⟨d, hd, htext⟩ := h'.copied t' maxsize a n hgot
    have hmem' := (h'.hand t' a (Phase.hand_got hgot)).1
    exact ⟨d, (hframe a hmem').trans hd, htext⟩

/-- No hand holds the first node of the list, or one that follows. -/
theorem Inv.hand_ne_first {msg : Addr} {c : Msg} (h : Inv s ((msg, c) :: nodes)) {t : ℕ} {a : Addr}
    (ha : (s.threads t).hand = some a) : a ≠ msg ∧ a ∉ nodes.map Prod.fst := by
  have hmem := (h.hand t a ha).1
  rw [List.map_cons, List.mem_cons, not_or] at hmem
  exact hmem

/-- The first node of the list is unlinked. -/
theorem Inv.unlink {msg : Addr} {c : Msg} {mq' : MsgQueue} (h : Inv s ((msg, c) :: nodes))
    (hrest : Represents mq' (s.heap.set msg (some { c with next := none })) nodes) :
    Inv { s with mq := mq', heap := s.heap.set msg (some { c with next := none }), delivered := s.delivered ++ [c.msgp] }
      nodes where
  queue := hrest
  order := by simp [h.order]
  sized a d hd := by
    have hmsg : s.heap msg = some c := h.queue.list.mem (by simp)
    obtain ⟨c₀, hc₀, htext, hsize⟩ := (sameTexts_set hmsg none).node hd
    rw [htext, hsize]
    exact h.sized a c₀ hc₀
  hand t a ha := by
    obtain ⟨hne, hmem⟩ := h.hand_ne_first ha
    obtain ⟨-, d, hd, hnext⟩ := h.hand t a ha
    exact ⟨hmem, d, (Heap.set_ne _ hne _).trans hd, hnext⟩
  once := h.once
  copied t maxsize a n hgot := by
    obtain ⟨d, hd, htext⟩ := h.copied t maxsize a n hgot
    have hne := (h.hand_ne_first (Phase.hand_got hgot)).1
    have hlt : n < s.delivered.length := (List.getElem?_eq_some_iff.mp htext).1
    exact ⟨d, (Heap.set_ne _ hne _).trans hd, (List.getElem?_append_left hlt).trans htext⟩

/-- A thread leaves the critical section of `get_msg_raw`. -/
theorem Inv.leave (h : Inv s nodes) (maxsize : ℕ) (timeout : ℤ) {r : Except Fault Result}
    (hr : Serves s.mq s.heap nodes r) (t : ℕ) :
    ∃ s' nodes', (r >>= fun r => pure (s.leave t maxsize timeout r)) = .ok s' ∧ Inv s' nodes' := by
  cases hr with
  | waits => exact ⟨_, nodes, rfl, h.goto rfl⟩
  | none => exact ⟨_, nodes, rfl, h.goto rfl⟩
  | @first msg c rest mq' hnodes hrest hactive =>
    subst hnodes
    have hnodup := h.queue.list.nodup
    rw [List.map_cons, List.nodup_cons] at hnodup
    have htext : textAt (s.heap.set msg (some { c with next := none })) msg = c.msgp := by simp [textAt]
    refine ⟨_, rest, rfl, ?_⟩
    simp only [State.leave, htext]
    refine (h.unlink hrest).hold rfl hnodup.1 (Heap.set_self ..) rfl ?_ ?_
    · intro t' ha
      exact (h.hand_ne_first ha).1 rfl
    · intro size n hn
      cases hn
      simp

/-- What is copied out of a message is what was delivered, cut to the room there is. -/
theorem Inv.copyMsg (h : Inv s nodes) {maxsize n : ℕ} {msg : Addr} (hph : s.threads t = .got maxsize msg n) :
    ∃ text, s.delivered[n]? = some text ∧ copyMsg s.heap msg maxsize = .ok (text.take maxsize) := by
  obtain ⟨c, hc, htext⟩ := h.copied t maxsize msg n hph
  refine ⟨c.msgp, htext, ?_⟩
  have hlen : (if maxsize < c.msgsz then maxsize else c.msgsz) = min maxsize c.msgp.length := by
    rw [h.sized msg c hc]
    split_ifs <;> omega
  simp only [Linked.copyMsg, Heap.read_some hc, ok_bind, hlen, if_pos (Nat.min_le_right ..)]
  rw [← List.take_eq_take_min]
  rfl

/-- A thread copies the message in its hand and frees it. -/
theorem Inv.finish (h : Inv s nodes) {maxsize n : ℕ} {msg : Addr} (hph : s.threads t = .got maxsize msg n) :
    ∃ s' nodes', step s (.finish t) = .ok s' ∧ Inv s' nodes' := by
  have hhand : (s.threads t).hand = some msg := Phase.hand_got hph
  obtain ⟨hmem, c, hc, hnext⟩ := h.hand t msg hhand
  obtain ⟨text, -, hcopy⟩ := h.copyMsg hph
  refine ⟨{ s.goto t .idle with heap := s.heap.set msg none }, nodes, ?_, ?_⟩
  · simp only [step, hph, hcopy, Heap.free_some hc, ok_bind]
    rfl
  have h' : Inv (s.goto t .idle) nodes := h.goto rfl
  -- no other hand holds the node that is freed
  have hother : ∀ t' a, ((s.goto t .idle).threads t').hand = some a → a ≠ msg := by
    rintro t' a ha rfl
    obtain ⟨hne, ha⟩ := State.hand_goto rfl ha
    exact hne (h.once t' t a ha hhand)
  refine ⟨⟨h.queue.list.frame_set hmem _, h.queue.tail, h.queue.count⟩, h.order, ?_, ?_, h'.once, ?_⟩
  · intro a d hd
    change s.heap.set msg none a = some d at hd
    by_cases ha : a = msg
    · rw [ha, Heap.set_self] at hd
      cases hd
    · rw [Heap.set_ne _ ha] at hd
      exact h.sized a d hd
  · intro t' a ha
    obtain ⟨hmem', d, hd, hnext'⟩ := h'.hand t' a ha
    exact ⟨hmem', d, (Heap.set_ne _ (hother t' a ha) _).trans hd, hnext'⟩
  · intro t' size a k hgot
    obtain ⟨d, hd, htext⟩ := h'.copied t' size a k hgot
    exact ⟨d, (Heap.set_ne _ (hother t' a (Phase.hand_got hgot)) _).trans hd, htext⟩

/-- A thread that is in neither call makes a node. -/
theorem Inv.put (h : Inv s nodes) {a : Addr} (hidle : s.threads t = .idle) (ha : s.heap a = none) {omsgp : List Byte}
    (hsize : omsgp ≠ []) :
    ∃ s', step s (.put t a omsgp) = .ok s' ∧ Inv s' nodes ∧
      s'.threads t = (if s.mq.active then .putting a else .idle) ∧ s'.mq = s.mq ∧ ∀ b ≠ a, s'.heap b = s.heap b := by
  have halloc := h.alloc ha omsgp
  refine ⟨{ s.goto t (if s.mq.active then .putting a else .idle) with
    heap := s.heap.set a (some ⟨omsgp, omsgp.length, none⟩) }, ?_, ?_, State.threads_goto_self .., rfl,
    fun b hb => Heap.set_ne _ hb _⟩
  · simp only [step, hidle, ha, and_self, if_true, check_pos hsize]
    rfl
  cases s.mq.active with
  | false => exact halloc.goto rfl
  | true =>
    refine halloc.hold rfl (h.notMem_of_free ha) (Heap.set_self ..) rfl (h.hand_ne ha) ?_
    intro maxsize n hn
    cases hn

/-- **One step**: it fails only in `Malloc`, for a message of no bytes. -/
theorem Inv.step (h : Inv s nodes) (act : Act) :
    (∃ s' nodes', step s act = .ok s' ∧ Inv s' nodes') ∨ ∃ t a, act = .put t a [] := by
  -- an action that is not one of its thread does nothing
  have hskip (hs : Linked.step s act = .ok s) : ∃ s' nodes', Linked.step s act = .ok s' ∧ Inv s' nodes' :=
    ⟨s, nodes, hs, h⟩
  cases act with
  | put t a omsgp =>
    by_cases hsize : omsgp = []
    · exact .inr ⟨t, a, by rw [hsize]⟩
    left
    by_cases hpre : s.threads t = .idle ∧ s.heap a = none
    · obtain ⟨s', hput, h', -⟩ := h.put hpre.1 hpre.2 hsize
      exact ⟨s', nodes, hput, h'⟩
    · exact hskip (if_neg hpre)
  | append t =>
    left
    cases hph : s.threads t with
    | putting msg =>
      obtain ⟨s', nodes', happend, h', -⟩ := h.append hph
      exact ⟨s', nodes', happend, h'⟩
    | idle | getting _ _ | waiting _ _ | got _ _ _ => exact hskip (by simp only [Linked.step, hph])
  | get t maxsize timeout =>
    left
    by_cases hpre : s.threads t = .idle ∧ s.mq.active = true
    · exact ⟨_, nodes, if_pos hpre, h.goto rfl⟩
    · exact hskip (if_neg hpre)
  | enter t =>
    left
    cases hph : s.threads t with
    | getting maxsize timeout =>
      simp only [Linked.step, hph]
      exact h.leave maxsize timeout (getMsgRaw_serves h.queue timeout) t
    | idle | putting _ | waiting _ _ | got _ _ _ => exact hskip (by simp only [Linked.step, hph])
  | wake t ret =>
    left
    cases hph : s.threads t with
    | waiting maxsize timeout =>
      simp only [Linked.step, hph]
      exact h.leave maxsize timeout (getMsgRawWoken_serves h.queue timeout ret) t
    | idle | putting _ | getting _ _ | got _ _ _ => exact hskip (by simp only [Linked.step, hph])
  | finish t =>
    left
    cases hph : s.threads t with
    | got maxsize msg n => exact h.finish hph
    | idle | putting _ | getting _ _ | waiting _ _ => exact hskip (by simp only [Linked.step, hph])

end

section

variable {active : Bool} {acts : List Act} {s : State}

/-- **A whole run.** -/
theorem exists_inv (hrun : acts.foldlM step (start active) = .ok s) : ∃ nodes, Inv s nodes := by
  refine foldlM_preserves (fun s => ∃ nodes, Inv s nodes) ?_ ⟨[], inv_start active⟩ hrun
  rintro s act s' ⟨nodes, h⟩ hstep
  obtain ⟨s'', nodes', hok, h'⟩ | ⟨t, a, rfl⟩ := h.step act
  · rw [hok] at hstep
    cases hstep
    exact ⟨nodes', h'⟩
  · -- a message of no bytes was not made, as its thread was not idle
    simp only [step] at hstep
    split at hstep
    · cases hstep
    · cases hstep
      exact ⟨nodes, h⟩

/-- The count, while it fits an `int`. -/
theorem Represents.toInt_msgcount {mq : MsgQueue} {heap : Heap Msg} {nodes : List (Addr × Msg)}
    (h : Represents mq heap nodes) (hint : nodes.length ≤ 2147483647) : mq.msgcount.toInt = nodes.length := by
  rw [h.count, toInt_ofNat_of_lt (by omega)]

/-- In every run of any number of threads that put and get messages, with waits that end at
any time and in any way: the nodes from `head` are a list that ends with `tail`, both are NULL
or neither is, and while the count fits an `int` it is the length of the list, and 0 just for
the empty one. What was appended is what was delivered followed by what the list says. No next
step fails but `Malloc` for a message of no bytes. And what a call copies out is the message
delivered to it, cut to the room it has. -/
theorem linked_in_order (hrun : acts.foldlM step (start active) = .ok s) :
    ∃ nodes, Segment Msg.next s.heap s.mq.head nodes none ∧ s.mq.tail = nodes.getLast?.map Prod.fst ∧
      (s.mq.head = none ↔ s.mq.tail = none) ∧
      (nodes.length ≤ 2147483647 →
        s.mq.msgcount.toInt = nodes.length ∧ (s.mq.head = none ↔ s.mq.msgcount.toInt = 0)) ∧
      s.appended = s.delivered ++ nodes.map (·.2.msgp) ∧
      (∀ act fault, step s act = .error fault → ∃ t a, act = .put t a []) ∧
      ∀ t maxsize msg n, s.threads t = .got maxsize msg n →
        ∃ text, s.delivered[n]? = some text ∧ copyMsg s.heap msg maxsize = .ok (text.take maxsize) := by
  obtain ⟨nodes, h⟩ := exists_inv hrun
  have hhead : s.mq.head = none ↔ nodes = [] := h.queue.list.nil_iff.symm
  refine ⟨nodes, h.queue.list, h.queue.tail, ?_, ?_, h.order, ?_, fun t maxsize msg n hph => h.copyMsg hph⟩
  · rw [hhead, h.queue.tail, Option.map_eq_none_iff, List.getLast?_eq_none_iff]
  · intro hint
    have hcount := h.queue.toInt_msgcount hint
    refine ⟨hcount, ?_⟩
    rw [hhead, hcount, Int.natCast_eq_zero, List.length_eq_zero_iff]
  · intro act fault hfault
    obtain ⟨s', nodes', hok, -⟩ | hempty := h.step act
    · rw [hok] at hfault
      cases hfault
    · exact hempty

/-- A thread waits with a time limit, a message is put, the wait times out, and then the message is
taken. -/
def lateRun : List Act :=
  [.get 0 4 10, .enter 0, .put 1 7 [1, 2], .append 1, .wake 0 etimedout, .get 2 1 0, .enter 2]

/-- The message is not lost, and is copied as far as there is room. -/
theorem linked_in_order_late :
    ∃ s, lateRun.foldlM step (start true) = .ok s ∧ s.threads 0 = .idle ∧ s.delivered = [[1, 2]] ∧
      ∃ nodes, Segment Msg.next s.heap s.mq.head nodes none ∧ s.appended = s.delivered ++ nodes.map (·.2.msgp) ∧
        copyMsg s.heap 7 1 = .ok [1] := by
  have hrun : ∃ s, lateRun.foldlM step (start true) = .ok s ∧ s.threads 0 = .idle ∧ s.delivered = [[1, 2]] ∧
      s.threads 2 = .got 1 7 0 := ⟨_, rfl, rfl, rfl, rfl⟩
  obtain ⟨s, hrun, hidle, hdelivered, hgot⟩ := hrun
  obtain ⟨nodes, hlist, -, -, -, horder, -, hcopy⟩ := linked_in_order hrun
  obtain ⟨text, htext, hcopy⟩ := hcopy 2 1 7 0 hgot
  rw [hdelivered] at htext
  cases htext
  exact ⟨s, hrun, hidle, hdelivered, nodes, hlist, horder, hcopy⟩

end

/-! ### More messages than an `int` counts -/

/-- A thread puts `n` messages. -/
def fill (n : ℕ) : List Act := (List.range n).flatMap fun a => [.put 0 a [1], .append 0]

/-- They are all put. -/
theorem fill_ok (n : ℕ) :
    ∃ s nodes, (fill n).foldlM step (start true) = .ok s ∧ Inv s nodes ∧ s.threads 0 = .idle ∧ s.mq.active = true ∧
      nodes.map Prod.fst = List.range n ∧ ∀ a ≥ n, s.heap a = none := by
  induction n with
  | zero => exact ⟨start true, [], rfl, inv_start true, rfl, rfl, rfl, fun _ _ => rfl⟩
  | succ n ih =>
    obtain ⟨s, nodes, hrun, h, hidle, hactive, haddrs, hfree⟩ := ih
    obtain ⟨s₁, hput, h₁, hph, hmq, hheap⟩ :=
      h.put hidle (hfree n (Nat.le_refl n)) (show [(1 : Byte)] ≠ [] from List.cons_ne_nil 1 [])
    rw [hactive, if_pos rfl] at hph
    obtain ⟨s₂, nodes₂, happend, h₂, hidle₂, hactive₂, haddrs₂, hheap₂⟩ := h₁.append hph
    refine ⟨s₂, nodes₂, ?_, h₂, hidle₂, by rw [hactive₂, hmq, hactive], by rw [haddrs₂, haddrs, List.range_succ], ?_⟩
    · simp only [fill] at hrun
      simp only [fill, List.range_succ, List.flatMap_append, List.foldlM_append, hrun, ok_bind, List.flatMap_cons,
        List.flatMap_nil, List.append_nil, List.foldlM_cons, List.foldlM_nil, hput, happend]
      rfl
    · intro a ha
      rw [hheap₂ a (by rw [haddrs, List.mem_range]; omega), hheap a (Nat.ne_of_gt ha), hfree a (Nat.le_of_lt ha)]

/-- With 2³¹ messages in the queue the count is negative. -/
theorem msgcount_wraps :
    ∃ (acts : List Act) (s : State) (nodes : List (Addr × Msg)), acts.foldlM step (start true) = .ok s ∧
      Segment Msg.next s.heap s.mq.head nodes none ∧ nodes.length = 2147483648 ∧ s.mq.msgcount.toInt = -2147483648 := by
  obtain ⟨s, nodes, hrun, h, -, -, haddrs, -⟩ := fill_ok 2147483648
  have hlen : nodes.length = 2147483648 := by
    rw [← List.length_map Prod.fst, haddrs, List.length_range]
  refine ⟨_, s, nodes, hrun, h.queue.list, hlen, ?_⟩
  rw [h.queue.count, hlen]
  rfl

end Gross.Queue.Linked
