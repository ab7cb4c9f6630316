import Gross.Foundation.ByteOrder
import Gross.Foundation.Heap
import Gross.Foundation.Run
import Mathlib.Data.List.Nodup
import Mathlib.Logic.Function.Basic
import Mathlib.Tactic.Ring

/-!
# The numbers of the queues

A thread that needs a message queue calls `get_queue`, which returns a number, the
index in the array `queues`. `release_queue` puts the queue on a queue of its own, the
`metaqueue`, and `get_queue` takes one from there before it makes a new one. The array
is under one lock, `global_queue_lk`, and the metaqueue under its own; `release_queue`
looks at the queue without either.

## The model

`Gross.Queue.Pool` has each of these operations as one step on a list. Here they are
taken apart: the queues are on the heap, the array has cells that refer to them, and
between any two of the accesses below the other threads go on. `Gross.Queue.Runs`
shows that what the threads do is what that list does.

* `State.init`, `Act.tryAvailable`, `Act.activate`, `Act.create`, `Act.leave` —
  `get_queue`, from the lock to the unlock.
* `queueRealloc` — doubles the array. The numbers are those of an `int`.
* `Act.lookup`, `Act.testPair`, `Act.testHead`, `Act.deactivate`, `Act.putFree` —
  `release_queue`.
* `Act.append`, `Act.take`, `Act.pair` — what is done with a queue besides.

`State.held` has an entry for each time that `get_queue` has returned and the queue
has not been put on the metaqueue again.

* `Legal`, `Room` — what the threads keep to. `Sound` — what they may rely on, which
  `Gross.Queue.Runs` proves.

## What is proved

`grow` — while the array has at most 2³⁰ cells, there is a cell for the next queue, and
the others are as they were. `queueRealloc_eq` says what becomes of its size.

## Honest scope

`malloc` returns the address of any block that is not there, and does not fail; nor does
`realloc`, for a size that an object can have. What it leaves in the cells it adds is
arbitrary.
-/

namespace Gross.Queue.Ids

open Foundation

variable {α : Type}

/-- `msgqueue_t` -/
structure MsgQueue (α : Type) where
  /-- `id` -/
  id : Word
  /-- `active` -/
  active : Bool
  /-- The messages, from `head` to `tail`. -/
  msgs : List α
  /-- `delaypair` -/
  delaypair : Option Addr
  deriving DecidableEq, Repr

/-- `create_queue`, and what `get_queue` sets. -/
def createQueue (i : Word) : MsgQueue α := ⟨i, true, [], none⟩

/-- How far `release_queue` has come with its queue. -/
inductive Stage where
  /-- `queuebyid` has returned. -/
  | looked
  /-- `delaypair` was NULL. -/
  | unpaired
  /-- `head` was NULL. -/
  | empty
  /-- `active` is cleared. -/
  | inactive
  deriving DecidableEq, Repr

/-- Where a thread is. -/
inductive Phase where
  /-- In neither. -/
  | idle
  /-- In `get_queue`, with the lock. -/
  | trying
  /-- In `get_queue`; `try_available` has returned NULL. -/
  | missed
  /-- In `try_available`, with what was on the metaqueue. -/
  | popped (mq : Addr)
  /-- In `get_queue`, with what `try_available` has returned. -/
  | found (mq : Addr)
  /-- In `release_queue`. -/
  | called (msqid : Word)
  /-- In `release_queue`, with the queue. -/
  | releasing (stage : Stage) (msqid : Word) (mq : Addr)
  deriving DecidableEq, Repr

namespace Phase

/-- The thread has the lock. -/
def inside : Phase → Bool
  | .trying | .missed | .popped _ | .found _ => true
  | _ => false

/-- The queue that it has taken from the metaqueue. -/
def taken : Phase → Option Addr
  | .popped mq | .found mq => some mq
  | _ => none

/-- The number that it releases. -/
def releases : Phase → Option Word
  | .called msqid | .releasing _ msqid _ => some msqid
  | _ => none

end Phase

/-- The queues, and the threads. -/
structure State (α : Type) where
  /-- The heap. -/
  heap : Heap (MsgQueue α)
  /-- `queues` -/
  queues : List (Option Addr)
  /-- `metaqueue`, as the queues its messages point at. -/
  metaqueue : Option (List Addr)
  /-- `queuespace` -/
  queuespace : Word
  /-- `numqueues` -/
  numqueues : Word
  /-- `initialized` -/
  initialized : Bool
  /-- The thread that has locked `global_queue_lk`. -/
  lk : Option ℕ
  /-- The threads. -/
  threads : ℕ → Phase
  /-- Who holds which number. -/
  held : List (ℕ × Word)

/-- No queue has been asked for. -/
def start : State α := ⟨Heap.empty, [], none, 1, 0, false, none, fun _ => .idle, []⟩

/-- `realloc`, to so many bytes. -/
def realloc (junk : ℕ → Option Addr) (cells : List (Option Addr)) (size : BitVec 64) : List (Option Addr) :=
  -- there is no object of more than `PTRDIFF_MAX` bytes
  if size.toNat < 9223372036854775808 then (List.range (size.toNat / 8)).map fun i => cells[i]?.getD (junk i) else []

/-- `queue_realloc` -/
def queueRealloc (junk : ℕ → Option Addr) (queues : List (Option Addr)) (queuespace : Word) :
    List (Option Addr) × Word :=
  let queuespace := if queuespace = 0 then 1 else queuespace
  let queuesize : BitVec 64 := queuespace.signExtend 64 * 8
  (realloc junk queues (queuesize * 2), queuespace * 2)

/-- A step of thread `t`, or one with the queue at `mq`. -/
inductive Act (α : Type) where
  /-- `get_queue` takes the lock. -/
  | getQueue (t : ℕ)
  /-- `get_msg_raw` on the metaqueue. -/
  | tryAvailable (t : ℕ)
  /-- `try_available` sets `active`. -/
  | activate (t : ℕ)
  /-- `get_queue` makes a queue, at `mq`, and returns. -/
  | create (t : ℕ) (mq : Addr) (junk : ℕ → Option Addr)
  /-- `get_queue` returns the number of the queue it has found. -/
  | leave (t : ℕ)
  /-- `release_queue` is called. -/
  | releaseQueue (t : ℕ) (msqid : Word)
  /-- `queuebyid` -/
  | lookup (t : ℕ)
  /-- `if (mq->delaypair)` -/
  | testPair (t : ℕ)
  /-- `if (mq->head)` -/
  | testHead (t : ℕ)
  /-- `mq->active = false` -/
  | deactivate (t : ℕ)
  /-- `put_msg_raw` on the metaqueue, and the end of `release_queue`. -/
  | putFree (t : ℕ)
  /-- `put_msg_raw` from lock to unlock. -/
  | append (mq : Addr) (msg : α)
  /-- `get_msg_raw` from lock to unlock. -/
  | take (mq : Addr)
  /-- `mq->delaypair = pair`, in `get_delay_queue`. -/
  | pair (mq : Addr) (pair : Option Addr)
  /-- The number is passed on to thread `t'`. -/
  | pass (t t' : ℕ) (msqid : Word)

namespace State

/-- Thread `t` is at `ph`. -/
def goto (s : State α) (t : ℕ) (ph : Phase) : State α := { s with threads := Function.update s.threads t ph }

/-- What the first call of `get_queue` does. -/
def init (s : State α) : State α :=
  if s.initialized then s
  else { s with
    queues := List.replicate s.queuespace.toNat none, metaqueue := some [], initialized := true }

/-- `get_queue` of thread `t` locks `global_queue_lk`. -/
def lock (s : State α) (t : ℕ) : State α := { s with lk := some t }.goto t .trying

/-- It unlocks it and returns `i`. -/
def handOut (s : State α) (t : ℕ) (i : Word) : State α :=
  { s with lk := none, held := s.held ++ [(t, i)] }.goto t .idle

/-- What `get_queue` does when there is no free queue. -/
def create (s : State α) (t : ℕ) (mq : Addr) (junk : ℕ → Option Addr) : Except Fault (State α) := do
  let i := s.numqueues
  let numqueues := s.numqueues + 1
  let heap := s.heap.set mq (some (createQueue i))
  let (queues, queuespace) :=
    if s.queuespace.toInt < numqueues.toInt then queueRealloc junk s.queues s.queuespace
    else (s.queues, s.queuespace)
  -- a negative number is, as one without a sign, not in the array
  let queues ← store queues i.toNat (some mq)
  return { s with heap, queues, queuespace, numqueues }.handOut t i

/-- A change of the queue at `mq`. -/
def modify (s : State α) (mq : Addr) (f : MsgQueue α → MsgQueue α) : Except Fault (State α) := do
  let q ← s.heap.read (some mq)
  let heap ← s.heap.write (some mq) (f q)
  return { s with heap }

end State

/-- A step. An action that is not one of its thread at the time does nothing. -/
def step (s : State α) : Act α → Except Fault (State α)
  | .getQueue t =>
    if s.threads t = .idle ∧ s.lk = none then .ok (s.init.lock t) else .ok s
  | .tryAvailable t =>
    match s.threads t with
    | .trying =>
      match s.metaqueue with
      | none => .error .outOfBounds
      | some [] => .ok (s.goto t .missed)
      | some (mq :: rest) => .ok ({ s with metaqueue := some rest }.goto t (.popped mq))
    | _ => .ok s
  | .activate t =>
    match s.threads t with
    | .popped mq => do
      let s ← s.modify mq fun q => { q with active := true }
      return s.goto t (.found mq)
    | _ => .ok s
  | .create t mq junk => if s.threads t = .missed ∧ s.heap mq = none then s.create t mq junk else .ok s
  | .leave t =>
    match s.threads t with
    | .found mq => do
      let q ← s.heap.read (some mq)
      return s.handOut t q.id
    | _ => .ok s
  | .releaseQueue t msqid => if s.threads t = .idle then .ok (s.goto t (.called msqid)) else .ok s
  | .lookup t =>
    match s.threads t with
    | .called msqid =>
      if s.lk = none then do
        match ← load s.queues msqid.toNat with
        | some mq => return s.goto t (.releasing .looked msqid mq)
        -- the next statement reads `mq->delaypair`
        | none => .error .outOfBounds
      else .ok s
    | _ => .ok s
  | .testPair t =>
    match s.threads t with
    | .releasing .looked msqid mq => do
      let q ← s.heap.read (some mq)
      return s.goto t (if q.delaypair.isSome then .idle else .releasing .unpaired msqid mq)
    | _ => .ok s
  | .testHead t =>
    match s.threads t with
    | .releasing .unpaired msqid mq => do
      let q ← s.heap.read (some mq)
      return s.goto t (if q.msgs.isEmpty then .releasing .empty msqid mq else .idle)
    | _ => .ok s
  | .deactivate t =>
    match s.threads t with
    | .releasing .empty msqid mq => do
      let s ← s.modify mq fun q => { q with active := false }
      return s.goto t (.releasing .inactive msqid mq)
    | _ => .ok s
  | .putFree t =>
    match s.threads t with
    | .releasing .inactive msqid mq =>
      match s.metaqueue with
      | none => .error .outOfBounds
      | some free =>
        .ok ({ s with metaqueue := some (free ++ [mq]), held := s.held.erase (t, msqid) }.goto t .idle)
    | _ => .ok s
  | .append mq msg => s.modify mq fun q => { q with msgs := q.msgs ++ [msg] }
  | .take mq =>
    match s.heap mq with
    | some _ => s.modify mq fun q => { q with msgs := q.msgs.tail }
    | none => .ok s
  | .pair mq pair =>
    match s.heap mq with
    | some _ => s.modify mq fun q => { q with delaypair := pair }
    | none => .ok s
  | .pass t t' msqid =>
    if (t, msqid) ∈ s.held then .ok { s with held := s.held.erase (t, msqid) ++ [(t', msqid)] } else .ok s

/-- The queue at `mq` is that of a number which a thread holds and does not release. -/
def InUse (s : State α) (mq : Addr) : Prop :=
  ∃ p ∈ s.held, s.queues[p.2.toNat]? = some (some mq) ∧ (s.threads p.1).releases ≠ some p.2

instance (s : State α) (mq : Addr) : Decidable (InUse s mq) :=
  inferInstanceAs (Decidable (∃ p ∈ s.held, _))

/-- A number is released by a thread that holds it, and from then on nothing is put on the queue. -/
def Legal (s : State α) : Act α → Prop
  | .releaseQueue t msqid => (t, msqid) ∈ s.held
  | .pass t _ msqid => (s.threads t).releases ≠ some msqid
  | .append mq _ => InUse s mq
  | _ => True

instance (s : State α) : ∀ act, Decidable (Legal s act)
  | .releaseQueue t msqid => inferInstanceAs (Decidable ((t, msqid) ∈ s.held))
  | .pass t _ msqid => inferInstanceAs (Decidable ((s.threads t).releases ≠ some msqid))
  | .append mq _ => inferInstanceAs (Decidable (InUse s mq))
  | .getQueue _ | .tryAvailable _ | .activate _ | .create _ _ _ | .leave _ | .lookup _ | .testPair _ | .testHead _
  | .deactivate _ | .putFree _ | .take _ | .pair _ _ => isTrue trivial

/-- No more than 2³⁰ queues are made. -/
def Room (s : State α) : Act α → Prop
  | .create _ _ _ => s.numqueues.toInt < 1073741824
  | _ => True

instance (s : State α) : ∀ act, Decidable (Room s act)
  | .create _ _ _ => inferInstanceAs (Decidable (s.numqueues.toInt < 1073741824))
  | .getQueue _ | .tryAvailable _ | .activate _ | .leave _ | .releaseQueue _ _ | .lookup _ | .testPair _ | .testHead _
  | .deactivate _ | .putFree _ | .append _ _ | .take _ | .pair _ _ | .pass _ _ _ => isTrue trivial

/-- The number `msqid` finds the queue `q`. -/
def Refers (s : State α) (msqid : Word) (q : MsgQueue α) : Prop :=
  ∃ mq, s.queues[msqid.toNat]? = some (some mq) ∧ s.heap mq = some q

/-- When the step from `s` to `s'` hands out a queue, it is active and empty. -/
def Hands (s s' : State α) : Prop :=
  ∀ t msqid, s'.held = s.held ++ [(t, msqid)] → ∃ q, Refers s' msqid q ∧ q.active = true ∧ q.msgs = []

/-- What the numbers are good for. -/
structure Sound (s : State α) : Prop where
  /-- Those held at the same time are different. -/
  distinct : (s.held.map Prod.snd).Nodup
  /-- There is room for the queues. -/
  space : s.numqueues.toInt ≤ s.queuespace.toInt
  /-- A number that is held is that of a queue. -/
  below : ∀ t msqid, (t, msqid) ∈ s.held → 0 ≤ msqid.toInt ∧ msqid.toInt < s.numqueues.toInt
  /-- It finds the queue with this number. -/
  refers : ∀ t msqid, (t, msqid) ∈ s.held → ∃ q, Refers s msqid q ∧ q.id = msqid
  /-- A queue that is handed out next is active and empty. -/
  hands : ∀ act s', Legal s act → Room s act → step s act = .ok s' → Hands s s'

/-! ### The array -/

/-- The array has twice as many cells, while its size is an `int`. After that the size is not. -/
theorem queueRealloc_eq (junk : ℕ → Option Addr) (queues : List (Option Addr)) {n : ℕ} (hpos : 0 < n)
    (hn : n ≤ 1073741824) :
    queueRealloc junk queues (BitVec.ofNat 32 n) =
      ((List.range (n * 2)).map fun i => queues[i]?.getD (junk i), BitVec.ofNat 32 (n * 2)) := by
  have hne : BitVec.ofNat 32 n ≠ 0 := by
    intro hzero
    have hnat := congrArg BitVec.toNat hzero
    rw [BitVec.toNat_ofNat, Nat.mod_eq_of_lt (by omega)] at hnat
    exact Nat.ne_of_gt hpos hnat
  have hext : (BitVec.ofNat 32 n).signExtend 64 = BitVec.ofNat 64 n := by
    apply BitVec.eq_of_toInt_eq
    rw [BitVec.toInt_signExtend_of_le (by omega), toInt_ofNat_of_lt (by omega), BitVec.toInt_ofNat', Int.bmod_def]
    omega
  have hsize : (BitVec.ofNat 64 n * 8 * 2).toNat = n * 16 := by
    rw [BitVec.toNat_mul, BitVec.toNat_mul, BitVec.toNat_ofNat]
    change n % 2 ^ 64 * 8 % 2 ^ 64 * 2 % 2 ^ 64 = n * 16
    omega
  have hdouble : BitVec.ofNat 32 n * 2 = BitVec.ofNat 32 (n * 2) := (BitVec.ofNat_mul n 2).symm
  simp only [queueRealloc, if_neg hne, hext, realloc, hsize, hdouble, if_pos (show n * 16 < 9223372036854775808 by omega),
    show n * 16 / 8 = n * 2 by omega]

theorem getElem?_realloc (junk : ℕ → Option Addr) {queues : List (Option Addr)} {n i : ℕ} {p : Option Addr} (hi : i < n)
    (hp : queues[i]? = some p) : ((List.range n).map fun i => queues[i]?.getD (junk i))[i]? = some p := by
  rw [List.getElem?_map, List.getElem?_range hi, Option.map_some, hp, Option.getD_some]

/-- `get_queue` makes room for one more queue. -/
theorem grow (junk : ℕ → Option Addr) {queues : List (Option Addr)} {k n : ℕ} (hk : k ≤ 30) (hlen : queues.length = 2 ^ k)
    (hn : n ≤ 2 ^ k) (hroom : n < 1073741824) :
    ∃ queues' k', k' ≤ 30 ∧ queues'.length = 2 ^ k' ∧ n + 1 ≤ 2 ^ k' ∧
      (∀ (i : ℕ) p, queues[i]? = some p → queues'[i]? = some p) ∧
      (if (BitVec.ofNat 32 (2 ^ k)).toInt < (BitVec.ofNat 32 (n + 1)).toInt then
        queueRealloc junk queues (BitVec.ofNat 32 (2 ^ k)) else (queues, BitVec.ofNat 32 (2 ^ k))) =
        (queues', BitVec.ofNat 32 (2 ^ k')) := by
  have hpow : 2 ^ k ≤ 1073741824 := Nat.pow_le_pow_right (by omega) hk
  have hpos := Nat.two_pow_pos k
  rw [toInt_ofNat_of_lt (by omega), toInt_ofNat_of_lt (by omega)]
  by_cases hfull : 2 ^ k < n + 1
  · have hne : k ≠ 30 := by
      rintro rfl
      omega
    rw [if_pos (Int.ofNat_lt.mpr hfull), queueRealloc_eq junk queues hpos hpow, ← Nat.pow_succ]
    refine ⟨_, k + 1, by omega, by simp, by rw [Nat.pow_succ]; omega, fun i p hp => getElem?_realloc junk ?_ hp, rfl⟩
    have hi := (List.getElem?_eq_some_iff.mp hp).1
    rw [Nat.pow_succ]
    omega
  · rw [if_neg (mt Int.ofNat_lt.mp hfull)]
    exact ⟨queues, k, hk, hlen, by omega, fun _ _ hp => hp, rfl⟩

end Gross.Queue.Ids
