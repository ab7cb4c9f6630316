import Gross.Queue.Pool
import Gross.Queue.Shares
import Mathlib.Data.Multiset.AddSub

/-!
# The threads' queues as a pool

`Gross.Queue.Pool` has `get_queue` as one step on a list. `Gross.Queue.Ids` has it as
the threads do it, one access after another, with the queues on the heap. Here the
second is seen as the first.

## The model

* `Pool`, `Pool.step` — the queues of `Gross.Queue.Pool`, and which thread has which.
* `State.pool` — the queues of the threads as such a pool. `get_queue` is taken to have
  done its work when it has looked at the metaqueue: from then on the queue that it has
  found is active, and when it has found none, the queue that it is going to make is
  there.

## What is proved

What each access comes to in the pool: `Inv.pool_miss`, `Inv.pool_pop`, `Inv.pool_set` and
`Inv.pool_putFree` are operations, the others leave it as it is. `Gross.Queue.Runs` puts
them together.
-/

namespace Gross.Queue

open Foundation

/-- The queues, and which thread has the queue with which number. -/
structure Pool (α : Type) where
  /-- The queues. -/
  queues : Queues α
  /-- The threads, with the numbers they have. -/
  owners : Multiset (ℕ × ℕ)

namespace Pool

variable {α : Type}

/-- An operation. -/
inductive Op (α : Type) where
  /-- Thread `t` gets a queue. -/
  | getQueue (t : ℕ)
  /-- A message is put on a queue. -/
  | putMsgRaw (q : ℕ) (msg : α)
  /-- A message is taken from it. -/
  | getMsgRaw (q : ℕ)
  /-- It is marked as not active. -/
  | deactivate (q : ℕ)
  /-- Thread `t` gives it back. -/
  | putFree (t q : ℕ)
  /-- It is passed on to thread `t'`. -/
  | pass (t t' q : ℕ)

/-- No queue has been asked for. -/
def start : Pool α := ⟨.start, 0⟩

/-- What an operation does. -/
def step (p : Pool α) : Op α → Pool α
  | .getQueue t => ⟨p.queues.getQueue.2, p.owners + {(t, p.queues.getQueue.1)}⟩
  | .putMsgRaw q msg => ⟨p.queues.putMsgRaw q msg, p.owners⟩
  | .getMsgRaw q => ⟨p.queues.getMsgRaw q, p.owners⟩
  | .deactivate q => ⟨p.queues.deactivate q, p.owners⟩
  | .putFree t q => ⟨p.queues.putFree q, p.owners.erase (t, q)⟩
  | .pass t t' q => ⟨p.queues, p.owners.erase (t, q) + {(t', q)}⟩

/-- What is done with a queue is done while a thread has it, and it is given back when it is empty. -/
def Legal (p : Pool α) : Op α → Prop
  | .getQueue _ | .getMsgRaw _ => True
  | .putMsgRaw q _ | .deactivate q => ∃ t, (t, q) ∈ p.owners
  | .putFree t q => (t, q) ∈ p.owners ∧ p.queues.msgs q = []
  | .pass t _ q => (t, q) ∈ p.owners

end Pool

namespace Ids

variable {α : Type}

/-! ### The pool of a state -/

namespace Phase

/-- The number that `get_queue` is going to return. -/
def promised (number : Addr → ℕ) (numqueues : ℕ) : Phase → Option ℕ
  | .popped mq | .found mq => some (number mq)
  | .missed => some numqueues
  | _ => none

/-- The thread has not looked at the metaqueue, or is not in `get_queue`. -/
def quiet : Phase → Bool
  | .idle | .trying | .called _ | .releasing _ _ _ => true
  | _ => false

end Phase

/-- The number of the queue at `a`. -/
def number (heap : Heap (MsgQueue α)) (a : Addr) : ℕ := (heap a).elim 0 fun q => q.id.toNat

/-- The queue at `a`. The one that `get_queue` has taken is active. -/
def seen (heap : Heap (MsgQueue α)) (taken : Option Addr) (a : Addr) : Queue.MsgQueue α :=
  (heap a).elim ⟨[], false⟩ fun q => ⟨q.msgs, q.active || decide (taken = some a)⟩

/-- The threads, with the numbers that they hold. -/
def holders (held : List (ℕ × Word)) : Multiset (ℕ × ℕ) := ↑(held.map fun p => (p.1, p.2.toNat))

/-- The pool of the queues at `made`, when thread `t` has the lock and is at `ph`. -/
def poolOf (made : List Addr) (heap : Heap (MsgQueue α)) (free : List Addr) (held : List (ℕ × Word)) (t : ℕ)
    (ph : Phase) : Pool α where
  queues := ⟨made.map (seen heap ph.taken) ++ if ph = .missed then [⟨[], true⟩] else [], free.map (number heap)⟩
  owners := holders held + ↑((ph.promised (number heap) made.length).toList.map (t, ·))

namespace State

/-- The queues that have been made, in the order of their numbers. -/
def made (s : State α) : List Addr := (s.queues.take s.numqueues.toNat).filterMap id

/-- The queues as a pool. -/
def pool (s : State α) : Pool α :=
  poolOf s.made s.heap s.free s.held (s.lk.getD 0) (s.lk.elim .idle s.threads)

end State

/-- In the pool, the step from `s` to `s'` is none or one operation. -/
def Moves (s s' : State α) : Prop := s'.pool = s.pool ∨ ∃ op, s.pool.Legal op ∧ s'.pool = s.pool.step op

section

variable {s : State α} {made free : List Addr} {held : List (ℕ × Word)} {heap : Heap (MsgQueue α)} {q q' : MsgQueue α}
  {t i : ℕ} {a : Addr} {msqid : Word} {ph : Phase}

theorem Inv.made_eq (h : Inv s made) : s.made = made := by
  have hcells : s.queues.take s.numqueues.toNat = made.map some := by
    refine List.ext_getElem? fun i => ?_
    rw [List.getElem?_map, List.getElem?_take, h.toNat_numqueues]
    cases hi : made[i]? with
    | none => rw [if_neg (Nat.not_lt.mpr (List.getElem?_eq_none_iff.mp hi)), Option.map_none]
    | some a => rw [if_pos (List.getElem?_eq_some_iff.mp hi).1, h.cells i a hi, Option.map_some]
  rw [State.made, hcells, List.filterMap_map]
  exact List.filterMap_some

theorem State.pool_of_lk (hlk : s.lk = some t) : s.pool = poolOf s.made s.heap s.free s.held t (s.threads t) := by
  rw [State.pool, hlk]
  rfl

theorem State.pool_of_unlocked (hlk : s.lk = none) : s.pool = poolOf s.made s.heap s.free s.held 0 .idle := by
  rw [State.pool, hlk]
  rfl

theorem poolOf_quiet (hph : ph.quiet = true) : poolOf made heap free held t ph = poolOf made heap free held 0 .idle := by
  cases ph <;> first | rfl | cases hph

theorem number_of_some (hq : heap a = some q) : number heap a = q.id.toNat := by
  rw [number, hq, Option.elim_some]

theorem seen_of_some (hq : heap a = some q) (taken : Option Addr) :
    seen heap taken a = ⟨q.msgs, q.active || decide (taken = some a)⟩ := by
  rw [seen, hq, Option.elim_some]

/-- A change that keeps the number of a queue keeps all numbers. -/
theorem number_set (hq : heap a = some q) (hid : q'.id = q.id) : number (heap.set a (some q')) = number heap := by
  funext b
  by_cases hb : b = a
  · rw [hb, number_of_some (Heap.set_self ..), number_of_some hq, hid]
  · rw [number, number, Heap.set_ne heap hb]

theorem seen_set_ne {b : Addr} (hb : b ≠ a) (heap : Heap (MsgQueue α)) (q : Option (MsgQueue α)) (taken : Option Addr) :
    seen (heap.set a q) taken b = seen heap taken b := by
  rw [seen, seen, Heap.set_ne heap hb]

/-- One queue is seen otherwise. -/
theorem map_append_eq_modify {β : Type} (f g : Addr → β) (φ : β → β) (hnodup : made.Nodup) (hi : made[i]? = some a)
    (hne : ∀ b ≠ a, g b = f b) (ha : g a = φ (f a)) (l : List β) : made.map g ++ l = (made.map f ++ l).modify i φ := by
  induction made generalizing i with
  | nil => cases hi
  | cons b made ih =>
    obtain ⟨hb, hnodup⟩ := List.nodup_cons.mp hnodup
    cases i with
    | zero =>
      cases hi
      have hrest : made.map g = made.map f := List.map_congr_left fun c hc => hne c (ne_of_mem_of_not_mem hc hb)
      simp [hrest, ha]
    | succ i =>
      have hba : b ≠ a := (ne_of_mem_of_not_mem (List.mem_of_getElem? (l := made) hi) hb).symm
      simp [hne b hba, ih hnodup hi]

theorem State.mem_owners (hmem : (t, msqid) ∈ s.held) : (t, msqid.toNat) ∈ s.pool.owners :=
  Multiset.mem_add.mpr (.inl (Multiset.mem_coe.mpr (List.mem_map.mpr ⟨_, hmem, rfl⟩)))

theorem holders_append (held : List (ℕ × Word)) (t : ℕ) (msqid : Word) :
    holders (held ++ [(t, msqid)]) = holders held + {(t, msqid.toNat)} := by
  simp [holders, ← Multiset.coe_add]

/-- A number is held no more. -/
theorem owners_erase (hmem : (t, msqid) ∈ held) (m : Multiset (ℕ × ℕ)) :
    (holders held + m).erase (t, msqid.toNat) = holders (held.erase (t, msqid)) + m := by
  have hheld : holders held = (t, msqid.toNat) ::ₘ holders (held.erase (t, msqid)) :=
    Multiset.coe_eq_coe.mpr ((List.perm_cons_erase hmem).map _)
  rw [hheld, Multiset.cons_add, Multiset.erase_cons_head]

/-! ### Accesses that the pool does not see -/

theorem State.pool_goto (hold : (s.threads t).quiet = true) (hph : ph.quiet = true) : (s.goto t ph).pool = s.pool := by
  cases hlk : s.lk with
  | none =>
    rw [State.pool_of_unlocked hlk, State.pool_of_unlocked (s := s.goto t ph) hlk]
    rfl
  | some u =>
    rw [State.pool_of_lk hlk, State.pool_of_lk (s := s.goto t ph) hlk]
    by_cases hu : u = t
    · rw [hu, State.threads_goto_self, poolOf_quiet hold, poolOf_quiet hph]
      rfl
    · rw [State.threads_goto_ne s hu]
      rfl

/-- `get_queue` takes the lock. -/
theorem Inv.pool_lock (h : Inv s made) (hlk : s.lk = none) : (s.init.lock t).pool = s.pool := by
  have hmade : s.init.made = s.made := h.init.made_eq.trans h.made_eq.symm
  rw [State.pool_of_lk (t := t) rfl, State.pool_of_unlocked hlk, State.lock, State.threads_goto_self, poolOf_quiet rfl]
  change poolOf s.init.made s.init.heap s.init.free s.init.held 0 .idle = _
  rw [hmade, s.heap_init, s.free_init h.first, s.held_init]

/-- The pool does not see the change of a queue. -/
theorem Inv.pool_set_same (h : Inv s made) (hq : s.heap a = some q) (q' : MsgQueue α) (hid : q'.id = q.id)
    (hsame : a ∈ made → q'.msgs = q.msgs ∧ q'.active = q.active) :
    ({ s with heap := s.heap.set a (some q') } : State α).pool = s.pool := by
  have hseen : ∀ taken, made.map (seen (s.heap.set a (some q')) taken) = made.map (seen s.heap taken) := by
    refine fun taken => List.map_congr_left fun b hb => ?_
    by_cases hba : b = a
    · obtain ⟨hmsgs, hactive⟩ := hsame (hba ▸ hb)
      rw [hba, seen_of_some hq, seen_of_some (Heap.set_self ..), hmsgs, hactive]
    · exact seen_set_ne hba ..
  simp only [State.pool]
  change poolOf s.made (s.heap.set a (some q')) s.free s.held _ _ = _
  simp only [poolOf, h.made_eq, hseen, number_set hq hid]

/-- `try_available` sets `active`, which the pool has as set since the queue was taken. -/
theorem poolOf_activate (hq : heap a = some q) :
    poolOf made (heap.set a (some { q with active := true })) free held t (.found a) =
      poolOf made heap free held t (.popped a) := by
  have hseen : seen (heap.set a (some { q with active := true })) (some a) = seen heap (some a) := by
    funext b
    by_cases hb : b = a
    · rw [hb, seen_of_some hq, seen_of_some (Heap.set_self ..)]
      simp
    · exact seen_set_ne hb ..
  have hnumber : number (heap.set a (some { q with active := true })) = number heap := number_set hq rfl
  simp only [poolOf, Phase.taken, Phase.promised, hseen, hnumber, reduceCtorEq, if_false]

/-- `get_queue` returns the number that it has had since it took the queue. -/
theorem Inv.pool_handOut (h : Inv s made) (hph : s.threads t = .found a) (hq : s.heap a = some q) :
    (s.handOut t q.id).pool = s.pool := by
  have hlk := (h.locked hph rfl).1
  have hactive : q.active = true := of_exists_heap hq ((h.threads t).lit a hph)
  have hseen : seen s.heap none = seen s.heap (some a) := by
    funext b
    by_cases hb : b = a
    · rw [hb, seen_of_some hq, seen_of_some hq, hactive]
      rfl
    · rw [seen, seen]
      simp [Ne.symm hb]
  rw [State.pool_of_unlocked rfl, State.pool_of_lk hlk, hph]
  change poolOf s.made s.heap s.free (s.held ++ [(t, q.id)]) 0 .idle = _
  simp only [poolOf, Phase.taken, Phase.promised, hseen, number_of_some hq, holders_append, reduceCtorEq, if_false]
  simp

/-- `get_queue` makes the queue that the pool has had since the metaqueue was seen to be empty. -/
theorem Inv.pool_make (h : Inv s made) (hph : s.threads t = .missed) (ha : s.heap a = none) {s₁ : State α}
    (h₁ : Inv s₁ (made ++ [a])) (hph₁ : s₁.threads t = .found a) (hq : s₁.heap a = some (createQueue s.numqueues))
    (hheld : s₁.held = s.held) (hfree : s₁.free = s.free) (hheap : ∀ b ≠ a, s₁.heap b = s.heap b) : s₁.pool = s.pool := by
  have hsame : ∀ b ∈ made, s₁.heap b = s.heap b := by
    intro b hb
    obtain ⟨i, hi⟩ := List.getElem?_of_mem hb
    exact hheap b (h.ne_of_heap ha hi)
  have hseen : made.map (seen s₁.heap (some a)) = made.map (seen s.heap none) := by
    refine List.map_congr_left fun b hb => ?_
    obtain ⟨i, hi⟩ := List.getElem?_of_mem hb
    rw [seen, seen, hsame b hb]
    simp [(h.ne_of_heap ha hi).symm]
  have hnumber : s.free.map (number s₁.heap) = s.free.map (number s.heap) := by
    refine List.map_congr_left fun b hb => ?_
    rw [number, number, hsame b (h.mem_made (List.mem_append_left _ hb))]
  have hlk := (h.locked hph rfl).1
  have hlk₁ := (h₁.locked hph₁ rfl).1
  rw [State.pool_of_lk hlk₁, State.pool_of_lk hlk, hph, hph₁, hheld, hfree, h₁.made_eq, h.made_eq]
  simp only [poolOf, Phase.taken, Phase.promised, List.map_append, List.map_singleton, hseen, hnumber, seen_of_some hq,
    number_of_some hq, createQueue, h.toNat_numqueues]
  simp

/-! ### Operations of the pool -/

/-- The metaqueue is empty, and the pool has a new queue. -/
theorem Inv.pool_miss (h : Inv s made) (hph : s.threads t = .trying) (hfree : s.free = []) :
    (s.goto t .missed).pool = s.pool.step (.getQueue t) := by
  have hlk := (h.locked hph rfl).1
  rw [State.pool_of_lk (s := s.goto t .missed) hlk, State.pool_of_lk hlk, hph, State.threads_goto_self]
  change poolOf s.made s.heap s.free s.held t .missed = _
  rw [hfree]
  simp [poolOf, Pool.step, Queues.getQueue, Phase.taken, Phase.promised]

/-- It is not, and the first queue on it is active in the pool. -/
theorem Inv.pool_pop (h : Inv s made) {rest : List Addr} (hph : s.threads t = .trying)
    (hmeta : s.metaqueue = some (a :: rest)) :
    ({ s with metaqueue := some rest }.goto t (.popped a)).pool = s.pool.step (.getQueue t) := by
  have hlk := (h.locked hph rfl).1
  have hfree : s.free = a :: rest := by rw [State.free, hmeta, Option.getD_some]
  have hmem : a ∈ s.free ++ s.hand := List.mem_append_left _ (hfree ▸ List.mem_cons_self)
  obtain ⟨q, hq, -⟩ := h.clean a hmem
  have hmade := h.id_of_hand hmem hq
  rw [← number_of_some hq] at hmade
  have hseen := map_append_eq_modify (seen s.heap none) (seen s.heap (some a)) (fun mq => { mq with active := true })
    h.nodup hmade (fun b hb => by rw [seen, seen]; simp [Ne.symm hb]) (by simp [seen_of_some hq]) []
  refine (State.pool_of_lk (t := t) (by exact hlk)).trans ?_
  rw [State.pool_of_lk hlk, hph, State.threads_goto_self, hfree]
  change poolOf s.made s.heap rest s.held t (.popped a) = _
  rw [h.made_eq]
  simp only [List.append_nil] at hseen
  simp [poolOf, Pool.step, Queues.getQueue, Queues.modify, Phase.taken, Phase.promised, hseen]

/-- A queue is changed, but not its number. -/
theorem Inv.pool_set (h : Inv s made) (hi : made[i]? = some a) (hq : s.heap a = some q) (q' : MsgQueue α)
    (hid : q'.id = q.id) (φ : Queue.MsgQueue α → Queue.MsgQueue α)
    (hφ : ∀ b : Bool, (b = true → a ∈ s.hand) → ⟨q'.msgs, q'.active || b⟩ = φ ⟨q.msgs, q.active || b⟩) :
    ({ s with heap := s.heap.set a (some q') } : State α).pool = ⟨s.pool.queues.modify i φ, s.pool.owners⟩ := by
  have hhand : (s.lk.elim .idle s.threads).taken = some a → a ∈ s.hand := by
    rw [State.hand]
    cases s.lk with
    | none =>
      intro htaken
      cases htaken
    | some t => exact Option.mem_toList.mpr
  simp only [State.pool]
  change poolOf s.made (s.heap.set a (some q')) s.free s.held _ _ = _
  rw [h.made_eq]
  generalize s.lk.elim .idle s.threads = ph at hhand
  simp only [poolOf, Queues.modify, number_set hq hid]
  rw [← map_append_eq_modify (seen s.heap ph.taken) _ φ h.nodup hi (fun b hb => seen_set_ne hb ..)]
  rw [seen_of_some hq, seen_of_some (Heap.set_self ..)]
  exact hφ _ fun hb => hhand (of_decide_eq_true hb)

theorem Inv.msgs_pool (h : Inv s made) (hi : made[i]? = some a) (hq : s.heap a = some q) :
    s.pool.queues.msgs i = q.msgs := by
  have hlt := (List.getElem?_eq_some_iff.mp hi).1
  simp only [State.pool, poolOf, h.made_eq, Queues.msgs]
  rw [List.getElem?_append_left (by rwa [List.length_map]), List.getElem?_map, hi, Option.map_some, seen_of_some hq]

/-- The metaqueue gets the queue that its holder releases. -/
theorem Inv.pool_putFree (h : Inv s made) (hph : s.threads t = .releasing .inactive msqid a)
    (hmeta : s.metaqueue = some free) :
    ({ s with metaqueue := some (free ++ [a]), held := s.held.erase (t, msqid) }.goto t .idle).pool =
      s.pool.step (.putFree t msqid.toNat) := by
  have hmem := (h.threads t).mine msqid (by rw [hph]; rfl)
  obtain ⟨hmade, q, hq, -⟩ := (h.threads t).reached _ _ _ hph
  have hnumber : number s.heap a = msqid.toNat := by
    have hid := of_exists_heap hq (h.object _ a hmade)
    rw [number_of_some hq, hid, BitVec.ofNat_toNat, BitVec.setWidth_eq]
  have hfree : s.free = free := by rw [State.free, hmeta, Option.getD_some]
  rw [State.pool_goto (by rw [show State.threads _ t = _ from hph]; rfl) rfl, State.pool, State.pool, hfree]
  change poolOf s.made s.heap (free ++ [a]) (s.held.erase (t, msqid)) _ _ = _
  simp only [poolOf, Pool.step, Queues.putFree, List.map_append, List.map_singleton, hnumber, owners_erase hmem]

/-- A number is passed on. -/
theorem State.pool_pass (hmem : (t, msqid) ∈ s.held) (t' : ℕ) :
    ({ s with held := s.held.erase (t, msqid) ++ [(t', msqid)] } : State α).pool =
      s.pool.step (.pass t t' msqid.toNat) := by
  simp only [State.pool]
  change poolOf s.made s.heap s.free (s.held.erase (t, msqid) ++ [(t', msqid)]) _ _ = _
  simp only [poolOf, Pool.step, owners_erase hmem, holders_append]
  rw [Multiset.add_assoc, Multiset.add_comm {(t', msqid.toNat)}, ← Multiset.add_assoc]

end

end Ids

end Gross.Queue
