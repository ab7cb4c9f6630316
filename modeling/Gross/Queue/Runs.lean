import Gross.Queue.Refines

/-!
# Threads that get and release queues

## What is proved

* `Inv.step` — a legal step of a thread keeps the shares of `Gross.Queue.Shares`, and is
  none or one operation of the pool of `Gross.Queue.Refines`.
* `ids_sound` — in every run in which a queue is released by its holder, and nothing is
  put on it from then on, the numbers held are all different, each is below `numqueues`
  and finds its queue, and a queue that is handed out is active and empty, as long as no
  more than 2³⁰ queues are made.
* `run_refines` — such a run is a run of the pool, in which each thread has the numbers
  that it holds.
* `queuespace_wraps` — with one more, `queuespace` is negative.
-/

namespace Gross.Queue.Ids

open Foundation

variable {α : Type}

section

variable {s : State α} {made : List Addr} {t : ℕ} {a : Addr} {msqid : Word}

/-! ### Every step -/

/-- The step from `s` does not fail and keeps the shares. What it hands out is active and empty. In the pool it is
one operation at most. -/
def Keeps (s : State α) (r : Except Fault (State α)) : Prop :=
  ∃ s' made, r = .ok s' ∧ Inv s' made ∧ Hands s s' ∧ Moves s s'

/-- A step that adds no entry hands out nothing. -/
theorem Inv.keeps {s' : State α} (h : Inv s' made) (hheld : s'.held.length ≤ s.held.length) (hmoves : Moves s s') :
    Keeps s (.ok s') := by
  refine ⟨s', made, rfl, h, fun t msqid heq => ?_, hmoves⟩
  rw [heq, List.length_append, List.length_singleton] at hheld
  omega

/-- The thread is elsewhere. -/
theorem Inv.keeps_self (h : Inv s made) : Keeps s (.ok s) := h.keeps (Nat.le_refl _) (.inl rfl)

/-- It goes on, without having looked at the metaqueue. -/
theorem Inv.keeps_goto {ph : Phase} (h : Inv (s.goto t ph) made) (hold : (s.threads t).quiet = true)
    (hph : ph.quiet = true) : Keeps s (.ok (s.goto t ph)) :=
  h.keeps (Nat.le_refl _) (.inl (State.pool_goto hold hph))

theorem Inv.keeps_getQueue (h : Inv s made) (t : ℕ) : Keeps s (step s (.getQueue t)) := by
  rw [step]
  split_ifs with hcall
  · exact (h.lock hcall.2).keeps (Nat.le_of_eq (congrArg List.length s.held_init)) (.inl (h.pool_lock hcall.2))
  · exact h.keeps_self

theorem Inv.miss (h : Inv s made) (hph : s.threads t = .trying) : Inv (s.goto t .missed) made := by
  have hlk := (h.locked hph rfl).1
  exact h.goto (by rw [hph]; rfl) (threadOk_inside .missed rfl hlk (fun _ hfound => nomatch hfound) _ _)

theorem Inv.keeps_tryAvailable (h : Inv s made) (t : ℕ) : Keeps s (step s (.tryAvailable t)) := by
  rw [step]
  split
  next hph =>
    have hlk := (h.locked hph rfl).1
    have hmeta : s.metaqueue.isSome = true := h.first.symm.trans (h.ready (by rw [hlk]; rfl))
    split
    next hnone =>
      rw [hnone] at hmeta
      cases hmeta
    next hmeta =>
      have hfree : s.free = [] := by rw [State.free, hmeta, Option.getD_some]
      exact (h.miss hph).keeps (Nat.le_refl _) (.inr ⟨.getQueue t, trivial, h.pool_miss hph hfree⟩)
    next hmeta =>
      exact (h.pop hph hmeta).keeps (Nat.le_refl _) (.inr ⟨.getQueue t, trivial, h.pool_pop hph hmeta⟩)
  next => exact h.keeps_self

/-- `try_available` sets `active` of the queue in its hand, which no thread holds. -/
theorem Inv.keeps_activate (h : Inv s made) (t : ℕ) : Keeps s (step s (.activate t)) := by
  rw [step]
  split
  next mq hph =>
    have hlk := (h.locked hph rfl).1
    have hmem : mq ∈ s.free ++ s.hand := by
      rw [(h.locked hph rfl).2]
      exact List.mem_append_right _ (List.mem_singleton_self mq)
    obtain ⟨q, hq, -⟩ := h.clean mq hmem
    rw [State.modify_eq hq, ok_bind]
    have hset : Inv { s with heap := s.heap.set mq (some { q with active := true }) } made :=
      h.set hq rfl (fun _ hempty => hempty) (fun _ _ _ => rfl) fun _ stage _ _ hstage => by cases stage <;> exact hstage
    refine (hset.goto (by rw [show s.threads t = _ from hph]; rfl) ?_).keeps (Nat.le_refl _) (.inl ?_)
    · refine threadOk_inside (.found mq) rfl hlk ?_ _ _
      rintro b ⟨⟩
      exact ⟨_, Heap.set_self .., rfl⟩
    · refine (State.pool_of_lk (t := t) (by exact hlk)).trans ?_
      rw [State.threads_goto_self, State.pool_of_lk hlk, hph]
      exact poolOf_activate hq
  next => exact h.keeps_self

theorem Inv.keeps_create (h : Inv s made) (t : ℕ) (a : Addr) (junk : ℕ → Option Addr)
    (hroom : s.numqueues.toInt < 1073741824) : Keeps s (step s (.create t a junk)) := by
  rw [step]
  split_ifs with hcall
  · have hfew := h.few
    rw [h.count, toInt_ofNat_of_lt (by omega)] at hroom
    obtain ⟨s₁, hok, h₁, hph, hq, hheld, hfree, hheap⟩ := h.create hcall.1 hcall.2 (by omega) junk
    obtain ⟨h', hrefers, hactive, hempty⟩ := h₁.handOut hph hq
    have hpool := h.pool_make hcall.1 hcall.2 h₁ hph hq hheld hfree hheap
    refine ⟨_, _, hok, h', fun t' msqid heq => ?_, .inl ((h₁.pool_handOut hph hq).trans hpool)⟩
    change s₁.held ++ [(t, s.numqueues)] = _ at heq
    rw [hheld] at heq
    cases List.append_cancel_left heq
    exact ⟨_, hrefers, hactive, hempty⟩
  · exact h.keeps_self

theorem Inv.keeps_leave (h : Inv s made) (t : ℕ) : Keeps s (step s (.leave t)) := by
  rw [step]
  split
  next mq hph =>
    obtain ⟨q, hq, -⟩ := (h.threads t).lit mq hph
    obtain ⟨h', hrefers, hactive, hempty⟩ := h.handOut hph hq
    rw [Heap.read_some hq, ok_bind]
    refine ⟨_, _, rfl, h', fun t' msqid heq => ?_, .inl (h.pool_handOut hph hq)⟩
    cases List.append_cancel_left heq
    exact ⟨_, hrefers, hactive, hempty⟩
  next => exact h.keeps_self

theorem Inv.keeps_releaseQueue (h : Inv s made) (hmem : (t, msqid) ∈ s.held) :
    Keeps s (step s (.releaseQueue t msqid)) := by
  rw [step]
  split_ifs with hph
  · refine Inv.keeps_goto (h.goto (by rw [hph]; rfl) ?_) (by rw [hph]; rfl) rfl
    refine ⟨fun hin => (nomatch hin), fun _ hfound => (nomatch hfound), ?_, fun _ _ _ hrel => (nomatch hrel)⟩
    rintro msqid' ⟨⟩
    exact hmem
  · exact h.keeps_self

/-- `release_queue` returns -1. -/
theorem Inv.idle (h : Inv s made) (htaken : (s.threads t).taken = none) : Inv (s.goto t .idle) made :=
  h.goto htaken.symm (threadOk_idle ..)

/-- `queuebyid` finds the queue of the number that is released. -/
theorem Inv.keeps_lookup (h : Inv s made) (t : ℕ) : Keeps s (step s (.lookup t)) := by
  rw [step]
  split
  next msqid hph =>
    split_ifs with hlk
    · have hmem := (h.threads t).mine msqid (by rw [hph]; rfl)
      have hmade := h.getElem?_addrOf hmem
      obtain ⟨q, hq, -⟩ := h.object _ _ hmade
      rw [load_of_getElem? (h.cells _ _ hmade), ok_bind]
      refine Inv.keeps_goto (h.goto (by rw [hph]; rfl) ?_) (by rw [hph]; rfl) rfl
      refine ⟨fun hin => (nomatch hin), fun _ hfound => (nomatch hfound), ?_, ?_⟩
      · rintro msqid' ⟨⟩
        exact hmem
      · rintro stage msqid' b ⟨⟩
        exact ⟨hmade, q, hq, trivial⟩
    · exact h.keeps_self
  next => exact h.keeps_self

theorem Inv.keeps_testPair (h : Inv s made) (t : ℕ) : Keeps s (step s (.testPair t)) := by
  rw [step]
  split
  next msqid mq hph =>
    obtain ⟨-, q, hq, -⟩ := (h.threads t).reached _ _ _ hph
    have hold : (s.threads t).quiet = true := by rw [hph]; rfl
    rw [Heap.read_some hq, ok_bind]
    split_ifs
    · exact (h.idle (by rw [hph]; rfl)).keeps_goto hold rfl
    · exact Inv.keeps_goto (h.advance hph hq trivial) hold rfl
  next => exact h.keeps_self

theorem Inv.keeps_testHead (h : Inv s made) (t : ℕ) : Keeps s (step s (.testHead t)) := by
  rw [step]
  split
  next msqid mq hph =>
    obtain ⟨-, q, hq, -⟩ := (h.threads t).reached _ _ _ hph
    have hold : (s.threads t).quiet = true := by rw [hph]; rfl
    rw [Heap.read_some hq, ok_bind]
    split_ifs with hempty
    · exact Inv.keeps_goto (h.advance hph hq (List.isEmpty_iff.mp hempty)) hold rfl
    · exact (h.idle (by rw [hph]; rfl)).keeps_goto hold rfl
  next => exact h.keeps_self

/-- `release_queue` clears `active` of a queue that its thread holds, so that it is in no hand. -/
theorem Inv.keeps_deactivate (h : Inv s made) (t : ℕ) : Keeps s (step s (.deactivate t)) := by
  rw [step]
  split
  next msqid mq hph =>
    obtain ⟨hmade, q, hq, hempty⟩ := (h.threads t).reached _ _ _ hph
    have hmem := (h.threads t).mine msqid (by rw [hph]; rfl)
    have hhand : mq ∉ s.hand := fun hin => h.notMem_of_held hmem hmade (List.mem_append_right _ hin)
    rw [State.modify_eq hq, ok_bind]
    have hset : Inv { s with heap := s.heap.set mq (some { q with active := false }) } made := by
      refine h.set hq rfl (fun _ hempty => hempty) ?_ fun _ stage _ _ hstage => by cases stage <;> exact hstage
      intro t' hfound _
      refine absurd ?_ hhand
      rw [(h.locked hfound rfl).2]
      exact List.mem_singleton_self mq
    refine Inv.keeps (hset.advance hph (Heap.set_self ..) hempty) (Nat.le_refl _)
      (.inr ⟨.deactivate msqid.toNat, ⟨t, State.mem_owners hmem⟩, ?_⟩)
    rw [State.pool_goto (by rw [show State.threads _ t = _ from hph]; rfl) rfl]
    refine h.pool_set hmade hq { q with active := false } rfl (fun mq => { mq with active := false }) fun b hb => ?_
    rw [Bool.eq_false_iff.mpr (mt hb hhand)]
    rfl
  next => exact h.keeps_self

theorem Inv.keeps_putFree (h : Inv s made) (t : ℕ) : Keeps s (step s (.putFree t)) := by
  rw [step]
  split
  next msqid mq hph =>
    split
    next hnone =>
      -- a thread that holds a number has called `get_queue`
      have hmem := (h.threads t).mine msqid (by rw [hph]; rfl)
      have hlt := h.known _ hmem
      have hnew := h.new (h.first.trans (by rw [hnone]; rfl))
      rw [hnew] at hlt
      cases hlt
    next free hmeta =>
      have hmem := (h.threads t).mine msqid (by rw [hph]; rfl)
      obtain ⟨hmade, q, hq, hempty⟩ := (h.threads t).reached _ _ _ hph
      refine (h.putFree hph hmeta).keeps (List.length_erase_le ..)
        (.inr ⟨.putFree t msqid.toNat, ⟨State.mem_owners hmem, ?_⟩, h.pool_putFree hph hmeta⟩)
      rw [h.msgs_pool hmade hq]
      exact hempty
  next => exact h.keeps_self

/-- A queue in use is held, and is not being released. -/
theorem Inv.inUse (h : Inv s made) (huse : InUse s a) :
    ∃ t msqid, (t, msqid) ∈ s.held ∧ made[msqid.toNat]? = some a ∧
      ∀ t' stage msqid', s.threads t' ≠ .releasing stage msqid' a := by
  obtain ⟨⟨t, msqid⟩, hmem, hcell, hrel⟩ := huse
  have hmade : made[msqid.toNat]? = some a := by
    have haddr := h.getElem?_addrOf hmem
    have hcell' := h.cells _ _ haddr
    rw [hcell, Option.some_inj, Option.some_inj] at hcell'
    rw [haddr, hcell']
  refine ⟨t, msqid, hmem, hmade, fun t' stage msqid' hph => ?_⟩
  have hold := h.threads t'
  rw [hph] at hold
  have hmem' := hold.mine msqid' rfl
  obtain rfl := h.msqid_unique hmem hmem' (hmade.trans (hold.reached _ _ _ rfl).1.symm)
  obtain rfl := h.holder_unique hmem hmem'
  exact hrel (by rw [hph]; rfl)

theorem Inv.keeps_append (h : Inv s made) (huse : InUse s a) (msg : α) : Keeps s (step s (.append a msg)) := by
  obtain ⟨t, msqid, hmem, hmade, hrel⟩ := h.inUse huse
  obtain ⟨q, hq, -⟩ := h.object _ a hmade
  rw [step, State.modify_eq hq]
  refine Inv.keeps (h.set hq rfl (fun hfree => absurd hfree (h.notMem_of_held hmem hmade)) ?_ ?_) (Nat.le_refl _)
    (.inr ⟨.putMsgRaw msqid.toNat msg, ⟨t, State.mem_owners hmem⟩, ?_⟩)
  · exact fun _ _ hactive => hactive
  · exact fun t stage msqid hph => absurd hph (hrel t stage msqid)
  · exact h.pool_set hmade hq { q with msgs := q.msgs ++ [msg] } rfl (fun mq => { mq with msgs := mq.msgs ++ [msg] })
      fun _ _ => rfl

theorem Inv.keeps_take (h : Inv s made) (a : Addr) : Keeps s (step s (.take a)) := by
  rw [step]
  split
  next q hq =>
    rw [State.modify_eq hq]
    refine Inv.keeps (h.set hq rfl ?_ (fun _ _ hactive => hactive) ?_) (Nat.le_refl _) ?_
    · intro _ hempty
      simp [hempty]
    · intro _ stage _ _ hstage
      cases stage with
      | looked | unpaired => trivial
      | empty | inactive =>
        have hempty : q.msgs = [] := hstage
        simp [Stage.Reached, hempty]
    · by_cases hmade : a ∈ made
      · obtain ⟨i, hi⟩ := List.getElem?_of_mem hmade
        exact .inr ⟨.getMsgRaw i, trivial, h.pool_set hi hq { q with msgs := q.msgs.tail } rfl
          (fun mq => { mq with msgs := mq.msgs.tail }) fun _ _ => rfl⟩
      · exact .inl (h.pool_set_same hq { q with msgs := q.msgs.tail } rfl fun hin => absurd hin hmade)
  next => exact h.keeps_self

theorem Inv.keeps_pair (h : Inv s made) (a : Addr) (pair : Option Addr) : Keeps s (step s (.pair a pair)) := by
  rw [step]
  split
  next q hq =>
    rw [State.modify_eq hq]
    refine Inv.keeps (h.set hq rfl (fun _ hempty => hempty) (fun _ _ hactive => hactive) ?_) (Nat.le_refl _)
      (.inl (h.pool_set_same hq { q with delaypair := pair } rfl fun _ => ⟨rfl, rfl⟩))
    exact fun _ stage _ _ hstage => by cases stage <;> exact hstage
  next => exact h.keeps_self

theorem Inv.keeps_pass (h : Inv s made) (t' : ℕ) (hrel : (s.threads t).releases ≠ some msqid) :
    Keeps s (step s (.pass t t' msqid)) := by
  rw [step]
  split_ifs with hmem
  · refine (h.pass hmem hrel).keeps ?_ (.inr ⟨.pass t t' msqid.toNat, State.mem_owners hmem, State.pool_pass hmem t'⟩)
    exact Nat.le_of_eq (List.length_append.trans (List.length_erase_add_one hmem))
  · exact h.keeps_self

/-- **A step** that is legal, and does not make too many queues. -/
theorem Inv.step (h : Inv s made) {act : Act α} (hlegal : Legal s act) (hroom : Room s act) : Keeps s (step s act) := by
  cases act with
  | getQueue t => exact h.keeps_getQueue t
  | tryAvailable t => exact h.keeps_tryAvailable t
  | activate t => exact h.keeps_activate t
  | create t mq junk => exact h.keeps_create t mq junk hroom
  | leave t => exact h.keeps_leave t
  | releaseQueue t msqid => exact h.keeps_releaseQueue hlegal
  | lookup t => exact h.keeps_lookup t
  | testPair t => exact h.keeps_testPair t
  | testHead t => exact h.keeps_testHead t
  | deactivate t => exact h.keeps_deactivate t
  | putFree t => exact h.keeps_putFree t
  | append mq msg => exact h.keeps_append hlegal msg
  | take mq => exact h.keeps_take mq
  | pair mq pair => exact h.keeps_pair mq pair
  | pass t t' msqid => exact h.keeps_pass t' hlegal

/-- What the shares say about the numbers. -/
theorem Inv.sound (h : Inv s made) : Sound s := by
  have hfew := h.few
  have hcount : s.numqueues.toInt = made.length := by rw [h.count, toInt_ofNat_of_lt (by omega)]
  refine ⟨h.nodup_held, ?_, ?_, ?_, ?_⟩
  · obtain ⟨k, hk, hspace, hle, -⟩ := h.space
    have hpow : 2 ^ k ≤ 1073741824 := Nat.pow_le_pow_right (by omega) hk
    rw [hcount, hspace, toInt_ofNat_of_lt (by omega)]
    exact Int.ofNat_le.mpr hle
  · intro t msqid hmem
    have hlt : msqid.toNat < made.length := h.known _ hmem
    have hint : msqid.toInt = msqid.toNat := BitVec.toInt_eq_toNat_of_lt (by omega)
    omega
  · intro t msqid hmem
    have hmade := h.getElem?_addrOf hmem
    obtain ⟨q, hq, hid⟩ := h.object _ _ hmade
    exact ⟨q, ⟨_, h.cells _ _ hmade, hq⟩, by rw [hid, BitVec.ofNat_toNat, BitVec.setWidth_eq]⟩
  · intro act s' hlegal hroom hstep
    obtain ⟨s₁, -, hok, -, hhands, -⟩ := h.step hlegal hroom
    rw [hstep] at hok
    cases hok
    exact hhands

end

/-- In every run of any number of threads that get, pass on and release queues, in which a number
is released by the thread that holds it and nothing is put on a queue from its release on, and in
which no more than 2³⁰ queues are made: no step fails; the numbers held at the same time are
different; each is below `numqueues`, which is at most `queuespace`, and its cell refers to the
queue with this number; and a queue that is handed out is active and empty. -/
theorem ids_sound {acts : List (Act α)} (hacts : AlongM step (fun s act => Legal s act ∧ Room s act) start acts) :
    ∃ s, acts.foldlM step start = .ok s ∧ Sound s := by
  obtain ⟨s, hrun, made, h⟩ := hacts.inv (fun s => ∃ made, Inv s made) (fun s act ⟨made, h⟩ hact => by
    obtain ⟨s', made', hok, h', -⟩ := h.step hact.1 hact.2
    exact ⟨s', hok, made', h'⟩) ⟨[], inv_start⟩
  exact ⟨s, hrun, h.sound⟩

/-- **Every such run is a run of the pool**, in which what is done with a queue is done while a thread has it. A
thread has the numbers that it holds, and the one that it is about to return. -/
theorem run_refines {acts : List (Act α)} (hacts : AlongM step (fun s act => Legal s act ∧ Room s act) start acts) :
    ∃ s ops, acts.foldlM step start = .ok s ∧ Along Pool.step Pool.Legal (.start : Pool α) ops ∧
      ops.foldl Pool.step .start = s.pool := by
  obtain ⟨s, hrun, -, ops, hops, heq⟩ := hacts.inv
    (fun s => (∃ made, Inv s made) ∧ ∃ ops, Along Pool.step Pool.Legal .start ops ∧ ops.foldl Pool.step .start = s.pool)
    (fun s act ⟨⟨made, h⟩, ops, hops, heq⟩ hact => by
      obtain ⟨s', made', hok, h', -, hmoves⟩ := h.step hact.1 hact.2
      refine ⟨s', hok, ⟨made', h'⟩, ?_⟩
      rcases hmoves with hpool | ⟨op, hop, hpool⟩
      · exact ⟨ops, hops, heq.trans hpool.symm⟩
      · rw [← heq] at hop hpool
        exact ⟨ops ++ [op], hops.concat hop, by rw [List.foldl_append, hpool]; rfl⟩)
    ⟨⟨[], inv_start⟩, [], trivial, rfl⟩
  exact ⟨s, ops, hrun, hops, heq⟩

/-- A thread gets a queue, uses it and releases it, and another thread gets it while the first one
gets a new one. -/
def recycled : List (Act ℕ) :=
  [.getQueue 0, .tryAvailable 0, .create 0 7 fun _ => none, .append 7 42, .take 7, .releaseQueue 0 0, .lookup 0,
    .testPair 0, .testHead 0, .deactivate 0, .getQueue 1, .putFree 0, .tryAvailable 1, .activate 1, .leave 1,
    .getQueue 0, .tryAvailable 0, .create 0 8 fun _ => none]

/-- The second queue does not fit in the array as it was, and has another number. -/
theorem ids_sound_recycled :
    ∃ s, recycled.foldlM step start = .ok s ∧ s.held = [(1, 0), (0, 1)] ∧ s.queuespace = 2 ∧ Sound s := by
  have hrun : ∃ s, recycled.foldlM step start = .ok s ∧ s.held = [(1, 0), (0, 1)] ∧ s.queuespace = 2 := ⟨_, rfl, rfl, rfl⟩
  obtain ⟨s, hrun, hheld, hspace⟩ := hrun
  have hlegal : AlongM step (fun s act => Legal s act ∧ Room s act) start recycled := by
    decide +kernel
  obtain ⟨s', hrun', hsound⟩ := ids_sound hlegal
  rw [hrun] at hrun'
  cases hrun'
  exact ⟨s, hrun, hheld, hspace, hsound⟩

/-! ### More queues than an `int` has room for -/

/-- A thread gets `n` queues. -/
def gets (n : ℕ) : List (Act ℕ) :=
  (List.range n).flatMap fun mq => [.getQueue 0, .tryAvailable 0, .create 0 mq fun _ => none]

/-- The next one. -/
theorem run_gets_succ {n : ℕ} {s s₁ s₂ : State ℕ} (hrun : (gets n).foldlM step start = .ok s)
    (hmiss : [Act.getQueue 0, .tryAvailable 0].foldlM step s = .ok s₁)
    (hcreate : step s₁ (.create 0 n fun _ => none) = .ok s₂) : (gets (n + 1)).foldlM step start = .ok s₂ := by
  have hsucc : gets (n + 1) = gets n ++ ([.getQueue 0, .tryAvailable 0] ++ [.create 0 n fun _ => none]) := by
    simp only [gets, List.range_succ, List.flatMap_append, List.flatMap_cons, List.flatMap_nil, List.append_nil]
    rfl
  rw [hsucc, List.foldlM_append, hrun, ok_bind, List.foldlM_append, hmiss, ok_bind, List.foldlM_cons, hcreate]
  rfl

/-- The calls are all legal. -/
theorem legal_gets (n : ℕ) : AlongM step Legal start (gets n) := by
  refine alongM_of_forall (fun act hact s => ?_) start
  obtain ⟨mq, -, hmem⟩ := List.mem_flatMap.mp hact
  simp only [List.mem_cons, List.not_mem_nil, or_false] at hmem
  rcases hmem with rfl | rfl | rfl <;> trivial

section

variable {s : State α} {made : List Addr} {t : ℕ}

/-- When no queue is free, `get_queue` comes to where it makes one. -/
theorem Inv.missed (h : Inv s made) (hidle : s.threads t = .idle) (hlk : s.lk = none) (hfree : s.free = []) :
    ∃ s₁, [Act.getQueue t, .tryAvailable t].foldlM Ids.step s = .ok s₁ ∧ Inv s₁ made ∧ s₁.threads t = .missed ∧
      s₁.heap = s.heap ∧ s₁.free = [] := by
  have hph : (s.init.lock t).threads t = .trying := State.threads_goto_self ..
  have hfree' : s.init.free = [] := (s.free_init h.first).trans hfree
  have hmeta : (s.init.lock t).metaqueue = some [] := by
    have hsome := (h.init.first).symm.trans s.initialized_init
    obtain ⟨free, hmeta⟩ := Option.isSome_iff_exists.mp hsome
    rw [State.free, hmeta, Option.getD_some] at hfree'
    rw [← hfree', ← hmeta]
    rfl
  refine ⟨(s.init.lock t).goto t .missed, ?_, (h.lock hlk).miss hph, State.threads_goto_self .., s.heap_init, hfree'⟩
  have hget : Ids.step s (.getQueue t) = .ok (s.init.lock t) := by
    rw [Ids.step, if_pos ⟨hidle, hlk⟩]
  have htry : Ids.step (s.init.lock t) (.tryAvailable t) = .ok ((s.init.lock t).goto t .missed) := by
    rw [Ids.step, hph, hmeta]
  rw [List.foldlM_cons, hget, ok_bind, List.foldlM_cons, htry]
  rfl

end

/-- They are all made, up to 2³⁰. -/
theorem gets_ok {n : ℕ} (hn : n ≤ 1073741824) :
    ∃ s made, (gets n).foldlM step start = .ok s ∧ Inv s made ∧ made.length = n ∧ s.threads 0 = .idle ∧ s.lk = none ∧
      s.free = [] ∧ ∀ a ≥ n, s.heap a = none := by
  induction n with
  | zero => exact ⟨start, [], rfl, inv_start, rfl, rfl, rfl, rfl, fun _ _ => rfl⟩
  | succ n ih =>
    obtain ⟨s, made, hrun, h, hlen, hidle, hlk, hfree, hnew⟩ := ih (by omega)
    obtain ⟨s₁, hmiss, h₁, hph, hheap, hfree₁⟩ := h.missed hidle hlk hfree
    have ha : s₁.heap n = none := by rw [hheap, hnew n (Nat.le_refl n)]
    obtain ⟨s₂, hok, h₂, hfound, hq, -, hfree₂, hheap₂⟩ := h₁.create hph ha (by omega) fun _ => none
    refine ⟨s₂.handOut 0 s₁.numqueues, made ++ [n], ?_, (h₂.handOut hfound hq).1, by simp [hlen],
      State.threads_goto_self .., rfl, hfree₂.trans hfree₁, fun a hgt => ?_⟩
    · refine run_gets_succ hrun hmiss ?_
      rw [step, if_pos ⟨hph, ha⟩, hok]
    · exact (hheap₂ a (Nat.ne_of_gt hgt)).trans (by rw [hheap, hnew a (Nat.le_of_lt hgt)])

/-- After 2³⁰ queues the next one makes `queuespace` overflow. -/
theorem Inv.create_full {s : State α} {made : List Addr} (h : Inv s made) (hfull : made.length = 1073741824)
    (t : ℕ) (a : Addr) (junk : ℕ → Option Addr) :
    ∃ s', s.create t a junk = .ok s' ∧ s'.numqueues.toInt = 1073741825 ∧ s'.queuespace.toInt = -2147483648 := by
  have hspace : s.queuespace = BitVec.ofNat 32 made.length := by
    obtain ⟨k, hk, hspace, hle, -⟩ := h.space
    have hthirty : 2 ^ k ≤ 2 ^ 30 := Nat.pow_le_pow_right (by omega) hk
    rw [hspace, show made.length = 2 ^ k by omega]
  have hcount := h.numqueues_succ
  have hindex := h.toNat_numqueues
  have hless : (BitVec.ofNat 32 made.length).toInt < (BitVec.ofNat 32 (made.length + 1)).toInt := by
    rw [toInt_ofNat_of_lt (by omega), toInt_ofNat_of_lt (by omega)]
    omega
  simp only [State.create]
  rw [hspace, hcount, if_pos hless, queueRealloc_eq junk s.queues (by omega) (by omega)]
  dsimp only
  rw [hindex, store_lt (by rw [List.length_map, List.length_range]; omega)]
  refine ⟨_, rfl, ?_, ?_⟩
  · change (BitVec.ofNat 32 (made.length + 1)).toInt = 1073741825
    rw [hfull]
    rfl
  · change (BitVec.ofNat 32 (made.length * 2)).toInt = -2147483648
    rw [hfull]
    rfl

theorem gets_overflow {n : ℕ} (hn : n = 1073741824) :
    ∃ s, (gets (n + 1)).foldlM step start = .ok s ∧ AlongM step Legal start (gets (n + 1)) ∧
      s.numqueues.toInt = 1073741825 ∧ s.queuespace.toInt = -2147483648 := by
  obtain ⟨s, made, hrun, h, hlen, hidle, hlk, hfree, hnew⟩ := gets_ok (Nat.le_of_eq hn)
  obtain ⟨s₁, hmiss, h₁, hph, hheap, -⟩ := h.missed hidle hlk hfree
  have ha : s₁.heap n = none := by rw [hheap, hnew n (Nat.le_refl n)]
  obtain ⟨s₂, hcreate, hnum, hspace⟩ := h₁.create_full (hlen.trans hn) 0 n fun _ => none
  refine ⟨s₂, run_gets_succ hrun hmiss ?_, legal_gets (n + 1), hnum, hspace⟩
  rw [step, if_pos ⟨hph, ha⟩, hcreate]

/-- With one more, `queuespace` is negative. -/
theorem queuespace_wraps :
    ∃ s, (gets 1073741825).foldlM step start = .ok s ∧ AlongM step Legal start (gets 1073741825) ∧
      s.numqueues.toInt = 1073741825 ∧ s.queuespace.toInt = -2147483648 :=
  gets_overflow rfl

end Gross.Queue.Ids
