import Gross.Queue.Ids
import Mathlib.Data.List.Perm.Basic

/-!
# Who has which queue

The queues are shared among the threads that hold one, the metaqueue, and the hand of
the thread in `get_queue`, which has the lock. A step moves a queue from one of them to
another, or makes one.

* `Inv` — the shares together are the queues made (`Inv.whole`), each with its number
  in its cell. A queue that no thread holds is empty, and a thread that releases one
  holds it.
* `Inv.set`, `Inv.goto` — steps that move none. `Inv.pop`, `Inv.handOut`, `Inv.create`,
  `Inv.putFree`, `Inv.pass` — those that do.
  `Gross.Queue.Runs` puts them together.
-/

namespace Gross.Queue.Ids

open Foundation

variable {α : Type}

/-! ### The shares -/

/-- The queues on the metaqueue. -/
def State.free (s : State α) : List Addr := s.metaqueue.getD []

/-- The queue in the hand of the thread with the lock. -/
def State.hand (s : State α) : List Addr := s.lk.elim [] fun t => (s.threads t).taken.toList

/-- Where the queue with this number is. -/
def addrOf (made : List Addr) (msqid : Word) : Addr := made.getD msqid.toNat 0

/-- What `release_queue` has made sure of. -/
def Stage.Reached (q : MsgQueue α) : Stage → Prop
  | .looked | .unpaired => True
  | .empty | .inactive => q.msgs = []

/-- Where a thread may be, with these queues on the heap. -/
structure ThreadOk (heap : Heap (MsgQueue α)) (lk : Option ℕ) (held : List (ℕ × Word)) (made : List Addr) (t : ℕ)
    (ph : Phase) : Prop where
  /-- In `get_queue` it has the lock. -/
  lock : ph.inside = true → lk = some t
  /-- A queue that it is about to hand out is active. -/
  lit : ∀ a, ph = .found a → ∃ q, heap a = some q ∧ q.active = true
  /-- It releases what it holds. -/
  mine : ∀ msqid, ph.releases = some msqid → (t, msqid) ∈ held
  /-- It has the queue with this number, and nothing is put on it. -/
  reached : ∀ stage msqid a, ph = .releasing stage msqid a →
    made[msqid.toNat]? = some a ∧ ∃ q, heap a = some q ∧ stage.Reached q

/-- The queues are those at `made`, in the order of their numbers. Each is held, free, or in
the hand of the thread with the lock. -/
structure Inv (s : State α) (made : List Addr) : Prop where
  /-- They are counted. -/
  count : s.numqueues = BitVec.ofNat 32 made.length
  /-- There are not too many. -/
  few : made.length ≤ 1073741824
  /-- The array has cells for them. -/
  space : ∃ k ≤ 30, s.queuespace = BitVec.ofNat 32 (2 ^ k) ∧ made.length ≤ 2 ^ k ∧
    (s.initialized = true → s.queues.length = 2 ^ k)
  /-- The cells refer to them. -/
  cells : ∀ (i : ℕ) (a : Addr), made[i]? = some a → s.queues[i]? = some (some a)
  /-- Each has its number. -/
  object : ∀ (i : ℕ) (a : Addr), made[i]? = some a → ∃ q, s.heap a = some q ∧ q.id = BitVec.ofNat 32 i
  /-- They are different. -/
  nodup : made.Nodup
  /-- A number that is held is that of one of them. -/
  known : ∀ p ∈ s.held, p.2.toNat < made.length
  /-- Each is in one place. -/
  whole : (s.held.map (fun p => addrOf made p.2) ++ s.free ++ s.hand).Perm made
  /-- The first call makes the metaqueue. -/
  first : s.initialized = s.metaqueue.isSome
  /-- Before it there are no queues. -/
  new : s.initialized = false → made = []
  /-- A thread with the lock has made it. -/
  ready : s.lk.isSome = true → s.initialized = true
  /-- A queue that is not held is empty. -/
  clean : ∀ a ∈ s.free ++ s.hand, ∃ q, s.heap a = some q ∧ q.msgs = []
  /-- The threads are where they may be. -/
  threads : ∀ t, ThreadOk s.heap s.lk s.held made t (s.threads t)

theorem threadOk_idle (heap : Heap (MsgQueue α)) (lk : Option ℕ) (held : List (ℕ × Word)) (made : List Addr) (t : ℕ) :
    ThreadOk heap lk held made t .idle where
  lock h := nomatch h
  lit _ h := nomatch h
  mine _ h := nomatch h
  reached _ _ _ h := nomatch h

theorem Phase.releases_of_inside {ph : Phase} (hin : ph.inside = true) : ph.releases = none := by
  cases ph <;> first | rfl | cases hin

theorem threadOk_inside {heap : Heap (MsgQueue α)} {lk : Option ℕ} {t : ℕ} (ph : Phase) (hin : ph.inside = true)
    (hlk : lk = some t) (hlit : ∀ a, ph = .found a → ∃ q, heap a = some q ∧ q.active = true) (held : List (ℕ × Word))
    (made : List Addr) : ThreadOk heap lk held made t ph where
  lock _ := hlk
  lit := hlit
  mine _ h := by
    rw [Phase.releases_of_inside hin] at h
    cases h
  reached _ _ _ h := by
    rw [h] at hin
    cases hin

theorem inv_start : Inv (start : State α) [] where
  count := rfl
  few := Nat.zero_le _
  space := ⟨0, Nat.zero_le _, rfl, Nat.zero_le _, fun h => nomatch h⟩
  cells _ _ h := nomatch h
  object _ _ h := nomatch h
  nodup := List.nodup_nil
  known _ h := nomatch h
  whole := .refl _
  first := rfl
  new _ := rfl
  ready h := nomatch h
  clean _ h := nomatch h
  threads t := threadOk_idle _ _ _ _ t

section

variable {s : State α} {made : List Addr} {t : ℕ} {a : Addr} {msqid : Word}

@[simp]
theorem State.threads_goto_self (s : State α) (t : ℕ) (ph : Phase) : (s.goto t ph).threads t = ph :=
  Function.update_self ..

theorem State.threads_goto_ne (s : State α) {t t' : ℕ} (h : t' ≠ t) (ph : Phase) :
    (s.goto t ph).threads t' = s.threads t' := Function.update_of_ne h ..

/-- What holds of a thread's phase after thread `t` has gone on. -/
theorem State.forall_goto {P : ℕ → Phase → Prop} {ph : Phase} (ht : P t ph) (h : ∀ t' ≠ t, P t' (s.threads t'))
    (t' : ℕ) : P t' ((s.goto t ph).threads t') := by
  by_cases heq : t' = t
  · rw [heq, State.threads_goto_self]
    exact ht
  · rw [State.threads_goto_ne s heq]
    exact h t' heq

theorem State.hand_of_lk (h : s.lk = some t) : s.hand = (s.threads t).taken.toList := by
  rw [State.hand, h]
  rfl

/-- A thread that is inside has the lock, and what is in hand is in its hand. -/
theorem Inv.locked (h : Inv s made) {ph : Phase} (hph : s.threads t = ph) (hin : ph.inside = true) :
    s.lk = some t ∧ s.hand = ph.taken.toList := by
  subst hph
  have hlk := (h.threads t).lock hin
  exact ⟨hlk, State.hand_of_lk hlk⟩

theorem State.hand_of_unlocked (h : s.lk = none) : s.hand = [] := by
  rw [State.hand, h]
  rfl

theorem State.hand_goto_self (h : s.lk = some t) (ph : Phase) : (s.goto t ph).hand = ph.taken.toList := by
  rw [State.hand_of_lk (show (s.goto t ph).lk = some t from h), State.threads_goto_self]

/-- A thread that goes on with what it has in its hand. -/
theorem State.hand_goto {ph : Phase} (h : ph.taken = (s.threads t).taken) : (s.goto t ph).hand = s.hand := by
  cases hlk : s.lk with
  | none => rw [State.hand_of_unlocked hlk, State.hand_of_unlocked (show (s.goto t ph).lk = none from hlk)]
  | some u =>
    rw [State.hand_of_lk hlk, State.hand_of_lk (show (s.goto t ph).lk = some u from hlk)]
    by_cases hu : u = t
    · rw [hu, State.threads_goto_self, h]
    · rw [State.threads_goto_ne s hu]

/-! ### What follows from the shares -/

theorem addrOf_of_getElem? (h : made[msqid.toNat]? = some a) : addrOf made msqid = a := by
  rw [addrOf, List.getD_eq_getElem?_getD, h, Option.getD_some]

theorem Inv.getElem?_addrOf (h : Inv s made) (hmem : (t, msqid) ∈ s.held) :
    made[msqid.toNat]? = some (addrOf made msqid) := by
  have hlt := h.known _ hmem
  rw [addrOf, List.getD_eq_getElem?_getD, List.getElem?_eq_getElem hlt, Option.getD_some]

theorem Inv.nodup_shares (h : Inv s made) : (s.held.map (fun p => addrOf made p.2) ++ (s.free ++ s.hand)).Nodup := by
  rw [← List.append_assoc]
  exact h.whole.nodup_iff.mpr h.nodup

/-- The numbers held are different. -/
theorem Inv.nodup_held (h : Inv s made) : (s.held.map Prod.snd).Nodup := by
  have hnodup := (List.nodup_append.mp h.nodup_shares).1
  refine List.Nodup.of_map (addrOf made) ?_
  rwa [List.map_map]

/-- A number is held by one thread. -/
theorem Inv.holder_unique (h : Inv s made) {t t' : ℕ} (ht : (t, msqid) ∈ s.held) (ht' : (t', msqid) ∈ s.held) :
    t = t' := congrArg Prod.fst (List.inj_on_of_nodup_map h.nodup_held ht ht' rfl)

/-- Of two numbers that are held the queues differ. -/
theorem Inv.msqid_unique (h : Inv s made) {t t' : ℕ} {msqid' : Word} (ht : (t, msqid) ∈ s.held)
    (ht' : (t', msqid') ∈ s.held) (heq : made[msqid.toNat]? = made[msqid'.toNat]?) : msqid = msqid' := by
  have hlt := h.known _ ht
  have hlt' := h.known _ ht'
  refine BitVec.eq_of_toNat_eq ?_
  exact (List.getElem?_inj hlt h.nodup).mp heq

/-- A queue that is held is not free, nor in a hand. -/
theorem Inv.notMem_of_held (h : Inv s made) (hmem : (t, msqid) ∈ s.held) (ha : made[msqid.toNat]? = some a) :
    a ∉ s.free ++ s.hand := by
  intro hfree
  have hheld : a ∈ s.held.map (fun p => addrOf made p.2) :=
    List.mem_map.mpr ⟨_, hmem, addrOf_of_getElem? ha⟩
  exact (List.nodup_append.mp h.nodup_shares).2.2 a hheld a hfree rfl

/-- A queue that is free or in a hand is one of those made. -/
theorem Inv.mem_made (h : Inv s made) (ha : a ∈ s.free ++ s.hand) : a ∈ made := by
  refine h.whole.subset ?_
  rw [List.append_assoc]
  exact List.mem_append_right _ ha

/-! ### Changes of one queue, and of one thread -/

/-- What is known of a queue, after one is changed. -/
theorem exists_set {heap : Heap (MsgQueue α)} {P : MsgQueue α → Prop} {b : Addr} {q' : MsgQueue α}
    (hb : ∃ q, heap b = some q ∧ P q) (hset : b = a → P q') : ∃ q, heap.set a (some q') b = some q ∧ P q := by
  by_cases hba : b = a
  · exact ⟨q', hba ▸ Heap.set_self .., hset hba⟩
  · rwa [Heap.set_ne _ hba]

/-- What is known of the queue at an address, of the queue that is read there. -/
theorem of_exists_heap {heap : Heap (MsgQueue α)} {P : MsgQueue α → Prop} {q : MsgQueue α} (hq : heap a = some q)
    (h : ∃ q, heap a = some q ∧ P q) : P q := by
  obtain ⟨c, hc, hP⟩ := h
  rw [hq] at hc
  cases hc
  exact hP

/-- A queue is changed, but not its number. -/
theorem Inv.set (h : Inv s made) {q q' : MsgQueue α} (ha : s.heap a = some q) (hid : q'.id = q.id)
    (hclean : a ∈ s.free ++ s.hand → q.msgs = [] → q'.msgs = [])
    (hlit : ∀ t, s.threads t = .found a → q.active = true → q'.active = true)
    (hreached : ∀ t stage msqid, s.threads t = .releasing stage msqid a → stage.Reached q → stage.Reached q') :
    Inv { s with heap := s.heap.set a (some q') } made := by
  refine { h with object := fun i b hb => ?_, clean := fun b hb => ?_, threads := fun t => ?_ }
  · refine exists_set (h.object i b hb) fun hba => ?_
    exact hid.trans (of_exists_heap ha (hba ▸ h.object i b hb))
  · refine exists_set (h.clean b hb) fun hba => ?_
    exact hclean (hba ▸ hb) (of_exists_heap ha (hba ▸ h.clean b hb))
  · refine ⟨(h.threads t).lock, ?_, (h.threads t).mine, ?_⟩
    · intro b hb
      refine exists_set ((h.threads t).lit b hb) fun hba => ?_
      exact hlit t (hba ▸ hb) (of_exists_heap ha (hba ▸ (h.threads t).lit b hb))
    · intro stage msqid b hb
      obtain ⟨hmade, hstage⟩ := (h.threads t).reached stage msqid b hb
      refine ⟨hmade, exists_set hstage fun hba => ?_⟩
      exact hreached t stage msqid (hba ▸ hb) (of_exists_heap ha (hba ▸ hstage))

theorem State.modify_eq {q : MsgQueue α} (ha : s.heap a = some q) (f : MsgQueue α → MsgQueue α) :
    s.modify a f = .ok { s with heap := s.heap.set a (some (f q)) } := by
  simp only [State.modify, Heap.read_some ha, Heap.write_some ha, ok_bind]
  rfl

/-- A thread goes on with what it has in its hand. -/
theorem Inv.goto (h : Inv s made) {ph : Phase} (htaken : ph.taken = (s.threads t).taken)
    (hph : ThreadOk s.heap s.lk s.held made t ph) : Inv (s.goto t ph) made := by
  have hhand := State.hand_goto htaken
  exact { h with
    whole := hhand ▸ h.whole
    clean := hhand ▸ h.clean
    threads := State.forall_goto hph fun t' _ => h.threads t' }

/-- `release_queue` goes on with its queue. -/
theorem Inv.advance (h : Inv s made) {stage stage' : Stage} {q : MsgQueue α}
    (hph : s.threads t = .releasing stage msqid a) (hq : s.heap a = some q) (hstage : stage'.Reached q) :
    Inv (s.goto t (.releasing stage' msqid a)) made := by
  have hold := h.threads t
  rw [hph] at hold
  refine h.goto (by rw [hph]; rfl) ⟨fun hin => (nomatch hin), fun _ hfound => (nomatch hfound), hold.mine, ?_⟩
  rintro stage msqid b ⟨⟩
  exact ⟨(hold.reached _ _ _ rfl).1, q, hq, hstage⟩

/-! ### A queue goes from one to another -/

/-- The first call of `get_queue`. -/
theorem Inv.init (h : Inv s made) : Inv s.init made := by
  cases hfirst : s.initialized with
  | true => rwa [State.init, if_pos hfirst]
  | false =>
    obtain rfl := h.new hfirst
    have hfree : s.free = [] := by
      have hnone := h.first
      rw [hfirst, eq_comm, Option.isSome_eq_false_iff, Option.isNone_iff_eq_none] at hnone
      rw [State.free, hnone, Option.getD_none]
    obtain ⟨k, hk, hspace, hle, -⟩ := h.space
    have hlen : (BitVec.ofNat 32 (2 ^ k)).toNat = 2 ^ k :=
      Nat.mod_eq_of_lt (Nat.pow_lt_pow_right (by omega) (by omega))
    have hwhole := h.whole
    have hclean := h.clean
    rw [hfree] at hwhole hclean
    rw [State.init, if_neg (by rw [hfirst]; exact Bool.false_ne_true)]
    exact { h with
      space := ⟨k, hk, hspace, hle, fun _ => by rw [List.length_replicate, hspace, hlen]⟩
      cells := fun _ _ hi => nomatch hi
      whole := hwhole
      first := rfl
      new := fun _ => rfl
      ready := fun _ => rfl
      clean := hclean }

/-- `get_queue` takes the lock. -/
theorem Inv.acquire (h : Inv s made) (hlk : s.lk = none) (hready : s.initialized = true) : Inv (s.lock t) made := by
  have hhand : (s.lock t).hand = s.hand := by
    rw [State.hand_of_unlocked hlk, State.lock, State.hand_goto_self rfl]
    rfl
  exact { h with
    whole := by
      rw [hhand]
      exact h.whole
    ready := fun _ => hready
    clean := by
      rw [hhand]
      exact h.clean
    threads := by
      refine State.forall_goto (threadOk_inside .trying rfl rfl (fun _ hph => nomatch hph) s.held made) fun t' _ =>
        { h.threads t' with lock := fun hin => ?_ }
      -- no other thread has it
      have hlk' := (h.threads t').lock hin
      rw [hlk] at hlk'
      cases hlk' }

theorem State.initialized_init (s : State α) : s.init.initialized = true := by
  unfold State.init
  split_ifs with hfirst
  · exact hfirst
  · rfl

@[simp]
theorem State.lk_init (s : State α) : s.init.lk = s.lk := by
  unfold State.init
  split_ifs <;> rfl

@[simp]
theorem State.held_init (s : State α) : s.init.held = s.held := by
  unfold State.init
  split_ifs <;> rfl

@[simp]
theorem State.heap_init (s : State α) : s.init.heap = s.heap := by
  unfold State.init
  split_ifs <;> rfl

@[simp]
theorem State.free_init (s : State α) (h : s.initialized = s.metaqueue.isSome) : s.init.free = s.free := by
  unfold State.init
  split_ifs with hfirst
  · rfl
  · rw [Bool.not_eq_true, h, Option.isSome_eq_false_iff, Option.isNone_iff_eq_none] at hfirst
    rw [State.free, State.free, hfirst]
    rfl

/-- `get_queue`, from its call to `try_available`. -/
theorem Inv.lock (h : Inv s made) (hlk : s.lk = none) : Inv (s.init.lock t) made :=
  h.init.acquire (s.lk_init.trans hlk) s.initialized_init

/-- `try_available` takes a queue from the metaqueue. -/
theorem Inv.pop (h : Inv s made) {rest : List Addr} (hph : s.threads t = .trying) (hmeta : s.metaqueue = some (a :: rest)) :
    Inv ({ s with metaqueue := some rest }.goto t (.popped a)) made := by
  obtain ⟨hlk, hempty : s.hand = []⟩ := h.locked hph rfl
  have hhand : ({ s with metaqueue := some rest }.goto t (.popped a)).hand = [a] := State.hand_goto_self hlk _
  have hfree : s.free = a :: rest := by rw [State.free, hmeta, Option.getD_some]
  have hmove : (rest ++ [a]).Perm (s.free ++ s.hand) := by
    rw [hfree, hempty, List.append_nil]
    exact List.perm_append_singleton a rest
  exact { h with
    whole := by
      rw [hhand, List.append_assoc]
      refine (hmove.append_left _).trans ?_
      rw [← List.append_assoc]
      exact h.whole
    first := h.first.trans (by rw [hmeta]; rfl)
    clean := by
      rw [hhand]
      exact fun b hb => h.clean b (hmove.subset hb)
    threads := State.forall_goto (threadOk_inside (.popped a) rfl hlk (fun _ hph => nomatch hph) s.held made)
      fun t' _ => h.threads t' }

/-- The number of a queue in a hand. -/
theorem Inv.id_of_hand (h : Inv s made) {q : MsgQueue α} (ha : a ∈ s.free ++ s.hand) (hq : s.heap a = some q) :
    made[q.id.toNat]? = some a := by
  obtain ⟨i, hi⟩ := List.getElem?_of_mem (h.mem_made ha)
  have hid := of_exists_heap hq (h.object i a hi)
  have hlt := (List.getElem?_eq_some_iff.mp hi).1
  have hfew := h.few
  rwa [hid, BitVec.toNat_ofNat, Nat.mod_eq_of_lt (by omega)]

/-- `get_queue` returns the queue in its hand. -/
theorem Inv.handOut (h : Inv s made) {q : MsgQueue α} (hph : s.threads t = .found a) (hq : s.heap a = some q) :
    Inv (s.handOut t q.id) made ∧ Refers (s.handOut t q.id) q.id q ∧ q.active = true ∧ q.msgs = [] := by
  obtain ⟨hlk, hhand : s.hand = [a]⟩ := h.locked hph rfl
  have hmem : a ∈ s.free ++ s.hand := List.mem_append_right _ (hhand ▸ List.mem_singleton_self a)
  have hmade := h.id_of_hand hmem hq
  have hempty : (s.handOut t q.id).hand = [] := State.hand_of_unlocked rfl
  refine ⟨{ h with
    known := ?_
    whole := ?_
    ready := fun hsome => nomatch hsome
    clean := ?_
    threads := ?_ }, ⟨a, h.cells _ a hmade, hq⟩, ?_, ?_⟩
  · intro p hp
    rcases List.mem_append.mp hp with hp | hp
    · exact h.known p hp
    · rw [List.mem_singleton.mp hp]
      exact (List.getElem?_eq_some_iff.mp hmade).1
  · have hwhole := h.whole
    rw [hhand] at hwhole
    rw [hempty, List.append_nil]
    change ((s.held ++ [(t, q.id)]).map (fun p => addrOf made p.2) ++ s.free).Perm made
    rw [List.map_append, List.map_singleton, addrOf_of_getElem? hmade]
    rw [List.append_assoc] at hwhole ⊢
    exact (List.perm_append_comm.append_left _).trans hwhole
  · rw [hempty, List.append_nil]
    exact fun b hb => h.clean b (List.mem_append_left _ hb)
  · refine State.forall_goto (threadOk_idle ..) fun t' hne => ?_
    refine { h.threads t' with lock := fun hin => ?_, mine := ?_ }
    · have hlk' := (h.threads t').lock hin
      rw [hlk, Option.some_inj] at hlk'
      exact absurd hlk'.symm hne
    · exact fun msqid hrel => List.mem_append_left _ ((h.threads t').mine msqid hrel)
  · exact of_exists_heap hq ((h.threads t).lit a hph)
  · exact of_exists_heap hq (h.clean a hmem)

/-- The metaqueue gets the queue that its holder releases. -/
theorem Inv.putFree (h : Inv s made) {free : List Addr} (hph : s.threads t = .releasing .inactive msqid a)
    (hmeta : s.metaqueue = some free) :
    Inv ({ s with metaqueue := some (free ++ [a]), held := s.held.erase (t, msqid) }.goto t .idle) made := by
  have hold := h.threads t
  rw [hph] at hold
  have hmem := hold.mine msqid rfl
  obtain ⟨hmade, hempty⟩ := hold.reached _ _ _ rfl
  have hfree : s.free = free := by rw [State.free, hmeta, Option.getD_some]
  have hhand : ({ s with metaqueue := some (free ++ [a]), held := s.held.erase (t, msqid) }.goto t .idle).hand = s.hand :=
    State.hand_goto (by rw [hph]; rfl)
  refine { h with known := ?_, whole := ?_, first := ?_, clean := ?_, threads := ?_ }
  · exact fun p hp => h.known p (List.mem_of_mem_erase hp)
  · have hheld := (List.perm_cons_erase hmem).map fun p => addrOf made p.2
    rw [List.map_cons, addrOf_of_getElem? hmade] at hheld
    have hmove : ((s.held.erase (t, msqid)).map (fun p => addrOf made p.2) ++ (free ++ [a])).Perm
        (s.held.map (fun p => addrOf made p.2) ++ s.free) := by
      rw [← List.append_assoc, hfree]
      exact (List.perm_append_singleton ..).trans (hheld.symm.append_right free)
    rw [hhand]
    exact (hmove.append_right s.hand).trans h.whole
  · exact h.first.trans (by rw [hmeta]; rfl)
  · rw [hhand]
    intro b hb
    change b ∈ free ++ [a] ++ s.hand at hb
    rw [← hfree, List.append_assoc, List.mem_append, List.mem_append, List.mem_singleton] at hb
    rcases hb with hb | rfl | hb
    · exact h.clean b (List.mem_append_left _ hb)
    · exact hempty
    · exact h.clean b (List.mem_append_right _ hb)
  · refine State.forall_goto (threadOk_idle ..) fun t' hne => { h.threads t' with mine := ?_ }
    intro msqid' hrel
    refine (List.mem_erase_of_ne ?_).mpr ((h.threads t').mine msqid' hrel)
    exact fun heq => hne (congrArg Prod.fst heq)

/-- A number is passed on. -/
theorem Inv.pass (h : Inv s made) {t' : ℕ} (hmem : (t, msqid) ∈ s.held) (hrel : (s.threads t).releases ≠ some msqid) :
    Inv { s with held := s.held.erase (t, msqid) ++ [(t', msqid)] } made := by
  refine { h with known := ?_, whole := ?_, threads := ?_ }
  · intro p hp
    rcases List.mem_append.mp hp with hp | hp
    · exact h.known p (List.mem_of_mem_erase hp)
    · rw [List.mem_singleton.mp hp]
      exact h.known (t, msqid) hmem
  · refine List.Perm.trans ?_ h.whole
    refine List.Perm.append_right _ (List.Perm.append_right _ ?_)
    have hheld := (List.perm_cons_erase hmem).map fun p => addrOf made p.2
    rw [List.map_append, List.map_singleton]
    exact (List.perm_append_singleton ..).trans hheld.symm
  · intro u
    refine { h.threads u with mine := fun msqid' hu => ?_ }
    refine List.mem_append_left _ ((List.mem_erase_of_ne ?_).mpr ((h.threads u).mine msqid' hu))
    rintro ⟨⟩
    exact hrel hu

theorem Inv.numqueues_succ (h : Inv s made) : s.numqueues + 1 = BitVec.ofNat 32 (made.length + 1) := by
  rw [h.count]
  exact (BitVec.ofNat_add made.length 1).symm

theorem Inv.toNat_numqueues (h : Inv s made) : s.numqueues.toNat = made.length := by
  have hfew := h.few
  rw [h.count, BitVec.toNat_ofNat, Nat.mod_eq_of_lt (by omega)]

theorem State.handOut_goto (s : State α) (t : ℕ) (ph : Phase) (i : Word) : (s.goto t ph).handOut t i = s.handOut t i := by
  simp only [State.handOut, State.goto, Function.update_idem]

theorem getElem?_concat {l : List Addr} {x y : Addr} {i : ℕ} (h : (l ++ [x])[i]? = some y) :
    l[i]? = some y ∨ i = l.length ∧ y = x := by
  rcases Nat.lt_trichotomy i l.length with hlt | heq | hgt
  · rw [List.getElem?_append_left hlt] at h
    exact .inl h
  · rw [heq, List.getElem?_concat_length] at h
    cases h
    exact .inr ⟨heq, rfl⟩
  · have hi := (List.getElem?_eq_some_iff.mp h).1
    rw [List.length_append, List.length_singleton] at hi
    omega

theorem getElem?_concat_of_some {l : List Addr} {x y : Addr} {i : ℕ} (h : l[i]? = some y) : (l ++ [x])[i]? = some y := by
  rw [List.getElem?_append_left (List.getElem?_eq_some_iff.mp h).1, h]

theorem Stage.reached_of_empty {q : MsgQueue α} (h : q.msgs = []) (stage : Stage) : stage.Reached q := by
  cases stage with
  | looked | unpaired => trivial
  | empty | inactive => exact h

/-- Where there is no object, there is none of the queues. -/
theorem Inv.ne_of_heap (h : Inv s made) (ha : s.heap a = none) {i : ℕ} {b : Addr} (hb : made[i]? = some b) : b ≠ a := by
  rintro rfl
  obtain ⟨q, hq, -⟩ := h.object i b hb
  rw [ha] at hq
  cases hq

theorem Inv.nodup_concat (h : Inv s made) (ha : s.heap a = none) : (made ++ [a]).Nodup := by
  refine List.nodup_append.mpr ⟨h.nodup, List.nodup_singleton a, fun b hb c hc => ?_⟩
  obtain ⟨i, hi⟩ := List.getElem?_of_mem hb
  rw [List.mem_singleton.mp hc]
  exact h.ne_of_heap ha hi

/-- What is held keeps its address when a queue is made. -/
theorem Inv.map_addrOf_concat (h : Inv s made) (a : Addr) :
    s.held.map (fun p => addrOf (made ++ [a]) p.2) = s.held.map (fun p => addrOf made p.2) :=
  List.map_congr_left fun _ hp => addrOf_of_getElem? (getElem?_concat_of_some (h.getElem?_addrOf hp))

/-- Nor does it matter to the other threads. -/
theorem ThreadOk.concat {heap : Heap (MsgQueue α)} {lk : Option ℕ} {held : List (ℕ × Word)} {ph : Phase}
    (h : ThreadOk heap lk held made t ph) (a : Addr) (i : Word) :
    ThreadOk (heap.set a (some (createQueue i))) lk held (made ++ [a]) t ph where
  lock := h.lock
  lit b hb := exists_set (h.lit b hb) fun _ => rfl
  mine := h.mine
  reached stage msqid b hb := by
    obtain ⟨hmade, hstage⟩ := h.reached stage msqid b hb
    exact ⟨getElem?_concat_of_some hmade, exists_set hstage fun _ => stage.reached_of_empty rfl⟩

/-- A queue is made, in the cell after those of the others, and is in the hand of the thread. -/
theorem Inv.make (h : Inv s made) (hph : s.threads t = .missed) (ha : s.heap a = none) (hroom : made.length < 1073741824)
    {queues : List (Option Addr)} {k : ℕ} (hk : k ≤ 30) (hlen : queues.length = 2 ^ k) (hle : made.length + 1 ≤ 2 ^ k)
    (hcells : ∀ (i : ℕ) p, s.queues[i]? = some p → queues[i]? = some p) :
    Inv ({ s with
      heap := s.heap.set a (some (createQueue s.numqueues)), queues := queues.set made.length (some a),
      queuespace := BitVec.ofNat 32 (2 ^ k), numqueues := s.numqueues + 1 }.goto t (.found a)) (made ++ [a]) := by
  obtain ⟨hlk, hempty : s.hand = []⟩ := h.locked hph rfl
  have hwhole := h.whole
  have hclean := h.clean
  rw [hempty, List.append_nil] at hwhole hclean
  exact {
    count := by rw [List.length_append]; exact h.numqueues_succ
    few := by rw [List.length_append]; exact hroom
    space := ⟨k, hk, rfl, by rw [List.length_append]; exact hle, fun _ => by rw [← hlen]; exact List.length_set⟩
    cells := fun i b hb => by
      rcases getElem?_concat hb with hb | ⟨rfl, rfl⟩
      · have hlt := (List.getElem?_eq_some_iff.mp hb).1
        exact (List.getElem?_set_ne (Nat.ne_of_gt hlt)).trans (hcells i _ (h.cells i b hb))
      · exact List.getElem?_set_self (by omega)
    object := fun i b hb => by
      rcases getElem?_concat hb with hb | ⟨rfl, rfl⟩
      · exact exists_set (h.object i b hb) fun hba => absurd hba (h.ne_of_heap ha hb)
      · exact ⟨_, Heap.set_self .., h.count⟩
    nodup := h.nodup_concat ha
    known := fun p hp => by
      rw [List.length_append]
      exact Nat.lt_add_right 1 (h.known p hp)
    whole := by
      rw [State.hand_goto_self (by exact hlk)]
      exact (h.map_addrOf_concat a ▸ hwhole).append_right [a]
    first := h.first
    new := fun hnot => by
      have hready : s.initialized = true := h.ready (by rw [hlk]; rfl)
      rw [show s.initialized = false from hnot] at hready
      cases hready
    ready := h.ready
    clean := by
      rw [State.hand_goto_self (by exact hlk)]
      intro b hb
      rcases List.mem_append.mp hb with hb | hb
      · exact exists_set (hclean b hb) fun _ => rfl
      · rw [List.mem_singleton.mp hb]
        exact ⟨_, Heap.set_self .., rfl⟩
    threads := by
      refine State.forall_goto (threadOk_inside (.found a) rfl hlk ?_ _ _) fun t' _ => (h.threads t').concat a _
      rintro b ⟨⟩
      exact ⟨_, Heap.set_self .., rfl⟩ }

/-- `get_queue` makes a queue. It is in the hand of its thread, which then returns. -/
theorem Inv.create (h : Inv s made) (hph : s.threads t = .missed) (ha : s.heap a = none) (hroom : made.length < 1073741824)
    (junk : ℕ → Option Addr) :
    ∃ s₁ : State α, s.create t a junk = .ok (s₁.handOut t s.numqueues) ∧ Inv s₁ (made ++ [a]) ∧ s₁.threads t = .found a ∧
      s₁.heap a = some (createQueue s.numqueues) ∧ s₁.held = s.held ∧ s₁.free = s.free ∧
      ∀ b ≠ a, s₁.heap b = s.heap b := by
  have hlk := (h.locked hph rfl).1
  have hready : s.initialized = true := h.ready (by rw [hlk]; rfl)
  obtain ⟨k, hk, hspace, hle, hlen⟩ := h.space
  obtain ⟨queues', k', hk', hlen', hle', hcells, hgrow⟩ := grow junk hk (hlen hready) hle hroom
  refine ⟨_, ?_, h.make hph ha hroom hk' hlen' hle' hcells, State.threads_goto_self .., Heap.set_self .., rfl, rfl,
    fun b hb => Heap.set_ne _ hb _⟩
  simp only [State.create]
  rw [hspace, h.numqueues_succ, hgrow]
  dsimp only
  rw [h.toNat_numqueues, store_lt (by omega), State.handOut_goto]
  rfl

end

end Gross.Queue.Ids
