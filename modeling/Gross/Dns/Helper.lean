import Gross.Foundation.Run
import Gross.Queue.Pool
import Gross.Dns.Cache

/-!
# Calls of the resolver

`Gethostbyname` and `Gethostbyaddr` ask the resolver thread. A call looks in the
cache, and if nothing is found takes a queue with `get_queue`, sends its request
with the number of the queue, waits for the reply on that queue, with a timeout,
gives the queue back with `release_queue`, and stores what it has received. When
the resolver has an answer it calls `default_cb`, which puts the reply on the
queue whose number came with the request.

## The model

Any number of calls are made (`State.calls`), each at some stage of its function.
A step is one of these (`Act`): a call is made; a call takes its next step; a
call that waits times out; the resolver answers a request, and `put_msg` finds
the queue active or not; `put_msg` puts the reply on the queue. The clock is read
at each step that reads it in the source. A reply and a call carry some history
that the source does not keep: which request the reply answers, what the resolver
answered, and when an entry was stored or found.

## What is proved

`received_own` — a reply is received by the call whose request it answers, in
every run in which no reply is put on a queue after the call has begun to give
the queue back (`State.Prompt`). The queue of a call that has timed out is used by
other calls, so a reply that comes too late may be taken for another's
(`received_other`).

## Honest scope

Waking up and the pipe to the resolver are left out: a request is there when it
is sent, and the resolver answers it once, at any time. `inet_ntop` and the hash
function are parameters (`Env`).
-/

namespace Gross.Dns

open Foundation Queue Utils

universe u

variable {Host : Type u}

/-! ### Queries -/

/-- An address family. -/
inductive Family where
  /-- `AF_INET` -/
  | inet
  /-- `AF_INET6` -/
  | inet6
  /-- Any other number. -/
  | other (family : ℤ)
  deriving DecidableEq, Repr

/-- An address, with its family. -/
inductive Addr where
  /-- `struct in_addr` -/
  | inet (a : BitVec 32)
  /-- `struct in6_addr` -/
  | inet6 (a : BitVec 128)
  /-- Of a family that `inet_ntop` does not know. -/
  | other (family : ℤ)
  deriving DecidableEq, Repr

/-- The family of an address. -/
def Addr.family : Addr → Family
  | .inet _ => .inet
  | .inet6 _ => .inet6
  | .other family => .other family

/-- What a call asks for. -/
inductive Query where
  /-- `Gethostbyname(name, family, _)` -/
  | byName (family : Family) (name : List Char)
  /-- `Gethostbyaddr(addr, family, _)` -/
  | byAddr (addr : Addr)
  deriving DecidableEq, Repr

/-- The family that is asked for. -/
def Query.family : Query → Family
  | .byName family _ => family
  | .byAddr addr => addr.family

/-- `HOSTBYADDR`, and not `HOSTBYNAME`. -/
def Query.isByAddr : Query → Bool
  | .byName _ _ => false
  | .byAddr _ => true

/-- What is not in the source. -/
structure Env where
  /-- `inet_ntop`; it fails for a family that it does not know. -/
  inetNtop : Addr → Option (List Char)
  /-- `hashfunc` -/
  hashfunc : List Char → Fin hashsize
  /-- Two addresses of one family are not printed alike. -/
  inetNtop_inj : ∀ {a b : Addr} {text : List Char}, a.family = b.family → inetNtop a = some text →
    inetNtop b = some text → a = b

/-- The string under which the answer is stored. -/
def Query.key (env : Env) : Query → Option (List Char)
  | .byName _ name => some name
  | .byAddr addr => env.inetNtop addr

/-! ### Calls -/

/-- `dns_reply_t` -/
structure Reply (Host : Type u) where
  /-- `host` -/
  host : Option Host
  /-- The call whose request the resolver answered. -/
  request : ℕ
  deriving DecidableEq, Repr

/-- How far a call has come; the queue is `response_q`. -/
inductive Stage (Host : Type u) where
  /-- `lookup_str` comes next. -/
  | lookup
  /-- `get_queue` comes next, and then the request is sent. -/
  | request
  /-- In `get_msg_timed`. -/
  | wait (q : ℕ)
  /-- In `release_queue`, before it looks at the head. -/
  | check (q : ℕ)
  /-- In `release_queue`, before it clears the mark. -/
  | clear (q : ℕ)
  /-- In `release_queue`, before the queue is put on the metaqueue. -/
  | put (q : ℕ)
  /-- After `release_queue`. -/
  | finish
  /-- The call has returned. -/
  | returned (entry : Option Host)
  deriving DecidableEq, Repr

/-- The queue that the call has. -/
def Stage.queue? : Stage Host → Option ℕ
  | .wait q | .check q | .clear q | .put q => some q
  | _ => none

/-- The queue that was found to be empty. -/
def Stage.emptied? : Stage Host → Option ℕ
  | .clear q | .put q => some q
  | _ => none

/-- `release_queue` has not looked at the queue. -/
def Stage.unchecked : Stage Host → Bool
  | .wait _ | .check _ => true
  | _ => false

/-- The cache is looked at next. -/
def Stage.isLookup : Stage Host → Bool
  | .lookup => true
  | _ => false

/-- A call of `Gethostbyname` or `Gethostbyaddr`. -/
structure Call (Host : Type u) where
  /-- What is asked for. -/
  query : Query
  /-- `timeout`, in milliseconds -/
  timeout : ℤ
  /-- How far it has come. -/
  stage : Stage Host
  /-- `cba->response_q`, once the request is sent -/
  responseQ : Option ℕ
  /-- The answer, once `default_cb` is called. -/
  answered : Option (Option Host)
  /-- `put_msg` has found the queue active, and has not put the reply on it. -/
  posting : Bool
  /-- `reply`, if the call did not time out -/
  received : Option (Reply Host)
  /-- When the entry was stored. -/
  savedAt : Option Timespec
  /-- When the entry was found in the cache. -/
  foundAt : Option Timespec
  deriving DecidableEq, Repr

/-- A call, as it is made. -/
def Call.new (query : Query) (timeout : ℤ) : Call Host :=
  ⟨query, timeout, .lookup, none, none, false, none, none, none⟩

/-- The queues, the cache and all calls. -/
structure State (Host : Type u) where
  /-- The queues. -/
  queues : Queues (Reply Host)
  /-- `hashtab` -/
  hashtab : Hashtab Host
  /-- The calls, in the order in which they were made. -/
  calls : List (Call Host)

/-- Nothing has been asked. -/
def State.start : State Host := ⟨Queues.start, fun _ => none, []⟩

/-- The call changes to `c`. -/
def State.setCall (s : State Host) (i : ℕ) (c : Call Host) : State Host := { s with calls := s.calls.set i c }

/-- The next step of `Gethostbyname` or `Gethostbyaddr`; the clock says `now`. -/
def State.advance (env : Env) (s : State Host) (i : ℕ) (c : Call Host) (now : Timespec) : State Host :=
  match c.stage with
  | .lookup =>
    match c.query.key env with
    -- `inet_ntop` failed
    | none => s.setCall i { c with stage := .returned none }
    | some key =>
      match lookupStr env.hashfunc s.hashtab key now with
      | (some entry, tab) =>
        { s with hashtab := tab }.setCall i { c with stage := .returned (some entry), foundAt := some now }
      | (none, tab) => { s with hashtab := tab }.setCall i { c with stage := .request }
  | .request =>
    { s with queues := s.queues.getQueue.2 }.setCall i
      { c with stage := .wait s.queues.getQueue.1, responseQ := some s.queues.getQueue.1 }
  | .wait q =>
    if s.queues.active q then
      match s.queues.msgs q with
      | [] => s
      | reply :: _ =>
        { s with queues := s.queues.getMsgRaw q }.setCall i { c with stage := .check q, received := some reply }
    else s.setCall i { c with stage := .check q }
  | .check q =>
    match s.queues.msgs q with
    | [] => s.setCall i { c with stage := .clear q }
    -- "queue not empty": it is not given back
    | _ :: _ => s.setCall i { c with stage := .finish }
  | .clear q => { s with queues := s.queues.deactivate q }.setCall i { c with stage := .put q }
  | .put q => { s with queues := s.queues.putFree q }.setCall i { c with stage := .finish }
  | .finish =>
    match c.received, c.query.key env with
    | some ⟨some host, _⟩, some key =>
      { s with hashtab := cacheStr env.hashfunc s.hashtab key host now }.setCall i
        { c with stage := .returned (some host), savedAt := some now }
    | _, _ => s.setCall i { c with stage := .returned none }
  | .returned _ => s

/-- `get_msg_raw` returns without a message. -/
def State.timeOut (s : State Host) (i : ℕ) (c : Call Host) : State Host :=
  match c.stage with
  | .wait q =>
    -- it waits for ever if the timeout is zero, and not at all if it is negative
    if 0 < c.timeout ∨ c.timeout < 0 ∧ (s.queues.msgs q).isEmpty then s.setCall i { c with stage := .check q } else s
  | _ => s

/-- `default_cb`, up to the test of the mark in `put_msg_raw`. -/
def State.callback (s : State Host) (i : ℕ) (c : Call Host) (host : Option Host) : State Host :=
  match c.responseQ, c.answered with
  | some q, none => s.setCall i { c with answered := some host, posting := s.queues.active q }
  | _, _ => s

/-- The rest of `default_cb`. -/
def State.post (s : State Host) (i : ℕ) (c : Call Host) : State Host :=
  match c.posting, c.responseQ, c.answered with
  | true, some q, some host =>
    { s with queues := s.queues.putMsgRaw q ⟨host, i⟩ }.setCall i { c with posting := false }
  | _, _, _ => s

/-- A step. -/
inductive Act (Host : Type u) where
  /-- `Gethostbyname` or `Gethostbyaddr` is called. -/
  | call (query : Query) (timeout : ℤ)
  /-- A call takes its next step. -/
  | advance (i : ℕ) (now : Timespec)
  /-- A call stops waiting. -/
  | timeOut (i : ℕ)
  /-- The resolver calls `default_cb`. -/
  | callback (i : ℕ) (host : Option Host)
  /-- `default_cb` puts the reply on the queue. -/
  | post (i : ℕ)

/-- What a step does. A step that is not possible does nothing. -/
def State.act (env : Env) (s : State Host) : Act Host → State Host
  | .call query timeout => { s with calls := s.calls ++ [Call.new query timeout] }
  | .advance i now =>
    match s.calls[i]? with
    | some c => s.advance env i c now
    | none => s
  | .timeOut i =>
    match s.calls[i]? with
    | some c => s.timeOut i c
    | none => s
  | .callback i host =>
    match s.calls[i]? with
    | some c => s.callback i c host
    | none => s
  | .post i =>
    match s.calls[i]? with
    | some c => s.post i c
    | none => s

/-- A run. -/
def State.run (env : Env) (s : State Host) (acts : List (Act Host)) : State Host := acts.foldl (State.act env) s

/-- A reply is put on the queue before its call has looked whether the queue is empty,
to give it back. -/
def State.Prompt (s : State Host) : Act Host → Prop
  | .post i => ∀ c ∈ s.calls[i]?, c.posting = true → c.stage.unchecked = true
  | _ => True

instance (s : State Host) : ∀ a, Decidable (s.Prompt a)
  | .post i => inferInstanceAs (Decidable (∀ c ∈ s.calls[i]?, c.posting = true → c.stage.unchecked = true))
  | .call _ _ | .advance _ _ | .timeOut _ | .callback _ _ => isTrue trivial

/-! ### Whose queue it is -/

theorem Stage.queue?_of_emptied? {stage : Stage Host} {q : ℕ} (h : stage.emptied? = some q) : stage.queue? = some q := by
  cases stage <;> first | exact h | cases h

theorem Stage.of_unchecked {stage : Stage Host} (h : stage.unchecked = true) :
    (∃ q, stage.queue? = some q) ∧ stage.emptied? = none := by
  cases stage <;> cases h <;> exact ⟨⟨_, rfl⟩, rfl⟩

/-- The call owns its queue, the queue that it is about to give back is empty, and it has
received no reply but its own. -/
structure Call.Private (owner : ℕ → Option ℕ) (msgs : ℕ → List (Reply Host)) (i : ℕ) (c : Call Host) : Prop where
  /-- The queue is its own. -/
  holds : ∀ q, c.stage.queue? = some q → owner q = some i ∧ c.responseQ = some q
  /-- The queue that it gives back is empty. -/
  emptied : ∀ q, c.stage.emptied? = some q → msgs q = []
  /-- The reply answers its request. -/
  received : ∀ r, c.received = some r → r.request = i

/-- Queues have owners, and hold replies for their owners only. -/
structure State.Private (s : State Host) (owner : ℕ → Option ℕ) : Prop where
  /-- One owner for a queue. -/
  owned : s.queues.Owned owner
  /-- A free queue is empty. -/
  free : ∀ q, owner q = none → s.queues.msgs q = []
  /-- A reply on a queue is for the owner. -/
  own : ∀ q i, owner q = some i → ∀ r ∈ s.queues.msgs q, r.request = i
  /-- Each call has its own queue. -/
  calls : ∀ i (c : Call Host), s.calls[i]? = some c → c.Private owner s.queues.msgs i

theorem private_start : (State.start : State Host).Private fun _ => none :=
  ⟨Queues.owned_start, fun _ _ => rfl, fun _ _ h => absurd h (by simp), fun _ _ h => absurd h (by simp [State.start])⟩

section Private

variable {owner owner' : ℕ → Option ℕ} {msgs msgs' : ℕ → List (Reply Host)} {i : ℕ} {c c' : Call Host}

/-- A call does not notice a change of queues that are not its own. -/
theorem Call.Private.frame (h : c.Private owner msgs i)
    (hown : ∀ q, owner q = some i → owner' q = some i ∧ msgs' q = msgs q) : c.Private owner' msgs' i := by
  refine ⟨fun q hq => ?_, fun q hq => ?_, h.received⟩
  · obtain ⟨ho, hr⟩ := h.holds q hq
    exact ⟨(hown q ho).1, hr⟩
  · rw [(hown q (h.holds q (Stage.queue?_of_emptied? hq)).1).2]
    exact h.emptied q hq

/-- A call that has no queue. -/
theorem Call.Private.leave (h : c.Private owner msgs i) (hq : c'.stage.queue? = none)
    (hr : c'.received = c.received) : c'.Private owner' msgs' i := by
  refine ⟨fun q hq' => ?_, fun q hq' => ?_, hr ▸ h.received⟩
  · rw [hq] at hq'
    cases hq'
  · rw [Stage.queue?_of_emptied? hq'] at hq
    cases hq

/-- A call that has its queue still. -/
theorem Call.Private.stay (h : c.Private owner msgs i) {q : ℕ} (hq : c.stage.queue? = some q)
    (hq' : c'.stage.queue? = some q) (hempty : c'.stage.emptied? = some q → msgs q = [])
    (hresp : c'.responseQ = c.responseQ) (hr : c'.received = c.received) : c'.Private owner msgs i := by
  refine ⟨fun p hp => ?_, fun p hp => ?_, hr ▸ h.received⟩
  · obtain rfl : q = p := Option.some.inj (hq'.symm.trans hp)
    exact hresp ▸ h.holds q hq
  · obtain rfl : q = p := Option.some.inj (hq'.symm.trans (Stage.queue?_of_emptied? hp))
    exact hempty hp

variable {s : State Host}

/-- A step of one call, which may change its own queue and free ones. -/
theorem State.Private.step (h : s.Private owner) {queues : Queues (Reply Host)} (howned : queues.Owned owner')
    (hothers : ∀ q j, j ≠ i → owner q = some j → owner' q = some j ∧ queues.msgs q = s.queues.msgs q)
    (hfree : ∀ q, owner' q = none → queues.msgs q = [])
    (hown : ∀ q j, owner' q = some j → ∀ r ∈ queues.msgs q, r.request = j)
    (hc : c'.Private owner' queues.msgs i) (tab : Hashtab Host) :
    (State.setCall ⟨queues, tab, s.calls⟩ i c').Private owner' := by
  refine ⟨howned, hfree, hown, fun j d hd => ?_⟩
  rw [State.setCall, List.getElem?_set] at hd
  by_cases hij : i = j
  · rw [if_pos hij] at hd
    split_ifs at hd
    cases hd
    exact hij ▸ hc
  · rw [if_neg hij] at hd
    exact (h.calls j d hd).frame fun q hq => hothers q j (Ne.symm hij) hq

/-- A step of one call that leaves the queues as they are. -/
theorem State.Private.setCall (h : s.Private owner) (hc : c'.Private owner s.queues.msgs i) (tab : Hashtab Host) :
    (State.setCall ⟨s.queues, tab, s.calls⟩ i c').Private owner :=
  h.step h.owned (fun _ _ _ hq => ⟨hq, rfl⟩) h.free h.own hc tab

/-- The queue that `get_queue` returns is the call's own. -/
theorem State.Private.request (h : s.Private owner) (hi : s.calls[i]? = some c) :
    ∃ owner', ({ s with queues := s.queues.getQueue.2 }.setCall i
      { c with stage := .wait s.queues.getQueue.1, responseQ := some s.queues.getQueue.1 }).Private owner' := by
  have hfree := h.owned.owner_getQueue
  refine ⟨Function.update owner s.queues.getQueue.1 (some i), h.step (h.owned.getQueue i) ?_ ?_ ?_ ?_ s.hashtab⟩
  · intro q j hj hq
    have hne : q ≠ s.queues.getQueue.1 := fun hq' => by
      rw [hq', hfree] at hq
      cases hq
    exact ⟨by rwa [Function.update_of_ne hne], Queues.msgs_getQueue _ _⟩
  · intro q hq
    rw [Function.update_apply] at hq
    split_ifs at hq
    rw [Queues.msgs_getQueue, h.free q hq]
  · intro q j hq r hr
    rw [Queues.msgs_getQueue] at hr
    rw [Function.update_apply] at hq
    split_ifs at hq with hq'
    · rw [hq', h.free _ hfree] at hr
      cases hr
    · exact h.own q j hq r hr
  · refine ⟨fun q hq => ?_, fun q hq => (nomatch hq), (h.calls i c hi).received⟩
    cases hq
    exact ⟨Function.update_self .., rfl⟩

/-- The reply that a call takes from its queue is its own. -/
theorem State.Private.receive (h : s.Private owner) (hi : s.calls[i]? = some c) {q : ℕ} (hstage : c.stage = .wait q)
    {reply : Reply Host} {rest : List (Reply Host)} (hmsgs : s.queues.msgs q = reply :: rest) :
    ({ s with queues := s.queues.getMsgRaw q }.setCall i
      { c with stage := .check q, received := some reply }).Private owner := by
  obtain ⟨hq, hresp⟩ := (h.calls i c hi).holds q (by rw [hstage]; rfl)
  refine h.step (h.owned.modify q _) ?_ ?_ ?_ ?_ s.hashtab
  · intro p j hj hp
    have hne : q ≠ p := fun hqp => hj (Option.some.inj ((hqp ▸ hp).symm.trans hq))
    exact ⟨hp, Queues.msgs_modify_ne _ hne _⟩
  · intro p hp
    refine List.eq_nil_iff_forall_not_mem.mpr fun r hr => ?_
    have hr' := Queues.mem_msgs_getMsgRaw hr
    rw [h.free p hp] at hr'
    cases hr'
  · intro p j hp r hr
    exact h.own p j hp r (Queues.mem_msgs_getMsgRaw hr)
  · refine ⟨fun p hp => ?_, fun p hp => (nomatch hp), fun r hr => ?_⟩
    · cases hp
      exact ⟨hq, hresp⟩
    · cases hr
      exact h.own q i hq reply (hmsgs ▸ List.mem_cons_self)

/-- A queue that a call has found empty is free when it is given back. -/
theorem State.Private.giveBack (h : s.Private owner) (hi : s.calls[i]? = some c) {q : ℕ} (hstage : c.stage = .put q) :
    ∃ owner', ({ s with queues := s.queues.putFree q }.setCall i { c with stage := .finish }).Private owner' := by
  have hc := h.calls i c hi
  obtain ⟨hq, -⟩ := hc.holds q (by rw [hstage]; rfl)
  have hempty := hc.emptied q (by rw [hstage]; rfl)
  refine ⟨Function.update owner q none, h.step (h.owned.putFree hq) ?_ ?_ ?_ ?_ s.hashtab⟩
  · intro p j hj hp
    have hne : p ≠ q := fun hpq => hj (Option.some.inj ((hpq ▸ hp).symm.trans hq))
    exact ⟨by rwa [Function.update_of_ne hne], rfl⟩
  · intro p hp
    rw [Function.update_apply] at hp
    split_ifs at hp with hpq
    · exact hpq ▸ hempty
    · exact h.free p hp
  · intro p j hp r hr
    rw [Function.update_apply] at hp
    split_ifs at hp
    exact h.own p j hp r hr
  · exact hc.leave rfl rfl

/-- A step of `Gethostbyname` or `Gethostbyaddr`. -/
theorem State.Private.advance (env : Env) (h : s.Private owner) (hi : s.calls[i]? = some c) (now : Timespec) :
    ∃ owner', (s.advance env i c now).Private owner' := by
  have hc := h.calls i c hi
  unfold State.advance
  cases hstage : c.stage with
  | lookup =>
    dsimp only
    split
    · refine ⟨owner, h.setCall ?_ _⟩
      exact hc.leave rfl rfl
    · split <;> refine ⟨owner, h.setCall ?_ _⟩ <;> exact hc.leave rfl rfl
  | request => exact h.request hi
  | wait q =>
    have hq : c.stage.queue? = some q := by rw [hstage]; rfl
    dsimp only
    split_ifs
    · split
      case h_1 => exact ⟨owner, h⟩
      case h_2 hmsgs => exact ⟨owner, h.receive hi hstage hmsgs⟩
    · refine ⟨owner, h.setCall ?_ _⟩
      exact hc.stay hq rfl (fun hp => nomatch hp) rfl rfl
  | check q =>
    have hq : c.stage.queue? = some q := by rw [hstage]; rfl
    dsimp only
    split
    case h_1 hmsgs =>
      refine ⟨owner, h.setCall ?_ _⟩
      exact hc.stay hq rfl (fun _ => hmsgs) rfl rfl
    case h_2 =>
      refine ⟨owner, h.setCall ?_ _⟩
      exact hc.leave rfl rfl
  | clear q =>
    have hq : c.stage.queue? = some q := by rw [hstage]; rfl
    have hmsgs : (s.queues.deactivate q).msgs = s.queues.msgs := funext (s.queues.msgs_deactivate q)
    refine ⟨owner, h.step (h.owned.modify q _) (fun _ _ _ hp => ⟨hp, congrFun hmsgs _⟩) ?_ ?_ ?_ _⟩
    · exact fun p hp => (congrFun hmsgs p).trans (h.free p hp)
    · exact fun p j hp r hr => h.own p j hp r (congrFun hmsgs p ▸ hr)
    · refine Call.Private.stay (hmsgs ▸ hc) hq rfl (fun _ => ?_) rfl rfl
      exact (congrFun hmsgs q).trans (hc.emptied q (by rw [hstage]; rfl))
  | put q => exact h.giveBack hi hstage
  | finish =>
    dsimp only
    split <;> refine ⟨owner, h.setCall ?_ _⟩ <;> exact hc.leave rfl rfl
  | returned entry => exact ⟨owner, h⟩

/-- A reply that is put on the queue in time is put on its call's own queue. -/
theorem State.Private.post (h : s.Private owner) (hi : s.calls[i]? = some c)
    (hprompt : c.posting = true → c.stage.unchecked = true) : (s.post i c).Private owner := by
  have hc := h.calls i c hi
  unfold State.post
  split
  case h_2 => exact h
  case h_1 q host hpost hresp hans =>
    obtain ⟨⟨p, hp⟩, hnone⟩ := Stage.of_unchecked (hprompt hpost)
    obtain ⟨hq, hresp'⟩ := hc.holds p hp
    obtain rfl : p = q := Option.some.inj (hresp'.symm.trans hresp)
    have howned : (s.queues.putMsgRaw p ⟨host, i⟩).Owned owner := h.owned.modify p _
    have hne : ∀ q', owner q' ≠ some i → (s.queues.putMsgRaw p ⟨host, i⟩).msgs q' = s.queues.msgs q' := by
      intro q' hq'
      exact Queues.msgs_modify_ne _ (fun hpq : p = q' => hq' (hpq ▸ hq)) _
    refine h.step howned ?_ ?_ ?_ ?_ s.hashtab
    · intro q' j hj hq'
      exact ⟨hq', hne q' fun h => hj (Option.some.inj (hq'.symm.trans h))⟩
    · intro q' hq'
      exact (hne q' fun h => nomatch hq'.symm.trans h).trans (h.free q' hq')
    · intro q' j hq' r hr
      rcases Queues.mem_msgs_putMsgRaw hr with ⟨rfl, rfl⟩ | hr
      · exact Option.some.inj (hq.symm.trans hq')
      · exact h.own q' j hq' r hr
    · exact ⟨hc.holds, fun q' hq' => (nomatch hnone.symm.trans hq'), hc.received⟩

theorem State.Private.timeOut (h : s.Private owner) (hi : s.calls[i]? = some c) : (s.timeOut i c).Private owner := by
  unfold State.timeOut
  split
  case h_1 q hstage =>
    split_ifs
    · have hq : c.stage.queue? = some q := by rw [hstage]; rfl
      refine h.setCall ?_ _
      exact (h.calls i c hi).stay hq rfl (fun hp => nomatch hp) rfl rfl
    · exact h
  case h_2 => exact h

theorem State.Private.callback (h : s.Private owner) (hi : s.calls[i]? = some c) (host : Option Host) :
    (s.callback i c host).Private owner := by
  have hc := h.calls i c hi
  unfold State.callback
  split
  · refine h.setCall ?_ _
    exact ⟨hc.holds, hc.emptied, hc.received⟩
  · exact h

theorem State.Private.call (h : s.Private owner) (query : Query) (timeout : ℤ) :
    State.Private { s with calls := s.calls ++ [Call.new query timeout] } owner := by
  refine ⟨h.owned, h.free, h.own, fun j d hd => ?_⟩
  rcases Nat.lt_trichotomy j s.calls.length with hlt | rfl | hgt
  · rw [List.getElem?_append_left hlt] at hd
    exact h.calls j d hd
  · rw [List.getElem?_concat_length] at hd
    cases hd
    exact ⟨fun q hq => (nomatch hq), fun q hq => (nomatch hq), fun r hr => (nomatch hr)⟩
  · rw [List.getElem?_eq_none (by simpa using Nat.succ_le_of_lt hgt)] at hd
    cases hd

/-- **Queues stay private**: each step that is in time keeps it so. -/
theorem State.Private.act (env : Env) (h : s.Private owner) (a : Act Host) (ha : s.Prompt a) :
    ∃ owner', (s.act env a).Private owner' := by
  cases a with
  | call query timeout => exact ⟨owner, h.call query timeout⟩
  | advance i now =>
    cases hi : s.calls[i]? with
    | none => exact ⟨owner, by simpa only [State.act, hi] using h⟩
    | some c => simpa only [State.act, hi] using h.advance env hi now
  | timeOut i =>
    cases hi : s.calls[i]? with
    | none => exact ⟨owner, by simpa only [State.act, hi] using h⟩
    | some c => exact ⟨owner, by simpa only [State.act, hi] using h.timeOut hi⟩
  | callback i host =>
    cases hi : s.calls[i]? with
    | none => exact ⟨owner, by simpa only [State.act, hi] using h⟩
    | some c => exact ⟨owner, by simpa only [State.act, hi] using h.callback hi host⟩
  | post i =>
    cases hi : s.calls[i]? with
    | none => exact ⟨owner, by simpa only [State.act, hi] using h⟩
    | some c => exact ⟨owner, by simpa only [State.act, hi] using h.post hi (ha c hi)⟩

/-- The same for a run. -/
theorem State.Private.run (env : Env) {acts : List (Act Host)} (hacts : Along (State.act env) State.Prompt s acts)
    (h : s.Private owner) : ∃ owner', (s.run env acts).Private owner' :=
  hacts.inv (fun s => ∃ owner, s.Private owner) (fun _ a ⟨_, h⟩ ha => h.act env a ha) ⟨owner, h⟩

end Private

/-- **Replies**: in a run in which each reply is put on its queue before the call that
asked has looked whether the queue is empty, to give it back, a reply is received by
that call only. -/
theorem received_own (env : Env) (acts : List (Act Host))
    (hacts : Along (State.act env) State.Prompt State.start acts) (i : ℕ) (c : Call Host)
    (hi : (State.start.run env acts).calls[i]? = some c) (r : Reply Host) (hr : c.received = some r) :
    r.request = i := by
  obtain ⟨owner, h⟩ := private_start.run env hacts
  exact (h.calls i c hi).received r hr

/-- Enough of `inet_ntop` for a few runs: how it prints one address. -/
def sampleEnv : Env where
  inetNtop addr := if addr = .inet 0x01020304 then some "1.2.3.4".toList else none
  hashfunc _ := ⟨0, by decide⟩
  inetNtop_inj := by
    intro a b text _ ha hb
    split_ifs at ha hb with ha' hb'
    exact ha'.trans hb'.symm

/-- A call that is answered in time. -/
def answeredRun : List (Act ℕ) :=
  [.call (.byName .inet "a".toList) 1000, .advance 0 ⟨0, 0⟩, .advance 0 ⟨0, 0⟩, .callback 0 (some 7), .post 0,
    .advance 0 ⟨0, 0⟩]

/-- It receives the answer to its request. -/
theorem received_own_answered : ∃ c r, (State.start.run sampleEnv answeredRun).calls[0]? = some c ∧
    c.received = some r ∧ r.request = 0 := by
  refine ⟨_, _, rfl, rfl, ?_⟩
  exact received_own sampleEnv answeredRun (by decide) 0 _ rfl _ rfl

/-- Two calls, one after the other. The first times out and gives its queue back, and the
second takes it. The answer to the first comes then. -/
def lateRun : List (Act ℕ) :=
  [.call (.byName .inet "a".toList) 1000, .advance 0 ⟨0, 0⟩, .advance 0 ⟨0, 0⟩, .timeOut 0,
    .advance 0 ⟨1, 0⟩, .advance 0 ⟨1, 0⟩, .advance 0 ⟨1, 0⟩, .advance 0 ⟨1, 0⟩,
    .call (.byName .inet "b".toList) 1000, .advance 1 ⟨2, 0⟩, .advance 1 ⟨2, 0⟩, .callback 0 (some 7), .post 0,
    .advance 1 ⟨2, 0⟩, .advance 1 ⟨2, 0⟩, .advance 1 ⟨2, 0⟩, .advance 1 ⟨2, 0⟩, .advance 1 ⟨2, 0⟩]

/-- It is received by the second call, which returns it. -/
theorem received_other : ∃ c, (State.start.run sampleEnv lateRun).calls[1]? = some c ∧
    c.query = .byName .inet "b".toList ∧ c.received = some ⟨some 7, 0⟩ ∧ c.stage = .returned (some 7) :=
  ⟨_, rfl, rfl, rfl, rfl⟩

end Gross.Dns
