import Gross.Dns.Helper

/-!
# Where a host entry comes from

A call of `Gethostbyname` or `Gethostbyaddr` should return what the resolver has
answered to the same query: for the call itself, or for an earlier one not more
than `CACHETIME` seconds ago.

## What is proved

`returned_justified` — so it is in every run whose steps meet three conditions
(`State.Careful`).

* Replies come in time (`State.Prompt`), as in `received_own`.
* Calls whose answers are stored under the same string ask by name, or all by
  address, and for one family (`State.Unambiguous`). The cache knows the string
  only, so an entry for a name is found for an address that is printed like it,
  and one of a family for another (`returned_other`).
* The clock is not read in the millisecond after `CACHETIME`, and an entry is not
  left for days (`State.Punctual`): `ms_diff` cuts off parts of milliseconds, and
  its result is an `int`.

## Honest scope

An answer is dated by the clock reading that `cache_str` makes when the call that
asked for it stores it.
-/

namespace Gross.Dns

open Foundation Queue Utils

universe u

variable {Host : Type u}

/-- The entry is what the resolver has answered to the call, or to a call with the same
query that stored it not more than `CACHETIME` seconds before it was found. -/
def State.Justified (s : State Host) (c : Call Host) (host : Host) : Prop :=
  c.answered = some (some host) ∨ ∃ c' ∈ s.calls, c'.query = c.query ∧ c'.answered = some (some host) ∧
    ∃ saved found, c'.savedAt = some saved ∧ c.foundAt = some found ∧ found.ns ≤ saved.ns + cachetime * 1000000000

/-! ### The conditions -/

/-- A call is not made for a string for which a call of another kind or another family
was made. -/
def State.Unambiguous (env : Env) (s : State Host) : Act Host → Prop
  | .call query _ => ∀ c ∈ s.calls, ∀ key ∈ query.key env, c.query.key env = some key →
      c.query.isByAddr = query.isByAddr ∧ c.query.family = query.family
  | _ => True

/-- The time between two readings is `CACHETIME` at most, or a millisecond more at least,
and less than 2³¹ − 1 milliseconds. -/
def Timely (now saved : Timespec) : Prop :=
  now.ns - saved.ns ≤ cachetime * 1000000000 ∨
    cachetime * 1000000000 + 1000000 ≤ now.ns - saved.ns ∧ now.ns - saved.ns < 2147483647 * 1000000

/-- So it is when an entry is found in the cache. -/
def State.Punctual (env : Env) (s : State Host) : Act Host → Prop
  | .advance i now => ∀ c ∈ s.calls[i]?, c.stage.isLookup = true → ∀ key ∈ c.query.key env,
      ∀ node ∈ s.hashtab (env.hashfunc key), node.key = key → Timely now node.savetime
  | _ => True

/-- All three. -/
def State.Careful (env : Env) (s : State Host) (a : Act Host) : Prop :=
  s.Prompt a ∧ s.Unambiguous env a ∧ s.Punctual env a

instance (now saved : Timespec) : Decidable (Timely now saved) := inferInstanceAs (Decidable (_ ∨ _))

instance (env : Env) (s : State Host) : ∀ a, Decidable (s.Unambiguous env a)
  | .call query _ => inferInstanceAs (Decidable (∀ c ∈ s.calls, ∀ key ∈ query.key env, c.query.key env = some key →
      c.query.isByAddr = query.isByAddr ∧ c.query.family = query.family))
  | .advance _ _ | .timeOut _ | .callback _ _ | .post _ => isTrue trivial

instance (env : Env) (s : State Host) : ∀ a, Decidable (s.Punctual env a)
  | .advance i now => inferInstanceAs (Decidable (∀ c ∈ s.calls[i]?, c.stage.isLookup = true →
      ∀ key ∈ c.query.key env, ∀ node ∈ s.hashtab (env.hashfunc key), node.key = key → Timely now node.savetime))
  | .call _ _ | .timeOut _ | .callback _ _ | .post _ => isTrue trivial

instance (env : Env) (s : State Host) (a : Act Host) : Decidable (s.Careful env a) := inferInstanceAs (Decidable (_ ∧ _))

/-- Queries that are stored under one string, of one kind and one family, are one. -/
theorem query_eq_of_key {env : Env} {a b : Query} {key : List Char} (ha : a.key env = some key)
    (hb : b.key env = some key) (hkind : a.isByAddr = b.isByAddr) (hfamily : a.family = b.family) : a = b := by
  cases a with
  | byName fa na =>
    cases b with
    | byName fb nb =>
      cases ha
      cases hb
      cases hfamily
      rfl
    | byAddr addr => cases hkind
  | byAddr addr =>
    cases b with
    | byName fb nb => cases hkind
    | byAddr addr' => rw [env.inetNtop_inj hfamily ha hb]

/-- An entry that is found is not too old, if the clock is read in time. -/
theorem ns_le_of_msDiff {now saved : Timespec} (h : msDiff now saved ≤ cachetime * 1000) (ht : Timely now saved) :
    now.ns ≤ saved.ns + cachetime * 1000000000 := by
  rcases ht with ht | ⟨hlo, hhi⟩
  · omega
  · have hlt : cachetime * 1000 < msDiff now saved := lt_msDiff (by decide) (by unfold cachetime at *; omega) hhi
    omega

/-! ### What calls have in store -/

/-- What is known of a call stays so. -/
structure Call.Grown (c c' : Call Host) : Prop where
  /-- The query is the same. -/
  query : c'.query = c.query
  /-- The answer stays. -/
  answered : ∀ a, c.answered = some a → c'.answered = some a
  /-- The time when it was stored stays. -/
  savedAt : ∀ t, c.savedAt = some t → c'.savedAt = some t

theorem Call.Grown.refl (c : Call Host) : c.Grown c := ⟨rfl, fun _ h => h, fun _ h => h⟩

/-- What is known of all calls stays so. -/
def State.Grows (s s' : State Host) : Prop :=
  ∀ (i : ℕ) (c : Call Host), s.calls[i]? = some c → ∃ c', s'.calls[i]? = some c' ∧ c.Grown c'

/-- The resolver has given that answer to the request of a call. -/
def State.Answered (s : State Host) (i : ℕ) (host : Option Host) : Prop :=
  ∃ c, s.calls[i]? = some c ∧ c.answered = some host

/-- An entry of the cache is an answer that a call has stored. -/
def State.Stored (env : Env) (s : State Host) (node : CacheData Host) : Prop :=
  ∃ c ∈ s.calls, c.query.key env = some node.key ∧ c.answered = some (some node.value) ∧
    c.savedAt = some node.savetime

/-- What a call has received and returned has been answered. -/
structure Call.Sourced (s : State Host) (c : Call Host) : Prop where
  /-- The reply is an answer. -/
  received : ∀ r, c.received = some r → s.Answered r.request r.host
  /-- An entry is stored at the end. -/
  saved : ∀ t, c.savedAt = some t → ∃ entry, c.stage = .returned entry
  /-- What is returned is justified. -/
  returned : ∀ host, c.stage = .returned (some host) → s.Justified c host

/-- All replies and all entries are answers to requests of calls. -/
structure State.Sourced (env : Env) (s : State Host) : Prop where
  /-- The replies on queues. -/
  msgs : ∀ q, ∀ r ∈ s.queues.msgs q, s.Answered r.request r.host
  /-- The entries of the cache. -/
  table : ∀ slot node, s.hashtab slot = some node → s.Stored env node
  /-- The calls. -/
  calls : ∀ c ∈ s.calls, c.Sourced s
  /-- A string stands for one query. -/
  unambiguous : ∀ c ∈ s.calls, ∀ c' ∈ s.calls, ∀ key, c.query.key env = some key → c'.query.key env = some key →
    c'.query = c.query

section Sourced

variable {env : Env} {s s' : State Host} {i : ℕ} {c c' : Call Host}

theorem State.Grows.mem (hg : s.Grows s') (hc : c ∈ s.calls) : ∃ c' ∈ s'.calls, c.Grown c' := by
  obtain ⟨i, hi⟩ := List.mem_iff_getElem?.mp hc
  obtain ⟨c', hi', hgrown⟩ := hg i c hi
  exact ⟨c', List.mem_of_getElem? hi', hgrown⟩

theorem State.Answered.mono {host : Option Host} (h : s.Answered i host) (hg : s.Grows s') : s'.Answered i host := by
  obtain ⟨c, hi, ha⟩ := h
  obtain ⟨c', hi', hgrown⟩ := hg i c hi
  exact ⟨c', hi', hgrown.answered _ ha⟩

theorem State.Stored.mono {node : CacheData Host} (h : s.Stored env node) (hg : s.Grows s') : s'.Stored env node := by
  obtain ⟨c, hc, hkey, ha, ht⟩ := h
  obtain ⟨c', hc', hgrown⟩ := hg.mem hc
  exact ⟨c', hc', hgrown.query ▸ hkey, hgrown.answered _ ha, hgrown.savedAt _ ht⟩

theorem State.Justified.mono {host : Host} (h : s.Justified c host) (hg : s.Grows s') (hgrown : c.Grown c')
    (hfound : c'.foundAt = c.foundAt) : s'.Justified c' host := by
  rcases h with h | ⟨d, hd, hquery, ha, saved, found, ht, hf, hle⟩
  · exact .inl (hgrown.answered _ h)
  · obtain ⟨d', hd', hdgrown⟩ := hg.mem hd
    exact .inr ⟨d', hd', hdgrown.query.trans (hquery.trans hgrown.query.symm), hdgrown.answered _ ha, saved, found,
      hdgrown.savedAt _ ht, hfound.trans hf, hle⟩

/-- A call stays sourced when others take steps, and when its request is answered. -/
theorem Call.Sourced.mono (h : c.Sourced s) (hg : s.Grows s') (hgrown : c.Grown c')
    (hreceived : c'.received = c.received) (hsaved : c'.savedAt = c.savedAt) (hstage : c'.stage = c.stage)
    (hfound : c'.foundAt = c.foundAt) : c'.Sourced s' := by
  refine ⟨fun r hr => ?_, fun t ht => ?_, fun host hret => ?_⟩
  · exact (h.received r (hreceived ▸ hr)).mono hg
  · rw [hstage]
    exact h.saved t (hsaved ▸ ht)
  · exact (h.returned host (hstage ▸ hret)).mono hg hgrown hfound

theorem Call.Sourced.savedAt_eq_none (h : c.Sourced s) (hstage : ∀ entry, c.stage ≠ .returned entry) :
    c.savedAt = none := by
  cases hs : c.savedAt with
  | none => rfl
  | some t =>
    obtain ⟨entry, he⟩ := h.saved t hs
    exact absurd he (hstage entry)

/-- A call that returns nothing, or not yet. -/
theorem Call.Sourced.move (hsaved : c'.savedAt = none) (hstage : ∀ host, c'.stage ≠ .returned (some host))
    (hreceived : ∀ r, c'.received = some r → s'.Answered r.request r.host) : c'.Sourced s' :=
  ⟨hreceived, fun _ ht => (nomatch hsaved.symm.trans ht), fun host h => absurd h (hstage host)⟩

theorem grows_setCall (hi : s.calls[i]? = some c) (hgrown : c.Grown c') (queues : Queues (Reply Host))
    (tab : Hashtab Host) : s.Grows (State.setCall ⟨queues, tab, s.calls⟩ i c') := by
  intro j d hd
  rw [State.setCall, List.getElem?_set]
  by_cases hij : i = j
  · subst hij
    obtain rfl : c = d := Option.some.inj (hi.symm.trans hd)
    exact ⟨c', by rw [if_pos rfl, if_pos (List.getElem?_eq_some_iff.mp hi).1], hgrown⟩
  · exact ⟨d, by rw [if_neg hij, hd], .refl d⟩

/-- A step of one call. -/
theorem State.Sourced.setCall (h : s.Sourced env) (hi : s.calls[i]? = some c) (hgrown : c.Grown c')
    {queues : Queues (Reply Host)} {tab : Hashtab Host}
    (hmsgs : ∀ q, ∀ r ∈ queues.msgs q, r ∈ s.queues.msgs q ∨ s.Answered r.request r.host)
    (htab : ∀ slot node, tab slot = some node →
      s.hashtab slot = some node ∨ (State.setCall ⟨queues, tab, s.calls⟩ i c').Stored env node)
    (hc : c'.Sourced (State.setCall ⟨queues, tab, s.calls⟩ i c')) :
    (State.setCall ⟨queues, tab, s.calls⟩ i c').Sourced env := by
  have hg := grows_setCall hi hgrown queues tab
  have hmem : ∀ d ∈ s.calls.set i c', d = c' ∨ d ∈ s.calls := fun d hd => (List.mem_or_eq_of_mem_set hd).symm
  have hquery : ∀ d ∈ s.calls.set i c', ∃ d₀ ∈ s.calls, d.query = d₀.query := by
    intro d hd
    rcases hmem d hd with rfl | hd
    · exact ⟨c, List.mem_of_getElem? hi, hgrown.query⟩
    · exact ⟨d, hd, rfl⟩
  refine ⟨fun q r hr => ?_, fun slot node hnode => ?_, fun d hd => ?_, fun d hd d' hd' key hkey hkey' => ?_⟩
  · rcases hmsgs q r hr with hr | hr
    · exact (h.msgs q r hr).mono hg
    · exact hr.mono hg
  · rcases htab slot node hnode with hnode | hnode
    · exact (h.table slot node hnode).mono hg
    · exact hnode
  · rcases hmem d hd with rfl | hd
    · exact hc
    · exact (h.calls d hd).mono hg (.refl d) rfl rfl rfl rfl
  · obtain ⟨d₀, hd₀, hq⟩ := hquery d hd
    obtain ⟨d₀', hd₀', hq'⟩ := hquery d' hd'
    rw [hq] at hkey ⊢
    rw [hq'] at hkey' ⊢
    exact h.unambiguous d₀ hd₀ d₀' hd₀' key hkey hkey'

/-- A step of one call, which takes no reply and stores and returns nothing. -/
theorem State.Sourced.setStage (h : s.Sourced env) (hi : s.calls[i]? = some c)
    (hstage : ∀ entry, c.stage ≠ .returned entry) {queues : Queues (Reply Host)} {tab : Hashtab Host}
    (stage : Stage Host) (hstage' : ∀ host, stage ≠ .returned (some host))
    (hmsgs : ∀ q, ∀ r ∈ queues.msgs q, r ∈ s.queues.msgs q)
    (htab : ∀ slot node, tab slot = some node → s.hashtab slot = some node) (responseQ : Option ℕ) :
    (State.setCall ⟨queues, tab, s.calls⟩ i { c with stage := stage, responseQ := responseQ }).Sourced env := by
  have hc := h.calls c (List.mem_of_getElem? hi)
  have hgrown : c.Grown { c with stage := stage, responseQ := responseQ } := ⟨rfl, fun _ h => h, fun _ h => h⟩
  refine h.setCall hi hgrown (fun q r hr => .inl (hmsgs q r hr)) (fun slot node hn => .inl (htab slot node hn)) ?_
  exact .move (hc.savedAt_eq_none hstage) hstage' fun r hr => (hc.received r hr).mono (grows_setCall hi hgrown _ _)

/-- What is found in the cache is justified. -/
theorem State.Sourced.justified_of_lookupStr (h : s.Sourced env) (hi : s.calls[i]? = some c) {key : List Char}
    (hkey : c.query.key env = some key) (hstage : c.stage = .lookup) {now : Timespec}
    (ht : s.Punctual env (.advance i now)) {host : Host} {tab : Hashtab Host}
    (hfind : lookupStr env.hashfunc s.hashtab key now = (some host, tab)) :
    s.Justified { c with stage := .returned (some host), foundAt := some now } host := by
  obtain ⟨node, hnode, hnkey, hvalue, hfresh⟩ := lookupStr_eq_some (congrArg Prod.fst hfind)
  obtain ⟨d, hd, hdkey, ha, hsaved⟩ := h.table _ node hnode
  have hquery := h.unambiguous c (List.mem_of_getElem? hi) d hd key hkey (hnkey ▸ hdkey)
  have htimely := ht c hi (by rw [hstage]; rfl) key hkey node hnode hnkey
  exact .inr ⟨d, hd, hquery, hvalue ▸ ha, node.savetime, now, hsaved, rfl, ns_le_of_msDiff hfresh htimely⟩

theorem State.Sourced.lookup (h : s.Sourced env) (hi : s.calls[i]? = some c) (hstage : c.stage = .lookup)
    {now : Timespec} (ht : s.Punctual env (.advance i now)) : (s.advance env i c now).Sourced env := by
  have hc := h.calls c (List.mem_of_getElem? hi)
  have hnot : ∀ entry, c.stage ≠ .returned entry := fun entry he => nomatch hstage.symm.trans he
  simp only [State.advance, hstage]
  split
  case h_1 => exact h.setStage hi hnot (.returned none) (fun _ he => nomatch he) (fun _ _ hr => hr) (fun _ _ hn => hn) _
  case h_2 key hkey =>
    have htab : ∀ slot node, (lookupStr env.hashfunc s.hashtab key now).2 slot = some node →
        s.hashtab slot = some node := fun _ _ => mem_lookupStr
    split
    case h_1 host tab hfind =>
      rw [hfind] at htab
      have hgrown : c.Grown { c with stage := .returned (some host), foundAt := some now } :=
        ⟨rfl, fun _ h => h, fun _ h => h⟩
      have hg := grows_setCall hi hgrown s.queues tab
      refine h.setCall hi hgrown (fun _ _ hr => .inl hr) (fun slot node hn => .inl (htab slot node hn)) ?_
      refine ⟨fun r hr => (hc.received r hr).mono hg, fun _ _ => ⟨some host, rfl⟩, fun host' he => ?_⟩
      cases he
      exact (h.justified_of_lookupStr hi hkey hstage ht hfind).mono hg (.refl _) rfl
    case h_2 tab hfind =>
      rw [hfind] at htab
      exact h.setStage hi hnot .request (fun _ he => nomatch he) (fun _ _ hr => hr) htab _

/-- The reply that a call takes from its queue is an answer. -/
theorem State.Sourced.receive (h : s.Sourced env) (hi : s.calls[i]? = some c) {q : ℕ} (hstage : c.stage = .wait q)
    {reply : Reply Host} {rest : List (Reply Host)} (hmsgs : s.queues.msgs q = reply :: rest) :
    ({ s with queues := s.queues.getMsgRaw q }.setCall i
      { c with stage := .check q, received := some reply }).Sourced env := by
  have hc := h.calls c (List.mem_of_getElem? hi)
  have hgrown : c.Grown { c with stage := .check q, received := some reply } := ⟨rfl, fun _ h => h, fun _ h => h⟩
  refine h.setCall hi hgrown (fun p r hr => .inl (Queues.mem_msgs_getMsgRaw hr)) (fun _ _ hn => .inl hn) ?_
  refine .move (hc.savedAt_eq_none fun entry he => nomatch hstage.symm.trans he) (fun _ he => nomatch he) fun r hr => ?_
  cases hr
  exact (h.msgs q reply (hmsgs ▸ List.mem_cons_self)).mono (grows_setCall hi hgrown _ _)

/-- What a call has received it stores and returns. -/
theorem State.Sourced.finish {owner : ℕ → Option ℕ} (hp : s.Private owner) (h : s.Sourced env)
    (hi : s.calls[i]? = some c) (hstage : c.stage = .finish) (now : Timespec) :
    (s.advance env i c now).Sourced env := by
  have hc := h.calls c (List.mem_of_getElem? hi)
  have hnot : ∀ entry, c.stage ≠ .returned entry := fun entry he => nomatch hstage.symm.trans he
  have hsaved : c.savedAt = none := hc.savedAt_eq_none hnot
  simp only [State.advance, hstage]
  split
  case h_1 host request key hreceived hkey =>
    have hown : request = i := (hp.calls i c hi).received _ hreceived
    obtain ⟨d, hd, ha⟩ := hc.received _ hreceived
    obtain rfl : c = d := Option.some.inj (hi.symm.trans (hown ▸ hd))
    have hgrown : c.Grown { c with stage := .returned (some host), savedAt := some now } :=
      ⟨rfl, fun _ h => h, fun t ht => nomatch hsaved.symm.trans ht⟩
    have hg := grows_setCall hi hgrown s.queues (cacheStr env.hashfunc s.hashtab key host now)
    have hmem := List.mem_set (List.getElem?_eq_some_iff.mp hi).1
      ({ c with stage := .returned (some host), savedAt := some now } : Call Host)
    refine h.setCall hi hgrown (fun _ _ hr => .inl hr) (fun slot node hn => ?_) ?_
    · rcases mem_cacheStr hn with rfl | hn
      · exact .inr ⟨_, hmem, hkey, ha, rfl⟩
      · exact .inl hn
    · refine ⟨fun r hr => (hc.received r hr).mono hg, fun _ _ => ⟨some host, rfl⟩, fun host' he => ?_⟩
      cases he
      exact .inl ha
  case h_2 => exact h.setStage hi hnot (.returned none) (fun _ he => nomatch he) (fun _ _ hr => hr) (fun _ _ hn => hn) _

/-- A step of `Gethostbyname` or `Gethostbyaddr`. -/
theorem State.Sourced.advance {owner : ℕ → Option ℕ} (hp : s.Private owner) (h : s.Sourced env)
    (hi : s.calls[i]? = some c) {now : Timespec} (ht : s.Punctual env (.advance i now)) :
    (s.advance env i c now).Sourced env := by
  by_cases hret : ∃ entry, c.stage = .returned entry
  · obtain ⟨entry, hstage⟩ := hret
    simpa only [State.advance, hstage] using h
  have hnot : ∀ entry, c.stage ≠ .returned entry := not_exists.mp hret
  cases hstage : c.stage with
  | lookup => exact h.lookup hi hstage ht
  | request =>
    simp only [State.advance, hstage]
    refine h.setStage hi hnot (.wait _) (fun _ he => nomatch he) (fun q r hr => ?_) (fun _ _ hn => hn) _
    rwa [Queues.msgs_getQueue] at hr
  | wait q =>
    simp only [State.advance, hstage]
    split_ifs
    · split
      case h_1 => exact h
      case h_2 hmsgs => exact h.receive hi hstage hmsgs
    · exact h.setStage hi hnot (.check q) (fun _ he => nomatch he) (fun _ _ hr => hr) (fun _ _ hn => hn) _
  | check q =>
    simp only [State.advance, hstage]
    split
    · exact h.setStage hi hnot (.clear q) (fun _ he => nomatch he) (fun _ _ hr => hr) (fun _ _ hn => hn) _
    · exact h.setStage hi hnot .finish (fun _ he => nomatch he) (fun _ _ hr => hr) (fun _ _ hn => hn) _
  | clear q =>
    simp only [State.advance, hstage]
    refine h.setStage hi hnot (.put q) (fun _ he => nomatch he) (fun p r hr => ?_) (fun _ _ hn => hn) _
    rwa [Queues.msgs_deactivate] at hr
  | put q =>
    simp only [State.advance, hstage]
    refine h.setStage hi hnot .finish (fun _ he => nomatch he) (fun p r hr => ?_) (fun _ _ hn => hn) _
    rwa [Queues.msgs_putFree] at hr
  | finish => exact h.finish hp hi hstage now
  | returned entry => exact absurd hstage (hnot entry)

theorem State.Sourced.timeOut (h : s.Sourced env) (hi : s.calls[i]? = some c) : (s.timeOut i c).Sourced env := by
  unfold State.timeOut
  split
  case h_1 q hstage =>
    have hnot : ∀ entry, c.stage ≠ .returned entry := fun entry he => nomatch hstage.symm.trans he
    split_ifs
    · exact h.setStage hi hnot (.check q) (fun _ he => nomatch he) (fun _ _ hr => hr) (fun _ _ hn => hn) _
    · exact h
  case h_2 => exact h

/-- An answer is given once. -/
theorem State.Sourced.callback (h : s.Sourced env) (hi : s.calls[i]? = some c) (host : Option Host) :
    (s.callback i c host).Sourced env := by
  unfold State.callback
  split
  case h_1 q hresp hans =>
    have hgrown : c.Grown { c with answered := some host, posting := s.queues.active q } :=
      ⟨rfl, fun a ha => (nomatch hans.symm.trans ha), fun _ h => h⟩
    refine h.setCall hi hgrown (fun _ _ hr => .inl hr) (fun _ _ hn => .inl hn) ?_
    exact (h.calls c (List.mem_of_getElem? hi)).mono (grows_setCall hi hgrown _ _) hgrown rfl rfl rfl rfl
  case h_2 => exact h

/-- The reply that is put on a queue is the answer. -/
theorem State.Sourced.post (h : s.Sourced env) (hi : s.calls[i]? = some c) : (s.post i c).Sourced env := by
  unfold State.post
  split
  case h_1 q host hpost hresp hans =>
    have hgrown : c.Grown { c with posting := false } := ⟨rfl, fun _ h => h, fun _ h => h⟩
    refine h.setCall hi hgrown (fun p r hr => ?_) (fun _ _ hn => .inl hn) ?_
    · rcases Queues.mem_msgs_putMsgRaw hr with ⟨-, rfl⟩ | hr
      · exact .inr ⟨c, hi, hans⟩
      · exact .inl hr
    · exact (h.calls c (List.mem_of_getElem? hi)).mono (grows_setCall hi hgrown _ _) hgrown rfl rfl rfl rfl
  case h_2 => exact h

/-- A new call has nothing yet, and its query is not taken for another. -/
theorem State.Sourced.call (h : s.Sourced env) {query : Query} {timeout : ℤ}
    (hu : s.Unambiguous env (.call query timeout)) :
    State.Sourced env { s with calls := s.calls ++ [Call.new query timeout] } := by
  have hg : s.Grows { s with calls := s.calls ++ [Call.new query timeout] } := fun j d hd =>
    ⟨d, by rw [List.getElem?_append_left (List.getElem?_eq_some_iff.mp hd).1, hd], .refl d⟩
  have hquery : ∀ d ∈ s.calls, ∀ key, d.query.key env = some key → query.key env = some key → d.query = query := by
    intro d hd key hkey hkey'
    obtain ⟨hkind, hfamily⟩ := hu d hd key hkey' hkey
    exact query_eq_of_key hkey hkey' hkind hfamily
  refine ⟨fun q r hr => (h.msgs q r hr).mono hg, fun slot node hn => (h.table slot node hn).mono hg, fun d hd => ?_,
    fun d hd d' hd' key hkey hkey' => ?_⟩
  · rcases List.mem_append.mp hd with hd | hd
    · exact (h.calls d hd).mono hg (.refl d) rfl rfl rfl rfl
    · rw [List.mem_singleton.mp hd]
      exact .move rfl (fun _ he => nomatch he) (fun _ hr => nomatch hr)
  · rcases List.mem_append.mp hd with hd | hd <;> rcases List.mem_append.mp hd' with hd' | hd'
    · exact h.unambiguous d hd d' hd' key hkey hkey'
    · rw [List.mem_singleton.mp hd'] at hkey' ⊢
      exact (hquery d hd key hkey hkey').symm
    · rw [List.mem_singleton.mp hd] at hkey ⊢
      exact hquery d' hd' key hkey' hkey
    · rw [List.mem_singleton.mp hd, List.mem_singleton.mp hd']

/-- **Entries stay sourced**: each step that meets the conditions keeps it so. -/
theorem State.Sourced.act {owner : ℕ → Option ℕ} (hp : s.Private owner) (h : s.Sourced env) (a : Act Host)
    (ha : s.Careful env a) : (s.act env a).Sourced env := by
  cases a with
  | call query timeout => exact h.call ha.2.1
  | advance i now =>
    cases hi : s.calls[i]? with
    | none => simpa only [State.act, hi] using h
    | some c => simpa only [State.act, hi] using h.advance hp hi ha.2.2
  | timeOut i =>
    cases hi : s.calls[i]? with
    | none => simpa only [State.act, hi] using h
    | some c => simpa only [State.act, hi] using h.timeOut hi
  | callback i host =>
    cases hi : s.calls[i]? with
    | none => simpa only [State.act, hi] using h
    | some c => simpa only [State.act, hi] using h.callback hi host
  | post i =>
    cases hi : s.calls[i]? with
    | none => simpa only [State.act, hi] using h
    | some c => simpa only [State.act, hi] using h.post hi

end Sourced

theorem sourced_start (env : Env) : (State.start : State Host).Sourced env :=
  ⟨fun _ _ hr => (nomatch hr), fun _ _ hn => (nomatch hn), fun _ hc => (nomatch hc), fun _ hc => (nomatch hc)⟩

/-- **Host entries**: in a run whose steps meet the conditions, an entry that a call returns
is what the resolver has answered to it, or to a call with the same query that stored it
not more than `CACHETIME` seconds before. -/
theorem returned_justified (env : Env) (acts : List (Act Host))
    (hacts : Along (State.act env) (State.Careful env) State.start acts) (i : ℕ) (c : Call Host)
    (hi : (State.start.run env acts).calls[i]? = some c) (host : Host) (hret : c.stage = .returned (some host)) :
    (State.start.run env acts).Justified c host := by
  obtain ⟨-, hsourced⟩ := hacts.inv (fun s => (∃ owner, s.Private owner) ∧ s.Sourced env)
    (fun s a ⟨⟨_, hp⟩, h⟩ ha => ⟨hp.act env a ha.1, h.act hp a ha⟩) ⟨⟨_, private_start⟩, sourced_start env⟩
  exact (hsourced.calls c (List.mem_of_getElem? hi)).returned host hret

/-- A call that is answered, and one with the query `query` half a minute later. -/
def secondRun (query : Query) : List (Act ℕ) :=
  [.call (.byName .inet "1.2.3.4".toList) 1000, .advance 0 ⟨0, 0⟩, .advance 0 ⟨0, 0⟩, .callback 0 (some 7), .post 0,
    .advance 0 ⟨0, 0⟩, .advance 0 ⟨0, 0⟩, .advance 0 ⟨0, 0⟩, .advance 0 ⟨0, 0⟩, .advance 0 ⟨0, 0⟩,
    .call query 1000, .advance 1 ⟨30, 0⟩]

/-- The same query: the second call returns the answer to the first. -/
theorem returned_justified_second : ∃ c,
    (State.start.run sampleEnv (secondRun (.byName .inet "1.2.3.4".toList))).calls[1]? = some c ∧
    c.stage = .returned (some 7) ∧ c.answered = none ∧
    (State.start.run sampleEnv (secondRun (.byName .inet "1.2.3.4".toList))).Justified c 7 := by
  refine ⟨_, rfl, rfl, rfl, ?_⟩
  exact returned_justified sampleEnv (secondRun (.byName .inet "1.2.3.4".toList)) (by decide) 1 _ rfl 7 rfl

/-- An address that is printed like the name: the second call, too, returns the answer to
the first. The resolver has not been asked for the address. -/
theorem returned_other : ∃ c,
    (State.start.run sampleEnv (secondRun (.byAddr (.inet 0x01020304)))).calls[1]? = some c ∧
    c.query = .byAddr (.inet 0x01020304) ∧ c.stage = .returned (some 7) ∧
    ¬ (State.start.run sampleEnv (secondRun (.byAddr (.inet 0x01020304)))).Justified c 7 := by
  have hnone : ∀ c ∈ (State.start.run sampleEnv (secondRun (.byAddr (.inet 0x01020304)))).calls,
      c.query = .byAddr (.inet 0x01020304) → c.answered = none := by decide
  refine ⟨_, rfl, rfl, rfl, ?_⟩
  rintro (h | ⟨c', hc', hquery, ha, -⟩)
  · cases h
  · cases (hnone c' hc' hquery).symm.trans ha

end Gross.Dns
