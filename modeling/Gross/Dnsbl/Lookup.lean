import Gross.Foundation.Run
import Gross.Worker.Results

/-!
# One lookup

`dnsblc` asks all the lists of a kind at once. The resolver calls back for each query when it pleases:
at once, while `dnsblc` waits in `select`, or at the latest when the rest is cancelled. A callback
sends a result of its own, or, for a white list, only leaves a note; and when `dnsblc` is through, for
whichever reason, it sends a last one.

## The model

A state is where `dnsblc` is, what it keeps and what it has sent. A step (`Act`) is what it does next,
with what it is told by others then: what the counter of a list is, whether the query is called back at
once, what the clock says, whether the resolver has anything to wait for, which queries are answered,
whether the request is obsolete, in which order what is outstanding is cancelled. All of these can be
anything. Beside what the source has, the state has the queries made, the callbacks, the queries
that were cancelled, and the counters that were lowered, each in order.

## What is proved

* `sent_eq` — what has been sent when `dnsblc` has returned is what `Gross.Worker.Results` says, for the lists
  that have been found to have it; before, what has been sent is not final. Each query made has been
  called back once, the last of them those that were outstanding at `ares_cancel`, without success; and
  the counters that were lowered are those of the latter, if the time was over, and none if not.
* `returned_of_late` — when the time is over, `dnsblc` returns after at most a turn of each of its loops.
-/

namespace Gross.Dnsbl.Lookups

open Foundation Utils Worker
open Results (Dnsbl DnsblcExit blank whitelisted)

/-- What a lookup is for. -/
structure Setup where
  /-- `check_info->type` -/
  type : DnsCheckType
  /-- `check_info->dnsbase` -/
  dnsbase : List Dnsbl
  /-- `edict->timelimit` -/
  timelimit : ℤ

/-- Where `dnsblc` is. -/
inductive Place where
  /-- It has been called. -/
  | called
  /-- It comes to this list. -/
  | asking (i : ℕ)
  /-- In the inner loop. -/
  | turning
  /-- After the inner loop. -/
  | checking
  /-- It has returned. -/
  | returned
  deriving DecidableEq, Repr

/-- A run of `dnsblc`. -/
structure State where
  /-- Where it is. -/
  place : Place
  /-- `start` -/
  start : Timespec
  /-- `nfds == 0` -/
  nofds : Bool
  /-- `done` -/
  done : Bool
  /-- `dnslname` -/
  dnslname : Option Dnsbl
  /-- `timeout` -/
  timeout : Bool
  /-- The queries whose callback has not been called. -/
  outstanding : List ℕ
  /-- The messages sent. -/
  sent : List (Option ChkResult)
  /-- How it ended, if it has not asked. -/
  skipped : Option DnsblcExit
  /-- The queries made. -/
  asked : List ℕ
  /-- The callbacks: of which list, and whether it has been found to have it. -/
  answers : List (ℕ × Bool)
  /-- The queries that were outstanding at `ares_cancel`, in the order of their callbacks. -/
  cancelled : List ℕ
  /-- The lists whose `tolerancecounter` was lowered. -/
  lowered : List ℕ
  deriving DecidableEq, Repr

/-- It has been called; `nfds` is not initialised. -/
def initial (nofds : Bool) : State := ⟨.called, ⟨0, 0⟩, nofds, false, none, false, [], [], none, [], [], [], []⟩

/-- A turn of the inner loop. -/
structure Turn where
  /-- `now` -/
  now : Timespec
  /-- `nfds == 0` -/
  nofds : Bool
  /-- The callbacks that `ares_process` makes. -/
  replies : List (ℕ × Bool)
  /-- `edict->obsolete` -/
  obsolete : Bool
  deriving DecidableEq, Repr

/-- A step. -/
inductive Act where
  /-- `ares_init` fails, or the pool is exhausted. -/
  | fail
  /-- There is nothing to ask about. -/
  | skip
  /-- There is. -/
  | enter
  /-- The next list, whose `tolerancecounter` is this; the query may be called back at once. -/
  | ask (tolerancecounter : ℤ) (reply : Option Bool)
  /-- All lists have been come to; `start` is set. -/
  | begin (now : Timespec)
  /-- A turn of the inner loop. -/
  | turn (t : Turn)
  /-- A turn of the outer loop; `order` is that of the outstanding queries, if they are cancelled. -/
  | check (now : Timespec) (obsolete : Bool) (order : List ℕ)
  deriving DecidableEq, Repr

section Steps

variable (setup : Setup)

/-- A list has been found to have it. -/
def found (s : State) (dnsbl : Dnsbl) : State :=
  if setup.type ≠ .dnswl then { s with sent := s.sent ++ [some (Results.addrinfoCallback dnsbl)] }
  else { s with dnslname := some dnsbl, done := true }

/-- `addrinfo_callback`; its argument is freed, and the resolver calls it once for each query. -/
def addrinfoCallback (s : State) (i : ℕ) (success : Bool) : State :=
  match setup.dnsbase[i]? with
  | none => s
  | some dnsbl =>
    let s := { s with outstanding := s.outstanding.erase i, answers := s.answers ++ [(i, success)] }
    let s := if success then found setup s dnsbl else s
    if s.timeout then { s with lowered := s.lowered ++ [i] } else s

/-- A callback that `ares_process` makes. -/
def reply (s : State) (r : ℕ × Bool) : State := if r.1 ∈ s.outstanding then addrinfoCallback setup s r.1 r.2 else s

/-- `ares_cancel`: the outstanding queries are called back, in the order that the resolver has them. -/
def aresCancel (s : State) (order : List ℕ) : State :=
  order.foldl (fun s i => addrinfoCallback setup s i false) { s with cancelled := order }

/-- `FINISH` -/
def finish (s : State) : State :=
  let result := if s.done ∧ setup.type = .dnswl then whitelisted s.dnslname else blank "dnsbl"
  { s with sent := s.sent ++ [some result], place := .returned }

/-- `ares_gethostbyname`, for list `i`. -/
def aresGethostbyname (s : State) (i : ℕ) (reply : Option Bool) : State :=
  let s := { s with asked := s.asked ++ [i], outstanding := s.outstanding ++ [i] }
  match reply with
  | none => s
  | some success => addrinfoCallback setup s i success

/-- The next list is `i`. -/
def askList (s : State) (i : ℕ) (tolerancecounter : ℤ) (reply : Option Bool) : State :=
  let s := { s with place := .asking (i + 1) }
  if tolerancecounter > 0 then aresGethostbyname setup s i reply else s

/-- A turn of the inner loop. -/
def innerTurn (s : State) (t : Turn) : State :=
  if msDiff t.now s.start ≥ setup.timelimit then { s with place := .checking }
  else if t.nofds then { s with place := .checking, nofds := true }
  else
    let s := t.replies.foldl (reply setup) { s with nofds := false }
    if s.done ∨ t.obsolete then { s with place := .checking } else s

/-- A turn of the outer loop. -/
def outerTurn (s : State) (now : Timespec) (obsolete : Bool) (order : List ℕ) : State :=
  let s := if msDiff now s.start ≥ setup.timelimit then { s with timeout := true } else s
  if obsolete ∨ s.done ∨ s.nofds ∨ s.timeout then finish setup (aresCancel setup s order)
  else { s with place := .turning }

/-- What a step does. -/
def step (s : State) : Act → State
  | .fail =>
    if s.place = .called then { s with place := .returned, sent := s.sent ++ [none], skipped := some .uninitialized } else s
  | .skip => if s.place = .called then finish setup { s with skipped := some .unasked } else s
  | .enter => if s.place = .called then { s with place := .asking 0 } else s
  | .ask tolerancecounter reply =>
    match s.place with
    | .asking i => if i < setup.dnsbase.length then askList setup s i tolerancecounter reply else s
    | _ => s
  | .begin now => if s.place = .asking setup.dnsbase.length then { s with place := .turning, start := now } else s
  | .turn t => if s.place = .turning then innerTurn setup s t else s
  | .check now obsolete order =>
    if s.place = .checking ∧ order.Perm s.outstanding then outerTurn setup s now obsolete order else s

/-- A run. -/
def run (s : State) (acts : List Act) : State := acts.foldl (step setup) s

/-- The lists that have been found to have it, in the order of the callbacks. -/
def State.listed (s : State) : List Dnsbl := s.answers.filterMap fun r => if r.2 then setup.dnsbase[r.1]? else none

/-- How it ended. -/
def State.exit (s : State) : DnsblcExit := s.skipped.getD (.asked (s.listed setup))

end Steps

/-! ### A callback -/

section Kept

variable {setup : Setup} {s : State} {i : ℕ} {b : Bool} {dnsbl : Dnsbl}

/-- What a callback does. -/
theorem addrinfoCallback_eq (h : setup.dnsbase[i]? = some dnsbl) (s : State) (b : Bool) :
    addrinfoCallback setup s i b =
      { s with
        outstanding := s.outstanding.erase i
        answers := s.answers ++ [(i, b)]
        sent := if b = true ∧ setup.type ≠ .dnswl then s.sent ++ [some (Results.addrinfoCallback dnsbl)] else s.sent
        dnslname := if b = true ∧ setup.type = .dnswl then some dnsbl else s.dnslname
        done := if b = true ∧ setup.type = .dnswl then true else s.done
        lowered := if s.timeout then s.lowered ++ [i] else s.lowered } := by
  rw [addrinfoCallback, h]
  cases b <;> cases s.timeout <;> by_cases htype : setup.type = .dnswl <;> simp [found, htype]

theorem listed_callback (h : setup.dnsbase[i]? = some dnsbl) (s : State) (b : Bool) :
    (addrinfoCallback setup s i b).listed setup = s.listed setup ++ (if b then [dnsbl] else []) := by
  rw [addrinfoCallback_eq h, State.listed, State.listed, List.filterMap_append]
  cases b <;> simp [h]

/-- The results of the callbacks. -/
def State.waits (setup : Setup) (s : State) : List (Option ChkResult) :=
  if setup.type = .dnswl then [] else (s.listed setup).map fun dnsbl => some (Results.addrinfoCallback dnsbl)

/-- What is so as long as callbacks are made. -/
structure Core (setup : Setup) (s : State) : Prop where
  /-- Each query made has been called back, or is outstanding. -/
  calls : (s.answers.map Prod.fst ++ s.outstanding).Perm s.asked
  /-- No list is asked twice. -/
  nodup : s.asked.Nodup
  /-- The queries are for lists. -/
  lt : ∀ i ∈ s.asked, i < setup.dnsbase.length
  /-- `done` -/
  done : s.done = true ↔ setup.type = .dnswl ∧ s.listed setup ≠ []
  /-- `dnslname` -/
  dnslname : setup.type = .dnswl → s.dnslname = (s.listed setup).getLast?

theorem Core.getElem? (h : Core setup s) (hi : i ∈ s.outstanding) : ∃ dnsbl, setup.dnsbase[i]? = some dnsbl :=
  ⟨_, List.getElem?_eq_getElem (h.lt i (h.calls.subset (List.mem_append_right _ hi)))⟩

theorem Core.callback (h : Core setup s) (hi : i ∈ s.outstanding) (b : Bool) : Core setup (addrinfoCallback setup s i b) := by
  obtain ⟨dnsbl, hdnsbl⟩ := h.getElem? hi
  have hlisted := listed_callback hdnsbl s b
  have heq := addrinfoCallback_eq hdnsbl s b
  constructor
  · -- the query goes from the outstanding ones to those called back
    rw [heq]
    simp only [List.map_append, List.map_cons, List.map_nil, List.append_assoc, List.singleton_append]
    exact ((List.perm_cons_erase hi).symm.append_left _).trans h.calls
  · rw [heq]
    exact h.nodup
  · rw [heq]
    exact h.lt
  · rw [hlisted, heq]
    cases b with
    | false => simpa using h.done
    | true =>
      by_cases htype : setup.type = .dnswl
      · simp [htype]
      · simpa [htype] using h.done
  · intro htype
    rw [hlisted, heq]
    cases b with
    | false => simpa using h.dnslname htype
    | true => simp [htype]

theorem waits_callback (h : Core setup s) (hi : i ∈ s.outstanding) (b : Bool) (hsent : s.sent = s.waits setup) :
    (addrinfoCallback setup s i b).sent = (addrinfoCallback setup s i b).waits setup := by
  obtain ⟨dnsbl, hdnsbl⟩ := h.getElem? hi
  rw [State.waits, listed_callback hdnsbl s b, addrinfoCallback_eq hdnsbl s b]
  simp only [hsent, State.waits]
  cases b <;> by_cases htype : setup.type = .dnswl <;> simp [htype]

/-- What is so of a lookup that has not returned. -/
structure Going (setup : Setup) (s : State) : Prop where
  /-- The callbacks. -/
  core : Core setup s
  /-- It has not returned. -/
  place : s.place ≠ .returned
  /-- The callbacks have sent. -/
  sent : s.sent = s.waits setup
  /-- It is asking. -/
  skipped : s.skipped = none
  /-- The time is not over. -/
  timeout : s.timeout = false
  /-- Nothing has been cancelled. -/
  cancelled : s.cancelled = []
  /-- No counter has been lowered. -/
  lowered : s.lowered = []

theorem Going.callback (h : Going setup s) (hi : i ∈ s.outstanding) (b : Bool) :
    Going setup (addrinfoCallback setup s i b) := by
  obtain ⟨dnsbl, hdnsbl⟩ := h.core.getElem? hi
  have heq := addrinfoCallback_eq hdnsbl s b
  refine ⟨h.core.callback hi b, ?_, waits_callback h.core hi b h.sent, ?_, ?_, ?_, ?_⟩
  · rw [heq]
    exact h.place
  · rw [heq]
    exact h.skipped
  · rw [heq]
    exact h.timeout
  · rw [heq]
    exact h.cancelled
  · rw [heq]
    simpa [h.timeout] using h.lowered

theorem Going.replies (h : Going setup s) (rs : List (ℕ × Bool)) : Going setup (rs.foldl (reply setup) s) := by
  refine foldl_inv (Going setup) (fun s r hs => ?_) h rs
  unfold reply
  split_ifs with hr
  · exact hs.callback hr r.2
  · exact hs

/-- What is cancelled is called back without success, and is lowered if the time is over. -/
theorem aresCancel_eq (h : Core setup s) {order : List ℕ} (horder : order.Perm s.outstanding) :
    aresCancel setup s order =
      { s with
        outstanding := []
        answers := s.answers ++ order.map fun i => (i, false)
        cancelled := order
        lowered := if s.timeout then s.lowered ++ order else s.lowered } := by
  have key : ∀ (l : List ℕ) (s : State), l.Perm s.outstanding → (∀ i ∈ l, i < setup.dnsbase.length) →
      l.foldl (fun s i => addrinfoCallback setup s i false) s =
        { s with
          outstanding := []
          answers := s.answers ++ l.map fun i => (i, false)
          lowered := if s.timeout then s.lowered ++ l else s.lowered } := by
    intro l
    induction l with
    | nil =>
      intro s hs _
      have hnil := hs.symm.eq_nil
      cases s
      cases hnil
      simp
    | cons i l ih =>
      intro s hs hlt
      obtain ⟨hi, hl⟩ := List.forall_mem_cons.mp hlt
      have heq := addrinfoCallback_eq (List.getElem?_eq_getElem hi) s false
      have hout : l.Perm (addrinfoCallback setup s i false).outstanding := by
        rw [heq]
        exact (List.cons_perm_iff_perm_erase.mp hs).2
      rw [List.foldl_cons, ih _ hout hl, heq]
      cases ht : s.timeout <;> simp
  exact key order { s with cancelled := order } horder fun i hi =>
    h.lt i (h.calls.subset (List.mem_append_right _ (horder.subset hi)))

/-- What is so of a lookup that has returned. -/
structure Returned (setup : Setup) (s : State) : Prop where
  /-- What it has sent. -/
  sent : s.sent = Results.dnsblc setup.type (s.exit setup)
  /-- Each query made has been called back once. -/
  calls : (s.answers.map Prod.fst).Perm s.asked
  /-- No list was asked twice. -/
  nodup : s.asked.Nodup
  /-- The last callbacks are those of the queries that were cancelled. -/
  cancelled : ∃ early, s.answers = early ++ s.cancelled.map fun i => (i, false)
  /-- They have lowered the counters if the time was over, and no other has. -/
  lowered : s.lowered = if s.timeout then s.cancelled else []

theorem listed_aresCancel (h : Core setup s) {order : List ℕ} (horder : order.Perm s.outstanding) :
    (aresCancel setup s order).listed setup = s.listed setup := by
  have hnone : ∀ l : List ℕ, (l.map fun i => (i, false)).filterMap
      (fun r : ℕ × Bool => if r.2 then setup.dnsbase[r.1]? else none) = [] := by
    intro l
    simp [List.filterMap_map]
  rw [aresCancel_eq h horder, State.listed, State.listed, List.filterMap_append, hnone, List.append_nil]

/-- The last result. -/
theorem finish_sent (h : Core setup s) (hsent : s.sent = s.waits setup) :
    (finish setup s).sent = Results.dnsblc setup.type (.asked (s.listed setup)) := by
  simp only [finish, hsent, State.waits, Results.dnsblc]
  by_cases htype : setup.type = .dnswl
  · have hdone := h.done
    simp only [htype, true_and, and_true, if_true, List.nil_append, h.dnslname htype] at hdone ⊢
    by_cases hlisted : s.listed setup = []
    · -- nothing has been found
      rw [if_neg fun hd => hdone.mp hd hlisted, hlisted]
      rfl
    · rw [if_pos (hdone.mpr hlisted)]
  · simp only [htype, and_false, if_false]

theorem returned_finish (h : Core setup s) (hsent : s.sent = s.waits setup) (hskipped : s.skipped = none)
    (hlowered : s.lowered = []) {order : List ℕ} (horder : order.Perm s.outstanding) :
    Returned setup (finish setup (aresCancel setup s order)) := by
  have heq := aresCancel_eq h horder
  have hlisted := listed_aresCancel h horder
  have hcancel : ((aresCancel setup s order).answers.map Prod.fst).Perm s.asked := by
    rw [heq]
    simpa [Function.comp_def] using (horder.append_left _).trans h.calls
  have hcore : Core setup (aresCancel setup s order) := by
    refine ⟨?_, ?_, ?_, ?_, ?_⟩
    · rw [heq] at hcancel ⊢
      simpa using hcancel
    · rw [heq]
      exact h.nodup
    · rw [heq]
      exact h.lt
    · rw [hlisted, heq]
      exact h.done
    · rw [hlisted, heq]
      exact h.dnslname
  have hwaits : (aresCancel setup s order).sent = (aresCancel setup s order).waits setup := by
    rw [State.waits, hlisted, heq]
    exact hsent
  refine ⟨?_, ?_, hcore.nodup, ⟨s.answers, ?_⟩, ?_⟩
  · have hexit : (finish setup (aresCancel setup s order)).exit setup =
        .asked ((aresCancel setup s order).listed setup) := by
      rw [finish, State.exit, heq]
      simp [hskipped, State.listed]
    rw [hexit, finish_sent hcore hwaits]
  · rw [heq] at hcancel ⊢
    exact hcancel
  · rw [heq]
    rfl
  · simp only [finish, heq, hlowered, List.nil_append]

/-- What is so all the time. -/
inductive Inv (setup : Setup) (s : State) : Prop where
  /-- It has not returned. -/
  | going (h : Going setup s) (called : s.place = .called → s.answers = [] ∧ s.asked = [])
      (fresh : ∀ i, s.place = .asking i → ∀ j ∈ s.asked, j < i)
  /-- It has. -/
  | returned (place : s.place = .returned) (h : Returned setup s)

/-- A lookup that goes on at another place. -/
theorem Going.move (h : Going setup s) (place : Place) (hplace : place ≠ .returned) (start : Timespec) (nofds : Bool) :
    Going setup { s with place := place, start := start, nofds := nofds } :=
  ⟨⟨h.core.calls, h.core.nodup, h.core.lt, h.core.done, h.core.dnslname⟩, hplace, h.sent, h.skipped, h.timeout,
    h.cancelled, h.lowered⟩

theorem Going.inv (h : Going setup s) (hplace : s.place = .turning ∨ s.place = .checking) : Inv setup s := by
  rcases hplace with hplace | hplace
  · exact .going h (fun hc => by rw [hplace] at hc; cases hc) fun i hi => by rw [hplace] at hi; cases hi
  · exact .going h (fun hc => by rw [hplace] at hc; cases hc) fun i hi => by rw [hplace] at hi; cases hi

theorem Going.aresGethostbyname (h : Going setup s) (hi : i < setup.dnsbase.length) (fresh : i ∉ s.asked) (r : Option Bool) :
    Going setup (aresGethostbyname setup s i r) := by
  have hgoing : Going setup { s with asked := s.asked ++ [i], outstanding := s.outstanding ++ [i] } := by
    refine ⟨⟨?_, ?_, ?_, h.core.done, h.core.dnslname⟩, h.place, h.sent, h.skipped, h.timeout, h.cancelled,
      h.lowered⟩
    · simpa using h.core.calls.append_right [i]
    · exact (List.perm_append_singleton i s.asked).nodup_iff.mpr (List.nodup_cons.mpr ⟨fresh, h.core.nodup⟩)
    · intro j hj
      rcases List.mem_append.mp hj with hj | hj
      · exact h.core.lt j hj
      · rwa [List.mem_singleton.mp hj]
  cases r with
  | none => exact hgoing
  | some b => exact hgoing.callback (by simp) b

theorem aresGethostbyname_frame (hi : i < setup.dnsbase.length) (r : Option Bool) :
    (Lookups.aresGethostbyname setup s i r).place = s.place ∧
      (Lookups.aresGethostbyname setup s i r).asked = s.asked ++ [i] := by
  cases r with
  | none => exact ⟨rfl, rfl⟩
  | some b =>
    rw [Lookups.aresGethostbyname, addrinfoCallback_eq (List.getElem?_eq_getElem hi)]
    exact ⟨rfl, rfl⟩

theorem Going.ask (h : Going setup s) (hi : i < setup.dnsbase.length) (fresh : ∀ j ∈ s.asked, j < i) (counter : ℤ)
    (r : Option Bool) : Inv setup (askList setup s i counter r) := by
  have hnext : Going setup { s with place := .asking (i + 1) } := h.move (.asking (i + 1)) nofun s.start s.nofds
  unfold askList
  split_ifs
  · obtain ⟨hplace, hasked⟩ := aresGethostbyname_frame (s := { s with place := .asking (i + 1) }) hi r
    refine .going (hnext.aresGethostbyname hi (fun hmem => (fresh i hmem).ne rfl) r) (fun hc => ?_) (fun k hk j hj => ?_)
    · rw [hplace] at hc
      cases hc
    · rw [hplace] at hk
      cases hk
      rw [hasked] at hj
      rcases List.mem_append.mp hj with hj | hj
      · exact (fresh j hj).trans (Nat.lt_succ_self i)
      · rw [List.mem_singleton.mp hj]
        exact Nat.lt_succ_self i
  · refine .going hnext (nomatch ·) fun k hk => ?_
    cases hk
    exact fun j hj => (fresh j hj).trans (Nat.lt_succ_self i)

theorem place_reply (s : State) (r : ℕ × Bool) : (reply setup s r).place = s.place := by
  unfold reply
  split_ifs
  · cases hr : setup.dnsbase[r.1]? with
    | none => rw [addrinfoCallback, hr]
    | some dnsbl => rw [addrinfoCallback_eq hr]
  · rfl

theorem Going.innerTurn (h : Going setup s) (hplace : s.place = .turning) (t : Turn) : Inv setup (innerTurn setup s t) := by
  unfold Lookups.innerTurn
  split_ifs with hlate hnofds
  · exact (h.move .checking nofun s.start s.nofds).inv (.inr rfl)
  · exact (h.move .checking nofun s.start true).inv (.inr rfl)
  · have hreplies := (h.move s.place h.place s.start false).replies t.replies
    have hturning : (t.replies.foldl (reply setup) { s with nofds := false }).place = .turning := by
      refine foldl_inv (fun s' : State => s'.place = .turning) (fun s' r hs => ?_) ?_ t.replies
      · exact (place_reply s' r).trans hs
      · exact hplace
    dsimp only
    split_ifs
    · exact (hreplies.move .checking nofun _ _).inv (.inr rfl)
    · exact hreplies.inv (.inl hturning)

theorem Going.outerTurn (h : Going setup s) (now : Timespec) (obsolete : Bool) {order : List ℕ}
    (horder : order.Perm s.outstanding) : Inv setup (outerTurn setup s now obsolete order) := by
  unfold Lookups.outerTurn
  by_cases hlate : msDiff now s.start ≥ setup.timelimit
  · have hcore : Core setup { s with timeout := true } :=
      ⟨h.core.calls, h.core.nodup, h.core.lt, h.core.done, h.core.dnslname⟩
    simp only [hlate, if_true, or_true]
    exact .returned rfl (returned_finish hcore h.sent h.skipped h.lowered horder)
  · simp only [hlate, if_false]
    split_ifs
    · exact .returned rfl (returned_finish h.core h.sent h.skipped h.lowered horder)
    · exact (h.move .turning nofun s.start s.nofds).inv (.inl rfl)

/-- Nothing has been asked. -/
theorem Going.sent_eq_nil (h : Going setup s) (hanswers : s.answers = []) : s.sent = [] := by
  rw [h.sent, State.waits, State.listed, hanswers]
  simp

theorem Inv.step (h : Inv setup s) (a : Act) : Inv setup (step setup s a) := by
  cases h with
  | returned hplace h =>
    have hsame : Lookups.step setup s a = s := by cases a <;> simp [Lookups.step, hplace]
    rw [hsame]
    exact .returned hplace h
  | going h called fresh =>
    cases a with
    | fail =>
      simp only [Lookups.step]
      split_ifs with hc
      · obtain ⟨hanswers, hasked⟩ := called hc
        refine .returned rfl ⟨?_, ?_, h.core.nodup, ⟨s.answers, ?_⟩, ?_⟩
        · simp [h.sent_eq_nil hanswers, State.exit, Results.dnsblc]
        · simp [hanswers, hasked]
        · simp [h.cancelled]
        · simpa [h.timeout] using h.lowered
      · exact .going h called fresh
    | skip =>
      simp only [Lookups.step]
      split_ifs with hc
      · obtain ⟨hanswers, hasked⟩ := called hc
        have hdone : s.done = false := by
          have hnot := mt h.core.done.mp (by simp [State.listed, hanswers])
          simpa using hnot
        refine .returned rfl ⟨?_, ?_, h.core.nodup, ⟨s.answers, ?_⟩, ?_⟩
        · simp [finish, hdone, h.sent_eq_nil hanswers, State.exit, Results.dnsblc]
        · simp [finish, hanswers, hasked]
        · simp [finish, h.cancelled]
        · simpa [finish, h.timeout] using h.lowered
      · exact .going h called fresh
    | enter =>
      simp only [Lookups.step]
      split_ifs with hc
      · refine .going (h.move (.asking 0) nofun s.start s.nofds) nofun fun i _ j hj => ?_
        rw [show s.asked = [] from (called hc).2] at hj
        cases hj
      · exact .going h called fresh
    | ask counter r =>
      simp only [Lookups.step]
      split
      · rename_i i hi
        split_ifs with hlt
        · exact h.ask hlt (fresh i hi) counter r
        · exact .going h called fresh
      · exact .going h called fresh
    | begin now =>
      simp only [Lookups.step]
      split_ifs
      · exact (h.move .turning nofun now s.nofds).inv (.inl rfl)
      · exact .going h called fresh
    | turn t =>
      simp only [Lookups.step]
      split_ifs with hturning
      · exact h.innerTurn hturning t
      · exact .going h called fresh
    | check now obsolete order =>
      simp only [Lookups.step]
      split_ifs with hc
      · exact h.outerTurn now obsolete hc.2
      · exact .going h called fresh

theorem inv_initial (setup : Setup) (nofds : Bool) : Inv setup (initial nofds) :=
  .going ⟨⟨.nil, .nil, nofun, by simp [initial, State.listed], fun _ => rfl⟩, nofun,
    by simp [initial, State.waits, State.listed], rfl, rfl, rfl, rfl⟩ (fun _ => ⟨rfl, rfl⟩) nofun

theorem Inv.run (h : Inv setup s) (acts : List Act) : Inv setup (run setup s acts) :=
  foldl_inv (Inv setup) (fun _ a hs => hs.step a) h acts

/-- Before it returns, what it sends is not final. -/
theorem Going.wait (h : Going setup s) : ∀ m ∈ s.sent, ∃ r, m = some r ∧ r.wait = true := by
  intro m hm
  rw [h.sent, State.waits] at hm
  split_ifs at hm
  · cases hm
  · obtain ⟨dnsbl, -, rfl⟩ := List.mem_map.mp hm
    exact ⟨_, rfl, rfl⟩

end Kept

/-! ### What has been sent stays sent -/

section Sent

variable {setup : Setup}

theorem sent_prefix_callback (s : State) (i : ℕ) (b : Bool) : s.sent <+: (addrinfoCallback setup s i b).sent := by
  cases h : setup.dnsbase[i]? with
  | none => simp [addrinfoCallback, h]
  | some dnsbl =>
    rw [addrinfoCallback_eq h]
    dsimp only
    split_ifs
    · exact List.prefix_append _ _
    · exact List.prefix_rfl

theorem sent_prefix_gethostbyname (s : State) (i : ℕ) (r : Option Bool) :
    s.sent <+: (aresGethostbyname setup s i r).sent := by
  cases r with
  | none => exact List.prefix_rfl
  | some b => exact sent_prefix_callback { s with asked := s.asked ++ [i], outstanding := s.outstanding ++ [i] } i b

theorem sent_prefix_replies (s : State) (rs : List (ℕ × Bool)) : s.sent <+: (rs.foldl (reply setup) s).sent := by
  refine foldl_inv (fun s' : State => s.sent <+: s'.sent) (fun s' r hs => ?_) List.prefix_rfl rs
  unfold reply
  split_ifs
  · exact hs.trans (sent_prefix_callback s' r.1 r.2)
  · exact hs

theorem sent_prefix_finish (s : State) (order : List ℕ) : s.sent <+: (finish setup (aresCancel setup s order)).sent := by
  have hcancel : s.sent <+: (aresCancel setup s order).sent := by
    refine foldl_inv (fun s' : State => s.sent <+: s'.sent) (fun s' i hs => ?_) ?_ order
    · exact hs.trans (sent_prefix_callback s' i false)
    · exact List.prefix_rfl
  exact hcancel.trans (List.prefix_append _ _)

theorem sent_prefix_step (s : State) (a : Act) : s.sent <+: (step setup s a).sent := by
  cases a with
  | fail | skip | enter | begin now =>
    simp only [step]
    split_ifs <;> first | exact List.prefix_rfl | exact List.prefix_append _ _
  | ask counter r =>
    simp only [step]
    split
    · rename_i i hi
      split_ifs
      · unfold askList
        split_ifs
        · exact sent_prefix_gethostbyname { s with place := .asking (i + 1) } i r
        · exact List.prefix_rfl
      · exact List.prefix_rfl
    · exact List.prefix_rfl
  | turn t =>
    simp only [step, innerTurn]
    have hreplies : s.sent <+: (t.replies.foldl (reply setup) { s with nofds := false }).sent :=
      sent_prefix_replies { s with nofds := false } t.replies
    split_ifs <;> first | exact List.prefix_rfl | exact hreplies
  | check now obsolete order =>
    simp only [step, outerTurn]
    split_ifs <;> first
      | exact List.prefix_rfl
      | exact sent_prefix_finish _ _
      | exact sent_prefix_finish { s with timeout := true } order

end Sent

/-- **One lookup, whatever it meets**: when it has returned, it has sent what it says in `Gross.Worker.Results` for the
lists that have been found to have it. Each query has been called back once, the last of them those that were
outstanding at `ares_cancel`, without success. If the time was over, the counters of these have been lowered,
and no other; if not, none. Before it has returned, nothing that it has sent is final. -/
theorem sent_eq (setup : Setup) (nofds : Bool) (acts : List Act) :
    let s := run setup (initial nofds) acts
    if s.place = .returned then
      s.sent = Results.dnsblc setup.type (s.exit setup) ∧ (s.answers.map Prod.fst).Perm s.asked ∧ s.asked.Nodup ∧
        (∃ early, s.answers = early ++ s.cancelled.map fun i => (i, false)) ∧
        s.lowered = if s.timeout then s.cancelled else []
    else ∀ m ∈ s.sent, ∃ r, m = some r ∧ r.wait = true := by
  dsimp only
  cases (inv_initial setup nofds).run acts with
  | going h =>
    rw [if_neg h.place]
    exact h.wait
  | returned hplace h =>
    rw [if_pos hplace]
    exact ⟨h.sent, h.calls, h.nodup, h.cancelled, h.lowered⟩

/-- When the time is over, it returns after at most a turn of each loop. -/
theorem returned_of_late {setup : Setup} {s : State} (hplace : s.place = .turning ∨ s.place = .checking) {t : Turn}
    {now : Timespec} (ht : msDiff t.now s.start ≥ setup.timelimit) (hnow : msDiff now s.start ≥ setup.timelimit)
    (obsolete : Bool) {order : List ℕ} (horder : order.Perm s.outstanding) :
    (run setup s [.turn t, .check now obsolete order]).place = .returned := by
  rcases hplace with hplace | hplace <;> simp [run, step, hplace, innerTurn, outerTurn, finish, ht, hnow, horder]

end Gross.Dnsbl.Lookups
