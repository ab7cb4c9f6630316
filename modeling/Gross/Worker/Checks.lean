import Gross.Dnsbl.Lookup
import Gross.Foundation.Mailbox
import Mathlib.Algebra.BigOperators.Group.List.Basic

/-!
# A request and its checks

`test_tuple` gives a request to all checks at once and waits for what they find. Each check runs in a thread
of its own, those that ask lists send a result for each list that has the client, and all results come
to one queue, in whatever order. `test_tuple` counts the checks that have given their final result,
and adds up what it hears.

## The model

`test_tuple` is the loop of `Gross.Worker.TestTuple`. A check that asks lists is a lookup of `Gross.Dnsbl.Lookup`,
step by step; any other sends what it says in `Gross.Worker.Results`, all at once. Any of them may take the
next step. The queue is a `Mailbox`.

## What is proved

`counted_all` — when as many final results have been counted as there are checks, every check has returned and
everything that any of them has sent has been heard: the weight and the judgment are those of all
results, whatever the order.

## Honest scope

That a thread of a pool takes up the request is not modelled: a check that is never run sends nothing.
-/

namespace Gross.Worker.Checks

open Foundation Utils
open Results (isFinal)

/-- A check that has been given the request. -/
inductive Party where
  /-- `dnsblc` -/
  | dns (setup : Dnsbl.Lookups.Setup) (lookup : Dnsbl.Lookups.State)
  /-- Another one, and how it ended. -/
  | other (pool : Pool) (exit : Option (Option (Results.Exit pool)))

/-- What it has sent. -/
def Party.sent : Party → List (Option ChkResult)
  | .dns _ lookup => lookup.sent
  | .other _ none => []
  | .other pool (some exit) => Results.sends pool exit

/-- The request is given to the check of a pool, with the lists it asks. -/
def Party.new (lists : DnsCheckType → List Results.Dnsbl) (timelimit : ℤ) (nofds : Bool) : Pool → Party
  | .dnsbl => .dns ⟨.dnsbl, lists .dnsbl, timelimit⟩ (Dnsbl.Lookups.initial nofds)
  | .dnswl => .dns ⟨.dnswl, lists .dnswl, timelimit⟩ (Dnsbl.Lookups.initial nofds)
  | .rhsbl => .dns ⟨.rhsbl, lists .rhsbl, timelimit⟩ (Dnsbl.Lookups.initial nofds)
  | pool => .other pool none

/-- The request. -/
structure State where
  /-- The checks, in the order of `checklist`. -/
  parties : List Party
  /-- `edict->resultmq` -/
  box : Mailbox (Option ChkResult)
  /-- `test_tuple` -/
  loop : Loop

/-- A step. -/
inductive Act where
  /-- A step of a check that asks lists. -/
  | dns (k : ℕ) (a : Dnsbl.Lookups.Act)
  /-- Another check is run, and ends in this way. -/
  | report (k : ℕ) (exit : (pool : Pool) → Option (Results.Exit pool))
  /-- A turn of the loop: `get_msg_timed` returns a message if there is one, or is too early for it. -/
  | turn (now : Timespec) (arrives : Bool)

section Steps

variable (conf : Config) (start : Timespec)

/-- A turn of the loop. -/
def hearing (s : State) (now : Timespec) (arrives : Bool) : State :=
  match s.loop.ta with
  | [] => s
  | ta :: _ =>
    -- otherwise the queue is not looked at
    if arrives = true ∧ msDiff now start < ta.timeout then
      match s.box.take with
      | none => { s with loop := s.loop.turn conf start ⟨now, none⟩ }
      | some (message, box) => { s with box := box, loop := s.loop.turn conf start ⟨now, some message⟩ }
    else { s with loop := s.loop.turn conf start ⟨now, none⟩ }

/-- What a step does. -/
def step (s : State) : Act → State
  | .dns k a =>
    match s.parties[k]? with
    | some (.dns setup lookup) =>
      let lookup' := Dnsbl.Lookups.step setup lookup a
      { s with
        parties := s.parties.set k (.dns setup lookup')
        box := s.box.send k (lookup'.sent.drop lookup.sent.length) }
    | _ => s
  | .report k exit =>
    match s.parties[k]? with
    | some (.other pool none) =>
      { s with
        parties := s.parties.set k (.other pool (some (exit pool)))
        box := s.box.send k (Results.sends pool (exit pool)) }
    | _ => s
  | .turn now arrives => if s.loop.ended then s else hearing conf start s now arrives

/-- A run. -/
def run (s : State) (acts : List Act) : State := acts.foldl (step conf start) s

end Steps

/-- The request has been given to the checks; their time is that of all timeouts. -/
def begin (checklist : List Check) (lists : DnsCheckType → List Results.Dnsbl) (ta : List TmoutAction) (nofds : Bool) :
    State where
  parties := checklist.map fun check => Party.new lists (ta.map TmoutAction.timeout).sum nofds check.pool
  box := ⟨List.replicate checklist.length [], [], []⟩
  loop := .init checklist ta

/-! ### What the loop makes of what it hears -/

/-- The weights, added up. -/
def total (ms : List (Option ChkResult)) : ℤ := (ms.map fun m => (m.map ChkResult.weight).getD 0).sum

/-- The greatest judgment. -/
def worst (ms : List (Option ChkResult)) : Judgment :=
  ms.foldl (fun j m => j.max ((m.map ChkResult.judgment).getD .undefined)) .undefined

theorem total_append (ms : List (Option ChkResult)) (m : Option ChkResult) :
    total (ms ++ [m]) = total ms + (m.map ChkResult.weight).getD 0 := by simp [total]

theorem worst_append (ms : List (Option ChkResult)) (m : Option ChkResult) :
    worst (ms ++ [m]) = (worst ms).max ((m.map ChkResult.judgment).getD .undefined) := by simp [worst]

/-- The order does not matter. -/
theorem total_perm {ms ms' : List (Option ChkResult)} (h : ms.Perm ms') : total ms = total ms' := (h.map _).sum_eq

theorem Judgment.max_right_comm (a b c : Judgment) : (a.max b).max c = (a.max c).max b := by
  cases a <;> cases b <;> cases c <;> decide

theorem worst_perm {ms ms' : List (Option ChkResult)} (h : ms.Perm ms') : worst ms = worst ms' :=
  h.foldl_eq' (fun _ _ _ _ j => (Judgment.max_right_comm j _ _)) _

/-- The loop has heard these messages, of `n` checks. -/
structure Hears (n : ℕ) (ms : List (Option ChkResult)) (l : Loop) : Prop where
  /-- `checks_running` -/
  running : l.checksRunning = n - (ms.countP isFinal : ℕ)
  /-- `susp_weight` -/
  weight : l.suspWeight = (total ms).bmod 4294967296
  /-- `judgment` -/
  judgment : l.judgment = worst ms

section Loop

variable (conf : Config) (start : Timespec) {n : ℕ} {ms : List (Option ChkResult)} {l : Loop}

theorem Hears.hear (h : Hears n ms l) (m : Option ChkResult) : Hears n (ms ++ [m]) (l.hear conf m) := by
  cases m with
  | none =>
    obtain ⟨b, heq, -⟩ := Loop.settle_eq conf { l with checksRunning := l.checksRunning - 1 }
    rw [Loop.hear, heq]
    refine ⟨?_, ?_, ?_⟩
    · rw [List.countP_append]
      simp [h.running, isFinal]
      omega
    · simpa [total_append] using h.weight
    · rw [worst_append, ← h.judgment]
      show l.judgment = _
      cases l.judgment <;> rfl
  | some r =>
    obtain ⟨b, heq, -⟩ := Loop.settle_eq conf (l.take r)
    rw [Loop.hear, heq]
    refine ⟨?_, ?_, ?_⟩
    · rw [List.countP_append]
      cases hwait : r.wait with
      | false =>
        simp [Loop.take, h.running, isFinal, hwait]
        omega
      | true => simp [Loop.take, h.running, isFinal, hwait]
    · simp [Loop.take, total_append, h.weight, addInt]
    · rw [worst_append, ← h.judgment]
      rfl

/-- A turn in which no message is taken. -/
theorem Hears.turn_none (h : Hears n ms l) (now : Timespec) : Hears n ms (l.turn conf start ⟨now, none⟩) := by
  unfold Loop.turn
  cases l.ta with
  | nil => exact h
  | cons ta next =>
    dsimp only
    split_ifs
    · exact h
    · cases ta.action <;> exact ⟨h.running, h.weight, h.judgment⟩

/-- A turn in which one is. -/
theorem Hears.turn_some (h : Hears n ms l) {now : Timespec} {ta : TmoutAction} {next : List TmoutAction}
    (hta : l.ta = ta :: next) (hnow : msDiff now start < ta.timeout) (m : Option ChkResult) :
    Hears n (ms ++ [m]) (l.turn conf start ⟨now, some m⟩) := by
  unfold Loop.turn
  rw [hta]
  dsimp only
  rw [if_pos hnow]
  exact h.hear conf m

theorem hears_init (checklist : List Check) (ta : List TmoutAction) : Hears checklist.length [] (.init checklist ta) :=
  ⟨by simp [Loop.init], rfl, rfl⟩

end Loop

/-! ### What the checks send -/

/-- What is so of a check. -/
def Party.Ok : Party → Prop
  | .dns setup lookup => Dnsbl.Lookups.Inv setup lookup
  | .other _ _ => True

theorem stream_of_sound {ms : List (Option ChkResult)} (h : Results.Sound ms) : Mailbox.Stream isFinal ms := by
  obtain ⟨partials, last, rfl, hlast, hpartials⟩ := h.final
  exact .closed hpartials hlast

/-- The final message of a check is its last one. -/
theorem Party.Ok.stream {p : Party} (h : p.Ok) : Mailbox.Stream isFinal p.sent := by
  cases p with
  | dns setup lookup =>
    cases h with
    | going h =>
      refine .going fun m hm => ?_
      obtain ⟨r, rfl, hr⟩ := h.wait m hm
      simp [isFinal, hr]
    | returned _ h =>
      rw [Party.sent, h.sent]
      exact stream_of_sound (Results.sound_dnsblc _ _)
  | other pool exit =>
    cases exit with
    | none => exact .going fun m hm => absurd hm List.not_mem_nil
    | some exit => exact stream_of_sound (Results.sound_sends pool exit)

theorem Party.ok_new (lists : DnsCheckType → List Results.Dnsbl) (timelimit : ℤ) (nofds : Bool) (pool : Pool) :
    (Party.new lists timelimit nofds pool).Ok ∧ (Party.new lists timelimit nofds pool).sent = [] := by
  cases pool <;> first | exact ⟨Dnsbl.Lookups.inv_initial _ _, rfl⟩ | exact ⟨trivial, rfl⟩

/-! ### What is kept -/

/-- What is so all the time. -/
structure Inv (s : State) : Prop where
  /-- What the senders have sent is what the checks have sent. -/
  sent : s.box.sent = s.parties.map Party.sent
  /-- The queue. -/
  box : s.box.Ok
  /-- The checks. -/
  parties : ∀ p ∈ s.parties, p.Ok
  /-- The loop. -/
  hears : Hears s.parties.length (s.box.heard.map Prod.snd) s.loop

section Kept

variable {conf : Config} {start : Timespec} {s : State}

/-- A check goes on, and sends more. -/
theorem Inv.send (h : Inv s) {k : ℕ} {p : Party} (hk : s.parties[k]? = some p) (p' : Party) (hp' : p'.Ok)
    {l : List (Option ChkResult)} (hsent : p'.sent = p.sent ++ l) :
    Inv { s with parties := s.parties.set k p', box := s.box.send k l } where
  sent := by
    show s.box.sent.modify k (· ++ l) = _
    rw [h.sent, List.map_set, hsent]
    refine List.ext_getElem? fun j => ?_
    rw [List.getElem?_modify, List.getElem?_set]
    by_cases hj : k = j
    · subst hj
      obtain ⟨hlt, hget⟩ := List.getElem?_eq_some_iff.mp hk
      simp [hlt, hget]
    · simp [hj]
  box := h.box.send (by rw [h.sent, List.length_map]; exact (List.getElem?_eq_some_iff.mp hk).1) l
  parties p hp := by
    rcases List.mem_or_eq_of_mem_set hp with hp | rfl
    · exact h.parties p hp
    · exact hp'
  hears := by
    rw [List.length_set]
    exact h.hears

theorem Inv.hearing (h : Inv s) (now : Timespec) (arrives : Bool) : Inv (hearing conf start s now arrives) := by
  unfold Checks.hearing
  split
  · exact h
  · rename_i ta next hta
    split_ifs with hnow
    · split
      · exact ⟨h.sent, h.box, h.parties, h.hears.turn_none conf start now⟩
      · rename_i message box htake
        obtain ⟨hsent, -, j, hheard⟩ := Mailbox.take_eq_some htake
        refine ⟨hsent.trans h.sent, h.box.take htake, h.parties, ?_⟩
        rw [hheard, List.map_append]
        exact h.hears.turn_some conf start hta hnow.2 message
    · exact ⟨h.sent, h.box, h.parties, h.hears.turn_none conf start now⟩

theorem Inv.step (h : Inv s) (a : Act) : Inv (step conf start s a) := by
  cases a with
  | dns k a =>
    simp only [Checks.step]
    split
    · rename_i setup lookup hk
      have hok : Dnsbl.Lookups.Inv setup lookup := h.parties _ (List.mem_of_getElem? hk)
      obtain ⟨l, hl⟩ : lookup.sent <+: (Dnsbl.Lookups.step setup lookup a).sent := Dnsbl.Lookups.sent_prefix_step lookup a
      refine h.send hk (.dns setup (Dnsbl.Lookups.step setup lookup a)) (hok.step a) ?_
      rw [Party.sent, Party.sent, ← hl, List.drop_left]
    · exact h
  | report k exit =>
    simp only [Checks.step]
    split
    · rename_i pool hk
      exact h.send hk (.other pool (some (exit pool))) trivial rfl
    · exact h
  | turn now arrives =>
    simp only [Checks.step]
    split_ifs
    · exact h
    · exact h.hearing now arrives

theorem Inv.run (h : Inv s) (acts : List Act) : Inv (run conf start s acts) :=
  foldl_inv Inv (fun _ a hs => hs.step a) h acts

end Kept

theorem inv_begin (checklist : List Check) (lists : DnsCheckType → List Results.Dnsbl) (ta : List TmoutAction) (nofds : Bool) :
    Inv (begin checklist lists ta nofds) where
  sent := by
    rw [begin, List.map_map]
    refine (List.eq_replicate_iff.mpr ⟨by simp, fun l hl => ?_⟩).symm
    obtain ⟨check, -, rfl⟩ := List.mem_map.mp hl
    exact (Party.ok_new _ _ _ _).2
  box := Mailbox.ok_empty _
  parties p hp := by
    obtain ⟨check, -, rfl⟩ := List.mem_map.mp hp
    exact (Party.ok_new _ _ _ _).1
  hears := by
    rw [begin, List.length_map]
    exact hears_init checklist ta

/-- The check has returned, and how. -/
def Party.Returned : Party → Prop
  | .dns setup lookup => lookup.place = .returned ∧ lookup.sent = Results.dnsblc setup.type (lookup.exit setup)
  | .other _ exit => exit.isSome = true

theorem Party.Ok.returned {p : Party} (h : p.Ok) (hfinal : ∃ m ∈ p.sent, isFinal m = true) : p.Returned := by
  obtain ⟨m, hm, hm'⟩ := hfinal
  cases p with
  | dns setup lookup =>
    cases h with
    | going h =>
      obtain ⟨r, rfl, hr⟩ := h.wait m hm
      simp [isFinal, hr] at hm'
    | returned hplace h => exact ⟨hplace, h.sent⟩
  | other pool exit =>
    cases exit with
    | none => cases hm
    | some exit => rfl

/-- **Counted is heard**: whatever the checks meet and in whatever order their results come, when `test_tuple` has
counted as many final results as there are checks, every check has returned and nothing is left on the
queue; the weight and the judgment are those of all results of all checks. -/
theorem counted_all (conf : Config) (start : Timespec) (checklist : List Check) (lists : DnsCheckType → List Results.Dnsbl)
    (ta : List TmoutAction) (nofds : Bool) (acts : List Act)
    (hrunning : (run conf start (begin checklist lists ta nofds) acts).loop.checksRunning = 0) :
    let s := run conf start (begin checklist lists ta nofds) acts
    s.box.queue = [] ∧ (∀ p ∈ s.parties, p.Returned) ∧
      s.loop.suspWeight = (total (s.parties.map Party.sent).flatten).bmod 4294967296 ∧
      s.loop.judgment = worst (s.parties.map Party.sent).flatten := by
  have h : Inv (run conf start (begin checklist lists ta nofds) acts) := (inv_begin checklist lists ta nofds).run acts
  generalize run conf start (begin checklist lists ta nofds) acts = s at h hrunning
  dsimp only
  have hstream : ∀ l ∈ s.box.sent, Mailbox.Stream isFinal l := by
    intro l hl
    rw [h.sent] at hl
    obtain ⟨p, hp, rfl⟩ := List.mem_map.mp hl
    exact (h.parties p hp).stream
  have hcount : s.box.heard.countP (fun m => isFinal m.2) = s.box.sent.length := by
    have := h.hears.running
    rw [hrunning, List.countP_map] at this
    rw [h.sent, List.length_map]
    simp only [Function.comp_def] at this
    omega
  obtain ⟨hqueue, hfinal⟩ := h.box.all_heard hstream hcount
  have hperm : (s.box.heard.map Prod.snd).Perm (s.parties.map Party.sent).flatten := by
    have := h.box.perm
    rwa [hqueue, List.append_nil, h.sent] at this
  refine ⟨hqueue, fun p hp => (h.parties p hp).returned (hfinal _ ?_), ?_, ?_⟩
  · rw [h.sent]
    exact List.mem_map_of_mem hp
  · rw [h.hears.weight, total_perm hperm]
  · rw [h.hears.judgment, worst_perm hperm]

/-- A list of weight 3 that has the client, and a pool that is exhausted; the time is never over. -/
def actsThree : List Act :=
  [.dns 0 .enter, .dns 0 (.ask 5 (some true)), .dns 0 (.begin ⟨0, 0⟩), .report 1 fun _ => none,
    .dns 0 (.turn ⟨⟨0, 0⟩, true, [], false⟩), .turn ⟨0, 0⟩ true, .dns 0 (.check ⟨0, 0⟩ false []), .turn ⟨0, 0⟩ true,
    .turn ⟨0, 0⟩ true]

/-- The list is counted in with its weight. -/
theorem counted_all_three :
    let s := run ⟨10, 0, false, false, false, 5000, "", ""⟩ ⟨0, 0⟩
      (begin [⟨.dnsbl, false⟩, ⟨.reverse, false⟩] (fun _ => [⟨"l", 3⟩]) [⟨5000, none⟩] false) actsThree
    s.box.queue = [] ∧ s.loop.suspWeight = 3 ∧ ∀ p ∈ s.parties, p.Returned := by
  have h := counted_all ⟨10, 0, false, false, false, 5000, "", ""⟩ ⟨0, 0⟩ [⟨.dnsbl, false⟩, ⟨.reverse, false⟩]
    (fun _ => [⟨"l", 3⟩]) [⟨5000, none⟩] false actsThree (by decide +kernel)
  exact ⟨h.1, by decide +kernel, h.2.1⟩

end Gross.Worker.Checks
