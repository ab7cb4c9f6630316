import Gross.Foundation.Run
import Gross.Worker.Fields

/-!
# Lists that do not answer

A list that does not answer in time is asked less. Each entry has a counter, which begins at
`ERRORTOLERANCE`: every query that is outstanding when the time is over lowers it, and an entry is
not asked while it is not positive. Every ten seconds the main loop raises counters again, up to
`ERRORTOLERANCE`.

## The model

`Tolerance` is the three lists and the lookups that run (`dnsblc`). A step of any of them may come
next: a lookup begins, asks an entry, gets a callback, or finds that its time is over; and the main
loop ticks. There may be any number of lookups. When its time is over, a lookup gets a callback for
each outstanding query, which lowers its counter.

## What is proved

* `getElem?_run`, `iterate_tolerateDnsbl` — what a run without a timeout of the entry makes of it, and
  what the ticks make of its counter.
* `clearance_iff` — after `ERRORTOLERANCE` ticks without a timeout, an entry is asked again
  exactly if it was asked before, or if it is one of `dnsbl` and not lower than
  `1 - ERRORTOLERANCE`. The ticks do not touch the other lists, and there is no floor.

## Honest scope

A tick is one step. A counter that is lowered while the main loop looks at it has the same value in
the end as if it were lowered before or after: it is tested for less than `ERRORTOLERANCE`,
raised by one, and nobody else raises it. Counters are numbers of any size.
-/

namespace Gross.Dnsbl

open Foundation Worker

/-- `ERRORTOLERANCE` -/
def errortolerance : ℤ := 5

/-- `dnsbl_t` -/
structure Entry where
  /-- `name` -/
  name : List Char
  /-- `weight` -/
  weight : ℤ
  /-- `tolerancecounter` -/
  tolerancecounter : ℤ
  deriving DecidableEq, Repr

/-- `query_clearance` -/
def queryClearance (dnsbl : Entry) : Bool := dnsbl.tolerancecounter > 0

/-- `tolerate_dnsbl` -/
def tolerateDnsbl (dnsbl : Entry) : Entry :=
  if dnsbl.tolerancecounter < errortolerance then { dnsbl with tolerancecounter := dnsbl.tolerancecounter + 1 } else dnsbl

/-- `increment_dnsbl_tolerance_counters` -/
def incrementDnsblToleranceCounters (dnsbl : List Entry) : List Entry := dnsbl.map tolerateDnsbl

/-- `add_dnsbl` -/
def addDnsbl (current : List Entry) (name : List Char) (weight : ℤ) : List Entry := ⟨name, weight, errortolerance⟩ :: current

/-- A list that is configured. -/
structure Item where
  /-- `cp->name`: which kind of list it is. -/
  type : DnsCheckType
  /-- `cp->value` -/
  value : List Char
  /-- `cp->params`, as a number. -/
  params : Option ℤ
  deriving DecidableEq, Repr

/-- The weight of a list that is configured; white lists have no parameter. -/
def Item.weight (cp : Item) : ℤ := if cp.type = .dnswl then 1 else cp.params.getD 1

/-- A run of `dnsblc`. -/
structure Lookup where
  /-- `check_info->type` -/
  type : DnsCheckType
  /-- How many entries of its list it has come to. -/
  next : ℕ
  /-- The entries whose callback has not been called. -/
  outstanding : List ℕ
  /-- `timeout` -/
  timeout : Bool
  deriving DecidableEq, Repr

/-- The lists, and the lookups. -/
structure Tolerance where
  /-- `ctx->dnsbl`, `ctx->dnswl`, `ctx->rhsbl` -/
  lists : DnsCheckType → List Entry
  /-- The lookups, in the order they began. -/
  lookups : List Lookup

/-- `configure_grossd`, for the lists. -/
def configure (config : List Item) : Tolerance where
  lists type := (config.filter (·.type = type)).foldl (fun current cp => addDnsbl current cp.value cp.weight) []
  lookups := []

/-- `cba->dnsbl->tolerancecounter--` -/
def lower (dnsbl : Entry) : Entry := { dnsbl with tolerancecounter := dnsbl.tolerancecounter - 1 }

/-- A step. -/
inductive Act where
  /-- `dnsblc` is called, for a kind of list. -/
  | start (type : DnsCheckType)
  /-- A lookup comes to the next entry, and asks it if it may. -/
  | ask (lookup : ℕ)
  /-- `addrinfo_callback` is called for an entry that a lookup has asked. -/
  | callback (lookup i : ℕ)
  /-- The time of a lookup is over. -/
  | expire (lookup : ℕ)
  /-- The main loop raises the counters. -/
  | tick
  deriving DecidableEq, Repr

/-- The next entry is asked, if it has clearance. -/
def Lookup.ask (list : List Entry) (l : Lookup) : Lookup :=
  match list[l.next]? with
  | none => l
  | some dnsbl =>
    if queryClearance dnsbl then { l with next := l.next + 1, outstanding := l.outstanding ++ [l.next] }
    else { l with next := l.next + 1 }

/-- The loop finds that the time is over; it begins when all entries have been come to. -/
def Lookup.expire (list : List Entry) (l : Lookup) : Lookup :=
  if l.next < list.length then l else { l with timeout := true }

/-- A callback, for an entry of a list: it is lowered if the time is over. -/
def calledBack (l : Lookup) (i : ℕ) (list : List Entry) : List Entry :=
  if i ∈ l.outstanding ∧ l.timeout = true then list.modify i lower else list

/-- One step. -/
def step (s : Tolerance) : Act → Tolerance
  | .start type => { s with lookups := s.lookups ++ [⟨type, 0, [], false⟩] }
  | .ask n =>
    match s.lookups[n]? with
    | none => s
    | some l => { s with lookups := s.lookups.set n (l.ask (s.lists l.type)) }
  | .callback n i =>
    match s.lookups[n]? with
    | none => s
    | some l =>
      { lists := Function.update s.lists l.type (calledBack l i (s.lists l.type))
        lookups := s.lookups.set n { l with outstanding := l.outstanding.erase i } }
  | .expire n =>
    match s.lookups[n]? with
    | none => s
    | some l => { s with lookups := s.lookups.set n (l.expire (s.lists l.type)) }
  | .tick => { s with lists := Function.update s.lists .dnsbl (incrementDnsblToleranceCounters (s.lists .dnsbl)) }

/-- A run. -/
def run (s : Tolerance) (acts : List Act) : Tolerance := acts.foldl step s

/-- The step is a timeout of this entry. -/
def TimesOut (type : DnsCheckType) (i : ℕ) (s : Tolerance) : Act → Prop
  | .callback n j => j = i ∧ ∃ l ∈ s.lookups[n]?, l.type = type ∧ i ∈ l.outstanding ∧ l.timeout = true
  | _ => False

/-- How often the main loop ticks. -/
def ticks (acts : List Act) : ℕ := acts.count .tick

variable {s : Tolerance} {type : DnsCheckType} {i : ℕ} {e : Entry}

/-! ### A step -/

/-- What a step does to an entry that does not time out: a tick may raise it. -/
theorem getElem?_step {a : Act} (h : ¬ TimesOut type i s a) :
    ((step s a).lists type)[i]? =
      if a = .tick ∧ type = .dnsbl then ((s.lists type)[i]?).map tolerateDnsbl else (s.lists type)[i]? := by
  cases a with
  | start type => rfl
  | ask n | expire n =>
    simp only [step, reduceCtorEq, false_and, if_false]
    cases s.lookups[n]? <;> rfl
  | callback n j =>
    simp only [step, reduceCtorEq, false_and, if_false]
    cases hl : s.lookups[n]? with
    | none => rfl
    | some l =>
      dsimp only
      by_cases htype : type = l.type
      · subst htype
        rw [Function.update_self, calledBack]
        split_ifs with hlower
        · -- it is another entry that is lowered
          have hne : j ≠ i := by
            rintro rfl
            exact h ⟨rfl, l, hl, rfl, hlower⟩
          rw [List.getElem?_modify_ne _ _ hne]
        · rfl
      · rw [Function.update_of_ne htype]
  | tick =>
    rw [step]
    dsimp only
    by_cases htype : type = .dnsbl
    · subst htype
      rw [if_pos ⟨rfl, rfl⟩, Function.update_self, incrementDnsblToleranceCounters, List.getElem?_map]
    · rw [if_neg fun h => htype h.2]
      rw [Function.update_of_ne htype]

/-! ### A run -/

/-- What `n` ticks make of a counter. -/
theorem iterate_tolerateDnsbl (n : ℕ) (e : Entry) :
    (tolerateDnsbl^[n] e).tolerancecounter =
      if e.tolerancecounter < errortolerance then min errortolerance (e.tolerancecounter + n) else e.tolerancecounter := by
  induction n generalizing e with
  | zero =>
    rw [Function.iterate_zero_apply]
    split_ifs <;> omega
  | succ n ih =>
    rw [Function.iterate_succ_apply, ih, tolerateDnsbl]
    by_cases hlow : e.tolerancecounter < errortolerance
    · rw [if_pos hlow, if_pos hlow]
      dsimp only
      split_ifs <;> omega
    · rw [if_neg hlow, if_neg hlow, if_neg hlow]

/-- **Without a timeout of the entry**, a run changes it by the ticks at most. -/
theorem getElem?_run {acts : List Act} (h : Along step (fun s a => ¬ TimesOut type i s a) s acts) :
    ((run s acts).lists type)[i]? =
      if type = .dnsbl then ((s.lists type)[i]?).map (tolerateDnsbl^[ticks acts]) else (s.lists type)[i]? := by
  induction acts generalizing s with
  | nil =>
    rw [run, List.foldl_nil, ticks, List.count_nil, Function.iterate_zero, Option.map_id]
    exact (ite_self _).symm
  | cons a acts ih =>
    have hstep := getElem?_step h.1
    rw [run, List.foldl_cons, ← run, ih h.2, hstep]
    by_cases htype : type = .dnsbl
    · rw [if_pos htype, if_pos htype, ticks, ticks, List.count_cons]
      by_cases htick : a = .tick
      · simp [htype, htick, Function.comp_def]
      · simp [htick]
    · rw [if_neg htype, if_neg htype, if_neg fun h => htype h.2]

/-- **After `ERRORTOLERANCE` ticks without a timeout**, an entry is asked again exactly if it was asked before, or
if it is one of `dnsbl` and its counter was not too low. -/
theorem clearance_iff (config : List Item) (before acts : List Act)
    (he : ((run (configure config) before).lists type)[i]? = some e)
    (hquiet : Along step (fun s a => ¬ TimesOut type i s a) (run (configure config) before) acts)
    (hticks : (ticks acts : ℤ) = errortolerance) :
    (∃ e', ((run (run (configure config) before) acts).lists type)[i]? = some e' ∧ queryClearance e' = true) ↔
      0 < e.tolerancecounter ∨ type = .dnsbl ∧ -errortolerance < e.tolerancecounter := by
  rw [getElem?_run hquiet, he]
  by_cases htype : type = .dnsbl
  · rw [if_pos htype, Option.map_some]
    have hcounter := iterate_tolerateDnsbl (ticks acts) e
    simp only [Option.some.injEq, exists_eq_left', queryClearance, decide_eq_true_eq, hcounter, hticks, htype, true_and]
    unfold errortolerance
    split_ifs <;> omega
  · simp [htype, queryClearance]

/-- One list of a kind. -/
def oneList (type : DnsCheckType) : List Item := [⟨type, "l".toList, none⟩]

/-- Lookups begin, as many as this, and ask the list. -/
def asking (type : DnsCheckType) (n : ℕ) : List Act := (List.range n).flatMap fun k => [.start type, .ask k]

/-- Their time is over, and they have no answer. -/
def expiring (n : ℕ) : List Act := (List.range n).flatMap fun k => [.expire k, .callback k 0]

/-- Five timeouts at a time are made good by five ticks. -/
theorem clearance_after_five :
    ∃ e', ((run (run (configure (oneList .dnsbl)) (asking .dnsbl 5 ++ expiring 5)) (List.replicate 5 .tick)).lists
      .dnsbl)[0]? = some e' ∧ queryClearance e' = true :=
  (clearance_iff (e := ⟨"l".toList, 1, 0⟩) (oneList .dnsbl) (asking .dnsbl 5 ++ expiring 5) (List.replicate 5 .tick)
    (by decide +kernel) (by simp [Along, TimesOut, List.replicate]) rfl).mpr (Or.inr ⟨rfl, by decide⟩)

/-- A list of domains with five timeouts is not asked again, and neither is a list of addresses with ten. -/
theorem no_clearance_after_ticks :
    ((run (run (configure (oneList .rhsbl)) (asking .rhsbl 5 ++ expiring 5)) (List.replicate 5 .tick)).lists .rhsbl).map
        queryClearance = [false] ∧
      ((run (run (configure (oneList .dnsbl)) (asking .dnsbl 10 ++ expiring 10)) (List.replicate 5 .tick)).lists
        .dnsbl).map queryClearance = [false] := by
  decide +kernel

end Gross.Dnsbl
