import Gross.Stats.Guard
import Mathlib.Data.List.Nodup

/-!
# The average delays

A request is counted twice over. In `test_tuple` it is counted under the status that is answered
(`update_counters`). In `finalize` its delay is brought into the average of the status that was
decided (`update_delay_stats`), as if it were the last of those that are counted now. Both take
the mutex, but other requests may be counted in between.

## The model

The critical sections of the requests and of `zero_stats` come in any order (`Act`), each request's
own in the order of its program (`Legal`). A request for which `test_tuple` fails is not counted;
its `action` is as `memset` has left it, which is `STATUS_GREY`. Averages are rational.

A period is what comes after a call of `zero_stats`. It is closed if every request that is counted in
it is finalised in it, and the other way round (`Closed`). `Right` is that then the averages are the
means of the delays of the requests counted, and that failed requests have changed none.

## What is proved

`averages_iff` — in a closed period the averages are right, whatever the delays are, exactly if no
request failed, each was counted under the status that was decided (with a dry run it is not,
unless that is `STATUS_TRUST`), and at the `n`-th update of an average its counter was `n`: between
counting a request and finalising it, no other with its status was counted.

`run_program` — the critical sections of a request are what the two functions do for it, with what
`test_tuple` answers and notes after its loop.

## Honest scope

The counters are numbers of any size.
-/

namespace Gross.Stats

open Foundation Worker

/-- `update_delay_stats` -/
def updateDelayStats (action : Status) (d : ℚ) : Locking StatsT PUnit :=
  match action with
  | .block => do let _ ← blockDelayUpdate d
  | .matched => do let _ ← matchDelayUpdate d
  | .grey => do let _ ← greylistDelayUpdate d
  | .trust => do let _ ← trustDelayUpdate d
  | .unknown | .fail => pure ⟨⟩

/-- A request, as far as the statistics go. -/
structure Request where
  /-- What `test_tuple` decides, if it does not fail. -/
  retvalue : Option Kind
  /-- `FLG_DRYRUN` -/
  dryrun : Bool
  deriving DecidableEq, Repr

/-- What it is counted under. -/
def Request.counted (r : Request) : Option Kind := r.retvalue.map fun k => if r.dryrun then .trust else k

/-- `querylog_entry.action`; it is zero before anything is decided. -/
def Request.action (r : Request) : Kind := r.retvalue.getD .greylist

/-- A critical section. -/
inductive Act where
  /-- The first of `update_counters`, of a request. -/
  | counters (i : ℕ)
  /-- The second. -/
  | countersAll (i : ℕ)
  /-- `update_delay_stats`, of a request. -/
  | delays (i : ℕ)
  /-- `zero_stats` -/
  | zero (began : ℤ)
  deriving DecidableEq, Repr

/-- The request that a critical section is part of. -/
def Act.owner : Act → Option ℕ
  | .counters i | .countersAll i | .delays i => some i
  | .zero _ => none

/-- The request that is counted. -/
def Act.counters? : Act → Option ℕ
  | .counters i => some i
  | _ => none

/-- The request that is finalised. -/
def Act.delays? : Act → Option ℕ
  | .delays i => some i
  | _ => none

section

variable (req : ℕ → Request)

/-- The critical sections of a request. -/
def program (i : ℕ) : List Act :=
  if (req i).retvalue.isSome then [.counters i, .countersAll i, .delays i] else [.delays i]

/-- Each request has come some way through its program. -/
def Legal (acts : List Act) : Prop := ∀ i, acts.filter (·.owner = some i) <+: program req i

/-- What a critical section does; the delays are in milliseconds. -/
def step (delay : ℕ → ℤ) (s : StatsT) : Act → StatsT
  | .counters i =>
    match (req i).counted with
    | some k => s.incf k
    | none => s
  | .countersAll i =>
    match (req i).counted with
    | some k => s.incfAll k
    | none => s
  | .delays i => s.delay (req i).action (delay i)
  | .zero began => s.zero began

/-- One critical section after another. -/
def steps (delay : ℕ → ℤ) (s : StatsT) (acts : List Act) : StatsT := acts.foldl (step req delay) s

/-- The requests that are counted under a status, in order. -/
def countedIds (k : Kind) (acts : List Act) : List ℕ :=
  (acts.filterMap Act.counters?).filter fun i => (req i).counted = some k

/-- Every request is counted and finalised in the period, or neither. -/
structure Closed (acts : List Act) : Prop where
  /-- The statistics are not zeroed again. -/
  zero : ∀ began, .zero began ∉ acts
  /-- What is counted is finalised. -/
  finalised : ∀ i, .counters i ∈ acts → .delays i ∈ acts
  /-- What is finalised has been counted, if it has not failed. -/
  counted : ∀ i, .delays i ∈ acts → (req i).retvalue ≠ none → .counters i ∈ acts

/-- The arithmetic mean. -/
def mean (delay : ℕ → ℤ) (ids : List ℕ) : ℚ := (ids.map fun i => (delay i : ℚ)).sum / ids.length

/-- The averages are what they should be. -/
structure Right (delay : ℕ → ℤ) (s : StatsT) (acts : List Act) : Prop where
  /-- They are the means of the delays of what was counted. -/
  mean : ∀ k, countedIds req k acts ≠ [] → (steps req delay s acts).avgDelay k = mean delay (countedIds req k acts)
  /-- What has failed has changed none. -/
  failed : ∀ before i after, acts = before ++ .delays i :: after → (req i).retvalue = none →
    (steps req delay s (before ++ [.delays i])).avgDelay = (steps req delay s before).avgDelay

/-- The updates of an average: the counter at that time, and the request. -/
def updates (k : Kind) : ℕ → List Act → List (ℕ × ℕ)
  | _, [] => []
  | n, .counters i :: acts => updates k (if (req i).counted = some k then n + 1 else n) acts
  | n, .countersAll _ :: acts => updates k n acts
  | n, .delays i :: acts => if (req i).action = k then (n, i) :: updates k n acts else updates k n acts
  | n, .zero _ :: acts => updates k n acts

/-- Nothing has come between. -/
structure Plain (acts : List Act) : Prop where
  /-- No request failed. -/
  decided : ∀ i, .delays i ∈ acts → (req i).retvalue ≠ none
  /-- Each was counted under the status that was decided. -/
  same : ∀ i, .delays i ∈ acts → (req i).counted = some (req i).action
  /-- At the `n`-th update of an average its counter was `n`. -/
  inTurn : ∀ k, (updates req k 0 acts).map Prod.fst = List.range' 1 (updates req k 0 acts).length

end

variable {req : ℕ → Request} {delay : ℕ → ℤ} {s : StatsT} {acts : List Act} {k : Kind}

/-! ### The functions and the critical sections -/

/-- What `update_counters` does is its two critical sections. -/
theorem updateCounters_eq {status : Status} (h : kindOf status = some k) (s : StatsT) :
    updateCounters status ⟨false, s⟩ = .ok (⟨⟩, ⟨false, (s.incf k).incfAll k⟩) := by
  unfold updateCounters
  rw [h]
  rfl

/-- What `update_delay_stats` does is one. -/
theorem updateDelayStats_eq {action : Status} (h : kindOf action = some k) (d : ℚ) (s : StatsT) :
    updateDelayStats action d ⟨false, s⟩ = .ok (⟨⟩, ⟨false, s.delay k d⟩) := by
  cases action <;> cases h <;> rfl

/-- What `test_tuple` answers and what it notes, if it does not fail. -/
theorem kindOf_finish (conf : Config) {decision : Decision} (h : kindOf decision.retvalue = some k)
    (entry : QuerylogEntry) :
    kindOf (finish conf decision entry).status = (Request.mk (some k) conf.dryrun).counted ∧
      kindOf (finish conf decision entry).entry.action = some (Request.mk (some k) conf.dryrun).action := by
  refine ⟨?_, h⟩
  unfold finish Request.counted
  cases conf.dryrun
  · exact h
  · rfl

/-- It decides for one of the kinds that are counted. -/
theorem kindOf_verdict (conf : Config) (seen : Bool) (l : Loop) : ∃ k, kindOf (l.verdict conf seen).retvalue = some k := by
  unfold Loop.verdict
  cases l.judgment with
  | pass => exact ⟨.trust, rfl⟩
  | block => exact ⟨.block, rfl⟩
  | suspicious | undefined =>
    dsimp only
    split_ifs
    · exact ⟨.block, rfl⟩
    · exact ⟨.matched, rfl⟩
    · exact ⟨.greylist, rfl⟩
    · exact ⟨.trust, rfl⟩

/-- **What a request does to the statistics is its program**: `update_counters` with what `test_tuple` answers after its
loop, and `update_delay_stats` with what it notes. -/
theorem run_program (conf : Config) (seen : Bool) (l : Loop) {i : ℕ}
    (hreq : ∀ k, kindOf (l.verdict conf seen).retvalue = some k → req i = ⟨some k, conf.dryrun⟩) (s : StatsT) :
    (do
      updateCounters (finish conf (l.verdict conf seen) l.entry).status
      updateDelayStats (finish conf (l.verdict conf seen) l.entry).entry.action (delay i)) ⟨false, s⟩ =
      .ok (⟨⟩, ⟨false, steps req delay s (program req i)⟩) := by
  obtain ⟨k, hk⟩ := kindOf_verdict conf seen l
  obtain ⟨hstatus, haction⟩ := kindOf_finish conf hk l.entry
  have hi := hreq k hk
  rw [← hi] at hstatus haction
  obtain ⟨k', hcounted⟩ : ∃ k', (req i).counted = some k' := ⟨_, by rw [hi]; rfl⟩
  have hsteps : steps req delay s (program req i) = ((s.incf k').incfAll k').delay (req i).action (delay i) := by
    have hsome : (req i).retvalue.isSome = true := by rw [hi]; rfl
    rw [program, if_pos hsome]
    simp only [steps, List.foldl_cons, List.foldl_nil, step, hcounted]
  change (updateCounters _ ⟨false, s⟩ >>= fun p => updateDelayStats _ _ p.2) = _
  rw [updateCounters_eq (hstatus.trans hcounted), hsteps]
  exact updateDelayStats_eq haction _ _

/-! ### The updates of an average -/

/-- **What a run makes of an average** are its updates. -/
theorem avgDelay_steps (req : ℕ → Request) (delay : ℕ → ℤ) (k : Kind) (hzero : ∀ began, .zero began ∉ acts) (s : StatsT) :
    (steps req delay s acts).avgDelay k =
      running (fun i => (delay i : ℚ)) (updates req k (s.count k) acts) (s.avgDelay k) := by
  induction acts generalizing s with
  | nil => rfl
  | cons a acts ih =>
    have hrest : ∀ began, .zero began ∉ acts := fun began h => hzero began (List.mem_cons_of_mem _ h)
    rw [steps, List.foldl_cons, ← steps, ih hrest]
    cases a with
    | counters i =>
      rw [step, updates]
      cases hk : (req i).counted with
      | none => rfl
      | some k' =>
        by_cases heq : k' = k
        · subst heq
          simp [StatsT.incf]
        · simp [StatsT.incf, heq, Function.update_of_ne (Ne.symm heq)]
    | countersAll i =>
      rw [step, updates]
      cases (req i).counted <;> rfl
    | delays i =>
      rw [step, updates]
      by_cases heq : (req i).action = k
      · subst heq
        rw [if_pos rfl]
        simp [StatsT.delay, running]
      · rw [if_neg heq]
        simp [StatsT.delay, Function.update_of_ne (Ne.symm heq)]
    | zero began => exact absurd List.mem_cons_self (hzero began)

/-- The requests whose delays are brought into an average, in order. -/
def finalisedIds (req : ℕ → Request) (k : Kind) (acts : List Act) : List ℕ :=
  (acts.filterMap Act.delays?).filter fun i => (req i).action = k

theorem snd_updates (req : ℕ → Request) (k : Kind) (n : ℕ) (acts : List Act) :
    (updates req k n acts).map Prod.snd = finalisedIds req k acts := by
  unfold finalisedIds
  induction acts generalizing n with
  | nil => rfl
  | cons a acts ih =>
    cases a with
    | counters i | countersAll i | zero began => rw [updates, List.filterMap_cons_none (by rfl), ih]
    | delays i =>
      rw [updates, List.filterMap_cons_some (by rfl)]
      by_cases heq : (req i).action = k
      · rw [if_pos heq, List.filter_cons_of_pos (by simpa using heq), List.map_cons, ih]
      · rw [if_neg heq, List.filter_cons_of_neg (by simpa using heq), ih]

theorem counters?_eq_some {a : Act} {i : ℕ} : a.counters? = some i ↔ a = .counters i := by
  cases a <;> simp [Act.counters?]

theorem delays?_eq_some {a : Act} {i : ℕ} : a.delays? = some i ↔ a = .delays i := by
  cases a <;> simp [Act.delays?]

theorem mem_countedIds {i : ℕ} : i ∈ countedIds req k acts ↔ .counters i ∈ acts ∧ (req i).counted = some k := by
  simp [countedIds, counters?_eq_some]

theorem mem_finalisedIds {i : ℕ} : i ∈ finalisedIds req k acts ↔ .delays i ∈ acts ∧ (req i).action = k := by
  simp [finalisedIds, delays?_eq_some]

theorem countedIds_cons (req : ℕ → Request) (k : Kind) (i : ℕ) (acts : List Act) :
    (countedIds req k (.counters i :: acts)).length =
      (if (req i).counted = some k then 1 else 0) + (countedIds req k acts).length := by
  rw [countedIds, List.filterMap_cons_some (by rfl), List.filter_cons]
  split_ifs with h h' h'
  · rw [List.length_cons, Nat.add_comm, countedIds]
  · exact absurd (of_decide_eq_true h) h'
  · exact absurd (decide_eq_true h') h
  · rw [Nat.zero_add, countedIds]

/-- At an update the counter is the number of requests that were counted before it. -/
theorem exists_of_mem_updates {n m i : ℕ} (h : (m, i) ∈ updates req k n acts) :
    ∃ before after, acts = before ++ .delays i :: after ∧ m = n + (countedIds req k before).length := by
  induction acts generalizing n with
  | nil => cases h
  | cons a acts ih =>
    cases a with
    | counters j =>
      rw [updates] at h
      obtain ⟨before, after, rfl, hm⟩ := ih h
      refine ⟨.counters j :: before, after, rfl, ?_⟩
      rw [countedIds_cons]
      split_ifs at hm ⊢ <;> omega
    | countersAll j | zero began =>
      rw [updates] at h
      obtain ⟨before, after, rfl, hm⟩ := ih h
      exact ⟨_ :: before, after, rfl, hm⟩
    | delays j =>
      rw [updates] at h
      split_ifs at h
      · rcases List.mem_cons.mp h with heq | h
        · cases heq
          exact ⟨[], acts, rfl, rfl⟩
        · obtain ⟨before, after, rfl, hm⟩ := ih h
          exact ⟨_ :: before, after, rfl, hm⟩
      · obtain ⟨before, after, rfl, hm⟩ := ih h
        exact ⟨_ :: before, after, rfl, hm⟩

/-! ### The order of the critical sections -/

theorem nodup_program (req : ℕ → Request) (i : ℕ) : (program req i).Nodup := by
  unfold program
  split_ifs <;> simp

/-- No critical section of a request comes twice. -/
theorem Legal.nodup {before : List Act} (h : Legal req (before ++ acts)) (hzero : ∀ began, .zero began ∉ acts) :
    acts.Nodup := by
  rw [List.nodup_iff_count_le_one]
  intro a
  cases howner : a.owner with
  | none =>
    cases a with
    | zero began =>
      rw [List.count_eq_zero.mpr (hzero began)]
      exact Nat.zero_le 1
    | counters i | countersAll i | delays i => cases howner
  | some i =>
    calc acts.count a ≤ (before ++ acts).count a := (List.sublist_append_right before acts).count_le a
      _ = ((before ++ acts).filter (·.owner = some i)).count a := (List.count_filter (by simpa using howner)).symm
      _ ≤ (program req i).count a := (h i).sublist.count_le a
      _ ≤ 1 := List.nodup_iff_count_le_one.mp (nodup_program req i) a

theorem program_eq (req : ℕ → Request) (i : ℕ) : ∃ before, program req i = before ++ [.delays i] ∧ .delays i ∉ before := by
  unfold program
  split_ifs
  · exact ⟨[.counters i, .countersAll i], rfl, by simp⟩
  · exact ⟨[], rfl, List.not_mem_nil⟩

/-- When a request has been finalised, it is not counted. -/
theorem Legal.counters_notMem {before after : List Act} {i : ℕ} (h : Legal req (before ++ .delays i :: after)) :
    .counters i ∉ after := by
  intro hcounters
  obtain ⟨rest, hown⟩ := h i
  obtain ⟨start, hprogram, hstart⟩ := program_eq req i
  rw [List.filter_append, List.filter_cons_of_pos (by simp [Act.owner]), hprogram, List.append_assoc,
    List.cons_append, eq_comm, List.append_cons_inj_of_notMem hstart List.not_mem_nil] at hown
  have hnil := (List.append_eq_nil_iff.mp hown.2.2.symm).1
  have hmem : .counters i ∈ after.filter (·.owner = some i) := List.mem_filter.mpr ⟨hcounters, by simp [Act.owner]⟩
  rw [hnil] at hmem
  cases hmem

section

variable {before : List Act} {began : ℤ}

/-- After `zero_stats` the counters and the averages are zero. -/
theorem steps_zero (req : ℕ → Request) (delay : ℕ → ℤ) (s : StatsT) (before : List Act) (began : ℤ) (k : Kind) :
    (steps req delay s (before ++ [.zero began])).count k = 0 ∧
      (steps req delay s (before ++ [.zero began])).avgDelay k = 0 := by
  rw [steps, List.foldl_append]
  exact ⟨rfl, rfl⟩

/-- In a period the average is made of the delays that are brought into it. -/
theorem avgDelay_period (req : ℕ → Request) (delay : ℕ → ℤ) (s : StatsT) (before : List Act) (began : ℤ) (k : Kind)
    (hzero : ∀ began, .zero began ∉ acts) :
    (steps req delay (steps req delay s (before ++ [.zero began])) acts).avgDelay k =
      running (fun i => (delay i : ℚ)) (updates req k 0 acts) 0 := by
  obtain ⟨hcount, havg⟩ := steps_zero req delay s before began k
  rw [avgDelay_steps req delay k hzero, hcount, havg]

variable (hlegal : Legal req (before ++ .zero began :: acts)) (hclosed : Closed req acts)

include hlegal hclosed

theorem nodup_acts : acts.Nodup := by
  rw [← List.singleton_append, ← List.append_assoc] at hlegal
  exact hlegal.nodup hclosed.zero

/-- A request that did not fail has been counted when it is finalised. -/
theorem counters_mem_before {xs ys : List Act} {i : ℕ} (hsplit : acts = xs ++ .delays i :: ys)
    (hdecided : (req i).retvalue ≠ none) : .counters i ∈ xs := by
  have hmem : .counters i ∈ acts := hclosed.counted i (by simp [hsplit]) hdecided
  rw [hsplit] at hmem hlegal
  have hlegal' : Legal req ((before ++ .zero began :: xs) ++ .delays i :: ys) := by
    rwa [List.append_assoc, List.cons_append]
  rcases List.mem_append.mp hmem with h | h
  · exact h
  · rcases List.mem_cons.mp h with h | h
    · cases h
    · exact absurd h hlegal'.counters_notMem

theorem nodup_finalisedIds (k : Kind) : (finalisedIds req k acts).Nodup :=
  ((nodup_acts hlegal hclosed).filterMap fun a a' i ha ha' => by
    rw [delays?_eq_some.mp ha, delays?_eq_some.mp ha']).filter _

theorem nodup_countedIds (k : Kind) : (countedIds req k acts).Nodup :=
  ((nodup_acts hlegal hclosed).filterMap fun a a' i ha ha' => by
    rw [counters?_eq_some.mp ha, counters?_eq_some.mp ha']).filter _

/-- If no request failed and each is counted under what was decided, those that are counted are those that are
finalised. -/
theorem countedIds_perm (hdecided : ∀ i, .delays i ∈ acts → (req i).retvalue ≠ none)
    (hsame : ∀ i, .delays i ∈ acts → (req i).counted = some (req i).action) (k : Kind) :
    (countedIds req k acts).Perm (finalisedIds req k acts) := by
  refine (List.perm_ext_iff_of_nodup (nodup_countedIds hlegal hclosed k) (nodup_finalisedIds hlegal hclosed k)).mpr
    fun i => ?_
  rw [mem_countedIds, mem_finalisedIds]
  constructor
  · rintro ⟨hmem, hk⟩
    have hdelays := hclosed.finalised i hmem
    rw [hsame i hdelays] at hk
    exact ⟨hdelays, Option.some.inj hk⟩
  · rintro ⟨hmem, hk⟩
    exact ⟨hclosed.counted i hmem (hdecided i hmem), hk ▸ hsame i hmem⟩

end

/-- The mean of the delays, however it is said which they are. -/
theorem mean_countedIds (hperm : (countedIds req k acts).Perm (finalisedIds req k acts)) (delay : ℕ → ℤ) :
    mean delay (countedIds req k acts) =
      ((updates req k 0 acts).map fun v => (delay v.2 : ℚ)).sum / (updates req k 0 acts).length := by
  have hsnd := snd_updates req k 0 acts
  have hmap : (updates req k 0 acts).map (fun v => (delay v.2 : ℚ)) = (finalisedIds req k acts).map fun i => (delay i : ℚ) := by
    rw [← hsnd, List.map_map]
    rfl
  have hlength : (updates req k 0 acts).length = (finalisedIds req k acts).length := by rw [← hsnd, List.length_map]
  rw [mean, (hperm.map _).sum_eq, hperm.length_eq, hmap, hlength]

/-! ### When the averages are right -/

/-- What finalising a request makes of the average. -/
theorem avgDelay_concat (req : ℕ → Request) (delay : ℕ → ℤ) (s : StatsT) (acts : List Act) (i : ℕ) :
    (steps req delay s (acts ++ [.delays i])).avgDelay (req i).action =
      average ((steps req delay s acts).avgDelay (req i).action) ((steps req delay s acts).count (req i).action) (delay i) := by
  rw [steps, List.foldl_append]
  exact Function.update_self _ _ _

theorem mean_single_ne_zero {ids : List ℕ} {i : ℕ} (hi : i ∈ ids) : mean (Pi.single i 1) ids ≠ 0 := by
  have hsum : ∀ ids : List ℕ, (ids.map fun j => ((Pi.single i 1 : ℕ → ℤ) j : ℚ)).sum = ids.count i := by
    intro ids
    induction ids with
    | nil => rfl
    | cons j ids ih =>
      rw [List.map_cons, List.sum_cons, ih, List.count_cons]
      by_cases hj : j = i
      · simp [hj, add_comm]
      · simp [hj]
  rw [mean, hsum]
  exact div_ne_zero (Nat.cast_ne_zero.mpr (List.count_pos_iff.mpr hi).ne')
    (Nat.cast_ne_zero.mpr (List.length_pos_of_mem hi).ne')

/-- If only the delay of another request is not zero, the average is. -/
theorem running_single {i : ℕ} (hi : i ∉ finalisedIds req k acts) (n : ℕ) :
    running (fun j => ((Pi.single i 1 : ℕ → ℤ) j : ℚ)) (updates req k n acts) 0 = 0 := by
  refine running_zero fun v hv => ?_
  have hmem : v.2 ∈ finalisedIds req k acts := snd_updates req k n acts ▸ List.mem_map_of_mem hv
  rw [Pi.single_eq_of_ne (ne_of_mem_of_not_mem hmem hi), Int.cast_zero]

section

variable {before : List Act} {began : ℤ} (hlegal : Legal req (before ++ .zero began :: acts)) (hclosed : Closed req acts)
  {s : StatsT} (hright : ∀ delay, Right req delay (steps req delay s (before ++ [.zero began])) acts)

include hlegal hclosed hright

/-- A failed request is seen in an average. -/
theorem decided_of_right {i : ℕ} (hi : .delays i ∈ acts) : (req i).retvalue ≠ none := by
  intro hfailed
  obtain ⟨xs, ys, hsplit⟩ := List.append_of_mem hi
  have hxs : i ∉ finalisedIds req (req i).action xs := by
    have hnodup := nodup_acts hlegal hclosed
    rw [hsplit, List.nodup_append] at hnodup
    exact fun h => hnodup.2.2 _ (mem_finalisedIds.mp h).1 _ List.mem_cons_self rfl
  have hzero : ∀ began, .zero began ∉ xs := fun began h => hclosed.zero began (by simp [hsplit, h])
  have hsame := congrFun ((hright (Pi.single i 1)).failed xs i ys hsplit hfailed) (req i).action
  -- the average was zero before it
  rw [avgDelay_concat, avgDelay_period _ _ _ _ _ _ hzero, running_single hxs, Pi.single_eq_same] at hsame
  exact average_zero_ne_zero _ (Int.cast_ne_zero.mpr one_ne_zero) hsame

/-- A request that is counted under another status is missed in the mean. -/
theorem same_of_right {i : ℕ} (hi : .delays i ∈ acts) : (req i).counted = some (req i).action := by
  have hdecided := decided_of_right hlegal hclosed hright hi
  obtain ⟨k, hk⟩ : ∃ k, (req i).counted = some k := by
    obtain ⟨k, hk⟩ := Option.ne_none_iff_exists'.mp hdecided
    exact ⟨_, by rw [Request.counted, hk, Option.map_some]⟩
  rw [hk]
  by_contra hne
  have hmem : i ∈ countedIds req k acts := mem_countedIds.mpr ⟨hclosed.counted i hi hdecided, hk⟩
  have hmean := (hright (Pi.single i 1)).mean k (List.ne_nil_of_mem hmem)
  have hnot : i ∉ finalisedIds req k acts := fun h => hne (congrArg some (mem_finalisedIds.mp h).2.symm)
  rw [avgDelay_period _ _ _ _ _ _ hclosed.zero, running_single hnot] at hmean
  exact mean_single_ne_zero hmem hmean.symm

/-- The averages are the means only if the counters are those of the updates. -/
theorem inTurn_of_right (k : Kind) : (updates req k 0 acts).map Prod.fst = List.range' 1 (updates req k 0 acts).length := by
  have hdecided := fun i (hi : .delays i ∈ acts) => decided_of_right hlegal hclosed hright hi
  have hsame := fun i (hi : .delays i ∈ acts) => same_of_right hlegal hclosed hright hi
  have hperm := countedIds_perm hlegal hclosed hdecided hsame k
  refine fst_eq_range'_of_mean ?_ (fun v hv => ?_) fun delay => ?_
  · rw [snd_updates]
    exact nodup_finalisedIds hlegal hclosed k
  · -- the request itself has been counted
    obtain ⟨xs, ys, hsplit, hcount⟩ := exists_of_mem_updates hv
    have hi : .delays v.2 ∈ acts := by simp [hsplit]
    have hmem : v.2 ∈ finalisedIds req k acts := snd_updates req k 0 acts ▸ List.mem_map_of_mem hv
    have hcounted : v.2 ∈ countedIds req k xs :=
      mem_countedIds.mpr ⟨counters_mem_before hlegal hclosed hsplit (hdecided _ hi),
        (mem_finalisedIds.mp hmem).2 ▸ hsame _ hi⟩
    have := List.length_pos_of_mem hcounted
    omega
  · rw [← mean_countedIds hperm, ← avgDelay_period req delay s before began k hclosed.zero]
    by_cases hnil : countedIds req k acts = []
    · have hempty : updates req k 0 acts = [] := by
        have hfinalised : finalisedIds req k acts = [] := (hnil ▸ hperm).nil_eq.symm
        rw [← snd_updates req k 0 acts] at hfinalised
        exact List.map_eq_nil_iff.mp hfinalised
      rw [avgDelay_period req delay s before began k hclosed.zero, hempty, hnil]
      simp [running, mean]
    · exact (hright delay).mean k hnil

end

/-- **The averages are right**, in a closed period and whatever the delays are, exactly if nothing has come
between. -/
theorem averages_iff {before : List Act} {began : ℤ} (hlegal : Legal req (before ++ .zero began :: acts))
    (hclosed : Closed req acts) (s : StatsT) :
    (∀ delay, Right req delay (steps req delay s (before ++ [.zero began])) acts) ↔ Plain req acts := by
  constructor
  · intro hright
    exact ⟨fun _ => decided_of_right hlegal hclosed hright, fun _ => same_of_right hlegal hclosed hright,
      inTurn_of_right hlegal hclosed hright⟩
  · intro hplain delay
    refine ⟨fun k _ => ?_, fun xs i ys hsplit hfailed => ?_⟩
    · rw [avgDelay_period req delay s before began k hclosed.zero, running_eq_mean (hplain.inTurn k),
        mean_countedIds (countedIds_perm hlegal hclosed hplain.decided hplain.same k)]
    · exact absurd hfailed (hplain.decided i (by simp [hsplit]))

/-- Every request is greylisted. -/
def greylisted (_ : ℕ) : Request := ⟨some .greylist, false⟩

/-- Two requests, one after the other. -/
def oneByOne : List Act := [.counters 0, .countersAll 0, .delays 0, .counters 1, .countersAll 1, .delays 1]

theorem legal_oneByOne : Legal greylisted ([] ++ .zero 0 :: oneByOne) := by
  intro i
  match i with
  | 0 => exact ⟨[], rfl⟩
  | 1 => exact ⟨[], rfl⟩
  | i + 2 => simp [oneByOne, Act.owner]

theorem closed_oneByOne : Closed greylisted oneByOne where
  zero := by simp [oneByOne]
  finalised := by simp [oneByOne]
  counted := by simp [oneByOne]

theorem averages_one_by_one :
    Right greylisted (fun _ => 4) (steps greylisted (fun _ => 4) (initStats 0) ([] ++ [.zero 0])) oneByOne :=
  (averages_iff legal_oneByOne closed_oneByOne (initStats 0)).mpr
    ⟨fun _ _ => Option.some_ne_none _, fun _ _ => rfl, fun k => by cases k <;> rfl⟩ _

/-- Two requests, the second of which is counted before the first is finalised. -/
def overlapping : List Act := [.counters 0, .countersAll 0, .counters 1, .countersAll 1, .delays 0, .delays 1]

/-- The average of delays 4 and 8 is 5 if the requests overlap. A request that fails after 4 is an average of 4. A
greylisted request after 4, with a dry run, leaves the average of `STATUS_TRUST` at 0, where it is counted. -/
theorem averages_wrong :
    ((steps greylisted (fun i => 4 * (i + 1)) (initStats 0) (.zero 0 :: overlapping)).avgDelay .greylist = 5 ∧
        mean (fun i => 4 * (i + 1)) (countedIds greylisted .greylist overlapping) = 6) ∧
      ((steps (fun _ => ⟨none, false⟩) (fun _ => 4) (initStats 0) [.zero 0]).avgDelay .greylist = 0 ∧
        (steps (fun _ => ⟨none, false⟩) (fun _ => 4) (initStats 0) [.zero 0, .delays 0]).avgDelay .greylist = 4) ∧
      ((steps (fun _ => ⟨some .greylist, true⟩) (fun _ => 4) (initStats 0)
          [.zero 0, .counters 0, .countersAll 0, .delays 0]).avgDelay .trust = 0 ∧
        mean (fun _ => 4) (countedIds (fun _ => ⟨some .greylist, true⟩) .trust
          [.counters 0, .countersAll 0, .delays 0]) = 4) := by
  decide +kernel

end Gross.Stats
