import Gross.Worker.TestTuple
import Gross.Foundation.Interleave

/-!
# The verdict does not depend on the order of the results

The loop of `test_tuple` may stop before all results have come: on a judgment that
lets the request through, and on a weight that decides, once no definitive check is
running. What it decides then is what it would have decided with all results.

## The model

`Answers` is a check with the results it sends: any number with `wait`, and a final
one without. Their weights are not negative, and only a check registered as definitive
lets a request through or blocks it. The `definitive` of a result is set at most in the
final result of such a check; no check of the program sets it at all.

The results of a family of checks arrive in any order that keeps each check's own
results in order (`Interleave`).

## What is proved

`action_eq_allIn` — if no time limit is reached and the match shortcut is not taken, the
loop ends, and the status is `allIn`: the verdict on all results together. There has to be
a check, and the sum of the weights has to be an `int`.

## The argument

`Awaits` relates the loop to what is still to come: the counters count it, and a loop
that has stopped has what decides. One result keeps it (`Awaits.hear`). When the loop
has stopped, the rest does not change the verdict (`Awaits.verdictOf_stopped`).
-/

namespace Gross.Worker

open Foundation Utils

/-- A check and the results it sends. -/
structure Answers where
  /-- The check, as it is registered. -/
  check : Check
  /-- The results before the last. -/
  partials : List ChkResult
  /-- The last. -/
  final : ChkResult
  /-- More results come after these. -/
  wait_partials : ∀ r ∈ partials, r.wait = true ∧ r.definitive = false
  /-- None comes after this. -/
  wait_final : final.wait = false ∧ (final.definitive = true → check.definitive = true)
  /-- No weight is negative. -/
  weight_nonneg : ∀ r ∈ partials ++ [final], 0 ≤ r.weight
  /-- Only a definitive check lets a request through, or blocks it. -/
  definitive : ∀ r ∈ partials ++ [final], r.judgment = .pass ∨ r.judgment = .block → check.definitive = true

/-- All the results, in order. -/
def Answers.results (a : Answers) : List ChkResult := a.partials ++ [a.final]

/-- The sum of the weights. -/
def weight : List ChkResult → ℤ
  | [] => 0
  | r :: results => r.weight + weight results

/-- The verdict on all results together. -/
def allIn (conf : Config) (seen : Bool) (results : List ChkResult) : Status :=
  if ∃ r ∈ results, r.judgment = .pass then .trust
  else if ∃ r ∈ results, r.judgment = .block then .block
  else if conf.blockThreshold > 0 ∧ weight results ≥ conf.blockThreshold then .block
  else if weight results ≥ conf.greyThreshold then if seen then .matched else .grey
  else .trust

/-! ### The verdict, from a judgment and a weight -/

/-- The verdict on a judgment and a weight. -/
def verdictOf (conf : Config) (seen : Bool) (judgment : Judgment) (weight : ℤ) : Status :=
  if judgment = .pass then .trust
  else if judgment = .block then .block
  else if conf.blockThreshold > 0 ∧ weight ≥ conf.blockThreshold then .block
  else if weight ≥ conf.greyThreshold then if seen then .matched else .grey
  else .trust

variable {conf : Config} {seen : Bool} {l : Loop}

theorem Loop.retvalue_verdict : (l.verdict conf seen).retvalue = verdictOf conf seen l.judgment l.suspWeight := by
  unfold verdict verdictOf
  cases l.judgment with
  | pass | block => simp
  | suspicious | undefined =>
    simp only [reduceCtorEq, if_false]
    split_ifs <;> rfl

/-- The greatest judgment. -/
def judgmentOf (judgment : Judgment) (results : List ChkResult) : Judgment :=
  results.foldl (fun j r => j.max r.judgment) judgment

variable {results : List ChkResult}

theorem judgmentOf_eq_pass {judgment : Judgment} :
    judgmentOf judgment results = .pass ↔ judgment = .pass ∨ ∃ r ∈ results, r.judgment = .pass := by
  induction results generalizing judgment with
  | nil => simp [judgmentOf]
  | cons r results ih =>
    rw [judgmentOf, List.foldl_cons, ← judgmentOf, ih, Judgment.max_eq_pass, List.exists_mem_cons_iff, or_assoc]

theorem judgmentOf_eq_block {judgment : Judgment} :
    judgmentOf judgment results = .block ↔ (judgment = .block ∨ ∃ r ∈ results, r.judgment = .block) ∧
      judgment ≠ .pass ∧ ∀ r ∈ results, r.judgment ≠ .pass := by
  induction results generalizing judgment with
  | nil => simp +contextual [judgmentOf]
  | cons r results ih =>
    have hpass := Judgment.max_eq_pass (a := judgment) (b := r.judgment)
    rw [judgmentOf, List.foldl_cons, ← judgmentOf, ih, Judgment.max_eq_block, List.exists_mem_cons_iff,
      List.forall_mem_cons]
    tauto

/-- The verdict on all results is that on the greatest judgment and the sum. -/
theorem verdictOf_eq_allIn (results : List ChkResult) :
    verdictOf conf seen (judgmentOf .undefined results) (weight results) = allIn conf seen results := by
  have hpass : judgmentOf .undefined results = .pass ↔ ∃ r ∈ results, r.judgment = .pass := by
    rw [judgmentOf_eq_pass]
    simp
  unfold verdictOf allIn
  by_cases hp : ∃ r ∈ results, r.judgment = .pass
  · rw [if_pos (hpass.mpr hp), if_pos hp]
  · have hblock : judgmentOf .undefined results = .block ↔ ∃ r ∈ results, r.judgment = .block := by
      rw [judgmentOf_eq_block]
      push Not at hp
      simpa using fun _ _ _ => hp
    rw [if_neg (mt hpass.mp hp), if_neg hp]
    simp only [hblock]

/-! ### What is still to come -/

/-- A check and the results that have not come yet. -/
structure Pending where
  /-- The check, as it is registered. -/
  check : Check
  /-- The results. -/
  results : List ChkResult

/-- Each result but the last has `wait`, and the last has not. -/
def Ends (check : Check) : List ChkResult → Prop
  | [] => True
  | r :: rs => (r.wait = true ↔ rs ≠ []) ∧ (r.definitive = true → rs = [] ∧ check.definitive = true) ∧ Ends check rs

/-- What is still to come is of the kind that a check sends. -/
structure Pending.Sound (p : Pending) : Prop where
  /-- The last is the final one. -/
  ends : Ends p.check p.results
  /-- No weight is negative. -/
  weight_nonneg : ∀ r ∈ p.results, 0 ≤ r.weight
  /-- Only a definitive check lets a request through, or blocks it. -/
  definitive : ∀ r ∈ p.results, r.judgment = .pass ∨ r.judgment = .block → p.check.definitive = true

/-- All is still to come. -/
def Answers.pending (a : Answers) : Pending := ⟨a.check, a.results⟩

theorem ends_append_final {check : Check} {rs : List ChkResult} {r : ChkResult}
    (hrs : ∀ r ∈ rs, r.wait = true ∧ r.definitive = false)
    (hr : r.wait = false ∧ (r.definitive = true → check.definitive = true)) : Ends check (rs ++ [r]) := by
  induction rs with
  | nil => exact ⟨by simp [hr.1], fun h => ⟨rfl, hr.2 h⟩, trivial⟩
  | cons r' rs ih =>
    obtain ⟨hwait, hdef⟩ := hrs r' List.mem_cons_self
    exact ⟨by simp [hwait], by simp [hdef], ih fun r h => hrs r (List.mem_cons_of_mem _ h)⟩

theorem Answers.sound (a : Answers) : a.pending.Sound :=
  ⟨ends_append_final a.wait_partials a.wait_final, a.weight_nonneg, a.definitive⟩

/-- One if the check is running. -/
def Pending.running (p : Pending) : ℕ := if p.results = [] then 0 else 1

/-- One if it is running and definitive. -/
def Pending.definitives (p : Pending) : ℕ := if p.check.definitive = true then p.running else 0

/-- The loop waits for these results. -/
structure Awaits (conf : Config) (ps : List Pending) (l : Loop) : Prop where
  /-- They are of the kind that checks send. -/
  sound : ∀ p ∈ ps, p.Sound
  /-- `checks_running` is the number of checks with results to come. -/
  checksRunning : l.checksRunning = tally Pending.running ps
  /-- `definitives_running` is no less than the number of definitive ones. -/
  definitives : (tally Pending.definitives ps : ℤ) ≤ l.definitivesRunning
  /-- The weight is not negative. -/
  nonneg : 0 ≤ l.suspWeight
  /-- There is time. -/
  ta : l.ta ≠ []
  /-- If the loop has stopped, it has what decides. -/
  stopped : l.definitive = true → l.Decides conf

variable {ps : List Pending}

theorem addInt_eq {a b : ℤ} (ha : 0 ≤ a) (hb : 0 ≤ b) (h : a + b ≤ 2147483647) : addInt a b = a + b :=
  Int.bmod_eq_of_le (by omega) (by omega)

/-- One result is taken in. -/
theorem Awaits.hear (h : Awaits conf ps l) (hgo : l.definitive = false) {i : ℕ} {p : Pending} (hp : ps[i]? = some p)
    {r : ChkResult} {rs : List ChkResult} (hr : p.results = r :: rs) (hfits : l.suspWeight + r.weight ≤ 2147483647) :
    let l' := l.hear conf (some r)
    Awaits conf (ps.set i ⟨p.check, rs⟩) l' ∧ l'.judgment = l.judgment.max r.judgment ∧
      l'.suspWeight = l.suspWeight + r.weight := by
  have hsound := h.sound p (List.mem_of_getElem? hp)
  have hweight : 0 ≤ r.weight := hsound.weight_nonneg r (hr ▸ List.mem_cons_self)
  have hsum : addInt l.suspWeight r.weight = l.suspWeight + r.weight := addInt_eq h.nonneg hweight hfits
  obtain ⟨hwait, hdef, hends⟩ : Ends p.check (r :: rs) := hr ▸ hsound.ends
  obtain ⟨b, hsettle, hb⟩ := Loop.settle_eq conf (l.take r)
  have hrunning := tally_set (f := Pending.running) hp ⟨p.check, rs⟩
  have hdefinitives := tally_set (f := Pending.definitives) hp ⟨p.check, rs⟩
  simp only [Pending.definitives, Pending.running, hr, reduceCtorEq, if_false] at hrunning hdefinitives
  simp only [Loop.hear, hsettle]
  refine ⟨⟨?_, ?_, ?_, ?_, h.ta, ?_⟩, rfl, hsum⟩
  · intro q hq
    rcases List.mem_or_eq_of_mem_set hq with hq | rfl
    · exact h.sound q hq
    · exact ⟨hends, fun r' h' => hsound.weight_nonneg r' (hr ▸ List.mem_cons_of_mem _ h'),
        fun r' h' => hsound.definitive r' (hr ▸ List.mem_cons_of_mem _ h')⟩
  · -- a final result, if it is the last
    have hcount := h.checksRunning
    simp only [Loop.take, hwait]
    split_ifs at hrunning ⊢ <;> first | contradiction | omega
  · have hcount := h.definitives
    simp only [Loop.take]
    split_ifs at hdefinitives ⊢ with hd <;> first | omega | exact absurd (hdef hd) (by simp_all)
  · simp only [Loop.take, hsum]
    have := h.nonneg
    omega
  · intro hstop
    exact (hb hstop).resolve_left (by simp [Loop.take, hgo])

theorem exists_pending (hi : Interleave (ps.map Pending.results) results) {r : ChkResult} (hr : r ∈ results) :
    ∃ p ∈ ps, r ∈ p.results := by
  simpa using hi.perm.mem_iff.mp hr

theorem weight_nonneg (h : ∀ r ∈ results, 0 ≤ r.weight) : 0 ≤ weight results := by
  induction results with
  | nil => exact Int.le_refl 0
  | cons r results ih =>
    have hr := h r List.mem_cons_self
    have hrest := ih fun r' hr' => h r' (List.mem_cons_of_mem _ hr')
    simp only [weight]
    omega

theorem Awaits.nonneg_of_mem (h : Awaits conf ps l) (hi : Interleave (ps.map Pending.results) results) :
    ∀ r ∈ results, 0 ≤ r.weight := by
  intro r hr
  obtain ⟨p, hp, hrp⟩ := exists_pending hi hr
  exact (h.sound p hp).weight_nonneg r hrp

/-- When the loop has stopped, what is still to come does not change the verdict. -/
theorem Awaits.verdictOf_stopped (h : Awaits conf ps l) (hblock : 0 ≤ conf.blockThreshold)
    (hstop : l.definitive = true) (hi : Interleave (ps.map Pending.results) results) :
    verdictOf conf seen (judgmentOf l.judgment results) (l.suspWeight + weight results) =
      verdictOf conf seen l.judgment l.suspWeight := by
  have hnonneg : 0 ≤ weight results := weight_nonneg (h.nonneg_of_mem hi)
  rcases h.stopped hstop with hpass | ⟨hzero, hreach⟩
  · have hpass' : judgmentOf l.judgment results = .pass := judgmentOf_eq_pass.mpr (.inl hpass)
    rw [verdictOf, verdictOf, if_pos hpass, if_pos hpass']
  · -- no definitive check is running, so what is to come neither passes nor blocks
    have hnone : tally Pending.definitives ps = 0 := by
      have := h.definitives
      omega
    have hmild : ∀ r ∈ results, ¬ (r.judgment = .pass ∨ r.judgment = .block) := by
      intro r hr hj
      obtain ⟨p, hp, hrp⟩ := exists_pending hi hr
      have hdef := (h.sound p hp).definitive r hrp hj
      have hrunning : p.definitives = 1 := by
        rw [Pending.definitives, if_pos hdef, Pending.running, if_neg (List.ne_nil_of_mem hrp)]
      have := tally_eq_zero.mp hnone p hp
      omega
    have hpass : judgmentOf l.judgment results = .pass ↔ l.judgment = .pass := by
      rw [judgmentOf_eq_pass]
      exact or_iff_left fun ⟨r, hr, hj⟩ => hmild r hr (.inl hj)
    have hblocks : judgmentOf l.judgment results = .block ↔ l.judgment = .block := by
      rw [judgmentOf_eq_block]
      refine ⟨fun hj => hj.1.resolve_right fun ⟨r, hr, hb⟩ => hmild r hr (.inr hb), fun hj => ⟨.inl hj, ?_, ?_⟩⟩
      · simp [hj]
      · exact fun r hr hp => hmild r hr (.inl hp)
    simp only [verdictOf, hpass, hblocks]
    rcases hreach with ⟨hne, hge⟩ | ⟨heq, hge⟩
    · have hpos : conf.blockThreshold > 0 ∧ l.suspWeight ≥ conf.blockThreshold := ⟨by omega, hge⟩
      have hpos' : conf.blockThreshold > 0 ∧ l.suspWeight + weight results ≥ conf.blockThreshold :=
        ⟨by omega, by omega⟩
      rw [if_pos hpos, if_pos hpos']
    · have hge' : l.suspWeight + weight results ≥ conf.greyThreshold := by omega
      simp only [heq, gt_iff_lt, Int.lt_irrefl, false_and, if_false, if_pos hge, if_pos hge']

/-! ### The loop to its end -/

/-- The loop, as it takes in messages. -/
def hearing (conf : Config) (l : Loop) (messages : List (Option ChkResult)) : Loop :=
  messages.foldl (fun l m => if l.ended then l else l.hear conf m) l

theorem hearing_of_ended (hended : l.ended = true) (messages : List (Option ChkResult)) :
    hearing conf l messages = l := by
  induction messages with
  | nil => rfl
  | cons m messages ih => rwa [hearing, List.foldl_cons, if_pos hended]

/-- While no time limit is reached, the loop takes in the messages. -/
theorem listen_eq_hearing (conf : Config) {start : Timespec} {ta : TmoutAction} {next : List TmoutAction} (hta : l.ta = ta :: next)
    {turns : List Turn} (htime : ∀ t ∈ turns, msDiff t.now start < ta.timeout) :
    listen conf start l turns = hearing conf l (turns.filterMap (·.message)) := by
  induction turns generalizing l with
  | nil => rfl
  | cons t turns ih =>
    have hrest := fun t' ht' => htime t' (List.mem_cons_of_mem t ht')
    have hin := htime t List.mem_cons_self
    rw [listen, List.foldl_cons, ← listen]
    by_cases hended : l.ended = true
    · rw [if_pos hended, ih hta hrest, hearing_of_ended hended, hearing_of_ended hended]
    · rw [if_neg hended]
      cases hm : t.message with
      | none =>
        have hturn : l.turn conf start t = l := by simp only [Loop.turn, hta, if_pos hin, hm]
        rw [hturn, ih hta hrest, List.filterMap_cons_none hm]
      | some m =>
        have hturn : l.turn conf start t = l.hear conf m := by simp only [Loop.turn, hta, if_pos hin, hm]
        rw [hturn, ih ((Loop.ta_hear conf l m).trans hta) hrest, List.filterMap_cons_some hm, hearing, hearing,
          List.foldl_cons, if_neg hended]

/-- The loop ends, with the verdict on all results. -/
theorem Awaits.hearing (seen : Bool) (h : Awaits conf ps l) (hblock : 0 ≤ conf.blockThreshold)
    (hi : Interleave (ps.map Pending.results) results) (hfits : l.suspWeight + weight results ≤ 2147483647) :
    let l' := Worker.hearing conf l (results.map some)
    l'.ended = true ∧ verdictOf conf seen l'.judgment l'.suspWeight =
      verdictOf conf seen (judgmentOf l.judgment results) (l.suspWeight + weight results) := by
  generalize hls : ps.map Pending.results = ls at hi
  -- by induction on what is still to come; `Awaits` is kept by each result
  induction hi generalizing ps l with
  | nil hnil =>
    have hzero : tally Pending.running ps = 0 := by
      refine tally_eq_zero.mpr fun p hp => if_pos (hnil _ ?_)
      exact hls ▸ List.mem_map_of_mem hp
    refine ⟨?_, by simp [Worker.hearing, judgmentOf, weight]⟩
    simp [Worker.hearing, Loop.ended, h.checksRunning, hzero]
  | cons hget hrest ih =>
    rename_i ls i r rs results
    subst hls
    obtain ⟨p, hp, hr⟩ : ∃ p, ps[i]? = some p ∧ p.results = r :: rs := by
      simpa [List.getElem?_map, Option.map_eq_some_iff] using hget
    by_cases hstop : l.definitive = true
    · have hended : l.ended = true := by simp [Loop.ended, hstop]
      rw [hearing_of_ended hended]
      exact ⟨hended, (h.verdictOf_stopped hblock hstop (.cons hget hrest)).symm⟩
    · have hall := h.nonneg_of_mem (.cons hget hrest)
      have hweight : 0 ≤ weight results := weight_nonneg fun r hr => hall r (List.mem_cons_of_mem _ hr)
      have hsum : weight (r :: results) = r.weight + weight results := rfl
      rw [hsum] at hfits ⊢
      have hended : ¬ l.ended = true := by
        have hone : p.running = 1 := by rw [Pending.running, if_neg (by simp [hr])]
        have hle := le_tally (f := Pending.running) (List.mem_of_getElem? hp)
        have hcount := h.checksRunning
        simp only [Loop.ended, hstop, h.ta, Bool.false_or, Bool.or_eq_true, decide_eq_true_eq, List.isEmpty_iff,
          or_false]
        omega
      obtain ⟨hnext, hj, hw⟩ := h.hear (by simpa using hstop) hp hr (by omega)
      have hset : (ps.map Pending.results).set i rs = (ps.set i ⟨p.check, rs⟩).map Pending.results := by
        rw [List.map_set]
      have := ih hnext (by omega) hset.symm
      rw [hj, hw, Int.add_assoc] at this
      rw [Worker.hearing, List.map_cons, List.foldl_cons, if_neg hended]
      exact this

/-! ### The verdict -/

theorem tally_running_pending (family : List Answers) :
    tally Pending.running (family.map Answers.pending) = family.length := by
  induction family with
  | nil => rfl
  | cons a family ih =>
    have hone : a.pending.running = 1 := if_neg (by simp [Answers.pending, Answers.results])
    simp only [List.map_cons, tally_cons, List.length_cons, hone]
    omega

theorem tally_definitives_pending (family : List Answers) :
    tally Pending.definitives (family.map Answers.pending) = (family.map Answers.check).countP (·.definitive) := by
  induction family with
  | nil => rfl
  | cons a family ih =>
    have hone : a.pending.definitives = if a.check.definitive = true then 1 else 0 := by
      simp [Pending.definitives, Pending.running, Answers.pending, Answers.results]
    simp only [List.map_cons, tally_cons, List.countP_cons, hone]
    omega

/-- The loop awaits all results, as it begins. -/
theorem awaits_init (conf : Config) (family : List Answers) {ta : List TmoutAction} (hta : ta ≠ []) :
    Awaits conf (family.map Answers.pending) (.init (family.map Answers.check) ta) := by
  refine ⟨?_, ?_, ?_, Int.le_refl 0, hta, by simp [Loop.init]⟩
  · intro p hp
    obtain ⟨a, -, rfl⟩ := List.mem_map.mp hp
    exact a.sound
  · simp [Loop.init, tally_running_pending]
  · simp [Loop.init, tally_definitives_pending]

theorem weight_perm {results' : List ChkResult} (h : results.Perm results') : weight results = weight results' := by
  induction h with
  | nil => rfl
  | cons r _ ih => simp only [weight, ih]
  | swap r r' results =>
    simp only [weight]
    omega
  | trans _ _ ih ih' => exact ih.trans ih'

theorem allIn_perm {results' : List ChkResult} (h : results.Perm results') :
    allIn conf seen results = allIn conf seen results' := by
  simp only [allIn, weight_perm h, h.mem_iff]

/-- **The verdict is that on all results, whatever the order in which they arrive and whether
or not the loop stops before the last.** -/
theorem action_eq_allIn (hblock : 0 ≤ conf.blockThreshold) {family : List Answers} (hne : family ≠ [])
    (hfits : weight (family.flatMap Answers.results) ≤ 2147483647) {results : List ChkResult}
    (hi : Interleave (family.map Answers.results) results) {ta : Option (List TmoutAction)} {first : TmoutAction}
    {next : List TmoutAction} (hta : timeouts conf ta = first :: next) {start : Timespec} {turns : List Turn}
    (htime : ∀ t ∈ turns, msDiff t.now start < first.timeout)
    (hturns : turns.filterMap (·.message) = results.map some)
    (hshort : ¬ (seen = true ∧ conf.matchShortcut = true)) :
    (listen conf start (.init (family.map Answers.check) (timeouts conf ta)) turns).ended = true ∧
      (testTuple conf (family.map Answers.check) seen ta start turns).entry.action =
        allIn conf seen (family.flatMap Answers.results) := by
  have hperm : results.Perm (family.flatMap Answers.results) := List.flatMap_def ▸ hi.perm
  have hpending : Interleave ((family.map Answers.pending).map Pending.results) results := by
    rw [List.map_map]
    exact hi
  have hnone : shortcut conf (family.map Answers.check) seen = none := by
    simp only [shortcut, List.length_map, List.length_eq_zero_iff, hne, or_false, if_neg hshort, if_false]
  have hlisten := listen_eq_hearing conf (l := .init (family.map Answers.check) (timeouts conf ta)) hta htime
  have hawaits := awaits_init conf family (show timeouts conf ta ≠ [] by simp [hta])
  obtain ⟨hended, hverdict⟩ := hawaits.hearing seen hblock hpending
    (by simpa [Loop.init, weight_perm hperm] using hfits)
  rw [hturns] at hlisten
  simp only [testTuple, hnone, hlisten]
  refine ⟨hended, ?_⟩
  rw [finish, Loop.retvalue_verdict, hverdict, ← allIn_perm hperm, ← verdictOf_eq_allIn]
  simp [Loop.init]

/-- A result of `dnsbl`: the client is on a list. -/
def listed (wait : Bool) (weight : ℕ) : ChkResult := ⟨false, wait, weight, .suspicious, none, some "dnsbl"⟩

/-- The result of `dnswl` if the client is on no list. -/
def unlisted : ChkResult := ⟨false, false, 0, .undefined, none, some "dnswl"⟩

/-- A `dnsbl` check that finds the client on two lists, and a `dnswl` check that does not. -/
def listedTwice (w w' : ℕ) : List Answers :=
  [{ check := ⟨.dnsbl, false⟩
     partials := [listed true w]
     final := listed false w'
     wait_partials := by simp [listed]
     wait_final := by simp [listed]
     weight_nonneg := by simp [listed]
     definitive := by simp [listed] },
   { check := ⟨.dnswl, true⟩
     partials := []
     final := unlisted
     wait_partials := by simp
     wait_final := by simp [unlisted]
     weight_nonneg := by simp [unlisted]
     definitive := by simp }]

/-- The result of `dnswl` comes between those of `dnsbl`. -/
theorem interleave_listedTwice (w w' : ℕ) :
    Interleave ((listedTwice w w').map Answers.results) [listed true w, unlisted, listed false w'] :=
  .cons (i := 0) rfl (.cons (i := 1) rfl (.cons (i := 0) rfl (.nil (by simp [listedTwice]))))

/-- Each is received a millisecond after the start. -/
def received (results : List ChkResult) : List Turn := results.map fun r => ⟨⟨0, 1000000⟩, some (some r)⟩

/-- Two lists of weight 2, and a threshold of 3 to block. -/
theorem action_eq_allIn_block :
    (testTuple ⟨1, 3, false, false, false, 5000, "", ""⟩ ((listedTwice 2 2).map Answers.check) false none ⟨0, 0⟩
      (received [listed true 2, unlisted, listed false 2])).entry.action = .block := by
  let conf : Config := ⟨1, 3, false, false, false, 5000, "", ""⟩
  let turns := received [listed true 2, unlisted, listed false 2]
  have hta : timeouts conf none = [⟨5000, none⟩] := rfl
  have htime : ∀ t ∈ turns, msDiff t.now ⟨0, 0⟩ < 5000 := by decide
  have hturns : turns.filterMap (·.message) = [listed true 2, unlisted, listed false 2].map some := rfl
  have h := action_eq_allIn (show 0 ≤ conf.blockThreshold by decide) (List.cons_ne_nil _ _) (by decide)
    (interleave_listedTwice 2 2) hta htime hturns (show ¬ (false = true ∧ _) by simp)
  exact h.2.trans (by decide)

/-- Without a check the tuple is greylisted, though no weight reaches the threshold of 1. And
two lists of weight 2³¹ − 1 together have a weight that is negative as an `int`, and the tuple is trusted. -/
theorem action_ne_allIn :
    (testTuple ⟨1, 0, true, false, false, 5000, "", ""⟩ [] false none ⟨0, 0⟩ []).entry.action = .grey ∧
      allIn ⟨1, 0, true, false, false, 5000, "", ""⟩ false [] = .trust ∧
    Interleave ((listedTwice 2147483647 2147483647).map Answers.results)
      [listed true 2147483647, unlisted, listed false 2147483647] ∧
      (testTuple ⟨1, 3, false, false, false, 5000, "", ""⟩ ((listedTwice 2147483647 2147483647).map Answers.check)
        false none ⟨0, 0⟩
        (received [listed true 2147483647, unlisted, listed false 2147483647])).entry.action = .trust ∧
      allIn ⟨1, 3, false, false, false, 5000, "", ""⟩ false
        ((listedTwice 2147483647 2147483647).flatMap Answers.results) = .block :=
  ⟨by decide, by decide, interleave_listedTwice _ _, by decide, by decide⟩

end Gross.Worker
