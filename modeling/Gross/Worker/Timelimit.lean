import Gross.Worker.TestTuple

/-!
# The time that the checks are given

`test_tuple` is given a list of timeouts, or makes one of its own. It tells the checks
how much time they have (`edict->timelimit`), the sum of the timeouts. Its own loop counts
each timeout from the beginning: when the time used has come to the first, it takes the
next, and when there is none left it waits no more.

## The model

`timelimit` is what the checks are told, and `listen` the loop (`Gross.Worker.TestTuple`),
which is given what the clock says in each turn. `StopsAt T` is that `T` is the time from
which the loop does not wait: before it there is a timeout left, and once each of them
could have been taken the loop has ended.

## What is proved

* `stopsAt_iff` — the loop stops at the greatest of the timeouts.
* `stopsAt_timelimit_iff` — the checks are told that time exactly if there is one timeout.

## Honest scope

The sum is that of integers; one that is no `int` is not defined in C.
-/

namespace Gross.Worker

open Utils

/-- `edict->timelimit` -/
def timelimit (ta : List TmoutAction) : ℤ := ta.foldl (fun limit a => limit + a.timeout) 0

/-- The time used, when a turn begins. -/
def Turn.timeused (start : Timespec) (t : Turn) : ℤ := msDiff t.now start

/-- The list that `sjsms_connection` gives to `test_tuple`. -/
def sjsmsTimeouts (conf : Config) : List TmoutAction :=
  if conf.queryTimelimit > 1000 then [⟨1000, some 0⟩, ⟨conf.queryTimelimit, none⟩] else [⟨conf.queryTimelimit, none⟩]

/-- The turns are those of a clock that does not go back. -/
structure Ticking (start : Timespec) (turns : List Turn) : Prop where
  /-- The clock gives times. -/
  valid : ∀ t ∈ turns, t.now.Valid
  /-- It does not go back. -/
  sorted : (turns.map (Turn.timeused start)).Pairwise (· ≤ ·)

/-- The time from which the loop stops waiting is `T`: it has not run out of timeouts while the time
used is less, and has ended when the clock has shown as much as often as there are timeouts. -/
structure StopsAt (conf : Config) (checklist : List Check) (start : Timespec) (ta : List TmoutAction) (T : ℤ) : Prop where
  /-- It goes on before. -/
  before : ∀ turns, Ticking start turns → (∀ t ∈ turns, t.timeused start < T) →
    (listen conf start (.init checklist ta) turns).ta ≠ []
  /-- It has ended after. -/
  after : ∀ turns, Ticking start turns → ta.length ≤ turns.countP (T ≤ Turn.timeused start ·) →
    (listen conf start (.init checklist ta) turns).ended = true

variable {conf : Config} {checklist : List Check} {start : Timespec} {ta : List TmoutAction} {T : ℤ}

/-! ### A run of turns -/

/-- The timeouts after a turn: one less, if its time has come. -/
theorem Loop.ta_turn (conf : Config) (start : Timespec) (l : Loop) (t : Turn) :
    (l.turn conf start t).ta =
      match l.ta with
      | [] => []
      | a :: next => if t.timeused start < a.timeout then a :: next else next := by
  unfold turn Turn.timeused
  cases hta : l.ta with
  | nil => exact hta
  | cons a next =>
    dsimp only
    split_ifs with hlt
    · cases t.message with
      | none => exact hta
      | some message => exact (ta_hear conf l message).trans hta
    · cases a.action <;> rfl

theorem listen_ended {l : Loop} (h : l.ended = true) (turns : List Turn) : listen conf start l turns = l := by
  induction turns with
  | nil => rfl
  | cons t turns ih =>
    rw [listen, List.foldl_cons, if_pos h]
    exact ih

theorem listen_cons {l : Loop} (h : ¬ l.ended = true) (t : Turn) (turns : List Turn) :
    listen conf start l (t :: turns) = listen conf start (l.turn conf start t) turns := by
  rw [listen, List.foldl_cons, if_neg h]
  rfl

/-- A timeout whose time has not come is not taken. -/
theorem listen_ta_ne_nil {l : Loop} {a : TmoutAction} (ha : a ∈ l.ta) {turns : List Turn}
    (hturns : ∀ t ∈ turns, t.timeused start < a.timeout) : (listen conf start l turns).ta ≠ [] := by
  induction turns generalizing l with
  | nil => exact List.ne_nil_of_mem ha
  | cons t turns ih =>
    obtain ⟨ht, hturns⟩ := List.forall_mem_cons.mp hturns
    by_cases hend : l.ended = true
    · rw [listen_ended hend]
      exact List.ne_nil_of_mem ha
    · rw [listen_cons hend]
      refine ih ?_ hturns
      rw [Loop.ta_turn]
      cases hta : l.ta with
      | nil => rwa [hta] at ha
      | cons b next =>
        rw [hta, List.mem_cons] at ha
        dsimp only
        split_ifs with hb
        · exact List.mem_cons.mpr ha
        · refine ha.resolve_left ?_
          rintro rfl
          exact hb ht

/-- When each timeout could have been taken, the loop has ended. -/
theorem listen_ended_of_countP {l : Loop} (hta : ∀ a ∈ l.ta, a.timeout ≤ T) {turns : List Turn}
    (hcount : l.ta.length ≤ turns.countP (T ≤ Turn.timeused start ·)) : (listen conf start l turns).ended = true := by
  induction turns generalizing l with
  | nil =>
    have hnil : l.ta = [] := List.length_eq_zero_iff.mp (Nat.le_zero.mp hcount)
    simp [listen, Loop.ended, hnil]
  | cons t turns ih =>
    by_cases hend : l.ended = true
    · rwa [listen_ended hend]
    · rw [listen_cons hend]
      rw [List.countP_cons] at hcount
      cases h : l.ta with
      | nil => exact absurd (by simp [Loop.ended, h]) hend
      | cons b next =>
        rw [h, List.forall_mem_cons] at hta
        rw [h, List.length_cons] at hcount
        have hturn := Loop.ta_turn conf start l t
        rw [h] at hturn
        dsimp only at hturn
        split_ifs at hturn with hb
        · -- the time of the first timeout has not come, let alone `T`
          refine ih (by rw [hturn]; exact List.forall_mem_cons.mpr hta) ?_
          rw [hturn, List.length_cons]
          have : ¬ T ≤ t.timeused start := by
            have := hta.1
            omega
          simpa [this] using hcount
        · refine ih (by rw [hturn]; exact hta.2) ?_
          rw [hturn]
          split_ifs at hcount
          · omega
          · omega

/-- Without a message, a turn changes nothing but the timeouts. -/
theorem Loop.turn_quiet (conf : Config) (start : Timespec) (l : Loop) {t : Turn} (ht : t.message = none) :
    (l.turn conf start t).definitive = l.definitive ∧ (l.turn conf start t).checksRunning = l.checksRunning := by
  unfold turn
  cases l.ta with
  | nil => exact ⟨rfl, rfl⟩
  | cons a next =>
    rw [ht]
    dsimp only
    split_ifs
    · exact ⟨rfl, rfl⟩
    · cases a.action <;> exact ⟨rfl, rfl⟩

/-- Without messages the loop ends only when there is no timeout left. -/
theorem listen_quiet {l : Loop} (hgo : l.definitive = false) (hrunning : 0 < l.checksRunning) {turns : List Turn}
    (hturns : ∀ t ∈ turns, t.message = none) (hend : (listen conf start l turns).ended = true) :
    (listen conf start l turns).ta = [] := by
  induction turns generalizing l with
  | nil => simpa [listen, Loop.ended, hgo, Int.not_le.mpr hrunning] using hend
  | cons t turns ih =>
    obtain ⟨ht, hturns⟩ := List.forall_mem_cons.mp hturns
    by_cases h : l.ended = true
    · rw [listen_ended h]
      simpa [Loop.ended, hgo, Int.not_le.mpr hrunning] using h
    · rw [listen_cons h] at hend ⊢
      obtain ⟨hdef, hchecks⟩ := l.turn_quiet conf start ht
      exact ih (hdef.trans hgo) (hchecks ▸ hrunning) hturns hend

/-! ### The greatest timeout -/

/-- The greatest of the timeouts. -/
def latest : List TmoutAction → ℤ
  | [] => 0
  | a :: ta => max a.timeout (latest ta)

theorem le_latest {a : TmoutAction} (ha : a ∈ ta) : a.timeout ≤ latest ta := by
  induction ta with
  | nil => cases ha
  | cons b ta ih =>
    rcases List.mem_cons.mp ha with rfl | ha
    · exact Int.le_max_left _ _
    · exact Int.le_trans (ih ha) (Int.le_max_right _ _)

theorem exists_latest (hne : ta ≠ []) (hpos : ∀ a ∈ ta, 0 < a.timeout) : ∃ a ∈ ta, a.timeout = latest ta := by
  induction ta with
  | nil => exact absurd rfl hne
  | cons b ta ih =>
    obtain ⟨hb, hpos⟩ := List.forall_mem_cons.mp hpos
    rcases Int.le_total (latest ta) b.timeout with hle | hle
    · exact ⟨b, List.mem_cons_self, (Int.max_eq_left hle).symm⟩
    · have hta : ta ≠ [] := by
        rintro rfl
        exact Int.not_le.mpr hb hle
      obtain ⟨a, ha, heq⟩ := ih hta hpos
      exact ⟨a, List.mem_cons_of_mem _ ha, heq.trans (Int.max_eq_right hle).symm⟩

/-- Turns without a message, at one time. -/
def quietTurns (start : Timespec) (e : ℤ) (n : ℕ) : List Turn := List.replicate n ⟨tsSum start (mstotimespec e), none⟩

theorem ticking_quietTurns (hstart : start.Valid) {e : ℤ} (hlo : 0 ≤ e) (hhi : e < 2147483648) (n : ℕ) :
    Ticking start (quietTurns start e n) ∧ (∀ t ∈ quietTurns start e n, t.timeused start = e) ∧
      ∀ t ∈ quietTurns start e n, t.message = none := by
  obtain ⟨hms, hvalid⟩ := ns_mstotimespec hlo
  obtain ⟨hsum, hvalid⟩ := ns_tsSum hstart hvalid
  have hused : ∀ t ∈ quietTurns start e n, t.timeused start = e := by
    intro t ht
    rw [List.eq_of_mem_replicate ht]
    refine msDiff_eq ?_ (by omega) hhi
    rw [hsum, hms]
    omega
  refine ⟨⟨fun t ht => ?_, ?_⟩, hused, fun t ht => ?_⟩
  · rw [List.eq_of_mem_replicate ht]
    exact hvalid
  · rw [List.map_congr_left hused, List.map_const']
    exact List.pairwise_replicate.mpr (Or.inr (Int.le_refl e))
  · rw [List.eq_of_mem_replicate ht]

theorem le_countP_quietTurns {e : ℤ} {n : ℕ} (hused : ∀ t ∈ quietTurns start e n, t.timeused start = e) (hle : T ≤ e) :
    n ≤ (quietTurns start e n).countP (T ≤ Turn.timeused start ·) := by
  have hall : ∀ t ∈ quietTurns start e n, decide (T ≤ t.timeused start) = true :=
    fun t ht => decide_eq_true (by rwa [hused t ht])
  rw [List.countP_eq_length.mpr hall]
  exact Nat.le_of_eq List.length_replicate.symm

/-- **The loop stops waiting at the greatest of its timeouts.** -/
theorem stopsAt_iff (hchecks : checklist ≠ []) (hstart : start.Valid) (hne : ta ≠ [])
    (hta : ∀ a ∈ ta, 0 < a.timeout ∧ a.timeout < 2147483648) :
    StopsAt conf checklist start ta T ↔ T = latest ta := by
  obtain ⟨a, ha, hlatest⟩ := exists_latest hne fun a ha => (hta a ha).1
  obtain ⟨hpos, hint⟩ := hta a ha
  have hrunning : 0 < (Loop.init checklist ta).checksRunning :=
    Int.natCast_pos.mpr (List.length_pos_iff.mpr hchecks)
  constructor
  · intro h
    rcases Int.lt_trichotomy T (latest ta) with hlt | heq | hgt
    · -- a millisecond before the greatest timeout it is still waiting
      exfalso
      obtain ⟨hticking, hused, hquiet⟩ := ticking_quietTurns hstart (e := latest ta - 1) (by omega) (by omega) ta.length
      have hended := h.after _ hticking (le_countP_quietTurns hused (by omega))
      have hnil := listen_quiet rfl hrunning hquiet hended
      exact listen_ta_ne_nil ha (fun t ht => by rw [hused t ht]; omega) hnil
    · exact heq
    · exfalso
      obtain ⟨hticking, hused, hquiet⟩ := ticking_quietTurns hstart (e := latest ta) (by omega) (by omega) ta.length
      have hended : (listen conf start (.init checklist ta) _).ended = true :=
        listen_ended_of_countP (fun a ha => le_latest ha) (le_countP_quietTurns hused (Int.le_refl _))
      exact h.before _ hticking (fun t ht => by rw [hused t ht]; exact hgt) (listen_quiet rfl hrunning hquiet hended)
  · rintro rfl
    refine ⟨fun turns _ hturns => ?_, fun turns _ hcount => ?_⟩
    · exact listen_ta_ne_nil ha fun t ht => hlatest ▸ hturns t ht
    · exact listen_ended_of_countP (fun a ha => le_latest ha) hcount

theorem timelimit_cons (a : TmoutAction) (ta : List TmoutAction) :
    timelimit (a :: ta) = a.timeout + timelimit ta := by
  have hadd : ∀ (ta : List TmoutAction) (n : ℤ), ta.foldl (fun limit a => limit + a.timeout) n = n + timelimit ta := by
    intro ta
    induction ta with
    | nil => exact fun n => (Int.add_zero n).symm
    | cons b ta ih =>
      intro n
      rw [timelimit, List.foldl_cons, List.foldl_cons, ih, ih]
      omega
  rw [timelimit, List.foldl_cons, hadd, Int.zero_add]

theorem latest_le_timelimit (hpos : ∀ a ∈ ta, 0 < a.timeout) : 0 ≤ timelimit ta ∧ latest ta ≤ timelimit ta := by
  induction ta with
  | nil => exact ⟨Int.le_refl 0, Int.le_refl 0⟩
  | cons b ta ih =>
    obtain ⟨hb, hpos⟩ := List.forall_mem_cons.mp hpos
    have hrest := ih hpos
    rw [timelimit_cons, latest]
    omega

/-- With two timeouts or more, the sum is greater than each of them. -/
theorem timelimit_eq_latest_iff (hne : ta ≠ []) (hpos : ∀ a ∈ ta, 0 < a.timeout) :
    timelimit ta = latest ta ↔ ta.length = 1 := by
  cases ta with
  | nil => exact absurd rfl hne
  | cons a ta =>
    obtain ⟨ha, hpos⟩ := List.forall_mem_cons.mp hpos
    have hle := latest_le_timelimit hpos
    rw [timelimit_cons, latest, List.length_cons]
    cases ta with
    | nil =>
      rw [latest, Int.max_eq_left (Int.le_of_lt ha)]
      exact ⟨fun _ => rfl, fun _ => Int.add_zero _⟩
    | cons b ta =>
      have hb : 0 < b.timeout := hpos b List.mem_cons_self
      have hlt : b.timeout ≤ latest (b :: ta) := le_latest List.mem_cons_self
      rw [List.length_cons]
      omega

/-- **The checks are given the time that `test_tuple` waits** exactly if there is one timeout, or nothing to
wait for; with more timeouts they are given more. -/
theorem stopsAt_timelimit_iff (conf : Config) (checklist : List Check) (hstart : start.Valid) (hne : ta ≠ [])
    (hta : ∀ a ∈ ta, 0 < a.timeout ∧ a.timeout < 2147483648) :
    StopsAt conf checklist start ta (timelimit ta) ↔ checklist = [] ∨ ta.length = 1 := by
  by_cases hchecks : checklist = []
  · subst hchecks
    have hended : (Loop.init [] ta).ended = true := by simp [Loop.ended, Loop.init]
    refine iff_of_true ⟨fun turns _ _ => ?_, fun turns _ _ => ?_⟩ (Or.inl rfl)
    · rw [listen_ended hended]
      exact hne
    · rw [listen_ended hended]
      exact hended
  · rw [stopsAt_iff hchecks hstart hne hta, timelimit_eq_latest_iff hne fun a ha => (hta a ha).1]
    exact (or_iff_right hchecks).symm

/-- A server for which the checks may take five seconds. -/
def fiveSeconds : Config := ⟨1, 0, false, false, false, 5000, "", ""⟩

/-- The list that `test_tuple` makes for itself has one timeout. -/
theorem default_timeouts_agree : StopsAt fiveSeconds [⟨.dnsbl, false⟩] ⟨0, 0⟩ [⟨fiveSeconds.queryTimelimit, none⟩] 5000 :=
  (stopsAt_timelimit_iff fiveSeconds _ (by decide) (List.cons_ne_nil _ _)
    (List.forall_mem_singleton.mpr (by decide))).mpr (Or.inr rfl)

/-- The list of `sjsms_connection` has two: it waits for five seconds, and the checks are given six. -/
theorem sjsms_checks_outlast_the_answer :
    timelimit (sjsmsTimeouts fiveSeconds) = 6000 ∧
      StopsAt fiveSeconds [⟨.dnsbl, false⟩] ⟨0, 0⟩ (sjsmsTimeouts fiveSeconds) 5000 ∧
      ¬ StopsAt fiveSeconds [⟨.dnsbl, false⟩] ⟨0, 0⟩ (sjsmsTimeouts fiveSeconds) 6000 := by
  have hta : ∀ a ∈ sjsmsTimeouts fiveSeconds, 0 < a.timeout ∧ a.timeout < 2147483648 := by decide
  have hstops : ∀ T, StopsAt fiveSeconds [⟨.dnsbl, false⟩] ⟨0, 0⟩ (sjsmsTimeouts fiveSeconds) T ↔ T = 5000 :=
    fun T => stopsAt_iff (List.cons_ne_nil _ _) (by decide) (List.cons_ne_nil _ _) hta
  refine ⟨rfl, (hstops 5000).mpr rfl, fun h => ?_⟩
  have heq := (hstops 6000).mp h
  omega

end Gross.Worker
