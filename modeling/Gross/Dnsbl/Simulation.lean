import Gross.Dnsbl.Lookup
import Gross.Dnsbl.Tolerance

/-!
# A lookup and the lists it asks

`Gross.Dnsbl.Lookup` follows one call of `dnsblc` through its loops and takes the counters of the lists as
they come. `Gross.Dnsbl.Tolerance` has the counters, and of a lookup only what they depend on. Here the two are
put together (`joint`): `dnsblc` reads the counters of its list and lowers them, while the other lookups and
the main loop do what they do.

## What is proved

* `Matches.simulates` — what a step of `dnsblc` does to the lists is what some acts of a lookup do.
* `joint_run` — so each run of `dnsblc` is one of the lookups of `Gross.Dnsbl.Tolerance`, whatever else is done to
  the lists meanwhile, and the lists are those of a run there.
-/

namespace Gross.Dnsbl

open Foundation Utils Worker

/-- What `dnsblc` reads of an entry beside its counter. -/
def Entry.dnsbl (e : Entry) : Results.Dnsbl := ⟨String.ofList e.name, e.weight⟩

/-- The counters of these entries are lowered. -/
def lowerAll (is : List ℕ) (list : List Entry) : List Entry := is.foldl (fun list i => list.modify i lower) list

/-- Lookup `n` is at `l` now, and has lowered these counters. -/
def effect (t : Tolerance) (n : ℕ) (l : Lookup) (is : List ℕ) : Tolerance where
  lists := Function.update t.lists l.type (lowerAll is (t.lists l.type))
  lookups := t.lookups.set n l

/-- The lookup that an act is of. -/
def Act.lookup? : Act → Option ℕ
  | .ask n | .callback n _ | .expire n => some n
  | .start _ | .tick => none

section

variable {t : Tolerance} {n : ℕ} {l l' : Lookup}

theorem effect_nil (h : t.lookups[n]? = some l) : effect t n l [] = t := by
  obtain ⟨hlt, rfl⟩ := List.getElem?_eq_some_iff.mp h
  rw [effect, lowerAll, List.foldl_nil, Function.update_eq_self, List.set_getElem_self]

theorem effect_effect (htype : l'.type = l.type) (is is' : List ℕ) :
    effect (effect t n l is) n l' is' = effect t n l' (is ++ is') := by
  simp [effect, htype, lowerAll]

theorem dnsbl_tolerateDnsbl (e : Entry) : (tolerateDnsbl e).dnsbl = e.dnsbl := by
  unfold tolerateDnsbl
  split_ifs <;> rfl

theorem map_dnsbl_modify (list : List Entry) (i : ℕ) : (list.modify i lower).map Entry.dnsbl = list.map Entry.dnsbl := by
  apply List.ext_getElem?
  intro j
  rw [List.getElem?_map, List.getElem?_map, List.getElem?_modify]
  cases list[j]? with
  | none => rfl
  | some e => split_ifs <;> rfl

theorem map_dnsbl_lowerAll (is : List ℕ) (list : List Entry) :
    (lowerAll is list).map Entry.dnsbl = list.map Entry.dnsbl :=
  foldl_inv (fun list' => list'.map Entry.dnsbl = list.map Entry.dnsbl)
    (fun list' i h => (map_dnsbl_modify list' i).trans h) rfl is

end

namespace Lookups

section Steps

variable (setup : Setup)

/-- How many entries of its list `dnsblc` has come to. -/
def State.next (s : State) : ℕ :=
  match s.place with
  | .called => 0
  | .asking i => i
  | .turning | .checking => setup.dnsbase.length
  | .returned => if s.skipped.isSome then 0 else setup.dnsbase.length

/-- What the counters depend on. -/
def State.lookup (s : State) : Lookup := ⟨setup.type, s.next setup, s.outstanding, s.timeout⟩

/-- The counter that `query_clearance` reads is that of the entry. -/
def Reads (list : List Entry) (s : State) : Act → Prop
  | .ask counter _ => ∀ i e, s.place = .asking i → list[i]? = some e → e.tolerancecounter = counter
  | _ => True

/-- Lookup `n` is `dnsblc`. -/
structure Matches (t : Tolerance) (n : ℕ) (s : State) : Prop where
  /-- The lookup. -/
  lookup : t.lookups[n]? = some (s.lookup setup)
  /-- Its list. -/
  base : (t.lists setup.type).map Entry.dnsbl = setup.dnsbase

/-- There are acts that lead to the lookup `s'`, and lower the counters that were lowered from `s` to `s'`. -/
def Simulates (t : Tolerance) (n : ℕ) (s s' : State) : Prop :=
  ∃ l acts, s'.lowered = s.lowered ++ l ∧ Dnsbl.run t acts = effect t n (s'.lookup setup) l

end Steps

section Simulates

variable {setup : Setup} {t : Tolerance} {n : ℕ} {s s' : State}

theorem Matches.effect (h : Matches setup t n s) (s' : State) (is : List ℕ) :
    Matches setup (effect t n (s'.lookup setup) is) n s' := by
  obtain ⟨hlt, -⟩ := List.getElem?_eq_some_iff.mp h.lookup
  refine ⟨List.getElem?_set_self hlt, ?_⟩
  change (Function.update t.lists setup.type (lowerAll is (t.lists setup.type)) setup.type).map _ = _
  rw [Function.update_self, map_dnsbl_lowerAll, h.base]

/-- Nothing that matters to the lists. -/
theorem Matches.same (h : Matches setup t n s) (hlookup : s'.lookup setup = s.lookup setup)
    (hlowered : s'.lowered = s.lowered) : Simulates setup t n s s' :=
  ⟨[], [], by rw [hlowered, List.append_nil], by rw [hlookup, effect_nil h.lookup]; rfl⟩

theorem Matches.trans (h : Matches setup t n s) (s₁ : State) (h₁ : Simulates setup t n s s₁)
    (h' : ∀ t, Matches setup t n s₁ → Simulates setup t n s₁ s') : Simulates setup t n s s' := by
  obtain ⟨l, acts, hl, hrun⟩ := h₁
  obtain ⟨l', acts', hl', hrun'⟩ := h' _ (h.effect s₁ l)
  refine ⟨l ++ l', acts ++ acts', by rw [hl', hl, List.append_assoc], ?_⟩
  have htype : (s'.lookup setup).type = (s₁.lookup setup).type := rfl
  rw [effect_effect htype, ← hrun] at hrun'
  exact List.foldl_append.trans hrun'

theorem Matches.callback (h : Matches setup t n s) {i : ℕ} (hlt : i < setup.dnsbase.length) (hi : i ∈ s.outstanding)
    (b : Bool) : Simulates setup t n s (addrinfoCallback setup s i b) := by
  rw [addrinfoCallback_eq (List.getElem?_eq_getElem hlt)]
  refine ⟨if s.timeout then [i] else [], [.callback n i], by cases s.timeout <;> simp, ?_⟩
  simp only [Dnsbl.run, List.foldl_cons, List.foldl_nil, Dnsbl.step, h.lookup]
  cases htimeout : s.timeout <;>
    simp [Dnsbl.effect, calledBack, lowerAll, State.lookup, State.next, htimeout, hi]

/-- The callbacks of a turn. -/
theorem Matches.replies (h : Matches setup t n s) (hgoing : Going setup s) (rs : List (ℕ × Bool)) :
    Simulates setup t n s (rs.foldl (reply setup) s) := by
  induction rs generalizing t s with
  | nil => exact h.same rfl rfl
  | cons r rs ih =>
    rw [List.foldl_cons, reply]
    split_ifs with hr
    · have hlt := hgoing.core.lt _ (hgoing.core.calls.subset (List.mem_append_right _ hr))
      exact h.trans _ (h.callback hlt hr r.2) fun t ht => ih ht (hgoing.callback hr r.2)
    · exact ih h hgoing

/-- Those of `ares_cancel`. -/
theorem Matches.callbacks (h : Matches setup t n s) {order : List ℕ} (horder : order.Perm s.outstanding)
    (hlt : ∀ i ∈ order, i < setup.dnsbase.length) :
    Simulates setup t n s (order.foldl (fun s i => addrinfoCallback setup s i false) s) := by
  induction order generalizing t s with
  | nil => exact h.same rfl rfl
  | cons i order ih =>
    obtain ⟨hi, hlt⟩ := List.forall_mem_cons.mp hlt
    obtain ⟨hmem, hrest⟩ := List.cons_perm_iff_perm_erase.mp horder
    refine h.trans _ (h.callback hi hmem false) fun t ht => ih ht ?_ hlt
    rwa [addrinfoCallback_eq (List.getElem?_eq_getElem hi)]

/-- The next list is asked, or passed over. -/
theorem Matches.ask (h : Matches setup t n s) {i : ℕ} (hplace : s.place = .asking i) (hi : i < setup.dnsbase.length)
    {counter : ℤ} (r : Option Bool) (hread : Reads (t.lists setup.type) s (.ask counter r)) :
    Simulates setup t n s (askList setup s i counter r) := by
  obtain ⟨e, he⟩ : ∃ e, (t.lists setup.type)[i]? = some e := by
    rw [← h.base, List.length_map] at hi
    exact ⟨_, List.getElem?_eq_getElem hi⟩
  obtain rfl := hread i e hplace he
  have hask : ∀ s' : State, s'.lowered = s.lowered →
      s'.lookup setup = Lookup.ask (t.lists setup.type) (s.lookup setup) → Simulates setup t n s s' := by
    refine fun s' hlowered hlookup => ⟨[], [.ask n], by rw [hlowered, List.append_nil], ?_⟩
    simp only [Dnsbl.run, List.foldl_cons, List.foldl_nil, Dnsbl.step, h.lookup, hlookup, Dnsbl.effect, lowerAll,
      Function.update_eq_self]
    rfl
  have hnext : (s.lookup setup).next = i := by simp only [State.lookup, State.next, hplace]
  unfold askList
  by_cases hcounter : e.tolerancecounter > 0
  · rw [if_pos hcounter]
    have hone : Simulates setup t n s { s with
        place := .asking (i + 1), asked := s.asked ++ [i], outstanding := s.outstanding ++ [i] } := by
      refine hask _ rfl ?_
      simp only [Lookup.ask, hnext, he, queryClearance, hcounter, decide_true, if_true]
      rfl
    cases r with
    | none => exact hone
    | some b => exact h.trans _ hone fun t ht => ht.callback hi (by simp) b
  · rw [if_neg hcounter]
    refine hask _ rfl ?_
    simp only [Lookup.ask, hnext, he, queryClearance, hcounter, decide_false, Bool.false_eq_true, if_false]
    rfl

/-- A turn of the inner loop. -/
theorem Matches.turn (h : Matches setup t n s) (hgoing : Going setup s) (hplace : s.place = .turning) (turn : Turn) :
    Simulates setup t n s (innerTurn setup s turn) := by
  have hmove : ∀ (nofds : Bool), Simulates setup t n s { s with place := .checking, nofds := nofds } := fun nofds =>
    h.same (by simp only [State.lookup, State.next, hplace]) rfl
  unfold innerTurn
  split_ifs
  · exact hmove s.nofds
  · exact hmove true
  · have hreplies := h.trans { s with nofds := false } (h.same rfl rfl) fun t ht =>
      ht.replies (hgoing.move s.place hgoing.place s.start false) turn.replies
    have hlast : (turn.replies.foldl (reply setup) { s with nofds := false }).place = .turning := by
      refine foldl_inv (fun s' : State => s'.place = .turning) (fun s' r hs => (place_reply s' r).trans hs) ?_ _
      exact hplace
    dsimp only
    split_ifs
    · refine h.trans _ hreplies fun t ht => ht.same ?_ rfl
      simp only [State.lookup, State.next, hlast]
    · exact hreplies

/-- A turn of the outer loop: the time may be over, and what is outstanding may be cancelled. -/
theorem Matches.check (h : Matches setup t n s) (hgoing : Going setup s) (hplace : s.place = .checking)
    (now : Timespec) (obsolete : Bool) {order : List ℕ} (horder : order.Perm s.outstanding) :
    Simulates setup t n s (outerTurn setup s now obsolete order) := by
  have hexpire : Simulates setup t n s { s with timeout := true } := by
    refine ⟨[], [.expire n], (List.append_nil _).symm, ?_⟩
    -- all entries have been come to, so the time can be over
    have hlength : (t.lists setup.type).length = setup.dnsbase.length := by rw [← h.base, List.length_map]
    simp [Dnsbl.run, Dnsbl.step, h.lookup, Lookup.expire, State.lookup, State.next, hplace, hlength, Dnsbl.effect, lowerAll]
  have hcore : ∀ timeout : Bool, Core setup { s with timeout := timeout } := fun _ =>
    ⟨hgoing.core.calls, hgoing.core.nodup, hgoing.core.lt, hgoing.core.done, hgoing.core.dnslname⟩
  have hfinish : ∀ (timeout : Bool) t, Matches setup t n { s with timeout := timeout } →
      Simulates setup t n { s with timeout := timeout }
        (finish setup (aresCancel setup { s with timeout := timeout } order)) := by
    intro timeout t ht
    have hcancel := ht.trans { s with timeout := timeout, cancelled := order } (ht.same rfl rfl) fun t ht =>
      ht.callbacks horder fun i hi =>
        hgoing.core.lt i (hgoing.core.calls.subset (List.mem_append_right _ (horder.subset hi)))
    refine ht.trans (aresCancel setup { s with timeout := timeout } order) hcancel fun t ht => ht.same ?_ rfl
    rw [aresCancel_eq (hcore timeout) horder]
    simp [finish, State.lookup, State.next, hplace, hgoing.skipped]
  unfold outerTurn
  by_cases hlate : msDiff now s.start ≥ setup.timelimit
  · simp only [if_pos hlate, or_true, if_true]
    exact h.trans _ hexpire (hfinish true)
  · simp only [if_neg hlate]
    split_ifs
    · simpa only [← hgoing.timeout] using hfinish s.timeout t h
    · exact h.same (by simp only [State.lookup, State.next, hplace]) rfl

/-- **One step** of `dnsblc`. -/
theorem Matches.simulates (h : Matches setup t n s) (hinv : Inv setup s) {a : Act}
    (hread : Reads (t.lists setup.type) s a) : Simulates setup t n s (step setup s a) := by
  cases hinv with
  | returned hplace =>
    have hsame : step setup s a = s := by cases a <;> simp [step, hplace]
    exact h.same (by rw [hsame]) (by rw [hsame])
  | going hgoing =>
    cases a with
    | fail | skip | enter | begin now =>
      simp only [step]
      split_ifs with hplace
      · exact h.same (by simp [State.lookup, State.next, hplace, finish]) rfl
      · exact h.same rfl rfl
    | ask counter r =>
      simp only [step]
      split
      next i hplace =>
        split_ifs with hi
        · exact h.ask hplace hi r hread
        · exact h.same rfl rfl
      next => exact h.same rfl rfl
    | turn turn =>
      simp only [step]
      split_ifs with hplace
      · exact h.turn hgoing hplace turn
      · exact h.same rfl rfl
    | check now obsolete order =>
      simp only [step]
      split_ifs with hcheck
      · exact h.check hgoing hcheck.1 now obsolete hcheck.2
      · exact h.same rfl rfl

/-- Another lookup goes on, or the main loop. -/
theorem Matches.other (h : Matches setup t n s) {a : Dnsbl.Act} (ha : a.lookup? ≠ some n) :
    Matches setup (Dnsbl.step t a) n s := by
  obtain ⟨hlt, -⟩ := List.getElem?_eq_some_iff.mp h.lookup
  have hset : ∀ {m : ℕ} (l : Lookup), some m ≠ some n → (t.lookups.set m l)[n]? = some (s.lookup setup) := by
    intro m l hm
    rw [List.getElem?_set_ne fun heq => hm (congrArg some heq)]
    exact h.lookup
  cases a with
  | start type => exact ⟨(List.getElem?_append_left hlt).trans h.lookup, h.base⟩
  | ask m | expire m =>
    simp only [Dnsbl.step]
    cases t.lookups[m]? with
    | none => exact h
    | some l => exact ⟨hset _ ha, h.base⟩
  | callback m i =>
    simp only [Dnsbl.step]
    cases t.lookups[m]? with
    | none => exact h
    | some l =>
      refine ⟨hset _ ha, ?_⟩
      dsimp only
      by_cases htype : setup.type = l.type
      · rw [← htype, Function.update_self, calledBack]
        split_ifs
        · rw [map_dnsbl_modify, h.base]
        · exact h.base
      · rw [Function.update_of_ne htype]
        exact h.base
  | tick =>
    refine ⟨h.lookup, ?_⟩
    simp only [Dnsbl.step]
    by_cases htype : setup.type = .dnsbl
    · have hcomp : Entry.dnsbl ∘ tolerateDnsbl = Entry.dnsbl := funext dnsbl_tolerateDnsbl
      rw [htype, Function.update_self, incrementDnsblToleranceCounters, List.map_map, hcomp, ← htype, h.base]
    · rw [Function.update_of_ne htype]
      exact h.base

end Simulates

/-! ### All together -/

/-- A step of this lookup, or another one. -/
inductive JointAct where
  /-- Of `dnsblc`. -/
  | dnsblc (a : Act)
  /-- Of another lookup, or the main loop. -/
  | other (a : Dnsbl.Act)

/-- The lists, and `dnsblc`, which is lookup `n` and lowers their counters. -/
def joint (setup : Setup) (n : ℕ) (p : Tolerance × State) : JointAct → Tolerance × State
  | .dnsblc a =>
    let s := step setup p.2 a
    (effect p.1 n (s.lookup setup) (s.lowered.drop p.2.lowered.length), s)
  | .other a => (Dnsbl.step p.1 a, p.2)

/-- `dnsblc` reads the counters as they are, and the others are others. -/
def JointAct.Legal (setup : Setup) (n : ℕ) (p : Tolerance × State) : JointAct → Prop
  | .dnsblc a => Reads (p.1.lists setup.type) p.2 a
  | .other a => a.lookup? ≠ some n

/-- **One model refines the other**: whatever else is done to the lists meanwhile, a run of `dnsblc` is that of one
of the lookups of a run of the lists, from its start on. -/
theorem joint_run {setup : Setup} {t : Tolerance} (hbase : (t.lists setup.type).map Entry.dnsbl = setup.dnsbase)
    (nofds : Bool) {as : List JointAct}
    (h : Along (joint setup t.lookups.length) (JointAct.Legal setup t.lookups.length)
      (Dnsbl.step t (.start setup.type), initial nofds) as) :
    let p := as.foldl (joint setup t.lookups.length) (Dnsbl.step t (.start setup.type), initial nofds)
    Matches setup p.1 t.lookups.length p.2 ∧ ∃ acts, p.1 = Dnsbl.run t (.start setup.type :: acts) := by
  have hstart : Matches setup (Dnsbl.step t (.start setup.type)) t.lookups.length (initial nofds) :=
    ⟨by simp [Dnsbl.step, State.lookup, State.next, initial], hbase⟩
  refine (h.inv (fun p => Inv setup p.2 ∧ Matches setup p.1 t.lookups.length p.2 ∧
    ∃ acts, p.1 = Dnsbl.run t (.start setup.type :: acts)) ?_ ⟨inv_initial setup nofds, hstart, [], rfl⟩).2
  rintro ⟨t', s⟩ a ⟨hinv, hm, acts, ht⟩ ha
  dsimp only at hm ht
  cases a with
  | dnsblc a =>
    obtain ⟨l, more, hl, hrun⟩ := hm.simulates hinv ha
    have hdrop : (step setup s a).lowered.drop s.lowered.length = l := by rw [hl, List.drop_left]
    refine ⟨hinv.step a, hm.effect _ _, acts ++ more, ?_⟩
    rw [joint, hdrop, ← hrun, ht]
    exact List.foldl_append.symm
  | other a =>
    refine ⟨hinv, hm.other ha, acts ++ [a], ?_⟩
    rw [Dnsbl.run, ← List.cons_append, List.foldl_append]
    exact congrArg (Dnsbl.step · a) ht

end Lookups

end Gross.Dnsbl
