import Gross.Foundation.CArray

/-!
# Runs of a system

A system of threads is a function `step`: the state after an action. What its
threads can do in a state is which actions it reacts to, so a run is any list of
actions.

* `Along step P s as` — in the run from `s`, each action meets `P` in the state
  in which it is taken.
* `Along.inv` — the rule for such runs: an invariant of the steps that meet `P`
  holds in the end. `foldl_inv` — the rule for all runs.
* `AlongM`, `AlongM.inv` — the same for a system whose steps can fail.
-/

namespace Gross.Foundation

universe u v

variable {σ : Type u} {β : Type v}

/-- In the run, each action meets `P` in the state in which it is taken. -/
def Along (step : σ → β → σ) (P : σ → β → Prop) : σ → List β → Prop
  | _, [] => True
  | s, a :: as => P s a ∧ Along step P (step s a) as

instance Along.decidable (step : σ → β → σ) (P : σ → β → Prop) [∀ s a, Decidable (P s a)] :
    ∀ s as, Decidable (Along step P s as)
  | _, [] => isTrue trivial
  | s, a :: as =>
    have := Along.decidable step P (step s a) as
    inferInstanceAs (Decidable (P s a ∧ Along step P (step s a) as))

variable {step : σ → β → σ} {P : σ → β → Prop}

/-- **The rule for runs**: what holds at the start, and is kept by each step that meets
`P`, holds after a run along which `P` is met. -/
theorem Along.inv (I : σ → Prop) (hstep : ∀ s a, I s → P s a → I (step s a)) {s : σ} {as : List β}
    (h : Along step P s as) (hs : I s) : I (as.foldl step s) := by
  induction as generalizing s with
  | nil => exact hs
  | cons a as ih => exact ih h.2 (hstep s a hs h.1)

/-- One more action. -/
theorem Along.concat {s : σ} {as : List β} (h : Along step P s as) {a : β} (ha : P (as.foldl step s) a) :
    Along step P s (as ++ [a]) := by
  induction as generalizing s with
  | nil => exact ⟨ha, trivial⟩
  | cons b as ih => exact ⟨h.1, ih h.2 ha⟩

/-- In the run, each action meets `P` in the state in which it is taken; a step may fail. -/
def AlongM (step : σ → β → Except Fault σ) (P : σ → β → Prop) : σ → List β → Prop
  | _, [] => True
  | s, a :: as => P s a ∧
    match step s a with
    | .ok s' => AlongM step P s' as
    | .error _ => True

instance AlongM.decidable (step : σ → β → Except Fault σ) (P : σ → β → Prop) [∀ s a, Decidable (P s a)] :
    ∀ s as, Decidable (AlongM step P s as)
  | _, [] => isTrue trivial
  | s, a :: as =>
    have : Decidable (match step s a with
        | .ok s' => AlongM step P s' as
        | .error _ => True) :=
      match step s a with
      | .ok s' => AlongM.decidable step P s' as
      | .error _ => isTrue trivial
    inferInstanceAs (Decidable (P s a ∧ _))

/-- Actions that meet `P` in every state. -/
theorem alongM_of_forall {step : σ → β → Except Fault σ} {P : σ → β → Prop} {as : List β} (h : ∀ a ∈ as, ∀ s, P s a)
    (s : σ) : AlongM step P s as := by
  induction as generalizing s with
  | nil => trivial
  | cons a as ih =>
    rw [List.forall_mem_cons] at h
    refine ⟨h.1 s, ?_⟩
    split
    · exact ih h.2 _
    · trivial

/-- The rule for such runs: when no step that meets `P`, from a state that satisfies `I`, fails, and
each leads to one that does, so does the run. -/
theorem AlongM.inv {σ β : Type u} {step : σ → β → Except Fault σ} {P : σ → β → Prop} (I : σ → Prop)
    (hstep : ∀ s a, I s → P s a → ∃ s', step s a = .ok s' ∧ I s') {s : σ} {as : List β} (h : AlongM step P s as)
    (hs : I s) : ∃ s', as.foldlM step s = .ok s' ∧ I s' := by
  induction as generalizing s with
  | nil => exact ⟨s, rfl, hs⟩
  | cons a as ih =>
    obtain ⟨s₁, h₁, hs₁⟩ := hstep s a hs h.1
    have hrest := h.2
    rw [h₁] at hrest
    obtain ⟨s₂, h₂, hs₂⟩ := ih hrest hs₁
    exact ⟨s₂, by rw [List.foldlM_cons, h₁, ok_bind, h₂], hs₂⟩

/-- What holds at the start and is kept by each step holds after every run. -/
theorem foldl_inv (I : σ → Prop) (hstep : ∀ s a, I s → I (step s a)) {s : σ} (hs : I s) (as : List β) :
    I (as.foldl step s) := by
  induction as generalizing s with
  | nil => exact hs
  | cons a as ih => exact ih (hstep s a hs)

end Gross.Foundation
