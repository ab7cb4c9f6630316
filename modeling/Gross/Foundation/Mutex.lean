import Mathlib.Tactic.Common

/-!
# A thread and a mutex

A mutex that is not recursive is taken by a thread that does not hold it, and given back by one
that does. A thread that takes it while it holds it waits for itself, and for ever.

* `Locking σ α` — what a thread does with a value of `σ` that the mutex guards, as long as
  it has it to itself: `lock`, `unlock` and `update`, put together with `do`.
* `Takes held m after` — whatever the value is, `m` begins with the mutex held or not as `held`
  says and ends as `after` says.
* `Stuck held m` — `m` waits for itself.

The rules follow the program: `Takes.bind`, `Takes.stuck`, `Stuck.bind`, and `Takes.locked` for
what is done between `lock` and `unlock`.
-/

namespace Gross.Foundation

universe u

/-- Why a thread does not go on. -/
inductive MutexFault where
  /-- It takes a mutex that it holds. -/
  | deadlock
  /-- It gives back a mutex that it does not hold. -/
  | notHeld
  deriving DecidableEq, Repr

/-- A value, and whether the thread holds its mutex. -/
structure Guarded (σ : Type u) where
  /-- The mutex is held. -/
  held : Bool
  /-- The value. -/
  value : σ

/-- What a thread does. -/
abbrev Locking (σ : Type u) (α : Type u) : Type u := StateT (Guarded σ) (Except MutexFault) α

variable {σ α β : Type u}

/-- `pthread_mutex_lock` -/
def lock : Locking σ PUnit := fun g => if g.held then .error .deadlock else .ok (⟨⟩, { g with held := true })

/-- `pthread_mutex_unlock` -/
def unlock : Locking σ PUnit := fun g => if g.held then .ok (⟨⟩, { g with held := false }) else .error .notHeld

/-- The value is looked at and changed. -/
def update (f : σ → α × σ) : Locking σ α := fun g => .ok ((f g.value).1, { g with value := (f g.value).2 })

/-- What is done while the mutex is held. -/
def locked (m : Locking σ α) : Locking σ α := do
  lock
  let a ← m
  unlock
  return a

/-- From `held` to `after`, whatever the value is. -/
def Takes (held : Bool) (m : Locking σ α) (after : Bool) : Prop :=
  ∀ v, ∃ a v', m ⟨held, v⟩ = .ok (a, ⟨after, v'⟩)

/-- The thread waits for itself. -/
def Stuck (held : Bool) (m : Locking σ α) : Prop := ∀ v, m ⟨held, v⟩ = .error .deadlock

variable {held middle after : Bool} {m : Locking σ α} {f : α → Locking σ β}

theorem takes_pure (a : α) : Takes held (pure a : Locking σ α) held := fun v => ⟨a, v, rfl⟩

theorem takes_update (f : σ → α × σ) : Takes held (update f) held := fun v => ⟨(f v).1, (f v).2, rfl⟩

theorem takes_lock : Takes false (lock : Locking σ PUnit) true := fun v => ⟨⟨⟩, v, rfl⟩

theorem takes_unlock : Takes true (unlock : Locking σ PUnit) false := fun v => ⟨⟨⟩, v, rfl⟩

theorem stuck_lock : Stuck true (lock : Locking σ PUnit) := fun _ => rfl

theorem run_bind {a : α} {v v' : σ} (h : m ⟨held, v⟩ = .ok (a, ⟨middle, v'⟩)) :
    (m >>= f) ⟨held, v⟩ = f a ⟨middle, v'⟩ := by
  show (m ⟨held, v⟩ >>= fun p => f p.1 p.2) = _
  rw [h]
  rfl

theorem Takes.bind (h : Takes held m middle) (hf : ∀ a, Takes middle (f a) after) : Takes held (m >>= f) after := by
  intro v
  obtain ⟨a, v', hm⟩ := h v
  rw [run_bind hm]
  exact hf a v'

theorem Stuck.bind (h : Stuck held m) : Stuck held (m >>= f) := by
  intro v
  show (m ⟨held, v⟩ >>= fun p => f p.1 p.2) = _
  rw [h v]
  rfl

theorem Takes.stuck (h : Takes held m middle) (hf : ∀ a, Stuck middle (f a)) : Stuck held (m >>= f) := by
  intro v
  obtain ⟨a, v', hm⟩ := h v
  rw [run_bind hm]
  exact hf a v'

/-- What keeps the mutex can be done while it is held. -/
theorem Takes.locked (h : Takes true m true) : Takes false (locked m) false :=
  takes_lock.bind fun _ => h.bind fun a => takes_unlock.bind fun _ => takes_pure a

/-- What is done while the mutex is held is not done by one who holds it. -/
theorem stuck_locked (m : Locking σ α) : Stuck true (Foundation.locked m) := stuck_lock.bind

theorem Takes.not_stuck (h : Takes held m after) (v : σ) : ¬ Stuck held m := by
  intro hs
  obtain ⟨a, v', hm⟩ := h v
  rw [hs v] at hm
  cases hm

/-- One thing after another. -/
theorem takes_forM {ι : Type} {g : ι → Locking σ PUnit} {is : List ι} (h : ∀ i ∈ is, Takes held (g i) held) :
    Takes held (is.forM g) held := by
  induction is with
  | nil => exact takes_pure _
  | cons i is ih =>
    obtain ⟨hi, his⟩ := List.forall_mem_cons.mp h
    exact hi.bind fun _ => ih his

/-- One thing after another, one of which waits for itself. -/
theorem stuck_forM {ι : Type} {g : ι → Locking σ PUnit} {is : List ι}
    (h : ∀ i ∈ is, Takes held (g i) held ∨ Stuck held (g i)) (hs : ∃ i ∈ is, Stuck held (g i)) :
    Stuck held (is.forM g) := by
  obtain ⟨j, hj, hs⟩ := hs
  induction is with
  | nil => cases hj
  | cons i is ih =>
    obtain ⟨hi, his⟩ := List.forall_mem_cons.mp h
    rcases hi with hi | hi
    · rcases List.mem_cons.mp hj with rfl | hj
      · exact hs.bind
      · exact hi.stuck fun _ => ih his hj
    · exact hi.bind

end Gross.Foundation
