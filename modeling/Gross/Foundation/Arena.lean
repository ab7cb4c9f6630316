import Gross.Foundation.Heap
import Mathlib.Data.List.Perm.Basic
import Mathlib.Data.List.Perm.Lattice

/-!
# Who owns which blocks

A program allocates blocks and frees them. `Owns s l` says that the blocks of the memory are those of `l`, with
what is in them, and no other: what is not in `l` was never allocated or has been freed. The order of
`l` does not matter, so a part of it can be brought to the front, used, and put back.

* `Mem γ α` — a program on a memory with blocks of `γ`. A block that is freed does not come back at the same address, so
  using it afterwards is a fault.
* `Runs l m Q` — from a memory that has the blocks `l`, and maybe others, `m` returns, and leaves the others alone.
  `Q` says what it returns and what has become of `l`.
* `Fails l m e` — from such a memory, `m` is a fault.

The rules follow the program: `Runs.bind`, `Runs.perm`, `Runs.frame`, and one for each operation.
-/

namespace Gross.Foundation

/-- A memory. -/
structure Arena (γ : Type) where
  /-- What is in it. -/
  heap : Heap γ
  /-- The next address. -/
  brk : Addr

/-- A program on a memory. -/
abbrev Mem (γ : Type) (α : Type) := StateT (Arena γ) (Except Fault) α

variable {γ α β : Type}

namespace Mem

/-- `malloc`, of a block with this in it. -/
def malloc (c : γ) : Mem γ Addr := fun s => .ok (s.brk, ⟨s.heap.set s.brk (some c), s.brk + 1⟩)

/-- `free` -/
def free (a : Addr) : Mem γ Unit := fun s => do
  let heap ← s.heap.free (some a)
  return ((), { s with heap := heap })

/-- What is in a block. -/
def get (a : Addr) : Mem γ γ := fun s => do
  let c ← s.heap.read (some a)
  return (c, s)

/-- A block is written. -/
def put (a : Addr) (c : γ) : Mem γ Unit := fun s => do
  let heap ← s.heap.write (some a) c
  return ((), { s with heap := heap })

/-- How many blocks have been allocated. -/
def brk : Mem γ ℕ := fun s => .ok (s.brk, s)

/-- The program does not go on. -/
def fail (f : Fault) : Mem γ α := fun _ => .error f

/-- What is in a block of a kind. -/
def view (kind : γ → Option β) (a : Addr) : Mem γ β := do
  match kind (← get a) with
  | some x => pure x
  | none => fail .outOfBounds

/-- The address in a pointer. -/
def deref : Option Addr → Mem γ Addr
  | none => fail .outOfBounds
  | some a => pure a

/-- `assert` of a pointer. -/
def asserted : Option Addr → Mem γ Addr
  | none => fail .assertion
  | some a => pure a

/-- `Free` -/
def release (p : Option Addr) : Mem γ Unit := do
  let a ← asserted p
  free a

/-- What is in a block, if there is one. -/
def viewOpt (kind : γ → Option β) : Option Addr → Mem γ (Option β)
  | none => pure none
  | some a => do return some (← view kind a)

/-- A block for what there may be. -/
def mallocOpt (f : β → γ) : Option β → Mem γ (Option Addr)
  | none => pure none
  | some x => do return some (← malloc (f x))

/-- `if (p) free(p)` -/
def freeOpt : Option Addr → Mem γ Unit
  | none => pure ()
  | some a => free a

end Mem

/-- The block for what there may be. -/
def optBlock (f : β → γ) (x : Option (Addr × β)) : List (Addr × γ) := x.toList.map fun y => (y.1, f y.2)

/-- The blocks of the memory are these. -/
structure Owns (s : Arena γ) (l : List (Addr × γ)) : Prop where
  /-- Each is there once. -/
  nodup : (l.map Prod.fst).Nodup
  /-- No other is there. -/
  heap : ∀ a c, s.heap a = some c ↔ (a, c) ∈ l
  /-- All have been allocated. -/
  below : ∀ x ∈ l, x.1 < s.brk

/-- A memory in which nothing has been allocated. -/
def Arena.empty : Arena γ := ⟨Heap.empty, 0⟩

theorem owns_empty : Owns (Arena.empty : Arena γ) [] := ⟨.nil, fun _ _ => ⟨nofun, nofun⟩, nofun⟩

section Owns

variable {s : Arena γ} {l l' : List (Addr × γ)} {a : Addr} {c : γ}

theorem Owns.perm (h : Owns s l) (hp : l.Perm l') : Owns s l' :=
  ⟨(hp.map _).nodup_iff.mp h.nodup, fun a c => (h.heap a c).trans hp.mem_iff, fun x hx => h.below x (hp.mem_iff.mpr hx)⟩

/-- A new block is not one of those that are there. -/
theorem Owns.malloc (h : Owns s l) (c : γ) : Owns ⟨s.heap.set s.brk (some c), s.brk + 1⟩ ((s.brk, c) :: l) where
  nodup := by
    refine List.nodup_cons.mpr ⟨fun hmem => ?_, h.nodup⟩
    obtain ⟨x, hx, hxa⟩ := List.mem_map.mp hmem
    exact Nat.ne_of_lt (h.below x hx) hxa
  heap b d := by
    rw [List.mem_cons, Prod.mk.injEq]
    by_cases hb : b = s.brk
    · subst hb
      -- nothing was at that address
      have hnot : (s.brk, d) ∉ l := fun hmem => Nat.lt_irrefl _ (h.below _ hmem)
      simp [hnot, eq_comm]
    · dsimp only
      rw [Heap.set_ne _ hb, h.heap]
      simp [hb]
  below x hx := by
    rcases List.mem_cons.mp hx with rfl | hx
    · exact Nat.lt_succ_self _
    · exact Nat.lt_succ_of_lt (h.below x hx)

theorem Owns.not_mem (h : Owns s ((a, c) :: l)) (d : γ) : (a, d) ∉ l := fun hmem =>
  (List.nodup_cons.mp h.nodup).1 (List.mem_map.mpr ⟨_, hmem, rfl⟩)

theorem Owns.free (h : Owns s ((a, c) :: l)) : Owns { s with heap := s.heap.set a none } l where
  nodup := (List.nodup_cons.mp h.nodup).2
  heap b d := by
    by_cases hb : b = a
    · subst hb
      simp [h.not_mem d]
    · dsimp only
      rw [Heap.set_ne _ hb, h.heap, List.mem_cons]
      simp [hb]
  below x hx := h.below x (List.mem_cons_of_mem _ hx)

theorem Owns.put (h : Owns s ((a, c) :: l)) (c' : γ) : Owns { s with heap := s.heap.set a (some c') } ((a, c') :: l) where
  nodup := h.nodup
  heap b d := by
    rw [List.mem_cons, Prod.mk.injEq]
    by_cases hb : b = a
    · subst hb
      simp [h.not_mem d, eq_comm]
    · dsimp only
      rw [Heap.set_ne _ hb, h.heap, List.mem_cons]
      simp [hb]
  below x hx := by
    rcases List.mem_cons.mp hx with rfl | hx
    · exact h.below (a, c) List.mem_cons_self
    · exact h.below x (List.mem_cons_of_mem _ hx)

/-- All addresses are below the next one. -/
theorem Owns.length_le (h : Owns s l) : l.length ≤ s.brk := by
  rw [← List.length_map Prod.fst, ← List.length_range (n := s.brk)]
  refine (List.subperm_of_subset h.nodup fun a ha => ?_).length_le
  obtain ⟨x, hx, rfl⟩ := List.mem_map.mp ha
  exact List.mem_range.mpr (h.below x hx)

end Owns

/-! ### What a program does to the blocks it is given -/

/-- From a memory that has the blocks `l`, and maybe others. -/
def Runs (l : List (Addr × γ)) (m : Mem γ α) (Q : α → List (Addr × γ) → Prop) : Prop :=
  ∀ s rest, Owns s (l ++ rest) → ∃ a s' l', m s = .ok (a, s') ∧ Owns s' (l' ++ rest) ∧ Q a l'

section Runs

variable {l l' k : List (Addr × γ)} {m : Mem γ α} {f : α → Mem γ β} {Q Q' : α → List (Addr × γ) → Prop}
  {R : β → List (Addr × γ) → Prop} {a : Addr} {c : γ}

theorem runs_pure {x : α} (h : Q x l) : Runs l (pure x) Q := fun s _ hs => ⟨x, s, l, rfl, hs, h⟩

theorem Runs.bind (h : Runs l m Q) (hf : ∀ x l', Q x l' → Runs l' (f x) R) : Runs l (m >>= f) R := by
  intro s rest hs
  obtain ⟨x, s', l', hm, hs', hQ⟩ := h s rest hs
  obtain ⟨y, s'', l'', hfx, hs'', hR⟩ := hf x l' hQ s' rest hs'
  refine ⟨y, s'', l'', ?_, hs'', hR⟩
  show (m s >>= fun p => f p.1 p.2) = _
  rw [hm, ok_bind]
  exact hfx

/-- A first part whose value and blocks are known. -/
theorem Runs.known {v : α} (h : Runs l m fun x l₁ => x = v ∧ l₁ = l') (hf : Runs l' (f v) R) : Runs l (m >>= f) R :=
  h.bind fun _ _ ⟨hx, hl⟩ => hx ▸ hl ▸ hf

/-- A first part that has no value. -/
theorem Runs.seq {m : Mem γ PUnit} {f : PUnit → Mem γ β} (h : Runs l m fun _ l₁ => l₁ = l') (hf : Runs l' (f ⟨⟩) R) :
    Runs l (m >>= f) R :=
  h.bind fun _ _ hl => hl ▸ hf

theorem Runs.imp (h : Runs l m Q) (hQ : ∀ x l', Q x l' → Q' x l') : Runs l m Q' := fun s rest hs => by
  obtain ⟨x, s', l', hm, hs', hx⟩ := h s rest hs
  exact ⟨x, s', l', hm, hs', hQ x l' hx⟩

/-- The order of the blocks does not matter. -/
theorem Runs.perm (h : Runs l' m Q) (hp : l.Perm l') : Runs l m Q := fun s rest hs =>
  h s rest (hs.perm (hp.append_right rest))

/-- What else is there stays as it is. -/
theorem Runs.frame (h : Runs l m Q) (k : List (Addr × γ)) : Runs (l ++ k) m fun x l' => ∃ l₁, l' = l₁ ++ k ∧ Q x l₁ := by
  intro s rest hs
  rw [List.append_assoc] at hs
  obtain ⟨x, s', l', hm, hs', hQ⟩ := h s (k ++ rest) hs
  refine ⟨x, s', l' ++ k, hm, ?_, l', rfl, hQ⟩
  rwa [List.append_assoc]

theorem runs_malloc (c : γ) : Runs l (Mem.malloc c) fun a l' => l' = (a, c) :: l := fun s _ hs =>
  ⟨s.brk, _, (s.brk, c) :: l, rfl, hs.malloc c, rfl⟩

theorem runs_get (h : (a, c) ∈ l) : Runs l (Mem.get a) fun c' l' => c' = c ∧ l' = l := fun s rest hs => by
  have hc : s.heap a = some c := (hs.heap a c).mpr (List.mem_append_left _ h)
  refine ⟨c, s, l, ?_, hs, rfl, rfl⟩
  rw [Mem.get, Heap.read_some hc]
  rfl

theorem runs_view {kind : γ → Option β} {x : β} (h : (a, c) ∈ l) (hx : kind c = some x) :
    Runs l (Mem.view kind a) fun y l' => y = x ∧ l' = l := by
  refine (runs_get h).known ?_
  rw [hx]
  exact runs_pure ⟨rfl, rfl⟩

/-- There are at most as many blocks as have been allocated. -/
theorem runs_brk : Runs l Mem.brk fun n l' => l' = l ∧ l.length ≤ n := fun s rest hs =>
  ⟨s.brk, s, l, rfl, hs, rfl, Nat.le_trans (by simp) hs.length_le⟩

theorem runs_deref (a : Addr) : Runs l (Mem.deref (some a) : Mem γ Addr) fun b l' => b = a ∧ l' = l := runs_pure ⟨rfl, rfl⟩

theorem runs_asserted (a : Addr) : Runs l (Mem.asserted (some a) : Mem γ Addr) fun b l' => b = a ∧ l' = l :=
  runs_pure ⟨rfl, rfl⟩

theorem runs_free : Runs ((a, c) :: l) (Mem.free a) fun _ l' => l' = l := fun s rest hs => by
  have hc : s.heap a = some c := (hs.heap a c).mpr (List.mem_append_left _ List.mem_cons_self)
  refine ⟨(), _, l, ?_, hs.free, rfl⟩
  rw [Mem.free, Heap.free_some hc]
  rfl

theorem runs_release : Runs ((a, c) :: l) (Mem.release (some a)) fun _ l' => l' = l := by
  refine (runs_asserted a).known ?_
  exact runs_free

theorem runs_viewOpt {kind : γ → Option β} {f : β → γ} (hkind : ∀ x, kind (f x) = some x) {x : Option (Addr × β)}
    (h : ∀ y ∈ optBlock f x, y ∈ l) :
    Runs l (Mem.viewOpt kind (x.map Prod.fst)) fun v l' => v = x.map Prod.snd ∧ l' = l := by
  cases x with
  | none => exact runs_pure ⟨rfl, rfl⟩
  | some x =>
    refine (runs_view (h _ List.mem_cons_self) (hkind x.2)).known ?_
    exact runs_pure ⟨rfl, rfl⟩

theorem runs_mallocOpt (f : β → γ) (v : Option β) :
    Runs l (Mem.mallocOpt f v) fun p l' => ∃ x, p = x.map Prod.fst ∧ v = x.map Prod.snd ∧ l' = optBlock f x ++ l := by
  cases v with
  | none => exact runs_pure ⟨none, rfl, rfl, rfl⟩
  | some s =>
    refine (runs_malloc _).bind ?_
    rintro a _ rfl
    exact runs_pure ⟨some (a, s), rfl, rfl, rfl⟩

theorem runs_freeOpt (f : β → γ) (x : Option (Addr × β)) :
    Runs (optBlock f x ++ l) (Mem.freeOpt (x.map Prod.fst)) fun _ l' => l' = l := by
  cases x with
  | none => exact runs_pure rfl
  | some x => exact runs_free

theorem runs_put (c' : γ) : Runs ((a, c) :: l) (Mem.put a c') fun _ l' => l' = (a, c') :: l := fun s rest hs => by
  have hc : s.heap a = some c := (hs.heap a c).mpr (List.mem_append_left _ List.mem_cons_self)
  refine ⟨(), _, (a, c') :: l, ?_, hs.put c', rfl⟩
  rw [Mem.put, Heap.write_some hc]
  rfl

theorem runs_lift {x : Except Fault α} {v : α} (hx : x = .ok v) (h : Q v l) : Runs l (liftM x : Mem γ α) Q := fun s _ hs => by
  refine ⟨v, s, l, ?_, hs, h⟩
  rw [hx]
  rfl

/-- From such a memory it is a fault. -/
def Fails (l : List (Addr × γ)) (m : Mem γ α) (e : Fault) : Prop := ∀ s rest, Owns s (l ++ rest) → m s = .error e

theorem fails_fail (e : Fault) : Fails l (Mem.fail e : Mem γ α) e := fun _ _ _ => rfl

theorem Fails.perm {e : Fault} (h : Fails l' m e) (hp : l.Perm l') : Fails l m e := fun s rest hs =>
  h s rest (hs.perm (hp.append_right rest))

theorem Fails.bind {e : Fault} (h : Fails l m e) : Fails l (m >>= f) e := fun s rest hs => by
  show (m s >>= fun p => f p.1 p.2) = _
  rw [h s rest hs]
  rfl

theorem Runs.fails {e : Fault} (h : Runs l m Q) (hf : ∀ x l', Q x l' → Fails l' (f x) e) : Fails l (m >>= f) e := by
  intro s rest hs
  obtain ⟨x, s', l', hm, hs', hQ⟩ := h s rest hs
  show (m s >>= fun p => f p.1 p.2) = _
  rw [hm, ok_bind]
  exact hf x l' hQ s' rest hs'

/-- A loop, with what is so before each turn. -/
theorem runs_range {body : ℕ → Mem γ Unit} {n : ℕ} (I : ℕ → List (Addr × γ) → Prop)
    (hstep : ∀ i < n, ∀ l, I i l → Runs l (body i) fun _ l' => I (i + 1) l') (h : I 0 l) :
    Runs l ((List.range n).forM body) fun _ l' => I n l' := by
  have key : ∀ m k l, k + m = n → I k l → Runs l ((List.range' k m).forM body) fun _ l' => I n l' := by
    intro m
    induction m with
    | zero =>
      intro k l hk hI
      exact runs_pure (by rwa [← hk])
    | succ m ih =>
      intro k l hk hI
      exact (hstep k (by omega) l hI).bind fun _ l' hI' => ih (k + 1) l' (by omega) hI'
  rw [List.range_eq_range']
  exact key n 0 l (Nat.zero_add n) h

end Runs

end Gross.Foundation
