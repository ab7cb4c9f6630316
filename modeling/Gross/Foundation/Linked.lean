import Gross.Foundation.Arena

/-!
# Linked lists in memory

A list whose nodes are blocks, each with a pointer to the next one and NULL in the last. `Linked β γ` says how a
node with `β` in it is kept in a block of `γ`; `blocks nodes e` are the blocks of such nodes, where the last one
points to `e`.

* `last`, `append` — going to the last node, and linking another one to it.
* `collect` — what is in the nodes, in their order.
* `freeAll` — freeing one node after another, with the pointer to the next one read before.
* `modify`, `remove` — writing to a node, and taking the first node of some kind off the list. The node is not
  freed.

A program that goes along a list does not end if the list is a ring. There are at most as many nodes as blocks
have been allocated, so it is given up after that many steps, with a fault.
-/

namespace Gross.Foundation

/-- How a node is kept in a block. -/
structure Linked (β γ : Type) where
  /-- The block of a node. -/
  link : β → Option Addr → γ
  /-- The node in a block. -/
  unlink : γ → Option (β × Option Addr)
  /-- They belong together. -/
  unlink_link : ∀ b e, unlink (link b e) = some (b, e)

namespace Linked

variable {β γ : Type} (k : Linked β γ)

/-- A pointer to the first node; `e` if there is none. -/
def first : List (Addr × β) → Option Addr → Option Addr
  | [], e => e
  | (a, _) :: _, _ => some a

/-- The blocks of nodes; the last one points to `e`. -/
def blocks : List (Addr × β) → Option Addr → List (Addr × γ)
  | [], _ => []
  | (a, b) :: nodes, e => (a, k.link b (first nodes e)) :: blocks nodes e

/-! ### The programs -/

/-- `while (n->next) n = n->next` -/
def last : ℕ → Addr → Mem γ Addr
  | 0, _ => .fail .exit
  | fuel + 1, a => do
    let (_, next) ← Mem.view k.unlink a
    match next with
    | none => pure a
    | some a' => last fuel a'

/-- The node at `m` is linked to the end of the list at `p`, or is the list if there is none. -/
def append (p : Option Addr) (m : Addr) : Mem γ (Option Addr) := do
  match p with
  | none => pure (some m)
  | some a =>
    let n ← k.last (← Mem.brk) a
    let (b, _) ← Mem.view k.unlink n
    Mem.put n (k.link b (some m))
    pure (some a)

/-- What is in the nodes. -/
def collect : ℕ → Option Addr → Mem γ (List β)
  | _, none => pure []
  | 0, some _ => .fail .exit
  | fuel + 1, some a => do
    let (b, next) ← Mem.view k.unlink a
    return b :: (← collect fuel next)

/-- `while (n) { n = m->next; free(m); m = n; }` -/
def freeAll : ℕ → Option Addr → Mem γ Unit
  | _, none => pure ()
  | 0, some _ => .fail .exit
  | fuel + 1, some a => do
    let (_, next) ← Mem.view k.unlink a
    Mem.free a
    freeAll fuel next

/-- What is in a node is written, and the node stays where it is in the list. -/
def modify (a : Addr) (f : β → β) : Mem γ Unit := do
  let (b, next) ← Mem.view k.unlink a
  Mem.put a (k.link (f b) next)

/-- `while (n->next) { if (p(n->next)) { n->next = n->next->next; break; } n = n->next; }` -/
def removeNext (p : β → Bool) : ℕ → Addr → Mem γ Unit
  | 0, _ => .fail .exit
  | fuel + 1, a => do
    let (b, next) ← Mem.view k.unlink a
    match next with
    | none => pure ()
    | some a' => do
      let (b', next') ← Mem.view k.unlink a'
      if p b' then Mem.put a (k.link b next') else removeNext p fuel a'

/-- The first node that `p` is true of is taken off the list, which has one node at least. -/
def remove (p : β → Bool) (head : Option Addr) : Mem γ (Option Addr) := do
  let a ← Mem.deref head
  let (b, next) ← Mem.view k.unlink a
  if p b then pure next
  else do
    k.removeNext p (← Mem.brk) a
    pure (some a)

/-! ### What they do -/

variable {k}

theorem length_blocks (nodes : List (Addr × β)) (e : Option Addr) : (k.blocks nodes e).length = nodes.length := by
  induction nodes with
  | nil => rfl
  | cons n nodes ih => rw [blocks, List.length_cons, List.length_cons, ih]

theorem map_fst_blocks (nodes : List (Addr × β)) (e : Option Addr) :
    (k.blocks nodes e).map Prod.fst = nodes.map Prod.fst := by
  induction nodes with
  | nil => rfl
  | cons n nodes ih => rw [blocks, List.map_cons, List.map_cons, ih]

theorem blocks_append (nodes nodes' : List (Addr × β)) (e : Option Addr) :
    k.blocks (nodes ++ nodes') e = k.blocks nodes (first nodes' e) ++ k.blocks nodes' e := by
  induction nodes with
  | nil => rfl
  | cons n nodes ih =>
    have hfirst : first (nodes ++ nodes') e = first nodes (first nodes' e) := by cases nodes <;> rfl
    rw [List.cons_append, blocks, blocks, ih, hfirst, List.cons_append]

variable {l : List (Addr × γ)}

theorem runs_unlink {a : Addr} {b : β} {e : Option Addr} (h : (a, k.link b e) ∈ l) :
    Runs l (Mem.view k.unlink a) fun r l' => r = (b, e) ∧ l' = l := runs_view h (k.unlink_link b e)

theorem runs_last {nodes : List (Addr × β)} {a : Addr} {b : β} {fuel : ℕ} (hfuel : nodes.length < fuel)
    (h : ∀ x ∈ k.blocks (nodes ++ [(a, b)]) none, x ∈ l) {a₀ : Addr} (hfirst : first (nodes ++ [(a, b)]) none = some a₀) :
    Runs l (k.last fuel a₀) fun n l' => n = a ∧ l' = l := by
  induction nodes generalizing a₀ fuel with
  | nil =>
    obtain ⟨fuel, rfl⟩ := Nat.exists_eq_add_of_lt hfuel
    obtain rfl : a = a₀ := Option.some.inj hfirst
    refine (runs_unlink (h _ List.mem_cons_self)).known ?_
    exact runs_pure ⟨rfl, rfl⟩
  | cons n nodes ih =>
    cases fuel with
    | zero => cases hfuel
    | succ fuel =>
      obtain rfl : n.1 = a₀ := Option.some.inj hfirst
      -- there is a next one, if only the last
      obtain ⟨a₁, hnext⟩ : ∃ a₁, first (nodes ++ [(a, b)]) none = some a₁ := by cases nodes <;> exact ⟨_, rfl⟩
      have hnode : (n.1, k.link n.2 (some a₁)) ∈ l := h _ (hnext ▸ List.mem_cons_self)
      refine (runs_unlink hnode).known ?_
      exact ih (Nat.lt_of_succ_lt_succ hfuel) (fun x hx => h x (List.mem_cons_of_mem _ hx)) hnext

/-- The node is the last one then. -/
theorem runs_append {nodes : List (Addr × β)} {m : Addr} {b : β} :
    Runs ((m, k.link b none) :: (k.blocks nodes none ++ l)) (k.append (first nodes none) m) fun p l' =>
      p = first (nodes ++ [(m, b)]) none ∧ l'.Perm (k.blocks (nodes ++ [(m, b)]) none ++ l) := by
  rcases List.eq_nil_or_concat nodes with rfl | ⟨init, ⟨a, b'⟩, rfl⟩
  · exact runs_pure ⟨rfl, .refl _⟩
  · rw [List.concat_eq_append]
    obtain ⟨a₀, hfirst⟩ : ∃ a₀, first (init ++ [(a, b')]) none = some a₀ := by cases init <;> exact ⟨_, rfl⟩
    have hfirst' : first (init ++ [(a, b')] ++ [(m, b)]) none = some a₀ := by cases init <;> exact hfirst
    rw [hfirst, hfirst']
    refine runs_brk.bind ?_
    rintro fuel _ ⟨rfl, hfuel⟩
    have hlt : init.length < fuel := by
      have := length_blocks (k := k) (init ++ [(a, b')]) none
      simp at hfuel this
      omega
    refine (runs_last hlt (fun x hx => List.mem_cons_of_mem _ (List.mem_append_left _ hx)) hfirst).bind ?_
    rintro a _ ⟨rfl, rfl⟩
    have hmem : (a, k.link b' none) ∈ k.blocks (init ++ [(a, b')]) none := by
      rw [blocks_append]
      exact List.mem_append_right _ List.mem_cons_self
    refine (runs_unlink (List.mem_cons_of_mem _ (List.mem_append_left _ hmem))).known ?_
    -- the last node is brought to the front
    have hfront : ((m, k.link b none) :: (k.blocks (init ++ [(a, b')]) none ++ l)).Perm
        ((a, k.link b' none) :: (m, k.link b none) :: (k.blocks init (some a) ++ l)) := by
      rw [blocks_append, List.append_assoc]
      exact (List.perm_middle.cons _).trans (.swap _ _ _)
    refine ((runs_put _).perm hfront).seq ?_
    refine runs_pure ⟨rfl, ?_⟩
    rw [List.append_assoc, blocks_append, List.append_assoc]
    exact ((List.perm_append_comm_assoc (k.blocks init (some a)) [(a, k.link b' (some m)), (m, k.link b none)] l)).symm

theorem runs_collect {nodes : List (Addr × β)} {fuel : ℕ} (hfuel : nodes.length ≤ fuel)
    (h : ∀ x ∈ k.blocks nodes none, x ∈ l) :
    Runs l (k.collect fuel (first nodes none)) fun bs l' => bs = nodes.map Prod.snd ∧ l' = l := by
  induction nodes generalizing fuel with
  | nil => cases fuel <;> exact runs_pure ⟨rfl, rfl⟩
  | cons n nodes ih =>
    cases fuel with
    | zero => cases hfuel
    | succ fuel =>
      refine (runs_unlink (h _ List.mem_cons_self)).known ?_
      refine (ih (Nat.le_of_succ_le_succ hfuel) fun x hx => h x (List.mem_cons_of_mem _ hx)).known ?_
      exact runs_pure ⟨rfl, rfl⟩

theorem runs_freeAll {nodes : List (Addr × β)} {fuel : ℕ} (hfuel : nodes.length ≤ fuel) :
    Runs (k.blocks nodes none ++ l) (k.freeAll fuel (first nodes none)) fun _ l' => l' = l := by
  induction nodes generalizing fuel with
  | nil => cases fuel <;> exact runs_pure rfl
  | cons n nodes ih =>
    cases fuel with
    | zero => cases hfuel
    | succ fuel =>
      refine (runs_unlink List.mem_cons_self).known ?_
      refine runs_free.seq ?_
      exact ih (Nat.le_of_succ_le_succ hfuel)

/-- A node among others is brought to the front. -/
theorem blocks_middle (pre post : List (Addr × β)) (a : Addr) (b : β) (e : Option Addr) :
    (k.blocks (pre ++ (a, b) :: post) e ++ l).Perm
      ((a, k.link b (first post e)) :: (k.blocks pre (some a) ++ (k.blocks post e ++ l))) := by
  rw [blocks_append, List.append_assoc]
  exact List.perm_middle

theorem runs_modify {pre post : List (Addr × β)} {a : Addr} {b : β} (f : β → β) :
    Runs (k.blocks (pre ++ (a, b) :: post) none ++ l) (k.modify a f) fun _ l' =>
      l'.Perm (k.blocks (pre ++ (a, f b) :: post) none ++ l) := by
  refine Runs.perm ?_ (blocks_middle pre post a b none)
  refine (runs_unlink List.mem_cons_self).known ?_
  refine (runs_put _).imp ?_
  rintro _ _ rfl
  exact (blocks_middle pre post a (f b) none).symm

/-- From a node that stays: the next one that is to go is taken off. -/
theorem runs_removeNext {p : β → Bool} {pre post : List (Addr × β)} {a₀ a : Addr} {b₀ b : β} {fuel : ℕ}
    (hfuel : pre.length < fuel) (hpre : ∀ n ∈ pre, p n.2 = false) (hb : p b = true) :
    Runs (k.blocks ((a₀, b₀) :: pre ++ (a, b) :: post) none ++ l) (k.removeNext p fuel a₀) fun _ l' =>
      l'.Perm ((a, k.link b (first post none)) :: (k.blocks ((a₀, b₀) :: pre ++ post) none ++ l)) := by
  induction pre generalizing a₀ b₀ fuel l with
  | nil =>
    obtain ⟨fuel, rfl⟩ := Nat.exists_eq_add_of_lt hfuel
    refine (runs_unlink List.mem_cons_self).known ?_
    refine (runs_unlink (List.mem_cons_of_mem _ List.mem_cons_self)).known ?_
    dsimp only
    rw [if_pos hb]
    refine (runs_put _).imp ?_
    rintro _ _ rfl
    exact .swap _ _ _
  | cons n pre ih =>
    cases fuel with
    | zero => cases hfuel
    | succ fuel =>
      obtain ⟨hn, hpre⟩ := List.forall_mem_cons.mp hpre
      refine (runs_unlink List.mem_cons_self).known ?_
      refine (runs_unlink (List.mem_cons_of_mem _ List.mem_cons_self)).known ?_
      dsimp only
      rw [hn, if_neg Bool.false_ne_true]
      -- the node that has been passed is put behind the others
      have hback : (k.blocks ((a₀, b₀) :: n :: pre ++ (a, b) :: post) none ++ l).Perm
          (k.blocks ((n.1, n.2) :: pre ++ (a, b) :: post) none ++ ((a₀, k.link b₀ (some n.1)) :: l)) :=
        List.perm_middle.symm
      refine Runs.perm ?_ hback
      refine (ih (Nat.lt_of_succ_lt_succ hfuel) hpre).imp ?_
      rintro _ l' hl'
      refine hl'.trans (.cons _ ?_)
      exact List.perm_middle

/-- The node is off the list, and its block is still there. -/
theorem runs_remove {p : β → Bool} {pre post : List (Addr × β)} {a : Addr} {b : β}
    (hpre : ∀ n ∈ pre, p n.2 = false) (hb : p b = true) :
    Runs (k.blocks (pre ++ (a, b) :: post) none ++ l) (k.remove p (first (pre ++ (a, b) :: post) none)) fun head l' =>
      head = first (pre ++ post) none ∧
        l'.Perm ((a, k.link b (first post none)) :: (k.blocks (pre ++ post) none ++ l)) := by
  cases pre with
  | nil =>
    refine (runs_deref a).known ?_
    refine (runs_unlink List.mem_cons_self).known ?_
    dsimp only
    rw [if_pos hb]
    exact runs_pure ⟨rfl, .refl _⟩
  | cons n pre =>
    obtain ⟨hn, hpre⟩ := List.forall_mem_cons.mp hpre
    refine (runs_deref n.1).known ?_
    refine (runs_unlink List.mem_cons_self).known ?_
    dsimp only
    rw [hn, if_neg Bool.false_ne_true]
    refine runs_brk.bind ?_
    rintro fuel _ ⟨rfl, hfuel⟩
    have hlt : pre.length < fuel := by
      have hlen : (k.blocks (n :: pre ++ (a, b) :: post) none ++ l).length ≤ fuel := hfuel
      rw [List.length_append, length_blocks, List.length_append, List.length_cons] at hlen
      omega
    refine (runs_removeNext hlt hpre hb).bind ?_
    rintro _ _ hl'
    exact runs_pure ⟨rfl, hl'⟩

end Linked

end Gross.Foundation
