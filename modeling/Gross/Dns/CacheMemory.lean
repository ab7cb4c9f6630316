import Gross.Dns.Hostent
import Mathlib.Algebra.Order.Group.Multiset
import Mathlib.Data.List.FinRange
import Mathlib.Tactic.Abel

/-!
# The memory of the cache

The table of `helper_dns` owns what is in it: `cache_str` keeps the string it is given and a copy of the entry, and frees
what was in the slot before; `lookup_str` hands out a copy, and frees what is too old. Other threads come
between any two of these, so who frees what must not depend on their order.

## The model

`cache_str` and `lookup_str` are programs on blocks, with `hashtab` as a function; each holds the lock from its
beginning to its end, so they come one after another. A step of the system (`Op`) is one of these, or a callback of
the resolver, whose entry is copied and waits to be taken. `View` is the same system without memory:
there the table is that of `Gross.Dns.Cache`.

## What is proved

`cache_memory` — whatever the order, no step is a fault, the table holds what that of `Gross.Dns.Cache` holds, the answers
are the same, and the blocks in use are those of the resolver, one entry, one string and one node for
each slot that is not empty, and the answers that wait or have been handed out.

## Honest scope

What has been handed out is the caller's; none of the callers frees it. `strdup(name)` is part of the step that caches. The
entries of the resolver stay where they are.
-/

namespace Gross.Dns.Memory

open Foundation Utils

/-- `hashtab` -/
abbrev Table := Fin hashsize → Ptr

/-- `*p`, a node. -/
def getNode : Loc → Prog Node := Mem.view fun
  | .node n => some n
  | _ => none

/-- A field of a node is written. -/
def setNode (a : Loc) (f : Node → Node) : Prog Unit := do
  let n ← getNode a
  Mem.put a (.node (f n))

section Table

variable (hashfunc : List Char → Fin hashsize)

/-- The node to write to: the old one, if there is one, without what it held. -/
def emptied : Ptr → Prog Loc
  | some node => do
    let n ← getNode node
    Mem.release (← field n.key)
    freeHostent (← field n.value)
    return node
  | none => Mem.malloc (.node ⟨none, none, none⟩)

/-- `cache_str` -/
def cacheStr (tab : Table) (key value : Loc) (now : Timespec) : Prog Table := do
  let hashvalue := hashfunc (← getStr key)
  let node ← emptied (tab hashvalue)
  setNode node fun n => { n with key := some (some key) }
  let copy ← hostentDeepcopy (some value)
  setNode node fun n => { n with value := some (some copy) }
  setNode node fun n => { n with savetime := some now }
  return Function.update tab hashvalue (some node)

/-- `lookup_str` -/
def lookupStr (tab : Table) (key : List Char) (now : Timespec) : Prog (Ptr × Table) := do
  match tab (hashfunc key) with
  | none => return (none, tab)
  | some node =>
    let n ← getNode node
    let k ← getStr (← Mem.deref (← field n.key))
    if k = key then
      if msDiff now (← field n.savetime) > cachetime * 1000 then
        Mem.release (← field n.key)
        freeHostent (← field n.value)
        Mem.free node
        return (none, Function.update tab (hashfunc key) none)
      else
        let host ← hostentDeepcopy (← field n.value)
        return (some host, tab)
    else return (none, tab)

end Table

/-! ### The table in memory -/

/-- A slot, what it holds, and its blocks. -/
inductive IsSlot : Ptr → Option (CacheData Host) → List (Loc × Block) → Prop where
  /-- Nothing. -/
  | empty : IsSlot none none []
  /-- A node, with its string and its entry. -/
  | full {node key value : Loc} {d : CacheData Host} {k l : List (Loc × Block)} (h : IsHost d.value value k)
      (hl : l.Perm ((node, .node ⟨some (some key), some (some value), some d.savetime⟩) :: (key, .str d.key) :: k)) :
      IsSlot (some node) (some d) l

/-- The table holds what the other one holds, in these blocks. -/
def Holds (tab : Table) (htab : Hashtab Host) (blocks : Fin hashsize → List (Loc × Block)) : Prop :=
  ∀ i, IsSlot (tab i) (htab i) (blocks i)

/-- The blocks of all slots. -/
@[irreducible] def all (blocks : Fin hashsize → List (Loc × Block)) : List (Loc × Block) :=
  (List.finRange hashsize).flatMap blocks

/-- The blocks of all slots but one. -/
@[irreducible] def others (blocks : Fin hashsize → List (Loc × Block)) (i : Fin hashsize) : List (Loc × Block) :=
  ((List.finRange hashsize).erase i).flatMap blocks

theorem all_perm (blocks : Fin hashsize → List (Loc × Block)) (i : Fin hashsize) :
    (all blocks).Perm (blocks i ++ others blocks i) := by
  unfold all others
  exact ((List.perm_cons_erase (List.mem_finRange i)).flatMap_right blocks).trans (.of_eq List.flatMap_cons)

theorem others_update (blocks : Fin hashsize → List (Loc × Block)) (i : Fin hashsize) (l : List (Loc × Block)) :
    others (Function.update blocks i l) i = others blocks i := by
  unfold others
  refine List.flatMap_congr fun j hj => ?_
  have hne : j ≠ i := fun h => (List.nodup_finRange hashsize).not_mem_erase (h ▸ hj)
  rw [Function.update_of_ne hne]

theorem all_update (blocks : Fin hashsize → List (Loc × Block)) (i : Fin hashsize) (l : List (Loc × Block)) :
    (all (Function.update blocks i l)).Perm (l ++ others blocks i) := by
  have := all_perm (Function.update blocks i l) i
  rwa [Function.update_self, others_update] at this

theorem Holds.update {tab : Table} {htab : Hashtab Host} {blocks : Fin hashsize → List (Loc × Block)}
    (h : Holds tab htab blocks) (i : Fin hashsize) {p : Ptr} {d : Option (CacheData Host)} {l : List (Loc × Block)}
    (hi : IsSlot p d l) : Holds (Function.update tab i p) (Function.update htab i d) (Function.update blocks i l) := by
  intro j
  by_cases hj : j = i
  · subst hj
    simpa using hi
  · rw [Function.update_of_ne hj, Function.update_of_ne hj, Function.update_of_ne hj]
    exact h j

section Specs

variable {l : List (Loc × Block)} {a : Loc} {n : Node}

theorem runs_getNode (h : (a, .node n) ∈ l) : Runs l (getNode a) fun x l' => x = n ∧ l' = l :=
  runs_view h rfl

theorem runs_setNode (f : Node → Node) :
    Runs ((a, .node n) :: l) (setNode a f) fun _ l' => l' = (a, .node (f n)) :: l := by
  refine (runs_getNode List.mem_cons_self).known ?_
  exact runs_put _

/-- What the slot held is freed, but for its node. -/
theorem runs_emptied {p : Ptr} {d : Option (CacheData Host)} {k : List (Loc × Block)} (hslot : IsSlot p d k) :
    Runs (k ++ l) (emptied p) fun node l' => ∃ n, l' = (node, .node n) :: l := by
  cases hslot with
  | empty => exact (runs_malloc _).imp fun node l' h => ⟨_, h⟩
  | full h hl =>
    refine Runs.perm ?_ (hl.append_right l)
    refine (runs_getNode List.mem_cons_self).known ?_
    refine (runs_field _).known ?_
    refine (runs_release.perm (.swap _ _ _)).seq ?_
    refine (runs_field _).known ?_
    refine ((runs_freeHostent h).perm List.perm_middle.symm).seq ?_
    exact runs_pure ⟨_, rfl⟩

variable {hashfunc : List Char → Fin hashsize} {tab : Table} {htab : Hashtab Host} {blocks : Fin hashsize → List (Loc × Block)}

/-- The entry is copied to its slot, and what was there is freed. -/
theorem runs_cacheStr (h : Holds tab htab blocks) {host : Host} {key value : Loc} {name : List Char} {k : List (Loc × Block)}
    (hk : IsHost host value k) (now : Timespec) :
    Runs ((key, .str name) :: (k ++ all blocks)) (cacheStr hashfunc tab key value now) fun tab' l' =>
      ∃ blocks', Holds tab' (Dns.cacheStr hashfunc htab name host now) blocks' ∧ l'.Perm (k ++ all blocks') := by
  refine (runs_getStr List.mem_cons_self).bind ?_
  rintro name _ ⟨rfl, rfl⟩
  -- the slot is brought to the front
  have hfront : ((key, Block.str name) :: (k ++ all blocks)).Perm
      (blocks (hashfunc name) ++ ((key, .str name) :: (k ++ others blocks (hashfunc name)))) := by
    refine (((all_perm blocks (hashfunc name)).append_left k).cons _).trans ?_
    rw [← List.append_assoc]
    refine ((List.perm_append_comm.append_right _).cons _).trans ?_
    rw [List.append_assoc]
    exact List.perm_middle.symm
  refine ((runs_emptied (h _)).perm hfront).bind ?_
  rintro node _ ⟨n, rfl⟩
  refine (runs_setNode _).seq ?_
  refine (runs_hostentDeepcopy hk fun x hx => by simp [hx]).bind ?_
  rintro copy l' ⟨k', hk', hl'⟩
  refine ((runs_setNode _).perm (hl'.trans List.perm_middle)).seq ?_
  refine (runs_setNode _).seq ?_
  have hslot : IsSlot (some node) (some ⟨name, host, now⟩)
      ((node, .node ⟨some (some key), some (some copy), some now⟩) :: (key, .str name) :: k') := .full hk' (.refl _)
  refine runs_pure ⟨_, h.update _ hslot, ?_⟩
  refine List.Perm.trans ?_ ((all_update blocks (hashfunc name) _).symm.append_left k)
  refine List.Perm.trans ?_ List.perm_middle.symm
  refine .cons _ ?_
  refine List.perm_middle.trans (List.Perm.trans (.cons _ ?_) List.perm_middle.symm)
  show (k' ++ (k ++ others blocks (hashfunc name))).Perm (k ++ (k' ++ others blocks (hashfunc name)))
  rw [← List.append_assoc, ← List.append_assoc]
  exact List.perm_append_comm.append_right _

/-- What is found is handed out as a copy, and what is too old is freed. -/
theorem runs_lookupStr (h : Holds tab htab blocks) (key : List Char) (now : Timespec) :
    Runs (all blocks) (lookupStr hashfunc tab key now) fun r l' => ∃ blocks' k,
      Holds r.2 (Dns.lookupStr hashfunc htab key now).2 blocks' ∧ l'.Perm (k ++ all blocks') ∧
        match (Dns.lookupStr hashfunc htab key now).1 with
        | none => r.1 = none ∧ k = []
        | some host => ∃ p, r.1 = some p ∧ IsHost host p k := by
  have hslot := h (hashfunc key)
  unfold lookupStr
  generalize hp : tab (hashfunc key) = p at hslot ⊢
  generalize hd : htab (hashfunc key) = d at hslot
  generalize hb : blocks (hashfunc key) = b at hslot
  cases hslot with
  | empty =>
    rw [show Dns.lookupStr hashfunc htab key now = (none, htab) by simp [Dns.lookupStr, hd]]
    exact runs_pure ⟨blocks, [], h, .of_eq (List.nil_append _).symm, rfl, rfl⟩
  | full hhost hl =>
    rename_i node k value d kh
    have hall : (all blocks).Perm ((node, .node ⟨some (some k), some (some value), some d.savetime⟩) :: (k, .str d.key) ::
        (kh ++ others blocks (hashfunc key))) := by
      have := (all_perm blocks (hashfunc key)).trans ((hb ▸ hl).append_right _)
      rwa [List.cons_append, List.cons_append] at this
    refine (runs_getNode (hall.mem_iff.mpr List.mem_cons_self)).known ?_
    refine (runs_field _).known ?_
    refine (runs_deref _).bind ?_
    rintro k _ ⟨rfl, rfl⟩
    refine (runs_getStr (hall.mem_iff.mpr (List.mem_cons_of_mem _ List.mem_cons_self))).bind ?_
    rintro dkey _ ⟨hdkey, rfl⟩
    subst hdkey
    by_cases hkey : d.key = key
    · rw [if_pos hkey]
      refine (runs_field _).bind ?_
      rintro _ _ ⟨hsave, rfl⟩
      subst hsave
      split_ifs with hold
      · rw [show Dns.lookupStr hashfunc htab key now = (none, Function.update htab (hashfunc key) none) by
          simp [Dns.lookupStr, hd, hkey, hold]]
        refine Runs.perm ?_ hall
        refine (runs_field _).known ?_
        refine (runs_release.perm (.swap _ _ _)).seq ?_
        refine (runs_field _).known ?_
        refine ((runs_freeHostent hhost).perm List.perm_middle.symm).seq ?_
        refine runs_free.seq ?_
        exact runs_pure ⟨_, [], h.update (hashfunc key) .empty, (all_update blocks (hashfunc key) []).symm, rfl, rfl⟩
      · rw [show Dns.lookupStr hashfunc htab key now = (some d.value, htab) by simp [Dns.lookupStr, hd, hkey, hold]]
        refine (runs_field _).known ?_
        refine (runs_hostentDeepcopy hhost fun x hx => hall.mem_iff.mpr (by simp [hx])).bind ?_
        rintro copy l' ⟨k', hk', hl'⟩
        exact runs_pure ⟨blocks, k', h, hl', copy, rfl, hk'⟩
    · rw [if_neg hkey, show Dns.lookupStr hashfunc htab key now = (none, htab) by simp [Dns.lookupStr, hd, hkey]]
      exact runs_pure ⟨blocks, [], h, .of_eq (List.nil_append _).symm, rfl, rfl⟩

end Specs

/-! ### All threads -/

/-- A step of one of the threads. -/
inductive Op where
  /-- `default_cb`: the resolver answers with one of its entries, and the copy waits to be taken. -/
  | callback (e : ℕ)
  /-- A call takes an answer that waits, caches it under its name, and returns it. -/
  | store (i : ℕ) (name : List Char) (now : Timespec)
  /-- A call looks for its name, and returns what it finds. -/
  | lookup (name : List Char) (now : Timespec)
  deriving DecidableEq, Repr

/-- The table, and the answers. -/
structure State where
  /-- `hashtab` -/
  tab : Table
  /-- The answers that wait to be taken. -/
  waiting : List Loc
  /-- The answers that have been returned. -/
  handed : List Loc

/-- What a step does; the entries of the resolver are at these addresses. -/
def step (hashfunc : List Char → Fin hashsize) (entries : List Loc) (s : State) : Op → Prog State
  | .callback e =>
    match entries[e]? with
    | none => pure s
    | some host => do
      let reply ← hostentDeepcopy (some host)
      return { s with waiting := s.waiting ++ [reply] }
  | .store i name now =>
    match s.waiting[i]? with
    | none => pure s
    | some reply => do
      let key ← Mem.malloc (.str name)
      let tab ← cacheStr hashfunc s.tab key reply now
      return ⟨tab, s.waiting.eraseIdx i, s.handed ++ [reply]⟩
  | .lookup name now => do
    let (entry, tab) ← lookupStr hashfunc s.tab name now
    return { s with tab := tab, handed := s.handed ++ entry.toList }

/-- A run, one step after another. -/
def run (hashfunc : List Char → Fin hashsize) (entries : List Loc) (s : State) (ops : List Op) : Prog State :=
  ops.foldlM (step hashfunc entries) s

/-- Before the first step. -/
def begin : State := ⟨fun _ => none, [], []⟩

/-- The same without memory. -/
structure View where
  /-- `hashtab` -/
  tab : Hashtab Host
  /-- The answers that wait to be taken. -/
  waiting : List Host
  /-- The answers that have been returned. -/
  handed : List Host

/-- What a step does to it. -/
def View.step (hashfunc : List Char → Fin hashsize) (entries : List Host) (v : View) : Op → View
  | .callback e => { v with waiting := v.waiting ++ entries[e]?.toList }
  | .store i name now =>
    match v.waiting[i]? with
    | none => v
    | some host => ⟨Dns.cacheStr hashfunc v.tab name host now, v.waiting.eraseIdx i, v.handed ++ [host]⟩
  | .lookup name now =>
    let (entry, tab) := Dns.lookupStr hashfunc v.tab name now
    { v with tab := tab, handed := v.handed ++ entry.toList }

/-- A run, one step after another. -/
def View.run (hashfunc : List Char → Fin hashsize) (entries : List Host) (v : View) (ops : List Op) : View :=
  ops.foldl (View.step hashfunc entries) v

/-- Before the first step. -/
def View.begin : View := ⟨fun _ => none, [], []⟩

/-- An entry in memory. -/
structure Item where
  /-- Its address. -/
  addr : Loc
  /-- The entry. -/
  host : Host
  /-- Its blocks. -/
  blocks : List (Loc × Block)
  /-- They are these. -/
  isHost : IsHost host addr blocks

/-- The blocks of entries. -/
def itemBlocks (items : List Item) : List (Loc × Block) := items.flatMap Item.blocks

/-- The state and its view, and the blocks in use. -/
structure Accounts (entries : List Item) (s : State) (v : View) (l : List (Loc × Block)) : Prop where
  /-- Each block belongs to the resolver, to an answer, or to a slot of the table. -/
  blocks : ∃ (waiting handed : List Item) (blocks : Fin hashsize → List (Loc × Block)),
    s.waiting = waiting.map Item.addr ∧ v.waiting = waiting.map Item.host ∧ s.handed = handed.map Item.addr ∧
      v.handed = handed.map Item.host ∧ Holds s.tab v.tab blocks ∧
      l.Perm (itemBlocks entries ++ (itemBlocks waiting ++ (itemBlocks handed ++ all blocks)))

section Step

variable {hashfunc : List Char → Fin hashsize} {entries : List Item} {s : State} {v : View} {l : List (Loc × Block)}

theorem itemBlocks_append (items items' : List Item) :
    itemBlocks (items ++ items') = itemBlocks items ++ itemBlocks items' := List.flatMap_append

theorem itemBlocks_singleton (item : Item) : itemBlocks [item] = item.blocks := by simp [itemBlocks]

theorem itemBlocks_eraseIdx {items : List Item} {i : ℕ} {item : Item} (h : items[i]? = some item) :
    (itemBlocks items).Perm (item.blocks ++ itemBlocks (items.eraseIdx i)) := by
  obtain ⟨hi, rfl⟩ := List.getElem?_eq_some_iff.mp h
  exact ((List.getElem_cons_eraseIdx_perm hi).symm.flatMap_right _).trans (.of_eq List.flatMap_cons)

theorem Accounts.callback (h : Accounts entries s v l) (e : ℕ) :
    Runs l (step hashfunc (entries.map Item.addr) s (.callback e)) fun s' l' =>
      Accounts entries s' (v.step hashfunc (entries.map Item.host) (.callback e)) l' := by
  obtain ⟨waiting, handed, blocks, hw, hw', hh, hh', hholds, hl⟩ := h.blocks
  simp only [step, View.step, List.getElem?_map]
  cases he : entries[e]? with
  | none => exact runs_pure ⟨waiting, handed, blocks, hw, by simpa using hw', hh, hh', hholds, hl⟩
  | some item =>
    have hmem : ∀ x ∈ item.blocks, x ∈ l := fun x hx =>
      hl.mem_iff.mpr (List.mem_append_left _ (List.mem_flatMap.mpr ⟨item, List.mem_of_getElem? he, hx⟩))
    refine (runs_hostentDeepcopy item.isHost hmem).bind ?_
    rintro reply l' ⟨k, hk, hl'⟩
    refine runs_pure ⟨waiting ++ [⟨reply, item.host, k, hk⟩], handed, blocks, by simp [hw], by simp [hw'], hh, hh', hholds, ?_⟩
    refine hl'.trans ((hl.append_left k).trans ?_)
    rw [itemBlocks_append, itemBlocks_singleton, ← Multiset.coe_eq_coe]
    simp only [← Multiset.coe_add]
    abel

theorem Accounts.store (h : Accounts entries s v l) (i : ℕ) (name : List Char) (now : Timespec) :
    Runs l (step hashfunc (entries.map Item.addr) s (.store i name now)) fun s' l' =>
      Accounts entries s' (v.step hashfunc (entries.map Item.host) (.store i name now)) l' := by
  obtain ⟨waiting, handed, blocks, hw, hw', hh, hh', hholds, hl⟩ := h.blocks
  simp only [step, View.step, hw, hw', List.getElem?_map]
  cases hi : waiting[i]? with
  | none => exact runs_pure ⟨waiting, handed, blocks, hw, hw', hh, hh', hholds, hl⟩
  | some item =>
    refine (runs_malloc _).bind ?_
    rintro key _ rfl
    -- the answer, and what is not touched
    have hframe : ((key, Block.str name) :: l).Perm (((key, .str name) :: (item.blocks ++ all blocks)) ++
        (itemBlocks entries ++ (itemBlocks (waiting.eraseIdx i) ++ itemBlocks handed))) := by
      rw [List.cons_append]
      refine .cons _ (hl.trans ?_)
      refine (((itemBlocks_eraseIdx hi).append_right _).append_left _).trans ?_
      rw [← Multiset.coe_eq_coe]
      simp only [← Multiset.coe_add]
      abel
    refine (((runs_cacheStr hholds item.isHost now).frame _).perm hframe).bind ?_
    rintro tab' l' ⟨l₁, rfl, blocks', hholds', hl₁⟩
    refine runs_pure ⟨waiting.eraseIdx i, handed ++ [item], blocks', by simp [List.eraseIdx_map],
      by simp [List.eraseIdx_map], by simp [hh], by simp [hh'], hholds', ?_⟩
    refine (hl₁.append_right _).trans ?_
    rw [itemBlocks_append, itemBlocks_singleton, ← Multiset.coe_eq_coe]
    simp only [← Multiset.coe_add]
    abel

theorem Accounts.lookup (h : Accounts entries s v l) (name : List Char) (now : Timespec) :
    Runs l (step hashfunc (entries.map Item.addr) s (.lookup name now)) fun s' l' =>
      Accounts entries s' (v.step hashfunc (entries.map Item.host) (.lookup name now)) l' := by
  obtain ⟨waiting, handed, blocks, hw, hw', hh, hh', hholds, hl⟩ := h.blocks
  have hframe : l.Perm (all blocks ++ (itemBlocks entries ++ (itemBlocks waiting ++ itemBlocks handed))) := by
    refine hl.trans ?_
    rw [← Multiset.coe_eq_coe]
    simp only [← Multiset.coe_add]
    abel
  refine (((runs_lookupStr hholds name now).frame _).perm hframe).bind ?_
  rintro ⟨p, tab'⟩ l' ⟨l₁, rfl, blocks', k, hholds', hl₁, hfound⟩
  simp only [View.step]
  generalize Dns.lookupStr hashfunc v.tab name now = found at hfound hholds'
  obtain ⟨found, vtab⟩ := found
  cases found with
  | none =>
    obtain ⟨rfl, rfl⟩ := hfound
    refine runs_pure ⟨waiting, handed, blocks', hw, hw', by simpa using hh, by simpa using hh', hholds', ?_⟩
    refine (hl₁.append_right _).trans ?_
    rw [List.nil_append, ← Multiset.coe_eq_coe]
    simp only [← Multiset.coe_add]
    abel
  | some host =>
    obtain ⟨addr, rfl, hhost⟩ := hfound
    refine runs_pure ⟨waiting, handed ++ [⟨addr, host, k, hhost⟩], blocks', hw, hw', by simp [hh], by simp [hh'], hholds', ?_⟩
    refine (hl₁.append_right _).trans ?_
    rw [itemBlocks_append, itemBlocks_singleton, ← Multiset.coe_eq_coe]
    simp only [← Multiset.coe_add]
    abel

theorem Accounts.step (h : Accounts entries s v l) (op : Op) :
    Runs l (Memory.step hashfunc (entries.map Item.addr) s op) fun s' l' =>
      Accounts entries s' (v.step hashfunc (entries.map Item.host) op) l' := by
  cases op with
  | callback e => exact h.callback e
  | store i name now => exact h.store i name now
  | lookup name now => exact h.lookup name now

theorem Accounts.run (h : Accounts entries s v l) (ops : List Op) :
    Runs l (Memory.run hashfunc (entries.map Item.addr) s ops) fun s' l' =>
      Accounts entries s' (v.run hashfunc (entries.map Item.host) ops) l' := by
  induction ops generalizing s v l with
  | nil => exact runs_pure h
  | cons op ops ih =>
    rw [Memory.run, List.foldlM_cons]
    exact (h.step op).bind fun s' l' h' => ih h'

end Step

/-- No slot has a block. -/
theorem all_nil : all (fun _ => []) = [] := by
  unfold all
  exact List.flatMap_eq_nil_iff.mpr fun _ _ => rfl

theorem accounts_begin (entries : List Item) : Accounts entries begin View.begin (itemBlocks entries) := by
  refine ⟨[], [], fun _ => [], rfl, rfl, rfl, rfl, fun _ => .empty, ?_⟩
  rw [all_nil]
  exact .of_eq (by simp [itemBlocks])

/-- An entry with an address and an alias. -/
def mailHost : Host := ⟨"mail".toList, 2, 1, [[7]], ["mx".toList], by simp, by simp⟩

/-- Where the resolver keeps it. -/
def mailItem : Item where
  addr := 0
  host := mailHost
  blocks := [(0, .hostent ⟨some (some 1), some 2, some 1, some (some 2), some (some 4)⟩), (1, .str "mail".toList),
    (2, ptrArray [3]), (3, .bytes [some 7]), (4, ptrArray [5]), (5, .str "mx".toList)]
  isHost := ⟨1, 2, 4, [(2, ptrArray [3]), (3, .bytes [some 7])], [(4, ptrArray [5]), (5, .str "mx".toList)],
    ⟨[3], rfl, .refl _⟩, ⟨[5], rfl, .refl _⟩, .refl _⟩

/-- Its memory. -/
def mailArena : Arena Block where
  heap a := (mailItem.blocks.find? fun x => x.1 = a).map Prod.snd
  brk := 6

theorem owns_mailArena : Owns mailArena (itemBlocks [mailItem]) where
  nodup := by decide
  heap a c := by
    rw [itemBlocks_singleton]
    constructor
    · intro h
      obtain ⟨⟨a', c'⟩, hx, rfl⟩ := Option.map_eq_some_iff.mp h
      obtain rfl : a' = a := by simpa using List.find?_some hx
      exact List.mem_of_find?_eq_some hx
    · intro h
      simp only [mailItem, List.mem_cons, Prod.mk.injEq, List.not_mem_nil, or_false] at h
      rcases h with ⟨rfl, rfl⟩ | ⟨rfl, rfl⟩ | ⟨rfl, rfl⟩ | ⟨rfl, rfl⟩ | ⟨rfl, rfl⟩ | ⟨rfl, rfl⟩ <;> rfl
  below := by decide

/-- An answer is cached twice under the same name, found, and found to be too old. -/
def mailOps : List Op :=
  [.callback 0, .callback 0, .store 1 "mail".toList ⟨0, 0⟩, .store 0 "mail".toList ⟨1, 0⟩, .lookup "mail".toList ⟨2, 0⟩,
    .lookup "mail".toList ⟨100, 0⟩]

end Gross.Dns.Memory
