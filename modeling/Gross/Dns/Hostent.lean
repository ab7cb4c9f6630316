import Gross.Foundation.Arena
import Gross.Foundation.ByteOrder
import Gross.Dns.Cache

/-!
# Host entries in memory

A `struct hostent` is a small tree of blocks: the structure, its name, an array of addresses and an array of
aliases, each ended by `NULL`, and what they point to. `hostent_deepcopy` copies such a tree block by block, and
`free_hostent` frees one.

## The model

A block holds a string, bytes, pointers, a `struct hostent` or an entry of the table (`Block`). What has been
allocated and not yet written is `none`, and reading it is a fault, as is `Free` of `NULL`. `IsHost host p l` says that at `p`
there is the entry `host`, in the blocks `l`.

## What is proved

* `runs_hostentDeepcopy` — the copy is the same entry in new blocks, and the old one is still there.
* `runs_freeHostent` — of an entry that is freed no block is left.

## Honest scope

An entry has a name, and its addresses have a byte at least. One without a name would be copied without writing
`h_name`, and freeing the copy would be a fault; for an address of no bytes the assertion of `Malloc` fails. `Free`
also sets the pointer to `NULL`, which nobody reads.
-/

namespace Gross.Dns

open Foundation Utils

/-- Where a block is. -/
abbrev Loc := Foundation.Addr

/-- A pointer; `none` is `NULL`. -/
abbrev Ptr := Option Loc

/-- `struct hostent`; a field that has not been written is `none`. -/
structure Hostent where
  /-- `h_name` -/
  hName : Option Ptr
  /-- `h_addrtype` -/
  hAddrtype : Option ℕ
  /-- `h_length` -/
  hLength : Option ℕ
  /-- `h_addr_list` -/
  hAddrList : Option Ptr
  /-- `h_aliases` -/
  hAliases : Option Ptr
  deriving DecidableEq, Repr

/-- `cache_data_t` in memory. -/
structure Node where
  /-- `key` -/
  key : Option Ptr
  /-- `value` -/
  value : Option Ptr
  /-- `savetime` -/
  savetime : Option Timespec
  deriving DecidableEq, Repr

/-- What is in a block. -/
inductive Block where
  /-- A string. -/
  | str (s : List Char)
  /-- Bytes. -/
  | bytes (bs : List (Option Byte))
  /-- Pointers. -/
  | ptrs (ps : List (Option Ptr))
  /-- A `struct hostent`. -/
  | hostent (h : Hostent)
  /-- An entry of the table. -/
  | node (n : Node)
  deriving DecidableEq, Repr

/-- The entry, as the resolver sees it. -/
structure Host where
  /-- `h_name` -/
  name : List Char
  /-- `h_addrtype` -/
  addrtype : ℕ
  /-- `h_length` -/
  length : ℕ
  /-- `h_addr_list` -/
  addrs : List (List Byte)
  /-- `h_aliases` -/
  aliases : List (List Char)
  /-- An address has `h_length` bytes. -/
  length_eq : ∀ a ∈ addrs, a.length = length
  /-- It is not empty. -/
  addrs_ne : ∀ a ∈ addrs, a ≠ []
  deriving DecidableEq, Repr

/-- A program on blocks. -/
abbrev Prog := Mem Block

/-! ### Reading and writing -/

/-- A field that has been written. -/
def field {α : Type} : Option α → Prog α
  | none => .fail .outOfBounds
  | some x => pure x

/-- `*p`, a string. -/
def getStr : Loc → Prog (List Char) := Mem.view fun
  | .str s => some s
  | _ => none

/-- `*p`, bytes. -/
def getBytes : Loc → Prog (List (Option Byte)) := Mem.view fun
  | .bytes bs => some bs
  | _ => none

/-- `*p`, pointers. -/
def getPtrs : Loc → Prog (List (Option Ptr)) := Mem.view fun
  | .ptrs ps => some ps
  | _ => none

/-- `*p`, a `struct hostent`. -/
def getHostent : Loc → Prog Hostent := Mem.view fun
  | .hostent h => some h
  | _ => none

/-- `strdup` -/
def strdup (a : Loc) : Prog Loc := do
  let s ← getStr a
  Mem.malloc (.str s)

/-- `ps[i] = p` -/
def setPtr (a : Loc) (i : ℕ) (p : Ptr) : Prog Unit := do
  let ps ← getPtrs a
  if i < ps.length then Mem.put a (.ptrs (ps.set i (some p))) else .fail .outOfBounds

/-- A field of a `struct hostent` is written. -/
def setHostent (a : Loc) (f : Hostent → Hostent) : Prog Unit := do
  let h ← getHostent a
  Mem.put a (.hostent (f h))

/-! ### Copying -/

/-- `count_ptrs`, of what is in the array. -/
def countPtrs : List (Option Ptr) → Except Fault ℕ
  | [] | none :: _ => .error .outOfBounds
  | some none :: _ => .ok 0
  | some (some _) :: ps => do return (← countPtrs ps) + 1

/-- An address: `Malloc` and `memcpy`. -/
def copyAddr (length : ℕ) (src : Loc) : Prog Loc :=
  -- `Malloc` asserts that it is asked for something
  if length = 0 then .fail .assertion
  else do
    let dst ← Mem.malloc (.bytes (List.replicate length none))
    let bs ← getBytes src
    if length ≤ bs.length then
      Mem.put dst (.bytes (bs.take length))
      return dst
    else .fail .outOfBounds

/-- A turn of the loop that copies pointers from `src` to `dst`. -/
def copyTurn (copy : Loc → Prog Loc) (src dst : Loc) (i : ℕ) : Prog Unit := do
  let ps ← getPtrs src
  let p ← field (ps.getD i none)
  let a ← Mem.deref p
  let a' ← copy a
  setPtr dst i (some a')

/-- An array of pointers, and what they point to. -/
def copyPtrs (copy : Loc → Prog Loc) (src : Loc) : Prog Loc := do
  let ps ← getPtrs src
  let count ← (countPtrs ps : Except Fault ℕ)
  let dst ← Mem.malloc (.ptrs (List.replicate (count + 1) none))
  (List.range count).forM (copyTurn copy src dst)
  setPtr dst count none
  return dst

/-- `hostent_deepcopy` -/
def hostentDeepcopy (src : Ptr) : Prog Loc := do
  let dst ← Mem.malloc (.hostent ⟨none, none, none, none, none⟩)
  let src ← Mem.asserted src
  let s ← getHostent src
  match ← field s.hName with
  | none => pure ()
  | some name =>
    let name' ← strdup name
    setHostent dst fun d => { d with hName := some (some name') }
  setHostent dst fun d => { d with hAddrtype := s.hAddrtype, hLength := s.hLength }
  -- copy addresses
  let length ← field s.hLength
  let addrs ← copyPtrs (copyAddr length) (← Mem.deref (← field s.hAddrList))
  setHostent dst fun d => { d with hAddrList := some (some addrs) }
  -- copy aliases
  let aliases ← copyPtrs strdup (← Mem.deref (← field s.hAliases))
  setHostent dst fun d => { d with hAliases := some (some aliases) }
  return dst

/-! ### Freeing -/

/-- The loop that frees what the pointers of an array point to. -/
def freeEach : List (Option Ptr) → Prog Unit
  | [] | none :: _ => .fail .outOfBounds
  | some none :: _ => pure ()
  | some (some a) :: ps => do
    Mem.free a
    freeEach ps

/-- An array of pointers, and what they point to. -/
def freePtrs (p : Option Ptr) : Prog Unit := do
  let a ← Mem.deref (← field p)
  freeEach (← getPtrs a)
  Mem.free a

/-- `free_hostent` -/
def freeHostent (host : Ptr) : Prog Unit := do
  let a ← Mem.asserted host
  let h ← getHostent a
  Mem.release (← field h.hName)
  freePtrs h.hAddrList
  freePtrs h.hAliases
  Mem.free a

/-! ### An entry in memory -/

/-- An array of pointers, ended by `NULL`. -/
def ptrArray (as : List Loc) : Block := .ptrs (as.map (fun a => some (some a)) ++ [some none])

/-- At `q` there is an array of pointers to blocks with `cs` in them, and `l` is all of these. -/
def IsArray (q : Loc) (cs : List Block) (l : List (Loc × Block)) : Prop :=
  ∃ as : List Loc, as.length = cs.length ∧ l.Perm ((q, ptrArray as) :: as.zip cs)

/-- What is in the blocks of the addresses. -/
def Host.addrBlocks (host : Host) : List Block := host.addrs.map fun a => .bytes (a.map some)

/-- What is in the blocks of the aliases. -/
def Host.aliasBlocks (host : Host) : List Block := host.aliases.map .str

/-- At `p` there is the entry `host`, in the blocks `l`. -/
def IsHost (host : Host) (p : Loc) (l : List (Loc × Block)) : Prop :=
  ∃ name addrs aliases la lb, IsArray addrs host.addrBlocks la ∧ IsArray aliases host.aliasBlocks lb ∧
    l.Perm ((p, .hostent ⟨some (some name), some host.addrtype, some host.length, some (some addrs), some (some aliases)⟩) ::
      (name, .str host.name) :: (la ++ lb))

section Specs

variable {l : List (Loc × Block)} {a : Loc}

theorem runs_field {α : Type} (x : α) : Runs l (field (some x)) fun y l' => y = x ∧ l' = l := runs_pure ⟨rfl, rfl⟩

theorem runs_getStr {s : List Char} (h : (a, .str s) ∈ l) : Runs l (getStr a) fun x l' => x = s ∧ l' = l :=
  runs_view h rfl

theorem runs_getBytes {bs : List (Option Byte)} (h : (a, .bytes bs) ∈ l) : Runs l (getBytes a) fun x l' => x = bs ∧ l' = l :=
  runs_view h rfl

theorem runs_getPtrs {ps : List (Option Ptr)} (h : (a, .ptrs ps) ∈ l) : Runs l (getPtrs a) fun x l' => x = ps ∧ l' = l :=
  runs_view h rfl

theorem runs_getHostent {h : Hostent} (hmem : (a, .hostent h) ∈ l) : Runs l (getHostent a) fun x l' => x = h ∧ l' = l :=
  runs_view hmem rfl

theorem runs_strdup {s : List Char} (h : (a, .str s) ∈ l) : Runs l (strdup a) fun a' l' => l' = (a', .str s) :: l := by
  refine (runs_getStr h).known ?_
  exact runs_malloc _

theorem runs_setPtr {ps : List (Option Ptr)} {i : ℕ} (hi : i < ps.length) (p : Ptr) :
    Runs ((a, .ptrs ps) :: l) (setPtr a i p) fun _ l' => l' = (a, .ptrs (ps.set i (some p))) :: l := by
  refine (runs_getPtrs List.mem_cons_self).known ?_
  rw [if_pos hi]
  exact runs_put _

theorem runs_setHostent {h : Hostent} (f : Hostent → Hostent) :
    Runs ((a, .hostent h) :: l) (setHostent a f) fun _ l' => l' = (a, .hostent (f h)) :: l := by
  refine (runs_getHostent List.mem_cons_self).known ?_
  exact runs_put _

theorem runs_copyAddr {bs : List Byte} (hne : bs ≠ []) (h : (a, .bytes (bs.map some)) ∈ l) :
    Runs l (copyAddr bs.length a) fun a' l' => l' = (a', .bytes (bs.map some)) :: l := by
  rw [copyAddr, if_neg (mt List.length_eq_zero_iff.mp hne)]
  refine (runs_malloc _).bind ?_
  rintro dst _ rfl
  refine (runs_getBytes (List.mem_cons_of_mem _ h)).known ?_
  rw [if_pos (by simp)]
  refine (runs_put _).seq ?_
  refine runs_pure ?_
  rw [List.take_of_length_le (by simp)]

theorem countPtrs_ptrs (as : List Loc) : countPtrs (as.map (fun a => some (some a)) ++ [some none]) = .ok as.length := by
  induction as with
  | nil => rfl
  | cons a as ih =>
    rw [List.map_cons, List.cons_append, countPtrs, ih, ok_bind]
    rfl

section Copy

variable {copy : Loc → Prog Loc} {src dst : Loc} {as₀ : List Loc} {cs : List Block}

/-- The array at `dst` when `i` pointers have been copied, and what they point to. -/
def Copied (l : List (Loc × Block)) (dst : Loc) (cs : List Block) (i : ℕ) (l' : List (Loc × Block)) : Prop :=
  ∃ as : List Loc, as.length = i ∧
    l'.Perm ((dst, .ptrs (as.map (fun a => some (some a)) ++ List.replicate (cs.length + 1 - i) none)) :: (as.zip (cs.take i) ++ l))

theorem ptrs_set (as : List Loc) (a' : Loc) (n : ℕ) :
    (as.map (fun a => some (some a)) ++ List.replicate (n + 1) (none : Option Ptr)).set as.length (some (some a')) =
      (as ++ [a']).map (fun a => some (some a)) ++ List.replicate n none := by
  rw [List.set_append_right _ _ (by simp)]
  simp [List.replicate_succ]

theorem runs_copyTurn (hcopy : ∀ a c l, c ∈ cs → (a, c) ∈ l → Runs l (copy a) fun a' l' => l' = (a', c) :: l)
    (hlen : as₀.length = cs.length) (hsrc : (src, ptrArray as₀) ∈ l) (hall : ∀ x ∈ as₀.zip cs, x ∈ l) {i : ℕ} (hi : i < cs.length)
    {l' : List (Loc × Block)} (h : Copied l dst cs i l') :
    Runs l' (copyTurn copy src dst i) fun _ l'' => Copied l dst cs (i + 1) l'' := by
  obtain ⟨as, rfl, hperm⟩ := h
  have hsub : ∀ x ∈ l, x ∈ l' := fun x hx => hperm.mem_iff.mpr (by simp [hx])
  have hi₀ : as.length < as₀.length := hlen ▸ hi
  -- the pointer that is copied, and what it points to
  have hget : (as₀.map (fun a => some (some a)) ++ [some none]).getD as.length none = some (some as₀[as.length]) := by
    rw [List.getD_eq_getElem?_getD, List.getElem?_append_left (by simpa using hi₀), List.getElem?_map,
      List.getElem?_eq_getElem hi₀]
    rfl
  have hmem : (as₀[as.length], cs[as.length]) ∈ as₀.zip cs := by
    have := List.getElem_mem (show as.length < (as₀.zip cs).length by rw [List.length_zip]; omega)
    rwa [List.getElem_zip] at this
  refine (runs_getPtrs (hsub _ hsrc)).known ?_
  rw [hget]
  refine (runs_field _).known ?_
  refine (runs_deref _).known ?_
  refine (hcopy _ _ _ (List.getElem_mem hi) (hsub _ (hall _ hmem))).bind ?_
  rintro a' _ rfl
  refine ((runs_setPtr (by simp; omega) (some a')).perm ((hperm.cons _).trans (.swap _ _ _))).imp ?_
  rintro _ _ rfl
  refine ⟨as ++ [a'], by simp, ?_⟩
  have hzip : (as ++ [a']).zip (cs.take (as.length + 1)) = as.zip (cs.take as.length) ++ [(a', cs[as.length])] := by
    rw [List.take_succ_eq_append_getElem hi, List.zip_append (by simp; omega)]
    rfl
  rw [show cs.length + 1 - as.length = cs.length + 1 - (as.length + 1) + 1 by omega, ptrs_set, hzip, List.append_assoc]
  exact List.perm_middle.symm.cons _

/-- The copy of an array, and of what it points to. -/
theorem runs_copyPtrs (hcopy : ∀ a c l, c ∈ cs → (a, c) ∈ l → Runs l (copy a) fun a' l' => l' = (a', c) :: l)
    {k : List (Loc × Block)} (hk : IsArray src cs k) (hsub : ∀ x ∈ k, x ∈ l) :
    Runs l (copyPtrs copy src) fun dst l' => ∃ k', IsArray dst cs k' ∧ l'.Perm (k' ++ l) := by
  obtain ⟨as₀, hlen, hperm⟩ := hk
  have hsrc : (src, ptrArray as₀) ∈ l := hsub _ (hperm.mem_iff.mpr List.mem_cons_self)
  have hall : ∀ x ∈ as₀.zip cs, x ∈ l := fun x hx => hsub _ (hperm.mem_iff.mpr (List.mem_cons_of_mem _ hx))
  refine (runs_getPtrs hsrc).known ?_
  refine (runs_lift (Q := fun n l' => n = cs.length ∧ l' = _) (countPtrs_ptrs as₀) ⟨hlen, rfl⟩).known ?_
  refine (runs_malloc _).bind ?_
  rintro dst _ rfl
  refine (runs_range (Copied _ dst cs) (fun i hi l' hl' => runs_copyTurn hcopy hlen hsrc hall hi hl') ⟨[], rfl, by simp⟩).bind ?_
  rintro _ l' ⟨as, has, hperm'⟩
  refine ((runs_setPtr (by simp [has]) none).perm hperm').seq ?_
  refine runs_pure ⟨(dst, ptrArray as) :: as.zip cs, ⟨as, has, .refl _⟩, ?_⟩
  have hset : (as.map (fun a => some (some a)) ++ List.replicate (cs.length + 1 - cs.length) (none : Option Ptr)).set cs.length
      (some none) = as.map (fun a => some (some a)) ++ [some none] := by
    rw [List.set_append_right _ _ (by simp [has])]
    simp [has]
  rw [hset, List.take_length]
  exact .refl _

end Copy

/-- **A copy of an entry** is the same entry in new blocks, and the old one is still there. -/
theorem runs_hostentDeepcopy {host : Host} {p : Loc} {k : List (Loc × Block)} (hk : IsHost host p k) (hsub : ∀ x ∈ k, x ∈ l) :
    Runs l (hostentDeepcopy (some p)) fun dst l' => ∃ k', IsHost host dst k' ∧ l'.Perm (k' ++ l) := by
  obtain ⟨name, addrs, aliases, la, lb, hla, hlb, hperm⟩ := hk
  have hmem : ∀ {x}, x ∈ _ → x ∈ l := fun hx => hsub _ (hperm.mem_iff.mpr hx)
  refine (runs_malloc _).bind ?_
  rintro dst _ rfl
  refine (runs_asserted p).known ?_
  refine (runs_getHostent (List.mem_cons_of_mem _ (hmem List.mem_cons_self))).known ?_
  refine (runs_field _).known ?_
  -- the name
  refine (runs_strdup (List.mem_cons_of_mem _ (hmem (List.mem_cons_of_mem _ List.mem_cons_self)))).bind ?_
  rintro name' _ rfl
  refine ((runs_setHostent _).perm (.swap _ _ _)).seq ?_
  refine (runs_setHostent _).seq ?_
  refine (runs_field _).known ?_
  -- the addresses
  refine (runs_field _).known ?_
  refine (runs_deref _).known ?_
  refine (runs_copyPtrs (fun a c l hc h => ?_) hla fun x hx => ?_).bind ?_
  · obtain ⟨bs, hbs, rfl⟩ := List.mem_map.mp hc
    rw [← host.length_eq bs hbs]
    exact runs_copyAddr (host.addrs_ne bs hbs) h
  · exact List.mem_cons_of_mem _ (List.mem_cons_of_mem _ (hmem (by simp [hx])))
  rintro addrs' l₁ ⟨ka, hka, hl₁⟩
  refine ((runs_setHostent _).perm (hl₁.trans List.perm_middle)).seq ?_
  -- the aliases
  refine (runs_field _).known ?_
  refine (runs_deref _).known ?_
  refine (runs_copyPtrs (fun a c l hc h => ?_) hlb fun x hx => ?_).bind ?_
  · obtain ⟨s, -, rfl⟩ := List.mem_map.mp hc
    exact runs_strdup h
  · exact List.mem_cons_of_mem _ (List.mem_append_right _ (List.mem_cons_of_mem _ (hmem (by simp [hx]))))
  rintro aliases' l₂ ⟨kb, hkb, hl₂⟩
  refine ((runs_setHostent _).perm (hl₂.trans List.perm_middle)).seq ?_
  refine runs_pure ⟨_, ⟨name', addrs', aliases', ka, kb, hka, hkb, .refl _⟩, .cons _ ?_⟩
  refine (List.perm_middle.append_left kb).trans (List.perm_middle.trans (.cons _ ?_))
  rw [← List.append_assoc]
  exact List.perm_append_comm.append_right l

/-- What an array points to is freed, and then the array. -/
theorem runs_freePtrs {q : Loc} {cs : List Block} {k : List (Loc × Block)} (hk : IsArray q cs k) :
    Runs (k ++ l) (freePtrs (some (some q))) fun _ l' => l' = l := by
  obtain ⟨as, hlen, hperm⟩ := hk
  have heach : ∀ (as : List Loc) (cs : List Block) (l : List (Loc × Block)), as.length = cs.length →
      Runs (as.zip cs ++ l) (freeEach (as.map (fun a => some (some a)) ++ [some none])) fun _ l' => l' = l := by
    intro as
    induction as with
    | nil => exact fun cs l _ => runs_pure (by simp)
    | cons a as ih =>
      intro cs l hlen
      match cs with
      | [] => cases hlen
      | c :: cs =>
        refine runs_free.seq ?_
        exact ih cs l (Nat.succ.inj hlen)
  refine Runs.perm ?_ (hperm.append_right l)
  refine (runs_field _).known ?_
  refine (runs_deref _).known ?_
  refine (runs_getPtrs List.mem_cons_self).known ?_
  refine ((heach as cs _ hlen).perm List.perm_middle.symm).seq ?_
  exact runs_free

/-- **Of an entry that is freed** no block is left. -/
theorem runs_freeHostent {host : Host} {p : Loc} {k : List (Loc × Block)} (hk : IsHost host p k) :
    Runs (k ++ l) (freeHostent (some p)) fun _ l' => l' = l := by
  obtain ⟨name, addrs, aliases, la, lb, hla, hlb, hperm⟩ := hk
  refine Runs.perm ?_ (hperm.append_right l)
  refine (runs_asserted p).known ?_
  refine (runs_getHostent List.mem_cons_self).known ?_
  refine (runs_field _).known ?_
  refine (runs_release.perm (.swap _ _ _)).seq ?_
  -- the two arrays, and then the structure
  have hlast : ∀ x : Loc × Block, (x :: (la ++ lb ++ l)).Perm (la ++ (lb ++ x :: l)) := fun x => by
    rw [← List.append_assoc]
    exact List.perm_middle.symm
  refine ((runs_freePtrs hla).perm (hlast _)).seq ?_
  refine (runs_freePtrs hlb).seq ?_
  exact runs_free

end Specs

end Gross.Dns
