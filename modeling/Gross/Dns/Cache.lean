import Mathlib.Logic.Function.Basic
import Gross.Utils.Time

/-!
# The cache of the resolver

`helper_dns` keeps host entries in a table of `HASHSIZE` slots, "the simplest
possible table: don't bother about collisions, just write over". A slot holds one
entry, with the string it was stored under and the time. An entry that is found
to be too old is removed.

## What is proved

`lookupStr_eq_some` — what is found was stored under the same string, and `ms_diff`
says that it is not more than `CACHETIME` seconds old. `mem_cacheStr`,
`mem_lookupStr` — of what is in the table afterwards, all but the new entry was
there before.

## Honest scope

An entry is any value: `hostent_deepcopy` is the identity. The hash function is a
parameter.
-/

namespace Gross.Dns

open Utils

universe u

variable {Host : Type u}

/-- `HASHSIZE` -/
def hashsize : ℕ := 1024

/-- `CACHETIME`, in seconds -/
def cachetime : ℤ := 60

/-- `cache_data_t` -/
structure CacheData (Host : Type u) where
  /-- `key` -/
  key : List Char
  /-- `value` -/
  value : Host
  /-- `savetime` -/
  savetime : Timespec
  deriving DecidableEq, Repr

/-- `hashtab` -/
abbrev Hashtab (Host : Type u) := Fin hashsize → Option (CacheData Host)

section Table

variable (hashfunc : List Char → Fin hashsize)

/-- `cache_str`, at the time `now`. -/
def cacheStr (tab : Hashtab Host) (key : List Char) (value : Host) (now : Timespec) : Hashtab Host :=
  Function.update tab (hashfunc key) (some ⟨key, value, now⟩)

/-- `lookup_str`, at the time `now`. -/
def lookupStr (tab : Hashtab Host) (key : List Char) (now : Timespec) : Option Host × Hashtab Host :=
  match tab (hashfunc key) with
  | none => (none, tab)
  | some node =>
    if node.key = key then
      if msDiff now node.savetime > cachetime * 1000 then (none, Function.update tab (hashfunc key) none)
      else (some node.value, tab)
    else (none, tab)

variable {hashfunc}

/-- What is found was stored under that string, and does not look too old. -/
theorem lookupStr_eq_some {tab : Hashtab Host} {key : List Char} {now : Timespec} {host : Host}
    (h : (lookupStr hashfunc tab key now).1 = some host) :
    ∃ node, tab (hashfunc key) = some node ∧ node.key = key ∧ node.value = host ∧
      msDiff now node.savetime ≤ cachetime * 1000 := by
  unfold lookupStr at h
  cases hnode : tab (hashfunc key) with
  | none =>
    rw [hnode] at h
    cases h
  | some node =>
    rw [hnode] at h
    dsimp only at h
    split_ifs at h with hkey hold
    exact ⟨node, rfl, hkey, Option.some.inj h, Int.not_lt.mp hold⟩

theorem mem_lookupStr {tab : Hashtab Host} {key : List Char} {now : Timespec} {slot : Fin hashsize}
    {node : CacheData Host} (h : (lookupStr hashfunc tab key now).2 slot = some node) : tab slot = some node := by
  unfold lookupStr at h
  cases hnode : tab (hashfunc key) with
  | none =>
    rw [hnode] at h
    exact h
  | some old =>
    rw [hnode] at h
    dsimp only at h
    split_ifs at h
    · dsimp only at h
      by_cases hslot : slot = hashfunc key
      · rw [hslot, Function.update_self] at h
        cases h
      · rwa [Function.update_of_ne hslot] at h
    · exact h
    · exact h

theorem mem_cacheStr {tab : Hashtab Host} {key : List Char} {value : Host} {now : Timespec} {slot : Fin hashsize}
    {node : CacheData Host} (h : cacheStr hashfunc tab key value now slot = some node) :
    node = ⟨key, value, now⟩ ∨ tab slot = some node := by
  unfold cacheStr at h
  by_cases hslot : slot = hashfunc key
  · rw [hslot, Function.update_self] at h
    exact .inl (Option.some.inj h).symm
  · rw [Function.update_of_ne hslot] at h
    exact .inr h

end Table

end Gross.Dns
