import Gross.Foundation.CArray
import Mathlib.Logic.Function.Basic
import Mathlib.Data.Set.Basic

/-!
# Memory behind addresses

A block of memory lies at a base address, and is read and written through
addresses of 64 bits, a cell at a time. A cell is found again at the address it
was stored to; an access outside the block fails.

* `load`, `store` — a cell behind an address.
* `storeAll` — a list of stores, in order. When no two of them disagree about a
  cell, they all hold in the end (`storeAll_ok`); and when they succeed they were
  inside the block (`of_storeAll_eq_ok`).
-/

namespace Gross.Foundation

universe u

/-- Things that take a number of bytes. -/
class Bytes (γ : Type u) where
  /-- How many. -/
  bytes : γ → ℕ

export Bytes (bytes)

/-- A block of memory, somewhere. -/
structure Memory (γ : Type u) where
  /-- Its address. -/
  base : BitVec 64
  /-- Its length in bytes. -/
  length : ℕ
  /-- What has been stored, by its offset. -/
  cells : BitVec 64 → Option γ

namespace Memory

variable {γ ι : Type u} [Bytes γ]

omit [Bytes γ] in
/-- `*a`, read. -/
def load (m : Memory γ) (a : BitVec 64) : Except Fault γ :=
  match m.cells (a - m.base) with
  | some c => .ok c
  | none => .error .outOfBounds

/-- `*a = c`. -/
def store (m : Memory γ) (a : BitVec 64) (c : γ) : Except Fault (Memory γ) :=
  if (a - m.base).toNat + bytes c ≤ m.length then
    .ok { m with cells := Function.update m.cells (a - m.base) (some c) }
  else .error .outOfBounds

/-- Stores at offsets, in order. -/
def storeAll (off : ι → BitVec 64) (m : Memory γ) (ss : List (ι × γ)) : Except Fault (Memory γ) :=
  ss.foldlM (fun m s => m.store (m.base + off s.1) s.2) m

theorem base_add_sub (b o : BitVec 64) : b + o - b = o := by
  rw [BitVec.add_comm, BitVec.add_sub_cancel]

omit [Bytes γ] in
theorem load_at {m : Memory γ} {o : BitVec 64} {x : γ} (h : m.cells o = some x) : m.load (m.base + o) = .ok x := by
  rw [load, base_add_sub, h]

theorem store_at {m : Memory γ} {o : BitVec 64} {x : γ} (h : o.toNat + bytes x ≤ m.length) :
    m.store (m.base + o) x = .ok { m with cells := Function.update m.cells o (some x) } := by
  rw [store, base_add_sub, if_pos h]

theorem of_store_at {m m' : Memory γ} {o : BitVec 64} {x : γ} (h : m.store (m.base + o) x = .ok m') :
    o.toNat + bytes x ≤ m.length ∧ m' = { m with cells := Function.update m.cells o (some x) } := by
  rw [store, base_add_sub] at h
  split_ifs at h with hle
  exact ⟨hle, (Except.ok.inj h).symm⟩

/-- Stores that succeed were made inside the block. -/
theorem of_storeAll_eq_ok {off : ι → BitVec 64} {m m' : Memory γ} {ss : List (ι × γ)}
    (h : m.storeAll off ss = .ok m') : ∀ s ∈ ss, (off s.1).toNat + bytes s.2 ≤ m.length := by
  induction ss generalizing m with
  | nil => simp
  | cons s ss ih =>
    obtain ⟨m₁, h₁, h⟩ := bind_eq_ok h
    obtain ⟨hle, rfl⟩ := of_store_at h₁
    intro t ht
    rcases List.mem_cons.mp ht with rfl | ht
    · exact hle
    · exact ih h t ht

/-- Stores inside the block that agree with each other all hold in the end, and leave
the other cells alone. -/
theorem storeAll_ok {off : ι → BitVec 64} {m : Memory γ} {ss : List (ι × γ)}
    (hin : ∀ s ∈ ss, (off s.1).toNat + bytes s.2 ≤ m.length)
    (hagree : ∀ s ∈ ss, ∀ t ∈ ss, off s.1 = off t.1 → s.2 = t.2) :
    ∃ m', m.storeAll off ss = .ok m' ∧ m'.base = m.base ∧ m'.length = m.length ∧
      (∀ s ∈ ss, m'.cells (off s.1) = some s.2) ∧
      ∀ o, (∀ s ∈ ss, off s.1 ≠ o) → m'.cells o = m.cells o := by
  induction ss generalizing m with
  | nil => exact ⟨m, rfl, rfl, rfl, by simp, fun _ _ => rfl⟩
  | cons s ss ih =>
    have hs := store_at (hin s (List.mem_cons_self ..))
    obtain ⟨m', hrun, hbase, hlen, hcells, hframe⟩ := ih
      (m := { m with cells := Function.update m.cells (off s.1) (some s.2) })
      (fun t ht => hin t (List.mem_cons_of_mem _ ht))
      (fun t ht u hu => hagree t (List.mem_cons_of_mem _ ht) u (List.mem_cons_of_mem _ hu))
    refine ⟨m', ?_, hbase, hlen, fun t ht => ?_, fun o ho => ?_⟩
    · rw [storeAll, List.foldlM_cons, hs, ok_bind]
      exact hrun
    · rcases List.mem_cons.mp ht with rfl | ht
      · by_cases hlater : ∃ u ∈ ss, off u.1 = off t.1
        · obtain ⟨u, hu, hoff⟩ := hlater
          rw [← hoff, hcells u hu, hagree u (List.mem_cons_of_mem _ hu) t (List.mem_cons_self ..) hoff]
        · rw [hframe _ fun u hu hoff => hlater ⟨u, hu, hoff⟩]
          exact Function.update_self ..
      · exact hcells t ht
    · rw [hframe o fun t ht => ho t (List.mem_cons_of_mem _ ht)]
      exact Function.update_of_ne (Ne.symm (ho s (List.mem_cons_self ..))) ..

end Memory

end Gross.Foundation
