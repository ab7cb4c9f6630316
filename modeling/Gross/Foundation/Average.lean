import Mathlib.Algebra.BigOperators.Group.List.Basic
import Mathlib.Algebra.Field.Rat
import Mathlib.Data.List.Induction
import Mathlib.Tactic.FieldSimp
import Mathlib.Tactic.Ring

/-!
# Averages that are kept as values come

An average can be kept without the values it is made of, if it is known how many they are:
with the `n`-th value it becomes the old one, weighed `n - 1` times, and the new one, divided by
`n`.

* `average avg n d` — the average with one more value, where it is said to be the `n`-th.
* `running value vs avg` — one value after another; each comes with the number that it is said to
  have.
* `running_eq_mean`, `fst_eq_range'_of_mean` — after all values the average is the mean, whatever
  they are, exactly if each is said to have the number that it has: 1, 2, 3 and so on.
-/

namespace Gross.Foundation

universe u

/-- The average with one more value, which is said to be the `count`-th. -/
def average (avg : ℚ) (count : ℕ) (d : ℚ) : ℚ := if count = 0 then d else (avg * (count - 1) + d) / count

variable {ι : Type u}

/-- One value after another, each with the number that it is said to have. -/
def running (value : ι → ℚ) (vs : List (ℕ × ι)) (avg : ℚ) : ℚ := vs.foldl (fun a v => average a v.1 (value v.2)) avg

variable {value : ι → ℚ} {vs : List (ℕ × ι)}

theorem average_pos {n : ℕ} (hn : 0 < n) (avg d : ℚ) : average avg n d = (avg * (n - 1) + d) / n :=
  if_neg (Nat.ne_of_gt hn)

theorem average_zero (n : ℕ) : average 0 n 0 = 0 := by
  unfold average
  split_ifs <;> simp

/-- A new value that is not zero is seen. -/
theorem average_zero_ne_zero (n : ℕ) {d : ℚ} (hd : d ≠ 0) : average 0 n d ≠ 0 := by
  unfold average
  split_ifs with hn
  · exact hd
  · rw [zero_mul, zero_add]
    exact div_ne_zero hd (Nat.cast_ne_zero.mpr hn)

theorem running_append (value : ι → ℚ) (vs ws : List (ℕ × ι)) (avg : ℚ) :
    running value (vs ++ ws) avg = running value ws (running value vs avg) := List.foldl_append

/-- Only the values that come count. -/
theorem running_congr (value' : ι → ℚ) (h : ∀ v ∈ vs, value v.2 = value' v.2) (avg : ℚ) :
    running value vs avg = running value' vs avg := by
  induction vs generalizing avg with
  | nil => rfl
  | cons v vs ih =>
    obtain ⟨hv, hvs⟩ := List.forall_mem_cons.mp h
    rw [running, List.foldl_cons, hv]
    exact ih hvs _

theorem running_zero (h : ∀ v ∈ vs, value v.2 = 0) : running value vs 0 = 0 := by
  induction vs with
  | nil => rfl
  | cons v vs ih =>
    obtain ⟨hv, hvs⟩ := List.forall_mem_cons.mp h
    rw [running, List.foldl_cons, hv, average_zero]
    exact ih hvs

/-- The mean of some values, weighed as many times as there are, is their sum. -/
theorem mean_mul_length (value : ι → ℚ) (vs : List (ℕ × ι)) :
    (vs.map fun v => value v.2).sum / vs.length * vs.length = (vs.map fun v => value v.2).sum := by
  cases vs with
  | nil => simp
  | cons v vs => exact div_mul_cancel₀ _ (Nat.cast_ne_zero.mpr (Nat.succ_ne_zero _))

/-- The average with one more value at the end. -/
theorem running_concat (value : ι → ℚ) (vs : List (ℕ × ι)) (v : ℕ × ι) (avg : ℚ) :
    running value (vs ++ [v]) avg = average (running value vs avg) v.1 (value v.2) := running_append value vs [v] avg

theorem sum_concat (value : ι → ℚ) (vs : List (ℕ × ι)) (v : ℕ × ι) :
    ((vs ++ [v]).map fun v => value v.2).sum = (vs.map fun v => value v.2).sum + value v.2 := by
  rw [List.map_append, List.sum_append, List.map_singleton, List.sum_singleton]

/-- **The average is the mean**, if each value has the number that it is said to have. -/
theorem running_eq_mean (h : vs.map Prod.fst = List.range' 1 vs.length) :
    running value vs 0 = (vs.map fun v => value v.2).sum / vs.length := by
  induction vs using List.reverseRecOn with
  | nil => simp [running]
  | append_singleton vs v ih =>
    rw [List.map_append, List.length_append, List.length_singleton, List.range'_1_concat, List.map_singleton] at h
    obtain ⟨hvs, hv⟩ := List.append_inj h (by simp)
    have hcount : (v.1 : ℚ) = vs.length + 1 := by
      rw [(List.cons.inj hv).1, Nat.cast_add, Nat.cast_one, add_comm]
    have hpos : 0 < v.1 := by rw [(List.cons.inj hv).1]; omega
    rw [running_concat, ih hvs, average_pos hpos, hcount, add_sub_cancel_right, mean_mul_length, sum_concat,
      List.length_append, List.length_singleton, Nat.cast_add, Nat.cast_one]

/-- **If the average is the mean**, whatever the values are, each has the number that it is said to have. -/
theorem fst_eq_range'_of_mean [DecidableEq ι] (hnodup : (vs.map Prod.snd).Nodup) (hpos : ∀ v ∈ vs, 0 < v.1)
    (h : ∀ value : ι → ℤ, running (fun i => (value i : ℚ)) vs 0 = (vs.map fun v => (value v.2 : ℚ)).sum / vs.length) :
    vs.map Prod.fst = List.range' 1 vs.length := by
  induction vs using List.reverseRecOn with
  | nil => rfl
  | append_singleton vs v ih =>
    rw [List.map_append, List.map_singleton, List.nodup_append] at hnodup
    obtain ⟨hnodup, -, hfresh⟩ := hnodup
    have hne : ∀ w ∈ vs, w.2 ≠ v.2 := fun w hw => hfresh _ (List.mem_map_of_mem hw) _ (List.mem_singleton_self _)
    -- the last value may be anything, and those before it stay as they are
    have hanyLast : ∀ (value : ι → ℤ) (c : ℤ),
        (running (fun i => (value i : ℚ)) vs 0 * (v.1 - 1) + c) / v.1 =
          ((vs.map fun v => (value v.2 : ℚ)).sum + c) / (vs.length + 1) := by
      intro value c
      let changed : ι → ℚ := fun i => (Function.update value v.2 c i : ℤ)
      have hsame : ∀ w ∈ vs, changed w.2 = (fun i => (value i : ℚ)) w.2 :=
        fun w hw => congrArg Int.cast (Function.update_of_ne (hne w hw) c value)
      have hself : changed v.2 = c := congrArg Int.cast (Function.update_self v.2 c value)
      have hc : running changed (vs ++ [v]) 0 = ((vs ++ [v]).map fun v => changed v.2).sum / (vs ++ [v]).length :=
        h (Function.update value v.2 c)
      rwa [running_concat, sum_concat, running_congr (fun i => (value i : ℚ)) hsame, List.map_congr_left hsame, hself,
        average_pos (hpos v (by simp)), List.length_append, List.length_singleton, Nat.cast_add, Nat.cast_one] at hc
    have hlength : ((vs.length : ℚ) + 1) ≠ 0 := Nat.cast_add_one_ne_zero _
    have hlast : (v.1 : ℚ) = vs.length + 1 := by
      have hone := hanyLast 0 1
      rw [running_zero fun _ _ => by simp, zero_mul, zero_add] at hone
      simpa using hone
    have hbefore : vs.map Prod.fst = List.range' 1 vs.length := by
      refine ih hnodup (fun w hw => hpos w (List.mem_append_left _ hw)) fun value => ?_
      have hzero := hanyLast value 0
      rw [hlast, add_sub_cancel_right, Int.cast_zero, add_zero, add_zero, div_left_inj' hlength] at hzero
      cases vs with
      | nil => simp [running]
      | cons w ws => exact eq_div_of_mul_eq (Nat.cast_ne_zero.mpr (Nat.succ_ne_zero _)) hzero
    have hnat : v.1 = 1 + vs.length := by
      rw [Nat.add_comm]
      exact_mod_cast hlast
    rw [List.map_append, List.length_append, List.length_singleton, List.range'_1_concat, hbefore, List.map_singleton, hnat]

end Gross.Foundation
