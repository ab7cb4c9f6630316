import Mathlib.Data.Int.Basic
import Mathlib.Tactic.Common

/-!
# Times

A clock reading is a `struct timespec`. `ms_diff` is the time between two
readings, in milliseconds, as an `int`: the part of a millisecond is cut off, and
after 2³¹ milliseconds, about 25 days, the result is negative.

`ts_sum` and `ts_diff` add and subtract two times, the latter if the difference is
not negative.

## What is proved

* `lt_msDiff` — a difference of more than a millisecond over a limit is seen to be
  over it, as long as it is less than 2³¹ − 1 milliseconds.
* `ns_tsSum`, `ns_of_tsDiff_eq_some`, `lt_of_tsDiff_eq_none` — of times whose
  nanoseconds are less than a second, `ts_sum` gives the sum, and `ts_diff` the
  difference unless it is negative; and the nanoseconds of the results are less than a
  second again.
* `ns_mstotimespec` — `mstotimespec` loses nothing of a number of milliseconds that is not
  negative.
-/

namespace Gross.Utils

/-- `struct timespec` -/
structure Timespec where
  /-- `tv_sec` -/
  sec : ℤ
  /-- `tv_nsec` -/
  nsec : ℤ
  deriving DecidableEq, Repr

/-- The time in nanoseconds. -/
def Timespec.ns (t : Timespec) : ℤ := t.sec * 1000000000 + t.nsec

/-- `ms_diff`. The sum is a `long`, and is returned as an `int`. -/
def msDiff (t1 t2 : Timespec) : ℤ :=
  ((t1.sec - t2.sec) * 1000 + (t1.nsec - t2.nsec).tdiv 1000000).bmod 4294967296

/-- `ms_diff` sees that a time is over, if it is over by a millisecond and not by days. -/
theorem lt_msDiff {t1 t2 : Timespec} {limit : ℤ} (hlimit : -2147483648 ≤ limit)
    (hlo : limit * 1000000 + 1000000 ≤ t1.ns - t2.ns) (hhi : t1.ns - t2.ns < 2147483647 * 1000000) :
    limit < msDiff t1 t2 := by
  unfold Timespec.ns at hlo hhi
  have htdiv : (t1.nsec - t2.nsec).tdiv 1000000 * 1000000 < t1.nsec - t2.nsec + 1000000 ∧
      t1.nsec - t2.nsec - 1000000 < (t1.nsec - t2.nsec).tdiv 1000000 * 1000000 := by
    have hmod := Int.tmod_add_mul_tdiv (t1.nsec - t2.nsec) 1000000
    have hlt := Int.tmod_lt_of_pos (t1.nsec - t2.nsec) (show (0 : ℤ) < 1000000 by omega)
    have hgt := Int.lt_tmod_of_pos (t1.nsec - t2.nsec) (show (0 : ℤ) < 1000000 by omega)
    omega
  obtain ⟨hup, hdown⟩ := htdiv
  have hbmod : msDiff t1 t2 = (t1.sec - t2.sec) * 1000 + (t1.nsec - t2.nsec).tdiv 1000000 :=
    Int.bmod_eq_of_le (by omega) (by omega)
  omega

/-- A time of so many milliseconds. -/
theorem msDiff_eq {t1 t2 : Timespec} {d : ℤ} (h : t1.ns - t2.ns = d * 1000000) (hlo : -2147483648 ≤ d)
    (hhi : d < 2147483648) : msDiff t1 t2 = d := by
  unfold Timespec.ns at h
  have hns : t1.nsec - t2.nsec = 1000000 * (d - (t1.sec - t2.sec) * 1000) := by omega
  have htdiv : (t1.nsec - t2.nsec).tdiv 1000000 = d - (t1.sec - t2.sec) * 1000 := by
    rw [hns, Int.mul_tdiv_cancel_left _ (by omega)]
  rw [msDiff, htdiv, show (t1.sec - t2.sec) * 1000 + (d - (t1.sec - t2.sec) * 1000) = d by omega]
  exact Int.bmod_eq_of_le (by omega) (by omega)

/-! ### Sums and differences -/

/-- The nanoseconds are less than a second, as a clock gives them. -/
structure Timespec.Valid (t : Timespec) : Prop where
  /-- They are not negative. -/
  nsec_nonneg : 0 ≤ t.nsec
  /-- They are less than a second. -/
  nsec_lt : t.nsec < 1000000000

instance (t : Timespec) : Decidable t.Valid :=
  decidable_of_iff (0 ≤ t.nsec ∧ t.nsec < 1000000000) ⟨fun h => ⟨h.1, h.2⟩, fun h => ⟨h.1, h.2⟩⟩

/-- `ts_sum` -/
def tsSum (t1 t2 : Timespec) : Timespec :=
  let sec := t1.sec + t2.sec
  let nsec := (t1.nsec + t2.nsec).tmod 1000000000
  if (t1.nsec + t2.nsec).tdiv 1000000000 > 0 then ⟨sec + 1, nsec⟩ else ⟨sec, nsec⟩

/-- `ts_diff`: `none` where it returns `-1`. -/
def tsDiff (t1 t2 : Timespec) : Option Timespec :=
  let sec := t1.sec - t2.sec
  let nsec := t1.nsec - t2.nsec
  let diff : Timespec := if nsec < 0 then ⟨sec - 1, nsec + 1000000000⟩ else ⟨sec, nsec⟩
  if diff.sec < 0 then none else some diff

variable {t1 t2 : Timespec}

theorem ns_tsSum (h1 : t1.Valid) (h2 : t2.Valid) : (tsSum t1 t2).ns = t1.ns + t2.ns ∧ (tsSum t1 t2).Valid := by
  obtain ⟨hlo1, hhi1⟩ := h1
  obtain ⟨hlo2, hhi2⟩ := h2
  have hmod := Int.tmod_add_mul_tdiv (t1.nsec + t2.nsec) 1000000000
  have hlt := Int.tmod_lt_of_pos (t1.nsec + t2.nsec) (show (0 : ℤ) < 1000000000 by omega)
  have hge := Int.tmod_nonneg (1000000000 : ℤ) (show 0 ≤ t1.nsec + t2.nsec by omega)
  simp only [tsSum, Timespec.ns]
  -- one second is carried at most
  split_ifs with hcarry
  · exact ⟨by dsimp only; omega, hge, hlt⟩
  · exact ⟨by dsimp only; omega, hge, hlt⟩

theorem ns_of_tsDiff_eq_some (h1 : t1.Valid) (h2 : t2.Valid) {d : Timespec} (h : tsDiff t1 t2 = some d) :
    d.ns = t1.ns - t2.ns ∧ d.Valid := by
  obtain ⟨hlo1, hhi1⟩ := h1
  obtain ⟨hlo2, hhi2⟩ := h2
  simp only [tsDiff, Option.ite_none_left_eq_some, Option.some.injEq] at h
  obtain ⟨-, rfl⟩ := h
  simp only [Timespec.ns]
  -- a second is borrowed if need be
  split_ifs with hborrow
  · exact ⟨by dsimp only; omega, by dsimp only; omega, by dsimp only; omega⟩
  · exact ⟨by dsimp only; omega, by dsimp only; omega, by dsimp only; omega⟩

theorem lt_of_tsDiff_eq_none (h1 : t1.Valid) (h2 : t2.Valid) (h : tsDiff t1 t2 = none) : t1.ns < t2.ns := by
  obtain ⟨hlo1, hhi1⟩ := h1
  obtain ⟨hlo2, hhi2⟩ := h2
  simp only [tsDiff, ite_eq_left_iff, reduceCtorEq, imp_false, not_not] at h
  simp only [Timespec.ns]
  split_ifs at h with hborrow
  · dsimp only at h
    omega
  · dsimp only at h
    omega

/-! ### Milliseconds -/

/-- `mstotimespec` -/
def mstotimespec (mseconds : ℤ) : Timespec := ⟨mseconds.tdiv 1000, (mseconds.tmod 1000).natAbs * 1000000⟩

theorem ns_mstotimespec {mseconds : ℤ} (h : 0 ≤ mseconds) :
    (mstotimespec mseconds).ns = mseconds * 1000000 ∧ (mstotimespec mseconds).Valid := by
  have hmod := Int.tmod_add_mul_tdiv mseconds 1000
  have hlt := Int.tmod_lt_of_pos mseconds (show (0 : ℤ) < 1000 by omega)
  have hge := Int.tmod_nonneg (1000 : ℤ) h
  have hns : (mstotimespec mseconds).nsec = mseconds.tmod 1000 * 1000000 := by
    rw [mstotimespec, Int.natAbs_of_nonneg hge]
  refine ⟨?_, ⟨by omega, by omega⟩⟩
  rw [Timespec.ns, hns, mstotimespec]
  dsimp only
  omega

end Gross.Utils
