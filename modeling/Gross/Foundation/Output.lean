import Mathlib.Data.List.Basic

/-!
# Connections that are written piecemeal

A call of `write` may take fewer bytes than it is given, or none because a signal
came first, or it fails. `writen` gives the rest again until all of it is taken.

* `Write`, `writen` — what a call of `write` does, and the usual loop around it.
* `writen_of_enough` — where no call fails and there are as many calls that take
  something as there are bytes, the bytes are written, all of them and in their
  order, whatever each call takes.
* `writen_begins` — otherwise what is written is how they begin.
-/

namespace Gross.Foundation

universe u

variable {α : Type u}

/-- What a call of `write` does. -/
inductive Write where
  /-- It takes so many bytes and one more, or all there are. -/
  | took (n : ℕ)
  /-- A signal came first. -/
  | eintr
  /-- It returns -1, and not for a signal. -/
  | failed
  deriving DecidableEq, Repr

/-- What becomes of the bytes. -/
inductive Sent where
  /-- They are written. -/
  | all
  /-- A call failed. -/
  | failed
  /-- The next call does not return. -/
  | waits
  deriving DecidableEq, Repr

/-- `writen(fd, bs, n)`: what becomes of it, what has been written, and the calls of
`write` that are left. -/
def writen : List Write → List α → Sent × List α × List Write
  | ws, [] => (.all, [], ws)
  | [], _ :: _ => (.waits, [], [])
  | .eintr :: ws, b :: bs => writen ws (b :: bs)
  | .failed :: ws, _ :: _ => (.failed, [], ws)
  | .took n :: ws, b :: bs =>
    let (ret, out, ws) := writen ws (bs.drop n)
    (ret, b :: bs.take n ++ out, ws)

/-- The call takes something. -/
def Write.takes : Write → Bool
  | .took _ => true
  | _ => false

/-- What is written is how the bytes begin, and it is all of them if `writen` says so. -/
theorem writen_begins (ws : List Write) (bs : List α) :
    (writen ws bs).2.1 <+: bs ∧ ((writen ws bs).1 = .all → (writen ws bs).2.1 = bs) := by
  fun_induction writen ws bs with
  | case1 ws => exact ⟨List.prefix_rfl, fun _ => rfl⟩
  | case2 b bs => exact ⟨List.nil_prefix, fun h => nomatch h⟩
  | case3 ws b bs ih => exact ih
  | case4 ws b bs => exact ⟨List.nil_prefix, fun h => nomatch h⟩
  | case5 n ws b bs ret out ws' heq ih =>
    rw [heq] at ih
    have hsplit : b :: bs = (b :: bs.take n) ++ bs.drop n := by simp
    refine ⟨?_, fun h => ?_⟩
    · rw [hsplit]
      exact (List.prefix_append_right_inj _).mpr ih.1
    · rw [hsplit]
      exact congrArg (b :: bs.take n ++ ·) (ih.2 h)

/-- Where no call of `write` fails, none that is left does, and `writen` does not. -/
theorem writen_of_not_failed {ws : List Write} (h : .failed ∉ ws) (bs : List α) :
    .failed ∉ (writen ws bs).2.2 ∧ (writen ws bs).1 ≠ .failed := by
  fun_induction writen ws bs with
  | case1 ws => exact ⟨h, fun h => nomatch h⟩
  | case2 b bs => exact ⟨h, fun h => nomatch h⟩
  | case3 ws b bs ih => exact ih fun hmem => h (List.mem_cons_of_mem _ hmem)
  | case4 ws b bs => exact absurd List.mem_cons_self h
  | case5 n ws b bs ret out ws' heq ih =>
    have hrest := ih fun hmem => h (List.mem_cons_of_mem _ hmem)
    rwa [heq] at hrest

/-- **Writing**: with enough calls none of which fails, all is written, and the calls
that are left are enough for what was not to be written yet. -/
theorem writen_of_enough {ws : List Write} {bs : List α} {m : ℕ} (hfail : .failed ∉ ws)
    (h : bs.length + m ≤ ws.countP Write.takes) :
    ∃ ws', writen ws bs = (.all, bs, ws') ∧ .failed ∉ ws' ∧ m ≤ ws'.countP Write.takes := by
  fun_induction writen ws bs with
  | case1 ws => exact ⟨ws, rfl, hfail, by simpa using h⟩
  | case2 b bs => simp at h
  | case3 ws b bs ih => exact ih (fun hmem => hfail (List.mem_cons_of_mem _ hmem)) (by simpa [Write.takes] using h)
  | case4 ws b bs => exact absurd List.mem_cons_self hfail
  | case5 n ws b bs ret out ws' heq ih =>
    have hlen : (bs.drop n).length + m ≤ ws.countP Write.takes := by
      simp only [List.length_cons, List.countP_cons, Write.takes, if_true] at h
      rw [List.length_drop]
      omega
    obtain ⟨ws'', hall, hrest, hcount⟩ := ih (fun hmem => hfail (List.mem_cons_of_mem _ hmem)) hlen
    rw [heq, Prod.mk.injEq, Prod.mk.injEq] at hall
    obtain ⟨rfl, rfl, rfl⟩ := hall
    exact ⟨ws', by simp, hrest, hcount⟩

end Gross.Foundation
