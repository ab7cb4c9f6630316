import Gross.Queue.Linked
import Gross.Utils.Time

/-!
# How long a timed get waits

`get_msg_raw` waits for a message until a point in time, which it computes from its
timeout and the clock. `mstotimespec` turns the timeout into seconds and nanoseconds, and
`time(NULL)` is added to the seconds.

## The model

`pthread_cond_timedwait` goes by the real time, in seconds and nanoseconds. `time(NULL)` is a
reading of its own: it has no part of a second, and it may lag, as the system brings it
up to date at each tick of its own only. So it is at most the seconds of the real time.

A wait returns 0, if the thread was woken, or `ETIMEDOUT`, at a time not before the
deadline (`Returned`). What `get_msg_raw` does then is `getMsgRawWoken`; it goes on
waiting, or returns with a message or without (`timedGet`).

## What is proved

`deadline_iff` — the deadline is the current time plus the timeout, give or take, and no
get is given up before it, exactly if the clock is at a full second and `time(NULL)` does not
lag. The deadline is early by the part of a second that has passed, and by what
`time(NULL)` lags.
-/

namespace Gross.Queue.Linked

open Foundation Utils

/-- `to`, when `time(NULL)` returns `t`. -/
def deadline (timeout t : ℤ) : Timespec :=
  let limit := mstotimespec timeout
  { limit with sec := limit.sec + t }

/-- What a thread finds when `pthread_cond_timedwait` returns. -/
structure Return where
  /-- The time. -/
  now : Timespec
  /-- `ret` -/
  ret : ℤ
  /-- The queue. -/
  mq : MsgQueue
  /-- The messages. -/
  heap : Heap Msg

/-- `pthread_cond_timedwait` returns, with the time `limit` given to it. -/
def Returned (limit : Timespec) (r : Return) : Prop := r.ret = 0 ∨ r.ret = etimedout ∧ limit.ns ≤ r.now.ns

/-- `get_msg_raw` waits: when it returns and with what, if it does. -/
def timedGet (timeout : ℤ) : List Return → Except Fault (Option (Timespec × Option Addr))
  | [] => .ok none
  | r :: rs =>
    match getMsgRawWoken r.mq r.heap timeout r.ret with
    | .error fault => .error fault
    | .ok .waits => timedGet timeout rs
    | .ok (.returns msg _ _) => .ok (some (r.now, msg))

/-- A timed get, asked for at the time `now` when `time(NULL)` returns `t`, has its timeout. -/
structure InTime (timeout t : ℤ) (now : Timespec) : Prop where
  /-- The deadline is normalised. -/
  valid : (deadline timeout t).Valid
  /-- It is not too early. -/
  not_early : now.ns + timeout * 1000000 ≤ (deadline timeout t).ns
  /-- It is not too late by a second. -/
  not_late : (deadline timeout t).ns < now.ns + timeout * 1000000 + 1000000000
  /-- The get is not given up before its timeout. -/
  patient : ∀ rs : List Return, (∀ r ∈ rs, Returned (deadline timeout t) r) →
    ∀ ts, timedGet timeout rs = .ok (some (ts, none)) → now.ns + timeout * 1000000 ≤ ts.ns

variable {timeout t : ℤ} {now : Timespec}

/-- The deadline counts from a full second. -/
theorem ns_deadline (htimeout : 0 ≤ timeout) :
    (deadline timeout t).ns = t * 1000000000 + timeout * 1000000 ∧ (deadline timeout t).Valid := by
  obtain ⟨hns, hvalid⟩ := ns_mstotimespec htimeout
  refine ⟨?_, hvalid.nsec_nonneg, hvalid.nsec_lt⟩
  simp only [deadline, Timespec.ns] at hns ⊢
  omega

/-- With 0, `get_msg_raw` returns a message. -/
theorem takeMsg_zero {mq mq' : MsgQueue} {heap heap' : Heap Msg} {msg : Option Addr}
    (h : takeMsg mq heap 0 = .ok (msg, mq', heap')) : msg ≠ none := by
  rw [takeMsg, if_pos rfl] at h
  cases hhead : mq.head with
  | none =>
    rw [hhead] at h
    cases h
  | some a =>
    rw [hhead] at h
    obtain ⟨⟨⟩, -, h⟩ := bind_eq_ok h
    obtain ⟨⟨⟩, -, h⟩ := bind_eq_ok h
    obtain ⟨node, -, h⟩ := bind_eq_ok h
    obtain ⟨heap₁, -, h⟩ := bind_eq_ok h
    dsimp only at h
    split_ifs at h
    · obtain ⟨⟨⟩, -, h⟩ := bind_eq_ok h
      obtain ⟨⟨⟩, -, h⟩ := bind_eq_ok h
      cases h
      exact Option.some_ne_none a
    · cases h
      exact Option.some_ne_none a

/-- Without a message it returns only if a wait returned `ETIMEDOUT`. -/
theorem returned_of_getMsgRawWoken {mq' : MsgQueue} {heap' : Heap Msg} {limit : Timespec} {r : Return}
    (hr : Returned limit r) (h : getMsgRawWoken r.mq r.heap timeout r.ret = .ok (.returns none mq' heap')) :
    limit.ns ≤ r.now.ns := by
  rcases hr with hret | ⟨-, hle⟩
  · exfalso
    rw [getMsgRawWoken, hret, if_neg (by simp [etimedout])] at h
    split_ifs at h
    · cases h
    · obtain ⟨⟨msg, mq₁, heap₁⟩, htake, h⟩ := bind_eq_ok h
      cases h
      exact takeMsg_zero htake rfl
  · exact hle

theorem le_of_timedGet {limit : Timespec} {rs : List Return} (hrs : ∀ r ∈ rs, Returned limit r) {ts : Timespec}
    (h : timedGet timeout rs = .ok (some (ts, none))) : limit.ns ≤ ts.ns := by
  induction rs with
  | nil => cases h
  | cons r rs ih =>
    obtain ⟨hr, hrs⟩ := List.forall_mem_cons.mp hrs
    rw [timedGet] at h
    split at h
    · cases h
    · exact ih hrs h
    · rename_i hwoken
      cases h
      exact returned_of_getMsgRawWoken hr hwoken

/-- **The deadline of a timed get** is right, and the get is not given up before its timeout,
exactly if the clock is at a full second and `time(NULL)` says so. -/
theorem deadline_iff (hnow : now.Valid) (ht : t ≤ now.sec) (htimeout : 1 ≤ timeout) :
    InTime timeout t now ↔ t = now.sec ∧ now.nsec = 0 := by
  obtain ⟨hns, hvalid⟩ : (deadline timeout t).ns = _ ∧ _ := ns_deadline (by omega)
  obtain ⟨hnonneg, hlt⟩ := hnow
  have hclock : now.ns = now.sec * 1000000000 + now.nsec := rfl
  constructor
  · intro h
    have := h.not_early
    omega
  · rintro ⟨hsec, hzero⟩
    refine ⟨hvalid, by omega, by omega, fun rs hrs ts h => ?_⟩
    have := le_of_timedGet hrs h
    omega

theorem deadline_full_second : InTime 1500 100 ⟨100, 0⟩ :=
  (deadline_iff (by decide) (by decide) (by decide)).mpr ⟨rfl, rfl⟩

/-- Nine tenths of a second later, a timeout of half a second is over before it begins: a wait may
return `ETIMEDOUT` at once. -/
theorem deadline_in_the_past :
    (deadline 500 100).ns < (Timespec.mk 100 900000000).ns ∧
      ∃ r : Return, r.now = ⟨100, 900000000⟩ ∧ Returned (deadline 500 100) r ∧
        timedGet 500 [r] = .ok (some (⟨100, 900000000⟩, none)) := by
  refine ⟨by decide, ⟨⟨100, 900000000⟩, etimedout, ⟨none, none, 0, true⟩, fun _ => none⟩, rfl, ?_, rfl⟩
  exact Or.inr ⟨rfl, by decide⟩

/-- At a full second the deadline is early all the same, when `time(NULL)` still returns the second before. -/
example : (deadline 500 99).ns < (Timespec.mk 100 0).ns := by decide

end Gross.Queue.Linked
