import Gross.Utils.Time
import Mathlib.Tactic.Common

/-!
# Testing a tuple

`test_tuple` decides what is to be done about a request. If its digest is in the
filter, and the daemon is configured so or has no checks, it is let through at once.
If there are checks, each is given the request, and their results come back on a
queue, in any order. The loop of `test_tuple` takes them in one by one: it keeps the
greatest judgment and the sum of the weights, and stops when every check has given its
final result, when it has enough to decide, or when the time is over. Then it decides
by the judgment, the weight and the filter.

## The model

A turn of the loop (`Turn`) is what the clock says and what `get_msg_timed` returns:
a result, `NULL`, or no message. `Loop` is what the loop keeps, `Loop.turn` what a turn
does to it, and `listen` the loop. `shortcut`, `Loop.verdict` and `finish` are what is
before and after it.

## Honest scope

The digest of the tuple is not computed here: what comes in is whether
`is_in_ring_queue` finds it. Where `grey_mask` refuses the client address, `test_tuple`
returns before any of this. Sums of weights are an `int` and wrap around. The counters
of the checks are integers: there are at most `MAXCHECKS` of them.
-/

namespace Gross.Worker

open Utils

/-- `judgment_t`, in the order of its numbers. -/
inductive Judgment where
  /-- `J_UNDEFINED` -/
  | undefined
  /-- `J_SUSPICIOUS` -/
  | suspicious
  /-- `J_BLOCK` -/
  | block
  /-- `J_PASS` -/
  | pass
  deriving DecidableEq, Repr

/-- The number of a judgment. -/
def Judgment.toNat : Judgment → ℕ
  | undefined => 0
  | suspicious => 1
  | block => 2
  | pass => 3

/-- `MAX` -/
def Judgment.max (a b : Judgment) : Judgment := if a.toNat > b.toNat then a else b

/-- `grey_status_t` -/
inductive Status where
  /-- `STATUS_GREY` -/
  | grey
  /-- `STATUS_MATCH` -/
  | matched
  /-- `STATUS_TRUST` -/
  | trust
  /-- `STATUS_UNKNOWN` -/
  | unknown
  /-- `STATUS_FAIL` -/
  | fail
  /-- `STATUS_BLOCK` -/
  | block
  deriving DecidableEq, Repr

/-- The pools that run the checks. -/
inductive Pool where
  | dnsbl
  | dnswl
  | rhsbl
  | reverse
  | helo
  | blocker
  | random
  | spf
  deriving DecidableEq, Repr

/-- `check_t` -/
structure Check where
  /-- `pool` -/
  pool : Pool
  /-- `definitive`: it can let a request through, or block it, by itself. -/
  definitive : Bool
  deriving DecidableEq, Repr

/-- `chkresult_t` -/
structure ChkResult where
  /-- `definitive` -/
  definitive : Bool
  /-- `wait`: more results of this check will come. -/
  wait : Bool
  /-- `weight` -/
  weight : ℤ
  /-- `judgment` -/
  judgment : Judgment
  /-- `reason` -/
  reason : Option String
  /-- `checkname` -/
  checkname : Option String
  deriving DecidableEq, Repr

/-- `check_match_t` -/
structure CheckMatch where
  /-- `name` -/
  name : String
  /-- `weight` -/
  weight : ℤ
  deriving DecidableEq, Repr

/-- What `test_tuple` writes to `querylog_entry_t`. -/
structure QuerylogEntry where
  /-- `totalweight` -/
  totalweight : ℤ
  /-- `match` -/
  matched : List CheckMatch
  /-- `action` -/
  action : Status
  deriving DecidableEq, Repr

/-- `tmout_action_t` -/
structure TmoutAction where
  /-- `timeout` -/
  timeout : ℤ
  /-- `action`: which one it is, if there is one. -/
  action : Option ℕ
  deriving DecidableEq, Repr

/-- What `test_tuple` reads of the configuration. -/
structure Config where
  /-- `grey_threshold` -/
  greyThreshold : ℤ
  /-- `block_threshold` -/
  blockThreshold : ℤ
  /-- `FLG_MATCH_SHORTCUT` -/
  matchShortcut : Bool
  /-- `FLG_UPDATE_ALWAYS` -/
  updateAlways : Bool
  /-- `FLG_DRYRUN` -/
  dryrun : Bool
  /-- `query_timelimit` -/
  queryTimelimit : ℤ
  /-- `grey_reason` -/
  greyReason : String
  /-- `block_reason` -/
  blockReason : String
  deriving DecidableEq, Repr

/-- The sum of two `int`s. -/
def addInt (a b : ℤ) : ℤ := (a + b).bmod 4294967296

/-- `record_match` -/
def recordMatch (q : QuerylogEntry) (r : ChkResult) : QuerylogEntry :=
  { q with
    totalweight := addInt q.totalweight r.weight
    matched := q.matched ++ [⟨r.checkname.getD "<anonymous>", r.weight⟩] }

/-! ### The loop -/

/-- What the loop keeps. -/
structure Loop where
  /-- `judgment` -/
  judgment : Judgment
  /-- `susp_weight` -/
  suspWeight : ℤ
  /-- `checks_running` -/
  checksRunning : ℤ
  /-- `definitives_running` -/
  definitivesRunning : ℤ
  /-- `definitive` -/
  definitive : Bool
  /-- `reasonstr` -/
  reasonstr : Option String
  /-- `querylog_entry` -/
  entry : QuerylogEntry
  /-- `ta`: the timeouts that are left. -/
  ta : List TmoutAction
  /-- The timeout actions performed, each with the time used. -/
  performed : List (ℕ × ℤ)
  deriving DecidableEq, Repr

/-- A turn of the loop: the clock, and what `get_msg_timed` returns. -/
structure Turn where
  /-- `now` -/
  now : Timespec
  /-- The message, if there is one. -/
  message : Option (Option ChkResult)
  deriving DecidableEq, Repr

namespace Loop

/-- The condition of the loop does not hold any more. -/
def ended (l : Loop) : Bool := l.definitive || decide (l.checksRunning ≤ 0) || l.ta.isEmpty

/-- A result is taken in. -/
def take (l : Loop) (result : ChkResult) : Loop :=
  { l with
    -- was this a final result from the check?
    checksRunning := if result.wait then l.checksRunning else l.checksRunning - 1
    judgment := l.judgment.max result.judgment
    suspWeight := addInt l.suspWeight result.weight
    entry := if result.judgment ≠ .undefined then recordMatch l.entry result else l.entry
    definitivesRunning := if result.definitive then l.definitivesRunning - 1 else l.definitivesRunning
    reasonstr := match result.reason with
      | some reason => some reason
      | none => l.reasonstr }

/-- Do we have a definitive result so far? -/
def settle (conf : Config) (l : Loop) : Loop :=
  if l.judgment = .pass then { l with definitive := true }
  else if l.definitivesRunning = 0 then
    if conf.blockThreshold ≠ 0 ∧ l.suspWeight ≥ conf.blockThreshold then { l with definitive := true }
    else if conf.blockThreshold = 0 ∧ l.suspWeight ≥ conf.greyThreshold then { l with definitive := true }
    else l
  else l

/-- A message is received: a result, or `NULL` if the check could not be made. -/
def hear (conf : Config) (l : Loop) : Option ChkResult → Loop
  | none => settle conf { l with checksRunning := l.checksRunning - 1 }
  | some result => settle conf (l.take result)

/-- A turn of the loop, which began at `start`. -/
def turn (conf : Config) (start : Timespec) (l : Loop) (t : Turn) : Loop :=
  match l.ta with
  | [] => l
  | ta :: next =>
    let timeused := msDiff t.now start
    if timeused < ta.timeout then
      match t.message with
      | none => l
      | some message => l.hear conf message
    else
      match ta.action with
      | some action => { l with performed := l.performed ++ [(action, timeused)], ta := next }
      | none => { l with ta := next }

end Loop

/-- The timeouts, if the caller gives none. -/
def timeouts (conf : Config) : Option (List TmoutAction) → List TmoutAction
  | none => [⟨conf.queryTimelimit, none⟩]
  | some ta => ta

/-- The loop as it begins, when the checks have been submitted. -/
def Loop.init (checklist : List Check) (ta : List TmoutAction) : Loop where
  judgment := .undefined
  suspWeight := 0
  checksRunning := checklist.length
  definitivesRunning := (checklist.countP (·.definitive) : ℕ)
  definitive := false
  reasonstr := none
  entry := ⟨0, [], .grey⟩
  ta := ta
  performed := []

/-- The loop, as long as it goes on. -/
def listen (conf : Config) (start : Timespec) (l : Loop) (turns : List Turn) : Loop :=
  turns.foldl (fun l t => if l.ended then l else l.turn conf start t) l

/-! ### Before and after it -/

/-- What is decided, and why. -/
structure Decision where
  /-- `retvalue` -/
  retvalue : Status
  /-- `reasonstr` -/
  reasonstr : Option String
  deriving DecidableEq, Repr

/-- What is decided without asking the checks; `seen` is whether the digest is in the filter. -/
def shortcut (conf : Config) (checklist : List Check) (seen : Bool) : Option Decision :=
  if seen = true ∧ (conf.matchShortcut = true ∨ checklist.length = 0) then some ⟨.matched, none⟩
  else if checklist.length = 0 then some ⟨.grey, some conf.greyReason⟩
  else none

/-- Let's sum up the results. -/
def Loop.verdict (conf : Config) (seen : Bool) (l : Loop) : Decision :=
  match l.judgment with
  | .pass => ⟨.trust, l.reasonstr⟩
  | .block => ⟨.block, l.reasonstr⟩
  | .suspicious | .undefined =>
    if conf.blockThreshold > 0 ∧ l.suspWeight ≥ conf.blockThreshold then ⟨.block, some conf.blockReason⟩
    else if l.suspWeight ≥ conf.greyThreshold then
      if seen then ⟨.matched, l.reasonstr⟩ else ⟨.grey, some conf.greyReason⟩
    else ⟨.trust, l.reasonstr⟩

/-- Whether the digest is put in the filter. -/
def updates (conf : Config) (retvalue : Status) : Bool :=
  retvalue = .grey || retvalue = .matched || conf.updateAlways

/-- What the policy servers read in `final_status_t`; `str` is what a text is. -/
structure FinalStatus (str : Type) where
  /-- `status` -/
  status : Status
  /-- `reason` -/
  reason : Option str
  deriving DecidableEq, Repr

/-- `final_status_t`, and whether the digest is put in the filter. -/
structure Final extends FinalStatus String where
  /-- `querylog_entry` -/
  entry : QuerylogEntry
  /-- The update message is put. -/
  update : Bool
  deriving DecidableEq, Repr

/-- What follows the decision. -/
def finish (conf : Config) (decision : Decision) (entry : QuerylogEntry) : Final where
  status := if conf.dryrun then .trust else decision.retvalue
  reason := decision.reasonstr
  entry := { entry with action := decision.retvalue }
  update := updates conf decision.retvalue

/-- `test_tuple`, while the filter does not change. -/
def testTuple (conf : Config) (checklist : List Check) (seen : Bool) (ta : Option (List TmoutAction))
    (start : Timespec) (turns : List Turn) : Final :=
  match shortcut conf checklist seen with
  | some decision => finish conf decision ⟨0, [], .grey⟩
  | none =>
    let l := listen conf start (.init checklist (timeouts conf ta)) turns
    finish conf (l.verdict conf seen) l.entry

/-! ### What a turn does -/

theorem Judgment.max_eq_pass {a b : Judgment} : a.max b = .pass ↔ a = .pass ∨ b = .pass := by
  cases a <;> cases b <;> decide

theorem Judgment.max_eq_block {a b : Judgment} :
    a.max b = .block ↔ (a = .block ∨ b = .block) ∧ a ≠ .pass ∧ b ≠ .pass := by
  cases a <;> cases b <;> decide

/-- What stops the loop before the last result. -/
def Loop.Decides (conf : Config) (l : Loop) : Prop :=
  l.judgment = .pass ∨ l.definitivesRunning = 0 ∧
    (conf.blockThreshold ≠ 0 ∧ l.suspWeight ≥ conf.blockThreshold ∨
      conf.blockThreshold = 0 ∧ l.suspWeight ≥ conf.greyThreshold)

/-- `settle` stops the loop at most, and if what it has decides. -/
theorem Loop.settle_eq (conf : Config) (l : Loop) :
    ∃ b, l.settle conf = { l with definitive := b } ∧ (b = true → l.definitive = true ∨ l.Decides conf) := by
  unfold settle Decides
  split_ifs with hpass hdef hblock hgrey
  · exact ⟨true, rfl, fun _ => .inr (.inl hpass)⟩
  · exact ⟨true, rfl, fun _ => .inr (.inr ⟨hdef, .inl hblock⟩)⟩
  · exact ⟨true, rfl, fun _ => .inr (.inr ⟨hdef, .inr hgrey⟩)⟩
  · exact ⟨l.definitive, rfl, .inl⟩
  · exact ⟨l.definitive, rfl, .inl⟩

/-- The judgment after a message. -/
theorem Loop.judgment_hear (conf : Config) (l : Loop) (m : Option ChkResult) :
    (l.hear conf m).judgment = (m.elim l.judgment fun r => l.judgment.max r.judgment) := by
  cases m with
  | none =>
    obtain ⟨b, heq, -⟩ := settle_eq conf { l with checksRunning := l.checksRunning - 1 }
    rw [Loop.hear, heq]
    rfl
  | some r =>
    obtain ⟨b, heq, -⟩ := settle_eq conf (l.take r)
    rw [Loop.hear, heq]
    rfl

theorem Loop.ta_hear (conf : Config) (l : Loop) (m : Option ChkResult) : (l.hear conf m).ta = l.ta := by
  cases m with
  | none =>
    obtain ⟨b, heq, -⟩ := settle_eq conf { l with checksRunning := l.checksRunning - 1 }
    rw [Loop.hear, heq]
  | some r =>
    obtain ⟨b, heq, -⟩ := settle_eq conf (l.take r)
    rw [Loop.hear, heq]
    rfl

/-- A turn changes the judgment by a result at most. -/
theorem Loop.judgment_turn (conf : Config) (start : Timespec) (l : Loop) (t : Turn) :
    (l.turn conf start t).judgment = l.judgment ∨
      ∃ r, t.message = some (some r) ∧ (l.turn conf start t).judgment = l.judgment.max r.judgment := by
  unfold turn
  cases l.ta with
  | nil => exact .inl rfl
  | cons ta next =>
    dsimp only
    split_ifs
    · match hm : t.message with
      | none => exact .inl rfl
      | some none => exact .inl (judgment_hear conf l none)
      | some (some r) => exact .inr ⟨r, rfl, judgment_hear conf l (some r)⟩
    · cases ta.action with
      | none => exact .inl rfl
      | some action => exact .inl rfl

end Gross.Worker
