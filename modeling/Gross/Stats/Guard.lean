import Gross.Foundation.Average
import Gross.Foundation.Mutex
import Gross.Worker.TestTuple

/-!
# The statistics and their mutex

The daemon counts what it has answered, and how long that took. Every thread that answers a
request writes to the statistics, so they are guarded by a mutex, `stats.mx`, which is taken in
the functions that read or write them. `get_srvstatus` says how the server is; if all is well
it prints the statistics too.

## The model

`StatsT` is `stats_t` without its mutex; the members that come in four are functions of the
`Kind`. The functions are in `Locking StatsT` (`Gross.Foundation.Mutex`), and take and give back
the mutex as the source does. `Call` is a call of one of them by a thread, with all that it
depends on, and `run` a sequence of calls.

## What is proved

`guarded_iff` — in a sequence of calls the mutex is only taken by a thread that does not hold it,
and is not held after any of them, exactly if `get_srvstatus` is not called while the server is
well. There it holds the mutex and calls `dnsbl_stats`, which takes it (`stuck_getSrvstatus`).

## Honest scope

Counters and times are numbers of any size, and delays are rational. What `%lf` prints is left
open. Of `log_stats`, the lines are what they are made of.
-/

namespace Gross.Stats

open Foundation Worker

/-- The kinds of answers that are counted. -/
inductive Kind where
  | block
  | greylist
  | matched
  | trust
  deriving DecidableEq, Repr

/-- `dnsbl_stat_t` -/
structure DnsblStat where
  /-- `dnsbl_name` -/
  dnsblName : List Char
  /-- `matches_startup` -/
  matchesStartup : ℕ
  deriving DecidableEq, Repr

/-- `stats_t` -/
structure StatsT where
  /-- `startup` -/
  startup : ℤ
  /-- `begin` -/
  begun : ℤ
  /-- `end` -/
  ended : ℤ
  /-- `block`, `greylist`, `match`, `trust` -/
  count : Kind → ℕ
  /-- `all_block` and so on. -/
  all : Kind → ℕ
  /-- `block_avg_delay` and so on. -/
  avgDelay : Kind → ℚ
  /-- `block_max_delay` and so on. -/
  maxDelay : Kind → ℚ
  /-- `dnsbl_match` -/
  dnsblMatch : List DnsblStat

/-! ### What is done to the statistics -/

/-- The values are zeroed; `began` is the time. -/
def StatsT.zero (began : ℤ) (s : StatsT) : StatsT :=
  { s with count := fun _ => 0, avgDelay := fun _ => 0, begun := began, ended := 0 }

/-- `++(ctx->stats.block)` and so on. -/
def StatsT.incf (k : Kind) (s : StatsT) : StatsT := { s with count := Function.update s.count k (s.count k + 1) }

/-- `++(ctx->stats.all_block)` and so on. -/
def StatsT.incfAll (k : Kind) (s : StatsT) : StatsT := { s with all := Function.update s.all k (s.all k + 1) }

/-- The average and the greatest delay are updated. -/
def StatsT.delay (k : Kind) (d : ℚ) (s : StatsT) : StatsT :=
  { s with
    avgDelay := Function.update s.avgDelay k (average (s.avgDelay k) (s.count k) d)
    maxDelay := if s.maxDelay k < d then Function.update s.maxDelay k d else s.maxDelay }

/-- The matches of the first list with this name are counted; it returns how many there are, as an `int`. -/
def countMatch (name : List Char) : List DnsblStat → BitVec 32 × List DnsblStat
  | [] => (0, [])
  | cur :: next =>
    if cur.dnsblName.take 256 = name.take 256 then
      (BitVec.ofNat 32 (cur.matchesStartup + 1), { cur with matchesStartup := cur.matchesStartup + 1 } :: next)
    else ((countMatch name next).1, cur :: (countMatch name next).2)

/-- `init_stats`, without `zero_stats`; the time is `startup`. -/
def initStats (startup : ℤ) : StatsT where
  startup := startup
  begun := 0
  ended := 0
  count := fun _ => 0
  all := fun _ => 0
  avgDelay := fun _ => 0
  maxDelay := fun _ => 0
  dnsblMatch := []

/-! ### The functions -/

/-- `zero_stats`; the time is read twice. -/
def zeroStats (ended began : ℤ) : Locking StatsT StatsT := locked (update fun s => ({ s with ended := ended }, s.zero began))

/-- `stat_dnsbl_match` -/
def statDnsblMatch (name : List Char) : Locking StatsT (BitVec 64) :=
  locked (update fun s =>
    ((countMatch name s.dnsblMatch).1.signExtend 64, { s with dnsblMatch := (countMatch name s.dnsblMatch).2 }))

/-- The functions that update a delay. -/
def delayUpdate (k : Kind) (d : ℚ) : Locking StatsT ℚ := locked (update fun s => ((s.delay k d).avgDelay k, s.delay k d))

/-- `block_delay_update` -/
def blockDelayUpdate (d : ℚ) : Locking StatsT ℚ := delayUpdate .block d

/-- `greylist_delay_update` -/
def greylistDelayUpdate (d : ℚ) : Locking StatsT ℚ := delayUpdate .greylist d

/-- `match_delay_update` -/
def matchDelayUpdate (d : ℚ) : Locking StatsT ℚ := delayUpdate .matched d

/-- `trust_delay_update` -/
def trustDelayUpdate (d : ℚ) : Locking StatsT ℚ := delayUpdate .trust d

/-- `INCF_STATS` -/
def incfStats (f : StatsT → StatsT) : Locking StatsT PUnit := locked (update fun s => (⟨⟩, f s))

/-- The kind that a status is counted under. -/
def kindOf : Status → Option Kind
  | .block => some .block
  | .matched => some .matched
  | .grey => some .greylist
  | .trust => some .trust
  | .unknown | .fail => none

/-- `update_counters` -/
def updateCounters (status : Status) : Locking StatsT PUnit :=
  match kindOf status with
  | some k => do
    incfStats (.incf k)
    incfStats (.incfAll k)
  | none => pure ⟨⟩

/-- What `dnsbl_stats` prints for each list in turn, with something between them. -/
def separated (print : DnsblStat → List Char) : List DnsblStat → List (List Char)
  | [] => []
  | [cur] => [print cur]
  | cur :: next => print cur :: ", ".toList :: separated print next

/-- `%" PRIu64` -/
def printCount (cur : DnsblStat) : List Char := (toString cur.matchesStartup).toList

/-- What `dnsbl_stats` prints, call by call: the names of the lists as it finds them first, and the counts as it finds
them then. -/
def parts (named counted : List DnsblStat) : List (List Char) :=
  ["grossd dnsbl matches (".toList] ++ separated DnsblStat.dnsblName named ++ ["): ".toList] ++
    separated printCount counted

/-- `dnsbl_stats`; the names are read without the lock. -/
def dnsblStats : Locking StatsT (List (List Char)) := do
  let named ← update fun s => (s.dnsblMatch, s)
  let counted ← locked (update fun s => (s.dnsblMatch, s))
  return parts named counted

/-- `log_stats`: the statistics whose values it logs, and what it logs of the lists. -/
def logStats (ended began : ℤ) : Locking StatsT (StatsT × List (List Char)) := do
  let stats ← zeroStats ended began
  let lists ← dnsblStats
  return (stats, lists)

/-! ### The status of the server -/

/-- What `get_srvstatus` looks at. -/
structure Server where
  /-- The thread of `bloommgr` is alive. -/
  bloommgr : Bool
  /-- That of `syncmgr`, if there is one. -/
  syncmgr : Option Bool
  /-- That of `sjsms_server`, if there is one. -/
  sjsmsServer : Option Bool
  /-- That of `postfix_server`, if there is one. -/
  postfixServer : Option Bool
  /-- `time(NULL)` -/
  now : ℤ
  /-- `*ctx->last_rotate` -/
  lastRotate : ℤ
  /-- `ctx->config.rotate_interval` -/
  rotateInterval : ℤ
  /-- `update_len_in` -/
  updateLenIn : BitVec 32
  /-- `update_len_out` -/
  updateLenOut : BitVec 32
  /-- `ctx->config.peer.connected` -/
  connected : ℤ
  /-- `FLG_NOREPLICATE` -/
  noreplicate : Bool
  deriving DecidableEq, Repr

/-- `%d` -/
def printD (n : BitVec 32) : String := toString n.toInt

/-- The lengths of the update queue, as they are printed. -/
def Server.queue (s : Server) : String :=
  printD (s.updateLenIn + s.updateLenOut) ++ " (In: " ++ printD s.updateLenIn ++ " + Out: " ++ printD s.updateLenOut ++ ")"

/-- What is said if the server is not well. -/
def Server.trouble (s : Server) : Option String :=
  if s.bloommgr = false then some "2: bloommgr-thread is dead."
  else if s.syncmgr = some false then some "2: syncmgr-thread is dead."
  else if s.sjsmsServer = some false then some "2: sjsms_server-thread is dead."
  else if s.postfixServer = some false then some "2: postfix_server-thread is dead."
  else if s.now - s.lastRotate > s.rotateInterval + 60 then some "2: Rotate stuck."
  else if s.updateLenOut.toNat > 50 then some ("2: Update queue length " ++ s.queue ++ ".")
  else if s.updateLenOut.toNat > 30 then some ("1: Update queue length " ++ s.queue ++ ".")
  else if s.connected < 1 ∧ s.noreplicate = false then some "1: Peer unreachable."
  else none

/-- The sum of the counters since startup. -/
def StatsT.total (s : StatsT) : ℕ := s.all .trust + s.all .matched + s.all .greylist + s.all .block

/-- What is said of the counters; `lf` is what `%lf` prints of a quotient. -/
def StatsT.summary (lf : ℕ → ℤ → String) (now : ℤ) (s : StatsT) : String :=
  " Trust: " ++ toString (s.all .trust) ++ " Match: " ++ toString (s.all .matched) ++ " Greylist: " ++
    toString (s.all .greylist) ++ " Block: " ++ toString (s.all .block) ++ " Queries/sec: " ++
    lf s.total (now - s.startup)

/-- `get_srvstatus`: what it prints, call by call. -/
def getSrvstatus (lf : ℕ → ℤ → String) (server : Server) : Locking StatsT (List (List Char)) :=
  match server.trouble with
  | some trouble => pure [trouble.toList]
  | none => do
    lock
    let summary ← update fun s => (s.summary lf server.now, s)
    let lists ← dnsblStats
    unlock
    return [("0: Grossd OK. Update queue: " ++ server.queue).toList, summary.toList, " Dnsbl matches: ".toList] ++ lists

/-! ### Sequences of calls -/

/-- A call, with what it is given and what it finds. -/
inductive Call where
  | getSrvstatus (server : Server)
  | logStats (ended began : ℤ)
  | zeroStats (ended began : ℤ)
  | dnsblStats
  | statDnsblMatch (name : List Char)
  | blockDelayUpdate (d : ℚ)
  | greylistDelayUpdate (d : ℚ)
  | matchDelayUpdate (d : ℚ)
  | trustDelayUpdate (d : ℚ)
  | updateCounters (status : Status)

/-- What the thread does in a call. -/
def Call.run (lf : ℕ → ℤ → String) : Call → Locking StatsT PUnit
  | .getSrvstatus server => do let _ ← Stats.getSrvstatus lf server
  | .logStats ended began => do let _ ← Stats.logStats ended began
  | .zeroStats ended began => do let _ ← Stats.zeroStats ended began
  | .dnsblStats => do let _ ← Stats.dnsblStats
  | .statDnsblMatch name => do let _ ← Stats.statDnsblMatch name
  | .blockDelayUpdate d => do let _ ← Stats.blockDelayUpdate d
  | .greylistDelayUpdate d => do let _ ← Stats.greylistDelayUpdate d
  | .matchDelayUpdate d => do let _ ← Stats.matchDelayUpdate d
  | .trustDelayUpdate d => do let _ ← Stats.trustDelayUpdate d
  | .updateCounters status => Stats.updateCounters status

/-- A sequence of calls. -/
def run (lf : ℕ → ℤ → String) (calls : List Call) : Locking StatsT PUnit := calls.forM (Call.run lf)

/-- At each call of the sequence the mutex is not held by the thread, nor after it, and it is never taken by
one who holds it. -/
def Keeps (lf : ℕ → ℤ → String) (calls : List Call) : Prop := ∀ n, Takes false (run lf (calls.take n)) false

variable {lf : ℕ → ℤ → String} {held : Bool}

/-! ### One function after another -/

theorem takes_zeroStats (ended began : ℤ) : Takes false (zeroStats ended began) false := (takes_update _).locked

theorem takes_statDnsblMatch (name : List Char) : Takes false (statDnsblMatch name) false := (takes_update _).locked

theorem takes_delayUpdate (k : Kind) (d : ℚ) : Takes false (delayUpdate k d) false := (takes_update _).locked

theorem takes_incfStats (f : StatsT → StatsT) : Takes false (incfStats f) false := (takes_update _).locked

theorem takes_updateCounters (status : Status) : Takes false (updateCounters status) false := by
  unfold updateCounters
  cases kindOf status with
  | none => exact takes_pure _
  | some k => exact (takes_incfStats _).bind fun _ => takes_incfStats _

theorem takes_dnsblStats : Takes false dnsblStats false :=
  (takes_update _).bind fun _ => (takes_update _).locked.bind fun _ => takes_pure _

/-- `dnsbl_stats` takes the mutex itself. -/
theorem stuck_dnsblStats : Stuck true dnsblStats := (takes_update _).stuck fun _ => (stuck_locked _).bind

theorem takes_logStats (ended began : ℤ) : Takes false (logStats ended began) false :=
  (takes_zeroStats ended began).bind fun _ => takes_dnsblStats.bind fun _ => takes_pure _

theorem takes_getSrvstatus {server : Server} (h : server.trouble ≠ none) : Takes held (getSrvstatus lf server) held := by
  unfold getSrvstatus
  cases htrouble : server.trouble with
  | none => exact absurd htrouble h
  | some trouble => exact takes_pure _

/-- **If the server is well, `get_srvstatus` waits for itself.** -/
theorem stuck_getSrvstatus {server : Server} (h : server.trouble = none) : Stuck false (getSrvstatus lf server) := by
  unfold getSrvstatus
  rw [h]
  exact takes_lock.stuck fun _ => (takes_update _).stuck fun _ => stuck_dnsblStats.bind

/-! ### A sequence of calls -/

/-- `get_srvstatus` is called, and the server is well. -/
def Call.Well : Call → Prop
  | .getSrvstatus server => server.trouble = none
  | _ => False

theorem takes_call {c : Call} (h : ¬ c.Well) : Takes false (c.run lf) false := by
  cases c with
  | getSrvstatus server => exact (takes_getSrvstatus h).bind fun _ => takes_pure _
  | logStats ended began => exact (takes_logStats ended began).bind fun _ => takes_pure _
  | zeroStats ended began => exact (takes_zeroStats ended began).bind fun _ => takes_pure _
  | dnsblStats => exact takes_dnsblStats.bind fun _ => takes_pure _
  | statDnsblMatch name => exact (takes_statDnsblMatch name).bind fun _ => takes_pure _
  | blockDelayUpdate d | greylistDelayUpdate d | matchDelayUpdate d | trustDelayUpdate d =>
    exact (takes_delayUpdate _ d).bind fun _ => takes_pure _
  | updateCounters status => exact takes_updateCounters status

theorem stuck_call {c : Call} (h : c.Well) : Stuck false (c.run lf) := by
  cases c with
  | getSrvstatus server => exact (stuck_getSrvstatus h).bind
  | logStats | zeroStats | dnsblStats | statDnsblMatch | blockDelayUpdate | greylistDelayUpdate | matchDelayUpdate
    | trustDelayUpdate | updateCounters => exact h.elim

/-- **The mutex is kept**, over any sequence of calls, exactly if `get_srvstatus` never finds the server well. -/
theorem guarded_iff (lf : ℕ → ℤ → String) (calls : List Call) : Keeps lf calls ↔ ∀ c ∈ calls, ¬ c.Well := by
  constructor
  · intro h c hc hwell
    have hall := h calls.length
    rw [List.take_length] at hall
    refine hall.not_stuck (initStats 0) (stuck_forM (fun c _ => ?_) ⟨c, hc, stuck_call hwell⟩)
    by_cases hc : c.Well
    · exact Or.inr (stuck_call hc)
    · exact Or.inl (takes_call hc)
  · intro h n
    exact takes_forM fun c hc => takes_call (h c (List.mem_of_mem_take hc))

/-- A server that is well. -/
def wellServer : Server := ⟨true, none, none, some true, 0, 0, 3600, 0, 0, 0, true⟩

/-- A request for the status of a server that is well never returns. -/
theorem srvstatus_deadlock :
    wellServer.trouble = none ∧
      Call.run (fun _ _ => "0.000000") (.getSrvstatus wellServer) ⟨false, initStats 0⟩ = .error .deadlock :=
  ⟨rfl, rfl⟩

end Gross.Stats
