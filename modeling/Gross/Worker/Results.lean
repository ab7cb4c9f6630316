import Gross.Worker.Fields

/-!
# What the checks send

A check ends in one of several ways: its library refuses to work, the request is not of a
kind that it looks at, or somebody has been asked and has answered. Each of them sends a
result, and `dnsblc` one more for each list that has the client.

## The model

`Exit` is what a check meets, and `sends` the messages that it puts on the queue then, in
order. If the pool is exhausted the check is not run, and `NULL` is put there for it.

## What is proved

`sound_sends` — no result of any check has its `definitive` set; the last message is final, and
those before it are not.
-/

namespace Gross.Worker.Results

/-- A result after `memset`, with the name of its check. -/
def blank (checkname : String) : ChkResult := ⟨false, false, 0, .undefined, none, some checkname⟩

/-! ### dnsblc -/

/-- What a result says about a `dnsbl_t`. -/
structure Dnsbl where
  /-- `name` -/
  name : String
  /-- `weight` -/
  weight : ℤ
  deriving DecidableEq, Repr

/-- How `dnsblc` ends. -/
inductive DnsblcExit where
  /-- `ares_init` fails. -/
  | uninitialized
  /-- There is nothing to ask about: the address is not valid, or the sender has no domain. -/
  | unasked
  /-- The lists that have been found to have it, in the order of the callbacks. -/
  | asked (listed : List Dnsbl)
  deriving DecidableEq, Repr

/-- `addrinfo_callback`: a list has it. -/
def addrinfoCallback (dnsbl : Dnsbl) : ChkResult :=
  { blank dnsbl.name with judgment := .suspicious, weight := dnsbl.weight, wait := true }

/-- The last result of a whitelist; `dnslname` is the last name that a callback has set. -/
def whitelisted : Option Dnsbl → ChkResult
  | some dnslname => { blank dnslname.name with judgment := .pass }
  | none => blank "dnsbl"

/-- `dnsblc` -/
def dnsblc (type : DnsCheckType) : DnsblcExit → List (Option ChkResult)
  | .uninitialized => [none]
  | .unasked => [some (blank "dnsbl")]
  | .asked listed =>
    if type = .dnswl then [some (whitelisted listed.getLast?)]
    else listed.map (fun dnsbl => some (addrinfoCallback dnsbl)) ++ [some (blank "dnsbl")]

/-! ### The others -/

/-- How `spfc` ends. -/
inductive SpfcExit where
  /-- `SPF_server_new` fails. -/
  | unserved
  /-- The library refuses the address, the name or the sender, or the query fails. -/
  | refused
  /-- `SPF_RESULT_FAIL`, with the comment if there is one. -/
  | fail (smtpError : Option String)
  /-- `SPF_RESULT_SOFTFAIL` -/
  | softfail
  /-- `SPF_RESULT_PASS` -/
  | pass
  /-- `SPF_RESULT_NEUTRAL` -/
  | neutral
  /-- `SPF_RESULT_NONE` -/
  | noRecord
  /-- Any other. -/
  | unexpected
  deriving DecidableEq, Repr

/-- `spfc` -/
def spfc : SpfcExit → ChkResult
  | .fail smtpError =>
    { blank "spf" with
      judgment := .block
      reason := some (smtpError.getD "SPF: policy violation: (no message available)") }
  | .softfail => { blank "spf" with judgment := .suspicious, weight := 1 }
  | .unserved | .refused | .pass | .neutral | .noRecord | .unexpected => blank "spf"

/-- `randomc`, when `rand` returns `r`. -/
def randomc (r : ℕ) : ChkResult :=
  if r % 7 = 0 then { blank "random" with judgment := .pass }
  else if r % 5 = 0 then
    { blank "random" with judgment := .block, reason := some "This is just a random block." }
  else if r % 3 = 0 then { blank "random" with judgment := .suspicious, weight := 1 }
  else blank "random"

/-- How `reverse` ends. -/
inductive ReverseExit where
  /-- The client has no name. -/
  | unnamed
  /-- The name has no address. -/
  | unresolved
  /-- It has one, which is the client's or not. -/
  | canonical (same : Bool)
  deriving DecidableEq, Repr

/-- `reverse` -/
def reverse : ReverseExit → ChkResult
  | .canonical true => blank "reverse"
  | .canonical false | .unnamed | .unresolved => { blank "reverse" with judgment := .suspicious, weight := 1 }

/-- How `helo` ends. -/
inductive HeloExit where
  /-- The name is not valid. -/
  | invalid
  /-- It has an address that cannot be printed. -/
  | unprintable
  /-- Whether it has the client's address, and whether it is the client's name. -/
  | compared (address name : Bool)
  deriving DecidableEq, Repr

/-- The weight that `helo` has found. -/
def heloWeight : HeloExit → ℤ
  | .invalid => 2
  | .unprintable => 0
  | .compared address name => (if address then 0 else 1) + (if name then 0 else 1)

/-- `helo` -/
def helo (exit : HeloExit) : ChkResult :=
  { blank "helo" with
    weight := heloWeight exit
    judgment := if heloWeight exit > 0 then .suspicious else .undefined }

/-- How `blocker` ends: with the line that the server has sent, or without one. -/
structure BlockerExit where
  /-- `ctx->config.blocker.weight` -/
  weight : ℤ
  /-- `buffer` -/
  line : Option (List Char)
  deriving DecidableEq, Repr

/-- `blocker` -/
def blocker (exit : BlockerExit) : ChkResult :=
  if (exit.line.getD []).take 11 = "action=565 ".toList then
    { blank "blocker" with judgment := .suspicious, weight := exit.weight }
  else blank "blocker"

/-! ### All of them -/

/-- What the check of a pool meets. -/
def Exit : Pool → Type
  | .dnsbl | .dnswl | .rhsbl => DnsblcExit
  | .reverse => ReverseExit
  | .helo => HeloExit
  | .blocker => BlockerExit
  | .random => ℕ
  | .spf => SpfcExit

/-- The messages of the check of a pool. -/
def routine : (pool : Pool) → Exit pool → List (Option ChkResult)
  | .dnsbl, exit => dnsblc .dnsbl exit
  | .dnswl, exit => dnsblc .dnswl exit
  | .rhsbl, exit => dnsblc .rhsbl exit
  | .reverse, exit => [some (reverse exit)]
  | .helo, exit => [some (helo exit)]
  | .blocker, exit => [some (blocker exit)]
  | .random, r => [some (randomc r)]
  | .spf, exit => [some (spfc exit)]

/-- The messages that are put on the queue for a check. -/
def sends (pool : Pool) : Option (Exit pool) → List (Option ChkResult)
  -- pool exhausted
  | none => [none]
  | some exit => routine pool exit

/-- No more messages of the check come after this one. -/
def isFinal : Option ChkResult → Bool
  | none => true
  | some result => !result.wait

/-! ### What they have in common -/

/-- A result whose `definitive` is not set. -/
def Unset (message : Option ChkResult) : Prop := ∀ result ∈ message, result.definitive = false

/-- The messages of a check: some that are not final and one that is. -/
structure Sound (messages : List (Option ChkResult)) : Prop where
  /-- No result has its `definitive` set. -/
  unset : ∀ message ∈ messages, Unset message
  /-- The last is final, and the others are not. -/
  final : ∃ partials last, messages = partials ++ [last] ∧ isFinal last = true ∧ ∀ m ∈ partials, isFinal m = false

theorem sound_singleton {result : ChkResult} (hunset : result.definitive = false) (hwait : result.wait = false) :
    Sound [some result] where
  unset := List.forall_mem_singleton.mpr fun _ h => Option.mem_some.mp h ▸ hunset
  final := ⟨[], some result, rfl, by rw [isFinal, hwait]; rfl, List.forall_mem_nil _⟩

theorem sound_null : Sound [none] where
  unset := List.forall_mem_singleton.mpr fun _ h => (Option.not_mem_none _ h).elim
  final := ⟨[], none, rfl, rfl, List.forall_mem_nil _⟩

theorem sound_whitelisted (dnslname : Option Dnsbl) : Sound [some (whitelisted dnslname)] := by
  cases dnslname <;> exact sound_singleton rfl rfl

theorem sound_dnsblc (type : DnsCheckType) (exit : DnsblcExit) : Sound (dnsblc type exit) := by
  cases exit with
  | uninitialized => exact sound_null
  | unasked => exact sound_singleton rfl rfl
  | asked listed =>
    unfold dnsblc
    split_ifs
    · exact sound_whitelisted _
    · refine ⟨fun message h => ?_, _, _, rfl, rfl, fun message h => ?_⟩
      · rcases List.mem_append.mp h with h | h
        · obtain ⟨dnsbl, -, rfl⟩ := List.mem_map.mp h
          rintro _ ⟨⟩
          rfl
        · obtain rfl := List.mem_singleton.mp h
          rintro _ ⟨⟩
          rfl
      · obtain ⟨dnsbl, -, rfl⟩ := List.mem_map.mp h
        rfl

theorem sound_spfc (exit : SpfcExit) : Sound [some (spfc exit)] := by
  cases exit <;> exact sound_singleton rfl rfl

theorem sound_randomc (r : ℕ) : Sound [some (randomc r)] := by
  unfold randomc
  split_ifs <;> exact sound_singleton rfl rfl

theorem sound_reverse (exit : ReverseExit) : Sound [some (reverse exit)] := by
  rcases exit with _ | _ | _ | _ <;> exact sound_singleton rfl rfl

theorem sound_blocker (exit : BlockerExit) : Sound [some (blocker exit)] := by
  unfold blocker
  split_ifs <;> exact sound_singleton rfl rfl

/-- **No check sets `definitive`**, whatever it meets, and its last message is the final one. -/
theorem sound_sends (pool : Pool) (exit : Option (Exit pool)) : Sound (sends pool exit) := by
  cases exit with
  | none => exact sound_null
  | some exit =>
    cases pool with
    | dnsbl | dnswl | rhsbl => exact sound_dnsblc _ exit
    | reverse => exact sound_reverse exit
    | helo => exact sound_singleton rfl rfl
    | blocker => exact sound_blocker exit
    | random => exact sound_randomc exit
    | spf => exact sound_spfc exit

end Gross.Worker.Results
