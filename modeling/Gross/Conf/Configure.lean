import Gross.Foundation.CArray
import Gross.Worker.TestTuple

/-!
# The configuration

`configure_grossd` turns the list of configuration items, the defaults and those of
the file, into the configuration of the daemon, and stops on values it does not know.
`main` then starts the checks that are enabled.

## The model

Modelled is what `test_tuple` depends on: the update style, the thresholds, the
reasons, the time limit and the checks. `atoi` is that of the C library: `strtol`, cut
off at the ends of a `long`, as an `int`.

## What is proved

`configureGrossd_ok` — what an accepted configuration says: the match shortcut is taken
exactly if the block threshold is zero, and the filter is always updated exactly if the
update style is `always`.

## Honest scope

The options of the other parts are left out, with the checks made of them:
`configure_grossd` may stop where the model goes on. `DNSBL` and `SPF` are compiled in
or not (`Build`).
-/

namespace Gross.Conf

open Foundation Worker

/-- `configlist_t` -/
structure ConfigItem where
  /-- `name` -/
  name : String
  /-- `value` -/
  value : String
  /-- `params` -/
  params : List String
  /-- `is_default` -/
  isDefault : Bool
  deriving DecidableEq, Repr

/-- `gconf` -/
def gconf (config : List ConfigItem) (name : String) : Option String :=
  (config.find? fun item => item.name = name).map (·.value)

/-- `isspace` -/
def isSpace (c : Char) : Bool := c = ' ' || ('\t' ≤ c && c ≤ '\r')

/-- The number that the leading digits make. -/
def leadingDigits (cs : List Char) : ℤ :=
  (cs.takeWhile Char.isDigit).foldl (fun n c => n * 10 + (c.toNat - '0'.toNat : ℕ)) 0

/-- `strtol`, base 10. -/
def strtol (s : String) : ℤ :=
  match s.toList.dropWhile isSpace with
  | '-' :: cs => max (-leadingDigits cs) (-9223372036854775808)
  | '+' :: cs => min (leadingDigits cs) 9223372036854775807
  | cs => min (leadingDigits cs) 9223372036854775807

/-- `atoi` -/
def atoi (s : String) : ℤ := (strtol s).bmod 4294967296

example : atoi " -12x" = -12 ∧ atoi "always" = 0 ∧ atoi "4294967297" = 1 := by decide

/-- What is compiled in. -/
structure Build where
  /-- `DNSBL` -/
  dnsbl : Bool
  /-- `SPF` -/
  spf : Bool
  deriving DecidableEq, Repr

/-- The value of a `check` item. Others are ignored. -/
def checkOf (value : String) : Option Pool :=
  if value = "dnsbl" then some .dnsbl
  else if value = "dnswl" then some .dnswl
  else if value = "rhsbl" then some .rhsbl
  else if value = "blocker" then some .blocker
  else if value = "random" then some .random
  else if value = "spf" then some .spf
  else if value = "reverse" then some .reverse
  else if value = "helo" then some .helo
  else none

/-- `config.checks` -/
def checks (config : List ConfigItem) : List Pool :=
  config.filterMap fun item => if item.name = "check" then checkOf item.value else none

/-- The checks that `main` can start, in turn, each with what it registers. -/
def startable (build : Build) : List Check :=
  (if build.dnsbl then [⟨.dnsbl, false⟩, ⟨.dnswl, true⟩, ⟨.rhsbl, false⟩, ⟨.reverse, false⟩, ⟨.helo, false⟩] else []) ++
    [⟨.blocker, false⟩, ⟨.random, true⟩] ++ if build.spf then [⟨.spf, true⟩] else []

/-- `checklist`, when `main` has started the checks. -/
def checklist (build : Build) (config : List ConfigItem) : List Check :=
  (startable build).filter fun check => check.pool ∈ checks config

/-- The style of updates: whether it is `always`. -/
def updateStyle (config : List ConfigItem) : Except Fault Bool :=
  match gconf config "update" with
  -- it is compared before it is found to be missing
  | none => throw .outOfBounds
  | some updatestr =>
    if updatestr = "always" then pure true
    else if updatestr = "grey" then pure false
    else throw .exit

/-- `atoi(CONF(name))`, which the default configuration has. -/
def number (config : List ConfigItem) (name : String) : Except Fault ℤ :=
  match gconf config name with
  | none => throw .outOfBounds
  | some value => pure (atoi value)

/-- The same of an option with a default of its own. -/
def numberOr (config : List ConfigItem) (name : String) (default : ℤ) : ℤ :=
  match gconf config name with
  | none => default
  | some value => atoi value

/-- `configure_grossd`. The flag comes from the command line. -/
def configureGrossd (dryrun : Bool) (config : List ConfigItem) : Except Fault Config := do
  let updateAlways ← updateStyle config
  let queryTimelimit ← number config "query_timelimit"
  let blockThreshold := numberOr config "block_threshold" 0
  return {
    greyThreshold := numberOr config "grey_threshold" 1
    blockThreshold := blockThreshold
    -- shortcut match only if not blocking
    matchShortcut := blockThreshold = 0
    updateAlways := updateAlways
    dryrun := dryrun
    queryTimelimit := queryTimelimit
    greyReason := (gconf config "grey_reason").getD ""
    blockReason := (gconf config "block_reason").getD "" }

theorem of_updateStyle_eq_ok {config : List ConfigItem} {b : Bool} (h : updateStyle config = .ok b) :
    b = true ↔ gconf config "update" = some "always" := by
  unfold updateStyle at h
  cases hconf : gconf config "update" with
  | none =>
    rw [hconf] at h
    cases h
  | some updatestr =>
    simp only [hconf] at h
    split_ifs at h with halways hgrey
    · cases h
      simp [halways]
    · cases h
      simp [halways]

/-- What an accepted configuration says. -/
theorem configureGrossd_ok {dryrun : Bool} {config : List ConfigItem} {conf : Config}
    (h : configureGrossd dryrun config = .ok conf) :
    (conf.updateAlways = true ↔ gconf config "update" = some "always") ∧
      (conf.matchShortcut = true ↔ conf.blockThreshold = 0) ∧ conf.dryrun = dryrun := by
  obtain ⟨updateAlways, hupdate, h⟩ := bind_eq_ok h
  obtain ⟨queryTimelimit, -, h⟩ := bind_eq_ok h
  cases h
  exact ⟨of_updateStyle_eq_ok hupdate, by simp, rfl⟩

end Gross.Conf
