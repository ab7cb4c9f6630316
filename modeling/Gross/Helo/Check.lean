import Gross.Helo.ValidDn
import Gross.Worker.Results

/-!
# The check of the name

`helo` takes the name that a client has given and its address. A name that `valid_dn`
refuses is suspicious and is not looked up. Of any other it is asked which address it has,
and which name the client's address has, and each answer that does not agree adds one to
the weight.

## The model

* `Resolver` — what is answered. `Question` — what is asked.
* `helo` — from the assertions to `FINISH`: the questions, and how the check ends
  (`HeloExit` of `Gross.Worker.Results`, which has the result that is sent then).

## What is proved

* `helo_eq` — the check ends, for every name. Which names are refused is told by the
  grammar.
* `asked_iff` — it asks exactly for those names that are empty or of the grammar.
* `unsuspected_iff` — it finds nothing exactly if it has asked, and both answers agree or
  the address of the name cannot be printed.

## Honest scope

A host that is found has an address. Time limits are left out: an answer that is too late
is none.
-/

namespace Gross.Helo

open Foundation Postfix Worker Worker.Results

/-- What is asked. -/
inductive Question where
  /-- `Gethostbyname` -/
  | byName (name : List Char) (family : Family)
  /-- `Gethostbyaddr_str` -/
  | byAddr (address : List Char)
  deriving DecidableEq, Repr

/-- What is answered. -/
structure Resolver where
  /-- `Gethostbyname`: the first address, as `inet_ntop` prints it. -/
  gethostbyname : List Char → Family → Option (Option (List Char))
  /-- `Gethostbyaddr_str`: the name. -/
  gethostbyaddrStr : List Char → Option (List Char)

/-- What `helo` does with a name that is valid. -/
def lookUp (resolver : Resolver) (helostr clientAddress : List Char) (family : Family) : List Question × HeloExit :=
  match resolver.gethostbyname helostr family with
  | some none => ([.byName helostr family], .unprintable)
  | host =>
    ([.byName helostr family, .byAddr clientAddress],
      .compared (host == some (some clientAddress)) (resolver.gethostbyaddrStr clientAddress == some helostr))

/-- `helo`, up to `fuel` tests of the loop in `valid_dn`. -/
def helo (resolver : Resolver) (fuel : ℕ) (request : GreyTuple) : Except Fault (Option (List Question × HeloExit)) := do
  let (helostr, clientAddress, family) ← Worker.helo request
  match ← validDn fuel (helostr ++ [nul]) with
  | none => return none
  -- no point in doing dns queries
  | some false => return some ([], .invalid)
  | some true => return some (lookUp resolver helostr clientAddress family)

section

variable {request : GreyTuple} {name address : List Char} {fuel : ℕ}

/-- **The check** of a request that has a name and an address. -/
theorem helo_eq (resolver : Resolver) (hname : request.heloName = some name) (haddress : request.clientAddress = some address)
    (hnul : nul ∉ name) (hfuel : name.length < fuel) :
    helo resolver fuel request =
      .ok (some (if name = [] ∨ DomainName name then lookUp resolver name address (family address) else ([], .invalid))) := by
  have hfields : Worker.helo request = .ok (name, address, family address) := by
    rw [Worker.helo, hname, haddress]
    rfl
  rw [helo, hfields, ok_bind]
  dsimp only
  rw [validDn_append hnul hfuel [], ok_bind]
  split_ifs with hvalid
  · rw [decide_eq_true hvalid]
    rfl
  · rw [decide_eq_false hvalid]
    rfl

/-- Something is asked about every valid name. -/
theorem fst_lookUp_ne_nil (resolver : Resolver) (name address : List Char) (family : Family) :
    (lookUp resolver name address family).1 ≠ [] := by
  unfold lookUp
  split <;> exact List.cons_ne_nil _ _

/-- Both answers have to agree. -/
theorem judgment_compared (sameAddress sameName : Bool) :
    (Results.helo (.compared sameAddress sameName)).judgment = .undefined ↔ sameAddress = true ∧ sameName = true := by
  cases sameAddress <;> cases sameName <;> decide

/-- How the look-up ends without a suspicion. -/
theorem judgment_lookUp (resolver : Resolver) (name address : List Char) (family : Family) :
    (Results.helo (lookUp resolver name address family).2).judgment = .undefined ↔
      resolver.gethostbyname name family = some none ∨
        resolver.gethostbyname name family = some (some address) ∧ resolver.gethostbyaddrStr address = some name := by
  unfold lookUp
  split
  next hhost => exact iff_of_true rfl (.inl hhost)
  next hprinted => rw [judgment_compared, beq_iff_eq, beq_iff_eq, or_iff_right hprinted]

variable {resolver : Resolver} {asked : List Question} {exit : HeloExit}

/-- The resolver is asked exactly about names that are empty or of the grammar. About any other the check sends a
suspicion of weight 2. -/
theorem asked_iff (hname : request.heloName = some name) (haddress : request.clientAddress = some address)
    (hnul : nul ∉ name) (hfuel : name.length < fuel) (hrun : helo resolver fuel request = .ok (some (asked, exit))) :
    (asked ≠ [] ↔ name = [] ∨ DomainName name) ∧
      (asked = [] → (Results.helo exit).judgment = .suspicious ∧ (Results.helo exit).weight = 2) := by
  rw [helo_eq resolver hname haddress hnul hfuel] at hrun
  split_ifs at hrun with hvalid
  · have hasked := fst_lookUp_ne_nil resolver name address (family address)
    rw [Option.some.inj (Except.ok.inj hrun)] at hasked
    exact ⟨iff_of_true hasked hvalid, fun hnone => absurd hnone hasked⟩
  · cases hrun
    exact ⟨iff_of_false (fun hne => hne rfl) hvalid, fun _ => ⟨rfl, rfl⟩⟩

/-- The check finds nothing exactly if the name is empty or of the grammar, and its address cannot be printed, or it is
that of the client and the client's name is this one. -/
theorem unsuspected_iff (hname : request.heloName = some name) (haddress : request.clientAddress = some address)
    (hnul : nul ∉ name) (hfuel : name.length < fuel) (hrun : helo resolver fuel request = .ok (some (asked, exit))) :
    (Results.helo exit).judgment = .undefined ↔
      (name = [] ∨ DomainName name) ∧
        (resolver.gethostbyname name (family address) = some none ∨
          resolver.gethostbyname name (family address) = some (some address) ∧
            resolver.gethostbyaddrStr address = some name) := by
  rw [helo_eq resolver hname haddress hnul hfuel] at hrun
  split_ifs at hrun with hvalid
  · have hjudgment := judgment_lookUp resolver name address (family address)
    rw [Option.some.inj (Except.ok.inj hrun)] at hjudgment
    rw [hjudgment, and_iff_right hvalid]
  · cases hrun
    exact iff_of_false (fun h => nomatch h) fun h => hvalid h.1

end

end Gross.Helo
