import Gross.Addrutils.Reverse
import Gross.Sjsms.Query
import Gross.Worker.TestTuple

/-!
# Which fields of a request are needed

A request is accepted when it has a sender, a recipient and a client address
(`check_request`). What is done about it then reads these fields, and the name the client
said it has (`helo_name`): `test_tuple` puts some of them in a row and hashes it, and each
check looks at some.

## The model

A check is modelled up to where it asks somebody: what it reads of the request, and what it
asks for. `Accepted` is that one of the parsers returned the request. `readFields` is what is
read when `test_tuple` is given a request: the row, and, if the request is not decided
without them, what the configured checks read.

## What is proved

`readFields_ok_iff` — no assertion about a field fails, and no field that is not set is
printed, exactly if the request has a `helo_name`; or `grey_mask` refuses its address; or the
row is of the user kind and no `helo` check is asked.

## Honest scope

`spfc` is given the fields that it gives to the library. Of the lists of names that `dnsblc`
asks nothing is said.
-/

namespace Gross.Worker

open Foundation Postfix Sjsms Addrutils

/-! ### The checks -/

/-- `assert(p)`, of a field. -/
def asserted : Option (List Char) → Except Fault (List Char)
  | some s => .ok s
  | none => .error .assertion

/-- A field that is read as it is. -/
def unchecked : Option (List Char) → Except Fault (List Char)
  | some s => .ok s
  | none => .error .outOfBounds

/-- The kind of an address, as `helo` and `spfc` see it. -/
inductive Family where
  /-- `AF_INET` -/
  | inet
  /-- `AF_INET6` -/
  | inet6
  deriving DecidableEq, Repr

/-- By a colon. -/
def family (clientAddress : List Char) : Family := if ':' ∈ clientAddress then .inet6 else .inet

/-- `helo`: the name to be resolved, the address it should have, and the kind of that. -/
def helo (request : GreyTuple) : Except Fault (List Char × List Char × Family) := do
  let helostr ← asserted request.heloName
  let clientAddress ← asserted request.clientAddress
  return (helostr, clientAddress, family clientAddress)

/-- `reverse`: the address to be resolved. -/
def reverse (request : GreyTuple) : Except Fault (List Char) := asserted request.clientAddress

/-- `blocker`: the question. -/
def blocker (request : GreyTuple) : Except Fault (List Char) := do
  let clientAddress ← asserted request.clientAddress
  return ("client_address=".toList ++ clientAddress ++ "\n\n".toList).take (maxlinelen - 1)

/-- `randomc`: what it logs. -/
def randomc (request : GreyTuple) : Except Fault (List Char) := asserted request.clientAddress

/-- `spfc`: the address and its kind, the name if there is one, and the sender. -/
def spfc (request : GreyTuple) : Except Fault (List Char × Family × Option (List Char) × List Char) := do
  let clientAddress ← unchecked request.clientAddress
  let sender ← unchecked request.sender
  return (clientAddress, family clientAddress, request.heloName, sender)

/-- What stands after the last `@` of an address that does not begin with it. -/
def afterAt (sender : List Char) : Option (List Char) :=
  match sender.reverse.dropWhile (· ≠ '@') with
  | _ :: _ :: _ => some (sender.reverse.takeWhile (· ≠ '@')).reverse
  | _ => none

/-- `strncpy(qstr, s, INET6_ADDRSTRLEN)` -/
def copyQstr (qstr s : List Char) : Except Fault (List Char) := do
  let out ← strncpy '\x00' inet6Addrstrlen (s ++ ['\x00'])
  memcpy qstr 0 out inet6Addrstrlen

/-- `dns_check_type_t` -/
inductive DnsCheckType where
  /-- `TYPE_DNSBL` -/
  | dnsbl
  /-- `TYPE_RHSBL` -/
  | rhsbl
  /-- `TYPE_DNSWL` -/
  | dnswl
  deriving DecidableEq, Repr

/-- `dnsblc`: what `qstr` holds when the lists are asked, if they are. -/
def dnsblc (inet : Inet) (e : Endian) (type : DnsCheckType) (request : GreyTuple) (qstr : List Char) :
    Except Fault (Option (List Char)) :=
  match type with
  | .dnsbl | .dnswl => do
    let origQstr ← asserted request.clientAddress
    if origQstr.length ≥ inet6Addrstrlen then return none
    let qstr ← copyQstr qstr origQstr
    let (ret, qstr) ← reverseInetAddr inet e qstr
    if ret < 0 then return none else return some qstr
  | .rhsbl => do
    let sender ← unchecked request.sender
    match afterAt sender with
    | none => return none
    | some domain => do
      let qstr ← copyQstr qstr domain
      return some qstr

/-- The routine of a pool is given the request. -/
def runCheck (inet : Inet) (e : Endian) (request : GreyTuple) (qstr : List Char) : Pool → Except Fault Unit
  | .dnsbl => do let _ ← dnsblc inet e .dnsbl request qstr
  | .dnswl => do let _ ← dnsblc inet e .dnswl request qstr
  | .rhsbl => do let _ ← dnsblc inet e .rhsbl request qstr
  | .reverse => do let _ ← reverse request
  | .helo => do let _ ← helo request
  | .blocker => do let _ ← blocker request
  | .random => do let _ ← randomc request
  | .spf => do let _ ← spfc request

/-- What is read of a request when `test_tuple` is given it; `seen` is whether its digest is in the
filter, and `qstr` what the buffers of the checks hold. -/
def readFields (inet : Inet) (e : Endian) (mask : MaskConfig) (conf : Config) (checklist : List Check) (seen : Bool)
    (qstr : List Char) (request : GreyTuple) : Except Fault Unit := do
  let row ← maskedtuple inet e mask request
  match row, shortcut conf checklist seen with
  | none, _ => return ()
  | some _, some _ => return ()
  | some _, none => checklist.forM fun check => runCheck inet e request qstr check.pool

/-! ### Accepted requests -/

/-- One of the parsers returned the request. -/
inductive Accepted : GreyTuple → Prop where
  /-- `parse_postfix`, from a connection. -/
  | parsePostfix {single : Bool} {conn rest : Utils.Conn} {p : Parse} (h : parsePostfix single conn = (.ok, p, rest)) :
    Accepted p.tuple
  /-- `parsequery`, from a string. -/
  | parsequery {text : List Char} {tuple : GreyTuple} (hnul : '\x00' ∉ text)
    (h : parsequery text = .ok (some tuple)) : Accepted tuple

theorem checkRequest_of_parseLoop {input : Bool} {p p' : Parse} {conn rest : Utils.Conn}
    (h : parseLoop input p conn = (.ok, p', rest)) : checkRequest p'.tuple = true := by
  have hfinish : ∀ {p p' : Parse} {conn rest : Utils.Conn}, p.finish conn = (.ok, p', rest) →
      checkRequest p'.tuple = true := by
    intro p p' conn rest h
    rw [Parse.finish] at h
    split_ifs at h with hcheck
    · cases h
      exact hcheck
    · cases h
  fun_induction parseLoop input p conn with
  | case1 => cases h
  | case2 => cases h
  | case3 => exact hfinish h
  | case4 => cases h
  | case5 _ _ _ _ _ _ _ ih => exact ih h

/-- A request that is accepted has three fields. -/
theorem Accepted.isSome {request : GreyTuple} (h : Accepted request) :
    request.sender.isSome = true ∧ request.recipient.isSome = true ∧ request.clientAddress.isSome = true := by
  have hcheck : checkRequest request = true := by
    cases h with
    | parsePostfix h => exact checkRequest_of_parseLoop h
    | parsequery _ h =>
      obtain ⟨tuple, -, h⟩ := bind_eq_ok h
      have hsome := Except.ok.inj h
      split_ifs at hsome with hcheck
      exact Option.some.inj hsome ▸ hcheck
  rw [checkRequest, Bool.and_eq_true, Bool.and_eq_true] at hcheck
  exact ⟨hcheck.1.1, hcheck.1.2, hcheck.2⟩

/-! ### What the checks need -/

section

variable {inet : Inet} {e : Endian} {request : GreyTuple} {qstr : List Char}

theorem copyQstr_ok (hqstr : qstr.length = reversedInet6Addrstrlen) (s : List Char) :
    ∃ qstr', copyQstr qstr s = .ok qstr' ∧ qstr'.length = reversedInet6Addrstrlen ∧
      (s.length < inet6Addrstrlen → '\x00' ∈ qstr') := by
  have hmem : '\x00' ∈ s ++ ['\x00'] := by simp
  obtain ⟨out, hout, hlen, hnul⟩ := strncpy_ok (n := inet6Addrstrlen) (.inl hmem)
  have hroom : 0 + inet6Addrstrlen ≤ qstr.length := by
    rw [hqstr, inet6Addrstrlen, reversedInet6Addrstrlen]
    omega
  refine ⟨overwrite qstr 0 out, ?_, ?_, fun hs => ?_⟩
  · rw [copyQstr, hout, ok_bind, memcpy_ok (Nat.le_of_eq hlen.symm) hroom, ← hlen, List.take_length]
  · rw [length_overwrite (by rw [hlen]; exact hroom), hqstr]
  · rw [overwrite_start]
    exact List.mem_append_left _ (hnul hmem (by rw [List.length_append]; exact hs))

/-- A black list or a white list of addresses needs the client address. -/
theorem dnsblc_address_ok (hinet : Lawful inet) (hqstr : qstr.length = reversedInet6Addrstrlen)
    (h : request.clientAddress.isSome = true) :
    ∃ r, dnsblc inet e .dnsbl request qstr = .ok r ∧ dnsblc inet e .dnswl request qstr = .ok r := by
  obtain ⟨addr, haddr⟩ := Option.isSome_iff_exists.mp h
  simp only [dnsblc, haddr, asserted, ok_bind, and_self]
  split_ifs with hlong
  · exact ⟨none, rfl⟩
  · obtain ⟨qstr₁, h₁, hlen, hnul⟩ := copyQstr_ok hqstr addr
    obtain ⟨⟨ret, qstr₂⟩, h₂⟩ := reverseInetAddr_ok (e := e) hinet (hnul (Nat.not_le.mp hlong)) (Nat.le_of_eq hlen.symm)
    simp only [h₁, h₂, ok_bind]
    split_ifs
    · exact ⟨none, rfl⟩
    · exact ⟨some qstr₂, rfl⟩

/-- A black list of domains needs the sender. -/
theorem dnsblc_rhsbl_ok (hqstr : qstr.length = reversedInet6Addrstrlen) (h : request.sender.isSome = true) :
    ∃ r, dnsblc inet e .rhsbl request qstr = .ok r := by
  obtain ⟨sender, hsender⟩ := Option.isSome_iff_exists.mp h
  simp only [dnsblc, hsender, unchecked, ok_bind]
  cases afterAt sender with
  | none => exact ⟨none, rfl⟩
  | some domain =>
    obtain ⟨qstr₁, h₁, -⟩ := copyQstr_ok hqstr domain
    exact ⟨some qstr₁, by simp only [h₁, ok_bind]; rfl⟩

/-- Of an accepted request, a check lacks a field exactly if it is `helo` and there is no name. -/
theorem runCheck_ok_iff (hinet : Lawful inet) (hqstr : qstr.length = reversedInet6Addrstrlen)
    (hrequest : Accepted request) (pool : Pool) :
    runCheck inet e request qstr pool = .ok () ↔ (pool = .helo → request.heloName.isSome = true) := by
  obtain ⟨hsender, -, hclient⟩ := hrequest.isSome
  obtain ⟨addr, haddr⟩ := Option.isSome_iff_exists.mp hclient
  obtain ⟨sender, hsender'⟩ := Option.isSome_iff_exists.mp hsender
  obtain ⟨r, hdnsbl, hdnswl⟩ := dnsblc_address_ok (e := e) hinet hqstr hclient
  obtain ⟨r', hrhsbl⟩ : ∃ r, dnsblc inet e .rhsbl request qstr = .ok r := dnsblc_rhsbl_ok hqstr hsender
  cases pool with
  | helo =>
    simp only [runCheck, helo, haddr, asserted]
    cases request.heloName <;> simp [pure, Except.pure]
  | dnsbl => simp [runCheck, hdnsbl, pure, Except.pure]
  | dnswl => simp [runCheck, hdnswl, pure, Except.pure]
  | rhsbl => simp [runCheck, hrhsbl, pure, Except.pure]
  | reverse => simp [runCheck, reverse, haddr, asserted, pure, Except.pure]
  | blocker => simp [runCheck, blocker, haddr, asserted, pure, Except.pure]
  | random => simp [runCheck, randomc, haddr, asserted, pure, Except.pure]
  | spf => simp [runCheck, spfc, haddr, hsender', unchecked, pure, Except.pure]

/-! ### What is read in all -/

variable {mask : MaskConfig}

/-- Of an accepted request, the row can be printed unless the name is missing and is to be in it. -/
theorem maskedtuple_cases (inet : Inet) (e : Endian) (mask : MaskConfig) (hrequest : Accepted request)
    {addr : List Char} (haddr : request.clientAddress = some addr) :
    (greyMask inet e mask addr = none ∧ maskedtuple inet e mask request = .ok none) ∨
      (greyMask inet e mask addr ≠ none ∧ (mask.greyTuple = .user ∨ request.heloName.isSome = true) ∧
        ∃ row, maskedtuple inet e mask request = .ok (some row)) ∨
      (greyMask inet e mask addr ≠ none ∧ ¬ (mask.greyTuple = .user ∨ request.heloName.isSome = true) ∧
        maskedtuple inet e mask request = .error .outOfBounds) := by
  obtain ⟨hsender, hrecipient, -⟩ := hrequest.isSome
  obtain ⟨sender, hsender⟩ := Option.isSome_iff_exists.mp hsender
  obtain ⟨recipient, hrecipient⟩ := Option.isSome_iff_exists.mp hrecipient
  simp only [maskedtuple, haddr]
  cases greyMask inet e mask addr with
  | none => exact Or.inl ⟨rfl, rfl⟩
  | some chkipstr =>
    refine Or.inr ?_
    cases mask.greyTuple with
    | user => simp [hsender, hrecipient]
    | server => cases request.heloName <;> simp [hsender]

/-- **The fields that are needed**: of a request that a parser accepts, no field is asserted, or
printed in the row, that is not set, exactly if the name is set; or the address is refused; or
the row is of the user kind, and the request is decided without the checks or no `helo` check
is configured. -/
theorem readFields_ok_iff (hinet : Lawful inet) (hqstr : qstr.length = reversedInet6Addrstrlen)
    (hrequest : Accepted request) (conf : Config) (checklist : List Check) (seen : Bool) :
    readFields inet e mask conf checklist seen qstr request = .ok () ↔
      request.heloName.isSome = true ∨
        (∀ addr, request.clientAddress = some addr → greyMask inet e mask addr = none) ∨
        (mask.greyTuple = .user ∧
          ((shortcut conf checklist seen).isSome = true ∨ ∀ check ∈ checklist, check.pool ≠ .helo)) := by
  obtain ⟨addr, haddr⟩ := Option.isSome_iff_exists.mp hrequest.isSome.2.2
  have hchecks : (checklist.forM fun check => runCheck inet e request qstr check.pool) = .ok () ↔
      ∀ check ∈ checklist, check.pool = .helo → request.heloName.isSome = true := by
    rw [show (Except.ok () : Except Fault Unit) = .ok ⟨⟩ from rfl, forM_eq_ok_iff]
    simp only [runCheck_ok_iff hinet hqstr hrequest]
  simp only [haddr, Option.some.injEq, forall_eq', readFields]
  rcases maskedtuple_cases inet e mask hrequest haddr with
    ⟨hmask, hrow⟩ | ⟨hmask, hset, row, hrow⟩ | ⟨hmask, hset, hrow⟩
  · simp [hrow, hmask, pure, Except.pure]
  · rw [hrow, ok_bind]
    simp only [hmask, false_or]
    cases shortcut conf checklist seen with
    | some decision =>
      simp only [Option.isSome_some, true_or, and_true]
      exact iff_of_true rfl hset.symm
    | none =>
      simp only [hchecks, Option.isSome_none, Bool.false_eq_true, false_or]
      by_cases hhelo : request.heloName.isSome = true
      · simp [hhelo]
      · simp only [hhelo, Bool.false_eq_true, imp_false, false_or, hset.resolve_right hhelo, true_and, ne_eq]
  · rw [hrow, error_bind]
    rw [not_or] at hset
    simp [hmask, hset.1, hset.2]

end

/-! ### A request without a name -/

/-- What an Exim that is configured as the manual says asks. -/
def eximLines : List (List Char) :=
  ["sender=a@b.example".toList, "recipient=c@d.example".toList, "client_address=192.0.2.1".toList,
    "grossd_mode=single".toList]

/-- The request. -/
def eximRequest : GreyTuple :=
  ⟨some "a@b.example".toList, some "c@d.example".toList, some "192.0.2.1".toList, none⟩

theorem accepted_eximRequest : Accepted eximRequest := by
  have hlines : ∀ line ∈ eximLines, line ≠ [] ∧ line.length < maxlinelen - 1 ∧
      (line.all fun c => decide (c ≠ '\x00' ∧ c ≠ '\n' ∧ c ≠ '\r')) = true := by decide
  obtain ⟨single, hparse⟩ := parsePostfix_lines (fun line hline => isLine_of_all (hlines line hline).1 (hlines line hline).2.2)
    (List.cons_ne_nil _ _) (fun line hline => (hlines line hline).2.1) false [] false
  exact .parsePostfix (p := ⟨eximRequest, single⟩) hparse

/-- The default configuration, with a threshold for greylisting. -/
def greyConfig : Config := ⟨1, 0, false, false, false, 5000, "Please try again later.", "Bad reputation"⟩

/-- Checks that do not look at the name. -/
def addressChecks : List Check := [⟨.dnsbl, false⟩, ⟨.reverse, false⟩]

theorem readFields_addressChecks :
    Accepted eximRequest ∧
      readFields plainInet .little netConfig greyConfig addressChecks false
        (List.replicate reversedInet6Addrstrlen ' ') eximRequest = .ok () :=
  ⟨accepted_eximRequest, (readFields_ok_iff lawful_plainInet List.length_replicate accepted_eximRequest _ _ _).mpr
    (Or.inr (Or.inr ⟨rfl, Or.inr (by decide)⟩))⟩

theorem greyMask_plainInet (kind : GreyTupleKind) :
    greyMask plainInet .little ⟨24, 64, kind⟩ "192.0.2.1".toList = some "192.0.2.0".toList := by
  cases kind <;> decide

/-- With the `helo` check its assertion fails, and with `grey_tuple = server` the name that is not
there is printed. -/
theorem readFields_eximRequest :
    Accepted eximRequest ∧
      readFields plainInet .little ⟨24, 64, .user⟩ greyConfig [⟨.helo, false⟩] false
        (List.replicate reversedInet6Addrstrlen ' ') eximRequest = .error .assertion ∧
      readFields plainInet .little ⟨24, 64, .server⟩ greyConfig [] false
        (List.replicate reversedInet6Addrstrlen ' ') eximRequest = .error .outOfBounds := by
  refine ⟨accepted_eximRequest, ?_, ?_⟩
  · simp only [readFields, maskedtuple, eximRequest, greyMask_plainInet, ok_bind]
    rfl
  · simp only [readFields, maskedtuple, eximRequest, greyMask_plainInet]
    rfl

end Gross.Worker
