import Gross.Foundation.Counted
import Gross.Foundation.Linked
import Gross.Worker.Querylog
import Mathlib.Algebra.Order.Group.Multiset
import Mathlib.Tactic.Abel

/-!
# The blocks of a request

A request lives in a number of blocks: the tuple and its strings, the edict, the results on their way, and the
final status with the list of the checks that matched. Here are the functions that make and free them, each
with what it does to the blocks it is given.

## The model

A block holds one structure of the source or a string (`Block`). A program on blocks fails if it reads or
frees a block that is not there. What a function has to do with is said by a list of blocks: `requestBlocks` are
those of a tuple with its count, `Item.blocks` those of a result, `Records` says that a final status and its
list of matches are the entry of `Gross.Worker.TestTuple`.

## What is proved

* `runs_requestUnlink`, `runs_edictUnlink` — who drops the last reference frees all there is; of a result that is
  flushed the reason is left.
* `runs_takeResult` — a result is recorded and freed; its reason takes the place of the one before, which is left.
* `runs_finalize` — the line is printed from the strings of the tuple, and the final status is freed with all
  that belongs to it.
-/

namespace Gross.Worker.RequestMemory

open Foundation Utils Postfix

/-- A pointer; `none` is `NULL`. -/
abbrev Ptr := Option Addr

/-- `grey_tuple_t` -/
structure Tuple where
  /-- `sender` -/
  sender : Ptr
  /-- `recipient` -/
  recipient : Ptr
  /-- `client_address` -/
  clientAddress : Ptr
  /-- `helo_name` -/
  heloName : Ptr
  /-- `reference.count` -/
  count : ℕ
  deriving DecidableEq, Repr

/-- `edict_t` -/
structure Edict where
  /-- `obsolete` -/
  obsolete : Bool
  /-- `reference.count` -/
  count : ℕ
  deriving DecidableEq, Repr

/-- `chkresult_t` -/
structure Result where
  /-- `definitive` -/
  definitive : Bool
  /-- `wait` -/
  wait : Bool
  /-- `weight` -/
  weight : ℤ
  /-- `judgment` -/
  judgment : Judgment
  /-- `reason` -/
  reason : Ptr
  /-- `checkname`: not a copy. -/
  checkname : Option String
  deriving DecidableEq, Repr

/-- `name` of a `check_match_t`. -/
inductive Name where
  /-- That of the check. -/
  | given (s : String)
  /-- A copy of `"<anonymous>"`. -/
  | copied (a : Addr)
  deriving DecidableEq, Repr

/-- `final_status_t` -/
structure FinalStatus extends Worker.FinalStatus Addr where
  /-- `querylog_entry.client_ip` -/
  clientIp : Ptr
  /-- `querylog_entry.sender` -/
  sender : Ptr
  /-- `querylog_entry.recipient` -/
  recipient : Ptr
  /-- `querylog_entry.helo` -/
  helo : Ptr
  /-- `querylog_entry.totalweight` -/
  totalweight : ℤ
  /-- `querylog_entry.match` -/
  matched : Ptr
  /-- `querylog_entry.action` -/
  action : Status
  deriving DecidableEq, Repr

/-- What is in a block. -/
inductive Block where
  /-- A string. -/
  | str (s : List Char)
  /-- `grey_tuple_t` -/
  | tuple (t : Tuple)
  /-- `edict_t` -/
  | edict (e : Edict)
  /-- `chkresult_t` -/
  | result (r : Result)
  /-- `check_match_t` -/
  | checkMatch (name : Name) (weight : ℤ) (next : Ptr)
  /-- `final_status_t` -/
  | status (f : FinalStatus)
  deriving DecidableEq, Repr

/-- A program on blocks. -/
abbrev Prog := Mem Block

/-- The list of matches. -/
def checkMatches : Linked (Name × ℤ) Block where
  link m next := .checkMatch m.1 m.2 next
  unlink
    | .checkMatch name weight next => some ((name, weight), next)
    | _ => none
  unlink_link _ _ := rfl

/-! ### Reading and writing -/

/-- The string in a block. -/
def Block.str? : Block → Option (List Char)
  | .str s => some s
  | _ => none

theorem Block.str?_str (s : List Char) : Block.str? (.str s) = some s := rfl

/-- `*p`, a string. -/
def getStr : Addr → Prog (List Char) := Mem.view Block.str?

/-- `*p`, a tuple. -/
def getTuple : Addr → Prog Tuple := Mem.view fun
  | .tuple t => some t
  | _ => none

/-- `*p`, an edict. -/
def getEdict : Addr → Prog Edict := Mem.view fun
  | .edict e => some e
  | _ => none

/-- `*p`, a result. -/
def getResult : Addr → Prog Result := Mem.view fun
  | .result r => some r
  | _ => none

/-- `*p`, a final status. -/
def getStatus : Addr → Prog FinalStatus := Mem.view fun
  | .status f => some f
  | _ => none

/-- A field of a final status is written. -/
def setStatus (a : Addr) (g : FinalStatus → FinalStatus) : Prog Unit := do
  let f ← getStatus a
  Mem.put a (.status (g f))

/-- A string, if there is one. -/
def readField : Ptr → Prog (Option (List Char)) := Mem.viewOpt Block.str?

/-- A copy of a string, if there is one. -/
def copyField : Option (List Char) → Prog Ptr := Mem.mallocOpt .str

/-- `if (p) Free(p)` -/
def freeField : Ptr → Prog Unit := Mem.freeOpt

/-! ### The functions -/

/-- `request_reference` -/
def requestReference (a : Addr) : Prog Unit := do
  let t ← getTuple a
  Mem.put a (.tuple { t with count := t.count + 1 })

/-- `request_unlink` -/
def requestUnlink (a : Addr) : Prog Unit := do
  let t ← getTuple a
  check (t.count > 0)
  Mem.put a (.tuple { t with count := t.count - 1 })
  if t.count - 1 = 0 then
    -- last reference
    freeField t.sender
    freeField t.recipient
    freeField t.clientAddress
    freeField t.heloName
    Mem.free a

/-- `edict_reference` -/
def edictReference (a : Addr) : Prog Unit := do
  let e ← getEdict a
  Mem.put a (.edict { e with count := e.count + 1 })

/-- `edict_unlink`; what it leaves on the queue. -/
def edictUnlink (a : Addr) (resultmq : List Ptr) : Prog (List Ptr) := do
  let e ← getEdict a
  check (e.count > 0)
  Mem.put a (.edict { e with count := e.count - 1 })
  if e.count - 1 = 0 then
    -- last reference: what is left on the queue is flushed
    resultmq.forM Mem.release
    Mem.free a
    return []
  else return resultmq

/-- The name of a check that has none. -/
def anonymous : List Char := "<anonymous>".toList

/-- The name of a match. -/
def makeName : Option String → Prog Name
  | some s => pure (.given s)
  | none => do return .copied (← Mem.malloc (.str anonymous))

/-- `record_match` -/
def recordMatch (status : Addr) (r : ChkResult) : Prog Unit := do
  let name ← makeName r.checkname
  let m ← Mem.malloc (.checkMatch name r.weight none)
  setStatus status fun q => { q with totalweight := addInt q.totalweight r.weight }
  -- insert entry to the end of the linked list
  let q ← getStatus status
  let first ← checkMatches.append q.matched m
  setStatus status fun q => { q with matched := first }

/-- A result that says something is recorded. -/
def record (status : Addr) (r : ChkResult) : Prog Unit :=
  if r.judgment ≠ .undefined then recordMatch status r else pure ()

/-- A check makes a result. -/
def makeResult (r : ChkResult) : Prog Addr := do
  let reason ← copyField (r.reason.map String.toList)
  Mem.malloc (.result ⟨r.definitive, r.wait, r.weight, r.judgment, reason, r.checkname⟩)

/-- A result is read. -/
def readResult (a : Addr) : Prog ChkResult := do
  let r ← getResult a
  let reason ← readField r.reason
  return ⟨r.definitive, r.wait, r.weight, r.judgment, reason.map String.ofList, r.checkname⟩

/-- `reasonstr`, when a result with this reason is taken in. -/
def moveReason (reasonstr : Ptr) : Ptr → Prog Ptr
  | none => pure reasonstr
  | some reason => do
    let copy ← Mem.malloc (.str (← getStr reason))
    Mem.free reason
    return some copy

/-- `test_tuple` takes in a result: what it is, and `reasonstr` then. -/
def takeResult (status : Addr) (reasonstr : Ptr) (a : Addr) : Prog (ChkResult × Ptr) := do
  let r ← readResult a
  record status r
  let result ← getResult a
  let reasonstr ← moveReason reasonstr result.reason
  Mem.free a
  return (r, reasonstr)

/-- The name of a match, to print it. -/
def readName : Name → Prog String
  | .given s => pure s
  | .copied a => do return .ofList (← getStr a)

/-- `finalize`: what `querylogwrite` is given; all but the request is freed. -/
def finalize (status : Addr) (delay : ℤ) : Prog LogEntry := do
  let q ← getStatus status
  let clientIp ← readField q.clientIp
  let sender ← readField q.sender
  let recipient ← readField q.recipient
  let helo ← readField q.helo
  let ms ← checkMatches.collect (← Mem.brk) q.matched
  let matched ← ms.mapM fun m => do return CheckMatch.mk (← readName m.1) m.2
  checkMatches.freeAll (← Mem.brk) q.matched
  freeField q.reason
  Mem.free status
  return ⟨⟨q.totalweight, matched, q.action⟩, delay, clientIp, sender, recipient, helo⟩

/-- The name that is made for a result in which there is none. -/
def madeName (r : ChkResult) : List (List Char) :=
  if r.judgment ≠ .undefined ∧ r.checkname = none then [anonymous] else []

/-! ### What is where -/

/-- The block of a string, if there is one. -/
def texts : Option (Addr × List Char) → List (Addr × Block) := optBlock .str

/-- The strings of a tuple. -/
structure Fields where
  /-- `sender` -/
  sender : Option (Addr × List Char)
  /-- `recipient` -/
  recipient : Option (Addr × List Char)
  /-- `client_address` -/
  clientAddress : Option (Addr × List Char)
  /-- `helo_name` -/
  heloName : Option (Addr × List Char)

namespace Fields

variable (x : Fields)

/-- The tuple. -/
def tuple (count : ℕ) : Tuple :=
  ⟨x.sender.map Prod.fst, x.recipient.map Prod.fst, x.clientAddress.map Prod.fst, x.heloName.map Prod.fst, count⟩

/-- What the strings are. -/
def values : GreyTuple :=
  ⟨x.sender.map Prod.snd, x.recipient.map Prod.snd, x.clientAddress.map Prod.snd, x.heloName.map Prod.snd⟩

/-- Their blocks. -/
def blocks : List (Addr × Block) := texts x.sender ++ (texts x.recipient ++ (texts x.clientAddress ++ texts x.heloName))

end Fields

/-- A result on the queue. -/
structure Item where
  /-- Where it is. -/
  addr : Addr
  /-- What it is. -/
  result : ChkResult
  /-- Its reason. -/
  reason : Option (Addr × List Char)
  /-- They agree. -/
  reason_eq : result.reason.map String.toList = reason.map Prod.snd

namespace Item

variable (x : Item)

/-- The result, as it is in memory. -/
def block : Result :=
  ⟨x.result.definitive, x.result.wait, x.result.weight, x.result.judgment, x.reason.map Prod.fst, x.result.checkname⟩

/-- Its blocks. -/
def blocks : List (Addr × Block) := (x.addr, .result x.block) :: texts x.reason

end Item

/-- The blocks of a message. -/
def itemBlocks : Option Item → List (Addr × Block)
  | none => []
  | some x => x.blocks

/-- The reason in a message. -/
def itemReason : Option Item → List (Addr × List Char)
  | none => []
  | some x => x.reason.toList

/-- What a name is. -/
def Name.text : Name → String
  | .given s => s
  | .copied _ => "<anonymous>"

/-- The blocks of the tuple. -/
def requestBlocks (a : Addr) (x : Fields) (o : Counted) : List (Addr × Block) :=
  if o.freed = 0 then (a, .tuple (x.tuple o.count)) :: x.blocks else []

/-- The block of the edict. -/
def edictBlocks (a : Addr) (obsolete : Bool) (o : Counted) : List (Addr × Block) :=
  if o.freed = 0 then [(a, .edict ⟨obsolete, o.count⟩)] else []

/-- The blocks of strings. -/
def strBlocks (xs : List (Addr × List Char)) : List (Addr × Block) := xs.map fun x => (x.1, .str x.2)

theorem strBlocks_append (xs ys : List (Addr × List Char)) : strBlocks (xs ++ ys) = strBlocks xs ++ strBlocks ys :=
  List.map_append

/-- What a node says. -/
def nodeValue (n : Addr × (Name × ℤ)) : CheckMatch := ⟨n.2.1.text, n.2.2⟩

/-- The final status and the nodes say what the entry says, and the copied names are among the strings that are lost. -/
structure Records (q : QuerylogEntry) (f : FinalStatus) (nodes : List (Addr × (Name × ℤ))) (lost : List (Addr × List Char)) :
    Prop where
  /-- `totalweight` -/
  totalweight : f.totalweight = q.totalweight
  /-- `match` -/
  matched : q.matched = nodes.map nodeValue
  /-- The first node. -/
  first : f.matched = Linked.first nodes none
  /-- The names. -/
  names : ∀ n ∈ nodes, ∀ b, n.2.1 = .copied b → (b, anonymous) ∈ lost

theorem Records.mono {q : QuerylogEntry} {f : FinalStatus} {nodes : List (Addr × (Name × ℤ))} {lost lost' : List (Addr × List Char)}
    (h : Records q f nodes lost) (hlost : ∀ x ∈ lost, x ∈ lost') : Records q f nodes lost' :=
  ⟨h.totalweight, h.matched, h.first, fun n hn b hb => hlost _ (h.names n hn b hb)⟩

/-! ### What the functions do -/

section Specs

variable {l : List (Addr × Block)} {a : Addr}

theorem runs_getStr {s : List Char} (h : (a, .str s) ∈ l) : Runs l (getStr a) fun y l' => y = s ∧ l' = l := runs_view h rfl

theorem runs_getTuple {t : Tuple} (h : (a, .tuple t) ∈ l) : Runs l (getTuple a) fun y l' => y = t ∧ l' = l := runs_view h rfl

theorem runs_getEdict {e : Edict} (h : (a, .edict e) ∈ l) : Runs l (getEdict a) fun y l' => y = e ∧ l' = l := runs_view h rfl

theorem runs_getResult {r : Result} (h : (a, .result r) ∈ l) : Runs l (getResult a) fun y l' => y = r ∧ l' = l :=
  runs_view h rfl

theorem runs_getStatus {f : FinalStatus} (h : (a, .status f) ∈ l) : Runs l (getStatus a) fun y l' => y = f ∧ l' = l :=
  runs_view h rfl

theorem runs_readField {x : Option (Addr × List Char)} (h : ∀ y ∈ texts x, y ∈ l) :
    Runs l (readField (x.map Prod.fst)) fun v l' => v = x.map Prod.snd ∧ l' = l := runs_viewOpt Block.str?_str h

theorem runs_copyField (v : Option (List Char)) :
    Runs l (copyField v) fun p l' => ∃ x, p = x.map Prod.fst ∧ v = x.map Prod.snd ∧ l' = texts x ++ l := runs_mallocOpt _ v

theorem runs_freeField (x : Option (Addr × List Char)) :
    Runs (texts x ++ l) (freeField (x.map Prod.fst)) fun _ l' => l' = l := runs_freeOpt _ x

theorem runs_setStatus {f : FinalStatus} (g : FinalStatus → FinalStatus) :
    Runs ((a, .status f) :: l) (setStatus a g) fun _ l' => l' = (a, .status (g f)) :: l := by
  refine (runs_getStatus List.mem_cons_self).known ?_
  exact runs_put _

theorem runs_check {b : Prop} [Decidable b] (h : b) : Runs l (check b : Prog Unit) fun _ l' => l' = l :=
  runs_lift (check_pos h) rfl

/-- What a reference that is taken does to the counter. -/
theorem reference_eq {o o' : Counted} (h : o.reference = .ok o') : o.freed = 0 ∧ o' = ⟨o.count + 1, o.freed⟩ := by
  unfold Counted.reference at h
  split_ifs at h with hfreed
  exact ⟨hfreed, (Except.ok.inj h).symm⟩

/-- What a reference that is dropped does to the counter. -/
theorem unlink_eq {o o' : Counted} (h : o.unlink = .ok o') :
    o.freed = 0 ∧ 0 < o.count ∧ o' = if o.count - 1 = 0 then ⟨0, o.freed + 1⟩ else ⟨o.count - 1, o.freed⟩ := by
  by_cases hfreed : o.freed = 0
  · rw [Counted.unlink, if_pos hfreed] at h
    obtain ⟨_, hpos, h⟩ := bind_eq_ok h
    have hcount : 0 < o.count := by
      by_contra hzero
      rw [check_neg hzero] at hpos
      cases hpos
    exact ⟨hfreed, hcount, (Except.ok.inj h).symm⟩
  · rw [Counted.unlink, if_neg hfreed] at h
    cases h

theorem runs_requestReference {x : Fields} {o o' : Counted} (h : o.reference = .ok o') :
    Runs (requestBlocks a x o) (requestReference a) fun _ l' => l' = requestBlocks a x o' := by
  obtain ⟨hfreed, rfl⟩ := reference_eq h
  simp only [requestBlocks, hfreed, if_true]
  refine (runs_getTuple List.mem_cons_self).known ?_
  exact runs_put _

/-- Who drops the last reference frees the strings. -/
theorem runs_requestUnlink {x : Fields} {o o' : Counted} (h : o.unlink = .ok o') :
    Runs (requestBlocks a x o) (requestUnlink a) fun _ l' => l' = requestBlocks a x o' := by
  obtain ⟨hfreed, hpos, rfl⟩ := unlink_eq h
  simp only [requestBlocks, hfreed, if_true]
  refine (runs_getTuple List.mem_cons_self).known ?_
  refine (runs_check hpos).seq ?_
  refine (runs_put _).seq ?_
  by_cases hlast : o.count - 1 = 0
  · simp only [Fields.tuple, hlast, if_true]
    -- the strings first, then the tuple
    have hfront : ∀ c : Block, ((a, c) :: x.blocks).Perm
        (texts x.sender ++ (texts x.recipient ++ (texts x.clientAddress ++ (texts x.heloName ++ [(a, c)])))) := fun c => by
      simpa only [Fields.blocks, List.append_assoc] using (List.perm_append_singleton (a, c) x.blocks).symm
    refine ((runs_freeField _).perm (hfront _)).seq ?_
    refine (runs_freeField _).seq ?_
    refine (runs_freeField _).seq ?_
    refine (runs_freeField _).seq ?_
    exact runs_free
  · simp only [Fields.tuple, hlast, if_false, if_true]
    exact runs_pure rfl

theorem runs_edictReference {obsolete : Bool} {o o' : Counted} (h : o.reference = .ok o') :
    Runs (edictBlocks a obsolete o) (edictReference a) fun _ l' => l' = edictBlocks a obsolete o' := by
  obtain ⟨hfreed, rfl⟩ := reference_eq h
  simp only [edictBlocks, hfreed, if_true]
  refine (runs_getEdict List.mem_cons_self).known ?_
  exact runs_put _

/-- Of each result that is flushed the reason is left. -/
theorem runs_flush {items : List (Option Item)} (h : ∀ x ∈ items, x.isSome = true) :
    Runs (items.flatMap itemBlocks ++ l) ((items.map (Option.map Item.addr)).forM Mem.release) fun _ l' =>
      l'.Perm (strBlocks (items.flatMap itemReason) ++ l) := by
  induction items generalizing l with
  | nil => exact runs_pure (.refl _)
  | cons x items ih =>
    obtain ⟨x, rfl⟩ := Option.isSome_iff_exists.mp (h x List.mem_cons_self)
    have hcons : ((some x :: items).flatMap itemBlocks ++ l).Perm
        ((x.addr, .result x.block) :: (items.flatMap itemBlocks ++ (texts x.reason ++ l))) := by
      rw [List.flatMap_cons, List.append_assoc]
      exact (List.perm_append_comm_assoc (texts x.reason) (items.flatMap itemBlocks) l).cons _
    refine (runs_release.perm hcons).seq ?_
    refine (ih fun y hy => h y (List.mem_cons_of_mem _ hy)).imp fun _ l' hl' => hl'.trans ?_
    rw [List.flatMap_cons, strBlocks_append, List.append_assoc]
    exact List.perm_append_comm_assoc _ (texts x.reason) l

/-- Who drops the last reference flushes the queue. -/
theorem runs_edictUnlink {obsolete : Bool} {o o' : Counted} {items : List (Option Item)} (h : o.unlink = .ok o')
    (hitems : o'.count = 0 → ∀ x ∈ items, x.isSome = true) :
    Runs (edictBlocks a obsolete o ++ items.flatMap itemBlocks) (edictUnlink a (items.map (Option.map Item.addr))) fun r l' =>
      ∃ items' lost, r = items'.map (Option.map Item.addr) ∧ (if o'.count = 0 then items' = [] else items' = items) ∧
        items.flatMap itemReason = lost ++ items'.flatMap itemReason ∧
        l'.Perm (edictBlocks a obsolete o' ++ (items'.flatMap itemBlocks ++ strBlocks lost)) := by
  obtain ⟨hfreed, hpos, rfl⟩ := unlink_eq h
  simp only [edictBlocks, hfreed, if_true, List.singleton_append]
  refine (runs_getEdict List.mem_cons_self).known ?_
  refine (runs_check hpos).seq ?_
  refine (runs_put _).seq ?_
  by_cases hlast : o.count - 1 = 0
  · simp only [hlast, if_true] at hitems ⊢
    refine ((runs_flush (hitems trivial)).perm (List.perm_append_singleton _ _).symm).bind ?_
    rintro _ l' hl'
    refine (runs_free.perm (hl'.trans (List.perm_append_singleton _ _))).seq ?_
    exact runs_pure ⟨[], _, rfl, rfl, (List.append_nil _).symm, .refl _⟩
  · simp only [hlast, if_false, if_true]
    exact runs_pure ⟨items, [], rfl, rfl, rfl, .of_eq (by simp [strBlocks])⟩

/-- A node is linked to the end of the list. -/
theorem runs_recordMatch {f : FinalStatus} {nodes : List (Addr × (Name × ℤ))} (hf : f.matched = Linked.first nodes none)
    (r : ChkResult) :
    Runs ((a, .status f) :: (checkMatches.blocks nodes none ++ l)) (recordMatch a r) fun _ l' => ∃ m name lost,
      name.text = r.checkname.getD "<anonymous>" ∧ (∀ b, name = .copied b → lost = [(b, anonymous)]) ∧
      lost.map Prod.snd = (if r.checkname = none then [anonymous] else []) ∧
      l'.Perm ((a, .status { f with
          totalweight := addInt f.totalweight r.weight
          matched := Linked.first (nodes ++ [(m, (name, r.weight))]) none }) ::
        (checkMatches.blocks (nodes ++ [(m, (name, r.weight))]) none ++ (strBlocks lost ++ l))) := by
  -- the name
  have hname : Runs ((a, .status f) :: (checkMatches.blocks nodes none ++ l)) (makeName r.checkname) fun name l' => ∃ lost,
      name.text = r.checkname.getD "<anonymous>" ∧ (∀ b, name = .copied b → lost = [(b, anonymous)]) ∧
      lost.map Prod.snd = (if r.checkname = none then [anonymous] else []) ∧
      l'.Perm ((a, .status f) :: (checkMatches.blocks nodes none ++ (strBlocks lost ++ l))) := by
    cases r.checkname with
    | some s => exact runs_pure ⟨[], rfl, nofun, rfl, .refl _⟩
    | none =>
      refine (runs_malloc _).bind ?_
      rintro b _ rfl
      refine runs_pure ⟨[(b, anonymous)], rfl, ?_, rfl, ?_⟩
      · rintro b' ⟨⟩
        rfl
      · exact (List.Perm.swap _ _ _).trans (List.perm_middle.symm.cons _)
  refine hname.bind ?_
  rintro name l₁ ⟨lost, htext, hcopied, hlost, hl₁⟩
  refine Runs.perm ?_ hl₁
  refine (runs_malloc _).bind ?_
  rintro m _ rfl
  refine ((runs_setStatus _).perm (.swap _ _ _)).seq ?_
  refine (runs_getStatus List.mem_cons_self).known ?_
  dsimp only
  rw [hf]
  -- the list, with the status out of the way
  refine ((((Linked.runs_append (k := checkMatches) (b := (name, r.weight))).frame [(a, .status _)]).perm
    (List.perm_append_singleton _ _).symm)).bind ?_
  rintro p l₂ ⟨l₃, rfl, rfl, hl₃⟩
  refine ((runs_setStatus _).perm (List.perm_append_singleton _ _)).imp ?_
  rintro _ _ rfl
  exact ⟨m, name, lost, htext, hcopied, hlost, hl₃.cons _⟩

theorem runs_makeResult (r : ChkResult) :
    Runs l (makeResult r) fun a l' => ∃ x : Item, x.addr = a ∧ x.result = r ∧ l' = x.blocks ++ l := by
  refine (runs_copyField _).bind ?_
  rintro _ _ ⟨reason, rfl, hreason, rfl⟩
  refine (runs_malloc _).imp ?_
  rintro a _ rfl
  exact ⟨⟨a, r, reason, hreason⟩, rfl, rfl, rfl⟩

theorem runs_readResult {x : Item} (h : ∀ y ∈ x.blocks, y ∈ l) :
    Runs l (readResult x.addr) fun r l' => r = x.result ∧ l' = l := by
  refine (runs_getResult (h _ List.mem_cons_self)).known ?_
  refine (runs_readField fun y hy => h y (List.mem_cons_of_mem _ hy)).known ?_
  refine runs_pure ⟨?_, rfl⟩
  have hreason : (x.reason.map Prod.snd).map String.ofList = x.result.reason := by
    rw [← x.reason_eq]
    cases x.result.reason <;> simp
  rw [hreason]
  rfl

/-- `reasonstr` before is lost, if there is a new one. -/
theorem runs_moveReason (old new : Option (Addr × List Char)) :
    Runs (texts new ++ (texts old ++ l)) (moveReason (old.map Prod.fst) (new.map Prod.fst)) fun p l' => ∃ reason lost,
      p = reason.map Prod.fst ∧ reason.map Prod.snd = (new.map Prod.snd).or (old.map Prod.snd) ∧
        (lost.map Prod.snd ++ (reason.map Prod.snd).toList).Perm ((new.map Prod.snd).toList ++ (old.map Prod.snd).toList) ∧
        l'.Perm (texts reason ++ (strBlocks lost ++ l)) := by
  cases new with
  | none => exact runs_pure ⟨old, [], rfl, rfl, by simp, .refl _⟩
  | some new =>
    refine (runs_getStr List.mem_cons_self).known ?_
    refine (runs_malloc _).bind ?_
    rintro copy _ rfl
    refine (runs_free.perm (.swap _ _ _)).seq ?_
    refine runs_pure ⟨some (copy, new.2), old.toList, rfl, rfl, ?_, .refl _⟩
    cases old with
    | none => exact .refl _
    | some old => exact .swap _ _ _

theorem runs_record {q : QuerylogEntry} {f : FinalStatus} {nodes : List (Addr × (Name × ℤ))} {lost : List (Addr × List Char)}
    (h : Records q f nodes lost) (r : ChkResult) :
    Runs ((a, .status f) :: (checkMatches.blocks nodes none ++ l)) (record a r) fun _ l' => ∃ totalweight matched nodes' new,
      Records (if r.judgment ≠ .undefined then Worker.recordMatch q r else q)
        { f with totalweight := totalweight, matched := matched } nodes' (new ++ lost) ∧
      new.map Prod.snd = madeName r ∧
      l'.Perm ((a, .status { f with totalweight := totalweight, matched := matched }) ::
        (checkMatches.blocks nodes' none ++ (strBlocks new ++ l))) := by
  by_cases hj : r.judgment ≠ .undefined
  · rw [record, if_pos hj]
    refine (runs_recordMatch h.first r).imp ?_
    rintro _ l' ⟨m, name, new, htext, hcopied, hnew, hl'⟩
    refine ⟨_, _, nodes ++ [(m, (name, r.weight))], new, ⟨?_, ?_, rfl, ?_⟩, ?_, hl'⟩
    · simp only [if_pos hj, Worker.recordMatch, h.totalweight]
    · simp only [if_pos hj, Worker.recordMatch, h.matched, List.map_append, List.map_cons, List.map_nil, nodeValue, htext]
    · intro n hn b hb
      rcases List.mem_append.mp hn with hn | hn
      · exact List.mem_append_right _ (h.names n hn b hb)
      · rw [List.mem_singleton.mp hn] at hb
        rw [hcopied b hb]
        exact List.mem_cons_self
    · rw [hnew, madeName]
      exact if_congr (and_iff_right hj).symm rfl rfl
  · rw [record, if_neg hj]
    refine runs_pure ⟨f.totalweight, f.matched, nodes, [], ?_, ?_, .refl _⟩
    · rwa [if_neg hj]
    · exact (if_neg fun h => hj h.1).symm

/-- A result is taken in, and freed. -/
theorem runs_takeResult {q : QuerylogEntry} {f : FinalStatus} {nodes : List (Addr × (Name × ℤ))} {lost : List (Addr × List Char)}
    (h : Records q f nodes lost) (x : Item) (old : Option (Addr × List Char)) :
    Runs (x.blocks ++ ((a, .status f) :: (checkMatches.blocks nodes none ++ (texts old ++ l))))
      (takeResult a (old.map Prod.fst) x.addr) fun p l' => ∃ totalweight matched nodes' reason new,
        p = (x.result, reason.map Prod.fst) ∧
        Records (if x.result.judgment ≠ .undefined then Worker.recordMatch q x.result else q)
          { f with totalweight := totalweight, matched := matched } nodes' (new ++ lost) ∧
        reason.map Prod.snd = (x.result.reason.map String.toList).or (old.map Prod.snd) ∧
        (new.map Prod.snd ++ (reason.map Prod.snd).toList).Perm
          (madeName x.result ++ ((x.reason.map Prod.snd).toList ++ (old.map Prod.snd).toList)) ∧
        l'.Perm ((a, .status { f with totalweight := totalweight, matched := matched }) ::
          (checkMatches.blocks nodes' none ++ (texts reason ++ (strBlocks new ++ l)))) := by
  refine (runs_readResult fun y hy => List.mem_append_left _ hy).known ?_
  -- the entry
  have hentry : (x.blocks ++ ((a, Block.status f) :: (checkMatches.blocks nodes none ++ (texts old ++ l)))).Perm
      ((a, .status f) :: (checkMatches.blocks nodes none ++ (texts old ++ (x.blocks ++ l)))) := by
    rw [← Multiset.coe_eq_coe]
    simp only [← Multiset.coe_add, ← Multiset.cons_coe, ← Multiset.singleton_add]
    abel
  refine ((runs_record h x.result).perm hentry).bind ?_
  rintro _ l₁ ⟨totalweight, matched, nodes', new, hrec, hnew, hl₁⟩
  -- the result, and its reason
  have hresult : l₁.Perm ((x.addr, .result x.block) :: (texts x.reason ++ (texts old ++
      ((a, .status { f with totalweight := totalweight, matched := matched }) ::
        (checkMatches.blocks nodes' none ++ (strBlocks new ++ l)))))) := by
    refine hl₁.trans ?_
    rw [Item.blocks, ← Multiset.coe_eq_coe]
    simp only [← Multiset.coe_add, ← Multiset.cons_coe, ← Multiset.singleton_add]
    abel
  refine Runs.perm ?_ hresult
  refine (runs_getResult List.mem_cons_self).known ?_
  have hreason : ∀ k : List (Addr × Block), ((x.addr, Block.result x.block) :: (texts x.reason ++ (texts old ++ k))).Perm
      (texts x.reason ++ (texts old ++ ((x.addr, .result x.block) :: k))) := fun k => by
    rw [← Multiset.coe_eq_coe]
    simp only [← Multiset.coe_add, ← Multiset.cons_coe, ← Multiset.singleton_add]
    abel
  refine ((runs_moveReason old x.reason).perm (hreason _)).bind ?_
  rintro _ l₂ ⟨reason, new', rfl, hsnd, hperm, hl₂⟩
  have hfree : l₂.Perm ((x.addr, .result x.block) :: ((a, .status { f with totalweight := totalweight, matched := matched }) ::
      (checkMatches.blocks nodes' none ++ (texts reason ++ (strBlocks (new ++ new') ++ l))))) := by
    refine hl₂.trans ?_
    rw [strBlocks_append, ← Multiset.coe_eq_coe]
    simp only [← Multiset.coe_add, ← Multiset.cons_coe, ← Multiset.singleton_add]
    abel
  refine (runs_free.perm hfree).seq ?_
  refine runs_pure ⟨totalweight, matched, nodes', reason, new ++ new', rfl, hrec.mono fun y hy => ?_, ?_, ?_, .refl _⟩
  · simp only [List.mem_append] at hy ⊢
    exact hy.imp_left .inl
  · rw [hsnd, x.reason_eq]
  · rw [List.map_append, hnew, List.append_assoc]
    exact hperm.append_left _

theorem runs_readNames {nodes : List (Addr × (Name × ℤ))}
    (h : ∀ n ∈ nodes, ∀ b, n.2.1 = .copied b → (b, .str anonymous) ∈ l) :
    Runs l ((nodes.map Prod.snd).mapM fun m => do return CheckMatch.mk (← readName m.1) m.2) fun ms l' =>
      ms = nodes.map nodeValue ∧ l' = l := by
  induction nodes with
  | nil => exact runs_pure ⟨rfl, rfl⟩
  | cons n nodes ih =>
    have hname : Runs l (readName n.2.1) fun s l' => s = n.2.1.text ∧ l' = l := by
      have hn := h n List.mem_cons_self
      cases hname : n.2.1 with
      | given s => exact runs_pure ⟨rfl, rfl⟩
      | copied b =>
        refine (runs_getStr (hn b hname)).known ?_
        exact runs_pure ⟨rfl, rfl⟩
    rw [List.map_cons, List.mapM_cons]
    refine (hname.bind ?_).bind (Q := fun m l' => m = nodeValue n ∧ l' = l) ?_
    · rintro _ _ ⟨rfl, rfl⟩
      exact runs_pure ⟨rfl, rfl⟩
    · rintro _ _ ⟨rfl, rfl⟩
      refine (ih fun n hn => h n (List.mem_cons_of_mem _ hn)).known ?_
      exact runs_pure ⟨rfl, rfl⟩

/-- The pointers of the entry are those of the tuple. -/
structure Points (f : FinalStatus) (x : Fields) : Prop where
  /-- `client_ip` -/
  clientIp : f.clientIp = x.clientAddress.map Prod.fst
  /-- `sender` -/
  sender : f.sender = x.sender.map Prod.fst
  /-- `recipient` -/
  recipient : f.recipient = x.recipient.map Prod.fst
  /-- `helo` -/
  helo : f.helo = x.heloName.map Prod.fst

theorem Points.counts {f : FinalStatus} {x : Fields} (h : Points f x) (totalweight : ℤ) (matched : Ptr) :
    Points { f with totalweight := totalweight, matched := matched } x := ⟨h.clientIp, h.sender, h.recipient, h.helo⟩

/-- The line is printed from the strings of the tuple; then all that belongs to the final status is freed. -/
theorem runs_finalize {q : QuerylogEntry} {f : FinalStatus} {nodes : List (Addr × (Name × ℤ))} {lost : List (Addr × List Char)}
    (h : Records q f nodes lost) {x : Fields} (hp : Points f x) {reason : Option (Addr × List Char)}
    (hreason : f.reason = reason.map Prod.fst) (hx : ∀ y ∈ x.blocks, y ∈ l) (hlost : ∀ y ∈ strBlocks lost, y ∈ l) (delay : ℤ) :
    Runs ((a, .status f) :: (checkMatches.blocks nodes none ++ (texts reason ++ l))) (finalize a delay) fun e l' =>
      e = LogEntry.ofRequest x.values { q with action := f.action } delay ∧ l' = l := by
  have hrest : ∀ y ∈ l, y ∈ (a, Block.status f) :: (checkMatches.blocks nodes none ++ (texts reason ++ l)) := fun y hy =>
    List.mem_cons_of_mem _ (List.mem_append_right _ (List.mem_append_right _ hy))
  have hfields : ∀ v : Option (Addr × List Char), (∀ y ∈ texts v, y ∈ x.blocks) → ∀ y ∈ texts v,
      y ∈ (a, Block.status f) :: (checkMatches.blocks nodes none ++ (texts reason ++ l)) := fun v hv y hy =>
    hrest y (hx y (hv y hy))
  refine (runs_getStatus List.mem_cons_self).bind ?_
  rintro f _ ⟨rfl, rfl⟩
  rw [hp.clientIp, hp.sender, hp.recipient, hp.helo, h.first, hreason]
  refine (runs_readField (hfields _ fun y hy => by simp [Fields.blocks, hy])).known ?_
  refine (runs_readField (hfields _ fun y hy => by simp [Fields.blocks, hy])).known ?_
  refine (runs_readField (hfields _ fun y hy => by simp [Fields.blocks, hy])).known ?_
  refine (runs_readField (hfields _ fun y hy => by simp [Fields.blocks, hy])).known ?_
  -- the nodes are fewer than the blocks
  have hnodes : ∀ n, ((a, Block.status f) :: (checkMatches.blocks nodes none ++ (texts reason ++ l))).length ≤ n →
      nodes.length ≤ n := fun n hn => by
    have := Linked.length_blocks (k := checkMatches) nodes none
    simp only [List.length_cons, List.length_append] at hn
    omega
  refine runs_brk.bind ?_
  rintro fuel _ ⟨rfl, hfuel⟩
  refine (Linked.runs_collect (hnodes _ hfuel) fun y hy => List.mem_cons_of_mem _ (List.mem_append_left _ hy)).known ?_
  refine (runs_readNames fun n hn b hb => hrest _ (hlost _ (List.mem_map.mpr ⟨_, h.names n hn b hb, rfl⟩))).known ?_
  refine runs_brk.bind ?_
  rintro fuel _ ⟨rfl, hfuel⟩
  have hfront : ((a, Block.status f) :: (checkMatches.blocks nodes none ++ (texts reason ++ l))).Perm
      (checkMatches.blocks nodes none ++ (texts reason ++ ((a, .status f) :: l))) := by
    rw [← Multiset.coe_eq_coe]
    simp only [← Multiset.coe_add, ← Multiset.cons_coe, ← Multiset.singleton_add]
    abel
  refine ((Linked.runs_freeAll (hnodes _ hfuel)).perm hfront).seq ?_
  refine (runs_freeField reason).seq ?_
  refine runs_free.seq ?_
  refine runs_pure ⟨?_, rfl⟩
  rw [h.totalweight, ← h.matched]
  rfl

end Specs

end Gross.Worker.RequestMemory
