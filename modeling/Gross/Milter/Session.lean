import Gross.Foundation.Arena
import Gross.Postfix.Parse
import Gross.Worker.TestTuple
import Mathlib.Algebra.Order.Group.Multiset
import Mathlib.Tactic.Abel

/-!
# A session with the mail server

`libmilter` calls the filter at each command of an SMTP session: `mlfi_connect`, then `mlfi_helo`, `mlfi_envfrom` and
`mlfi_envrcpt` as the client sends `HELO`, `MAIL` and `RCPT`, and `mlfi_close` in the end. What one call has to tell the
next is kept in a block of its own, `private_ctx_s`, with copies of the strings.

## The model

A session is the client's address, of whatever kind, and the commands after it, in any order. The calls are programs on
blocks: that of the private context and those of its strings. A null pointer given to `strdup` is a fault, and so is
`hostaddr` when it is `NULL`. What `test_tuple` answers to a tuple can be anything.

## What is proved

`session_iff` — a session of a client with an IPv4 address comes to its end if and only if no `RCPT` comes before the
first `MAIL`. Then each recipient is tested with the address of the client, the sender of the last `MAIL` and the name
of the last `HELO`, if there was one, and the reply is that of the answer. After `mlfi_close` every name but the last
and every sender but the last are left in memory: the pointers to them were overwritten. A client with another address
is accepted at once, with nothing tested and nothing left; with none at all the session does not get past
`mlfi_connect`.

## Honest scope

The tuple of a recipient and its final status are in blocks of their own, as `Gross.Worker.RequestMemory` says. What
`smfi_setreply` makes of its texts is not modelled.
-/

namespace Gross.Milter

open Foundation Postfix Worker

/-- A pointer; `none` is `NULL`. -/
abbrev Ptr := Option Addr

/-- `private_ctx_s` -/
structure PrivateCtx where
  /-- `client_address` -/
  clientAddress : Ptr
  /-- `sender` -/
  sender : Ptr
  /-- `helo_name` -/
  heloName : Ptr
  deriving DecidableEq, Repr

/-- What is in a block. -/
inductive Block where
  /-- A string. -/
  | str (s : List Char)
  /-- `private_ctx_s` -/
  | priv (p : PrivateCtx)
  deriving DecidableEq, Repr

/-- A program on blocks. -/
abbrev Prog := Mem Block

/-- `sfsistat` -/
inductive Sfsistat where
  /-- `SMFIS_CONTINUE` -/
  | continue_
  /-- `SMFIS_ACCEPT` -/
  | accept
  /-- `SMFIS_TEMPFAIL` -/
  | tempfail
  /-- `SMFIS_REJECT` -/
  | reject
  deriving DecidableEq, Repr

/-- What the filter answers to a recipient: the code, the extended code and the text of `smfi_setreply`, if it is
called, and the status. -/
structure Reply where
  /-- The arguments of `smfi_setreply`. -/
  setreply : Option (String × String × List Char)
  /-- The status. -/
  retvalue : Sfsistat
  deriving DecidableEq, Repr

/-! ### The calls -/

/-- The string in a block. -/
def Block.str? : Block → Option (List Char)
  | .str s => some s
  | _ => none

theorem Block.str?_str (s : List Char) : Block.str? (.str s) = some s := rfl

/-- `*p`, a private context. -/
def getPriv : Addr → Prog PrivateCtx := Mem.view fun
  | .priv p => some p
  | _ => none

/-- A field of a private context is written. -/
def setPriv (a : Addr) (f : PrivateCtx → PrivateCtx) : Prog Unit := do
  let p ← getPriv a
  Mem.put a (.priv (f p))

/-- `strdup` of a field, for the tuple. -/
def copyOut (p : Ptr) : Prog (List Char) := do
  let a ← Mem.deref p
  Mem.view Block.str? a

/-- `hostaddr` -/
inductive Hostaddr where
  /-- `NULL` -/
  | null
  /-- An address that is not `AF_INET`. -/
  | other
  /-- One that is, with what `inet_ntop` makes of it. -/
  | inet (caddr : Option (List Char))
  deriving DecidableEq, Repr

/-- `mlfi_connect` -/
def mlfiConnect : Hostaddr → Prog (Sfsistat × Ptr)
  -- `sin_family` is read through it
  | .null => Mem.fail .outOfBounds
  | .other => pure (.accept, none)
  | .inet none => pure (.accept, none)
  | .inet (some caddr) => do
    let priv ← Mem.malloc (.priv ⟨none, none, none⟩)
    let copy ← Mem.malloc (.str caddr)
    setPriv priv fun p => { p with clientAddress := some copy }
    return (.continue_, some priv)

/-- `mlfi_helo` -/
def mlfiHelo (priv : Ptr) (helohost : List Char) : Prog Unit := do
  let priv ← Mem.deref priv
  let copy ← Mem.malloc (.str helohost)
  setPriv priv fun p => { p with heloName := some copy }

/-- `mlfi_envfrom` -/
def mlfiEnvfrom (priv : Ptr) (sender : List Char) : Prog Unit := do
  let priv ← Mem.deref priv
  let copy ← Mem.malloc (.str sender)
  setPriv priv fun p => { p with sender := some copy }

/-- The reply to an answer. -/
def reply (answer : FinalStatus (List Char)) : Reply :=
  match answer.status with
  | .grey => ⟨some ("452", "4.4.3", answer.reason.getD "Please try again later".toList), .tempfail⟩
  | .block => ⟨some ("550", "5.7.1", answer.reason.getD "Rejected by policy".toList), .reject⟩
  | _ => ⟨none, .continue_⟩

/-- `mlfi_envrcpt`: the tuple that is tested, and the reply. -/
def mlfiEnvrcpt (priv : Ptr) (recipient : List Char) (answer : FinalStatus (List Char)) : Prog (GreyTuple × Reply) := do
  let priv ← Mem.deref priv
  let p ← getPriv priv
  let sender ← copyOut p.sender
  let clientAddress ← copyOut p.clientAddress
  let heloName ← Mem.viewOpt Block.str? p.heloName
  return (⟨some sender, some recipient, some clientAddress, heloName⟩, reply answer)

/-- `mlfi_close` -/
def mlfiClose : Ptr → Prog Unit
  | none => pure ()
  | some a => do
    let p ← getPriv a
    Mem.freeOpt p.sender
    Mem.freeOpt p.clientAddress
    Mem.freeOpt p.heloName
    Mem.free a

/-! ### A session -/

/-- A command of the client. -/
inductive Command where
  /-- `HELO` -/
  | helo (helohost : List Char)
  /-- `MAIL` -/
  | mail (sender : List Char)
  /-- `RCPT`, with what `test_tuple` will answer. -/
  | rcpt (recipient : List Char) (answer : FinalStatus (List Char))
  deriving DecidableEq, Repr

/-- The call for a command, and what has been tested and replied. -/
def command (priv : Ptr) (replies : List (GreyTuple × Reply)) : Command → Prog (List (GreyTuple × Reply))
  | .helo helohost => do
    mlfiHelo priv helohost
    return replies
  | .mail sender => do
    mlfiEnvfrom priv sender
    return replies
  | .rcpt recipient answer => do return replies ++ [← mlfiEnvrcpt priv recipient answer]

/-- A session. After `SMFIS_ACCEPT` there are no calls for the commands. -/
def session (hostaddr : Hostaddr) (commands : List Command) : Prog (List (GreyTuple × Reply)) := do
  let (stat, priv) ← mlfiConnect hostaddr
  let replies ← if stat = .accept then pure [] else commands.foldlM (command priv) []
  mlfiClose priv
  return replies

/-! ### What it is to do -/

/-- The names of the client, in order. -/
def helos (commands : List Command) : List (List Char) := commands.filterMap fun
  | .helo helohost => some helohost
  | _ => none

/-- The senders, in order. -/
def senders (commands : List Command) : List (List Char) := commands.filterMap fun
  | .mail sender => some sender
  | _ => none

/-- What is to be tested and replied at a command, after those before it. -/
def answered (caddr : List Char) (before : List Command) : Command → List (GreyTuple × Reply)
  | .rcpt recipient answer =>
    [(⟨(senders before).getLast?, some recipient, some caddr, (helos before).getLast?⟩, reply answer)]
  | _ => []

/-- What is to be tested and replied at these commands, after those before them. -/
def replies (caddr : List Char) (before : List Command) : List Command → List (GreyTuple × Reply)
  | [] => []
  | c :: commands => answered caddr before c ++ replies caddr (before ++ [c]) commands

/-- A recipient comes after a sender. -/
def Command.InOrder (before : List Command) : Command → Prop
  | .rcpt _ _ => senders before ≠ []
  | _ => True

/-- No recipient comes before the first sender. -/
def InOrder (before : List Command) : List Command → Prop
  | [] => True
  | c :: commands => c.InOrder before ∧ InOrder (before ++ [c]) commands

instance Command.decidableInOrder (before : List Command) : (c : Command) → Decidable (c.InOrder before)
  | .rcpt _ _ => inferInstanceAs (Decidable (senders before ≠ []))
  | .helo _ | .mail _ => inferInstanceAs (Decidable True)

instance decidableInOrder : (before commands : List Command) → Decidable (InOrder before commands)
  | _, [] => inferInstanceAs (Decidable True)
  | before, c :: commands =>
    have := decidableInOrder (before ++ [c]) commands
    inferInstanceAs (Decidable (c.InOrder before ∧ InOrder (before ++ [c]) commands))

/-- The session comes to its end. -/
def Ends : Hostaddr → List Command → Prop
  | .null, _ => False
  | .other, _ => True
  | .inet none, _ => True
  | .inet (some _), commands => InOrder [] commands

/-- What is tested and replied in it. -/
def tested : Hostaddr → List Command → List (GreyTuple × Reply)
  | .null, _ => []
  | .other, _ => []
  | .inet none, _ => []
  | .inet (some caddr), commands => replies caddr [] commands

/-- The strings that it leaves in memory. -/
def leaked : Hostaddr → List Command → List (List Char)
  | .null, _ => []
  | .other, _ => []
  | .inet none, _ => []
  | .inet (some _), commands => (senders commands).dropLast ++ (helos commands).dropLast

/-- The blocks of strings. -/
def strBlocks (xs : List (Addr × List Char)) : List (Addr × Block) := xs.map fun x => (x.1, .str x.2)

/-- What there may be as a string. -/
def text : Option (Addr × List Char) → List (Addr × Block) := optBlock .str

theorem text_some (x : Addr × List Char) : text (some x) = [(x.1, .str x.2)] := rfl

/-! ### The blocks of a session -/

/-- What is in memory after these commands. -/
structure Holds (a : Addr) (caddr : List Char) (before : List Command) (l : List (Addr × Block)) : Prop where
  /-- The private context points to the last strings; those before are lost. -/
  blocks : ∃ (client : Addr) (sender helo : Option (Addr × List Char)) (lost : List (Addr × List Char)),
    l.Perm ((a, .priv ⟨some client, sender.map Prod.fst, helo.map Prod.fst⟩) :: ((client, .str caddr) ::
      (text sender ++ (text helo ++ strBlocks lost)))) ∧
    sender.map Prod.snd = (senders before).getLast? ∧ helo.map Prod.snd = (helos before).getLast? ∧
    (lost.map Prod.snd).Perm ((senders before).dropLast ++ (helos before).dropLast)

section Specs

variable {a : Addr} {caddr : List Char} {before : List Command} {l : List (Addr × Block)}

theorem runs_getPriv {p : PrivateCtx} (h : (a, .priv p) ∈ l) : Runs l (getPriv a) fun x l' => x = p ∧ l' = l := runs_view h rfl

theorem runs_setPriv {p : PrivateCtx} (f : PrivateCtx → PrivateCtx) :
    Runs ((a, .priv p) :: l) (setPriv a f) fun _ l' => l' = (a, .priv (f p)) :: l := by
  refine (runs_getPriv List.mem_cons_self).known ?_
  exact runs_put _

theorem runs_copyOut {b : Addr} {s : List Char} (h : (b, .str s) ∈ l) :
    Runs l (copyOut (some b)) fun x l' => x = s ∧ l' = l := by
  refine (runs_deref b).known ?_
  exact runs_view h rfl

/-- What was the last one is lost with the others. -/
theorem dropLast_append_getLast? (xs : List (List Char)) : xs.dropLast ++ xs.getLast?.toList = xs := by
  rcases List.eq_nil_or_concat xs with rfl | ⟨init, x, rfl⟩
  · rfl
  · simp

theorem map_snd_toList (x : Option (Addr × List Char)) : x.toList.map Prod.snd = (x.map Prod.snd).toList := by cases x <;> rfl

theorem runs_mlfiHelo (h : Holds a caddr before l) (helohost : List Char) :
    Runs l (mlfiHelo (some a) helohost) fun _ l' => Holds a caddr (before ++ [.helo helohost]) l' := by
  obtain ⟨client, sender, helo, lost, hl, hsender, hhelo, hlost⟩ := h.blocks
  refine (runs_deref a).known ?_
  refine (runs_malloc _).bind ?_
  rintro copy _ rfl
  refine ((runs_setPriv _).perm ((hl.cons _).trans (.swap _ _ _))).imp ?_
  rintro _ _ rfl
  have hsenders : senders (before ++ [.helo helohost]) = senders before := by simp [senders]
  have hhelos : helos (before ++ [.helo helohost]) = helos before ++ [helohost] := by simp [helos]
  refine ⟨client, sender, some (copy, helohost), helo.toList ++ lost, ?_, by rw [hsenders, hsender], by simp [hhelos], ?_⟩
  · have htext : strBlocks (helo.toList ++ lost) = text helo ++ strBlocks lost := List.map_append
    refine .cons _ ?_
    rw [htext, text_some, ← Multiset.coe_eq_coe]
    simp only [← Multiset.coe_add, ← Multiset.cons_coe, ← Multiset.singleton_add, Multiset.coe_nil]
    abel
  · rw [List.map_append, map_snd_toList, hhelo, hsenders, hhelos, List.dropLast_concat]
    refine (hlost.append_left _).trans ?_
    conv_rhs => rw [← dropLast_append_getLast? (helos before)]
    rw [← Multiset.coe_eq_coe]
    simp only [← Multiset.coe_add]
    abel

theorem runs_mlfiEnvfrom (h : Holds a caddr before l) (sender : List Char) :
    Runs l (mlfiEnvfrom (some a) sender) fun _ l' => Holds a caddr (before ++ [.mail sender]) l' := by
  obtain ⟨client, old, helo, lost, hl, hold, hhelo, hlost⟩ := h.blocks
  refine (runs_deref a).known ?_
  refine (runs_malloc _).bind ?_
  rintro copy _ rfl
  refine ((runs_setPriv _).perm ((hl.cons _).trans (.swap _ _ _))).imp ?_
  rintro _ _ rfl
  have hsenders : senders (before ++ [.mail sender]) = senders before ++ [sender] := by simp [senders]
  have hhelos : helos (before ++ [.mail sender]) = helos before := by simp [helos]
  refine ⟨client, some (copy, sender), helo, old.toList ++ lost, ?_, by simp [hsenders], by rw [hhelos, hhelo], ?_⟩
  · have htext : strBlocks (old.toList ++ lost) = text old ++ strBlocks lost := List.map_append
    refine .cons _ ?_
    rw [htext, text_some, ← Multiset.coe_eq_coe]
    simp only [← Multiset.coe_add, ← Multiset.cons_coe, ← Multiset.singleton_add, Multiset.coe_nil]
    abel
  · rw [List.map_append, map_snd_toList, hold, hsenders, hhelos, List.dropLast_concat]
    refine (hlost.append_left _).trans ?_
    conv_rhs => rw [← dropLast_append_getLast? (senders before)]
    rw [← Multiset.coe_eq_coe]
    simp only [← Multiset.coe_add]
    abel

/-- Nothing is written. -/
theorem runs_mlfiEnvrcpt (h : Holds a caddr before l) (hsome : senders before ≠ []) (recipient : List Char)
    (answer : FinalStatus (List Char)) :
    Runs l (mlfiEnvrcpt (some a) recipient answer) fun r l' =>
      answered caddr before (.rcpt recipient answer) = [r] ∧ Holds a caddr (before ++ [.rcpt recipient answer]) l' := by
  obtain ⟨client, sender, helo, lost, hl, hsender, hhelo, hlost⟩ := h.blocks
  obtain ⟨⟨b, s⟩, rfl⟩ : ∃ x, sender = some x := by
    cases sender with
    | none => exact absurd (List.getLast?_eq_none_iff.mp hsender.symm) hsome
    | some x => exact ⟨x, rfl⟩
  refine Runs.perm ?_ hl
  refine (runs_deref a).known ?_
  refine (runs_getPriv List.mem_cons_self).known ?_
  refine (runs_copyOut (List.mem_cons_of_mem _ (List.mem_cons_of_mem _ List.mem_cons_self))).bind ?_
  rintro s _ ⟨rfl, rfl⟩
  refine (runs_copyOut (List.mem_cons_of_mem _ List.mem_cons_self)).bind ?_
  rintro caddr _ ⟨rfl, rfl⟩
  refine (runs_viewOpt Block.str?_str fun y hy => ?_).bind ?_
  · simp [show y ∈ text helo from hy]
  rintro _ _ ⟨rfl, rfl⟩
  have hsenders : senders (before ++ [.rcpt recipient answer]) = senders before := by simp [senders]
  have hhelos : helos (before ++ [.rcpt recipient answer]) = helos before := by simp [helos]
  refine runs_pure ⟨?_, client, some (b, s), helo, lost, .refl _, by rw [hsenders, hsender], by rw [hhelos, hhelo],
    by rw [hsenders, hhelos]; exact hlost⟩
  rw [answered, ← hsender, ← hhelo]
  rfl

/-- A null pointer is given to `strdup`. -/
theorem fails_mlfiEnvrcpt (h : Holds a caddr before l) (hnone : senders before = []) (recipient : List Char)
    (answer : FinalStatus (List Char)) :
    Fails l (mlfiEnvrcpt (some a) recipient answer) .outOfBounds := by
  obtain ⟨client, sender, helo, lost, hl, hsender, hhelo, hlost⟩ := h.blocks
  obtain rfl : sender = none := by
    rw [hnone] at hsender
    exact Option.map_eq_none_iff.mp hsender
  refine Fails.perm ?_ hl
  refine (runs_deref a).fails ?_
  rintro a _ ⟨rfl, rfl⟩
  refine (runs_getPriv List.mem_cons_self).fails ?_
  rintro _ _ ⟨rfl, rfl⟩
  exact ((fails_fail _).bind).bind

/-- The calls for the commands. -/
theorem runs_commands {commands : List Command} (h : Holds a caddr before l) (horder : InOrder before commands)
    (rs : List (GreyTuple × Reply)) :
    Runs l (commands.foldlM (command (some a)) rs) fun rs' l' =>
      rs' = rs ++ replies caddr before commands ∧ Holds a caddr (before ++ commands) l' := by
  induction commands generalizing before l rs with
  | nil => exact runs_pure ⟨(List.append_nil rs).symm, (List.append_nil before).symm ▸ h⟩
  | cons c commands ih =>
    -- one command, and then the others
    have hstep : Runs l (command (some a) rs c) fun rs' l' =>
        rs' = rs ++ answered caddr before c ∧ Holds a caddr (before ++ [c]) l' := by
      cases c with
      | helo helohost =>
        exact (runs_mlfiHelo h helohost).bind fun _ l' h' => runs_pure ⟨(List.append_nil rs).symm, h'⟩
      | mail sender =>
        exact (runs_mlfiEnvfrom h sender).bind fun _ l' h' => runs_pure ⟨(List.append_nil rs).symm, h'⟩
      | rcpt recipient answer =>
        refine (runs_mlfiEnvrcpt h horder.1 recipient answer).bind ?_
        rintro r l' ⟨hr, h'⟩
        exact runs_pure ⟨by rw [hr], h'⟩
    rw [List.foldlM_cons]
    refine hstep.bind ?_
    rintro _ l' ⟨rfl, h'⟩
    refine (ih h' horder.2 _).imp ?_
    rintro _ l'' ⟨rfl, h''⟩
    rw [List.append_assoc] at h'' ⊢
    exact ⟨rfl, h''⟩

theorem fails_commands {commands : List Command} (h : Holds a caddr before l) (horder : ¬ InOrder before commands)
    (rs : List (GreyTuple × Reply)) : Fails l (commands.foldlM (command (some a)) rs) .outOfBounds := by
  induction commands generalizing before l rs with
  | nil => exact absurd trivial horder
  | cons c commands ih =>
    rw [List.foldlM_cons]
    cases c with
    | helo helohost =>
      have hrest : ¬ InOrder (before ++ [.helo helohost]) commands := fun h => horder ⟨trivial, h⟩
      refine ((runs_mlfiHelo h helohost).bind fun _ l' h' => ?_).fails fun rs' l' h' => ih h' hrest rs'
      exact runs_pure h'
    | mail sender =>
      have hrest : ¬ InOrder (before ++ [.mail sender]) commands := fun h => horder ⟨trivial, h⟩
      refine ((runs_mlfiEnvfrom h sender).bind fun _ l' h' => ?_).fails fun rs' l' h' => ih h' hrest rs'
      exact runs_pure h'
    | rcpt recipient answer =>
      by_cases hsome : senders before = []
      · exact ((fails_mlfiEnvrcpt h hsome recipient answer).bind).bind
      · have hrest : ¬ InOrder (before ++ [.rcpt recipient answer]) commands := fun h => horder ⟨hsome, h⟩
        refine ((runs_mlfiEnvrcpt h hsome recipient answer).bind fun r l' h' => ?_).fails fun rs' l' h' => ih h' hrest rs'
        exact runs_pure h'.2

/-- What the private context points to is freed. -/
theorem runs_mlfiClose (h : Holds a caddr before l) :
    Runs l (mlfiClose (some a)) fun _ l' => ∃ lost, l' = strBlocks lost ∧
      (lost.map Prod.snd).Perm ((senders before).dropLast ++ (helos before).dropLast) := by
  obtain ⟨client, sender, helo, lost, hl, -, -, hlost⟩ := h.blocks
  refine Runs.perm ?_ hl
  refine (runs_getPriv List.mem_cons_self).known ?_
  dsimp only
  have hfront : ∀ c : Block, ((a, c) :: ((client, Block.str caddr) :: (text sender ++ (text helo ++ strBlocks lost)))).Perm
      (text sender ++ ((client, .str caddr) :: (text helo ++ ((a, c) :: strBlocks lost)))) := fun c => by
    rw [← Multiset.coe_eq_coe]
    simp only [← Multiset.coe_add, ← Multiset.cons_coe, ← Multiset.singleton_add]
    abel
  refine ((runs_freeOpt _ sender).perm (hfront _)).seq ?_
  refine runs_free.seq ?_
  refine (runs_freeOpt _ helo).seq ?_
  refine runs_free.imp ?_
  rintro _ _ rfl
  exact ⟨lost, rfl, hlost⟩

theorem runs_mlfiConnect (caddr : List Char) :
    Runs [] (mlfiConnect (.inet (some caddr))) fun r l => ∃ a, r = (.continue_, some a) ∧ Holds a caddr [] l := by
  refine (runs_malloc _).bind ?_
  rintro a _ rfl
  refine (runs_malloc _).bind ?_
  rintro client _ rfl
  refine ((runs_setPriv _).perm (.swap _ _ _)).seq ?_
  exact runs_pure ⟨a, rfl, client, none, none, [], .refl _, rfl, rfl, .refl _⟩

/-- A session that is accepted at once. -/
theorem runs_session_accept {hostaddr : Hostaddr} (h : mlfiConnect hostaddr = pure (.accept, none))
    (commands : List Command) : Runs [] (session hostaddr commands) fun rs l => rs = [] ∧ l = [] := by
  rw [session, h]
  exact runs_pure ⟨rfl, rfl⟩

/-- A session that comes to its end. -/
theorem runs_session {hostaddr : Hostaddr} {commands : List Command} (h : Ends hostaddr commands) :
    Runs [] (session hostaddr commands) fun rs l => rs = tested hostaddr commands ∧
      ∃ lost, l = strBlocks lost ∧ (lost.map Prod.snd).Perm (leaked hostaddr commands) := by
  cases hostaddr with
  | null => exact h.elim
  | other =>
    refine (runs_session_accept rfl commands).imp ?_
    rintro _ _ ⟨rfl, rfl⟩
    exact ⟨rfl, [], rfl, .refl _⟩
  | inet caddr =>
    cases caddr with
    | none =>
      refine (runs_session_accept rfl commands).imp ?_
      rintro _ _ ⟨rfl, rfl⟩
      exact ⟨rfl, [], rfl, .refl _⟩
    | some caddr =>
      refine (runs_mlfiConnect caddr).bind ?_
      rintro _ l ⟨a, rfl, hl⟩
      refine (runs_commands hl h []).bind ?_
      rintro _ l' ⟨rfl, hl'⟩
      refine (runs_mlfiClose hl').bind ?_
      rintro _ l'' ⟨lost, rfl, hlost⟩
      exact runs_pure ⟨rfl, lost, rfl, hlost⟩

/-- And one that does not. -/
theorem fails_session {hostaddr : Hostaddr} {commands : List Command} (h : ¬ Ends hostaddr commands) :
    Fails [] (session hostaddr commands) .outOfBounds := by
  cases hostaddr with
  | null => exact (fails_fail _).bind
  | other => exact absurd trivial h
  | inet caddr =>
    cases caddr with
    | none => exact absurd trivial h
    | some caddr =>
      refine (runs_mlfiConnect caddr).fails ?_
      rintro _ l ⟨a, rfl, hl⟩
      exact (fails_commands hl h []).bind

end Specs

/-- Two names and two senders, and a recipient for each sender. -/
def twoMails : List Command :=
  [.helo "a".toList, .helo "b".toList, .mail "s".toList, .rcpt "r".toList ⟨.grey, none⟩, .mail "t".toList,
    .rcpt "r".toList ⟨.trust, none⟩]

end Gross.Milter
