import Gross.Worker.Blocks
import Gross.Worker.References

/-!
# The memory of a request

A request lives in a number of blocks: the tuple and its strings, the edict, the results on their way, and the
final status with the list of the checks that matched. They are made by one thread and freed by another: a result by
`test_tuple` or by who flushes the queue, the tuple by who drops the last reference, the final status
by `finalize`, whose log line is printed from the strings of the tuple.

## The model

The threads are those of `Gross.Worker.References`, and take the same steps, here with what they do to memory.
What `test_tuple` counts is in the `Loop` of `Gross.Worker.TestTuple`; the reason and the matches are
pointers. `made` keeps a record of the strings made for the request, but for its own fields: the
reasons in the results, the reasons that are copied from the configuration, and the names of checks that have none.

## What is proved

`request_memory` — a run in which no counter is misused is a run in which no block is misused: none is read or
freed after it was freed, and the caller gets the status and the reason, and the log the line, that
`Gross.Worker.TestTuple` says. When all threads are done, what is left in memory are the strings that were made, but for
the one in the answer: they are never freed.

## Honest scope

The checks read the tuple while they hold a reference, which is not modelled. `finalize` and the last
`request_unlink` of the caller are one step. So are the allocation of a result and putting it on the queue. The block for
the default timeout, which `test_tuple` allocates and frees itself, is left out.
-/

namespace Gross.Worker.RequestMemory

open Foundation Utils Postfix
open References (Job Submission Call Act inTime AllDone)

/-! ### The threads -/

/-- Where the thread of `test_tuple` is, with its own variables. -/
inductive Stage where
  /-- Giving the request to these checks. -/
  | submitting (checks : List Check) (submission : Submission)
  /-- In the loop. -/
  | listening (l : Loop) (reasonstr : Ptr)
  /-- In the loop, with a `NULL`, before `request_unlink`. -/
  | unlinking (l : Loop) (reasonstr : Ptr)
  /-- It has summed up the results, before `edict_unlink`. -/
  | leaving (l : Loop) (reasonstr : Ptr)
  /-- Back in its caller, before `finalize`. -/
  | returned (l : Loop)
  /-- After `request_unlink`. -/
  | done (l : Loop)
  deriving DecidableEq, Repr

/-- The same without pointers. -/
def Stage.plain : Stage → References.Stage
  | .submitting checks submission => .submitting checks submission
  | .listening l _ => .listening l
  | .unlinking l _ => .unlinking l
  | .leaving _ _ => .leaving
  | .returned _ => .returned
  | .done _ => .done

/-- What a request is about. -/
structure Request where
  /-- What `test_tuple` goes by. -/
  call : Call
  /-- The digest is in the filter when the results are summed up. -/
  seen : Bool
  /-- The tuple. -/
  fields : GreyTuple
  /-- How long it takes. -/
  delay : ℤ

/-- The threads, and the pointers they share. -/
structure State where
  /-- The request. -/
  request : Addr
  /-- The edict. -/
  edict : Addr
  /-- The final status. -/
  status : Addr
  /-- `resultmq` -/
  resultmq : List Ptr
  /-- `test_tuple` -/
  stage : Stage
  /-- The checks, in the order they were given the request. -/
  jobs : List Job
  /-- The strings that have been made, but for those of the tuple. -/
  made : List (List Char)
  /-- The status and the reason the caller has read. -/
  answer : Option (Status × Option (List Char))
  /-- What has been logged. -/
  logged : Option LogEntry

/-- The reason that `test_tuple` copies from the configuration when it sums up the results. -/
def copiedReason (conf : Config) (seen : Bool) (l : Loop) : Option String :=
  match l.judgment with
  | .pass | .block => none
  | .suspicious | .undefined =>
    if conf.blockThreshold > 0 ∧ l.suspWeight ≥ conf.blockThreshold then some conf.blockReason
    else if l.suspWeight ≥ conf.greyThreshold then
      if seen then none else some conf.greyReason
    else none

section Threads

variable (req : Request)

/-- The caller has made the request and the final status, and `test_tuple` has made the edict. -/
def begin : Prog State := do
  let request ← Mem.malloc (.tuple ⟨none, none, none, none, 1⟩)
  let sender ← copyField req.fields.sender
  let recipient ← copyField req.fields.recipient
  let clientAddress ← copyField req.fields.clientAddress
  let heloName ← copyField req.fields.heloName
  Mem.put request (.tuple ⟨sender, recipient, clientAddress, heloName, 1⟩)
  let status ← Mem.malloc (.status ⟨⟨.grey, none⟩, none, none, none, none, 0, none, .grey⟩)
  let t ← getTuple request
  setStatus status fun f =>
    { f with
      status := .fail, clientIp := t.clientAddress, sender := t.sender, recipient := t.recipient, helo := t.heloName }
  let edict ← Mem.malloc (.edict ⟨false, 1⟩)
  return ⟨request, edict, status, [], .submitting req.call.checklist .fresh, [], [], none, none⟩

/-- A turn of the loop of `test_tuple`. -/
def hearing (m : State) (l : Loop) (reasonstr : Ptr) (now : Timespec) : Prog State :=
  if inTime req.call.start now l then
    match m.resultmq with
    | [] => pure m
    | none :: resultmq =>
      pure { m with
        resultmq := resultmq, stage := .unlinking (l.turn req.call.conf req.call.start ⟨now, some none⟩) reasonstr }
    | some a :: resultmq => do
      let (r, reasonstr) ← takeResult m.status reasonstr a
      return { m with
        resultmq := resultmq, stage := .listening (l.turn req.call.conf req.call.start ⟨now, some (some r)⟩) reasonstr,
        made := m.made ++ madeName r }
  else pure { m with stage := .listening (l.turn req.call.conf req.call.start ⟨now, none⟩) reasonstr }

/-- Let's sum up the results. -/
def leave (m : State) (l : Loop) (reasonstr : Ptr) : Prog State := do
  let e ← getEdict m.edict
  -- we don't want more results
  Mem.put m.edict (.edict { e with obsolete := true })
  let copied := (copiedReason req.call.conf req.seen l).map String.toList
  let copy ← copyField copied
  return { m with stage := .leaving l (copy.or reasonstr), made := m.made ++ copied.toList }

/-- A step of `test_tuple`, or of its caller when it has returned. -/
def tester (m : State) (now : Timespec) : Prog State :=
  match m.stage with
  | .submitting [] _ => pure { m with stage := .listening (.init req.call.checklist req.call.ta) none }
  | .submitting (check :: checks) .fresh => do
    requestReference m.request
    return { m with stage := .submitting (check :: checks) .requested }
  | .submitting (check :: checks) .requested => do
    edictReference m.edict
    return { m with stage := .submitting (check :: checks) .counted }
  | .submitting (_ :: checks) .counted => pure { m with jobs := m.jobs ++ [.queued], stage := .submitting checks .fresh }
  | .listening l reasonstr => if l.ended then leave req m l reasonstr else hearing req m l reasonstr now
  | .unlinking l reasonstr => do
    requestUnlink m.request
    return { m with stage := .listening l reasonstr }
  | .leaving l reasonstr => do
    let resultmq ← edictUnlink m.edict m.resultmq
    let final := finish req.call.conf (l.verdict req.call.conf req.seen) l.entry
    setStatus m.status fun f =>
      { f with action := final.entry.action, status := final.status, reason := reasonstr.or f.reason }
    return { m with resultmq := resultmq, stage := .returned l }
  | .returned l => do
    let f ← getStatus m.status
    let reason ← readField f.reason
    let entry ← finalize m.status req.delay
    requestUnlink m.request
    return { m with stage := .done l, answer := some (f.status, reason), logged := some entry }
  | .done _ => pure m

/-- A step. -/
def step (m : State) : Act → Prog State
  | .tester now => tester req m now
  | .run i =>
    match m.jobs[i]? with
    | some .queued => pure { m with jobs := m.jobs.set i .running }
    | _ => pure m
  | .refuse i =>
    match m.jobs[i]? with
    | some .queued => pure { m with jobs := m.jobs.set i .finishing, resultmq := m.resultmq ++ [none] }
    | _ => pure m
  | .send i r =>
    match m.jobs[i]? with
    | some .running => do
      let a ← makeResult r
      return { m with resultmq := m.resultmq ++ [some a], made := m.made ++ (r.reason.map String.toList).toList }
    | _ => pure m
  | .unlink i =>
    match m.jobs[i]? with
    | some .running => do
      requestUnlink m.request
      return { m with jobs := m.jobs.set i .finishing }
    | _ => pure m
  | .finish i =>
    match m.jobs[i]? with
    | some .finishing => do
      let resultmq ← edictUnlink m.edict m.resultmq
      return { m with jobs := m.jobs.set i .done, resultmq := resultmq }
    | _ => pure m

/-- A run. -/
def run (acts : List Act) : Prog State := do acts.foldlM (step req) (← begin req)

end Threads

/-! ### What is where -/

/-- What is where. -/
structure Layout where
  /-- The strings of the tuple. -/
  fields : Fields
  /-- The messages on the queue. -/
  items : List (Option Item)
  /-- `obsolete` -/
  obsolete : Bool
  /-- The final status. -/
  final : FinalStatus
  /-- The matches. -/
  nodes : List (Addr × (Name × ℤ))
  /-- `reasonstr`, or the `reason` of the final status. -/
  reason : Option (Addr × List Char)
  /-- The strings that nobody will free. -/
  lost : List (Addr × List Char)

/-- The block of the final status. -/
def statusBlocks (a : Addr) (final : FinalStatus) : Stage → List (Addr × Block)
  | .done _ => []
  | _ => [(a, .status final)]

/-- All blocks. -/
def Layout.blocks (L : Layout) (m : State) (stage : Stage) (request edict : Counted) : List (Addr × Block) :=
  requestBlocks m.request L.fields request ++ (edictBlocks m.edict L.obsolete edict ++
    (L.items.flatMap itemBlocks ++ (statusBlocks m.status L.final stage ++
      (checkMatches.blocks L.nodes none ++ (texts L.reason ++ strBlocks L.lost)))))

/-! ### The threads and their blocks -/

section Threads

variable (req : Request)

/-- What `test_tuple` comes to, after this loop. -/
def Request.final (l : Loop) : Final := finish req.call.conf (l.verdict req.call.conf req.seen) l.entry

/-- The final status is that of the loop so far. -/
structure InLoop (L : Layout) (l : Loop) : Prop where
  /-- The tuple. -/
  points : Points L.final L.fields
  /-- The matches. -/
  records : Records l.entry L.final L.nodes L.lost
  /-- There is no reason yet. -/
  reason : L.final.reason = none

/-- What is so at each stage. -/
def AtStage (answer : Option (Status × Option (List Char))) (logged : Option LogEntry) (L : Layout) : Stage → Prop
  | .submitting _ _ => InLoop L (.init req.call.checklist req.call.ta) ∧ L.reason = none
  | .listening l reasonstr | .unlinking l reasonstr =>
    InLoop L l ∧ reasonstr = L.reason.map Prod.fst ∧ l.reasonstr.map String.toList = L.reason.map Prod.snd
  | .leaving l reasonstr =>
    InLoop L l ∧ reasonstr = L.reason.map Prod.fst ∧ (req.final l).reason.map String.toList = L.reason.map Prod.snd
  | .returned l =>
    Points L.final L.fields ∧ Records l.entry L.final L.nodes L.lost ∧ L.final.reason = L.reason.map Prod.fst ∧
      (req.final l).reason.map String.toList = L.reason.map Prod.snd ∧ L.final.status = (req.final l).status ∧
      L.final.action = (req.final l).entry.action
  | .done l =>
    L.nodes = [] ∧ L.reason = none ∧ answer = some ((req.final l).status, (req.final l).reason.map String.toList) ∧
      logged = some (LogEntry.ofRequest req.fields (req.final l).entry req.delay)

/-- The reason that is on its way to the answer, or in it. -/
def Stage.held (L : Layout) : Stage → List (List Char)
  | .done l => ((req.final l).reason.map String.toList).toList
  | _ => (L.reason.map Prod.snd).toList

/-- The threads do what those of `Gross.Worker.References` do, and each block belongs to somebody. -/
structure Rep (m : State) (s : References.State) (stage : Stage) (L : Layout) (l : List (Addr × Block)) : Prop where
  /-- Where `test_tuple` is. -/
  here : m.stage = stage
  /-- The same without pointers. -/
  plain : s.stage = stage.plain
  /-- The checks. -/
  jobs : m.jobs = s.jobs
  /-- The pointers on the queue. -/
  pointers : m.resultmq = L.items.map (Option.map Item.addr)
  /-- What they point to. -/
  results : s.resultmq = L.items.map (Option.map Item.result)
  /-- The strings of the tuple. -/
  values : L.fields.values = req.fields
  /-- What the thread of `test_tuple` has. -/
  atStage : AtStage req m.answer m.logged L stage
  /-- A string is lost, on the queue, or on its way to the answer. -/
  made : (L.lost.map Prod.snd ++ ((L.items.flatMap itemReason).map Prod.snd ++ stage.held req L)).Perm m.made
  /-- The blocks. -/
  blocks : l.Perm (L.blocks m stage s.request s.edict)

end Threads

/-! ### The loop -/

theorem verdict_reasonstr (conf : Config) (seen : Bool) (l : Loop) :
    (l.verdict conf seen).reasonstr = (copiedReason conf seen l).or l.reasonstr := by
  unfold Loop.verdict copiedReason
  cases l.judgment with
  | pass | block => rfl
  | suspicious | undefined =>
    dsimp only
    split_ifs <;> rfl

section Loop

variable {conf : Config} {start now : Timespec} {lp : Loop}

theorem turn_eq_hear (h : inTime start now lp = true) (message : Option ChkResult) :
    lp.turn conf start ⟨now, some message⟩ = lp.hear conf message := by
  unfold inTime at h
  unfold Loop.turn
  cases hta : lp.ta with
  | nil => simp [hta] at h
  | cons ta next =>
    rw [hta] at h
    exact if_pos (of_decide_eq_true h)

theorem hear_none (conf : Config) (lp : Loop) :
    (lp.hear conf none).entry = lp.entry ∧ (lp.hear conf none).reasonstr = lp.reasonstr := by
  obtain ⟨b, heq, -⟩ := Loop.settle_eq conf { lp with checksRunning := lp.checksRunning - 1 }
  rw [Loop.hear, heq]
  exact ⟨rfl, rfl⟩

theorem hear_some (conf : Config) (lp : Loop) (r : ChkResult) :
    (lp.hear conf (some r)).entry = (if r.judgment ≠ .undefined then Worker.recordMatch lp.entry r else lp.entry) ∧
      (lp.hear conf (some r)).reasonstr = r.reason.or lp.reasonstr := by
  obtain ⟨b, heq, -⟩ := Loop.settle_eq conf (lp.take r)
  rw [Loop.hear, heq]
  refine ⟨rfl, ?_⟩
  cases hr : r.reason <;> simp [Loop.take, hr]

theorem turn_none (conf : Config) (start now : Timespec) (lp : Loop) :
    (lp.turn conf start ⟨now, none⟩).entry = lp.entry ∧ (lp.turn conf start ⟨now, none⟩).reasonstr = lp.reasonstr := by
  unfold Loop.turn
  cases lp.ta with
  | nil => exact ⟨rfl, rfl⟩
  | cons ta next =>
    dsimp only
    split_ifs
    · exact ⟨rfl, rfl⟩
    · cases ta.action <;> exact ⟨rfl, rfl⟩

end Loop

theorem InLoop.of_entry {L : Layout} {lp lp' : Loop} (h : InLoop L lp) (hentry : lp'.entry = lp.entry) : InLoop L lp' :=
  ⟨h.points, hentry ▸ h.records, h.reason⟩

/-! ### One step -/

section Step

variable {req : Request} {m : State} {s s' : References.State} {stage : Stage} {L : Layout} {l : List (Addr × Block)}

theorem Rep.requestReference {checks : List Check} (h : Rep req m s (.submitting checks .fresh) L l) {o : Counted}
    (ho : s.request.reference = .ok o) :
    Runs l (requestReference m.request) fun _ l' => Rep req { m with stage := .submitting checks .requested }
      { s with request := o, stage := .submitting checks .requested } (.submitting checks .requested) L l' := by
  refine (((runs_requestReference ho).frame _).perm h.blocks).imp ?_
  rintro _ _ ⟨_, rfl, rfl⟩
  exact ⟨rfl, rfl, h.jobs, h.pointers, h.results, h.values, h.atStage, h.made, .refl _⟩

theorem Rep.edictReference {checks : List Check} (h : Rep req m s (.submitting checks .requested) L l) {o : Counted}
    (ho : s.edict.reference = .ok o) :
    Runs l (edictReference m.edict) fun _ l' => Rep req { m with stage := .submitting checks .counted }
      { s with edict := o, stage := .submitting checks .counted } (.submitting checks .counted) L l' := by
  refine (((runs_edictReference ho).frame _).perm (h.blocks.trans (List.perm_append_comm_assoc _ _ _))).imp ?_
  rintro _ _ ⟨_, rfl, rfl⟩
  exact ⟨rfl, rfl, h.jobs, h.pointers, h.results, h.values, h.atStage, h.made, List.perm_append_comm_assoc _ _ _⟩

/-- Who drops a reference to the request is at another place then, or its check is. -/
theorem Rep.requestUnlink (h : Rep req m s stage L l) {o : Counted} (ho : s.request.unlink = .ok o) :
    Runs l (requestUnlink m.request) fun _ l' => Rep req m { s with request := o } stage L l' := by
  refine (((runs_requestUnlink ho).frame _).perm h.blocks).imp ?_
  rintro _ _ ⟨_, rfl, rfl⟩
  exact ⟨h.here, h.plain, h.jobs, h.pointers, h.results, h.values, h.atStage, h.made, .refl _⟩

/-- More strings may be lost. -/
theorem AtStage.lost {answer : Option (Status × Option (List Char))} {logged : Option LogEntry}
    (h : AtStage req answer logged L stage) (items : List (Option Item)) (new : List (Addr × List Char)) :
    AtStage req answer logged { L with items := items, lost := new ++ L.lost } stage := by
  have hmono : ∀ x ∈ L.lost, x ∈ new ++ L.lost := fun _ hx => List.mem_append_right _ hx
  cases stage with
  | submitting | listening | unlinking | leaving => exact ⟨⟨h.1.points, h.1.records.mono hmono, h.1.reason⟩, h.2⟩
  | returned => exact ⟨h.1, h.2.1.mono hmono, h.2.2⟩
  | done => exact h

/-- What `edict_unlink` does without memory. -/
theorem edictUnlink_eq (h : References.edictUnlink s = .ok s') :
    ∃ o, s.edict.unlink = .ok o ∧ (o.count = 0 → References.nulls s.resultmq = 0) ∧
      s' = { s with edict := o, resultmq := if o.count = 0 then [] else s.resultmq } := by
  obtain ⟨o, ho, h⟩ := bind_eq_ok h
  refine ⟨o, ho, ?_⟩
  by_cases hlast : o.count = 0
  · rw [if_pos hlast] at h ⊢
    obtain ⟨_, hflush, h⟩ := bind_eq_ok h
    rw [References.flush_eq] at hflush
    refine ⟨fun _ => ?_, (Except.ok.inj h).symm⟩
    by_contra hnull
    rw [if_neg hnull] at hflush
    cases hflush
  · rw [if_neg hlast] at h ⊢
    exact ⟨fun h => absurd h hlast, (Except.ok.inj h).symm⟩

/-- The reasons of what is flushed are lost. -/
theorem Rep.edictUnlink (h : Rep req m s stage L l) {o : Counted} (ho : s.edict.unlink = .ok o)
    (hnulls : o.count = 0 → References.nulls s.resultmq = 0) :
    Runs l (edictUnlink m.edict m.resultmq) fun resultmq l' => ∃ L', Rep req { m with resultmq := resultmq }
      { s with edict := o, resultmq := if o.count = 0 then [] else s.resultmq } stage L' l' := by
  have hsome : o.count = 0 → ∀ x ∈ L.items, x.isSome = true := by
    intro hlast x hx
    have := List.countP_eq_zero.mp (hnulls hlast) (x.map Item.result) (by rw [h.results]; exact List.mem_map_of_mem hx)
    cases x with
    | none => exact absurd rfl this
    | some x => rfl
  have hfront : l.Perm ((edictBlocks m.edict L.obsolete s.edict ++ L.items.flatMap itemBlocks) ++
      (requestBlocks m.request L.fields s.request ++ (statusBlocks m.status L.final stage ++
        (checkMatches.blocks L.nodes none ++ (texts L.reason ++ strBlocks L.lost))))) := by
    refine h.blocks.trans ?_
    rw [Layout.blocks, ← Multiset.coe_eq_coe]
    simp only [← Multiset.coe_add]
    abel
  rw [h.pointers]
  refine (((runs_edictUnlink ho hsome).frame _).perm hfront).imp ?_
  rintro _ _ ⟨l₁, rfl, items, lost, rfl, hitems, hreasons, hl₁⟩
  refine ⟨{ L with items := items, lost := lost ++ L.lost }, h.here, h.plain, h.jobs, rfl, ?_, h.values,
    h.atStage.lost items lost, ?_, ?_⟩
  · by_cases hlast : o.count = 0
    · rw [if_pos hlast] at hitems ⊢
      rw [hitems]
      rfl
    · rw [if_neg hlast] at hitems ⊢
      rw [hitems, h.results]
  · have hheld : stage.held req { L with items := items, lost := lost ++ L.lost } = stage.held req L := by cases stage <;> rfl
    refine .trans ?_ h.made
    rw [hheld, hreasons, List.map_append, List.map_append, ← Multiset.coe_eq_coe]
    simp only [← Multiset.coe_add]
    abel
  · refine (hl₁.append_right _).trans ?_
    rw [Layout.blocks, strBlocks_append, ← Multiset.coe_eq_coe]
    simp only [← Multiset.coe_add]
    abel

/-- The results are summed up; a reason that is replaced is lost. -/
theorem Rep.leave {lp : Loop} {reasonstr : Ptr} (h : Rep req m s (.listening lp reasonstr) L l) (hfreed : s.edict.freed = 0) :
    Runs l (leave req m lp reasonstr) fun m' l' =>
      ∃ stage' L', Rep req m' { s with stage := .leaving } stage' L' l' := by
  obtain ⟨hloop, rfl, hreason⟩ := h.atStage
  have hfront : l.Perm ((m.edict, .edict ⟨L.obsolete, s.edict.count⟩) :: (requestBlocks m.request L.fields s.request ++
      (L.items.flatMap itemBlocks ++ (statusBlocks m.status L.final (.listening lp (L.reason.map Prod.fst)) ++
        (checkMatches.blocks L.nodes none ++ (texts L.reason ++ strBlocks L.lost)))))) := by
    refine h.blocks.trans ?_
    rw [Layout.blocks, edictBlocks, if_pos hfreed]
    exact List.perm_middle
  refine Runs.perm ?_ hfront
  refine (runs_getEdict List.mem_cons_self).known ?_
  refine (runs_put _).seq ?_
  have hfinal : (req.final lp).reason = (copiedReason req.call.conf req.seen lp).or lp.reasonstr :=
    verdict_reasonstr req.call.conf req.seen lp
  refine (runs_copyField _).bind ?_
  rintro _ _ ⟨copy, rfl, hcopy, rfl⟩
  refine runs_pure ?_
  rw [hcopy]
  cases copy with
  | none =>
    refine ⟨.leaving lp (L.reason.map Prod.fst), { L with obsolete := true }, rfl, rfl, h.jobs, h.pointers, h.results, h.values,
      ⟨⟨hloop.points, hloop.records, hloop.reason⟩, rfl, ?_⟩, ?_, ?_⟩
    · rw [hfinal, Option.map_eq_none_iff.mp hcopy, Option.none_or, hreason]
    · show (_ : List _).Perm (m.made ++ [])
      rw [List.append_nil]
      exact h.made
    · rw [Layout.blocks, edictBlocks, if_pos hfreed]
      exact List.perm_middle.symm
  | some copy =>
    obtain ⟨copied, hcopied, hcopy⟩ := Option.map_eq_some_iff.mp hcopy
    refine ⟨.leaving lp (some copy.1), { L with obsolete := true, reason := some copy, lost := L.reason.toList ++ L.lost }, rfl,
      rfl, h.jobs, h.pointers, h.results, h.values, ⟨⟨hloop.points, hloop.records.mono ?_, hloop.reason⟩, rfl, ?_⟩, ?_, ?_⟩
    · exact fun x hx => List.mem_append_right _ hx
    · rw [hfinal, hcopied, Option.some_or, Option.map_some, hcopy]
      rfl
    · have hmap : L.reason.toList.map Prod.snd = (L.reason.map Prod.snd).toList := by cases L.reason <;> rfl
      refine .trans ?_ (h.made.append_right [copy.2])
      rw [List.map_append, hmap]
      simp only [Stage.held, Option.map_some, Option.toList_some]
      rw [← Multiset.coe_eq_coe]
      simp only [← Multiset.coe_add]
      abel
    · have hlost : strBlocks (L.reason.toList ++ L.lost) = texts L.reason ++ strBlocks L.lost := strBlocks_append _ _
      rw [Layout.blocks, edictBlocks, if_pos hfreed, hlost, ← Multiset.coe_eq_coe]
      simp only [statusBlocks, ← Multiset.coe_add, ← Multiset.cons_coe, ← Multiset.singleton_add]
      abel

/-- The strings before and after a result is taken in. -/
theorem perm_taken {new lost queue reason old taken name made : List (List Char)}
    (h : (new ++ reason).Perm (name ++ (taken ++ old))) (hmade : (lost ++ ((taken ++ queue) ++ old)).Perm made) :
    ((new ++ lost) ++ (queue ++ reason)).Perm (made ++ name) := by
  rw [← Multiset.coe_eq_coe] at h hmade ⊢
  simp only [← Multiset.coe_add] at h hmade ⊢
  calc (new + lost + (queue + reason) : Multiset (List Char)) = (new + reason) + (lost + queue) := by abel
    _ = (name + (taken + old)) + (lost + queue) := by rw [h]
    _ = (lost + (taken + queue + old)) + name := by abel
    _ = made + name := by rw [hmade]

/-- A result is taken in. -/
theorem Rep.hear {lp : Loop} {reasonstr : Ptr} (h : Rep req m s (.listening lp reasonstr) L l) {now : Timespec}
    (hin : inTime req.call.start now lp = true) {x : Item} {items : List (Option Item)} (hitems : L.items = some x :: items) :
    Runs l (takeResult m.status reasonstr x.addr) fun r l' => r.1 = x.result ∧
      ∃ L', Rep req
        { m with
          resultmq := items.map (Option.map Item.addr)
          stage := .listening (lp.turn req.call.conf req.call.start ⟨now, some (some x.result)⟩) r.2
          made := m.made ++ madeName x.result }
        { s with
          resultmq := items.map (Option.map Item.result)
          stage := .listening (lp.turn req.call.conf req.call.start ⟨now, some (some x.result)⟩) }
        (.listening (lp.turn req.call.conf req.call.start ⟨now, some (some x.result)⟩) r.2) L' l' := by
  obtain ⟨hloop, rfl, hreason⟩ := h.atStage
  have hfront : l.Perm (x.blocks ++ ((m.status, .status L.final) :: (checkMatches.blocks L.nodes none ++ (texts L.reason ++
      (requestBlocks m.request L.fields s.request ++ (edictBlocks m.edict L.obsolete s.edict ++
        (items.flatMap itemBlocks ++ strBlocks L.lost))))))) := by
    refine h.blocks.trans ?_
    rw [Layout.blocks, hitems, List.flatMap_cons, ← Multiset.coe_eq_coe]
    simp only [statusBlocks, itemBlocks, ← Multiset.coe_add, ← Multiset.cons_coe, ← Multiset.singleton_add]
    abel
  refine ((runs_takeResult hloop.records x L.reason).perm hfront).imp ?_
  rintro _ l' ⟨totalweight, matched, nodes, reason, new, rfl, hrec, hsnd, hmade, hl'⟩
  obtain ⟨hentry, hreasonstr⟩ := hear_some req.call.conf lp x.result
  rw [turn_eq_hear hin]
  refine ⟨rfl, { L with
      items := items, final := { L.final with totalweight := totalweight, matched := matched }, nodes := nodes,
      reason := reason, lost := new ++ L.lost },
    rfl, rfl, h.jobs, rfl, rfl, h.values, ⟨⟨hloop.points.counts _ _, hentry ▸ hrec, hloop.reason⟩, rfl, ?_⟩, ?_, ?_⟩
  · rw [hreasonstr, hsnd, ← hreason]
    cases x.result.reason <;> rfl
  · have hold := h.made
    rw [hitems, List.flatMap_cons, List.map_append] at hold
    have hmap : (itemReason (some x)).map Prod.snd = (x.reason.map Prod.snd).toList := by cases hx : x.reason <;> simp [itemReason, hx]
    rw [hmap] at hold
    rw [List.map_append]
    exact perm_taken hmade hold
  · refine hl'.trans ?_
    rw [Layout.blocks, strBlocks_append, ← Multiset.coe_eq_coe]
    simp only [statusBlocks, ← Multiset.coe_add, ← Multiset.cons_coe, ← Multiset.singleton_add]
    abel

/-- The final status is written. -/
theorem Rep.writeFinal {lp : Loop} {reasonstr : Ptr} (h : Rep req m s (.leaving lp reasonstr) L l) :
    Runs l (setStatus m.status fun f => { f with
        action := (req.final lp).entry.action, status := (req.final lp).status, reason := reasonstr.or f.reason }) fun _ l' =>
      ∃ L', Rep req { m with stage := .returned lp } { s with stage := .returned } (.returned lp) L' l' := by
  obtain ⟨hloop, rfl, hreason⟩ := h.atStage
  have hfront : l.Perm ((m.status, .status L.final) :: (requestBlocks m.request L.fields s.request ++
      (edictBlocks m.edict L.obsolete s.edict ++ (L.items.flatMap itemBlocks ++
        (checkMatches.blocks L.nodes none ++ (texts L.reason ++ strBlocks L.lost)))))) := by
    refine h.blocks.trans ?_
    rw [Layout.blocks, ← Multiset.coe_eq_coe]
    simp only [statusBlocks, ← Multiset.coe_add, ← Multiset.cons_coe, ← Multiset.singleton_add]
    abel
  refine ((runs_setStatus _).perm hfront).imp ?_
  rintro _ _ rfl
  refine ⟨{ L with final := { L.final with
      action := (req.final lp).entry.action, status := (req.final lp).status,
      reason := (L.reason.map Prod.fst).or L.final.reason } }, rfl, rfl, h.jobs, h.pointers, h.results, h.values,
    ⟨⟨hloop.points.clientIp, hloop.points.sender, hloop.points.recipient, hloop.points.helo⟩,
      ⟨hloop.records.totalweight, hloop.records.matched, hloop.records.first, hloop.records.names⟩, ?_, hreason, rfl, rfl⟩,
    h.made, ?_⟩
  · show (L.reason.map Prod.fst).or L.final.reason = L.reason.map Prod.fst
    rw [hloop.reason, Option.or_none]
  · rw [Layout.blocks, ← Multiset.coe_eq_coe]
    simp only [statusBlocks, ← Multiset.coe_add, ← Multiset.cons_coe, ← Multiset.singleton_add]
    abel

/-- The caller reads the final status, and is done. -/
theorem Rep.returned {lp : Loop} (h : Rep req m s (.returned lp) L l) {o : Counted} (ho : s.request.unlink = .ok o)
    (now : Timespec) :
    Runs l (tester req m now) fun m' l' => ∃ L', Rep req m' { s with request := o, stage := .done } (.done lp) L' l' := by
  obtain ⟨hpoints, hrec, hfinal, hreason, hstatus, haction⟩ := h.atStage
  obtain ⟨hfreed, -, -⟩ := unlink_eq ho
  have hfront : l.Perm ((m.status, .status L.final) :: (checkMatches.blocks L.nodes none ++ (texts L.reason ++
      (requestBlocks m.request L.fields s.request ++ (edictBlocks m.edict L.obsolete s.edict ++
        (L.items.flatMap itemBlocks ++ strBlocks L.lost)))))) := by
    refine h.blocks.trans ?_
    rw [Layout.blocks, ← Multiset.coe_eq_coe]
    simp only [statusBlocks, ← Multiset.coe_add, ← Multiset.cons_coe, ← Multiset.singleton_add]
    abel
  have hblocks : ∀ y ∈ L.fields.blocks, y ∈ requestBlocks m.request L.fields s.request := fun y hy => by
    rw [requestBlocks, if_pos hfreed]
    exact List.mem_cons_of_mem _ hy
  unfold tester
  rw [h.here]
  refine Runs.perm ?_ hfront
  refine (runs_getStatus List.mem_cons_self).bind ?_
  rintro f _ ⟨hf, rfl⟩
  rw [show f.reason = L.reason.map Prod.fst by rw [hf, hfinal]]
  refine (runs_readField fun y hy => List.mem_cons_of_mem _ (List.mem_append_right _ (List.mem_append_left _ hy))).known ?_
  refine (runs_finalize hrec hpoints hfinal (fun y hy => List.mem_append_left _ (hblocks y hy)) (fun y hy => ?_) req.delay).bind ?_
  · exact List.mem_append_right _ (List.mem_append_right _ (List.mem_append_right _ hy))
  rintro _ _ ⟨rfl, rfl⟩
  refine ((runs_requestUnlink ho).frame _).bind ?_
  rintro _ _ ⟨_, rfl, rfl⟩
  refine runs_pure ⟨{ L with nodes := [], reason := none }, rfl, rfl, h.jobs, h.pointers, h.results, h.values,
    ⟨rfl, rfl, ?_, ?_⟩, ?_, .refl _⟩
  · rw [hf, hstatus, hreason]
  · rw [h.values, haction]
    rfl
  · refine .trans (.of_eq ?_) h.made
    simp only [Stage.held, hreason]

/-- A check sends a result. -/
theorem Rep.send (h : Rep req m s stage L l) (r : ChkResult) :
    Runs l (makeResult r) fun a l' => ∃ L', Rep req
      { m with resultmq := m.resultmq ++ [some a], made := m.made ++ (r.reason.map String.toList).toList }
      { s with resultmq := s.resultmq ++ [some r] } stage L' l' := by
  refine (runs_makeResult r).imp ?_
  rintro _ _ ⟨x, rfl, rfl, rfl⟩
  refine ⟨{ L with items := L.items ++ [some x] }, h.here, h.plain, h.jobs, by simp [h.pointers], by simp [h.results], h.values,
    ?_, ?_, ?_⟩
  · have := h.atStage.lost (L.items ++ [some x]) []
    exact this
  · have hmap : (itemReason (some x)).map Prod.snd = (x.result.reason.map String.toList).toList := by
      rw [x.reason_eq]
      cases hx : x.reason <;> simp [itemReason, hx]
    have hheld : stage.held req { L with items := L.items ++ [some x] } = stage.held req L := by cases stage <;> rfl
    refine .trans ?_ (h.made.append_right _)
    rw [hheld, List.flatMap_append, List.flatMap_singleton, List.map_append, hmap, ← Multiset.coe_eq_coe]
    simp only [← Multiset.coe_add]
    abel
  · refine (h.blocks.append_left _).trans ?_
    rw [Layout.blocks, Layout.blocks, List.flatMap_append, List.flatMap_singleton, ← Multiset.coe_eq_coe]
    simp only [itemBlocks, ← Multiset.coe_add]
    abel

/-- A turn of the loop. -/
theorem Rep.hearing {lp : Loop} {reasonstr : Ptr} (h : Rep req m s (.listening lp reasonstr) L l) (now : Timespec) :
    Runs l (hearing req m lp reasonstr now) fun m' l' =>
      ∃ stage' L', Rep req m' (References.hearing req.call s lp now) stage' L' l' := by
  obtain ⟨hloop, rfl, hreason⟩ := h.atStage
  unfold RequestMemory.hearing References.hearing
  by_cases hin : inTime req.call.start now lp = true
  · rw [if_pos hin, if_pos hin]
    rcases hitems : L.items with _ | ⟨_ | x, items⟩
    · have hm : m.resultmq = [] := by rw [h.pointers, hitems, List.map_nil]
      have hs : s.resultmq = [] := by rw [h.results, hitems, List.map_nil]
      rw [hm, hs]
      exact runs_pure ⟨_, L, h⟩
    · have hm : m.resultmq = none :: items.map (Option.map Item.addr) := by rw [h.pointers, hitems, List.map_cons, Option.map_none]
      have hs : s.resultmq = none :: items.map (Option.map Item.result) := by
        rw [h.results, hitems, List.map_cons, Option.map_none]
      rw [hm, hs]
      obtain ⟨hentry, hreasonstr⟩ := hear_none req.call.conf lp
      dsimp only
      rw [turn_eq_hear hin]
      refine runs_pure ⟨_, { L with items := items }, rfl, rfl, h.jobs, rfl, rfl, h.values, ⟨?_, rfl, ?_⟩, ?_, ?_⟩
      · have hloop' : InLoop { L with items := items } lp := ⟨hloop.points, hloop.records, hloop.reason⟩
        exact hloop'.of_entry hentry
      · rw [hreasonstr, hreason]
      · have := h.made
        rw [hitems] at this
        exact this
      · have := h.blocks
        rw [Layout.blocks, hitems] at this
        exact this
    · have hm : m.resultmq = some x.addr :: items.map (Option.map Item.addr) := by
        rw [h.pointers, hitems, List.map_cons, Option.map_some]
      have hs : s.resultmq = some x.result :: items.map (Option.map Item.result) := by
        rw [h.results, hitems, List.map_cons, Option.map_some]
      rw [hm, hs]
      refine (h.hear hin hitems).bind ?_
      rintro ⟨_, reasonstr⟩ l' ⟨rfl, L', hL'⟩
      exact runs_pure ⟨_, L', hL'⟩
  · rw [if_neg hin, if_neg hin]
    obtain ⟨hentry, hreasonstr⟩ := turn_none req.call.conf req.call.start now lp
    exact runs_pure ⟨_, L, rfl, rfl, h.jobs, h.pointers, h.results, h.values,
      ⟨hloop.of_entry hentry, rfl, by rw [hreasonstr, hreason]⟩, h.made, h.blocks⟩

/-- A step of `test_tuple`, or of its caller. -/
theorem Rep.tester (h : Rep req m s stage L l) (hacc : References.Accounts s) {now : Timespec}
    (hs : References.tester req.call s now = .ok s') :
    Runs l (tester req m now) fun m' l' => ∃ stage' L', Rep req m' s' stage' L' l' := by
  unfold References.tester at hs
  rw [h.plain] at hs
  cases stage with
  | submitting checks submission =>
    unfold RequestMemory.tester
    rw [h.here]
    cases checks with
    | nil =>
      cases hs
      obtain ⟨hloop, hreason⟩ := h.atStage
      exact runs_pure ⟨_, L, rfl, rfl, h.jobs, h.pointers, h.results, h.values, ⟨hloop, by rw [hreason]; rfl, by rw [hreason]; rfl⟩,
        h.made, h.blocks⟩
    | cons check checks =>
      cases submission with
      | fresh =>
        obtain ⟨o, ho, hs⟩ := bind_eq_ok hs
        cases hs
        exact (h.requestReference ho).bind fun _ l' h' => runs_pure ⟨_, L, h'⟩
      | requested =>
        obtain ⟨o, ho, hs⟩ := bind_eq_ok hs
        cases hs
        exact (h.edictReference ho).bind fun _ l' h' => runs_pure ⟨_, L, h'⟩
      | counted =>
        cases hs
        exact runs_pure ⟨_, L, rfl, rfl, by rw [h.jobs], h.pointers, h.results, h.values, h.atStage, h.made, h.blocks⟩
  | listening lp reasonstr =>
    unfold RequestMemory.tester
    rw [h.here]
    dsimp only [Stage.plain] at hs ⊢
    by_cases hended : lp.ended = true
    · rw [if_pos hended] at hs ⊢
      cases hs
      refine h.leave ?_
      rw [hacc.edict.freed, h.plain, if_neg (by simp [Stage.plain, References.Stage.edict])]
    · rw [if_neg hended] at hs ⊢
      cases hs
      exact h.hearing now
  | unlinking lp reasonstr =>
    unfold RequestMemory.tester
    rw [h.here]
    obtain ⟨o, ho, hs⟩ := bind_eq_ok hs
    cases hs
    exact (h.requestUnlink ho).bind fun _ l' h' => runs_pure
      ⟨_, L, rfl, rfl, h'.jobs, h'.pointers, h'.results, h'.values, h'.atStage, h'.made, h'.blocks⟩
  | leaving lp reasonstr =>
    unfold RequestMemory.tester
    rw [h.here]
    obtain ⟨o, ho, hnulls, rfl⟩ := edictUnlink_eq hs
    refine (h.edictUnlink ho hnulls).bind ?_
    rintro resultmq l' ⟨L', h'⟩
    refine h'.writeFinal.bind ?_
    rintro _ l'' ⟨L'', h''⟩
    exact runs_pure ⟨_, L'', h''⟩
  | returned lp =>
    obtain ⟨o, ho, hs⟩ := bind_eq_ok hs
    cases hs
    exact (h.returned ho now).imp fun _ l' h' => ⟨_, h'⟩
  | done lp =>
    unfold RequestMemory.tester
    rw [h.here]
    cases hs
    exact runs_pure ⟨_, L, h⟩

/-- The thread is where it can take that step. -/
def Enabled (jobs : List Job) : Act → Prop
  | .tester _ => True
  | .run i => jobs[i]? = some .queued
  | .refuse i => jobs[i]? = some .queued
  | .send i _ => jobs[i]? = some .running
  | .unlink i => jobs[i]? = some .running
  | .finish i => jobs[i]? = some .finishing

/-- A step that a thread cannot take changes nothing. -/
theorem references_step_of_not_enabled {call : References.Call} {a : Act} (h : ¬ Enabled s.jobs a) :
    References.step call s a = .ok s := by
  cases a <;> simp_all [Enabled, References.step]

theorem step_of_not_enabled {a : Act} (h : ¬ Enabled m.jobs a) : RequestMemory.step req m a = pure m := by
  cases a <;> simp_all [Enabled, RequestMemory.step]

theorem Rep.step (h : Rep req m s stage L l) (hacc : References.Accounts s) {a : Act}
    (hs : References.step req.call s a = .ok s') :
    Runs l (step req m a) fun m' l' => ∃ stage' L', Rep req m' s' stage' L' l' := by
  by_cases hen : Enabled s.jobs a
  swap
  · rw [references_step_of_not_enabled hen] at hs
    cases hs
    rw [step_of_not_enabled (h.jobs ▸ hen)]
    exact runs_pure ⟨_, L, h⟩
  cases a with
  | tester now => exact h.tester hacc hs
  | run i =>
    simp only [Enabled] at hen
    simp only [RequestMemory.step, References.step, h.jobs, hen] at hs ⊢
    cases hs
    exact runs_pure ⟨_, L, h.here, h.plain, rfl, h.pointers, h.results, h.values, h.atStage, h.made, h.blocks⟩
  | refuse i =>
    simp only [Enabled] at hen
    simp only [RequestMemory.step, References.step, h.jobs, hen] at hs ⊢
    cases hs
    have hheld : stage.held req { L with items := L.items ++ [none] } = stage.held req L := by cases stage <;> rfl
    refine runs_pure ⟨_, { L with items := L.items ++ [none] }, h.here, h.plain, rfl, by simp [h.pointers],
      by simp [h.results], h.values, h.atStage.lost (L.items ++ [none]) [], ?_, ?_⟩
    · rw [hheld, List.flatMap_append, List.flatMap_singleton, itemReason, List.append_nil]
      exact h.made
    · rw [Layout.blocks, List.flatMap_append, List.flatMap_singleton, itemBlocks, List.append_nil]
      exact h.blocks
  | send i r =>
    simp only [Enabled] at hen
    simp only [RequestMemory.step, References.step, h.jobs, hen] at hs ⊢
    cases hs
    refine (h.send r).bind ?_
    rintro a l' ⟨L', h'⟩
    exact runs_pure ⟨_, L', h'.here, h'.plain, rfl, h'.pointers, h'.results, h'.values, h'.atStage, h'.made, h'.blocks⟩
  | unlink i =>
    simp only [Enabled] at hen
    simp only [RequestMemory.step, References.step, h.jobs, hen] at hs ⊢
    obtain ⟨o, ho, hs⟩ := bind_eq_ok hs
    cases hs
    exact (h.requestUnlink ho).bind fun _ l' h' => runs_pure
      ⟨_, L, h'.here, h'.plain, rfl, h'.pointers, h'.results, h'.values, h'.atStage, h'.made, h'.blocks⟩
  | finish i =>
    simp only [Enabled] at hen
    simp only [RequestMemory.step, References.step, h.jobs, hen] at hs ⊢
    obtain ⟨o, ho, hnulls, rfl⟩ := edictUnlink_eq hs
    refine (h.edictUnlink ho hnulls).bind ?_
    rintro resultmq l' ⟨L', h'⟩
    exact runs_pure ⟨_, L', h'.here, h'.plain, rfl, h'.pointers, h'.results, h'.values, h'.atStage, h'.made, h'.blocks⟩

theorem Rep.run (h : Rep req m s stage L l) (hacc : References.Accounts s) {acts : List Act}
    (hrun : acts.foldlM (References.step req.call) s = .ok s') :
    Runs l (acts.foldlM (RequestMemory.step req) m) fun m' l' => ∃ stage' L', Rep req m' s' stage' L' l' := by
  induction acts generalizing m s stage L l with
  | nil =>
    cases hrun
    exact runs_pure ⟨_, L, h⟩
  | cons a acts ih =>
    rw [List.foldlM_cons] at hrun ⊢
    obtain ⟨s₁, hstep, hrun⟩ := bind_eq_ok hrun
    have hacc₁ : References.Accounts s₁ := @References.accounts_of_run _ _ [a] _ hacc (by
      rw [List.foldlM_cons, hstep]
      rfl)
    refine (h.step hacc hstep).bind ?_
    rintro m₁ l₁ ⟨stage₁, L₁, h₁⟩
    exact ih h₁ hacc₁ hrun

theorem runs_begin (req : Request) :
    Runs [] (begin req) fun m l => ∃ stage L, Rep req m (References.start req.call.checklist) stage L l := by
  refine (runs_malloc _).bind ?_
  rintro request _ rfl
  refine (runs_copyField _).bind ?_
  rintro _ _ ⟨sender, rfl, hsender, rfl⟩
  refine (runs_copyField _).bind ?_
  rintro _ _ ⟨recipient, rfl, hrecipient, rfl⟩
  refine (runs_copyField _).bind ?_
  rintro _ _ ⟨clientAddress, rfl, hclientAddress, rfl⟩
  refine (runs_copyField _).bind ?_
  rintro _ _ ⟨heloName, rfl, hheloName, rfl⟩
  let x : Fields := ⟨sender, recipient, clientAddress, heloName⟩
  have hfront : ∀ c : Block, (texts heloName ++ (texts clientAddress ++ (texts recipient ++ (texts sender ++ [(request, c)])))).Perm
      ((request, c) :: x.blocks) := fun c => by
    rw [Fields.blocks, ← Multiset.coe_eq_coe]
    simp only [← Multiset.coe_add, ← Multiset.cons_coe, ← Multiset.singleton_add, Multiset.coe_nil]
    abel
  refine ((runs_put _).perm (hfront _)).seq ?_
  refine (runs_malloc _).bind ?_
  rintro status _ rfl
  refine (runs_getTuple (List.mem_cons_of_mem _ List.mem_cons_self)).known ?_
  refine (runs_setStatus _).seq ?_
  refine (runs_malloc _).bind ?_
  rintro edict _ rfl
  let final : FinalStatus := ⟨⟨.fail, none⟩, clientAddress.map Prod.fst, sender.map Prod.fst, recipient.map Prod.fst,
    heloName.map Prod.fst, 0, none, .grey⟩
  refine runs_pure ⟨_, ⟨x, [], false, final, [], none, []⟩, rfl, rfl, rfl, rfl, rfl, ?_,
    ⟨⟨⟨rfl, rfl, rfl, rfl⟩, ⟨rfl, rfl, rfl, by simp⟩, rfl⟩, rfl⟩, .refl _, ?_⟩
  · rw [Fields.values, ← hsender, ← hrecipient, ← hclientAddress, ← hheloName]
  · exact @List.perm_append_comm _ [(edict, Block.edict ⟨false, 1⟩), (status, Block.status final)] _

end Step

/-- **What is not freed is known**: a run without a misused counter, from any memory, misuses no block. When all
threads are done, the caller has read the status and the reason, and the log the line, that `test_tuple` comes
to after its loop; and what the request leaves behind are the strings that were made for it, but for the
reason in the answer. -/
theorem request_memory (req : Request) (acts : List Act) (s : References.State) (hrun : References.run req.call acts = .ok s)
    (arena : Arena Block) (rest : List (Addr × Block)) (harena : Owns arena rest) :
    ∃ m arena' l, run req acts arena = .ok (m, arena') ∧ Owns arena' (l ++ rest) ∧ m.stage.plain = s.stage ∧
      (AllDone s → ∃ lp lost, m.stage = .done lp ∧
        m.answer = some ((req.final lp).status, (req.final lp).reason.map String.toList) ∧
        m.logged = some (LogEntry.ofRequest req.fields (req.final lp).entry req.delay) ∧
        l.Perm (strBlocks lost) ∧ (lost.map Prod.snd ++ ((req.final lp).reason.map String.toList).toList).Perm m.made) := by
  have hruns : Runs [] (run req acts) fun m l => ∃ stage L, Rep req m s stage L l := by
    refine (runs_begin req).bind ?_
    rintro m l ⟨stage, L, h⟩
    exact h.run (References.accounts_start _) hrun
  obtain ⟨m, arena', l, hm, howns, stage, L, h⟩ := hruns arena rest harena
  refine ⟨m, arena', l, hm, howns, by rw [h.here, h.plain], fun hdone => ?_⟩
  have hacc : References.Accounts s := References.accounts_of_run (References.accounts_start _) hrun
  obtain ⟨hrequest, hedict⟩ := hacc.freed hdone
  -- nothing is on the queue
  have hitems : L.items = [] := by
    have := hacc.flushed hdone.edict
    rw [h.results] at this
    exact List.map_eq_nil_iff.mp this
  cases stage with
  | done lp =>
    obtain ⟨hnodes, hreason, hanswer, hlogged⟩ := h.atStage
    refine ⟨lp, L.lost, h.here, hanswer, hlogged, h.blocks.trans (.of_eq ?_), ?_⟩
    · simp [Layout.blocks, requestBlocks, edictBlocks, hrequest, hedict, hitems, statusBlocks, hnodes, Linked.blocks, hreason, texts,
        optBlock]
    · have := h.made
      rwa [hitems] at this
  | submitting | listening | unlinking | leaving | returned => simpa [Stage.plain] using h.plain.symm.trans hdone.1

/-- A request with one check. -/
def oneRequest : Request where
  call := References.oneCheck
  seen := false
  fields := ⟨some "a".toList, some "b".toList, some "1".toList, none⟩
  delay := 3

/-- The check sends two reasons; the second comes when nobody listens any more. -/
def oneActs : List Act :=
  List.replicate 4 (.tester ⟨0, 0⟩) ++ [.run 0, .send 0 ⟨false, false, 2, .suspicious, some "x", none⟩,
    .send 0 ⟨false, false, 2, .suspicious, some "y", none⟩] ++ List.replicate 4 (.tester ⟨0, 0⟩) ++ [.unlink 0, .finish 0]

/-- Both are left in memory, and the name; the answer had the reason of the configuration, which is empty. -/
theorem request_memory_one : ∃ m arena' l lost reason, run oneRequest oneActs Arena.empty = .ok (m, arena') ∧
    Owns arena' (l ++ []) ∧ m.answer = some (.grey, some []) ∧ l.Perm (strBlocks lost) ∧
      (lost.map Prod.snd ++ reason).Perm ["x".toList, "y".toList, anonymous, []] := by
  obtain ⟨m, arena', l, hrun, howns, -, hdone⟩ := request_memory oneRequest oneActs
    ⟨⟨0, 1⟩, ⟨0, 1⟩, [], .done, [.done]⟩ rfl Arena.empty [] owns_empty
  obtain ⟨lp, lost, -, -, -, hl, hmade⟩ := hdone ⟨rfl, by simp⟩
  have hm : (run oneRequest oneActs Arena.empty).map (fun p => (p.1.answer, p.1.made)) =
      .ok (some (.grey, some []), ["x".toList, "y".toList, anonymous, []]) := by decide +kernel
  rw [hrun] at hm
  obtain ⟨hanswer, hstrings⟩ := Prod.mk.inj (Except.ok.inj hm)
  exact ⟨m, arena', l, lost, _, hrun, howns, hanswer, hl, hstrings ▸ hmade⟩

end Gross.Worker.RequestMemory
