import Gross.Foundation.Run
import Gross.Postfix.Dialogue
import Gross.Sjsms.Client

/-!
# A question and its answer

`grosscheck` is called by the mail server with a list of values. It sends a query to
one server, waits for an answer, and asks a second server if none comes. The answers
are datagrams: they may be lost, doubled or late. A server that needs more than a
second says so with a `P`, and the client then waits longer. Each call has a socket of
its own, so what comes is for this question; but which server it comes from, and
whether that is the one that was asked last, is not looked at.

## The model

The client, the servers that have got the query and the datagrams between them are a
system (`State`). A step (`Act`) is one of the network, of a server, of the client, or
of time. What a server finds out is part of the step. The client waits as long as
`select` does, and no longer; what `select` leaves in `tv` is part of the step. A
datagram that `recvfrom` cannot read is a step as well.

## What is proved

`exchange` — whatever is lost, doubled or late: the servers test what the client was
asked about. If the client returns with a text, it is the text of the configuration for
what one of the servers has found, as far as it fits. If it returns without, a server
has found nothing, each server was given its time, or `recvfrom` has failed. It waits no
longer than two seconds for each server and eleven for each `P`, and when nothing comes
it returns.

## Honest scope

`socket`, `select` and `sendto` do not fail, and `select` returns when its time is over. The
values of the argument have no line end and no NUL (`Question`). A server that faults does
not answer. That a server ends up with the same findings twice, for a query that is
doubled, is left out.
-/

namespace Gross.Sjsms.Exchange

open Foundation Postfix Worker

/-! ### The arguments -/

/-- `MTASTRLEN` -/
def mtastrlen : ℕ := 252

/-- What `grosscheck` finds in its argument. -/
structure Args where
  /-- `numservers` -/
  numservers : ℕ
  /-- `caddr` -/
  caddr : List Byte
  /-- `recipient` -/
  recipient : List Byte
  /-- `sender` -/
  sender : List Byte
  /-- `helo` -/
  helo : List Byte
  deriving DecidableEq, Repr

/-- `GETNEXT`: the text up to the next comma, and what comes after it. -/
def getnext (s : List Byte) : Option (List Byte × List Byte) :=
  match s.dropWhile (· ≠ 44) with
  | [] => none
  | _ :: rest => some (s.takeWhile (· ≠ 44), rest)

/-- No empty sender. -/
def senderOf (sender : List Byte) : List Byte := if sender = [] then ascii "<>" else sender

/-- The end of the argument: the sender, and the name in the greeting if there is one. -/
def parseSender (numservers : ℕ) (caddr recipient s : List Byte) : Option Args :=
  match getnext s with
  | none => some ⟨numservers, caddr, recipient, senderOf s, []⟩
  | some (sender, helo) => if 44 ∈ helo then none else some ⟨numservers, caddr, recipient, senderOf sender, helo⟩

/-- What is done with the argument; `inet_pton` is a parameter. -/
def parseArg (inetPton : List Byte → Bool) (arg : List Byte) : Option Args := do
  let (ip, s) ← getnext arg
  if inetPton ip then
    let (ip', s) ← getnext s
    let (_, s) ← getnext s
    let (caddr, s) ← getnext s
    let (recipient, s) ← getnext s
    parseSender (if inetPton ip' then 2 else 1) caddr recipient s
  else none

/-- The question that is put together from the arguments. -/
structure Args.Asks (a : Args) (q : Question) : Prop where
  /-- The sender. -/
  sender : q.sender = a.sender
  /-- The recipient. -/
  rcpt : q.rcpt = a.recipient
  /-- The client. -/
  caddr : q.caddr = a.caddr
  /-- `strlen(helo) ? helo : NULL` -/
  helo : q.helo = if a.helo = [] then none else some a.helo

/-! ### The answers -/

/-- `ctx->config.sjsms` -/
structure Mappings where
  /-- `responsegrey` -/
  responsegrey : List Char
  /-- `responsematch` -/
  responsematch : List Char
  /-- `responsetrust` -/
  responsetrust : List Char
  /-- `responseblock` -/
  responseblock : List Char
  /-- They are strings. -/
  no_nul : '\x00' ∉ responsematch ∧ '\x00' ∉ responsetrust

/-- `snprintf(response, MAXLINELEN, "%c %s", c, text)` -/
def answer (c : Char) (text : List Char) : List Char := (c :: ' ' :: text).take (maxlinelen - 1)

/-- What a server answers; `none` is an error of `test_tuple`. -/
def response (conf : Mappings) : Option (FinalStatus (List Char)) → Except Fault (List Char)
  | none => .ok ['F']
  | some final =>
    match final.status with
    | .matched => .ok (answer 'M' conf.responsematch)
    | .grey => do return answer 'G' (← assembleMapresult conf.responsegrey final.reason)
    | .block => do return answer 'B' (← assembleMapresult conf.responseblock final.reason)
    | .trust => .ok (answer 'T' conf.responsetrust)
    | _ => .ok ['F']

/-- What is copied to `res`: the text of the answer, or that of the old protocol where the answer is
short. -/
def resOf (short : String) (rest : List Char) : List Char :=
  match cstring '\x00' rest with
  | [] => short.toList.take mtastrlen
  | _ :: text => text.take mtastrlen

/-- What the client makes of an answer. -/
def judge : List Char → Option (List Char)
  | 'G' :: rest => some (resOf "$X4.4.3|$NPlease$ try$ again$ later" rest)
  | 'T' :: rest => some (resOf "$Y" rest)
  | 'M' :: rest => some (resOf "$Y" rest)
  | 'B' :: rest => some (resOf "$N" rest)
  | _ => none

/-- What the client is to make of what a server has found. -/
def shown (conf : Mappings) : Option (FinalStatus (List Char)) → Except Fault (Option (List Char))
  | none => .ok none
  | some final =>
    match final.status with
    | .matched => .ok (some (conf.responsematch.take mtastrlen))
    | .grey => do return some ((← assembleMapresult conf.responsegrey final.reason).take mtastrlen)
    | .block => do return some ((← assembleMapresult conf.responseblock final.reason).take mtastrlen)
    | .trust => .ok (some (conf.responsetrust.take mtastrlen))
    | _ => .ok none

/-! ### The system -/

/-- What does not change. -/
structure Env where
  /-- The configuration of the servers. -/
  conf : Mappings
  /-- `query_timelimit` of the servers, in milliseconds. -/
  timelimit : ℤ
  /-- The byte order of the client. -/
  client : Endian
  /-- That of a server. -/
  server : Bool → Endian
  /-- What is in memory that is not initialised. -/
  uninit : Uninit
  /-- The question. -/
  question : Question

/-- A server that has got the query. -/
structure Job where
  /-- What it tests. -/
  tuple : GreyTuple
  /-- It has sent a `P`. -/
  calmed : Bool
  /-- It has answered. -/
  done : Bool
  deriving DecidableEq, Repr

/-- Where the client is. Times are in microseconds. -/
inductive Phase where
  /-- In `select`: there are so many servers to ask, this one included, `tv` is given, and so much of it is over. -/
  | waiting (numservers tv waited : ℕ)
  /-- It has returned, at that time. -/
  | returned (res : Option (List Char)) (at_ : ℕ)
  deriving DecidableEq, Repr

/-- The system. -/
structure State where
  /-- The time since the call. -/
  clock : ℕ
  /-- The client. -/
  phase : Phase
  /-- The queries on their way; `true` if to the second server. -/
  queries : List Bool
  /-- The servers that have got one. -/
  jobs : List Job
  /-- The answers on their way. -/
  answers : List (List Char)
  /-- What the servers have found. -/
  given : List (Option (FinalStatus (List Char)))
  /-- How many `P`s the client has got. -/
  progressed : ℕ
  /-- How many servers were given their time. -/
  timeouts : ℕ
  /-- How many times `recvfrom` has failed. -/
  errors : ℕ
  deriving DecidableEq, Repr

/-- A step. -/
inductive Act where
  /-- Time goes on. -/
  | tick (d : ℕ)
  /-- A query gets to its server. -/
  | deliver (n : ℕ)
  /-- A query is lost. -/
  | loseQuery (n : ℕ)
  /-- A query is doubled. -/
  | doubleQuery (n : ℕ)
  /-- `calm_client` -/
  | calm (j : ℕ)
  /-- A server has found something out, and answers. -/
  | answer (j : ℕ) (final : Option (FinalStatus (List Char)))
  /-- An answer is lost. -/
  | loseAnswer (n : ℕ)
  /-- An answer is doubled. -/
  | doubleAnswer (n : ℕ)
  /-- The client gets an answer; `left` is what `select` has left in `tv`. -/
  | receive (n left : ℕ)
  /-- `select` returns, and `recvfrom` fails. -/
  | recvError
  /-- `select` returns, and there is nothing. -/
  | timeout
  deriving DecidableEq, Repr

/-- Two seconds. -/
def firstTv : ℕ := 2000000

/-- `tv` after a `P`: `tv_sec` is 10, and `tv_usec` stays. -/
def nextTv (left : ℕ) : ℕ := 10000000 + left % 1000000

section Steps

variable (env : Env)

/-- The datagram of the query. -/
def Env.datagram : List Byte := sendquerystr env.client (buildquerystr env.question)

/-- A server gets the query. If it cannot be parsed, nothing more is done. -/
def Env.accept (second : Bool) : List Job :=
  match serve (env.server second) env.uninit (env.datagram.take maxlinelen) with
  | .ok (.query (some tuple)) => [⟨tuple, false, false⟩]
  | _ => []

/-- What a server sends when it has found something out. If it faults, nothing. -/
def Env.sends (final : Option (FinalStatus (List Char))) : List (List Char) :=
  match response env.conf final with
  | .ok text => [text]
  | .error _ => []

/-- Time goes on, but not past the time that the client has given to `select`. -/
def State.tick (s : State) (d : ℕ) : State :=
  match s.phase with
  | .waiting n tv waited =>
    if waited + d ≤ tv then { s with clock := s.clock + d, phase := .waiting n tv (waited + d) } else s
  | .returned _ _ => { s with clock := s.clock + d }

/-- What the client does with an answer. -/
def State.read (s : State) (n : ℕ) (text : List Char) (left : ℕ) : State :=
  if text.head? = some 'P' then { s with phase := .waiting n (nextTv left) 0, progressed := s.progressed + 1 }
  else { s with phase := .returned (judge text) s.clock }

/-- The client gets an answer, if it waits for one. -/
def State.receive (s : State) (i left : ℕ) : State :=
  match s.phase, s.answers[i]? with
  | .waiting n tv _, some text =>
    if left ≤ tv then { s with answers := s.answers.eraseIdx i }.read n text left else s
  | _, _ => s

/-- `recvfrom` fails. Nothing is in `recbuf` then. -/
def State.recvError (s : State) : State :=
  match s.phase with
  | .waiting _ _ _ => { s with phase := .returned (judge []) s.clock, errors := s.errors + 1 }
  | .returned _ _ => s

/-- The client has waited long enough, and asks the other server if there is one. -/
def State.timeout (s : State) : State :=
  match s.phase with
  | .waiting n tv waited =>
    if waited = tv then
      if n - 1 = 0 then { s with phase := .returned none s.clock, timeouts := s.timeouts + 1 }
      else { s with
        phase := .waiting (n - 1) firstTv 0, queries := s.queries ++ [true], timeouts := s.timeouts + 1 }
    else s
  | .returned _ _ => s

/-- A step. -/
def step (s : State) : Act → State
  | .tick d => s.tick d
  | .deliver n =>
    match s.queries[n]? with
    | some second => { s with queries := s.queries.eraseIdx n, jobs := s.jobs ++ env.accept second }
    | none => s
  | .loseQuery n => { s with queries := s.queries.eraseIdx n }
  | .doubleQuery n => { s with queries := s.queries ++ s.queries[n]?.toList }
  | .calm j =>
    match s.jobs[j]? with
    | some ⟨tuple, false, false⟩ =>
      if env.timelimit > 1000 then { s with jobs := s.jobs.set j ⟨tuple, true, false⟩, answers := s.answers ++ [['P']] }
      else s
    | _ => s
  | .answer j final =>
    match s.jobs[j]? with
    | some ⟨tuple, calmed, false⟩ =>
      { s with
        jobs := s.jobs.set j ⟨tuple, calmed, true⟩
        answers := s.answers ++ env.sends final
        given := s.given ++ [final] }
    | _ => s
  | .loseAnswer n => { s with answers := s.answers.eraseIdx n }
  | .doubleAnswer n => { s with answers := s.answers ++ s.answers[n]?.toList }
  | .receive n left => s.receive n left
  | .recvError => s.recvError
  | .timeout => s.timeout

/-- The call, when the query has been sent to the first server. -/
def begin (numservers : ℕ) : State := ⟨0, .waiting numservers firstTv 0, [false], [], [], [], 0, 0, 0⟩

/-- A run. -/
def run (numservers : ℕ) (acts : List Act) : State := acts.foldl (step env) (begin numservers)

end Steps

/-! ### What the client makes of an answer -/

theorem cstring_answer {text : List Char} (h : '\x00' ∉ text) :
    cstring '\x00' ((' ' :: text).take (maxlinelen - 2)) = ' ' :: text.take (maxlinelen - 3) := by
  refine cstring_of_notMem fun hmem => ?_
  rcases List.mem_cons.mp (List.mem_of_mem_take hmem) with hc | hc
  · exact absurd hc (by decide)
  · exact h hc

/-- The text of an answer is found again, as far as it fits. -/
theorem resOf_answer (short : String) {text : List Char} (h : '\x00' ∉ text) :
    resOf short ((' ' :: text).take (maxlinelen - 2)) = text.take mtastrlen := by
  rw [resOf, cstring_answer h]
  dsimp only
  rw [List.take_take]
  rfl

theorem answer_eq (c : Char) (text : List Char) : answer c text = c :: (' ' :: text).take (maxlinelen - 2) := rfl

/-- What has been put together is a string. -/
theorem nul_notMem_assembleMapresult {template result : List Char} {reason : Option (List Char)}
    (h : assembleMapresult template reason = .ok result) : '\x00' ∉ result := by
  obtain ⟨⟨_, out⟩, -, h⟩ := bind_eq_ok h
  obtain ⟨text, -, h⟩ := bind_eq_ok h
  obtain ⟨mem, -, h⟩ := bind_eq_ok h
  by_cases hmem : '\x00' ∈ mem
  · obtain ⟨s, rest, rfl, hs⟩ := List.eq_append_cons_of_mem hmem
    rw [strdup_append hs] at h
    cases h
    exact hs
  · rw [strdup_of_notMem hmem] at h
    cases h

/-- The client makes of an answer what it is to make of what the server has found. -/
theorem shown_of_response {conf : Mappings} {final : Option (FinalStatus (List Char))} {text : List Char}
    (h : response conf final = .ok text) : shown conf final = .ok (judge text) ∧ text.head? ≠ some 'P' := by
  cases final with
  | none =>
    cases h
    exact ⟨rfl, by decide⟩
  | some final =>
    rcases final with ⟨status, reason⟩
    cases status with
    | matched =>
      cases h
      exact ⟨congrArg (fun r => Except.ok (some r)) (resOf_answer "$Y" conf.no_nul.1).symm, by simp [answer_eq]⟩
    | trust =>
      cases h
      exact ⟨congrArg (fun r => Except.ok (some r)) (resOf_answer "$Y" conf.no_nul.2).symm, by simp [answer_eq]⟩
    | grey =>
      obtain ⟨m, hm, h⟩ := bind_eq_ok h
      cases h
      simp only [shown, hm, ok_bind]
      exact ⟨congrArg (fun r => Except.ok (some r)) (resOf_answer _ (nul_notMem_assembleMapresult hm)).symm,
        by simp [answer_eq]⟩
    | block =>
      obtain ⟨m, hm, h⟩ := bind_eq_ok h
      cases h
      simp only [shown, hm, ok_bind]
      exact ⟨congrArg (fun r => Except.ok (some r)) (resOf_answer _ (nul_notMem_assembleMapresult hm)).symm,
        by simp [answer_eq]⟩
    | unknown =>
      cases h
      exact ⟨rfl, by decide⟩
    | fail =>
      cases h
      exact ⟨rfl, by decide⟩

/-! ### What the servers test -/

/-- The query fits in a datagram, so the servers test what was asked about. -/
theorem accept_eq (env : Env) (h : env.question.text.length ≤ maxlinelen - 4) (second : Bool) :
    env.accept second = [⟨env.question.tuple, false, false⟩] := by
  obtain ⟨k, hk, hlen⟩ := parsequery_take (isQueryLine_lines env.question) (maxlinelen - 4)
  have hall : env.question.lines.take k = env.question.lines := by
    have hchars := congrArg List.length (chars_text env.question)
    rw [chars, List.length_map, List.length_append, List.length_singleton] at hchars
    exact List.take_of_length_le (hlen (by omega))
  have hserve : serve (env.server second) env.uninit (env.datagram.take maxlinelen) =
      .ok (.query (some env.question.tuple)) := by
    rw [Env.datagram, serve_sendquerystr, hk, hall, keep_lines]
    rfl
  rw [Env.accept, hserve]

theorem length_of_getnext {s field rest : List Byte} (h : getnext s = some (field, rest)) :
    field.length + rest.length < s.length := by
  have hsplit := congrArg List.length (List.takeWhile_append_dropWhile (p := (· ≠ 44)) (l := s))
  unfold getnext at h
  split at h
  · cases h
  · rename_i hdrop
    cases h
    rw [List.length_append, hdrop, List.length_cons] at hsplit
    omega

theorem length_senderOf (sender : List Byte) : (senderOf sender).length ≤ sender.length + 2 := by
  unfold senderOf
  split_ifs
  · exact Nat.le_add_left 2 _
  · omega

theorem length_of_parseSender {n : ℕ} {caddr recipient s : List Byte} {a : Args}
    (h : parseSender n caddr recipient s = some a) :
    a.numservers = n ∧ a.caddr = caddr ∧ a.recipient = recipient ∧ a.sender.length + a.helo.length ≤ s.length + 2 := by
  unfold parseSender at h
  split at h
  · cases h
    exact ⟨rfl, rfl, rfl, by simpa using length_senderOf s⟩
  · rename_i sender helo hget
    split_ifs at h
    cases h
    have hlen := length_of_getnext hget
    have hsender := length_senderOf sender
    exact ⟨rfl, rfl, rfl, by dsimp only; omega⟩

/-- The values are parts of the argument. -/
theorem length_of_parseArg {inetPton : List Byte → Bool} {arg : List Byte} {a : Args} (h : parseArg inetPton arg = some a) :
    a.caddr.length + a.recipient.length + a.sender.length + a.helo.length ≤ arg.length + 2 ∧ 1 ≤ a.numservers := by
  obtain ⟨⟨ip, s₀⟩, h₀, h⟩ := Option.bind_eq_some_iff.mp h
  dsimp only at h
  split_ifs at h
  obtain ⟨⟨ip', s₁⟩, h₁, h⟩ := Option.bind_eq_some_iff.mp h
  obtain ⟨⟨port, s₂⟩, h₂, h⟩ := Option.bind_eq_some_iff.mp h
  obtain ⟨⟨caddr, s₃⟩, h₃, h⟩ := Option.bind_eq_some_iff.mp h
  obtain ⟨⟨recipient, s₄⟩, h₄, h⟩ := Option.bind_eq_some_iff.mp h
  obtain ⟨hn, rfl, rfl, hlen⟩ := length_of_parseSender h
  have := length_of_getnext h₀
  have := length_of_getnext h₁
  have := length_of_getnext h₂
  have := length_of_getnext h₃
  have := length_of_getnext h₄
  refine ⟨by dsimp only at *; omega, ?_⟩
  rw [hn]
  split_ifs <;> decide

/-- The question is short enough. -/
theorem Args.Asks.length_text {a : Args} {q : Question} (hq : a.Asks q) {n : ℕ}
    (h : a.caddr.length + a.recipient.length + a.sender.length + a.helo.length ≤ n) : q.text.length ≤ n + 49 := by
  have hlit : (ascii "sender=").length = 7 ∧ (ascii "\nrecipient=").length = 11 ∧ (ascii "\nclient_address=").length = 16 ∧
      (ascii "\nhelo_name=").length = 11 ∧ (ascii "\n\n").length = 2 := by decide
  have hhelo := hq.helo
  rw [Question.text]
  split_ifs at hhelo
  · simp only [hhelo, List.length_append, List.length_nil, hlit, hq.sender, hq.rcpt, hq.caddr]
    omega
  · simp only [hhelo, List.length_append, hlit, hq.sender, hq.rcpt, hq.caddr]
    omega

/-! ### What is so all the time -/

/-- Why the client has returned this, in a call with that many servers: a server has found it, none is left to ask, or
`recvfrom` has failed. -/
def State.Because (env : Env) (numservers : ℕ) (s : State) (res : Option (List Char)) : Prop :=
  (res = none ∧ (s.timeouts = numservers ∨ 0 < s.errors)) ∨ ∃ final ∈ s.given, shown env.conf final = .ok res

/-- What is so of the client, in a call with that many servers. It has asked as many as were given their time, and
the one it waits for, and does not wait too long. -/
def State.Timely (env : Env) (numservers : ℕ) (s : State) : Phase → Prop
  | .waiting n tv waited => 1 ≤ n ∧ n + s.timeouts = numservers ∧ waited ≤ tv ∧
      s.clock + tv ≤ waited + firstTv * (s.timeouts + 1) + 11000000 * s.progressed
  | .returned res t => t ≤ firstTv * numservers + 11000000 * s.progressed ∧ s.Because env numservers res

/-- What is so all the time. -/
structure Inv (env : Env) (numservers : ℕ) (s : State) : Prop where
  /-- What is tested is what was asked about. -/
  jobs : ∀ j ∈ s.jobs, j.tuple = env.question.tuple
  /-- An answer says that it takes longer, or what a server has found. -/
  answers : ∀ text ∈ s.answers, text = ['P'] ∨ ∃ final ∈ s.given, response env.conf final = .ok text
  /-- The client. -/
  phase : s.Timely env numservers s.phase

section Inv

variable {env : Env} {numservers : ℕ} {s : State}

theorem inv_begin (h : 1 ≤ numservers) : Inv env numservers (begin numservers) where
  jobs _ hj := absurd hj List.not_mem_nil
  answers _ ht := absurd ht List.not_mem_nil
  phase := ⟨h, rfl, Nat.zero_le _, by simp [begin]⟩

theorem Inv.tick (h : Inv env numservers s) (d : ℕ) : Inv env numservers (s.tick d) := by
  have hphase := h.phase
  unfold State.tick
  cases hs : s.phase with
  | waiting n tv waited =>
    rw [hs] at hphase
    obtain ⟨hn, hasked, -, hclock⟩ := hphase
    dsimp only
    split_ifs with hd
    · refine ⟨h.jobs, h.answers, hn, hasked, hd, ?_⟩
      dsimp only
      omega
    · exact h
  | returned res t =>
    rw [hs] at hphase
    exact ⟨h.jobs, h.answers, hphase⟩

/-- Of the answers, only those are left that were there, and there is a new one at most. -/
theorem Inv.network (h : Inv env numservers s) {queries : List Bool} {jobs : List Job} {answers : List (List Char)}
    {given : List (Option (FinalStatus (List Char)))} (hjobs : ∀ j ∈ jobs, j.tuple = env.question.tuple)
    (hgiven : ∀ final ∈ s.given, final ∈ given)
    (hanswers : ∀ text ∈ answers, text ∈ s.answers ∨ text = ['P'] ∨ ∃ final ∈ given, response env.conf final = .ok text) :
    Inv env numservers { s with queries := queries, jobs := jobs, answers := answers, given := given } := by
  refine ⟨hjobs, fun text ht => ?_, ?_⟩
  · rcases hanswers text ht with ht | ht
    · refine (h.answers text ht).imp_right ?_
      rintro ⟨final, hfinal, heq⟩
      exact ⟨final, hgiven final hfinal, heq⟩
    · exact ht
  · have hphase := h.phase
    show State.Timely env numservers _ s.phase
    cases hs : s.phase with
    | waiting n tv waited =>
      rw [hs] at hphase
      exact hphase
    | returned res t =>
      rw [hs] at hphase
      refine ⟨hphase.1, hphase.2.imp_right ?_⟩
      rintro ⟨final, hfinal, heq⟩
      exact ⟨final, hgiven final hfinal, heq⟩

/-- The client does not wait longer than it may in all. -/
theorem Inv.clock_le (h : Inv env numservers s) {n tv waited : ℕ} (hs : s.phase = .waiting n tv waited) :
    s.clock ≤ firstTv * numservers + 11000000 * s.progressed := by
  have hphase := h.phase
  rw [hs] at hphase
  obtain ⟨hn, hasked, hwaited, hclock⟩ := hphase
  have hmul : firstTv * (s.timeouts + 1) ≤ firstTv * numservers := Nat.mul_le_mul_left _ (by omega)
  omega

theorem Inv.read (h : Inv env numservers s) {n tv waited : ℕ} (hs : s.phase = .waiting n tv waited) {text : List Char}
    (htext : text = ['P'] ∨ ∃ final ∈ s.given, response env.conf final = .ok text) (left : ℕ) :
    Inv env numservers (s.read n text left) := by
  have hle := h.clock_le hs
  have hphase := h.phase
  rw [hs] at hphase
  obtain ⟨hn, hasked, hwaited, hclock⟩ := hphase
  unfold State.read
  split_ifs with hp
  · have hmod : left % 1000000 < 1000000 := Nat.mod_lt _ (by decide)
    refine ⟨h.jobs, h.answers, hn, hasked, Nat.zero_le _, ?_⟩
    dsimp only [nextTv]
    omega
  · refine ⟨h.jobs, h.answers, hle, .inr ?_⟩
    rcases htext with rfl | ⟨final, hfinal, heq⟩
    · exact absurd rfl hp
    · exact ⟨final, hfinal, (shown_of_response heq).1⟩

theorem Inv.receive (h : Inv env numservers s) (i left : ℕ) : Inv env numservers (s.receive i left) := by
  unfold State.receive
  split
  · rename_i n tv waited text hs ht
    split_ifs
    · have hsub : ∀ t ∈ s.answers.eraseIdx i, t ∈ s.answers := fun t ht => List.mem_of_mem_eraseIdx ht
      have h' : Inv env numservers { s with answers := s.answers.eraseIdx i } :=
        h.network h.jobs (fun _ hf => hf) fun t ht => .inl (hsub t ht)
      exact h'.read hs (h.answers text (List.mem_of_getElem? ht)) left
    · exact h
  · exact h

theorem Inv.recvError (h : Inv env numservers s) : Inv env numservers s.recvError := by
  unfold State.recvError
  cases hs : s.phase with
  | waiting n tv waited => exact ⟨h.jobs, h.answers, h.clock_le hs, .inl ⟨rfl, .inr (Nat.succ_pos _)⟩⟩
  | returned res t => exact h

theorem Inv.timeout (h : Inv env numservers s) : Inv env numservers s.timeout := by
  have hphase := h.phase
  unfold State.timeout
  cases hs : s.phase with
  | waiting n tv waited =>
    rw [hs] at hphase
    obtain ⟨hn, hasked, -, hclock⟩ := hphase
    dsimp only
    split_ifs with hw hlast
    · have heq : numservers = s.timeouts + 1 := by omega
      refine ⟨h.jobs, h.answers, ?_, .inl ⟨rfl, .inl heq.symm⟩⟩
      dsimp only
      rw [heq]
      omega
    · refine ⟨h.jobs, h.answers, by omega, ?_, Nat.zero_le _, ?_⟩
      · dsimp only
        omega
      · dsimp only
        rw [Nat.mul_add firstTv (s.timeouts + 1) 1]
        omega
    · exact h
  | returned res t => exact h

theorem Inv.step (h : Inv env numservers s) (hlen : env.question.text.length ≤ maxlinelen - 4) (a : Act) :
    Inv env numservers (step env s a) := by
  -- what a server tests stays the same
  have hset : ∀ {j : ℕ} {job job' : Job}, s.jobs[j]? = some job → job'.tuple = job.tuple →
      ∀ x ∈ s.jobs.set j job', x.tuple = env.question.tuple := by
    intro j job job' hj htuple x hx
    rcases List.mem_or_eq_of_mem_set hx with hx | rfl
    · exact h.jobs x hx
    · rw [htuple]
      exact h.jobs job (List.mem_of_getElem? hj)
  cases a with
  | tick d => exact h.tick d
  | deliver n =>
    simp only [Exchange.step]
    split
    · refine h.network (fun j hj => ?_) (fun _ hf => hf) fun _ ht => .inl ht
      rw [accept_eq env hlen] at hj
      rcases List.mem_append.mp hj with hj | hj
      · exact h.jobs j hj
      · rw [List.mem_singleton.mp hj]
    · exact h
  | loseQuery n => exact h.network h.jobs (fun _ hf => hf) fun _ ht => .inl ht
  | doubleQuery n => exact h.network h.jobs (fun _ hf => hf) fun _ ht => .inl ht
  | calm j =>
    simp only [Exchange.step]
    split
    · rename_i tuple hj
      split_ifs
      · refine h.network (hset hj rfl) (fun _ hf => hf) fun text ht => ?_
        exact (List.mem_append.mp ht).imp_right fun ht => .inl (List.mem_singleton.mp ht)
      · exact h
    · exact h
  | answer j final =>
    simp only [Exchange.step]
    split
    · rename_i tuple calmed hj
      refine h.network (hset hj rfl) (fun _ hf => List.mem_append_left _ hf) fun text ht => ?_
      refine (List.mem_append.mp ht).imp_right fun ht => .inr ⟨final, List.mem_append_right _ List.mem_cons_self, ?_⟩
      unfold Env.sends at ht
      split at ht
      · rename_i text' heq
        rw [heq, List.mem_singleton.mp ht]
      · cases ht
    · exact h
  | loseAnswer n => exact h.network h.jobs (fun _ hf => hf) fun _ ht => .inl (List.mem_of_mem_eraseIdx ht)
  | doubleAnswer n =>
    refine h.network h.jobs (fun _ hf => hf) fun text ht => .inl ?_
    rcases List.mem_append.mp ht with ht | ht
    · exact ht
    · exact List.mem_of_getElem? (Option.mem_toList.mp ht)
  | receive n left => exact h.receive n left
  | recvError => exact h.recvError
  | timeout => exact h.timeout

/-- The steps of time alone. -/
def Act.OfTime : Act → Prop
  | .tick _ | .timeout => True
  | _ => False

/-- A client that waits, and gets nothing, returns. -/
theorem returns_of_waiting (n tv waited : ℕ) (hs : s.phase = .waiting n tv waited) (hn : 1 ≤ n) (hwaited : waited ≤ tv) :
    ∃ rest : List Act, (∀ a ∈ rest, a.OfTime) ∧ ∃ res t, (rest.foldl (Exchange.step env) s).phase = .returned res t := by
  induction n generalizing s tv waited with
  | zero => cases hn
  | succ n ih =>
    -- the rest of the time that is given to `select`
    let s₁ : State := { s with clock := s.clock + (tv - waited), phase := .waiting (n + 1) tv tv }
    have htick : s.tick (tv - waited) = s₁ := by
      rw [State.tick, hs]
      dsimp only
      rw [Nat.add_sub_cancel' hwaited, if_pos (Nat.le_refl tv)]
    cases n with
    | zero =>
      refine ⟨[.tick (tv - waited), .timeout], by simp [Act.OfTime], none, s₁.clock, ?_⟩
      rw [List.foldl_cons, List.foldl_cons, List.foldl_nil, Exchange.step, htick]
      simp [Exchange.step, State.timeout, s₁]
    | succ n =>
      have htimeout : s₁.timeout.phase = .waiting (n + 1) firstTv 0 := by simp [State.timeout, s₁]
      obtain ⟨rest, hrest, hreturned⟩ := ih firstTv 0 htimeout (Nat.succ_pos n) (Nat.zero_le _)
      refine ⟨.tick (tv - waited) :: .timeout :: rest, ?_, ?_⟩
      · rw [List.forall_mem_cons, List.forall_mem_cons]
        exact ⟨trivial, trivial, hrest⟩
      · rw [List.foldl_cons, List.foldl_cons, Exchange.step, htick, Exchange.step]
        exact hreturned

/-- From wherever it is, time alone makes the client return. -/
theorem Inv.returns (h : Inv env numservers s) :
    ∃ rest : List Act, (∀ a ∈ rest, a.OfTime) ∧ ∃ res t, (rest.foldl (Exchange.step env) s).phase = .returned res t := by
  have hphase := h.phase
  cases hs : s.phase with
  | waiting n tv waited =>
    rw [hs] at hphase
    exact returns_of_waiting n tv waited hs hphase.1 hphase.2.2.1
  | returned res t => exact ⟨[], List.forall_mem_nil _, res, t, hs⟩

end Inv

/-- A question without a name in the greeting. -/
def plainQuestion : Question where
  sender := ascii "bar@bar"
  rcpt := ascii "foo@foo"
  caddr := ascii "127.0.0.2"
  helo := none
  fields := by
    refine ⟨⟨by decide, by decide⟩, ⟨by decide, by decide⟩, ⟨by decide, by decide⟩, fun h hh => ?_⟩
    cases hh

/-- The default texts. -/
def defaultMappings : Mappings where
  responsegrey := "$X4.4.3|$N%reason%".toList
  responsematch := "$Y".toList
  responsetrust := "$Y".toList
  responseblock := "$N%reason%".toList
  no_nul := by decide

/-- Two servers that take up to five seconds. -/
def twoServers : Env := ⟨defaultMappings, 5000, .little, fun _ => .big, blank, plainQuestion⟩

/-- The first server says that it takes longer, and trusts the client two seconds later. Its answer comes twice. -/
def slowTrust : List Act :=
  [.deliver 0, .tick 1000000, .calm 0, .tick 500000, .receive 0 500000, .tick 2000000, .answer 0 (some ⟨.trust, none⟩),
    .doubleAnswer 0, .receive 0 8500000]

end Gross.Sjsms.Exchange
