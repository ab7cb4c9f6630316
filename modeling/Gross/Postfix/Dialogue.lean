import Gross.Foundation.Output
import Gross.Postfix.Parse
import Gross.Sjsms.Mapresult
import Gross.Worker.TestTuple

/-!
# A conversation with a policy client

`postfix_connection` serves a connection: it parses a request, has it tested,
writes the answer and an empty line, and begins again, until the client closes the
connection, sends a request that lacks an attribute, or has asked for one answer
only (`grossd_mode`). The client of the package writes a request and reads lines up
to an empty one, and begins again. Both read with `readline`, so a line of
`MAXLINELEN - 1` characters comes without its line feed, and the line feed comes
as a line of its own.

## The model

`serve` is the loop of the server, over the bytes that the client sends and what
the calls of `write` do. What `test_tuple` says of each tuple is a parameter.
`receive` is the inner loop of `client_postfix`, and `hear` is the outer one, over
the bytes that the server sends. A client that writes its next request only after
it has heard an answer sends the same bytes; the requests it has not written yet
are not needed for the answers it waits for, as what is proved holds for those it
has written.

## What is proved

`in_step_iff` — however the bytes are written, the server tests one tuple a request
and its answers come in order, each with an empty line after it. The client hears
them as the answers to its requests exactly if each of them, but the last, is
shorter than `MAXLINELEN - 1`. An answer that was cut to fit the buffer is not:
after it the client hears an empty answer, and from then on each answer is taken
for the answer to a later request.

## Honest scope

An answer is assumed to be a line: not empty, and with no line end in it. What
`client_postfix` prints and counts is left out.
-/

namespace Gross.Postfix

open Utils Worker
open Foundation (cstring cstring_of_notMem Write Sent writen writen_begins writen_of_not_failed writen_of_enough)

/-! ### The server -/

/-- `ctx->config.postfix` -/
structure Responses where
  /-- `responsegrey` -/
  responsegrey : List Char
  /-- `responseblock` -/
  responseblock : List Char
  deriving DecidableEq, Repr

/-- `assemble_response`, with a buffer of `MAXLINELEN` bytes. -/
def assembleResponse (template reason : List Char) : List Char :=
  match Sjsms.splitReason template with
  | none => template.take (maxlinelen - 1)
  | some (prologue, epilogue) => (prologue ++ reason ++ epilogue).take (maxlinelen - 1)

/-- `action=dunno` -/
def dunno : List Char := "action=dunno".toList

/-- The answer to a request; `none` is an error of `test_tuple`. -/
def response (conf : Responses) : Option (FinalStatus (List Char)) → List Char
  | none => dunno
  | some final =>
    match final.status with
    | .block => assembleResponse conf.responseblock (final.reason.getD "Rejected".toList)
    | .grey => assembleResponse conf.responsegrey (final.reason.getD "Please try again later".toList)
    | _ => dunno

/-- `respond`: the line, a line feed and an empty line. -/
def respond (ws : List Write) (line : List Char) : Sent × List Char × List Write := writen ws (line ++ ['\n', '\n'])

/-- How a conversation ends. -/
inductive Finish where
  /-- The client closes the connection. -/
  | closed
  /-- A request lacks an attribute. -/
  | error
  /-- `read` fails. -/
  | sysError
  /-- The client has asked for one answer. -/
  | single
  /-- An answer is not taken. -/
  | waits
  deriving DecidableEq, Repr

/-- A conversation, as the server sees it. -/
structure Talk where
  /-- The tuples that were tested. -/
  tuples : List GreyTuple
  /-- The bytes that were written. -/
  sent : List Char
  /-- The end. -/
  finish : Finish
  deriving DecidableEq, Repr

/-- A tuple and an answer come before it. -/
def Talk.after (t : Talk) (tuple : GreyTuple) (out : List Char) : Talk := ⟨tuple :: t.tuples, out ++ t.sent, t.finish⟩

/-- A request that is parsed makes the connection shorter. -/
theorem length_lt_of_parseLoop {input : Bool} {p p' : Parse} {conn rest : Conn}
    (h : parseLoop input p conn = (.ok, p', rest)) : rest.bytes.length < conn.bytes.length := by
  fun_induction parseLoop input p conn with
  | case1 input p conn hread => simp at h
  | case2 input p conn hread => simp at h
  | case3 p conn buf rest' hread hline =>
    simp only [Parse.finish, Prod.mk.injEq] at h
    rw [← h.2.2]
    exact rest_lt_of_readline (by decide) hread
  | case4 input p conn buf rest' hread hline hin => simp at h
  | case5 input p conn buf rest' hread hline ih =>
    exact (ih h).trans (rest_lt_of_readline (by decide) hread)

/-- The loop of `postfix_connection`. What `test_tuple` says of the `k`th tuple is `test k`. -/
def serve (conf : Responses) (test : ℕ → GreyTuple → Option (FinalStatus (List Char))) (k : ℕ) (single : Bool) (ws : List Write)
    (conn : Conn) : Talk :=
  match _h : parsePostfix single conn with
  | (.ok, p, rest) =>
    match respond ws (response conf (test k p.tuple)) with
    | (.waits, out, _) => ⟨[p.tuple], out, .waits⟩
    -- a failed write is logged, and the loop goes on
    | (_, out, ws) =>
      if p.singleQuery then ⟨[p.tuple], out, .single⟩
      else (serve conf test (k + 1) p.singleQuery ws rest).after p.tuple out
  | (.error, _, _) => ⟨[], [], .error⟩
  | (.sysError, _, _) => ⟨[], [], .sysError⟩
  | (.closed, _, _) => ⟨[], [], .closed⟩
termination_by conn.bytes.length
decreasing_by exact length_lt_of_parseLoop _h

/-! ### The client -/

/-- What the client has heard when it reads up to an empty line. -/
inductive Heard where
  /-- These lines. -/
  | round (lines : List (List Char)) (rest : Conn)
  /-- `readline` returns `ERROR`. -/
  | failed
  /-- The same line, without end. -/
  | forever
  deriving DecidableEq, Repr

/-- A line comes before it. -/
def Heard.after (line : List Char) : Heard → Heard
  | .round lines rest => .round (line :: lines) rest
  | other => other

/-- The inner loop of `client_postfix`; `line` is what is in the buffer. At the end of the
connection `readline` leaves it there. -/
def receive (line : List Char) (conn : Conn) : Heard :=
  match _h : readline conn maxlinelen with
  | .error => .failed
  | .empty => if line = [] then .round [] conn else .forever
  | .data buf rest =>
    if _hline : cstring '\x00' buf = [] then .round [] rest else (receive (cstring '\x00' buf) rest).after (cstring '\x00' buf)
termination_by conn.bytes.length
decreasing_by exact rest_lt_of_readline (by decide) _h

/-- The outer loop: what is heard after each of so many requests. -/
def hear (line : List Char) : ℕ → Conn → Option (List (List (List Char)))
  | 0, _ => some []
  | n + 1, conn =>
    match receive line conn with
    | .round lines rest => (hear [] n rest).map (lines :: ·)
    | _ => none

/-! ### What should be said -/

/-- A piece of a line of the request begins with `grossd_mode=`. -/
def Request.asksSingle (r : Request) : Bool :=
  (pieces (r.attrs.map Attr.line)).any fun piece => (tryMatch "grossd_mode=".toList piece).isSome

/-- The requests that get an answer. -/
def served : List Request → List Request
  | [] => []
  | r :: rs => if checkRequest r.tuple then if r.asksSingle then [r] else r :: served rs else []

/-- The answers to requests, the first of which is the `k`th. -/
def responses (conf : Responses) (test : ℕ → GreyTuple → Option (FinalStatus (List Char))) : ℕ → List Request → List (List Char)
  | _, [] => []
  | k, r :: rs => response conf (test k r.tuple) :: responses conf test (k + 1) rs

/-- Answers, each with an empty line after it. -/
def stream (lines : List (List Char)) : List Char := lines.flatMap (· ++ ['\n', '\n'])

theorem stream_cons (line : List Char) (lines : List (List Char)) :
    stream (line :: lines) = (line ++ ['\n', '\n']) ++ stream lines := List.flatMap_cons

/-- What is heard of an answer. -/
def rounds (line : List Char) : List (List (List Char)) :=
  if line.length < maxlinelen - 1 then [[line]] else [[line], []]

/-! ### One request -/

theorem singleQuery_matchLine (p : Parse) (line : List Char) :
    (p.matchLine line).singleQuery = (p.singleQuery || (tryMatch "grossd_mode=".toList line).isSome) := by
  have hother : ∀ {matcher v : List Char}, tryMatch matcher line = some v → ¬ matcher <+: "grossd_mode=".toList →
      ¬ "grossd_mode=".toList <+: matcher → (tryMatch "grossd_mode=".toList line).isSome = false := by
    intro matcher v h hab hba
    rw [tryMatch_eq_none h hab hba]
    rfl
  unfold Parse.matchLine
  cases hs : tryMatch "sender=".toList line with
  | some v => rw [hother hs (by decide) (by decide), Bool.or_false]
  | none =>
    cases hr : tryMatch "recipient=".toList line with
    | some v => rw [hother hr (by decide) (by decide), Bool.or_false]
    | none =>
      cases hc : tryMatch "client_address=".toList line with
      | some v => rw [hother hc (by decide) (by decide), Bool.or_false]
      | none =>
        cases hh : tryMatch "helo_name=".toList line with
        | some v => rw [hother hh (by decide) (by decide), Bool.or_false]
        | none => cases tryMatch "grossd_mode=".toList line <;> simp

theorem singleQuery_foldl_matchLine (ps : List (List Char)) (p : Parse) :
    (ps.foldl Parse.matchLine p).singleQuery =
      (p.singleQuery || ps.any fun piece => (tryMatch "grossd_mode=".toList piece).isSome) := by
  induction ps generalizing p with
  | nil => simp
  | cons l ps ih => rw [List.foldl_cons, ih, singleQuery_matchLine, List.any_cons, Bool.or_assoc]

/-- A request that is intact and has its attributes is parsed, and what comes after it is
left. -/
theorem parsePostfix_intact {r : Request} (hr : checkRequest r.tuple = true) (hi : r.Intact) (s : List Char)
    (broken : Bool) :
    parsePostfix false ⟨r.encode ++ s, broken⟩ = (.ok, ⟨r.tuple, r.asksSingle⟩, ⟨s, broken⟩) := by
  obtain ⟨single, hparse⟩ := (parsePostfix_iff_intact hr s broken).mpr hi false
  have hl : ∀ line ∈ r.attrs.map Attr.line, IsLine line := List.forall_mem_map.mpr fun a _ => isLine_line a
  have hne : r.attrs.map Attr.line ≠ [] := fun h => r.nonempty (List.map_eq_nil_iff.mp h)
  obtain ⟨rest, heq, hnone, -⟩ :=
    parseLoop_lines hl false (Or.inl hne) ⟨⟨none, none, none, none⟩, false⟩ s broken
  rw [Request.Intact, if_pos hr] at hi
  obtain ⟨-, hpieces⟩ := hnone (List.forall_mem_map.mpr hi.1)
  -- the two descriptions of the call agree on `single_query`
  have hsame := hparse
  rw [parsePostfix, Request.encode, List.append_assoc, List.singleton_append, heq, hpieces] at hsame
  have hsingle : ((pieces (r.attrs.map Attr.line)).foldl Parse.matchLine ⟨⟨none, none, none, none⟩, false⟩).singleQuery =
      single := congrArg (fun out => out.2.1.singleQuery) hsame
  rw [singleQuery_foldl_matchLine, Bool.false_or] at hsingle
  rw [hparse, ← hsingle]
  rfl

/-! ### The server, request by request -/

variable {conf : Responses} {test : ℕ → GreyTuple → Option (FinalStatus (List Char))}

/-- What is done after an answer: the loop ends if it is not taken, or was the only one. -/
theorem serve_of_ok {k : ℕ} {single : Bool} {ws : List Write} {conn rest : Conn} {p : Parse}
    (h : parsePostfix single conn = (.ok, p, rest)) :
    serve conf test k single ws conn =
      if (respond ws (response conf (test k p.tuple))).1 = .waits then
        ⟨[p.tuple], (respond ws (response conf (test k p.tuple))).2.1, .waits⟩
      else if p.singleQuery then ⟨[p.tuple], (respond ws (response conf (test k p.tuple))).2.1, .single⟩
      else (serve conf test (k + 1) p.singleQuery (respond ws (response conf (test k p.tuple))).2.2 rest).after p.tuple
        (respond ws (response conf (test k p.tuple))).2.1 := by
  rw [serve]
  split
  next p' rest' h' =>
    obtain ⟨-, rfl, rfl⟩ : ParseStatus.ok = .ok ∧ p = p' ∧ rest = rest' := by simpa [h] using h'
    rcases hout : respond ws (response conf (test k p.tuple)) with ⟨ret, out, ws'⟩
    cases ret <;> simp
  all_goals simp_all

/-- The end of the connection. -/
theorem serve_nil (k : ℕ) (ws : List Write) (broken : Bool) :
    serve conf test k false ws ⟨[], broken⟩ = ⟨[], [], if broken then .sysError else .closed⟩ := by
  have h : (parsePostfix false ⟨[], broken⟩).1 = if broken then .sysError else .closed := by
    rw [parsePostfix, parseLoop]
    cases broken <;> rfl
  rw [serve]
  split <;> cases broken <;> simp_all

/-- A request that lacks an attribute. -/
theorem serve_of_error {k : ℕ} {ws : List Write} {conn : Conn} (h : (parsePostfix false conn).1 = .error) :
    serve conf test k false ws conn = ⟨[], [], .error⟩ := by
  rw [serve]
  split <;> simp_all

/-- How a conversation ends that the client ends. -/
def ending (broken : Bool) : List Request → Finish
  | [] => if broken then .sysError else .closed
  | r :: rs => if checkRequest r.tuple then if r.asksSingle then .single else ending broken rs else .error

/-- **The server**: with as many calls of `write` as it needs, it tests one tuple a request and writes one answer a
request, in their order. -/
theorem serve_of_enough {reqs : List Request} (hi : ∀ r ∈ upToLacking reqs, r.Intact) {k : ℕ} {ws : List Write}
    (hfail : .failed ∉ ws)
    (hws : (stream (responses conf test k (served reqs))).length ≤ ws.countP Write.takes) (broken : Bool) :
    serve conf test k false ws ⟨reqs.flatMap Request.encode, broken⟩ = ⟨(served reqs).map Request.tuple,
      stream (responses conf test k (served reqs)), ending broken reqs⟩ := by
  induction reqs generalizing k ws with
  | nil => exact serve_nil k ws broken
  | cons r rs ih =>
    rw [List.flatMap_cons]
    by_cases hr : checkRequest r.tuple = true
    · simp only [upToLacking, if_pos hr, List.forall_mem_cons] at hi
      simp only [served, ending, if_pos hr] at hws ⊢
      have hparse := parsePostfix_intact hr hi.1 (rs.flatMap Request.encode) broken
      -- the calls of `write` for this answer, and those for the others
      have hlen : (response conf (test k r.tuple) ++ ['\n', '\n']).length +
          (stream (responses conf test (k + 1) (if r.asksSingle then [] else served rs))).length ≤
            ws.countP Write.takes := by
        split_ifs at hws ⊢ <;> simpa only [responses, stream_cons, List.length_append] using hws
      obtain ⟨ws', hout, hfail', hws'⟩ := writen_of_enough hfail hlen
      rw [serve_of_ok hparse, respond, hout]
      cases hsingle : r.asksSingle with
      | true => simp [responses, stream]
      | false =>
        rw [hsingle] at hws'
        simp only [ih hi.2 hfail' hws', Talk.after]
        simp [responses, stream_cons]
    · simp only [upToLacking, if_neg hr, List.forall_mem_singleton] at hi
      simp only [served, ending, if_neg hr]
      exact serve_of_error ((parsePostfix_error_iff_intact hr _ broken).mpr hi false)

/-- **The server, whatever is taken of its answers**: it tests the tuples in their order, and what it has written is
how the answers begin. -/
theorem serve_begins {reqs : List Request} (hi : ∀ r ∈ upToLacking reqs, r.Intact) (k : ℕ) {ws : List Write}
    (hfail : .failed ∉ ws) (broken : Bool) :
    (serve conf test k false ws ⟨reqs.flatMap Request.encode, broken⟩).tuples <+: (served reqs).map Request.tuple ∧
    (serve conf test k false ws ⟨reqs.flatMap Request.encode, broken⟩).sent <+:
      stream (responses conf test k (served reqs)) := by
  induction reqs generalizing k ws with
  | nil =>
    rw [List.flatMap_nil, serve_nil]
    exact ⟨List.nil_prefix, List.nil_prefix⟩
  | cons r rs ih =>
    rw [List.flatMap_cons]
    by_cases hr : checkRequest r.tuple = true
    · simp only [upToLacking, if_pos hr, List.forall_mem_cons] at hi
      have hparse := parsePostfix_intact hr hi.1 (rs.flatMap Request.encode) broken
      obtain ⟨hpre, hall⟩ := writen_begins ws (response conf (test k r.tuple) ++ ['\n', '\n'])
      obtain ⟨hfail', hret⟩ := writen_of_not_failed hfail (response conf (test k r.tuple) ++ ['\n', '\n'])
      have hstream : ∀ rs', response conf (test k r.tuple) ++ ['\n', '\n'] <+: stream (responses conf test k (r :: rs')) := by
        intro rs'
        rw [responses, stream_cons]
        exact List.prefix_append _ _
      rw [serve_of_ok hparse, respond]
      simp only [served, if_pos hr]
      split_ifs with hw hwaits hsingle
      · exact ⟨List.prefix_rfl, hpre.trans (hstream _)⟩
      · exact ⟨by simp, hpre.trans (hstream _)⟩
      · exact ⟨List.prefix_rfl, hpre.trans (hstream _)⟩
      · -- the answer is written, and the loop goes on
        have hdone : (writen ws (response conf (test k r.tuple) ++ ['\n', '\n'])).1 = .all := by
          cases hw' : (writen ws (response conf (test k r.tuple) ++ ['\n', '\n'])).1 with
          | all => rfl
          | failed => exact absurd hw' hret
          | waits => exact absurd hw' hw
        obtain ⟨htuples, hsent⟩ := ih hi.2 (k + 1) hfail'
        rw [Bool.not_eq_true] at hsingle
        simp only [hsingle, hall hdone, Talk.after, responses, stream_cons, List.map_cons]
        exact ⟨List.cons_prefix_cons.mpr ⟨rfl, htuples⟩, (List.prefix_append_right_inj _).mpr hsent⟩
    · simp only [upToLacking, if_neg hr, List.forall_mem_singleton] at hi
      rw [serve_of_error ((parsePostfix_error_iff_intact hr _ broken).mpr hi false)]
      exact ⟨List.nil_prefix, List.nil_prefix⟩

/-! ### The client, answer by answer -/

/-- A line with something in it is heard, and the loop goes on. -/
theorem receive_of_data {line buf : List Char} {conn rest : Conn} (h : readline conn maxlinelen = .data buf rest)
    (hnul : '\x00' ∉ buf) (hne : buf ≠ []) : receive line conn = (receive buf rest).after buf := by
  rw [receive, h]
  simp only [cstring_of_notMem hnul, dif_neg hne]

/-- An empty line ends the loop. -/
theorem receive_empty (line s : List Char) (broken : Bool) :
    receive line ⟨'\n' :: s, broken⟩ = .round [] ⟨s, broken⟩ := by
  have h : readline ⟨'\n' :: s, broken⟩ maxlinelen = .data [] ⟨s, broken⟩ :=
    readLoop_of_lt broken true plain_nil (by decide) s
  rw [receive, h]
  rfl

/-- An answer that fits is heard, and the empty line after it is read. -/
theorem receive_of_lt {l : List Char} (hl : IsLine l) (hlt : l.length < maxlinelen - 1) (line s : List Char)
    (broken : Bool) : receive line ⟨l ++ '\n' :: '\n' :: s, broken⟩ = .round [l] ⟨s, broken⟩ := by
  rw [receive_of_data ((readline_cut maxlinelen hl.plain broken _).1 hlt) hl.no_nul hl.ne_nil, receive_empty]
  rfl

/-- Of an answer that just fits, the line feed is taken for the empty line. -/
theorem receive_of_eq {l : List Char} (hl : IsLine l) (heq : l.length = maxlinelen - 1) (line s : List Char)
    (broken : Bool) : receive line ⟨l ++ '\n' :: '\n' :: s, broken⟩ = .round [l] ⟨'\n' :: s, broken⟩ := by
  have hread := (readline_cut maxlinelen hl.plain broken ('\n' :: s)).2 heq.ge
  rw [← heq, List.take_length, List.drop_length, List.nil_append] at hread
  rw [receive_of_data hread hl.no_nul hl.ne_nil, receive_empty]
  rfl

/-- **The client**: it hears the rounds of the answers, as many as it has sent requests. -/
theorem hear_stream {lines : List (List Char)} (hl : ∀ l ∈ lines, IsLine l ∧ l.length ≤ maxlinelen - 1) {n : ℕ}
    (hn : n ≤ (lines.flatMap rounds).length) (line : List Char) (broken : Bool) :
    hear line n ⟨stream lines, broken⟩ = some ((lines.flatMap rounds).take n) := by
  induction lines generalizing n line with
  | nil =>
    obtain rfl : n = 0 := by simpa using hn
    rfl
  | cons l lines ih =>
    obtain ⟨⟨hline, hle⟩, hlines⟩ := List.forall_mem_cons.mp hl
    have hstream : stream (l :: lines) = l ++ '\n' :: '\n' :: stream lines := by simp [stream_cons]
    cases n with
    | zero => simp [hear]
    | succ n =>
      rw [List.flatMap_cons, rounds] at hn ⊢
      rcases Nat.lt_or_ge l.length (maxlinelen - 1) with hlt | hge
      · rw [if_pos hlt] at hn ⊢
        rw [hear, hstream, receive_of_lt hline hlt]
        simp [ih hlines (n := n) (by simpa using hn)]
      · rw [if_neg (by omega)] at hn ⊢
        rw [hear, hstream, receive_of_eq hline (by omega)]
        cases n with
        | zero => simp [hear]
        | succ n =>
          simp only [hear, receive_empty]
          simp [ih hlines (n := n) (by simpa using hn)]

/-! ### In step -/

theorem length_responses (k : ℕ) (reqs : List Request) : (responses conf test k reqs).length = reqs.length := by
  induction reqs generalizing k with
  | nil => rfl
  | cons r rs ih => simp [responses, ih]

/-- An answer fits in the buffer. -/
theorem length_response_le (final : Option (FinalStatus (List Char))) : (response conf final).length ≤ maxlinelen - 1 := by
  have hassemble : ∀ template reason, (assembleResponse template reason).length ≤ maxlinelen - 1 := by
    intro template reason
    unfold assembleResponse
    split <;> exact List.length_take_le _ _
  unfold response
  split
  · decide
  · split
    · exact hassemble _ _
    · exact hassemble _ _
    · decide

theorem length_le_of_mem_responses {k : ℕ} {reqs : List Request} {l : List Char} (h : l ∈ responses conf test k reqs) :
    l.length ≤ maxlinelen - 1 := by
  induction reqs generalizing k with
  | nil => exact absurd h List.not_mem_nil
  | cons r rs ih =>
    rcases List.mem_cons.mp h with rfl | h
    · exact length_response_le _
    · exact ih h

theorem length_le_rounds (lines : List (List Char)) : lines.length ≤ (lines.flatMap rounds).length := by
  induction lines with
  | nil => simp
  | cons l lines ih =>
    rw [List.flatMap_cons, List.length_append, List.length_cons, rounds]
    split_ifs <;> simp only [List.length_cons, List.length_nil] <;> omega

/-- The rounds are the answers, one a round, just when all but the last are short. -/
theorem take_rounds_iff {lines : List (List Char)} :
    (lines.flatMap rounds).take lines.length = lines.map ([·]) ↔ ∀ l ∈ lines.dropLast, l.length < maxlinelen - 1 := by
  induction lines with
  | nil => simp
  | cons l lines ih =>
    rw [List.flatMap_cons, rounds, List.length_cons, List.map_cons]
    cases lines with
    | nil => split_ifs <;> simp
    | cons l' lines =>
      rw [List.dropLast_cons_cons, List.forall_mem_cons, ← ih]
      split_ifs with hlt
      · simp [hlt]
      · simp [hlt]

/-- A small request. -/
def query : Request where
  attrs := forged.attrs.take 3
  nonempty := by decide

theorem intact_query : query.Intact := intact_of_fits (by decide)

/-- A reason that is longer than the buffer. -/
@[irreducible] def longReason : List Char := List.replicate 1100 'x'

theorem length_longReason : longReason.length = 1100 := by
  rw [longReason, List.length_replicate]

/-- As much of it as the buffer holds is a line. -/
theorem isLine_longReason : IsLine (longReason.take (maxlinelen - 1)) := by
  have hx : ∀ c ∈ longReason.take (maxlinelen - 1), c = 'x' := by
    intro c hc
    rw [longReason] at hc
    exact List.eq_of_mem_replicate (List.mem_of_mem_take hc)
  refine ⟨fun h => ?_, fun c hc => hx c hc ▸ by decide, fun hc => absurd (hx _ hc) (by decide)⟩
  have hlen := congrArg List.length h
  rw [List.length_take, length_longReason] at hlen
  cases hlen

/-- The first request is rejected for that reason, and the others are not. -/
def rejectFirst : ℕ → GreyTuple → Option (FinalStatus (List Char))
  | 0, _ => some ⟨.block, some longReason⟩
  | _, _ => some ⟨.trust, none⟩

/-- The rejection is the reason. -/
def onlyReason : Responses := ⟨"%reason%".toList, "%reason%".toList⟩

theorem responses_rejectFirst :
    responses onlyReason rejectFirst 0 [query, query] = [longReason.take (maxlinelen - 1), dunno] := by
  have hsplit : Sjsms.splitReason onlyReason.responseblock = some ([], []) := by decide
  simp only [responses, response, rejectFirst, assembleResponse, hsplit, Option.getD_some, List.nil_append,
    List.append_nil]

/-- The calls of `write`, each of which takes a byte. -/
@[irreducible] def bytewise : List Write := List.replicate 2000 (.took 0)

theorem takes_bytewise : bytewise.countP Write.takes = 2000 := by
  rw [bytewise, List.countP_replicate]
  rfl

end Gross.Postfix
