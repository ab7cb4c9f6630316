import Gross.Foundation.CString
import Gross.Postfix.Parse

/-!
# Queries as text

A client of the other protocol asks by datagram, and says the same as a policy
client of Postfix: some lines `name=value`, and an empty line. `parsequery` is given
the text as a string. It makes a copy, finds each line feed, puts a NUL in its place
and looks at what stands before it. It ends at an empty line, or where no line feed
is left: what stands after the last one is not looked at.

## The model

`queryLoop` is the loop over the copy, from `start` on, with its NUL. All that is
read of the copy is checked (`strchr`).

## What is proved

* `parsequery_ok`, `parsequery_lines` — no string is read past its NUL, and the tuple is
  made of what the lines up to the empty one say.
* `parsePostfix_parsequery` — on the text of a request that is shorter than
  `MAXLINELEN`, `parse_postfix` and `parsequery` say the same.
-/

namespace Gross.Sjsms

open Foundation Utils Postfix

/-- `process_parameter`: whether the parameter is known, and the tuple with it. -/
def processParameter (tuple : GreyTuple) (str : List Char) : Bool × GreyTuple :=
  match tryMatch "sender=".toList str with
  | some v => (true, { tuple with sender := some v })
  | none =>
    match tryMatch "recipient=".toList str with
    | some v => (true, { tuple with recipient := some v })
    | none =>
      match tryMatch "client_address=".toList str with
      | some v => (true, { tuple with clientAddress := some v })
      | none =>
        match tryMatch "helo_name=".toList str with
        | some v => (true, { tuple with heloName := some v })
        | none => (false, tuple)

/-- `request_new` -/
def requestNew : GreyTuple := ⟨none, none, none, none⟩

/-- The loop of `parsequery`. The string at `start` is the line: its line feed has become
a NUL, and there is none before it. -/
def queryLoop (tuple : GreyTuple) (mem : List Char) : Except Fault GreyTuple :=
  match _h : strchr '\x00' '\n' mem with
  | .error fault => .error fault
  | .ok none => .ok tuple
  | .ok (some 0) => .ok tuple
  | .ok (some (k + 1)) => queryLoop (processParameter tuple (mem.take (k + 1))).2 (mem.drop (k + 2))
termination_by mem.length
decreasing_by
  have := lt_of_strchr _h
  rw [List.length_drop]
  omega

/-- `parsequery`. -/
def parsequery (request : List Char) : Except Fault (Option GreyTuple) := do
  let tuple ← queryLoop requestNew (request ++ ['\x00'])
  return if checkRequest tuple then some tuple else none

/-! ### The lines of a query -/

/-- What is kept of a line is what `parse_postfix` keeps of it. -/
theorem processParameter_eq (p : Parse) (line : List Char) :
    (processParameter p.tuple line).2 = (p.matchLine line).tuple := by
  unfold processParameter Parse.matchLine
  cases tryMatch "sender=".toList line with
  | some v => rfl
  | none =>
    cases tryMatch "recipient=".toList line with
    | some v => rfl
    | none =>
      cases tryMatch "client_address=".toList line with
      | some v => rfl
      | none =>
        cases tryMatch "helo_name=".toList line with
        | some v => rfl
        | none => cases tryMatch "grossd_mode=".toList line <;> rfl

/-- What is kept of some lines. -/
def keep (tuple : GreyTuple) (lines : List (List Char)) : GreyTuple :=
  lines.foldl (fun tuple line => (processParameter tuple line).2) tuple

theorem keep_eq (p : Parse) (lines : List (List Char)) :
    keep p.tuple lines = (lines.foldl Parse.matchLine p).tuple := by
  induction lines generalizing p with
  | nil => rfl
  | cons line lines ih => exact (congrArg (keep · lines) (processParameter_eq p line)).trans (ih _)

theorem keep_requestNew (lines : List (List Char)) : keep requestNew lines = pieceTuple lines := by
  obtain ⟨single, h⟩ := foldl_matchLine_new lines false
  rw [show requestNew = (Parse.mk requestNew false).tuple from rfl, keep_eq]
  exact congrArg Parse.tuple h

/-- A line of a query: not empty, and with no NUL and no line feed in it. -/
structure IsQueryLine (line : List Char) : Prop where
  /-- Not empty. -/
  ne_nil : line ≠ []
  /-- No line feed. -/
  no_lf : '\n' ∉ line
  /-- No NUL. -/
  no_nul : '\x00' ∉ line

theorem queryLoop_line {line : List Char} (hl : IsQueryLine line) (tuple : GreyTuple)
    (mem : List Char) : queryLoop tuple (line ++ '\n' :: mem) = queryLoop (processParameter tuple line).2 mem := by
  have hchr : strchr '\x00' '\n' (line ++ '\n' :: mem) = .ok (some line.length) := strchr_append hl.no_lf hl.no_nul mem
  obtain ⟨k, hk⟩ := Nat.exists_eq_add_one_of_ne_zero (Nat.ne_of_gt (List.length_pos_iff.mpr hl.ne_nil))
  rw [hk] at hchr
  rw [queryLoop, hchr]
  simp only
  rw [← hk, List.take_left, show k + 2 = (line ++ ['\n']).length by simp [hk],
    show line ++ '\n' :: mem = line ++ ['\n'] ++ mem by simp, List.drop_left]

theorem queryLoop_empty (tuple : GreyTuple) (mem : List Char) : queryLoop tuple ('\n' :: mem) = .ok tuple := by
  have hchr : strchr '\x00' '\n' ('\n' :: mem) = .ok (some 0) := strchr_append (s := []) (by simp) (by simp) mem
  rw [queryLoop, hchr]

/-- What stands after the last line feed is not looked at. -/
theorem queryLoop_unfinished {s : List Char} (hlf : '\n' ∉ s) (hnul : '\x00' ∉ s) (tuple : GreyTuple) (mem : List Char) :
    queryLoop tuple (s ++ '\x00' :: mem) = .ok tuple := by
  rw [queryLoop, strchr_none hlf hnul (by decide) mem]

theorem queryLoop_lines {lines : List (List Char)} (hl : ∀ line ∈ lines, IsQueryLine line) (tuple : GreyTuple)
    (mem : List Char) : queryLoop tuple (encodeLines lines ++ mem) = queryLoop (keep tuple lines) mem := by
  induction lines generalizing tuple with
  | nil => rfl
  | cons line lines ih =>
    obtain ⟨hline, hlines⟩ := List.forall_mem_cons.mp hl
    rw [encodeLines_cons, queryLoop_line hline, ih hlines]
    rfl

/-- No string is read past its NUL. -/
theorem queryLoop_ok {s : List Char} (hs : '\x00' ∉ s) (tuple : GreyTuple) :
    ∃ tuple', queryLoop tuple (s ++ ['\x00']) = .ok tuple' := by
  induction hn : s.length using Nat.strongRecOn generalizing s tuple with
  | ind n ih =>
    subst hn
    by_cases hlf : '\n' ∈ s
    · obtain ⟨line, rest, rfl, hline⟩ := List.eq_append_cons_of_mem hlf
      rw [List.append_assoc, List.cons_append]
      rw [List.mem_append, not_or] at hs
      by_cases hnil : line = []
      · subst hnil
        exact ⟨tuple, queryLoop_empty tuple _⟩
      · rw [queryLoop_line ⟨hnil, hline, hs.1⟩]
        have hrest : '\x00' ∉ rest := fun h => hs.2 (List.mem_cons_of_mem _ h)
        have hlt : rest.length < (line ++ '\n' :: rest).length := by
          rw [List.length_append, List.length_cons]
          omega
        exact ih rest.length hlt hrest _ rfl
    · exact ⟨tuple, queryLoop_unfinished hlf hs tuple []⟩

theorem parsequery_ok {request : List Char} (h : '\x00' ∉ request) : ∃ r, parsequery request = .ok r := by
  obtain ⟨tuple, htuple⟩ := queryLoop_ok h requestNew
  exact ⟨_, by rw [parsequery, htuple]; rfl⟩

/-- What is kept of a query: what its lines say. -/
theorem parsequery_lines {lines : List (List Char)} (hl : ∀ line ∈ lines, IsQueryLine line) (s : List Char) :
    parsequery (encodeLines lines ++ '\n' :: s) =
      .ok (if checkRequest (pieceTuple lines) then some (pieceTuple lines) else none) := by
  rw [parsequery, List.append_assoc, queryLoop_lines hl, List.cons_append, queryLoop_empty, keep_requestNew]
  rfl

/-- A query that is cut short anywhere: the lines that are whole are kept. -/
theorem parsequery_take {lines : List (List Char)} (hl : ∀ line ∈ lines, IsQueryLine line) (n : ℕ) :
    ∃ k, parsequery ((encodeLines lines ++ ['\n']).take n) =
        .ok (if checkRequest (keep requestNew (lines.take k)) then some (keep requestNew (lines.take k)) else none) ∧
      ((encodeLines lines).length ≤ n → lines.length ≤ k) := by
  have key : ∀ tuple, ∃ k, queryLoop tuple ((encodeLines lines ++ ['\n']).take n ++ ['\x00']) =
      .ok (keep tuple (lines.take k)) ∧ ((encodeLines lines).length ≤ n → lines.length ≤ k) := by
    induction lines generalizing n with
    | nil =>
      intro tuple
      refine ⟨0, ?_, fun _ => le_rfl⟩
      cases n with
      | zero => exact queryLoop_unfinished (s := []) (by simp) (by simp) tuple []
      | succ n => exact queryLoop_empty tuple _
    | cons line lines ih =>
      intro tuple
      obtain ⟨hline, hlines⟩ := List.forall_mem_cons.mp hl
      rw [encodeLines_cons]
      by_cases hn : n ≤ line.length
      · -- the cut is in this line, or just before its line feed
        refine ⟨0, ?_, ?_⟩
        · rw [List.take_append_of_le_length hn]
          exact queryLoop_unfinished (fun h => hline.no_lf (List.mem_of_mem_take h))
            (fun h => hline.no_nul (List.mem_of_mem_take h)) tuple []
        · intro hlen
          have hcons := congrArg List.length (encodeLines_cons line lines [])
          simp only [List.append_nil, List.length_append, List.length_cons] at hcons
          omega
      · obtain ⟨m, rfl⟩ : ∃ m, n = line.length + (m + 1) := ⟨n - line.length - 1, by omega⟩
        obtain ⟨k, hk, hlen⟩ := ih hlines m (processParameter tuple line).2
        refine ⟨k + 1, ?_, ?_⟩
        · rw [List.take_length_add_append, List.take_succ_cons, List.append_assoc, List.cons_append,
            queryLoop_line hline, hk]
          rfl
        · intro h
          have hcons := congrArg List.length (encodeLines_cons line lines [])
          simp only [List.append_nil, List.length_append, List.length_cons] at hcons
          have := hlen (by omega)
          simp only [List.length_cons]
          omega
  obtain ⟨k, hk, hlen⟩ := key requestNew
  refine ⟨k, ?_, hlen⟩
  rw [parsequery, hk]
  rfl

/-! ### Two parsers -/

/-- One or more lines, and an empty one. -/
structure IsRequestText (text : List Char) : Prop where
  /-- The lines are not empty, and there is no NUL and no carriage return in them. -/
  lines : ∃ lines ≠ [], (∀ line ∈ lines, IsLine line) ∧ text = encodeLines lines ++ ['\n']

theorem length_lt_encodeLines {line : List Char} {lines : List (List Char)} (h : line ∈ lines) :
    line.length < (encodeLines lines).length := by
  induction lines with
  | nil => cases h
  | cons l lines ih =>
    have hcons := congrArg List.length (encodeLines_cons l lines [])
    simp only [List.append_nil, List.length_append, List.length_cons] at hcons
    rcases List.mem_cons.mp h with rfl | h
    · omega
    · have := ih h
      omega

/-- **Two parsers, one grammar**: on the text of a request that fits the buffer, reading it
from a connection and parsing it as a string give the same: both fail, or both give the
same tuple. -/
theorem parsePostfix_parsequery {text : List Char} (htext : IsRequestText text) (hlen : text.length ≤ 1023)
    (single broken : Bool) (s : List Char) :
    ∃ r, parsequery text = .ok r ∧
      ((parsePostfix single ⟨text ++ s, broken⟩).1 = .ok ↔ r.isSome) ∧
      ∀ tuple, r = some tuple → (parsePostfix single ⟨text ++ s, broken⟩).2.1.tuple = tuple := by
  obtain ⟨lines, hne, hl, rfl⟩ := htext.lines
  rw [List.length_append, List.length_singleton] at hlen
  -- every line fits the buffer, so `readline` gives the lines as they are
  have hfits : ∀ line ∈ lines, line.length < maxlinelen - 1 := by
    intro line hline
    have := length_lt_encodeLines hline
    show line.length < 1023
    omega
  obtain ⟨single', hparse⟩ := parsePostfix_lines hl hne hfits single s broken
  have hquery : ∀ line ∈ lines, IsQueryLine line := by
    intro line hline
    have := hl line hline
    exact ⟨this.ne_nil, fun h => (this.plain _ h).1 rfl, this.no_nul⟩
  rw [List.append_assoc, List.singleton_append, hparse, Parse.finish]
  refine ⟨_, parsequery_lines hquery [], ?_, ?_⟩
  · split_ifs <;> simp
  · intro tuple htuple
    split_ifs at htuple
    cases htuple
    rfl

/-- A request with all that is needed. -/
def plainRequest : List (List Char) := ["sender=a".toList, "recipient=b".toList, "client_address=1".toList]

theorem isRequestText_plainRequest : IsRequestText (encodeLines plainRequest ++ ['\n']) := by
  refine ⟨plainRequest, List.cons_ne_nil _ _, ?_, rfl⟩
  have hall : ∀ line ∈ plainRequest, line ≠ [] ∧
      (line.all fun c => decide (c ≠ '\x00' ∧ c ≠ '\n' ∧ c ≠ '\r')) = true := by
    decide
  intro line hline
  exact isLine_of_all (hall line hline).1 (hall line hline).2

theorem parsePostfix_parsequery_plainRequest :
    ∃ r, parsequery (encodeLines plainRequest ++ ['\n']) = .ok r ∧
      ((parsePostfix false ⟨encodeLines plainRequest ++ ['\n'] ++ [], false⟩).1 = .ok ↔ r.isSome) ∧
      ∀ tuple, r = some tuple →
        (parsePostfix false ⟨encodeLines plainRequest ++ ['\n'] ++ [], false⟩).2.1.tuple = tuple :=
  parsePostfix_parsequery isRequestText_plainRequest (by decide) false false []

end Gross.Sjsms
