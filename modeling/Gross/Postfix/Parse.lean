import Gross.Foundation.CString
import Gross.Utils.Readline

/-!
# Requests of a policy client

A mail server asks over a connection: a request is some lines `name=value`, and
an empty line. `parse_postfix` reads lines up to an empty one and keeps the
values of the attributes it knows: `sender`, `recipient`, `client_address` and
`helo_name`. The lines are read with `readline`, into a buffer of `MAXLINELEN`
bytes.

## The model

`parsePostfix` is the loop of the source over a connection (`Conn`). A buffer is
the C string up to its first NUL. `Request` is what a client should send.

## What is proved

`parses_iff` — when successive calls return one tuple a request, with the last
value of each attribute, up to the first request that lacks one: exactly when,
in each of these requests, no line is a multiple of `MAXLINELEN - 1` bytes long,
and the pieces that longer lines are cut in give no attribute another value. A
piece of a long line is taken for a line of its own, so the value of one attribute
can set another (`parsePostfix_forged`).

## Honest scope

"One tuple a request" means that each call reads just the bytes of its request.
A connection whose last request is cut short is not counted as parsed, even if
the tuple is the right one.
-/

namespace Gross.Postfix

open Utils
open Foundation (cstring cstring_of_notMem)

/-- `MAXLINELEN` -/
def maxlinelen : ℕ := 1024

/-- `grey_tuple_t`; a field that is not set is `none`. -/
structure GreyTuple where
  /-- `sender` -/
  sender : Option (List Char)
  /-- `recipient` -/
  recipient : Option (List Char)
  /-- `client_address` -/
  clientAddress : Option (List Char)
  /-- `helo_name` -/
  heloName : Option (List Char)
  deriving DecidableEq, Repr

/-- What `parse_postfix` fills in: the tuple, and `single_query` of the client. -/
structure Parse where
  /-- The tuple. -/
  tuple : GreyTuple
  /-- `client_info->single_query` -/
  singleQuery : Bool
  deriving DecidableEq, Repr

/-- What `parse_postfix` returns. -/
inductive ParseStatus where
  /-- `PARSE_OK` -/
  | ok
  /-- `PARSE_ERROR` -/
  | error
  /-- `PARSE_SYS_ERROR` -/
  | sysError
  /-- `PARSE_CLOSED` -/
  | closed
  deriving DecidableEq, Repr

/-- `try_match`. -/
def tryMatch (matcher matchee : List Char) : Option (List Char) :=
  if matcher.isPrefixOf matchee then some (matchee.drop matcher.length) else none

/-- `check_request`. -/
def checkRequest (tuple : GreyTuple) : Bool :=
  tuple.sender.isSome && tuple.recipient.isSome && tuple.clientAddress.isSome

/-- The matching switch of `parse_postfix`. -/
def Parse.matchLine (p : Parse) (line : List Char) : Parse :=
  match tryMatch "sender=".toList line with
  | some v => { p with tuple := { p.tuple with sender := some v } }
  | none =>
    match tryMatch "recipient=".toList line with
    | some v => { p with tuple := { p.tuple with recipient := some v } }
    | none =>
      match tryMatch "client_address=".toList line with
      | some v => { p with tuple := { p.tuple with clientAddress := some v } }
      | none =>
        match tryMatch "helo_name=".toList line with
        | some v => { p with tuple := { p.tuple with heloName := some v } }
        | none =>
          match tryMatch "grossd_mode=".toList line with
          | some _ => { p with singleQuery := true }
          | none => p

/-- What comes after the loop. -/
def Parse.finish (p : Parse) (conn : Conn) : ParseStatus × Parse × Conn :=
  (if checkRequest p.tuple then .ok else .error, p, conn)

/-- The loop of `parse_postfix`; the flag is `input`. -/
def parseLoop (input : Bool) (p : Parse) (conn : Conn) : ParseStatus × Parse × Conn :=
  match _h : readline conn maxlinelen with
  | .error => (.sysError, p, ⟨[], conn.broken⟩)
  | .empty => (.closed, p, conn)
  | .data buf rest =>
    if _hline : cstring '\x00' buf = [] then
      if input then (p.matchLine []).finish rest else (.closed, p, rest)
    else parseLoop true (p.matchLine (cstring '\x00' buf)) rest
termination_by conn.bytes.length
decreasing_by
  refine length_lt_of_readline _h fun hbuf => _hline ?_
  rw [hbuf]
  rfl

/-- `parse_postfix`, with a new tuple. -/
def parsePostfix (singleQuery : Bool) (conn : Conn) : ParseStatus × Parse × Conn :=
  parseLoop false ⟨⟨none, none, none, none⟩, singleQuery⟩ conn

/-! ### What a client sends -/

/-- A line `name=value`. -/
structure Attr where
  /-- The name. -/
  name : List Char
  /-- The value. -/
  value : List Char
  /-- The name ends at the first equals sign. -/
  name_eq : '=' ∉ name
  /-- No NUL, no carriage return and no line feed. -/
  plain : ∀ c ∈ name ++ value, c ≠ '\x00' ∧ c ≠ '\n' ∧ c ≠ '\r'

/-- The line. -/
def Attr.line (a : Attr) : List Char := a.name ++ '=' :: a.value

/-- A request: some lines. -/
structure Request where
  /-- The lines. -/
  attrs : List Attr
  /-- There is one. -/
  nonempty : attrs ≠ []

/-- Lines, each with its line feed. -/
def encodeLines (lines : List (List Char)) : List Char := lines.flatMap (· ++ ['\n'])

/-- What is written for a request: its lines, and an empty one. -/
def Request.encode (r : Request) : List Char := encodeLines (r.attrs.map Attr.line) ++ ['\n']

/-- The value of the last line with that name. -/
def Request.value (r : Request) (name : List Char) : Option (List Char) :=
  ((r.attrs.filter fun a => a.name = name).getLast?).map Attr.value

/-- What should be kept of a request. -/
def Request.tuple (r : Request) : GreyTuple :=
  ⟨r.value "sender".toList, r.value "recipient".toList, r.value "client_address".toList, r.value "helo_name".toList⟩

/-- Successive calls return one tuple a request, up to the first request that lacks an
attribute. That one gives an error, and what is left of the connection is closed. -/
def Parses (broken : Bool) : List Request → Prop
  | [] => True
  | r :: rs =>
    if checkRequest r.tuple then
      (∀ single, ∃ single', parsePostfix single ⟨(r :: rs).flatMap Request.encode, broken⟩ =
        (.ok, ⟨r.tuple, single'⟩, ⟨rs.flatMap Request.encode, broken⟩)) ∧ Parses broken rs
    else ∀ single, (parsePostfix single ⟨(r :: rs).flatMap Request.encode, broken⟩).1 = .error

/-! ### When pieces do no harm -/

/-- The pieces that the lines come in. -/
def pieces (lines : List (List Char)) : List (List Char) := lines.flatMap (cut (maxlinelen - 1))

/-- The pieces up to the first empty one. -/
def readPieces (lines : List (List Char)) : List (List Char) := (pieces lines).takeWhile (· ≠ [])

/-- The rest of the last piece that begins with `name=`. -/
def lastMatch (matcher : List Char) (ps : List (List Char)) : Option (List Char) :=
  (ps.filterMap (tryMatch matcher)).getLast?

/-- What the pieces say. -/
def pieceTuple (ps : List (List Char)) : GreyTuple :=
  ⟨lastMatch "sender=".toList ps, lastMatch "recipient=".toList ps, lastMatch "client_address=".toList ps,
    lastMatch "helo_name=".toList ps⟩

/-- The cutting of long lines does a request no harm: no line ends with an empty piece,
and the last piece for each attribute is what the last line for it says. In a request
that lacks an attribute, the pieces up to an empty one do not supply it. -/
def Request.Intact (r : Request) : Prop :=
  if checkRequest r.tuple then
    (∀ a ∈ r.attrs, ¬ (maxlinelen - 1 ∣ a.line.length)) ∧ pieceTuple (pieces (r.attrs.map Attr.line)) = r.tuple
  else checkRequest (pieceTuple (readPieces (r.attrs.map Attr.line))) = false

/-- The requests up to the first that lacks an attribute, and that one. -/
def upToLacking : List Request → List Request
  | [] => []
  | r :: rs => if checkRequest r.tuple then r :: upToLacking rs else [r]

/-! ### Matching -/

theorem tryMatch_eq_some {matcher line v : List Char} : tryMatch matcher line = some v ↔ line = matcher ++ v := by
  simp only [tryMatch, List.isPrefixOf_iff_prefix]
  constructor
  · intro h
    split_ifs at h with hp
    obtain ⟨t, rfl⟩ := hp
    cases h
    simp
  · rintro rfl
    rw [if_pos (List.prefix_append _ _), List.drop_left]

/-- A line that begins with one name does not begin with another. -/
theorem tryMatch_eq_none {a b line v : List Char} (h : tryMatch a line = some v) (hab : ¬ a <+: b) (hba : ¬ b <+: a) :
    tryMatch b line = none := by
  cases hb : tryMatch b line with
  | none => rfl
  | some w =>
    exfalso
    have ha' : a <+: line := ⟨v, (tryMatch_eq_some.mp h).symm⟩
    have hb' : b <+: line := ⟨w, (tryMatch_eq_some.mp hb).symm⟩
    rcases List.prefix_or_prefix_of_prefix ha' hb' with h | h
    · exact hab h
    · exact hba h

/-- A line sets the attribute it begins with, and no other. -/
theorem tuple_matchLine (p : Parse) (line : List Char) :
    (p.matchLine line).tuple = ⟨(tryMatch "sender=".toList line).or p.tuple.sender,
      (tryMatch "recipient=".toList line).or p.tuple.recipient,
      (tryMatch "client_address=".toList line).or p.tuple.clientAddress,
      (tryMatch "helo_name=".toList line).or p.tuple.heloName⟩ := by
  unfold Parse.matchLine
  cases hs : tryMatch "sender=".toList line with
  | some v =>
    rw [tryMatch_eq_none hs (b := "recipient=".toList) (by decide) (by decide),
      tryMatch_eq_none hs (b := "client_address=".toList) (by decide) (by decide),
      tryMatch_eq_none hs (b := "helo_name=".toList) (by decide) (by decide)]
    rfl
  | none =>
    cases hr : tryMatch "recipient=".toList line with
    | some v =>
      rw [tryMatch_eq_none hr (b := "client_address=".toList) (by decide) (by decide),
        tryMatch_eq_none hr (b := "helo_name=".toList) (by decide) (by decide)]
      rfl
    | none =>
      cases hc : tryMatch "client_address=".toList line with
      | some v =>
        rw [tryMatch_eq_none hc (b := "helo_name=".toList) (by decide) (by decide)]
        rfl
      | none =>
        cases hh : tryMatch "helo_name=".toList line with
        | some v => rfl
        | none => cases tryMatch "grossd_mode=".toList line <;> rfl

theorem lastMatch_cons (matcher l : List Char) (ps : List (List Char)) :
    lastMatch matcher (l :: ps) = (lastMatch matcher ps).or (tryMatch matcher l) := by
  unfold lastMatch
  cases h : tryMatch matcher l with
  | none => simp [h]
  | some v =>
    rw [List.filterMap_cons_some h, List.getLast?_cons]
    cases (ps.filterMap (tryMatch matcher)).getLast? <;> rfl

/-- Over many lines, the last that begins with a name sets the attribute. -/
theorem tuple_foldl_matchLine (ps : List (List Char)) (p : Parse) :
    (ps.foldl Parse.matchLine p).tuple = ⟨(lastMatch "sender=".toList ps).or p.tuple.sender,
      (lastMatch "recipient=".toList ps).or p.tuple.recipient,
      (lastMatch "client_address=".toList ps).or p.tuple.clientAddress,
      (lastMatch "helo_name=".toList ps).or p.tuple.heloName⟩ := by
  induction ps generalizing p with
  | nil => rfl
  | cons l ps ih => simp only [List.foldl_cons, ih, tuple_matchLine, lastMatch_cons, Option.or_assoc]

/-- In a new tuple, the pieces leave what they say. -/
theorem foldl_matchLine_new (ps : List (List Char)) (single : Bool) :
    ∃ single', ps.foldl Parse.matchLine ⟨⟨none, none, none, none⟩, single⟩ = ⟨pieceTuple ps, single'⟩ := by
  refine ⟨(ps.foldl Parse.matchLine ⟨⟨none, none, none, none⟩, single⟩).singleQuery, ?_⟩
  have h := tuple_foldl_matchLine ps ⟨⟨none, none, none, none⟩, single⟩
  simp only [Option.or_none] at h
  rw [pieceTuple, ← h]

/-! ### The lines of a request -/

/-- The name is what stands before the first equals sign. -/
theorem name_of_append_eq {name : List Char} (hname : '=' ∉ name) (s : List Char) :
    (name ++ '=' :: s).takeWhile (· ≠ '=') = name := by
  have hne : ∀ c ∈ name, c ≠ '=' := fun c hc h => hname (h ▸ hc)
  rw [List.takeWhile_append_of_pos fun c hc => by simpa using hne c hc]
  simp

theorem tryMatch_line (a : Attr) {name : List Char} (hname : '=' ∉ name) :
    tryMatch (name ++ ['=']) a.line = if a.name = name then some a.value else none := by
  split_ifs with h
  · rw [tryMatch_eq_some, Attr.line, h]
    simp
  · cases hm : tryMatch (name ++ ['=']) a.line with
    | none => rfl
    | some v =>
      exfalso
      have heq := tryMatch_eq_some.mp hm
      rw [Attr.line, List.append_assoc, List.singleton_append] at heq
      rw [← name_of_append_eq a.name_eq a.value, heq, name_of_append_eq hname] at h
      exact h rfl

theorem value_eq_lastMatch (r : Request) {name : List Char} (hname : '=' ∉ name) :
    r.value name = lastMatch (name ++ ['=']) (r.attrs.map Attr.line) := by
  have key : ∀ as : List Attr, (as.map Attr.line).filterMap (tryMatch (name ++ ['='])) =
      (as.filter fun a => a.name = name).map Attr.value := by
    intro as
    induction as with
    | nil => rfl
    | cons a as ih =>
      rw [List.map_cons, List.filterMap_cons, tryMatch_line a hname, ih, List.filter_cons]
      by_cases h : a.name = name <;> simp [h]
  rw [Request.value, lastMatch, key, List.getLast?_map]

/-- What a request says is what its lines say, uncut. -/
theorem tuple_eq_pieceTuple (r : Request) : r.tuple = pieceTuple (r.attrs.map Attr.line) := by
  rw [Request.tuple, value_eq_lastMatch r (by decide), value_eq_lastMatch r (by decide),
    value_eq_lastMatch r (by decide), value_eq_lastMatch r (by decide)]
  rfl

/-! ### Reading a request -/

/-- A line of a request: not empty, and with no NUL and no line end in it. -/
structure IsLine (line : List Char) : Prop where
  /-- Not empty. -/
  ne_nil : line ≠ []
  /-- No line end. -/
  plain : Plain line
  /-- No NUL. -/
  no_nul : '\x00' ∉ line

theorem isLine_line (a : Attr) : IsLine a.line := by
  have h : ∀ c ∈ a.line, c ≠ '\x00' ∧ c ≠ '\n' ∧ c ≠ '\r' := by
    intro c hc
    rw [Attr.line, List.mem_append, List.mem_cons] at hc
    rcases hc with hc | rfl | hc
    · exact a.plain c (List.mem_append_left _ hc)
    · decide
    · exact a.plain c (List.mem_append_right _ hc)
  exact ⟨by simp [Attr.line], fun c hc => (h c hc).2, fun hc => (h _ hc).1 rfl⟩

theorem parseLoop_of_data {input : Bool} {p : Parse} {conn rest : Conn} {buf : List Char}
    (h : readline conn maxlinelen = .data buf rest) (hnul : '\x00' ∉ buf) (hne : buf ≠ []) :
    parseLoop input p conn = parseLoop true (p.matchLine buf) rest := by
  rw [parseLoop, h]
  simp only [cstring_of_notMem hnul, dif_neg hne]

/-- An empty line ends the request. -/
theorem parseLoop_empty (p : Parse) (s : List Char) (broken : Bool) :
    parseLoop true p ⟨'\n' :: s, broken⟩ = p.finish ⟨s, broken⟩ := by
  have h : readline ⟨'\n' :: s, broken⟩ maxlinelen = .data [] ⟨s, broken⟩ :=
    readLoop_of_lt broken true plain_nil (by decide) s
  rw [parseLoop, h]
  rfl

/-- What is done with a line: its pieces are matched, and then the loop goes on, or ends
if the last piece is empty. -/
theorem parseLoop_line {line : List Char} (hl : IsLine line) (input : Bool) (p : Parse) (s : List Char)
    (broken : Bool) : parseLoop input p ⟨line ++ '\n' :: s, broken⟩ =
      if maxlinelen - 1 ∣ line.length then ((cut (maxlinelen - 1) line).foldl Parse.matchLine p).finish ⟨s, broken⟩
      else parseLoop true ((cut (maxlinelen - 1) line).foldl Parse.matchLine p) ⟨s, broken⟩ := by
  induction hn : line.length using Nat.strongRecOn generalizing line input p with
  | ind n ih =>
    subst hn
    have hpos : 0 < line.length := List.length_pos_iff.mpr hl.ne_nil
    obtain ⟨hfits, hlong⟩ := readline_cut maxlinelen hl.plain broken s
    rcases Nat.lt_or_ge line.length (maxlinelen - 1) with hlt | hge
    · rw [parseLoop_of_data (hfits hlt) hl.no_nul hl.ne_nil, if_neg (Nat.not_dvd_of_pos_of_lt hpos hlt), cut_of_lt hlt]
      rfl
    · have hm : 0 < maxlinelen - 1 := by decide
      have htake : line.take (maxlinelen - 1) ≠ [] := by
        rw [ne_eq, List.take_eq_nil_iff]
        exact not_or.mpr ⟨hm.ne', hl.ne_nil⟩
      have hdvd : maxlinelen - 1 ∣ line.length ↔ maxlinelen - 1 ∣ (line.drop (maxlinelen - 1)).length := by
        rw [List.length_drop, Nat.dvd_sub_iff_left hge (Nat.dvd_refl _)]
      rw [parseLoop_of_data (hlong hge) (fun h => hl.no_nul (List.mem_of_mem_take h)) htake, cut_of_le hm hge,
        List.foldl_cons]
      by_cases hnil : line.drop (maxlinelen - 1) = []
      · rw [if_pos (hdvd.mpr (by simp [hnil])), hnil, List.nil_append, parseLoop_empty, cut_of_lt hm]
        rfl
      · have hrest : IsLine (line.drop (maxlinelen - 1)) :=
          ⟨hnil, hl.plain.drop _, fun h => hl.no_nul (List.mem_of_mem_drop h)⟩
        rw [ih _ (by rw [List.length_drop]; omega) hrest true _ rfl]
        simp only [hdvd]

theorem pieces_cons (line : List Char) (lines : List (List Char)) :
    pieces (line :: lines) = cut (maxlinelen - 1) line ++ pieces lines := List.flatMap_cons

/-- A line whose length is no multiple comes in pieces none of which is empty. -/
theorem readPieces_cons_of_not_dvd {line : List Char} (h : ¬ (maxlinelen - 1 ∣ line.length))
    (lines : List (List Char)) : readPieces (line :: lines) = cut (maxlinelen - 1) line ++ readPieces lines := by
  have hne : ∀ piece ∈ cut (maxlinelen - 1) line, piece ≠ [] := fun piece hp => ne_nil_of_mem_cut (by decide) h hp
  rw [readPieces, pieces_cons, List.takeWhile_append_of_pos fun piece hp => by simpa using hne piece hp]
  rfl

/-- A line whose length is a multiple ends with an empty piece, and what follows is not
read. -/
theorem readPieces_cons_of_dvd {line : List Char} (h : maxlinelen - 1 ∣ line.length) (lines : List (List Char)) :
    cut (maxlinelen - 1) line = readPieces (line :: lines) ++ [[]] := by
  obtain ⟨ps, heq, hne⟩ := cut_of_dvd (by decide) h
  rw [readPieces, pieces_cons, heq, List.append_assoc,
    List.takeWhile_append_of_pos fun piece hp => by simpa using hne piece hp]
  simp

theorem encodeLines_cons (line : List Char) (lines : List (List Char)) (s : List Char) :
    encodeLines (line :: lines) ++ s = line ++ '\n' :: (encodeLines lines ++ s) := by
  simp [encodeLines]

/-- What is done with the lines of a request and the empty one after them: the pieces up
to the first empty one are matched. If a length is a multiple, some of the request is
left for the next call. -/
theorem parseLoop_lines {lines : List (List Char)} (hl : ∀ line ∈ lines, IsLine line) (input : Bool)
    (hin : lines ≠ [] ∨ input = true) (p : Parse) (s : List Char) (broken : Bool) :
    ∃ rest, parseLoop input p ⟨encodeLines lines ++ '\n' :: s, broken⟩ =
        ((readPieces lines).foldl Parse.matchLine p).finish ⟨rest, broken⟩ ∧
      ((∀ line ∈ lines, ¬ (maxlinelen - 1 ∣ line.length)) → rest = s ∧ readPieces lines = pieces lines) ∧
      (rest = s → ∀ line ∈ lines, ¬ (maxlinelen - 1 ∣ line.length)) := by
  induction lines generalizing input p with
  | nil =>
    obtain rfl : input = true := hin.resolve_left fun h => h rfl
    exact ⟨s, parseLoop_empty p s broken, fun _ => ⟨rfl, rfl⟩, fun _ => by simp⟩
  | cons line lines ih =>
    obtain ⟨hline, hlines⟩ := List.forall_mem_cons.mp hl
    rw [encodeLines_cons, parseLoop_line hline]
    by_cases hdvd : maxlinelen - 1 ∣ line.length
    · refine ⟨encodeLines lines ++ '\n' :: s, ?_, fun h => absurd hdvd (h line List.mem_cons_self), fun h => ?_⟩
      · rw [if_pos hdvd, readPieces_cons_of_dvd hdvd lines, List.foldl_append]
        rfl
      · have hlen := congrArg List.length h
        simp only [List.length_append, List.length_cons] at hlen
        omega
    · obtain ⟨rest, heq, hnone, hrest⟩ :=
        ih hlines true (Or.inr rfl) ((cut (maxlinelen - 1) line).foldl Parse.matchLine p)
      refine ⟨rest, ?_, fun h => ?_, fun h => List.forall_mem_cons.mpr ⟨hdvd, hrest h⟩⟩
      · rw [if_neg hdvd, heq, readPieces_cons_of_not_dvd hdvd, List.foldl_append]
      · obtain ⟨hs, hpieces⟩ := hnone (List.forall_mem_cons.mp h).2
        rw [readPieces_cons_of_not_dvd hdvd, hpieces, pieces_cons]
        exact ⟨hs, rfl⟩

/-- **A request, and one call**: the call keeps what the pieces say, and reads the whole
of the request just when no line has a multiple as its length. -/
theorem parsePostfix_encode (r : Request) (single : Bool) (s : List Char) (broken : Bool) :
    ∃ rest single', parsePostfix single ⟨r.encode ++ s, broken⟩ =
        Parse.finish ⟨pieceTuple (readPieces (r.attrs.map Attr.line)), single'⟩ ⟨rest, broken⟩ ∧
      ((∀ a ∈ r.attrs, ¬ (maxlinelen - 1 ∣ a.line.length)) → rest = s ∧
        readPieces (r.attrs.map Attr.line) = pieces (r.attrs.map Attr.line)) ∧
      (rest = s → ∀ a ∈ r.attrs, ¬ (maxlinelen - 1 ∣ a.line.length)) := by
  have hl : ∀ line ∈ r.attrs.map Attr.line, IsLine line := List.forall_mem_map.mpr fun a _ => isLine_line a
  have hne : r.attrs.map Attr.line ≠ [] := fun h => r.nonempty (List.map_eq_nil_iff.mp h)
  obtain ⟨rest, heq, hnone, hrest⟩ :=
    parseLoop_lines hl false (Or.inl hne) ⟨⟨none, none, none, none⟩, single⟩ s broken
  rw [List.forall_mem_map] at hnone hrest
  obtain ⟨single', hfold⟩ := foldl_matchLine_new (readPieces (r.attrs.map Attr.line)) single
  refine ⟨rest, single', ?_, hnone, hrest⟩
  rw [parsePostfix, Request.encode, List.append_assoc, List.singleton_append, heq, hfold]

/-! ### One tuple a request -/

/-- A request that has its attributes is parsed just when it is intact. -/
theorem parsePostfix_iff_intact {r : Request} (hr : checkRequest r.tuple = true) (s : List Char) (broken : Bool) :
    (∀ single, ∃ single', parsePostfix single ⟨r.encode ++ s, broken⟩ = (.ok, ⟨r.tuple, single'⟩, ⟨s, broken⟩)) ↔
      r.Intact := by
  rw [Request.Intact, if_pos hr]
  constructor
  · intro h
    obtain ⟨single', hparse⟩ := h false
    obtain ⟨rest, single'', heq, hnone, hrest⟩ := parsePostfix_encode r false s broken
    rw [heq, Parse.finish, Prod.mk.injEq, Prod.mk.injEq, Parse.mk.injEq, Conn.mk.injEq] at hparse
    obtain ⟨-, ⟨htuple, -⟩, hs, -⟩ := hparse
    have hdvd := hrest hs
    rw [(hnone hdvd).2] at htuple
    exact ⟨hdvd, htuple⟩
  · rintro ⟨hdvd, htuple⟩ single
    obtain ⟨rest, single', heq, hnone, -⟩ := parsePostfix_encode r single s broken
    obtain ⟨rfl, hpieces⟩ := hnone hdvd
    refine ⟨single', ?_⟩
    rw [heq, hpieces, htuple, Parse.finish, if_pos hr]

/-- A request that lacks an attribute is an error just when it is intact. -/
theorem parsePostfix_error_iff_intact {r : Request} (hr : ¬ checkRequest r.tuple = true) (s : List Char)
    (broken : Bool) : (∀ single, (parsePostfix single ⟨r.encode ++ s, broken⟩).1 = .error) ↔ r.Intact := by
  rw [Request.Intact, if_neg hr]
  constructor
  · intro h
    obtain ⟨rest, single', heq, -⟩ := parsePostfix_encode r false s broken
    have herr := h false
    rw [heq, Parse.finish] at herr
    by_contra hc
    rw [Bool.not_eq_false] at hc
    rw [if_pos hc] at herr
    cases herr
  · intro h single
    obtain ⟨rest, single', heq, -⟩ := parsePostfix_encode r single s broken
    rw [heq, Parse.finish, if_neg (by rw [h]; decide)]

/-- **One tuple a request**: successive calls return for each request the last value of
each of its attributes, up to the first request that lacks one, exactly when all of these
requests are intact. -/
theorem parses_iff (broken : Bool) (reqs : List Request) :
    Parses broken reqs ↔ ∀ r ∈ upToLacking reqs, r.Intact := by
  induction reqs with
  | nil => simp [Parses, upToLacking]
  | cons r rs ih =>
    rw [Parses, upToLacking, List.flatMap_cons]
    by_cases hr : checkRequest r.tuple = true
    · rw [if_pos hr, if_pos hr, parsePostfix_iff_intact hr, ih, List.forall_mem_cons]
    · rw [if_neg hr, if_neg hr, parsePostfix_error_iff_intact hr, List.forall_mem_singleton]

/-- Lines that fit come as they are. -/
theorem pieces_of_fits {lines : List (List Char)} (h : ∀ line ∈ lines, line.length < maxlinelen - 1) :
    pieces lines = lines := by
  induction lines with
  | nil => rfl
  | cons line lines ih =>
    obtain ⟨hline, hlines⟩ := List.forall_mem_cons.mp h
    rw [pieces_cons, cut_of_lt hline, ih hlines, List.singleton_append]

/-- Lines that fit, and an empty one: the call keeps what the lines say. -/
theorem parsePostfix_lines {lines : List (List Char)} (hl : ∀ line ∈ lines, IsLine line) (hne : lines ≠ [])
    (hfits : ∀ line ∈ lines, line.length < maxlinelen - 1) (single : Bool) (s : List Char) (broken : Bool) :
    ∃ single', parsePostfix single ⟨encodeLines lines ++ '\n' :: s, broken⟩ =
      Parse.finish ⟨pieceTuple lines, single'⟩ ⟨s, broken⟩ := by
  have hdvd : ∀ line ∈ lines, ¬ (maxlinelen - 1 ∣ line.length) := by
    intro line hline
    exact Nat.not_dvd_of_pos_of_lt (List.length_pos_iff.mpr (hl line hline).ne_nil) (hfits line hline)
  obtain ⟨rest, heq, hnone, -⟩ :=
    parseLoop_lines hl false (Or.inl hne) ⟨⟨none, none, none, none⟩, single⟩ s broken
  obtain ⟨rfl, hpieces⟩ := hnone hdvd
  obtain ⟨single', hfold⟩ := foldl_matchLine_new lines single
  refine ⟨single', ?_⟩
  rw [parsePostfix, heq, hpieces, pieces_of_fits hfits, hfold]

/-- A request whose lines all fit in the buffer is intact. -/
theorem intact_of_fits {r : Request} (h : ∀ a ∈ r.attrs, a.line.length < maxlinelen - 1) : r.Intact := by
  have hpieces : pieces (r.attrs.map Attr.line) = r.attrs.map Attr.line := pieces_of_fits (List.forall_mem_map.mpr h)
  have hread : readPieces (r.attrs.map Attr.line) = r.attrs.map Attr.line := by
    have hne : ∀ line ∈ r.attrs.map Attr.line, line ≠ [] := List.forall_mem_map.mpr fun a _ => (isLine_line a).ne_nil
    rw [readPieces, hpieces]
    exact List.takeWhile_eq_self_iff.mpr fun line hl => by simpa using hne line hl
  rw [Request.Intact, hpieces, hread, ← tuple_eq_pieceTuple]
  split_ifs with hr
  · exact ⟨fun a ha => Nat.not_dvd_of_pos_of_lt (List.length_pos_iff.mpr (isLine_line a).ne_nil) (h a ha), rfl⟩
  · exact Bool.not_eq_true _ ▸ hr

theorem plain_of_all {text : List Char}
    (h : (text.all fun c => decide (c ≠ '\x00' ∧ c ≠ '\n' ∧ c ≠ '\r')) = true) :
    ∀ c ∈ text, c ≠ '\x00' ∧ c ≠ '\n' ∧ c ≠ '\r' :=
  fun c hc => of_decide_eq_true (List.all_eq_true.mp h c hc)

theorem isLine_of_all {line : List Char} (hne : line ≠ [])
    (h : (line.all fun c => decide (c ≠ '\x00' ∧ c ≠ '\n' ∧ c ≠ '\r')) = true) : IsLine line :=
  ⟨hne, fun c hc => (plain_of_all h c hc).2, fun hc => (plain_of_all h _ hc).1 rfl⟩

/-- A request with a long `helo_name`, whose second piece reads `sender=evil`. -/
def forged : Request where
  attrs := [⟨"sender".toList, "a".toList, by decide, plain_of_all rfl⟩,
    ⟨"recipient".toList, "b".toList, by decide, plain_of_all rfl⟩,
    ⟨"client_address".toList, "1".toList, by decide, plain_of_all rfl⟩,
    ⟨"helo_name".toList, List.replicate 1013 'x' ++ "sender=evil".toList, by decide, by
      intro c hc
      simp only [List.mem_append, List.mem_replicate] at hc
      rcases hc with hc | ⟨-, rfl⟩ | hc
      · exact plain_of_all rfl c hc
      · decide
      · exact plain_of_all rfl c hc⟩]
  nonempty := List.cons_ne_nil _ _

theorem pieces_forged : pieces (forged.attrs.map Attr.line) =
    ["sender=a".toList, "recipient=b".toList, "client_address=1".toList,
      "helo_name=".toList ++ List.replicate 1013 'x', "sender=evil".toList] := by
  have hlong : cut (maxlinelen - 1) (("helo_name=".toList ++ List.replicate 1013 'x') ++ "sender=evil".toList) =
      ["helo_name=".toList ++ List.replicate 1013 'x', "sender=evil".toList] :=
    cut_append (by rw [List.length_append, List.length_replicate]; decide) (by decide)
  have hline : "helo_name".toList ++ '=' :: (List.replicate 1013 'x' ++ "sender=evil".toList) =
      ("helo_name=".toList ++ List.replicate 1013 'x') ++ "sender=evil".toList := by
    rw [List.append_assoc]
    rfl
  simp only [forged, Attr.line, List.map_cons, List.map_nil, pieces_cons, hline, hlong]
  rw [cut_of_lt (by decide), cut_of_lt (by decide), cut_of_lt (by decide)]
  rfl

/-- No line of it has a multiple as its length, so one call reads it all. -/
theorem parsePostfix_encode_forged (broken : Bool) : ∃ single', parsePostfix false ⟨forged.encode, broken⟩ =
    Parse.finish ⟨pieceTuple (pieces (forged.attrs.map Attr.line)), single'⟩ ⟨[], broken⟩ := by
  obtain ⟨rest, single', heq, hnone, -⟩ := parsePostfix_encode forged false [] broken
  have hdvd : ∀ a ∈ forged.attrs, ¬ (maxlinelen - 1 ∣ a.line.length) := by
    simp only [forged, List.forall_mem_cons, Attr.line, List.length_append, List.length_cons, List.length_replicate]
    decide
  obtain ⟨rfl, hpieces⟩ := hnone hdvd
  rw [List.append_nil, hpieces] at heq
  exact ⟨single', heq⟩

/-- The sender of that request is `a`, and the tuple says `evil`. -/
theorem parsePostfix_forged : forged.tuple.sender = some "a".toList ∧
    (parsePostfix false ⟨forged.encode, false⟩).1 = .ok ∧
    (parsePostfix false ⟨forged.encode, false⟩).2.1.tuple.sender = some "evil".toList ∧ ¬ Parses false [forged] := by
  obtain ⟨single', heq⟩ := parsePostfix_encode_forged false
  have hsender : (pieceTuple (pieces (forged.attrs.map Attr.line))).sender = some "evil".toList := by
    rw [pieces_forged]
    rfl
  have hcheck : checkRequest (pieceTuple (pieces (forged.attrs.map Attr.line))) = true := by
    rw [pieces_forged]
    rfl
  refine ⟨rfl, ?_, ?_, fun h => ?_⟩
  · rw [heq, Parse.finish, if_pos hcheck]
  · rw [heq]
    exact hsender
  · rw [Parses, if_pos (by rfl)] at h
    obtain ⟨single'', hparse⟩ := h.1 false
    rw [List.flatMap_cons, List.flatMap_nil, List.append_nil, heq] at hparse
    have htuple : pieceTuple (pieces (forged.attrs.map Attr.line)) = forged.tuple :=
      congrArg (fun out => out.2.1.tuple) hparse
    rw [htuple] at hsender
    cases hsender

end Gross.Postfix
