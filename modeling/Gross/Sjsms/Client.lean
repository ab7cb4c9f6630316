import Gross.Sjsms.Datagram

/-!
# The way of a query

A client puts a query together with `buildquerystr` and sends it with
`sendquerystr`. The text is cut three times on its way: `snprintf` keeps to its
buffer, the server takes the first `MAXLINELEN` bytes of a datagram, of which the
header takes four, and `recvquerystr` copies into a buffer again. Then `parsequery`
looks at the lines.

## What is proved

`served_exact` — wherever the text is cut, a line that is not whole is not looked at:
every field that is set is the client's, to the last character. If the text has at
most `MAXLINELEN - 4` characters, all fields are set.
-/

namespace Gross.Sjsms

open Foundation Postfix

/-- A string with no line feed in it. -/
structure IsField (s : List Byte) : Prop where
  /-- The NUL is its end. -/
  no_nul : 0 ∉ s
  /-- No line feed. -/
  no_lf : 10 ∉ s

/-- What a client asks about. -/
structure Question where
  /-- `sender` -/
  sender : List Byte
  /-- `rcpt` -/
  rcpt : List Byte
  /-- `caddr` -/
  caddr : List Byte
  /-- `helo`, which may be `NULL`. -/
  helo : Option (List Byte)
  /-- They are strings. -/
  fields : IsField sender ∧ IsField rcpt ∧ IsField caddr ∧ ∀ h, helo = some h → IsField h

/-- The text of a query, uncut. -/
def Question.text (q : Question) : List Byte :=
  ascii "sender=" ++ q.sender ++ ascii "\nrecipient=" ++ q.rcpt ++ ascii "\nclient_address=" ++ q.caddr ++
    (match q.helo with
      | some h => ascii "\nhelo_name=" ++ h
      | none => []) ++ ascii "\n\n"

/-- `buildquerystr`: `snprintf` is given `MAXLINELEN - 1` bytes, one of them for the NUL. -/
def buildquerystr (q : Question) : List Byte := q.text.take (maxlinelen - 1 - 1)

/-- `send_sjsms_msg`: the datagram. -/
def sendSjsmsMsg (e : Endian) (message : SjsmsMsg) : List Byte :=
  bytesOfHalf e (htons e message.msgtype) ++ bytesOfHalf e (htons e message.msglen) ++
    message.message.take message.msglen.toNat

/-- `sendquerystr` -/
def sendquerystr (e : Endian) (querystr : List Byte) : List Byte :=
  sendSjsmsMsg e ⟨msgtypeQueryV2, BitVec.ofNat 16 (min querystr.length maxlinelen),
    querystr.take (min querystr.length maxlinelen)⟩

/-! ### The text -/

theorem chars_append (a b : List Byte) : chars (a ++ b) = chars a ++ chars b := List.map_append

/-- The lines of a query. -/
def Question.lines (q : Question) : List (List Char) :=
  ["sender=".toList ++ chars q.sender, "recipient=".toList ++ chars q.rcpt,
    "client_address=".toList ++ chars q.caddr] ++
    match q.helo with
      | some h => ["helo_name=".toList ++ chars h]
      | none => []

theorem chars_text (q : Question) : chars q.text = encodeLines q.lines ++ ['\n'] := by
  have hlit : chars (ascii "sender=") = "sender=".toList ∧
      chars (ascii "\nrecipient=") = '\n' :: "recipient=".toList ∧
      chars (ascii "\nclient_address=") = '\n' :: "client_address=".toList ∧
      chars (ascii "\nhelo_name=") = '\n' :: "helo_name=".toList ∧ chars (ascii "\n\n") = ['\n', '\n'] := by
    decide
  obtain ⟨hsender, hrecipient, hclient, hhelo, hend⟩ := hlit
  unfold Question.text Question.lines
  cases q.helo with
  | none => simp [chars_append, hsender, hrecipient, hclient, hend, encodeLines]
  | some h => simp [chars_append, hsender, hrecipient, hclient, hhelo, hend, encodeLines]

theorem lf_notMem_chars {s : List Byte} (h : 10 ∉ s) : '\n' ∉ chars s := mt (mem_chars 10).mp h

/-- The names of the fields, as the client writes them. -/
theorem isQueryLine_name {name : String} (h : name ∈ ["sender=", "recipient=", "client_address=", "helo_name="]) :
    IsQueryLine name.toList := by
  have hall : ∀ name ∈ ["sender=", "recipient=", "client_address=", "helo_name="],
      name.toList ≠ [] ∧ '\n' ∉ name.toList ∧ '\x00' ∉ name.toList := by decide
  obtain ⟨hne, hlf, hnul⟩ := hall name h
  exact ⟨hne, hlf, hnul⟩

theorem IsQueryLine.field {name : List Char} {s : List Byte} (hname : IsQueryLine name) (hs : IsField s) :
    IsQueryLine (name ++ chars s) := by
  refine ⟨?_, ?_, ?_⟩
  · intro h
    exact hname.ne_nil (List.append_eq_nil_iff.mp h).1
  · rw [List.mem_append, not_or]
    exact ⟨hname.no_lf, lf_notMem_chars hs.no_lf⟩
  · rw [List.mem_append, not_or]
    exact ⟨hname.no_nul, nul_notMem_chars hs.no_nul⟩

theorem isQueryLine_lines (q : Question) : ∀ line ∈ q.lines, IsQueryLine line := by
  obtain ⟨hsender, hrcpt, hcaddr, hhelo⟩ := q.fields
  have hrest : ∀ line ∈ (match q.helo with
      | some h => ["helo_name=".toList ++ chars h]
      | none => []), IsQueryLine line := by
    cases hq : q.helo with
    | none => simp
    | some h =>
      rw [List.forall_mem_singleton]
      exact (isQueryLine_name (by simp)).field (hhelo h hq)
  intro line hline
  rcases List.mem_append.mp hline with hline | hline
  · simp only [List.mem_cons, List.not_mem_nil, or_false] at hline
    rcases hline with rfl | rfl | rfl
    · exact (isQueryLine_name (by simp)).field hsender
    · exact (isQueryLine_name (by simp)).field hrcpt
    · exact (isQueryLine_name (by simp)).field hcaddr
  · exact hrest line hline

theorem nul_notMem_text (q : Question) : 0 ∉ q.text := by
  intro h
  have hchar : '\x00' ∈ encodeLines q.lines ++ ['\n'] := by
    rw [← chars_text]
    exact List.mem_map.mpr ⟨0, h, rfl⟩
  rcases List.mem_append.mp hchar with hmem | hmem
  · obtain ⟨line, hline, hmem⟩ := List.mem_flatMap.mp hmem
    rcases List.mem_append.mp hmem with hmem | hmem
    · exact (isQueryLine_lines q line hline).no_nul hmem
    · exact absurd hmem (by decide)
  · exact absurd hmem (by decide)

/-! ### What is received of it -/

/-- What arrives, when the server takes the first bytes: the header, and the first bytes of
the text. -/
theorem take_sendquerystr (e : Endian) {querystr : List Byte} (h : querystr.length ≤ maxlinelen) :
    (sendquerystr e querystr).take maxlinelen =
      bytesOfHalf .big msgtypeQueryV2 ++ bytesOfHalf .big (BitVec.ofNat 16 querystr.length) ++
        querystr.take (maxlinelen - 4) := by
  have hlen : (BitVec.ofNat 16 querystr.length).toNat = querystr.length := by
    rw [BitVec.toNat_ofNat]
    exact Nat.mod_eq_of_lt (Nat.lt_of_le_of_lt h (by decide))
  have hhead : (bytesOfHalf .big msgtypeQueryV2 ++ bytesOfHalf .big (BitVec.ofNat 16 querystr.length)).length = 4 := by
    rw [List.length_append, length_bytesOfHalf, length_bytesOfHalf]
  rw [sendquerystr, sendSjsmsMsg, bytesOfHalf_htons, bytesOfHalf_htons]
  simp only [min_eq_left h, hlen, List.take_length]
  rw [List.take_append, hhead, List.take_of_length_le (by rw [hhead]; decide)]

/-- A message with a header of four bytes. -/
theorem received_append {a b text : List Byte} (ha : a.length = 2) (hb : b.length = 2) :
    received (a ++ b ++ text) = ⟨halfOf .big a, halfOf .big b, text ++ List.replicate (maxlinelen - text.length) 0⟩ := by
  have hzero : 4 + maxlinelen - (a ++ b ++ text).length = maxlinelen - text.length := by
    simp only [List.length_append, ha, hb]
    omega
  have hassoc : a ++ b ++ text ++ List.replicate (maxlinelen - text.length) 0 =
      a ++ (b ++ (text ++ List.replicate (maxlinelen - text.length) 0)) := by
    simp only [List.append_assoc]
  have hab : (a ++ b).length = 4 := by rw [List.length_append, ha, hb]
  rw [received, hzero, hassoc, slice, slice, List.drop_zero, List.take_left' ha, List.drop_left' ha,
    List.take_left' hb, ← List.append_assoc, List.drop_left' hab]

/-- The text is copied as it is, if it is shorter than the buffer. -/
theorem recvquerystr_text {text : List Byte} (hnul : 0 ∉ text) (hlen : text.length ≤ maxlinelen - 4)
    (msgtype msglen : BitVec 16) :
    recvquerystr ⟨msgtype, msglen, text ++ List.replicate (maxlinelen - text.length) 0⟩ = .ok text := by
  have hle : text.length + 4 ≤ maxlinelen := Nat.add_le_of_le_sub (by decide) hlen
  obtain ⟨n, hn⟩ : ∃ n, maxlinelen - text.length = n + 1 + 1 := ⟨maxlinelen - text.length - 2, by omega⟩
  have hcopy : strncpy 0 maxlinelen (text ++ List.replicate (maxlinelen - text.length) 0) =
      .ok (text ++ 0 :: List.replicate (n + 1) 0) := by
    rw [hn, List.replicate_succ, strncpy_append hnul (by omega), hn, List.replicate_succ]
  have hlt : maxlinelen - 1 < (text ++ 0 :: List.replicate (n + 1) (0 : Byte)).length := by
    simp only [List.length_append, List.length_cons, List.length_replicate]
    omega
  -- the last byte is zero already
  have hset : (text ++ 0 :: List.replicate (n + 1) (0 : Byte)).set (maxlinelen - 1) 0 =
      text ++ 0 :: (List.replicate (n + 1) 0).set n 0 := by
    rw [List.set_append_right _ _ (by omega), show maxlinelen - 1 - text.length = n + 1 by omega, List.set_cons_succ]
  rw [recvquerystr, hcopy, ok_bind, store_lt hlt, ok_bind, hset, strdup_append hnul]

/-- The server parses the first characters of the text. -/
theorem serve_sendquerystr (e e' : Endian) (u : Uninit) (q : Question) :
    serve e' u ((sendquerystr e (buildquerystr q)).take maxlinelen) = (do
      let tuple ← parsequery ((encodeLines q.lines ++ ['\n']).take (maxlinelen - 4))
      return .query tuple) := by
  have hbuild : (buildquerystr q).length ≤ maxlinelen := by
    rw [buildquerystr, List.length_take]
    omega
  have htake : (buildquerystr q).take (maxlinelen - 4) = q.text.take (maxlinelen - 4) := by
    rw [buildquerystr, List.take_take, Nat.min_eq_left (by decide)]
  have hnul : 0 ∉ q.text.take (maxlinelen - 4) := fun h => nul_notMem_text q (List.mem_of_mem_take h)
  have htext : (q.text.take (maxlinelen - 4)).length ≤ maxlinelen - 4 := by
    rw [List.length_take]
    exact min_le_left _ _
  have hchars : chars (q.text.take (maxlinelen - 4)) = (encodeLines q.lines ++ ['\n']).take (maxlinelen - 4) := by
    rw [← chars_text]
    exact List.map_take
  rw [take_sendquerystr e hbuild, htake, serve_eq, received_append (length_bytesOfHalf _ _) (length_bytesOfHalf _ _),
    halfOf_bytesOfHalf, halfOf_bytesOfHalf, decode]
  · rw [if_neg (show ¬ msgtypeQueryV2 = msgtypeQuery by decide), if_pos rfl, recvquerystr_text hnul htext, ok_bind, hchars]
  · simp [bytesOfHalf]
  · simp only [List.length_append, length_bytesOfHalf]
    exact Nat.add_le_of_le_sub' (by decide) htext

/-- What was asked about. -/
def Question.tuple (q : Question) : GreyTuple :=
  ⟨some (chars q.sender), some (chars q.rcpt), some (chars q.caddr), q.helo.map chars⟩

theorem keep_lines (q : Question) : keep requestNew q.lines = q.tuple := by
  unfold Question.lines Question.tuple
  cases q.helo <;> rfl

/-- What is kept of the first lines, if it is enough: what was asked about, with the name in
the greeting or without it. -/
theorem keep_take_lines (q : Question) (k : ℕ) (h : checkRequest (keep requestNew (q.lines.take k)) = true) :
    keep requestNew (q.lines.take k) = q.tuple ∨
      keep requestNew (q.lines.take k) = { q.tuple with heloName := none } := by
  match k with
  | 0 | 1 | 2 => cases (show false = true from h)
  | 3 => exact .inr rfl
  | k + 4 =>
    have hlen : q.lines.length ≤ 4 := by
      unfold Question.lines
      cases q.helo <;> simp
    rw [List.take_of_length_le (by omega), keep_lines]
    exact .inl rfl

/-- **The way of a query**: whatever a client asks about, the server gets no tuple, or one in
which every field that is set is the client's. It gets all fields if the text has at
most `MAXLINELEN - 4` characters. -/
theorem served_exact (e e' : Endian) (u : Uninit) (q : Question) :
    ∃ r, serve e' u ((sendquerystr e (buildquerystr q)).take maxlinelen) = .ok (.query r) ∧
      (∀ tuple, r = some tuple →
        (∀ v, tuple.sender = some v → v = chars q.sender) ∧ (∀ v, tuple.recipient = some v → v = chars q.rcpt) ∧
        (∀ v, tuple.clientAddress = some v → v = chars q.caddr) ∧
        ∀ v, tuple.heloName = some v → q.helo.map chars = some v) ∧
      (q.text.length ≤ maxlinelen - 4 → r = some q.tuple) := by
  obtain ⟨k, hk, hlen⟩ := parsequery_take (isQueryLine_lines q) (maxlinelen - 4)
  rw [serve_sendquerystr, hk]
  refine ⟨_, rfl, ?_, ?_⟩
  · intro tuple htuple
    split_ifs at htuple with hcheck
    cases htuple
    rcases keep_take_lines q k hcheck with hkeep | hkeep <;> rw [hkeep] <;> simp [Question.tuple, eq_comm]
  · intro hfits
    have hchars := congrArg List.length (chars_text q)
    rw [chars, List.length_map, List.length_append, List.length_singleton] at hchars
    rw [List.take_of_length_le (hlen (by omega)), keep_lines]
    rfl

end Gross.Sjsms
