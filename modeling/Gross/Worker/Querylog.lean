import Gross.Foundation.ByteOrder
import Gross.Foundation.CString
import Gross.Postfix.Parse
import Gross.Worker.TestTuple
import Mathlib.Tactic.Ring

/-!
# The query log

When a request is answered, `querylogwrite` writes a line about it to the log: what was
done, how long it took, what it was about, and the checks that matched. It prints the
parts of the line one after another into a buffer of `MAXLINELEN` bytes.

## The model

`snprintf` returns the length of all there is to print, also where it had to stop short.
`querylogwrite` adds that to `len`, prints the next part at `line + len` and says there is
room for `MAXLINELEN - len - 1` bytes, a difference of `size_t`. A write outside the
buffer is a fault. The buffer holds anything at first.

## What is proved

* `printAll_ok`, `printAll_outside` — a run of the parts: they are printed one behind the
  other, cut at the end of the buffer, as long as no part begins behind it; one that does
  is written outside.
* `querylogwrite_inside_iff` — every byte lies inside the buffer exactly if all the parts
  but the last are at most `MAXLINELEN - 1` bytes long together.

## Honest scope

What one call prints is shorter than 2³¹, or the `int` it returns would not be its length.
-/

namespace Gross.Worker

open Foundation Postfix

/-- What `querylogwrite` reads of `querylog_entry_t`. -/
structure LogEntry extends QuerylogEntry where
  /-- `delay` -/
  delay : ℤ
  /-- `client_ip` -/
  clientIp : Option (List Char)
  /-- `sender` -/
  sender : Option (List Char)
  /-- `recipient` -/
  recipient : Option (List Char)
  /-- `helo` -/
  helo : Option (List Char)

/-- What `test_tuple` fills in of a request. -/
def LogEntry.ofRequest (request : GreyTuple) (q : QuerylogEntry) (delay : ℤ) : LogEntry where
  toQuerylogEntry := q
  delay := delay
  clientIp := request.clientAddress
  sender := request.sender
  recipient := request.recipient
  helo := request.heloName

/-- `actionstr` -/
def actionstr : Status → String
  | .grey => "greylist"
  | .matched => "match"
  | .trust => "trust"
  | .unknown => "unknown"
  | .fail => "fail"
  | .block => "block"

/-- `%d` -/
def printInt (n : ℤ) : List Char := (toString n).toList

/-- `%+d` -/
def printSigned (n : ℤ) : List Char := if 0 ≤ n then '+' :: printInt n else printInt n

/-- A field, or what is put in the place of NULL. -/
def orNA (s : Option (List Char)) : List Char := s.getD "N/A".toList

/-- What the first call prints. -/
def LogEntry.start (q : LogEntry) : List Char :=
  "a=".toList ++ (actionstr q.action).toList ++ " d=".toList ++ printInt q.delay ++ " w=".toList ++
    printInt q.totalweight ++ " c=".toList ++ orNA q.clientIp ++ " s=".toList ++ orNA q.sender ++ " r=".toList ++
    orNA q.recipient

/-- `line` and `len`. -/
structure Line where
  /-- `line` -/
  line : List Char
  /-- `len` -/
  len : BitVec 64

/-- `MAXLINELEN`, as a `size_t`. -/
def lineSize : BitVec 64 := BitVec.ofNat 64 maxlinelen

/-- `len += snprintf(line + len, n, …)` -/
def Line.printN (l : Line) (n : BitVec 64) (text : List Char) : Except Fault Line := do
  let line ← snprintf '\x00' l.line l.len.toNat n.toNat text
  return ⟨line, l.len + BitVec.ofNat 64 text.length⟩

/-- `len += snprintf(lineend, MAXLINELEN - len - 1, …)` -/
def Line.print (l : Line) (text : List Char) : Except Fault Line := l.printN (lineSize - l.len - 1) text

/-- The calls about `helo`. -/
def printHelo (l : Line) : Option (List Char) → Except Fault Line
  | some helo => l.print (" h=".toList ++ helo)
  | none => .ok l

/-- A turn of the loop over the matches. -/
def printMatch (l : Line) (m : CheckMatch) : Except Fault Line := do
  let l ← l.print (" m=".toList ++ m.name.toList)
  if m.weight ≠ 0 then l.print (printSigned m.weight) else return l

/-- `querylogwrite`, on the buffer `line`: what the buffer holds when it is logged. -/
def querylogwrite (q : LogEntry) (line : List Char) : Except Fault (List Char) := do
  let l ← Line.printN ⟨line, 0⟩ (lineSize - 1) q.start
  let l ← printHelo l q.helo
  let l ← q.matched.foldlM printMatch l
  store l.line (maxlinelen - 1) '\x00'

/-! ### The parts of a line -/

/-- What is printed of a match. -/
def CheckMatch.parts (m : CheckMatch) : List (List Char) :=
  (" m=".toList ++ m.name.toList) :: if m.weight ≠ 0 then [printSigned m.weight] else []

/-- What is printed after the first part. -/
def LogEntry.more (q : LogEntry) : List (List Char) :=
  q.helo.toList.map (" h=".toList ++ ·) ++ q.matched.flatMap CheckMatch.parts

/-- What the calls print, one after another. -/
def LogEntry.parts (q : LogEntry) : List (List Char) := q.start :: q.more

/-- The parts are printed, one after another. -/
def printAll (l : Line) (parts : List (List Char)) : Except Fault Line := parts.foldlM Line.print l

theorem printAll_append (l : Line) (parts parts' : List (List Char)) :
    printAll l (parts ++ parts') = printAll l parts >>= fun l => printAll l parts' := List.foldlM_append

theorem printHelo_eq (l : Line) (helo : Option (List Char)) :
    printHelo l helo = printAll l (helo.toList.map (" h=".toList ++ ·)) := by
  cases helo with
  | none => rfl
  | some helo => exact (bind_pure _).symm

theorem printMatch_eq (l : Line) (m : CheckMatch) : printMatch l m = printAll l m.parts := by
  unfold printMatch CheckMatch.parts printAll
  rw [List.foldlM_cons]
  split_ifs
  · simp only [List.foldlM_cons, List.foldlM_nil, bind_pure]
  · rfl

theorem printMatches_eq (l : Line) (ms : List CheckMatch) :
    ms.foldlM printMatch l = printAll l (ms.flatMap CheckMatch.parts) := by
  induction ms generalizing l with
  | nil => rfl
  | cons m ms ih =>
    rw [List.foldlM_cons, List.flatMap_cons, printAll_append, printMatch_eq]
    exact congrArg _ (funext ih)

/-- All the calls are of one kind. -/
theorem querylogwrite_eq (q : LogEntry) (line : List Char) :
    querylogwrite q line = printAll ⟨line, 0⟩ q.parts >>= fun l => store l.line (maxlinelen - 1) '\x00' := by
  have hfirst : Line.printN ⟨line, 0⟩ (lineSize - 1) q.start = Line.print ⟨line, 0⟩ q.start := by
    rw [Line.print, show lineSize - (Line.mk line 0).len = lineSize from BitVec.sub_zero lineSize]
  have hcons : ∀ l parts, printAll l (q.start :: parts) = l.print q.start >>= (printAll · parts) :=
    fun _ _ => List.foldlM_cons
  rw [querylogwrite, hfirst, LogEntry.parts, LogEntry.more, hcons]
  simp only [printHelo_eq, printMatches_eq, printAll_append, bind_assoc]

/-! ### Where the parts go -/

section

variable {l : Line} {s part mem : List Char} {parts : List (List Char)}

theorem toNat_room (h : l.len.toNat ≤ 1023) : (lineSize - l.len - 1).toNat = 1023 - l.len.toNat := by
  rw [lineSize, maxlinelen]
  bv_omega

/-- Behind the buffer, the room that is said to be there is never none. -/
theorem toNat_room_ne_zero (h : 1024 ≤ l.len.toNat) : (lineSize - l.len - 1).toNat ≠ 0 := by
  rw [lineSize, maxlinelen]
  bv_omega

theorem toNat_len_add {len : BitVec 64} (hlen : len.toNat ≤ 1023) (hpart : part.length < 2 ^ 31) :
    (len + BitVec.ofNat 64 part.length).toNat = len.toNat + part.length := by
  rw [BitVec.toNat_add, BitVec.toNat_ofNat]
  omega

/-- After `s` has been printed: the buffer holds as much of it as there is room for, and a NUL. -/
structure Printed (s : List Char) (l : Line) : Prop where
  /-- What the buffer holds; at first it may be anything. -/
  line : ∃ mem, l.line = s.take 1022 ++ mem ∧ (s ≠ [] → ∃ rest, mem = '\x00' :: rest)
  /-- It is as long as ever. -/
  length : l.line.length = maxlinelen
  /-- The whole of `s` counts. -/
  len : l.len.toNat = s.length

theorem printed_nil {line : List Char} (h : line.length = maxlinelen) : Printed [] ⟨line, 0⟩ where
  line := ⟨line, rfl, fun h => absurd rfl h⟩
  length := h
  len := rfl

/-- A part that begins inside the buffer stays inside. -/
theorem print_ok (h : Printed s l) (hs : s.length ≤ 1023) (hpart : part.length < 2 ^ 31) :
    ∃ l', l.print part = .ok l' ∧ Printed (s ++ part) l' := by
  have hlen : l.len.toNat ≤ 1023 := h.len ▸ hs
  have hlen' : (l.len + BitVec.ofNat 64 part.length).toNat = (s ++ part).length := by
    rw [toNat_len_add hlen hpart, h.len, List.length_append]
  obtain ⟨mem, hmem, hnul⟩ := h.line
  rw [Line.print, Line.printN, toNat_room hlen, h.len]
  by_cases hfull : s.length = 1023
  · -- no room: nothing is written
    have hne : s ≠ [] := List.ne_nil_of_length_eq_add_one hfull
    refine ⟨⟨l.line, l.len + BitVec.ofNat 64 part.length⟩, ?_, ⟨mem, ?_, fun _ => hnul hne⟩, h.length, hlen'⟩
    · rw [hfull, snprintf, if_pos (Nat.sub_self 1023)]
      rfl
    · rw [hmem, List.take_append_of_le_length (by omega)]
  · have hall : s.take 1022 = s := List.take_of_length_le (by omega)
    have hmax : s.length + mem.length = 1024 := by
      rw [← List.length_append, ← hall, ← hmem]
      exact h.length
    have htake : (s ++ part).take 1022 = s ++ part.take (1023 - s.length - 1) := by
      rw [List.take_append, hall, Nat.sub_right_comm]
    have hroom : 1023 - s.length ≠ 0 := by omega
    have hfits : 1023 - s.length ≤ mem.length := by omega
    obtain ⟨rest, hrest, hrun⟩ : ∃ rest, (part.take (1023 - s.length - 1) ++ '\x00' :: rest).length = mem.length ∧
        snprintf '\x00' (s ++ mem) s.length (1023 - s.length) part =
          .ok (s ++ part.take (1023 - s.length - 1) ++ '\x00' :: rest) := by
      refine ⟨_, ?_, snprintf_append hroom hfits part⟩
      simp only [List.length_append, List.length_cons, List.length_drop, List.length_take]
      omega
    refine ⟨⟨s ++ part.take (1023 - s.length - 1) ++ '\x00' :: rest, l.len + BitVec.ofNat 64 part.length⟩, ?_,
      ⟨'\x00' :: rest, by rw [htake], fun _ => ⟨rest, rfl⟩⟩, ?_, hlen'⟩
    · rw [hmem, hall, hrun]
      rfl
    · show (s ++ part.take (1023 - s.length - 1) ++ '\x00' :: rest).length = 1024
      rw [List.append_assoc, List.length_append, hrest, hmax]

/-- A part that begins behind the buffer is written there. -/
theorem print_outside (h : Printed s l) (hs : 1024 ≤ s.length) : l.print part = .error .outOfBounds := by
  have hlen : 1024 ≤ l.len.toNat := h.len ▸ hs
  rw [Line.print, Line.printN, snprintf_outside (toNat_room_ne_zero hlen) (h.length ▸ hlen)]
  rfl

/-- How far the parts but the last go. -/
def lastStart (parts : List (List Char)) : ℕ := (parts.dropLast.map List.length).sum

theorem lastStart_cons (hne : parts ≠ []) : lastStart (part :: parts) = part.length + lastStart parts := by
  rw [lastStart, List.dropLast_cons_of_ne_nil hne, List.map_cons, List.sum_cons, lastStart]

/-- **A run of parts** that all begin inside the buffer. -/
theorem printAll_ok (h : Printed s l) (hs : parts ≠ [] → s.length + lastStart parts ≤ 1023)
    (hparts : ∀ part ∈ parts, part.length < 2 ^ 31) :
    ∃ l', printAll l parts = .ok l' ∧ Printed (s ++ parts.flatten) l' := by
  induction parts generalizing s l with
  | nil => exact ⟨l, rfl, by rwa [List.flatten_nil, List.append_nil]⟩
  | cons part parts ih =>
    obtain ⟨hpart, hrest⟩ := List.forall_mem_cons.mp hparts
    have hbegin := hs (List.cons_ne_nil _ _)
    obtain ⟨l₁, h₁, hl₁⟩ := print_ok h (by omega) hpart
    have hnext : parts ≠ [] → (s ++ part).length + lastStart parts ≤ 1023 := by
      intro hne
      rw [lastStart_cons hne] at hbegin
      rw [List.length_append]
      omega
    obtain ⟨l₂, h₂, hl₂⟩ := ih hl₁ hnext hrest
    refine ⟨l₂, ?_, ?_⟩
    · rw [printAll, List.foldlM_cons, h₁, ok_bind]
      exact h₂
    · rwa [List.flatten_cons, ← List.append_assoc]

/-- **A run of parts** one of which begins behind the buffer. -/
theorem printAll_outside (h : Printed s l) (hne : parts ≠ []) (hs : 1024 ≤ s.length + lastStart parts)
    (hparts : ∀ part ∈ parts, part.length < 2 ^ 31) : printAll l parts = .error .outOfBounds := by
  induction parts generalizing s l with
  | nil => exact absurd rfl hne
  | cons part parts ih =>
    obtain ⟨hpart, hrest⟩ := List.forall_mem_cons.mp hparts
    rw [printAll, List.foldlM_cons]
    rcases Nat.lt_or_ge 1023 s.length with hlt | hle
    · rw [print_outside h hlt]
      rfl
    · obtain ⟨l₁, h₁, hl₁⟩ := print_ok h hle hpart
      rw [h₁, ok_bind]
      have hne' : parts ≠ [] := by
        rintro rfl
        have : lastStart [part] = 0 := rfl
        omega
      rw [lastStart_cons hne'] at hs
      exact ih hl₁ hne' (by rw [List.length_append]; omega) hrest

end

/-! ### The line -/

section

variable {q : LogEntry} {line : List Char}

theorem start_ne_nil (q : LogEntry) : q.start ≠ [] := by
  unfold LogEntry.start
  simp only [List.append_assoc]
  intro h
  have hstart : "a=".toList ≠ [] := by decide
  exact hstart (List.append_eq_nil_iff.mp h).1

/-- A NUL behind the first one changes nothing before it. -/
theorem set_nul {s rest : List Char} {i : ℕ} (h : s.length ≤ i) :
    ∃ rest', (s ++ '\x00' :: rest).set i '\x00' = s ++ '\x00' :: rest' := by
  rw [List.set_append_right _ _ h]
  cases i - s.length with
  | zero => exact ⟨rest, rfl⟩
  | succ i => exact ⟨rest.set i '\x00', rfl⟩

/-- **What is logged**, when every part begins inside the buffer: the parts, cut to
`MAXLINELEN - 2` bytes. -/
theorem querylogwrite_ok (hline : line.length = maxlinelen) (hparts : ∀ part ∈ q.parts, part.length < 2 ^ 31)
    (h : lastStart q.parts ≤ 1023) :
    ∃ line', querylogwrite q line = .ok line' ∧ line'.length = maxlinelen ∧
      ∃ rest, line' = q.parts.flatten.take 1022 ++ '\x00' :: rest := by
  have hbegin : q.parts ≠ [] → ([] : List Char).length + lastStart q.parts ≤ 1023 := by
    intro _
    rwa [List.length_nil, Nat.zero_add]
  obtain ⟨l, hrun, hl⟩ := printAll_ok (printed_nil hline) hbegin hparts
  rw [List.nil_append] at hl
  have hne : q.parts.flatten ≠ [] := by
    rw [LogEntry.parts, List.flatten_cons]
    exact List.append_ne_nil_of_left_ne_nil (start_ne_nil q) _
  obtain ⟨mem, hmem, hnul⟩ := hl.line
  obtain ⟨rest, rfl⟩ := hnul hne
  have hlen : maxlinelen - 1 < l.line.length := by
    rw [hl.length, maxlinelen]
    omega
  have hlast : (q.parts.flatten.take 1022).length ≤ maxlinelen - 1 := by
    rw [List.length_take, maxlinelen]
    omega
  refine ⟨l.line.set (maxlinelen - 1) '\x00', ?_, by rw [List.length_set, hl.length], hmem ▸ set_nul hlast⟩
  rw [querylogwrite_eq, hrun, ok_bind, store_lt hlen]

theorem querylogwrite_outside (hline : line.length = maxlinelen) (hparts : ∀ part ∈ q.parts, part.length < 2 ^ 31)
    (h : 1024 ≤ lastStart q.parts) : querylogwrite q line = .error .outOfBounds := by
  have hne : q.parts ≠ [] := List.cons_ne_nil _ _
  rw [querylogwrite_eq, printAll_outside (printed_nil hline) hne (by rwa [List.length_nil, Nat.zero_add]) hparts]
  rfl

/-- **Inside the buffer**: every byte that `querylogwrite` writes lies inside its buffer exactly if
the parts but the last come to at most `MAXLINELEN - 1` bytes. -/
theorem querylogwrite_inside_iff (hline : line.length = maxlinelen)
    (hparts : ∀ part ∈ q.parts, part.length < 2 ^ 31) :
    (∃ line', querylogwrite q line = .ok line') ↔ lastStart q.parts ≤ maxlinelen - 1 := by
  constructor
  · rintro ⟨line', hrun⟩
    by_contra hlt
    rw [maxlinelen] at hlt
    rw [querylogwrite_outside hline hparts (by omega)] at hrun
    cases hrun
  · intro h
    obtain ⟨line', hrun, -⟩ := querylogwrite_ok hline hparts h
    exact ⟨line', hrun⟩

end

/-! ### Two entries -/

/-- A greylisted request with a match. -/
def plainEntry : LogEntry :=
  .ofRequest ⟨some "a@b.example".toList, some "c@d.example".toList, some "192.0.2.1".toList, some "mail".toList⟩
    ⟨1, [⟨"dnsbl", 1⟩], .grey⟩ 5

theorem querylogwrite_plainEntry :
    (∀ part ∈ plainEntry.parts, part.length < 2 ^ 31) ∧
      ∃ line', querylogwrite plainEntry (List.replicate maxlinelen ' ') = .ok line' := by
  have hparts : ∀ part ∈ plainEntry.parts, part.length < 2 ^ 31 := by decide
  exact ⟨hparts, (querylogwrite_inside_iff List.length_replicate hparts).mpr (by decide)⟩

/-- A long address of one letter. -/
def longValue (c : Char) : List Char := List.replicate 1000 c

theorem plain_longValue {name : List Char} {c : Char} (hname : ∀ d ∈ name, d ≠ '\x00' ∧ d ≠ '\n' ∧ d ≠ '\r')
    (hc : c ≠ '\x00' ∧ c ≠ '\n' ∧ c ≠ '\r') :
    ∀ d ∈ name ++ longValue c, d ≠ '\x00' ∧ d ≠ '\n' ∧ d ≠ '\r' := by
  intro d hd
  rw [List.mem_append, longValue, List.mem_replicate] at hd
  rcases hd with hd | ⟨-, rfl⟩
  · exact hname d hd
  · exact hc

theorem eq_notMem_sender : '=' ∉ "sender".toList := by simp

theorem eq_notMem_recipient : '=' ∉ "recipient".toList := by simp

theorem eq_notMem_clientAddress : '=' ∉ "client_address".toList := by simp

theorem eq_notMem_heloName : '=' ∉ "helo_name".toList := by simp

/-- A request with long addresses. Each of its lines is shorter than the buffer it is read into. -/
def longRequest : Request where
  attrs := [⟨"sender".toList, longValue 's', eq_notMem_sender, plain_longValue (plain_of_all rfl) (by decide)⟩,
    ⟨"recipient".toList, longValue 'r', eq_notMem_recipient, plain_longValue (plain_of_all rfl) (by decide)⟩,
    ⟨"client_address".toList, "192.0.2.1".toList, eq_notMem_clientAddress, plain_of_all rfl⟩,
    ⟨"helo_name".toList, "mail".toList, eq_notMem_heloName, plain_of_all rfl⟩]
  nonempty := List.cons_ne_nil _ _

theorem fits_longRequest : ∀ a ∈ longRequest.attrs, a.line.length < maxlinelen - 1 := by
  simp only [longRequest, List.forall_mem_cons, Attr.line, List.length_append, List.length_cons, longValue,
    List.length_replicate]
  decide

/-- What is logged of it, when it is greylisted. -/
def longEntry : LogEntry := .ofRequest longRequest.tuple ⟨0, [], .grey⟩ 0

theorem longEntry_parts : longEntry.parts =
    ["a=greylist d=0 w=0 c=192.0.2.1 s=".toList ++ longValue 's' ++ " r=".toList ++ longValue 'r',
      " h=mail".toList] := rfl

/-- `parse_postfix` accepts it, and `querylogwrite` prints the name of the host behind its buffer. -/
theorem querylogwrite_longEntry :
    (∀ single, ∃ single', parsePostfix single ⟨longRequest.encode, false⟩ =
        (.ok, ⟨longRequest.tuple, single'⟩, ⟨[], false⟩)) ∧
      ∀ line, line.length = maxlinelen → querylogwrite longEntry line = .error .outOfBounds := by
  constructor
  · have hparse := (parsePostfix_iff_intact (r := longRequest) rfl [] false).mpr (intact_of_fits fits_longRequest)
    rwa [List.append_nil] at hparse
  · intro line hline
    have hstart : lastStart longEntry.parts = 2036 := by
      rw [longEntry_parts]
      simp only [lastStart, List.dropLast_cons_of_ne_nil (List.cons_ne_nil _ _), List.dropLast_singleton,
        List.map_cons, List.map_nil, List.length_append, longValue, List.length_replicate]
      rfl
    have hparts : ∀ part ∈ longEntry.parts, part.length < 2 ^ 31 := by
      rw [longEntry_parts]
      simp only [List.forall_mem_cons, List.length_append, longValue, List.length_replicate]
      decide
    exact querylogwrite_outside hline hparts (by omega)

end Gross.Worker
