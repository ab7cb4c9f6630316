import Gross.Foundation.CString
import Gross.Postfix.Parse

/-!
# The reason in an answer

An answer has a text that the administrator has written, with the reason in it in place of
`%reason%`. The mapping language reads a blank as the end of a word, so `mappingstr` puts a
`$` before each blank of the reason. It stops when it has taken all but three characters of
what the buffer is long, whatever it has written for them, and it writes no NUL.

## The model

`mappingLoop` is the loop of `mappingstr`; each byte that it writes is checked against the
block. `assemble_mapresult` gives it a block of `MAXLINELEN` zeros and prints the block as a
string. `escape` is what should be written, and `unescape` reads it back.

## What is proved

`maps_iff` — fewer bytes than `len` are written, a text that fits is written whole, and
`assemble_mapresult` stays in its buffers, exactly if the characters that are taken and the blanks
among them are fewer than `len` (for `assemble_mapresult`, than `MAXLINELEN`), and a text that fits
has three characters less than `len`.

## Honest scope

Lengths are numbers of any size.
-/

namespace Gross.Sjsms

open Foundation Postfix

/-- A block, and how much of it has been written. -/
structure Out where
  /-- `to` -/
  mem : List Char
  /-- `to_ptr - to` -/
  written : ℕ
  deriving DecidableEq, Repr

/-- `*to_ptr++ = c` -/
def Out.put (out : Out) (c : Char) : Except Fault Out := do
  let mem ← store out.mem out.written c
  return ⟨mem, out.written + 1⟩

/-- What is written for a character. -/
def Out.putMapped (out : Out) (c : Char) : Except Fault Out :=
  match c with
  | ' ' => do
    let out ← out.put '$'
    out.put ' '
  | c => out.put c

/-- The loop of `mappingstr`, from `from_ptr` on; `taken` is `from_ptr - from`. -/
def mappingLoop (len : ℕ) (taken : ℕ) (out : Out) : List Char → Except Fault (ℕ × Out)
  | [] => .ok (taken, out)
  | c :: rest =>
    if (taken : ℤ) < len - 3 then do
      let out ← out.putMapped c
      mappingLoop len (taken + 1) out rest
    else .ok (taken, out)

/-- `mappingstr`: what it returns, and what it has written. -/
def mappingstr (reason : Option (List Char)) (mem : List Char) (len : ℕ) : Except Fault (ℤ × Out) := do
  let (taken, out) ← mappingLoop len 0 ⟨mem, 0⟩ (reason.getD [])
  return (if (taken : ℤ) > len - 2 then -1 else 0, out)

/-- `REASONTEMPLATE` -/
def reasontemplate : List Char := "%reason%".toList

/-- `strstr(s, REASONTEMPLATE)`: what stands before it, and what stands after. -/
def splitReason : List Char → Option (List Char × List Char)
  | [] => none
  | c :: s =>
    if reasontemplate.isPrefixOf (c :: s) then some ([], (c :: s).drop reasontemplate.length)
    else (splitReason s).map fun (prologue, epilogue) => (c :: prologue, epilogue)

/-- What is printed to `result`. -/
def resultText (template mapreason : List Char) : Except Fault (List Char) :=
  match splitReason template with
  | none => .ok template
  | some (prologue, epilogue) => do
    let mapped ← strdup '\x00' mapreason
    return prologue ++ mapped ++ epilogue

/-- `assemble_mapresult` -/
def assembleMapresult (template : List Char) (reason : Option (List Char)) : Except Fault (List Char) := do
  let zeros := List.replicate maxlinelen '\x00'
  let (_, out) ← mappingstr reason zeros maxlinelen
  let text ← resultText template out.mem
  let result ← snprintf '\x00' zeros 0 maxlinelen text
  strdup '\x00' result

/-! ### What should be written -/

/-- What stands for a character. -/
def escapeChar (c : Char) : List Char := if c = ' ' then ['$', ' '] else [c]

/-- The text with a `$` before each blank. -/
def escape (s : List Char) : List Char := s.flatMap escapeChar

/-- The text without them. -/
def unescape : List Char → List Char
  | '$' :: ' ' :: s => ' ' :: unescape s
  | c :: s => c :: unescape s
  | [] => []

@[simp] theorem escape_cons (c : Char) (s : List Char) : escape (c :: s) = escapeChar c ++ escape s := rfl

theorem length_escape (s : List Char) : (escape s).length = s.length + s.count ' ' := by
  induction s with
  | nil => rfl
  | cons c s ih =>
    rw [escape_cons, List.length_append, ih, List.length_cons, List.count_cons, escapeChar]
    by_cases hc : c = ' '
    · simp only [hc, if_true, beq_self_eq_true, List.length_cons, List.length_nil]
      omega
    · simp only [hc, if_false, beq_iff_eq, List.length_cons, List.length_nil]
      omega

theorem nul_notMem_escape {s : List Char} (h : '\x00' ∉ s) : '\x00' ∉ escape s := by
  intro hmem
  obtain ⟨c, hc, hmem⟩ := List.mem_flatMap.mp hmem
  unfold escapeChar at hmem
  split_ifs at hmem
  · simp at hmem
  · exact h (List.mem_singleton.mp hmem ▸ hc)

/-- A blank does not begin what is written. -/
theorem escape_ne_blank (s t : List Char) : escape s ≠ ' ' :: t := by
  cases s with
  | nil => exact fun h => nomatch h
  | cons c s =>
    rw [escape_cons, escapeChar]
    split_ifs with hc
    · intro h
      cases h
    · intro h
      exact hc (List.cons.inj h).1

theorem unescape_cons {c : Char} {s : List Char} (h : ∀ t, s ≠ ' ' :: t) : unescape (c :: s) = c :: unescape s := by
  rw [unescape]
  rintro t rfl rfl
  exact h t rfl

/-- **The reason is read back.** -/
theorem unescape_escape (s : List Char) : unescape (escape s) = s := by
  induction s with
  | nil => rfl
  | cons c s ih =>
    rw [escape_cons, escapeChar]
    split_ifs with hc
    · rw [hc, List.cons_append, List.cons_append, List.nil_append, unescape, ih]
    · rw [List.cons_append, List.nil_append, unescape_cons (escape_ne_blank s), ih]

/-! ### What is written -/

variable {pre rest : List Char} {len taken : ℕ} {reason : List Char}

theorem put_append (pre : List Char) (x : Char) (rest : List Char) (c : Char) :
    Out.put ⟨pre ++ x :: rest, pre.length⟩ c = .ok ⟨(pre ++ [c]) ++ rest, (pre ++ [c]).length⟩ := by
  rw [Out.put, store_append]
  simp [pure, Except.pure]

theorem put_end (pre : List Char) (c : Char) : Out.put ⟨pre, pre.length⟩ c = .error .outOfBounds := by
  rw [Out.put, store, if_neg (Nat.lt_irrefl _)]
  rfl

theorem putMapped_eq (out : Out) (c : Char) : out.putMapped c = (escapeChar c).foldlM Out.put out := by
  unfold Out.putMapped escapeChar
  split
  · simp
  · next hc =>
    rw [if_neg hc]
    exact (bind_pure (out.put c)).symm

/-- Writing goes on as long as there is room. -/
theorem foldlM_put (cs : List Char) (pre rest : List Char) :
    cs.foldlM Out.put ⟨pre ++ rest, pre.length⟩ =
      if cs.length ≤ rest.length then .ok ⟨(pre ++ cs) ++ rest.drop cs.length, (pre ++ cs).length⟩
      else .error .outOfBounds := by
  induction cs generalizing pre rest with
  | nil => simp [pure, Except.pure]
  | cons c cs ih =>
    rw [List.foldlM_cons]
    cases rest with
    | nil =>
      rw [List.append_nil, put_end]
      exact (if_neg (Nat.not_succ_le_zero _)).symm
    | cons x rest =>
      rw [put_append, ok_bind, ih]
      simp

/-- The loop writes what should be written, of the characters that it takes. -/
theorem mappingLoop_eq (len taken : ℕ) (out : Out) (s : List Char) :
    mappingLoop len taken out s =
      (escape (s.take (len - 3 - taken))).foldlM Out.put out >>= fun out =>
        .ok (taken + (s.take (len - 3 - taken)).length, out) := by
  induction s generalizing taken out with
  | nil => simp [mappingLoop, escape]
  | cons c s ih =>
    rw [mappingLoop]
    by_cases hlt : taken < len - 3
    · obtain ⟨n, hn⟩ := Nat.exists_eq_add_one_of_ne_zero (Nat.sub_ne_zero_of_lt hlt)
      have hn' : len - 3 - (taken + 1) = n := by omega
      rw [if_pos (by omega), hn, List.take_succ_cons, escape_cons, List.foldlM_append, bind_assoc, putMapped_eq]
      congr 1
      funext out
      rw [ih, hn', List.length_cons, Nat.add_assoc, Nat.add_comm 1]
    · rw [if_neg (by omega), Nat.sub_eq_zero_of_le (Nat.not_lt.mp hlt)]
      simp [escape]

/-- What `mappingstr` writes. -/
def mapped (len : ℕ) (reason : List Char) : List Char := escape (reason.take (len - 3))

/-- What `mappingstr` does: it never returns `-1`. -/
theorem mappingstr_eq (hlen : 3 ≤ len) (reason mem : List Char) :
    mappingstr (some reason) mem len =
      if (mapped len reason).length ≤ mem.length then
        .ok (0, ⟨overwrite mem 0 (mapped len reason), (mapped len reason).length⟩)
      else .error .outOfBounds := by
  have hput := foldlM_put (mapped len reason) [] mem
  have htaken : (reason.take (len - 3)).length ≤ len - 3 := List.length_take_le _ _
  rw [List.nil_append, List.nil_append, List.length_nil] at hput
  rw [mappingstr, Option.getD_some, mappingLoop_eq, Nat.sub_zero, Nat.zero_add, ← mapped, hput]
  split_ifs
  · rw [ok_bind, ok_bind, overwrite_start]
    dsimp only
    rw [if_neg (by omega)]
    rfl
  · rfl

/-! ### What it is for -/

/-- Fewer bytes than `len` are written. -/
def Fewer (len : ℕ) (reason : List Char) : Prop :=
  ∀ mem : List Char, len ≤ mem.length →
    ∃ ret out, mappingstr (some reason) mem len = .ok (ret, out) ∧ out.written < len

/-- The block begins with the reason, with a `$` before each blank, and the reason can be read back. -/
def Whole (len : ℕ) (reason : List Char) : Prop :=
  ∀ mem : List Char, len ≤ mem.length →
    ∃ ret out, mappingstr (some reason) mem len = .ok (ret, out) ∧ out.mem = overwrite mem 0 (escape reason) ∧
      unescape (out.mem.take out.written) = reason

/-- `mappingstr` and `assemble_mapresult` are right about a reason. -/
structure Maps (len : ℕ) (reason : List Char) : Prop where
  /-- Fewer bytes than `len` are written. -/
  fewer : Fewer len reason
  /-- What fits is written whole. -/
  whole : (escape reason).length < len → Whole len reason
  /-- `assemble_mapresult` stays in its buffers. -/
  assembled : ∀ template, ∃ result, assembleMapresult template (some reason) = .ok result

theorem fewer_iff (hlen : 3 ≤ len) : Fewer len reason ↔ (mapped len reason).length < len := by
  constructor
  · intro h
    obtain ⟨ret, out, heq, hlt⟩ := h (List.replicate len '\x00') (Nat.le_of_eq List.length_replicate.symm)
    rw [mappingstr_eq hlen] at heq
    split_ifs at heq
    cases heq
    exact hlt
  · intro h mem hmem
    exact ⟨_, _, (mappingstr_eq hlen reason mem).trans (if_pos (by omega)), h⟩

theorem length_mapped (len : ℕ) (reason : List Char) :
    (mapped len reason).length = (reason.take (len - 3)).length + (reason.take (len - 3)).count ' ' := length_escape _

theorem length_mapped_le (len : ℕ) (reason : List Char) : (mapped len reason).length ≤ (escape reason).length := by
  have hcount : (reason.take (len - 3)).count ' ' ≤ reason.count ' ' := (List.take_sublist _ _).count_le ' '
  have htake : (reason.take (len - 3)).length ≤ reason.length := (List.take_sublist _ _).length_le
  rw [length_mapped, length_escape]
  omega

theorem whole_iff (hlen : 3 ≤ len) (hfits : (escape reason).length < len) : Whole len reason ↔ reason.length ≤ len - 3 := by
  have hle := length_mapped_le len reason
  constructor
  · intro h
    obtain ⟨ret, out, heq, -, hback⟩ := h (List.replicate len '\x00') (Nat.le_of_eq List.length_replicate.symm)
    rw [mappingstr_eq hlen, if_pos (by rw [List.length_replicate]; omega)] at heq
    cases heq
    -- what can be read back is what was taken
    rw [overwrite_start, List.take_left, mapped, unescape_escape] at hback
    have hlength := congrArg List.length hback
    rw [List.length_take] at hlength
    omega
  · intro h mem hmem
    have hall : mapped len reason = escape reason := by rw [mapped, List.take_of_length_le h]
    refine ⟨_, _, (mappingstr_eq hlen reason mem).trans (if_pos (by omega)), by rw [hall], ?_⟩
    dsimp only
    rw [overwrite_start, List.take_left, hall, unescape_escape]

/-- What has been printed is ended. -/
theorem print_result (text : List Char) :
    ∃ result, (snprintf '\x00' (List.replicate maxlinelen '\x00') 0 maxlinelen text >>= strdup '\x00') = .ok result := by
  have hprint : snprintf '\x00' ([] ++ List.replicate maxlinelen '\x00') ([] : List Char).length maxlinelen text = _ :=
    snprintf_append (Nat.succ_ne_zero 1023) (Nat.le_of_eq List.length_replicate.symm) text
  rw [List.nil_append, List.length_nil] at hprint
  rw [hprint, ok_bind]
  exact ⟨_, strdup_of_mem (List.mem_append_right _ List.mem_cons_self)⟩

theorem assembled_iff (hnul : '\x00' ∉ reason) :
    (∀ template, ∃ result, assembleMapresult template (some reason) = .ok result) ↔
      (mapped maxlinelen reason).length < maxlinelen := by
  have hmapped : '\x00' ∉ mapped maxlinelen reason := nul_notMem_escape fun h => hnul (List.mem_of_mem_take h)
  constructor
  · intro h
    obtain ⟨result, hresult⟩ := h reasontemplate
    obtain ⟨⟨ret, out⟩, hmap, hresult⟩ := bind_eq_ok hresult
    obtain ⟨text, htext, -⟩ := bind_eq_ok hresult
    rw [mappingstr_eq (by decide), List.length_replicate] at hmap
    split_ifs at hmap with hle
    cases hmap
    refine Nat.lt_of_le_of_ne hle fun heq => ?_
    -- the block is full, and `%s` has no end
    have hsplit : splitReason reasontemplate = some ([], []) := rfl
    rw [resultText, hsplit, overwrite_start, heq, List.drop_of_length_le (Nat.le_of_eq List.length_replicate),
      List.append_nil] at htext
    dsimp only at htext
    rw [strdup_of_notMem hmapped] at htext
    cases htext
  · intro hlt template
    obtain ⟨n, hn⟩ := Nat.exists_eq_add_one_of_ne_zero (Nat.sub_ne_zero_of_lt hlt)
    have hread : strdup '\x00' (overwrite (List.replicate maxlinelen '\x00') 0 (mapped maxlinelen reason)) =
        .ok (mapped maxlinelen reason) := by
      rw [overwrite_start, List.drop_replicate, hn, List.replicate_succ, strdup_append hmapped]
    have htext : ∃ text, resultText template
        (overwrite (List.replicate maxlinelen '\x00') 0 (mapped maxlinelen reason)) = .ok text := by
      unfold resultText
      split
      · exact ⟨_, rfl⟩
      · rw [hread]
        exact ⟨_, rfl⟩
    obtain ⟨text, htext⟩ := htext
    obtain ⟨result, hresult⟩ := print_result text
    refine ⟨result, ?_⟩
    rw [assembleMapresult, mappingstr_eq (by decide), if_pos (by rw [List.length_replicate]; omega), ok_bind]
    dsimp only
    rw [htext, ok_bind]
    exact hresult

/-- **`mappingstr` keeps within `len` and writes what fits, and `assemble_mapresult` keeps within its buffers**,
exactly if what is taken and the blanks in it are few enough. -/
theorem maps_iff (hnul : '\x00' ∉ reason) (hlen : 3 ≤ len) :
    Maps len reason ↔
      (reason.take (len - 3)).length + (reason.take (len - 3)).count ' ' < len ∧
      (reason.length + reason.count ' ' < len → reason.length ≤ len - 3) ∧
      (reason.take (maxlinelen - 3)).length + (reason.take (maxlinelen - 3)).count ' ' < maxlinelen := by
  rw [← length_mapped len, ← length_mapped maxlinelen, ← length_escape, ← fewer_iff hlen, ← assembled_iff hnul]
  constructor
  · exact fun h => ⟨h.fewer, fun hfits => (whole_iff hlen hfits).mp (h.whole hfits), h.assembled⟩
  · exact fun h => ⟨h.1, fun hfits => (whole_iff hlen hfits).mpr (h.2.1 hfits), h.2.2⟩

theorem maps_try_later : Maps maxlinelen "Please try again later.".toList :=
  (maps_iff (by decide) (by decide)).mpr ⟨by decide, fun _ => by decide, by decide⟩

/-- Blanks as many as are taken are twice as many bytes, and overrun the buffer. And of a buffer of three bytes
none is used, where one would do. -/
theorem blanks_overrun :
    assembleMapresult reasontemplate (some (List.replicate 1021 ' ')) = .error .outOfBounds ∧
      (escape ['a']).length < 3 ∧ mappingstr (some ['a']) ['x', 'y', 'z'] 3 = .ok (0, ⟨['x', 'y', 'z'], 0⟩) := by
  refine ⟨?_, by decide, rfl⟩
  have htake : (List.replicate 1021 ' ').take (maxlinelen - 3) = List.replicate 1021 ' ' :=
    List.take_of_length_le (Nat.le_of_eq List.length_replicate)
  have hlength : (mapped maxlinelen (List.replicate 1021 ' ')).length = 2042 := by
    rw [length_mapped, htake, List.length_replicate, List.count_replicate_self]
  rw [assembleMapresult, mappingstr_eq (by decide), hlength, List.length_replicate, if_neg (by decide)]
  rfl

end Gross.Sjsms
