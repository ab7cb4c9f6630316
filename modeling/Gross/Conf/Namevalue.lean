import Gross.Conf.ReadConfig

/-!
# A line of the configuration file, in place

`namevalueparams` cuts a line up where it stands: a delimiter becomes a NUL, the blanks at
the end of a piece become NULs, from the last one back, and names, values and parameters
are pointers into the buffer. The parameters are copied only when all cuts have been
made.

## The model

The buffer is a list of characters, and pointers are indices into it. `trimEnd` is the
loop that goes back from the end of a string: where the string is empty it starts at the
character before it.

## What is proved

* `namevalueparams_eq` — on every line, cutting in place gives what `namevalueparams`
  gives on the text of the line.
* `namevalueparams_meets_iff` — a line with a name, a value and parameters that are not blank
  is split into them, and other lines with a `=` are refused, exactly if the name is not
  blank, and either everything after the `=` is or no part of it between semicolons is.

## The argument

Before the string that `trim` is given there is, behind blanks, the NUL of the cut before it,
and there the loop stops. Only the name has nothing before it. A blank part ends the loop
over the parameters, but not the success of the line.
-/

namespace Gross.Conf

open Foundation

/-- What `namevalueparams` returns. -/
def Line.ret : Line → ℤ
  | .nothing => 0
  | .invalid => -1
  | .option _ => 1

/-! ### The text of a line -/

/-- What `trim` takes off. -/
def blank (c : Char) : Bool := c = ' ' ∨ c = '\t'

theorem trim_eq (s : List Char) : trim s = (s.dropWhile blank).rdropWhile blank := rfl

/-- Blanks, the trimmed string, and blanks. -/
theorem exists_trim (s : List Char) : ∃ bs, s = s.takeWhile blank ++ trim s ++ bs ∧ ∀ c ∈ bs, blank c := by
  refine ⟨(s.dropWhile blank).rtakeWhile blank, ?_, fun c hc => List.mem_rtakeWhile_imp hc⟩
  rw [List.append_assoc, trim_eq, List.rdropWhile_append_rtakeWhile, List.takeWhile_append_dropWhile]

theorem trim_eq_nil_iff {s : List Char} : trim s = [] ↔ ∀ c ∈ s, blank c := by
  rw [trim_eq, List.rdropWhile_eq_nil_iff]
  constructor
  · intro h c hc
    rw [← List.takeWhile_append_dropWhile (p := blank) (l := s), List.mem_append] at hc
    exact hc.elim (fun hc => List.mem_takeWhile_imp hc) (h c)
  · intro h c hc
    exact h c (List.dropWhile_suffix _ |>.mem hc)

/-- A trimmed string ends with something. -/
theorem exists_last_trim {s : List Char} (hs : trim s ≠ []) : ∃ t c, trim s = t ++ [c] ∧ blank c = false := by
  refine ⟨_, _, (List.dropLast_append_getLast hs).symm, ?_⟩
  exact Bool.eq_false_iff.mpr (List.rdropWhile_last_not blank (s.dropWhile blank) hs)

theorem mem_of_mem_trim {s : List Char} {c : Char} (h : c ∈ trim s) : c ∈ s := by
  obtain ⟨bs, hsplit, -⟩ := exists_trim s
  rw [hsplit, List.append_assoc]
  exact List.mem_append_right _ (List.mem_append_left _ h)

/-- Blanks before a string do not count. -/
theorem trim_dropWhile (s : List Char) : trim (s.dropWhile blank) = trim s := by
  rw [trim_eq, trim_eq, List.dropWhile_idempotent]

/-- Blanks behind it do not count. -/
theorem trim_append_blank {bs : List Char} (hbs : ∀ c ∈ bs, blank c) (s : List Char) : trim (s ++ bs) = trim s := by
  have hr : ∀ u : List Char, (u ++ bs).rdropWhile blank = u.rdropWhile blank := by
    intro u
    rw [List.rdropWhile, List.reverse_append,
      List.dropWhile_append_of_pos fun c hc => hbs c (List.mem_reverse.mp hc)]
    rfl
  rw [trim_eq, trim_eq, List.dropWhile_append]
  split_ifs with hempty
  · rw [List.isEmpty_iff.mp hempty, List.dropWhile_eq_nil_iff.mpr hbs]
  · exact hr _

theorem trim_rdropWhile (s : List Char) : trim (s.rdropWhile blank) = trim s := by
  have hsplit : s.rdropWhile blank ++ s.rtakeWhile blank = s := List.rdropWhile_append_rtakeWhile
  rw [← trim_append_blank (fun c hc => List.mem_rtakeWhile_imp hc) (s.rdropWhile blank), hsplit]

/-- A string with something in it that is not blank is trimmed on both sides of that. -/
theorem trim_append_cons {c : Char} (hc : blank c = false) (a b : List Char) :
    trim (a ++ c :: b) = a.dropWhile blank ++ c :: b.rdropWhile blank := by
  have hd : ∀ u v : List Char, (u ++ c :: v).dropWhile blank = u.dropWhile blank ++ c :: v := by
    intro u v
    rw [List.dropWhile_append]
    split_ifs with hempty
    · rw [List.isEmpty_iff.mp hempty, List.dropWhile_cons_of_neg (by simp [hc]), List.nil_append]
    · rfl
  rw [trim_eq, hd, List.rdropWhile, List.reverse_append, List.reverse_cons, List.append_assoc, List.singleton_append, hd]
  simp [List.rdropWhile]

theorem aDelimB_append {delim : Char} {a : List Char} (ha : delim ∉ a) (b : List Char) :
    aDelimB (a ++ delim :: b) delim = some (trim a, trim b) := by
  have hne : ∀ c ∈ a, (decide (c ≠ delim)) = true := fun c hc => by simpa using ne_of_mem_of_not_mem hc ha
  rw [aDelimB, if_pos (by simp), List.takeWhile_append_of_pos hne, List.dropWhile_append_of_pos hne]
  simp

theorem paramLoop_of_notMem {tail : List Char} (h : ';' ∉ tail) : paramLoop tail = (tail, []) := by
  rw [paramLoop]
  split
  · rfl
  · rename_i h'
    rw [aDelimB, if_neg h] at h'
    cases h'

theorem paramLoop_append {a : List Char} (ha : ';' ∉ a) (b : List Char) :
    paramLoop (a ++ ';' :: b) =
      if trim a = [] ∨ trim b = [] then (trim a, [])
      else (trim a, (paramLoop (trim b)).1 :: (paramLoop (trim b)).2) := by
  rw [paramLoop]
  split
  · rename_i h'
    rw [aDelimB_append ha] at h'
    cases h'
  · rename_i h'
    rw [aDelimB_append ha] at h'
    cases h'
    rfl

/-- What is between semicolons, trimmed. -/
def parts (text : List Char) : List (List Char) := (text.splitOn ';').map trim

theorem parts_of_notMem {text : List Char} (h : ';' ∉ text) : parts text = [trim text] := by
  rw [parts, List.splitOn_eq_singleton h]
  rfl

theorem parts_append {a : List Char} (ha : ';' ∉ a) (b : List Char) : parts (a ++ ';' :: b) = trim a :: parts b := by
  rw [parts, List.splitOn_append_cons_self_of_not_mem ha]
  rfl

/-- A text whose parts are not blank is not. -/
theorem trim_ne_nil_of_parts {text : List Char} (h : ∀ part ∈ parts text, part ≠ []) : trim text ≠ [] := by
  intro htrim
  have hblank := trim_eq_nil_iff.mp htrim
  have hmem : ';' ∉ text := fun hmem => absurd (hblank _ hmem) (by decide)
  rw [parts_of_notMem hmem] at h
  exact h _ (List.mem_singleton_self _) htrim

/-- **The loop over the parameters finds the parts of the value, if none of them is blank.** -/
theorem paramLoop_parts {text : List Char} (h : ∀ part ∈ parts text, part ≠ []) :
    (paramLoop (trim text)).1 :: (paramLoop (trim text)).2 = parts text := by
  induction hn : text.length using Nat.strong_induction_on generalizing text with
  | _ n ih =>
    by_cases hmem : ';' ∈ text
    · obtain ⟨a, b, rfl, ha⟩ := List.eq_append_cons_of_mem hmem
      rw [parts_append ha] at h ⊢
      obtain ⟨hta, hb⟩ := List.forall_mem_cons.mp h
      have htb := trim_ne_nil_of_parts hb
      have hlen : b.length < n := by
        rw [← hn, List.length_append, List.length_cons]
        omega
      have ha' : ';' ∉ a.dropWhile blank := fun h => ha ((List.dropWhile_suffix _).mem h)
      rw [trim_append_cons rfl, paramLoop_append ha', trim_dropWhile, trim_rdropWhile, if_neg (not_or.mpr ⟨hta, htb⟩),
        ih _ hlen hb rfl]
    · have htrim : ';' ∉ trim text := fun h => hmem (mem_of_mem_trim h)
      rw [paramLoop_of_notMem htrim, parts_of_notMem hmem]

namespace InPlace

/-- The loop of `trim`, with `end` one less. -/
def trimEnd : ℕ → List Char → Except Fault (List Char)
  | 0, _ => .error .outOfBounds
  | e + 1, mem => do
    let c ← load mem e
    if blank c then
      let mem ← store mem e '\x00'
      trimEnd e mem
    else return mem

/-- `trim`: the buffer, where the string begins now, and how long it is. -/
def trim (mem : List Char) (buf : ℕ) : Except Fault (List Char × ℕ × ℕ) := do
  let n ← strspn '\x00' blank (mem.drop buf)
  let buf := buf + n
  let len ← strlen '\x00' (mem.drop buf)
  let mem ← trimEnd (buf + len) mem
  let len ← strlen '\x00' (mem.drop buf)
  return (mem, buf, len)

/-- What `a_delim_b` makes of a string. -/
inductive Cut where
  /-- It returns 0: there is no delimiter. -/
  | none
  /-- It returns -1: what is before or after the delimiter is empty. -/
  | empty (mem : List Char)
  /-- It returns 1, with `stra` and `strb`. -/
  | pair (mem : List Char) (stra strb : ℕ)
  deriving DecidableEq, Repr

/-- `a_delim_b`, when the delimiter has been cut out: what is before and after it is trimmed. -/
def trimPair (mem : List Char) (stra strb : ℕ) : Except Fault Cut := do
  let (mem, stra, n) ← trim mem stra
  if n = 0 then return .empty mem
  let (mem, strb, n) ← trim mem strb
  if n = 0 then return .empty mem
  return .pair mem stra strb

/-- `a_delim_b` -/
def aDelimB (mem : List Char) (buffer : ℕ) (delim : Char) : Except Fault Cut := do
  match ← strchr '\x00' delim (mem.drop buffer) with
  | none => return .none
  | some i =>
    let ptr := buffer + i
    let mem ← store mem ptr '\x00'
    trimPair mem buffer (ptr + 1)

variable {mem mem' : List Char}

theorem length_trimEnd {e : ℕ} (h : trimEnd e mem = .ok mem') : mem'.length = mem.length := by
  induction e generalizing mem with
  | zero => cases h
  | succ e ih =>
    obtain ⟨c, -, h⟩ := bind_eq_ok h
    split_ifs at h
    · obtain ⟨mem₁, hmem₁, h⟩ := bind_eq_ok h
      rw [ih h, of_store_eq_ok hmem₁, List.length_set]
    · cases h
      rfl

theorem of_trim {buf buf' n : ℕ} (h : trim mem buf = .ok (mem', buf', n)) : mem'.length = mem.length ∧ buf ≤ buf' := by
  obtain ⟨k, -, h⟩ := bind_eq_ok h
  obtain ⟨len, -, h⟩ := bind_eq_ok h
  obtain ⟨mem₁, hmem₁, h⟩ := bind_eq_ok h
  obtain ⟨len', -, h⟩ := bind_eq_ok h
  cases h
  exact ⟨length_trimEnd hmem₁, Nat.le_add_right _ _⟩

theorem of_trimPair {stra strb stra' strb' : ℕ} (h : trimPair mem stra strb = .ok (.pair mem' stra' strb')) :
    mem'.length = mem.length ∧ strb ≤ strb' := by
  obtain ⟨⟨mem₁, stra₁, n⟩, htrim, h⟩ := bind_eq_ok h
  dsimp only at h
  split_ifs at h
  · cases h
  · obtain ⟨⟨mem₂, strb₂, n'⟩, htrim', h⟩ := bind_eq_ok h
    dsimp only at h
    split_ifs at h
    · cases h
    · cases h
      obtain ⟨hlen, -⟩ := of_trim htrim
      obtain ⟨hlen', hle⟩ := of_trim htrim'
      exact ⟨hlen'.trans hlen, hle⟩

/-- What is after a delimiter is further on. -/
theorem of_aDelimB {buffer stra strb : ℕ} {delim : Char} (h : aDelimB mem buffer delim = .ok (.pair mem' stra strb)) :
    mem'.length - strb < mem.length - buffer := by
  obtain ⟨i, hi, h⟩ := bind_eq_ok h
  cases i with
  | none => cases h
  | some i =>
    have hlt := lt_of_strchr hi
    obtain ⟨mem₁, hmem₁, h⟩ := bind_eq_ok h
    obtain ⟨hlen, hle⟩ := of_trimPair h
    rw [of_store_eq_ok hmem₁, List.length_set] at hlen
    rw [List.length_drop] at hlt
    omega

/-- The loop of `namevalueparams`: the buffer, and pointers to the parameters. -/
def paramLoop (mem : List Char) (tail : ℕ) : Except Fault (List Char × List ℕ) :=
  match _h : aDelimB mem tail ';' with
  | .error fault => .error fault
  | .ok .none => .ok (mem, [])
  | .ok (.empty mem) => .ok (mem, [])
  | .ok (.pair mem _ tail) => do
    let (mem, params) ← paramLoop mem tail
    return (mem, tail :: params)
termination_by mem.length - tail
decreasing_by exact of_aDelimB _h

/-- `namevalueparams` cuts off the comment. -/
def cutComment (mem : List Char) : Except Fault (List Char) := do
  match ← strchr '\x00' '#' mem with
  | some ptr => store mem ptr '\x00'
  | none => return mem

/-- `namevalueparams`. The name and the value are read where they stand. -/
def namevalueparams (mem : List Char) : Except Fault Line := do
  let mem ← cutComment mem
  match ← aDelimB mem 0 '=' with
  | .none => return .nothing
  | .empty _ => return .invalid
  | .pair mem name value =>
    let (mem, params) ← paramLoop mem value
    let params ← params.mapM fun p => strdup '\x00' (mem.drop p)
    let name ← strdup '\x00' (mem.drop name)
    let value ← strdup '\x00' (mem.drop value)
    return .option ⟨String.ofList name, String.ofList value, params.map String.ofList⟩

/-! ### Trimming in place -/

variable {s : List Char}

theorem nul_not_blank : blank '\x00' = false := rfl

theorem nul_notMem_of_blank (hs : ∀ c ∈ s, blank c) : '\x00' ∉ s := by
  intro h
  have := hs _ h
  rw [nul_not_blank] at this
  cases this

/-- The loop goes over blanks. -/
theorem trimEnd_blanks {bs : List Char} (hbs : ∀ c ∈ bs, blank c) (pre rest : List Char) :
    trimEnd (pre.length + bs.length) (pre ++ bs ++ rest) =
      trimEnd pre.length (pre ++ List.replicate bs.length '\x00' ++ rest) := by
  induction bs using List.reverseRecOn generalizing rest with
  | nil => rfl
  | append_singleton bs b ih =>
    obtain ⟨hb, hbs⟩ : blank b = true ∧ ∀ c ∈ bs, blank c := by
      simpa [or_imp, forall_and, and_comm] using hbs
    have hmem : pre ++ (bs ++ [b]) ++ rest = (pre ++ bs) ++ b :: rest := by simp
    have hlen : pre.length + (bs ++ [b]).length = (pre ++ bs).length + 1 := by simp [Nat.add_assoc]
    rw [hmem, hlen, trimEnd, load_append, ok_bind, if_pos hb, store_append, ok_bind, List.length_append, ih hbs]
    simp [List.replicate_succ']

/-- It stops where there is none. -/
theorem trimEnd_stop {c : Char} (hc : blank c = false) (pre rest : List Char) :
    trimEnd (pre ++ [c]).length (pre ++ c :: rest) = .ok (pre ++ c :: rest) := by
  rw [List.length_append, List.length_singleton, trimEnd, load_append, ok_bind, if_neg (by simp [hc])]
  rfl

/-- The blanks behind a string become NULs, if there is something before them. -/
theorem trimEnd_ok {c : Char} (hc : blank c = false) {bs : List Char} (hbs : ∀ b ∈ bs, blank b) (pre rest : List Char) :
    trimEnd ((pre ++ [c]).length + bs.length) (pre ++ [c] ++ bs ++ rest) =
      .ok (pre ++ [c] ++ List.replicate bs.length '\x00' ++ rest) := by
  rw [trimEnd_blanks hbs, List.append_assoc (pre ++ [c]), List.append_assoc pre, List.singleton_append]
  exact trimEnd_stop hc ..

/-- What is left of a string where it stands. -/
def trimmed (s : List Char) : List Char :=
  s.takeWhile blank ++ Conf.trim s ++ List.replicate (s.length - (s.takeWhile blank ++ Conf.trim s).length) '\x00'

theorem length_trimmed (s : List Char) : (trimmed s).length = s.length := by
  obtain ⟨bs, hsplit, -⟩ := exists_trim s
  have hlen := congrArg List.length hsplit
  rw [List.length_append] at hlen
  rw [trimmed, List.length_append, List.length_replicate]
  omega

/-- It begins with blanks, and then is the trimmed string. -/
theorem trimmed_append (s rest : List Char) :
    ∃ rest', trimmed s ++ '\x00' :: rest = s.takeWhile blank ++ (Conf.trim s ++ '\x00' :: rest') := by
  refine ⟨List.replicate (s.length - (s.takeWhile blank ++ Conf.trim s).length) '\x00' ++ rest, ?_⟩
  rw [trimmed, List.append_assoc, ← List.cons_append, ← List.replicate_succ, List.replicate_succ']
  simp only [List.append_assoc, List.singleton_append]

theorem trim_ok {buf n len' : ℕ} (len : ℕ) (hspn : strspn '\x00' blank (mem.drop buf) = .ok n)
    (hlen : strlen '\x00' (mem.drop (buf + n)) = .ok len) (hend : trimEnd (buf + n + len) mem = .ok mem')
    (hlen' : strlen '\x00' (mem'.drop (buf + n)) = .ok len') : trim mem buf = .ok (mem', buf + n, len') := by
  simp only [trim, hspn, hlen, hend, hlen', ok_bind]
  rfl

/-- A string that is not blank is trimmed. -/
theorem trim_of_ne_nil (hnul : '\x00' ∉ s) (hs : Conf.trim s ≠ []) (pre rest : List Char) :
    trim (pre ++ s ++ '\x00' :: rest) pre.length =
      .ok (pre ++ trimmed s ++ '\x00' :: rest, (pre ++ s.takeWhile blank).length, (Conf.trim s).length) := by
  obtain ⟨bs, hsplit, hbs⟩ := exists_trim s
  obtain ⟨t, c, ht, hc⟩ := exists_last_trim hs
  obtain ⟨rest', hrest'⟩ := trimmed_append s rest
  have hmem : pre ++ s ++ '\x00' :: rest = pre ++ s.takeWhile blank ++ ((Conf.trim s ++ bs) ++ '\x00' :: rest) := by
    conv => lhs; rw [hsplit]
    simp only [List.append_assoc]
  have hnul' : '\x00' ∉ Conf.trim s ++ bs := by
    intro h
    rw [hsplit, List.append_assoc] at hnul
    exact hnul (List.mem_append_right _ h)
  have hk : s.length - (s.takeWhile blank ++ Conf.trim s).length = bs.length := by
    have hlen := congrArg List.length hsplit
    rw [List.length_append] at hlen
    omega
  rw [List.length_append]
  refine trim_ok (Conf.trim s ++ bs).length ?_ ?_ ?_ ?_
  · rw [List.append_assoc, List.drop_left]
    exact strspn_append hnul rest
  · rw [hmem, ← List.length_append, List.drop_left]
    exact strlen_append hnul' rest
  · have hend := trimEnd_ok hc hbs (pre ++ s.takeWhile blank ++ t) ('\x00' :: rest)
    rw [List.append_assoc (pre ++ s.takeWhile blank), ← ht] at hend
    rw [hmem, trimmed, hk]
    simpa only [List.length_append, List.append_assoc, Nat.add_assoc] using hend
  · rw [List.append_assoc, hrest', ← List.append_assoc, ← List.length_append, List.drop_left]
    exact strlen_append (fun h => hnul' (List.mem_append_left _ h)) _

/-- A string that is blank is cut down to nothing, and with it the blanks before it, up to something
that is none. -/
theorem trim_of_blank {c : Char} (hc : blank c = false) {as : List Char} (has : ∀ b ∈ as, blank b)
    (hs : ∀ b ∈ s, blank b) (pre rest : List Char) :
    trim (pre ++ [c] ++ as ++ s ++ '\x00' :: rest) (pre ++ [c] ++ as).length =
      .ok (pre ++ [c] ++ List.replicate (as.length + s.length) '\x00' ++ '\x00' :: rest,
        (pre ++ [c] ++ as).length + s.length, 0) := by
  have hall : ∀ b ∈ as ++ s, blank b := fun b hb => (List.mem_append.mp hb).elim (has b) (hs b)
  refine trim_ok 0 ?_ ?_ ?_ ?_
  · rw [List.append_assoc (pre ++ [c] ++ as), List.drop_left, strspn_append (nul_notMem_of_blank hs),
      List.takeWhile_eq_self_iff.mpr hs]
  · rw [← List.length_append, List.drop_left]
    exact strlen_append List.not_mem_nil rest
  · have hend := trimEnd_ok hc hall pre ('\x00' :: rest)
    simpa only [List.length_append, List.append_assoc, Nat.add_assoc, Nat.add_zero] using hend
  · have hdrop : (pre ++ [c] ++ as).length + s.length =
        (pre ++ [c] ++ List.replicate (as.length + s.length) '\x00').length := by
      simp only [List.length_append, List.length_replicate, Nat.add_assoc]
    rw [hdrop, List.drop_left]
    exact strlen_append List.not_mem_nil rest

/-- Where nothing is before it, `trim` looks there. -/
theorem trim_outside (hs : ∀ b ∈ s, blank b) (rest : List Char) : trim (s ++ '\x00' :: rest) 0 = .error .outOfBounds := by
  have hspn : strspn '\x00' blank (s ++ '\x00' :: rest) = .ok s.length := by
    rw [strspn_append (nul_notMem_of_blank hs), List.takeWhile_eq_self_iff.mpr hs]
  have hlen : strlen '\x00' ((s ++ '\x00' :: rest).drop s.length) = .ok 0 := by
    rw [List.drop_left]
    exact strlen_append List.not_mem_nil rest
  have hend := trimEnd_blanks hs [] ('\x00' :: rest)
  simp only [List.nil_append, List.length_nil, Nat.zero_add] at hend
  simp only [trim, List.drop_zero, hspn, ok_bind, Nat.zero_add, hlen, Nat.add_zero, hend, trimEnd, error_bind]

/-! ### Cutting in place -/

theorem aDelimB_none {delim : Char} (hdelim : delim ≠ '\x00') (hnul : '\x00' ∉ s) (hs : delim ∉ s)
    (pre rest : List Char) : aDelimB (pre ++ s ++ '\x00' :: rest) pre.length delim = .ok .none := by
  rw [aDelimB, List.append_assoc, List.drop_left, strchr_none hs hnul hdelim, ok_bind]
  rfl

/-- The first delimiter becomes a NUL. -/
theorem aDelimB_found {delim : Char} {a : List Char} (hnul : '\x00' ∉ a) (ha : delim ∉ a) (pre rest : List Char) :
    aDelimB (pre ++ (a ++ delim :: rest)) pre.length delim =
      trimPair (pre ++ a ++ '\x00' :: rest) pre.length (pre ++ a ++ ['\x00']).length := by
  rw [aDelimB, List.drop_left, strchr_append ha hnul, ok_bind]
  simp only
  rw [← List.append_assoc, ← List.length_append, store_append, ok_bind]
  simp only [List.length_append, List.length_singleton]

variable {a b : List Char}

/-- The first of the two is blank, behind a cut. -/
theorem trimPair_blank (ha : ∀ c ∈ a, blank c) {as : List Char} (has : ∀ c ∈ as, blank c) (pre rest : List Char) (strb : ℕ) :
    trimPair (pre ++ ['\x00'] ++ as ++ a ++ '\x00' :: rest) (pre ++ ['\x00'] ++ as).length strb =
      .ok (.empty (pre ++ ['\x00'] ++ List.replicate (as.length + a.length) '\x00' ++ '\x00' :: rest)) := by
  rw [trimPair, trim_of_blank nul_not_blank has ha, ok_bind]
  rfl

/-- The second of the two is blank. -/
theorem trimPair_blank_right (hnul : '\x00' ∉ a) (ha : Conf.trim a ≠ []) (hb : ∀ c ∈ b, blank c) (pre rest : List Char) :
    trimPair (pre ++ a ++ '\x00' :: (b ++ '\x00' :: rest)) pre.length (pre ++ a ++ ['\x00']).length =
      .ok (.empty (pre ++ trimmed a ++ ['\x00'] ++ List.replicate b.length '\x00' ++ '\x00' :: rest)) := by
  have hnil : ∀ c ∈ ([] : List Char), blank c := fun c hc => absurd hc List.not_mem_nil
  have hright := trim_of_blank nul_not_blank hnil hb (pre ++ trimmed a) rest
  have hlen : (pre ++ a ++ ['\x00']).length = (pre ++ trimmed a ++ ['\x00']).length := by
    simp only [List.length_append, length_trimmed]
  simp only [List.append_nil, List.length_nil, Nat.zero_add] at hright
  rw [trimPair, trim_of_ne_nil hnul ha, ok_bind, hlen]
  simp only [List.length_eq_zero_iff, if_neg ha]
  rw [← List.singleton_append, ← List.append_assoc, ← List.append_assoc, hright, ok_bind]
  rfl

/-- Neither is blank. -/
theorem trimPair_pair (hnul : '\x00' ∉ a) (ha : Conf.trim a ≠ []) (hnul' : '\x00' ∉ b) (hb : Conf.trim b ≠ [])
    (pre rest : List Char) :
    trimPair (pre ++ a ++ '\x00' :: (b ++ '\x00' :: rest)) pre.length (pre ++ a ++ ['\x00']).length =
      .ok (.pair (pre ++ trimmed a ++ ['\x00'] ++ trimmed b ++ '\x00' :: rest) (pre ++ a.takeWhile blank).length
        (pre ++ trimmed a ++ ['\x00'] ++ b.takeWhile blank).length) := by
  have hright := trim_of_ne_nil hnul' hb (pre ++ trimmed a ++ ['\x00']) rest
  have hlen : (pre ++ a ++ ['\x00']).length = (pre ++ trimmed a ++ ['\x00']).length := by
    simp only [List.length_append, length_trimmed]
  rw [trimPair, trim_of_ne_nil hnul ha, ok_bind, hlen]
  simp only [List.length_eq_zero_iff, if_neg ha]
  rw [← List.singleton_append, ← List.append_assoc, ← List.append_assoc, hright, ok_bind]
  simp only [List.length_eq_zero_iff, if_neg hb]
  rfl

/-- A string in the buffer. -/
def StringAt (mem : List Char) (p : ℕ) (s : List Char) : Prop :=
  '\x00' ∉ s ∧ ∃ rest, mem.drop p = s ++ '\x00' :: rest

theorem StringAt.strdup_eq {p : ℕ} (h : StringAt mem p s) : strdup '\x00' (mem.drop p) = .ok s := by
  obtain ⟨hnul, rest, hrest⟩ := h
  rw [hrest, strdup_append hnul]

theorem stringAt_append (hnul : '\x00' ∉ s) (pre rest : List Char) :
    StringAt (pre ++ (s ++ '\x00' :: rest)) pre.length s := by
  refine ⟨hnul, rest, ?_⟩
  rw [List.drop_left]

/-- A trimmed string stands behind its blanks. -/
theorem stringAt_trimmed (hnul : '\x00' ∉ Conf.trim s) (pre rest : List Char) :
    StringAt (pre ++ trimmed s ++ '\x00' :: rest) (pre ++ s.takeWhile blank).length (Conf.trim s) := by
  obtain ⟨rest', hrest'⟩ := trimmed_append s rest
  rw [List.append_assoc, hrest', ← List.append_assoc]
  exact stringAt_append hnul ..

/-! ### The parameters -/

theorem paramLoop_done {tail : ℕ}
    (h : aDelimB mem tail ';' = .ok .none ∧ mem = mem' ∨ aDelimB mem tail ';' = .ok (.empty mem')) :
    paramLoop mem tail = .ok (mem', []) := by
  rw [paramLoop]
  split <;> simp_all

theorem paramLoop_pair {tail stra strb : ℕ} (h : aDelimB mem tail ';' = .ok (.pair mem' stra strb))
    {mem'' : List Char} {params : List ℕ} (hrec : paramLoop mem' strb = .ok (mem'', params)) :
    paramLoop mem tail = .ok (mem'', strb :: params) := by
  rw [paramLoop]
  split
  · simp_all
  · simp_all
  · simp_all
  · rename_i h'
    cases h.symm.trans h'
    rw [hrec]
    rfl

theorem nul_notMem_trim (hnul : '\x00' ∉ s) : '\x00' ∉ Conf.trim s := fun h => hnul (mem_of_mem_trim h)

/-- A trimmed string begins with something. -/
theorem takeWhile_trim (s : List Char) : (Conf.trim s).takeWhile blank = [] := by
  have hpre : Conf.trim s <+: s.dropWhile blank := List.rdropWhile_prefix _ _
  have hhead := List.head?_dropWhile_not blank s
  cases htrim : Conf.trim s with
  | nil => rfl
  | cons c t =>
    obtain ⟨u, hu⟩ := hpre
    rw [← hu, htrim] at hhead
    exact List.takeWhile_cons_of_neg (Bool.eq_false_iff.mp hhead)

theorem takeWhile_of_append {c : Char} (h : (a ++ c :: b).takeWhile blank = []) : a.takeWhile blank = [] := by
  cases a with
  | nil => rfl
  | cons d a =>
    by_cases hd : blank d
    · rw [List.cons_append, List.takeWhile_cons_of_pos hd] at h
      cases h
    · exact List.takeWhile_cons_of_neg hd

/-- A turn of the loop on an empty piece: `trim` goes back to the cut before it. -/
theorem paramLoop_blank {as : List Char} (has : ∀ c ∈ as, blank c) (pre b rest : List Char) :
    paramLoop (pre ++ ['\x00'] ++ as ++ (';' :: b) ++ '\x00' :: rest) (pre ++ ['\x00'] ++ as).length =
      .ok (pre ++ ['\x00'] ++ List.replicate as.length '\x00' ++ '\x00' :: (b ++ '\x00' :: rest), []) := by
  have hnil : ∀ c ∈ ([] : List Char), blank c := fun c hc => absurd hc List.not_mem_nil
  have hfound := aDelimB_found List.not_mem_nil (List.not_mem_nil (a := ';')) (pre ++ ['\x00'] ++ as) (b ++ '\x00' :: rest)
  rw [trimPair_blank hnil has] at hfound
  rw [List.append_assoc]
  exact paramLoop_done (.inr hfound)

variable (hnul : '\x00' ∉ a) (hdelim : ';' ∉ a) (ha : Conf.trim a ≠ [])

include hnul hdelim ha

/-- A turn of the loop on a last piece with nothing but blanks behind it. -/
theorem paramLoop_blank_right (hb : ∀ c ∈ b, blank c) (pre rest : List Char) :
    paramLoop (pre ++ (a ++ ';' :: b) ++ '\x00' :: rest) pre.length =
      .ok (pre ++ trimmed a ++ ['\x00'] ++ List.replicate b.length '\x00' ++ '\x00' :: rest, []) := by
  have hfound := aDelimB_found hnul hdelim pre (b ++ '\x00' :: rest)
  rw [trimPair_blank_right hnul ha hb] at hfound
  rw [List.append_assoc, List.append_assoc, List.cons_append]
  exact paramLoop_done (.inr hfound)

/-- A turn of the loop on a piece with something behind it, which stands behind its own cut. -/
theorem paramLoop_next (hnul' : '\x00' ∉ b) (hb : Conf.trim b ≠ []) (pre rest : List Char) {ps : List ℕ}
    (hrec : paramLoop (pre ++ trimmed a ++ ['\x00'] ++ trimmed b ++ '\x00' :: rest)
      (pre ++ trimmed a ++ ['\x00'] ++ b.takeWhile blank).length = .ok (mem, ps)) :
    paramLoop (pre ++ (a ++ ';' :: b) ++ '\x00' :: rest) pre.length =
      .ok (mem, (pre ++ trimmed a ++ ['\x00'] ++ b.takeWhile blank).length :: ps) := by
  have hfound := aDelimB_found hnul hdelim pre (b ++ '\x00' :: rest)
  rw [trimPair_pair hnul ha hnul' hb] at hfound
  rw [List.append_assoc, List.append_assoc, List.cons_append]
  exact paramLoop_pair hfound hrec

omit hnul hdelim ha

/-- **The loop over the parameters cuts the string into what `paramLoop` says**, in place, and leaves
alone what is before it. -/
theorem paramLoop_ok (hnul : '\x00' ∉ s) (hs : s.takeWhile blank = []) {as : List Char} (has : ∀ c ∈ as, blank c)
    (pre rest : List Char) :
    ∃ mem ps, paramLoop (pre ++ ['\x00'] ++ as ++ s ++ '\x00' :: rest) (pre ++ ['\x00'] ++ as).length = .ok (mem, ps) ∧
      (∃ rest', mem = pre ++ ['\x00'] ++ rest') ∧ StringAt mem (pre ++ ['\x00'] ++ as).length (Conf.paramLoop s).1 ∧
      List.Forall₂ (StringAt mem) ps (Conf.paramLoop s).2 := by
  induction hn : s.length using Nat.strong_induction_on generalizing s as pre rest with
  | _ n ih =>
    by_cases hmem : ';' ∈ s
    · obtain ⟨a, b, rfl, ha⟩ := List.eq_append_cons_of_mem hmem
      have hnula : '\x00' ∉ a := fun h => hnul (List.mem_append_left _ h)
      have hnulb : '\x00' ∉ b := fun h => hnul (List.mem_append_right _ (List.mem_cons_of_mem _ h))
      have hspan := takeWhile_of_append hs
      by_cases hta : Conf.trim a = []
      · obtain rfl : a = [] := by
          rw [← hspan]
          exact (List.takeWhile_eq_self_iff.mpr (trim_eq_nil_iff.mp hta)).symm
        refine ⟨_, _, paramLoop_blank has pre b rest, ⟨_, List.append_assoc ..⟩, ?_⟩
        rw [Conf.paramLoop_append ha, if_pos (Or.inl hta)]
        refine ⟨?_, .nil⟩
        have hat := stringAt_append (s := []) List.not_mem_nil (pre ++ ['\x00'] ++ List.replicate as.length '\x00')
          (b ++ '\x00' :: rest)
        rwa [List.length_append, List.length_replicate, ← List.length_append] at hat
      · have hat := stringAt_trimmed (nul_notMem_trim hnula) (pre ++ ['\x00'] ++ as)
        rw [hspan, List.append_nil] at hat
        by_cases htb : Conf.trim b = []
        · refine ⟨_, _, paramLoop_blank_right hnula ha hta (trim_eq_nil_iff.mp htb) (pre ++ ['\x00'] ++ as) rest, ?_⟩
          rw [Conf.paramLoop_append ha, if_pos (Or.inr htb)]
          refine ⟨⟨_, by simp only [List.append_assoc]; rfl⟩, ?_, .nil⟩
          simpa only [List.append_assoc, List.cons_append, List.nil_append] using
            hat (List.replicate b.length '\x00' ++ '\x00' :: rest)
        · obtain ⟨rest', hrest'⟩ := trimmed_append b rest
          have hlen : (Conf.trim b).length < n := by
            have hle := length_trim_le b
            rw [← hn, List.length_append, List.length_cons]
            omega
          obtain ⟨mem, ps, hloop, ⟨rest'', rfl⟩, hvalue, hparams⟩ := ih _ hlen (nul_notMem_trim hnulb) (takeWhile_trim b)
            (fun c hc => List.mem_takeWhile_imp hc : ∀ c ∈ b.takeWhile blank, blank c)
            (pre ++ ['\x00'] ++ as ++ trimmed a) rest' rfl
          rw [List.append_assoc _ (Conf.trim b), List.append_assoc _ (b.takeWhile blank), ← hrest', ← List.append_assoc] at hloop
          refine ⟨_, _, paramLoop_next hnula ha hta hnulb htb (pre ++ ['\x00'] ++ as) rest hloop, ?_⟩
          rw [Conf.paramLoop_append ha, if_neg (not_or.mpr ⟨hta, htb⟩)]
          refine ⟨⟨_, by simp only [List.append_assoc]; rfl⟩, ?_, .cons hvalue hparams⟩
          simpa only [List.append_assoc, List.singleton_append] using hat rest''
    · have hnone := aDelimB_none (by decide) hnul hmem (pre ++ ['\x00'] ++ as) rest
      rw [Conf.paramLoop_of_notMem hmem]
      refine ⟨_, _, paramLoop_done (.inl ⟨hnone, rfl⟩), ⟨as ++ s ++ '\x00' :: rest, by simp⟩, ?_, .nil⟩
      rw [List.append_assoc]
      exact stringAt_append hnul ..

/-! ### The line -/

theorem cutComment_eq {line : List Char} (hnul : '\x00' ∉ line) (rest : List Char) :
    ∃ rest', cutComment (line ++ '\x00' :: rest) = .ok (line.takeWhile (· ≠ '#') ++ '\x00' :: rest') := by
  by_cases hmem : '#' ∈ line
  · obtain ⟨a, b, rfl, ha⟩ := List.eq_append_cons_of_mem hmem
    have htake : (a ++ '#' :: b).takeWhile (· ≠ '#') = a := cstring_append ha b
    refine ⟨b ++ '\x00' :: rest, ?_⟩
    rw [cutComment, List.append_assoc, List.cons_append, strchr_append ha fun h => hnul (List.mem_append_left _ h), ok_bind]
    simp only
    rw [store_append, htake]
  · refine ⟨rest, ?_⟩
    have hself : line.takeWhile (· ≠ '#') = line := cstring_of_notMem hmem
    rw [cutComment, strchr_none hmem hnul (by decide), ok_bind, hself]
    rfl

theorem mapM_strdup {ps : List ℕ} {ss : List (List Char)} (h : List.Forall₂ (StringAt mem) ps ss) :
    ps.mapM (fun p => strdup '\x00' (mem.drop p)) = .ok ss := by
  induction h with
  | nil => rfl
  | cons hp _ ih =>
    rw [List.mapM_cons, hp.strdup_eq, ok_bind, ih, ok_bind]
    rfl

/-- **Cutting a line up in place gives what `namevalueparams` says of its text.** -/
theorem namevalueparams_eq {line : List Char} (hnul : '\x00' ∉ line) (rest : List Char) :
    namevalueparams (line ++ '\x00' :: rest) = Conf.namevalueparams line := by
  obtain ⟨rest, hcomment⟩ := cutComment_eq hnul rest
  have hnul' : '\x00' ∉ line.takeWhile (· ≠ '#') := fun h => hnul ((List.takeWhile_sublist _).subset h)
  rw [namevalueparams, hcomment, ok_bind, Conf.namevalueparams]
  by_cases hmem : '=' ∈ line.takeWhile (· ≠ '#')
  · obtain ⟨a, b, ht, ha⟩ := List.eq_append_cons_of_mem hmem
    rw [ht] at hnul' ⊢
    have hnula : '\x00' ∉ a := fun h => hnul' (List.mem_append_left _ h)
    have hnulb : '\x00' ∉ b := fun h => hnul' (List.mem_append_right _ (List.mem_cons_of_mem _ h))
    have hfound := aDelimB_found hnula ha [] (b ++ '\x00' :: rest)
    simp only [List.nil_append, List.length_nil] at hfound
    rw [List.append_assoc, List.cons_append, hfound, aDelimB_append ha]
    by_cases hta : Conf.trim a = []
    · rw [trimPair, trim_outside (trim_eq_nil_iff.mp hta)]
      simp only [error_bind, if_pos hta]
    · by_cases htb : Conf.trim b = []
      · have hcut := trimPair_blank_right hnula hta (trim_eq_nil_iff.mp htb) [] rest
        simp only [List.nil_append, List.length_nil] at hcut
        simp only [hcut, ok_bind, if_neg hta, if_pos htb]
        rfl
      · have hcut := trimPair_pair hnula hta hnulb htb [] rest
        simp only [List.nil_append, List.length_nil] at hcut
        obtain ⟨rest', hrest'⟩ := trimmed_append b rest
        obtain ⟨mem, ps, hloop, ⟨rest'', rfl⟩, hvalue, hparams⟩ := paramLoop_ok (nul_notMem_trim hnulb) (takeWhile_trim b)
          (fun c hc => List.mem_takeWhile_imp hc : ∀ c ∈ b.takeWhile blank, blank c) (trimmed a) rest'
        rw [List.append_assoc _ (Conf.trim b), List.append_assoc _ (b.takeWhile blank), ← hrest', ← List.append_assoc] at hloop
        have hname := stringAt_trimmed (nul_notMem_trim hnula) [] rest''
        rw [List.nil_append, List.nil_append, ← List.singleton_append, ← List.append_assoc] at hname
        simp only [hcut, ok_bind, hloop, mapM_strdup hparams, hname.strdup_eq, hvalue.strdup_eq, if_neg hta, if_neg htb]
        rfl
  · have hnone := aDelimB_none (by decide) hnul' hmem [] rest
    simp only [List.nil_append, List.length_nil] at hnone
    rw [hnone, ok_bind, Conf.aDelimB, if_neg hmem]
    rfl

end InPlace

/-! ### What a line should give -/

/-- The line without its comment. -/
def uncommented (line : List Char) : List Char := line.takeWhile (· ≠ '#')

/-- What is before the first `=`, trimmed. -/
def nameOf (line : List Char) : List Char := trim ((uncommented line).takeWhile (· ≠ '='))

/-- What is after the first `=`. -/
def rightOf (line : List Char) : List Char := ((uncommented line).dropWhile (· ≠ '=')).tail

/-- A line without a `=` is nothing, 0 is returned for it. One with a name, a value and parameters that
are all something is split into them, and 1 returned. Of any other line something negative is said. -/
def Meets (line : List Char) (r : Except Fault Line) : Prop :=
  if '=' ∉ uncommented line then ∃ x, r = .ok x ∧ x.ret = 0
  else if nameOf line ≠ [] ∧ ∀ part ∈ parts (rightOf line), part ≠ [] then
    ∃ value params, parts (rightOf line) = value :: params ∧
      r = .ok (.option ⟨String.ofList (nameOf line), String.ofList value, params.map String.ofList⟩)
  else ∃ x, r = .ok x ∧ x.ret < 0

theorem namevalueparams_of_notMem {line : List Char} (h : '=' ∉ uncommented line) : namevalueparams line = .ok .nothing := by
  rw [namevalueparams, show line.takeWhile (· ≠ '#') = uncommented line from rfl, aDelimB, if_neg h]

theorem namevalueparams_of_mem {line : List Char} (h : '=' ∈ uncommented line) :
    namevalueparams line =
      if nameOf line = [] then .error .outOfBounds
      else if trim (rightOf line) = [] then .ok .invalid
      else .ok (.option ⟨String.ofList (nameOf line), String.ofList (paramLoop (trim (rightOf line))).1,
        (paramLoop (trim (rightOf line))).2.map String.ofList⟩) := by
  rw [namevalueparams, show line.takeWhile (· ≠ '#') = uncommented line from rfl, aDelimB, if_pos h]
  rfl

/-- **A line is split, or refused, as it should be, exactly if it has no `=`, or has a name that is not
blank, and behind the `=` either nothing or no part that is blank.** The buffer may be of any
size. -/
theorem namevalueparams_meets_iff {line : List Char} (hnul : '\x00' ∉ line) (rest : List Char) :
    Meets line (InPlace.namevalueparams (line ++ '\x00' :: rest)) ↔
      '=' ∉ uncommented line ∨
        nameOf line ≠ [] ∧ (trim (rightOf line) = [] ∨ ∀ part ∈ parts (rightOf line), part ≠ []) := by
  rw [InPlace.namevalueparams_eq hnul]
  by_cases hmem : '=' ∈ uncommented line
  · rw [namevalueparams_of_mem hmem, Meets, if_neg (not_not.mpr hmem)]
    by_cases hname : nameOf line = []
    · rw [if_neg (fun h => h.1 hname), if_pos hname]
      simp [hmem, hname]
    · by_cases hparts : ∀ part ∈ parts (rightOf line), part ≠ []
      · rw [if_pos ⟨hname, hparts⟩, if_neg hname, if_neg (trim_ne_nil_of_parts hparts)]
        exact ⟨fun _ => .inr ⟨hname, .inr hparts⟩, fun _ => ⟨_, _, (paramLoop_parts hparts).symm, rfl⟩⟩
      · rw [if_neg fun h => hparts h.2, if_neg hname]
        by_cases hright : trim (rightOf line) = []
        · rw [if_pos hright]
          exact ⟨fun _ => .inr ⟨hname, .inl hright⟩, fun _ => ⟨_, rfl, by decide⟩⟩
        · -- 1 is returned all the same
          rw [if_neg hright]
          constructor
          · rintro ⟨x, hx, hret⟩
            cases hx
            exact absurd (show (1 : ℤ) < 0 from hret) (by decide)
          · rintro (h | ⟨-, h | h⟩)
            · exact absurd hmem h
            · exact absurd h hright
            · exact absurd h hparts
  · rw [namevalueparams_of_notMem hmem, Meets, if_pos hmem]
    exact ⟨fun _ => .inl hmem, fun _ => ⟨_, rfl, rfl⟩⟩

/-- A value with a parameter. -/
def paramLine : List Char := ['a', ' ', '=', ' ', 'b', ' ', ';', 'c']

theorem namevalueparams_meets_param : Meets paramLine (InPlace.namevalueparams (paramLine ++ ['\x00'])) :=
  (namevalueparams_meets_iff (by decide) []).mpr (.inr ⟨by decide, .inr (by decide)⟩)

/-- A blank part among the parameters. -/
def blankLine : List Char := ['a', '=', 'b', ';', ' ', ';', 'c']

/-- The blank part ends the list of the parameters, the last is lost, and 1 is returned. A line without
a name makes `trim` look before the buffer. -/
theorem namevalueparams_blank :
    InPlace.namevalueparams (blankLine ++ ['\x00']) = .ok (.option ⟨"a", "b", [""]⟩) ∧
      ¬ Meets blankLine (InPlace.namevalueparams (blankLine ++ ['\x00'])) ∧
      InPlace.namevalueparams ['=', 'x', '\x00'] = .error .outOfBounds := by
  have hline : InPlace.namevalueparams (blankLine ++ ['\x00']) = .ok (.option ⟨"a", "b", [""]⟩) := by
    have hloop : paramLoop (trim (rightOf blankLine)) = (['b'], [[]]) := by
      have hrest : paramLoop (trim [' ', ';', 'c']) = ([], []) := by
        rw [show trim [' ', ';', 'c'] = [] ++ ';' :: ['c'] by decide, paramLoop_append (by decide), if_pos (by decide)]
        rfl
      rw [show trim (rightOf blankLine) = ['b'] ++ ';' :: [' ', ';', 'c'] by decide, paramLoop_append (by decide),
        if_neg (by decide), hrest]
      rfl
    rw [InPlace.namevalueparams_eq (by decide), namevalueparams_of_mem (by decide), if_neg (by decide), if_neg (by decide),
      hloop]
    rfl
  refine ⟨hline, ?_, ?_⟩
  · rw [hline, Meets, if_neg (by decide), if_neg (by decide)]
    rintro ⟨x, hx, hret⟩
    cases hx
    exact absurd hret (by decide)
  · rw [show ['=', 'x', '\x00'] = ['=', 'x'] ++ '\x00' :: [] from rfl, InPlace.namevalueparams_eq (by decide),
      namevalueparams_of_mem (by decide), if_pos (by decide)]

end Gross.Conf
