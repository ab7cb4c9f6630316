import Gross.Foundation.CArray

/-!
# Names that a client may say it has

`valid_dn` looks at the name a client gives in its `HELO`. One loop goes from label to
label and one inside it from character to character, with the same pointer, and both look
one character ahead: a hyphen must not be the last of its label, nor a dot the last of the
name.

## The model

A pointer is the list of what lies from there on, and a read behind the end of the list
fails. The loop of the labels is given a number of tests of its condition.

* `testChar`, `labelLoop` — the loop of a label. `dot` — what follows it.
* `turn`, `validDn` — the loop of the labels.

## What is proved

* `DomainName` — the grammar: labels with a dot between any two. It can be decided, by the
  parts between the dots (`domainName_iff_splitOn`).
* `labelLoop_append` — the loop of a label goes to its end, or returns.
* `validDn_iff` — with one test for each character and one more, `valid_dn` returns,
  whatever lies behind the NUL, and if nothing does. It returns true for the empty name,
  and for those of the grammar.

## Honest scope

A byte from 128 on is negative as a `char`, or greater than any letter, as the machine has
it; it is in none of the ranges either way, and here it is greater.
-/

namespace Gross.Helo

open Foundation

/-- What ends a string. -/
def nul : Char := '\x00'

/-- A letter or a digit, as `valid_dn` has it. -/
def alnum (c : Char) : Bool := 'a' ≤ c && c ≤ 'z' || 'A' ≤ c && c ≤ 'Z' || '0' ≤ c && c ≤ '9'

/-- The test of the character before `ptr`, in a label. -/
def testChar (c : Char) (ptr : List Char) : Except Fault Bool :=
  if alnum c then .ok true
  else if c = '-' then do
    let next ← load ptr 0
    return next != '.' && next != nul
  else .ok false

/-- The loop of a label: where it ends, if `valid_dn` does not return false. -/
def labelLoop : List Char → Except Fault (Option (List Char))
  | [] => .error .outOfBounds
  | c :: ptr =>
    if c ≠ nul ∧ c ≠ '.' then do
      if ← testChar c ptr then labelLoop ptr else return none
    else .ok (some (c :: ptr))

/-- What follows the loop. A dot is stepped over, if it does not end the name. -/
def dot (ptr : List Char) : Except Fault (Option (List Char)) := do
  if (← load ptr 0) = '.' then
    if (← load ptr 1) = nul then return none else return some (ptr.drop 1)
  else return some ptr

/-- A turn of the loop of the labels. -/
def turn (ptr : List Char) : Except Fault (Option (List Char)) := do
  if alnum (← load ptr 0) then
    match ← labelLoop ptr with
    | some ptr => dot ptr
    | none => return none
  else return none

/-- `valid_dn`, up to `fuel` tests of the condition of its loop. -/
def validDn : ℕ → List Char → Except Fault (Option Bool)
  | 0, _ => .ok none
  | fuel + 1, ptr => do
    if (← load ptr 0) = nul then return some true
    else
      match ← turn ptr with
      | some ptr => validDn fuel ptr
      | none => return some false

/-! ### The grammar -/

/-- A label is not empty, has letters, digits and hyphens, and has no hyphen at either end. -/
structure Label (l : List Char) : Prop where
  /-- It is not empty. -/
  nonempty : l ≠ []
  /-- What it is made of. -/
  ldh : ∀ c ∈ l, c.isAlphanum = true ∨ c = '-'
  /-- It does not start with a hyphen. -/
  head : l.head? ≠ some '-'
  /-- It does not end with one. -/
  last : l.getLast? ≠ some '-'

/-- One or more labels, with a dot between any two. -/
def DomainName (s : List Char) : Prop :=
  ∃ labels, labels ≠ [] ∧ (∀ l ∈ labels, Label l) ∧ ['.'].intercalate labels = s

theorem Label.dot_notMem {l : List Char} (h : Label l) : '.' ∉ l := by
  intro hmem
  rcases h.ldh '.' hmem with hdot | hdot <;> revert hdot <;> decide

/-- The labels are the parts between the dots. -/
theorem domainName_iff_splitOn {s : List Char} : DomainName s ↔ ∀ l ∈ s.splitOn '.', Label l := by
  constructor
  · rintro ⟨labels, hne, hlabels, rfl⟩
    rwa [List.splitOn_intercalate '.' (fun l hl => (hlabels l hl).dot_notMem) hne]
  · intro h
    exact ⟨s.splitOn '.', List.splitOn_ne_nil '.' s, h, List.intercalate_splitOn '.'⟩

instance (l : List Char) : Decidable (Label l) :=
  decidable_of_iff (l ≠ [] ∧ (l.all fun c => c.isAlphanum || c == '-') = true ∧ l.head? ≠ some '-' ∧
      l.getLast? ≠ some '-')
    ⟨fun h => ⟨h.1, by simpa using h.2.1, h.2.2.1, h.2.2.2⟩, fun h => ⟨h.nonempty, by simpa using h.ldh, h.head, h.last⟩⟩

instance (s : List Char) : Decidable (DomainName s) := decidable_of_iff _ domainName_iff_splitOn.symm

/-- A name without a dot is a label. -/
theorem domainName_of_notMem {s : List Char} (h : '.' ∉ s) : DomainName s ↔ Label s := by
  rw [domainName_iff_splitOn, List.splitOn_eq_singleton h, List.forall_mem_singleton]

/-- One with a dot is a label, and a name behind the first dot. -/
theorem domainName_append {l : List Char} (h : '.' ∉ l) (s : List Char) :
    DomainName (l ++ '.' :: s) ↔ Label l ∧ DomainName s := by
  rw [domainName_iff_splitOn, List.splitOn_append_cons_self_of_not_mem h, List.forall_mem_cons, domainName_iff_splitOn]

theorem not_domainName_nil : ¬ DomainName [] := by
  rw [domainName_of_notMem List.not_mem_nil]
  exact fun h => h.nonempty rfl

example : DomainName "mail-1.example.org".toList ∧ ¬ DomainName "mail.".toList ∧ ¬ DomainName "a-.b".toList := by decide

/-! ### A label -/

theorem alnum_eq (c : Char) : alnum c = c.isAlphanum := by
  change ('a' ≤ c && c ≤ 'z' || 'A' ≤ c && c ≤ 'Z' || '0' ≤ c && c ≤ '9') =
    (decide ('A'.val ≤ c.val ∧ c.val ≤ 'Z'.val) || 'a'.val ≤ c.val && c.val ≤ 'z'.val || '0'.val ≤ c.val && c.val ≤ '9'.val)
  simp only [Bool.decide_and, Char.le_def]
  rw [Bool.or_comm (decide ('a'.val ≤ c.val) && _)]

/-- What the loop of a label accepts: a label, or what is left of one. -/
structure Tail (l : List Char) : Prop where
  /-- What it is made of. -/
  ldh : ∀ c ∈ l, alnum c = true ∨ c = '-'
  /-- It does not end with a hyphen. -/
  last : l.getLast? ≠ some '-'

instance (l : List Char) : Decidable (Tail l) :=
  decidable_of_iff ((l.all fun c => alnum c || c == '-') = true ∧ l.getLast? ≠ some '-')
    ⟨fun h => ⟨by simpa using h.1, h.2⟩, fun h => ⟨by simpa using h.ldh, h.last⟩⟩

theorem tail_nil : Tail [] where
  ldh _ hc := nomatch hc
  last h := nomatch h

/-- A hyphen is followed by something. -/
theorem tail_cons {c : Char} {l : List Char} : Tail (c :: l) ↔ (alnum c = true ∨ c = '-' ∧ l ≠ []) ∧ Tail l := by
  constructor
  · intro h
    obtain ⟨hc, hl⟩ := List.forall_mem_cons.mp h.ldh
    have hlast := h.last
    cases l with
    | nil =>
      refine ⟨.inl (hc.resolve_right ?_), tail_nil⟩
      rintro rfl
      exact hlast rfl
    | cons d l =>
      rw [List.getLast?_cons_cons] at hlast
      exact ⟨hc.imp_right fun hc => ⟨hc, List.cons_ne_nil d l⟩, hl, hlast⟩
  · rintro ⟨hc, h⟩
    refine ⟨List.forall_mem_cons.mpr ⟨hc.imp_right And.left, h.ldh⟩, ?_⟩
    cases l with
    | nil =>
      rintro ⟨⟩
      rcases hc with hc | hc
      · cases hc
      · exact hc.2 rfl
    | cons d l =>
      rw [List.getLast?_cons_cons]
      exact h.last

/-- A label is what the loop accepts, when it starts with a letter or a digit. -/
theorem label_cons {c : Char} {l : List Char} : Label (c :: l) ↔ alnum c = true ∧ Tail (c :: l) := by
  constructor
  · intro h
    have hldh : ∀ d ∈ c :: l, alnum d = true ∨ d = '-' := fun d hd => by
      rw [alnum_eq]
      exact h.ldh d hd
    refine ⟨(hldh c List.mem_cons_self).resolve_right ?_, hldh, h.last⟩
    rintro rfl
    exact h.head rfl
  · rintro ⟨hc, h⟩
    refine ⟨List.cons_ne_nil c l, fun d hd => ?_, ?_, h.last⟩
    · rw [← alnum_eq]
      exact h.ldh d hd
    · rintro ⟨⟩
      cases hc

section

variable {l : List Char} {e : Char}

/-- A character of a label, with the rest of the label behind it. -/
theorem testChar_append (c : Char) (hnul : nul ∉ l) (hdot : '.' ∉ l) (he : e = nul ∨ e = '.') (ptr : List Char) :
    testChar c (l ++ e :: ptr) = .ok (decide (alnum c = true ∨ c = '-' ∧ l ≠ [])) := by
  unfold testChar
  split_ifs with hc hhyphen
  · simp [hc]
  · cases l with
    | nil =>
      rcases he with rfl | rfl <;> simp [hc, load]
    | cons d l =>
      rw [List.mem_cons, not_or] at hnul hdot
      simp [hhyphen, load, Ne.symm hnul.1, Ne.symm hdot.1]
  · simp [hc, hhyphen]

/-- **The loop of a label** stops at the end of the label, if there is nothing in it that is refused. -/
theorem labelLoop_append (hnul : nul ∉ l) (hdot : '.' ∉ l) (he : e = nul ∨ e = '.') (ptr : List Char) :
    labelLoop (l ++ e :: ptr) = .ok (if Tail l then some (e :: ptr) else none) := by
  induction l with
  | nil =>
    have hend : ¬ (e ≠ nul ∧ e ≠ '.') := fun h => he.elim h.1 h.2
    rw [List.nil_append, labelLoop, if_neg hend, if_pos tail_nil]
  | cons c l ih =>
    rw [List.mem_cons, not_or] at hnul hdot
    rw [List.cons_append, labelLoop, if_pos ⟨Ne.symm hnul.1, Ne.symm hdot.1⟩, testChar_append c hnul.2 hdot.2 he,
      ok_bind]
    by_cases htest : alnum c = true ∨ c = '-' ∧ l ≠ []
    · rw [if_pos (decide_eq_true htest), ih hnul.2 hdot.2]
      simp only [tail_cons, htest, true_and]
    · rw [if_neg (by rwa [decide_eq_true_eq]), if_neg fun h => htest (tail_cons.mp h).1]
      rfl

/-- **A turn** goes to the end of a label. The label is not empty, or ends with a dot. -/
theorem turn_append (hnul : nul ∉ l) (hdot : '.' ∉ l) (he : e = nul ∧ l ≠ [] ∨ e = '.') (ptr : List Char) :
    turn (l ++ e :: ptr) = if Label l then dot (e :: ptr) else .ok none := by
  cases l with
  | nil =>
    obtain rfl : e = '.' := he.resolve_left fun h => h.2 rfl
    rw [if_neg fun h => h.nonempty rfl]
    rfl
  | cons c l =>
    have hload : load (c :: l ++ e :: ptr) 0 = .ok c := rfl
    rw [turn, hload, ok_bind, labelLoop_append hnul hdot (he.imp_left And.left)]
    by_cases hc : alnum c = true
    · simp only [hc, label_cons, true_and, if_true, ok_bind]
      split_ifs <;> rfl
    · rw [if_neg hc, if_neg fun h => hc (label_cons.mp h).1]
      rfl

end

/-! ### The name -/

section

variable {s : List Char}

/-- At the end of the name the loop is left as it is. -/
theorem dot_nul (rest : List Char) : dot (nul :: rest) = .ok (some (nul :: rest)) := rfl

/-- A dot is stepped over, if it is not the last character. -/
theorem dot_dot (hs : nul ∉ s) (rest : List Char) :
    dot ('.' :: (s ++ nul :: rest)) = .ok (if s = [] then none else some (s ++ nul :: rest)) := by
  cases s with
  | nil => rfl
  | cons c s =>
    rw [List.mem_cons, not_or] at hs
    change (if c = nul then Except.ok none else .ok (some (c :: s ++ nul :: rest))) = _
    rw [if_neg (Ne.symm hs.1), if_neg (List.cons_ne_nil c s)]

/-- The loop of the labels, before the end of the name. -/
theorem validDn_turn (hne : s ≠ []) (hs : nul ∉ s) (fuel : ℕ) (rest : List Char) {r : Option (List Char)}
    (hturn : turn (s ++ nul :: rest) = .ok r) :
    validDn (fuel + 1) (s ++ nul :: rest) = r.elim (.ok (some false)) (validDn fuel) := by
  obtain ⟨c, s, rfl⟩ := List.exists_cons_of_ne_nil hne
  rw [List.mem_cons, not_or] at hs
  have hload : load (c :: s ++ nul :: rest) 0 = .ok c := rfl
  rw [validDn, hload, ok_bind, if_neg (Ne.symm hs.1), hturn, ok_bind]
  cases r <;> rfl

/-- **`valid_dn`**, whatever lies behind the NUL. The induction is on the tests: one that is not the last
steps over a label and its dot. -/
theorem validDn_append {fuel : ℕ} (hs : nul ∉ s) (hfuel : s.length < fuel) (rest : List Char) :
    validDn fuel (s ++ nul :: rest) = .ok (some (decide (s = [] ∨ DomainName s))) := by
  induction fuel generalizing s with
  | zero => omega
  | succ fuel ih =>
    by_cases hne : s = []
    · subst hne
      rfl
    simp only [hne, false_or]
    by_cases hmem : '.' ∈ s
    · obtain ⟨l, s, rfl, hdot⟩ := List.eq_append_cons_of_mem hmem
      have hl : nul ∉ l := fun h => hs (List.mem_append_left _ h)
      have hs' : nul ∉ s := fun h => hs (List.mem_append_right _ (List.mem_cons_of_mem _ h))
      have hturn : turn (l ++ '.' :: s ++ nul :: rest) =
          .ok (if Label l ∧ s ≠ [] then some (s ++ nul :: rest) else none) := by
        rw [List.append_assoc, List.cons_append, turn_append hl hdot (.inr rfl), dot_dot hs']
        split_ifs <;> simp_all
      rw [validDn_turn hne hs fuel rest hturn]
      by_cases hgo : Label l ∧ s ≠ []
      · rw [if_pos hgo, Option.elim_some, ih hs' (by rw [List.length_append, List.length_cons] at hfuel; omega)]
        simp only [domainName_append hdot, hgo.1, hgo.2, true_and, false_or]
      · rw [if_neg hgo, Option.elim_none, decide_eq_false]
        rw [domainName_append hdot]
        rintro ⟨hlabel, hname⟩
        refine hgo ⟨hlabel, ?_⟩
        rintro rfl
        exact not_domainName_nil hname
    · have hturn : turn (s ++ nul :: rest) = .ok (if Label s then some (nul :: rest) else none) := by
        rw [turn_append hs hmem (.inl ⟨rfl, hne⟩), dot_nul]
        split_ifs <;> rfl
      rw [validDn_turn hne hs fuel rest hturn]
      simp only [domainName_of_notMem hmem]
      by_cases hlabel : Label s
      · have hpos := List.length_pos_iff.mpr hne
        have hend := ih List.not_mem_nil (show ([] : List Char).length < fuel by rw [List.length_nil]; omega)
        simpa [hlabel] using hend
      · simp [hlabel]

/-- For every string, `valid_dn` returns, and reads nothing behind the NUL. It returns true exactly if the string is
empty, or a sequence of labels with a dot between any two. -/
theorem validDn_iff {fuel : ℕ} (hs : nul ∉ s) (hfuel : s.length < fuel) :
    ∃ valid, (∀ rest, validDn fuel (s ++ nul :: rest) = .ok (some valid)) ∧ (valid = true ↔ s = [] ∨ DomainName s) :=
  ⟨decide (s = [] ∨ DomainName s), validDn_append hs hfuel, decide_eq_true_iff⟩

/-- A name with two labels, and a block that ends with its NUL. -/
theorem validDn_mail : validDn 13 ("mail.example".toList ++ [nul]) = .ok (some true) := by
  obtain ⟨valid, hrun, hvalid⟩ := validDn_iff (s := "mail.example".toList) (by decide) (show _ < 13 by decide)
  rw [hrun [], hvalid.mpr (.inr (by decide))]

end

end Gross.Helo
