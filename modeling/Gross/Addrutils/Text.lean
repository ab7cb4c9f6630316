import Gross.Worker.MaskedTuple
import Mathlib.Tactic.Ring

/-!
# Addresses as text

`inet_pton` and `inet_ntop` are functions of the C library. An address of four bytes is
written as four decimal numbers with dots between them. One of sixteen bytes is written
as groups of hexadecimal digits with colons between them; two colons stand for groups of
zeros, once, and the last four bytes may be written in decimal.

## The model

`ptonDotted` and `ntopDotted` are for the one kind, and are inverse to each other
(`ptonDotted_eq_some_iff`). `ptonColon` is for the other: an address has many texts.

## What is proved

* `of_ptonColon_eq_some`, `colon_mem_of_ptonColon` — such a text has a colon in it and at
  most 45 characters, and gives sixteen bytes.
* `lawful_plainInet` — what is assumed of the library (`Lawful`) is true of one that leaves
  out no zeros.
-/

namespace Gross.Addrutils

open Foundation Worker

/-! ### Decimal numbers -/

theorem isDigit_iff {c : Char} : c.isDigit = true ↔ 48 ≤ c.toNat ∧ c.toNat ≤ 57 := by
  simp [Char.isDigit, UInt32.le_iff_toNat_le]

/-- A digit is that of its value. -/
theorem toDigits_digit {c : Char} (h : c.isDigit = true) : Nat.toDigits 10 (c.toNat - 48) = [c] := by
  obtain ⟨hlo, hhi⟩ := isDigit_iff.mp h
  have hlt : c.toNat - 48 < 10 := by omega
  have hc : Nat.digitChar (c.toNat - 48) = c := by
    apply Char.toNat_inj.mp
    rw [Nat.toNat_digitChar_of_lt_ten hlt]
    omega
  rw [Nat.toDigits_of_lt_base hlt, hc]

/-- A number that is not zero does not begin with a zero. -/
theorem head?_toDigits_ne {n : ℕ} (h : 0 < n) : (Nat.toDigits 10 n).head? ≠ some '0' := by
  induction n using Nat.strongRecOn with
  | ind n ih =>
    rw [Nat.toDigits_eq_if (by omega)]
    split_ifs with hlt
    · simp only [List.head?_cons, ne_eq, Option.some.injEq, Nat.digitChar_eq_zero]
      omega
    · rw [List.head?_append_of_ne_nil _ Nat.toDigits_ne_nil]
      exact ih (n / 10) (by omega) (by omega)

/-- The digits of a number, and more digits. -/
theorem toDigits_append {cs : List Char} (hdigits : ∀ c ∈ cs, c.isDigit = true) {n : ℕ} (hn : 0 < n) :
    Nat.toDigits 10 n ++ cs = Nat.toDigits 10 (Nat.ofDigitChars 10 cs n) := by
  induction cs generalizing n with
  | nil => rw [List.append_nil, Nat.ofDigitChars_nil]
  | cons c cs ih =>
    obtain ⟨hc, hcs⟩ := List.forall_mem_cons.mp hdigits
    have hlt : c.toNat - 48 < 10 := by
      have := isDigit_iff.mp hc
      omega
    have hmore := Nat.toDigits_append_toDigits (by omega) hn hlt
    rw [toDigits_digit hc] at hmore
    rw [List.append_cons, hmore, ih hcs (by omega), Nat.ofDigitChars_cons]
    rfl

variable {s : List Char} {ls : List (List Char)} {addr : List Byte}

/-- Digits without a zero before them are those of their number. -/
theorem toDigits_ofDigitChars (hne : s ≠ []) (hdigits : ∀ c ∈ s, c.isDigit = true)
    (hzero : s.head? = some '0' → s = ['0']) : Nat.toDigits 10 (Nat.ofDigitChars 10 s 0) = s := by
  cases s with
  | nil => exact absurd rfl hne
  | cons c cs =>
    obtain ⟨hc, hcs⟩ := List.forall_mem_cons.mp hdigits
    by_cases h0 : c = '0'
    · obtain rfl : cs = [] := (List.cons.inj (hzero (by rw [h0]; rfl))).2
      rw [h0]
      rfl
    · have hpos : 0 < c.toNat - 48 := by
        have := isDigit_iff.mp hc
        have hne : c.toNat ≠ 48 := fun h => h0 (Char.toNat_inj.mp h)
        omega
      have hall := toDigits_append hcs hpos
      rw [toDigits_digit hc] at hall
      rw [Nat.ofDigitChars_cons, Nat.mul_zero, Nat.zero_add]
      exact hall.symm

/-- A number of an address is read from the digits it is printed with, and from no others. -/
theorem octet_eq_some_iff {b : Byte} : octet s = some b ↔ s = Nat.toDigits 10 b.toNat := by
  have hvalue : s.foldl (fun n c => 10 * n + (c.toNat - '0'.toNat)) 0 = Nat.ofDigitChars 10 s 0 := rfl
  simp only [octet, hvalue]
  constructor
  · intro h
    split_ifs at h with hs
    obtain ⟨hne, hall, hzero, hlt⟩ := hs
    have hb : b.toNat = Nat.ofDigitChars 10 s 0 := by
      rw [← Option.some.inj h, BitVec.toNat_ofNat, Nat.mod_eq_of_lt hlt]
    rw [hb, toDigits_ofDigitChars hne (List.all_eq_true.mp hall) hzero]
  · rintro rfl
    have hval := Nat.ofDigitChars_toDigits (b := 10) (n := b.toNat) (by omega) (by omega)
    rw [hval, if_pos, BitVec.ofNat_toNat, BitVec.setWidth_eq]
    refine ⟨Nat.toDigits_ne_nil, List.all_eq_true.mpr fun c hc => ?_, fun h => ?_, b.isLt⟩
    · exact Nat.isDigit_of_mem_toDigits (by omega) (by omega) hc
    · rcases Nat.eq_zero_or_pos b.toNat with hb | hb
      · rw [hb, Nat.toDigits_zero]
      · exact absurd h (head?_toDigits_ne hb)

/-! ### Four numbers -/

theorem mapM_octet_eq_some_iff : ls.mapM octet = some addr ↔ ls = addr.map fun b => Nat.toDigits 10 b.toNat := by
  induction ls generalizing addr with
  | nil => cases addr <;> simp
  | cons s ls ih =>
    simp only [List.mapM_cons, Option.bind_eq_bind, Option.pure_def, Option.bind_eq_some_iff, Option.some.injEq,
      octet_eq_some_iff, ih]
    constructor
    · rintro ⟨b, rfl, addr', rfl, rfl⟩
      rfl
    · intro h
      cases addr with
      | nil => cases h
      | cons b addr' =>
        obtain ⟨hs, hls⟩ := List.cons.inj h
        exact ⟨b, hs, addr', hls, rfl⟩

/-- The numbers of an address are told by the dots. -/
theorem splitOn_ntopDotted (hne : addr ≠ []) :
    (ntopDotted addr).splitOn '.' = addr.map fun b => Nat.toDigits 10 b.toNat := by
  refine List.splitOn_intercalate '.' ?_ fun h => hne (List.map_eq_nil_iff.mp h)
  rw [List.forall_mem_map]
  exact fun b _ => notMem_toDigits rfl b.toNat

/-- `inet_pton(AF_INET, …)` reads what `inet_ntop` prints, and nothing else. -/
theorem ptonDotted_eq_some_iff : ptonDotted s = some addr ↔ addr.length = 4 ∧ s = ntopDotted addr := by
  constructor
  · intro h
    unfold ptonDotted at h
    split at h
    · rename_i a b c d hsplit
      rw [mapM_octet_eq_some_iff] at h
      refine ⟨by simpa using (congrArg List.length h).symm, ?_⟩
      rw [ntopDotted, ← h, ← hsplit, List.intercalate_splitOn]
    · cases h
  · rintro ⟨hlen, rfl⟩
    have hne : addr ≠ [] := List.ne_nil_of_length_eq_add_one hlen
    unfold ptonDotted
    rw [splitOn_ntopDotted hne]
    obtain ⟨a, b, c, d, rfl⟩ := List.length_eq_four.mp hlen
    exact mapM_octet_eq_some_iff.mpr rfl

/-- The length of the text, for four numbers. -/
theorem length_ntopDotted (a b c d : Byte) :
    (ntopDotted [a, b, c, d]).length = (Nat.toDigits 10 a.toNat).length + (Nat.toDigits 10 b.toNat).length +
      (Nat.toDigits 10 c.toNat).length + (Nat.toDigits 10 d.toNat).length + 3 := by
  simp only [ntopDotted, List.map_cons, List.map_nil, List.intercalate_cons_cons, List.intercalate_singleton,
    List.length_append, List.length_singleton]
  omega

/-- Four numbers fit the buffer. -/
theorem length_ntopDotted_lt (h : addr.length = 4) : (ntopDotted addr).length < inetAddrstrlen := by
  have hthree : ∀ b : Byte, (Nat.toDigits 10 b.toNat).length ≤ 3 := by
    intro b
    rw [Nat.length_toDigits_le_iff (by omega) (by omega)]
    exact b.isLt.trans (by omega)
  obtain ⟨a, b, c, d, rfl⟩ := List.length_eq_four.mp h
  have := hthree a
  have := hthree b
  have := hthree c
  have := hthree d
  rw [length_ntopDotted, inetAddrstrlen]
  omega

/-- In the reverse order they take as much room. -/
theorem length_ntopDotted_reverse (h : addr.length = 4) :
    (ntopDotted addr.reverse).length = (ntopDotted addr).length := by
  obtain ⟨a, b, c, d, rfl⟩ := List.length_eq_four.mp h
  show (ntopDotted [d, c, b, a]).length = _
  rw [length_ntopDotted, length_ntopDotted]
  omega

/-! ### Groups and colons -/

/-- A hexadecimal digit, of either case. -/
def isHex (c : Char) : Bool := c.isDigit || ('a' ≤ c && c ≤ 'f') || ('A' ≤ c && c ≤ 'F')

/-- Its value. -/
def hexVal (c : Char) : ℕ :=
  if c.isDigit then c.toNat - 48 else if 'a' ≤ c then c.toNat - 87 else c.toNat - 55

/-- A group: two bytes, in one to four digits. -/
def group (s : List Char) : Option (List Byte) :=
  let n := s.foldl (fun n c => 16 * n + hexVal c) 0
  if s ≠ [] ∧ s.length ≤ 4 ∧ s.all isHex then some [BitVec.ofNat 8 (n / 256), BitVec.ofNat 8 n] else none

/-- Groups. -/
def groups : List (List Char) → Option (List Byte)
  | [] => some []
  | s :: ls => do
    let bs ← group s
    let rest ← groups ls
    return bs ++ rest

/-- Groups, the last two of which may be written as four decimal numbers. -/
def groupsDotted : List (List Char) → Option (List Byte)
  | [] => some []
  | [s] =>
    match group s with
    | some bs => some bs
    | none => ptonDotted s
  | s :: ls => do
    let bs ← group s
    let rest ← groupsDotted ls
    return bs ++ rest

/-- What stands before and after the first two colons. -/
def splitColons : List Char → Option (List Char × List Char)
  | [] => none
  | c :: s =>
    if c = ':' ∧ s.head? = some ':' then some ([], s.tail)
    else (splitColons s).map fun (front, back) => (c :: front, back)

/-- The bytes of some groups; there may be none. -/
def part (f : List (List Char) → Option (List Byte)) (s : List Char) : Option (List Byte) :=
  if s = [] then some [] else f (s.splitOn ':')

/-- `inet_pton(AF_INET6, …)` -/
def ptonColon (s : List Char) : Option (List Byte) :=
  match splitColons s with
  | none => do
    let addr ← groupsDotted (s.splitOn ':')
    if addr.length = 16 then some addr else none
  | some (front, back) => do
    let before ← part groups front
    let after ← part groupsDotted back
    -- the two colons stand for at least one group
    if before.length + after.length ≤ 14 then
      some (before ++ List.replicate (16 - (before.length + after.length)) 0 ++ after)
    else none

/-! ### How long it is -/

theorem splitColons_eq_some {front back : List Char} (h : splitColons s = some (front, back)) :
    s = front ++ ':' :: ':' :: back := by
  induction s generalizing front with
  | nil => cases h
  | cons c s ih =>
    rw [splitColons] at h
    split_ifs at h with hc
    · obtain ⟨rfl, hs⟩ := hc
      cases h
      rw [List.nil_append, List.cons_inj_right]
      exact (List.cons_head?_tail hs).symm
    · obtain ⟨⟨front', back'⟩, hs, heq⟩ := Option.map_eq_some_iff.mp h
      cases heq
      rw [ih hs, List.cons_append]

theorem length_intercalate (d : Char) (hne : ls ≠ []) :
    ([d].intercalate ls).length + 1 = (ls.map fun s => s.length + 1).sum := by
  induction ls with
  | nil => exact absurd rfl hne
  | cons s ls ih =>
    cases ls with
    | nil => simp
    | cons t ls =>
      rw [List.intercalate_cons_cons, List.length_append, List.length_append, List.map_cons, List.sum_cons,
        ← ih (List.cons_ne_nil _ _), List.length_singleton]
      omega

theorem length_splitOn (s : List Char) : s.length + 1 = ((s.splitOn ':').map fun s => s.length + 1).sum := by
  have hne : s.splitOn ':' ≠ [] := List.splitOnP_ne_nil _ _
  rw [← length_intercalate ':' hne, List.intercalate_splitOn]

theorem of_group_eq_some {bs : List Byte} (h : group s = some bs) : s.length ≤ 4 ∧ bs.length = 2 := by
  unfold group at h
  simp only at h
  split_ifs at h with hs
  cases h
  exact ⟨hs.2.1, rfl⟩

theorem length_of_groups {bs : List Byte} (h : groups ls = some bs) :
    2 * (ls.map fun s => s.length + 1).sum ≤ 5 * bs.length := by
  induction ls generalizing bs with
  | nil => simp
  | cons s ls ih =>
    simp only [groups, Option.bind_eq_bind, Option.pure_def, Option.bind_eq_some_iff, Option.some.injEq] at h
    obtain ⟨b, hb, rest, hrest, rfl⟩ := h
    obtain ⟨hs, hlen⟩ := of_group_eq_some hb
    have := ih hrest
    rw [List.map_cons, List.sum_cons, List.length_append]
    omega

theorem length_of_groupsDotted {bs : List Byte} (h : groupsDotted ls = some bs) :
    2 * (ls.map fun s => s.length + 1).sum ≤ 5 * bs.length + 12 := by
  induction ls using groupsDotted.induct generalizing bs with
  | case1 => simp
  | case2 s bs' hs =>
    simp only [groupsDotted, hs, Option.some.injEq] at h
    subst h
    obtain ⟨hlen, hbs⟩ := of_group_eq_some hs
    simp only [List.map_cons, List.map_nil, List.sum_cons, List.sum_nil]
    omega
  | case3 s hs =>
    simp only [groupsDotted, hs] at h
    obtain ⟨hlen, rfl⟩ := ptonDotted_eq_some_iff.mp h
    have := length_ntopDotted_lt hlen
    rw [inetAddrstrlen] at this
    simp only [List.map_cons, List.map_nil, List.sum_cons, List.sum_nil]
    omega
  | case4 s ls hls ih =>
    rw [groupsDotted] at h
    · simp only [Option.bind_eq_bind, Option.pure_def, Option.bind_eq_some_iff, Option.some.injEq] at h
      obtain ⟨b, hb, rest, hrest, rfl⟩ := h
      obtain ⟨hs, hlen⟩ := of_group_eq_some hb
      have := ih hrest
      rw [List.map_cons, List.sum_cons, List.length_append]
      omega
    · exact hls

theorem length_of_part {f : List (List Char) → Option (List Byte)} {k : ℕ}
    (hf : ∀ ls bs, f ls = some bs → 2 * (ls.map fun s => s.length + 1).sum ≤ 5 * bs.length + k) {bs : List Byte}
    (h : part f s = some bs) : 2 * s.length ≤ 5 * bs.length + k := by
  unfold part at h
  split_ifs at h with hs
  · cases h
    simp [hs]
  · have := hf _ _ h
    rw [← length_splitOn] at this
    omega

/-- What `inet_pton(AF_INET6, …)` reads is sixteen bytes, from at most 45 characters. -/
theorem of_ptonColon_eq_some (h : ptonColon s = some addr) : addr.length = 16 ∧ s.length < inet6Addrstrlen := by
  unfold ptonColon at h
  split at h
  · simp only [Option.bind_eq_bind, Option.bind_eq_some_iff, Option.ite_none_right_eq_some, Option.some.injEq] at h
    obtain ⟨addr', hgroups, hlen, rfl⟩ := h
    have := length_of_groupsDotted hgroups
    rw [← length_splitOn] at this
    refine ⟨hlen, ?_⟩
    rw [inet6Addrstrlen]
    omega
  · rename_i front back hsplit
    simp only [Option.bind_eq_bind, Option.bind_eq_some_iff, Option.ite_none_right_eq_some, Option.some.injEq] at h
    obtain ⟨before, hbefore, after, hafter, hlen, rfl⟩ := h
    have hfront := length_of_part (k := 0) (fun _ _ => length_of_groups) hbefore
    have hback := length_of_part (k := 12) (fun _ _ => length_of_groupsDotted) hafter
    have hs := congrArg List.length (splitColons_eq_some hsplit)
    rw [List.length_append, List.length_cons, List.length_cons] at hs
    constructor
    · rw [List.length_append, List.length_append, List.length_replicate]
      omega
    · rw [inet6Addrstrlen]
      omega

/-- There is a colon in it. -/
theorem colon_mem_of_ptonColon (h : ptonColon s = some addr) : ':' ∈ s := by
  by_contra hcolon
  have hlen := (of_ptonColon_eq_some h).1
  unfold ptonColon at h
  split at h
  · have hone : ([':'].intercalate [s]).splitOn ':' = [s] :=
      List.splitOn_intercalate ':' (by simpa using hcolon) (List.cons_ne_nil _ _)
    rw [List.intercalate_singleton] at hone
    simp only [hone, Option.bind_eq_bind, Option.bind_eq_some_iff, Option.ite_none_right_eq_some,
      Option.some.injEq] at h
    obtain ⟨addr', hgroups, -, rfl⟩ := h
    simp only [groupsDotted] at hgroups
    split at hgroups
    · rename_i hgroup
      cases hgroups
      rw [(of_group_eq_some hgroup).2] at hlen
      cases hlen
    · rw [(ptonDotted_eq_some_iff.mp hgroups).1] at hlen
      cases hlen
  · rename_i front back hsplit
    rw [splitColons_eq_some hsplit] at hcolon
    simp at hcolon

/-- No text is an address of both kinds. -/
theorem ptonDotted_of_ptonColon (h : ptonColon s = some addr) : ptonDotted s = none := by
  cases h4 : ptonDotted s with
  | none => rfl
  | some addr4 =>
    obtain ⟨-, rfl⟩ := ptonDotted_eq_some_iff.mp h4
    exact absurd (colon_mem_of_ptonColon h) (notMem_ntopDotted rfl (by decide) addr4)

/-! ### Printing groups -/

/-- The four digits of a group. -/
def hexGroup (a b : Byte) : List Char :=
  [a.toNat / 16, a.toNat % 16, b.toNat / 16, b.toNat % 16].map Nat.digitChar

/-- The groups of an address, written out. -/
def hexGroups : List Byte → List (List Char)
  | a :: b :: addr => hexGroup a b :: hexGroups addr
  | _ => []

/-- An address of sixteen bytes, with no group left out. -/
def ntopColon (addr : List Byte) : List Char := [':'].intercalate (hexGroups addr)

theorem hex_digitChar {n : ℕ} (h : n < 16) : isHex n.digitChar = true ∧ hexVal n.digitChar = n := by
  have hall : ∀ n : Fin 16, isHex (Nat.digitChar n) = true ∧ hexVal (Nat.digitChar n) = n := by decide
  exact hall ⟨n, h⟩

theorem mem_hexGroup {a b : Byte} {c : Char} (h : c ∈ hexGroup a b) : ∃ n < 16, c = Nat.digitChar n := by
  obtain ⟨n, hn, rfl⟩ := List.mem_map.mp h
  have := a.isLt
  have := b.isLt
  refine ⟨n, ?_, rfl⟩
  simp only [List.mem_cons, List.not_mem_nil, or_false] at hn
  omega

theorem notMem_hexGroup {a b : Byte} {c : Char} (hc : ∀ n < 16, c ≠ Nat.digitChar n) : c ∉ hexGroup a b := by
  intro h
  obtain ⟨n, hn, rfl⟩ := mem_hexGroup h
  exact hc n hn rfl

/-- A group is read from its digits. -/
theorem group_hexGroup (a b : Byte) : group (hexGroup a b) = some [a, b] := by
  have ha := a.isLt
  have hb := b.isLt
  have hall : (hexGroup a b).all isHex = true := by
    rw [List.all_eq_true]
    intro c hc
    obtain ⟨n, hn, rfl⟩ := mem_hexGroup hc
    exact (hex_digitChar hn).1
  have hval : (hexGroup a b).foldl (fun n c => 16 * n + hexVal c) 0 = 256 * a.toNat + b.toNat := by
    simp only [hexGroup, List.map_cons, List.map_nil, List.foldl_cons, List.foldl_nil,
      (hex_digitChar (n := a.toNat / 16) (by omega)).2, (hex_digitChar (n := a.toNat % 16) (by omega)).2,
      (hex_digitChar (n := b.toNat / 16) (by omega)).2, (hex_digitChar (n := b.toNat % 16) (by omega)).2]
    omega
  simp only [group, hval]
  rw [if_pos ⟨List.cons_ne_nil _ _, Nat.le_refl 4, hall⟩]
  congr
  · apply BitVec.eq_of_toNat_eq
    rw [BitVec.toNat_ofNat]
    omega
  · apply BitVec.eq_of_toNat_eq
    rw [BitVec.toNat_ofNat]
    omega

theorem groupsDotted_hexGroups (addr : List Byte) (h : 2 ∣ addr.length) : groupsDotted (hexGroups addr) = some addr := by
  induction addr using hexGroups.induct with
  | case1 a b addr ih =>
    have hrest := ih (by simpa [Nat.dvd_add_right] using h)
    rw [hexGroups]
    cases hls : hexGroups addr with
    | nil =>
      rw [hls] at hrest
      simp only [groupsDotted, Option.some.injEq] at hrest
      subst hrest
      simp only [groupsDotted, group_hexGroup]
    | cons s ls =>
      rw [hls] at hrest
      simp only [groupsDotted, group_hexGroup, hrest]
      rfl
  | case2 addr haddr =>
    cases addr with
    | nil => rfl
    | cons a addr =>
      cases addr with
      | nil => simp at h
      | cons b addr => exact absurd rfl (haddr a b addr)

theorem mem_hexGroups (h : s ∈ hexGroups addr) : ∃ a b, s = hexGroup a b := by
  induction addr using hexGroups.induct with
  | case1 a b addr ih =>
    rw [hexGroups, List.mem_cons] at h
    rcases h with rfl | h
    · exact ⟨a, b, rfl⟩
    · exact ih h
  | case2 addr haddr =>
    rw [hexGroups] at h
    · cases h
    · exact haddr

theorem colon_notMem_hexGroups : ∀ s ∈ hexGroups addr, ':' ∉ s := by
  intro s hs
  obtain ⟨a, b, rfl⟩ := mem_hexGroups hs
  exact notMem_hexGroup (by decide)

/-- Where there is no colon, there are no two. -/
theorem splitColons_append (hs : ':' ∉ s) {t : List Char} (ht : splitColons t = none) : splitColons (s ++ t) = none := by
  induction s with
  | nil => exact ht
  | cons c s ih =>
    obtain ⟨hc, hs⟩ := not_or.mp (mt List.mem_cons.mpr hs)
    rw [List.cons_append, splitColons, if_neg fun h => hc h.1.symm, ih hs]
    rfl

/-- Between groups there is one colon. -/
theorem splitColons_intercalate (hne : ∀ s ∈ ls, s ≠ []) (hcolon : ∀ s ∈ ls, ':' ∉ s) :
    splitColons ([':'].intercalate ls) = none := by
  induction ls with
  | nil => rfl
  | cons s ls ih =>
    obtain ⟨hs, hls⟩ := List.forall_mem_cons.mp hcolon
    cases ls with
    | nil =>
      rw [List.intercalate_singleton, ← List.append_nil s]
      exact splitColons_append hs rfl
    | cons t ls =>
      have hrest := ih (List.forall_mem_cons.mp hne).2 hls
      rw [List.intercalate_cons_cons, List.append_assoc]
      refine splitColons_append hs ?_
      rw [List.singleton_append, splitColons, if_neg, hrest]
      · rfl
      -- the next group begins with a digit
      · rintro ⟨-, hhead⟩
        obtain ⟨c, t', rfl⟩ := List.exists_cons_of_ne_nil (hne t (by simp))
        have hc : (c :: t').head? = some ':' := by
          cases ls with
          | nil => rwa [List.intercalate_singleton] at hhead
          | cons u ls =>
            rw [List.intercalate_cons_cons] at hhead
            exact hhead
        exact hls _ (List.mem_cons_self ..) (List.mem_of_head? hc)

/-- An address that is written out is read again. -/
theorem ptonColon_ntopColon (h : addr.length = 16) : ptonColon (ntopColon addr) = some addr := by
  have hgroups : ∀ s ∈ hexGroups addr, s ≠ [] := by
    intro s hs
    obtain ⟨a, b, rfl⟩ := mem_hexGroups hs
    exact List.cons_ne_nil _ _
  have hne : hexGroups addr ≠ [] := by
    intro hnil
    have := groupsDotted_hexGroups addr ⟨8, h⟩
    rw [hnil] at this
    cases this
    cases h
  unfold ptonColon ntopColon
  rw [splitColons_intercalate hgroups colon_notMem_hexGroups]
  simp only [List.splitOn_intercalate ':' colon_notMem_hexGroups hne, groupsDotted_hexGroups addr ⟨8, h⟩,
    Option.bind_eq_bind, Option.bind_some, h, if_true]

/-! ### The library -/

/-- The functions of the library: `inet_pton` reads the texts above and no others, and
`inet_ntop` prints a text of the address. -/
structure Lawful (inet : Inet) : Prop where
  /-- `inet_pton(AF_INET, …)` -/
  pton4 : ∀ s, inet.pton4 s = ptonDotted s
  /-- `inet_ntop(AF_INET, …)` -/
  ntop4 : ∀ addr, addr.length = 4 → inet.ntop4 addr = some (ntopDotted addr)
  /-- `inet_pton(AF_INET6, …)` -/
  pton6 : ∀ s, inet.pton6 s = ptonColon s
  /-- `inet_ntop(AF_INET6, …)`, which leaves out groups of zeros in one way or another. -/
  ntop6 : ∀ addr, addr.length = 16 → ∃ s, inet.ntop6 addr = some s ∧ ptonColon s = some addr

theorem blank_notMem_of_ntopDotted (addr : List Byte) (s : List Char) (h : some (ntopDotted addr) = some s) : ' ' ∉ s := by
  rw [← Option.some.inj h]
  exact notMem_ntopDotted rfl (by decide) addr

theorem blank_notMem_of_ntopColon (addr : List Byte) (s : List Char) (h : some (ntopColon addr) = some s) : ' ' ∉ s := by
  rw [← Option.some.inj h]
  refine notMem_intercalate (by decide) fun t ht => ?_
  obtain ⟨a, b, rfl⟩ := mem_hexGroups ht
  exact notMem_hexGroup (by decide)

/-- A library that leaves out no zeros. -/
def plainInet : Inet where
  pton4 := ptonDotted
  ntop4 addr := some (ntopDotted addr)
  pton6 := ptonColon
  ntop6 addr := some (ntopColon addr)
  blank4 := blank_notMem_of_ntopDotted
  blank6 := blank_notMem_of_ntopColon

theorem lawful_plainInet : Lawful plainInet where
  pton4 _ := rfl
  ntop4 _ _ := rfl
  pton6 _ := rfl
  ntop6 addr h := ⟨ntopColon addr, rfl, ptonColon_ntopColon h⟩

end Gross.Addrutils
