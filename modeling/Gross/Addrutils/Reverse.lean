import Gross.Addrutils.Text

/-!
# Addresses in reverse

The lists of bad hosts are asked by name: the numbers of the address in reverse, and then
the name of the list. `reverse_inet_addr` writes the first part of the name in the place of
the address: 1.2.3.4 becomes 4.3.2.1, and an address of sixteen bytes becomes its 32
hexadecimal digits, the last one first, with dots between them.

## The model

`mem` is the block that `ipstr` points at, from there on; the string in it ends with a NUL,
and what is written to it is checked. `reverseWord` is the loop over the bytes.

## What is proved

`reverseInetAddr_correct` — a text that is no address is left alone. Four numbers are
reversed, in the same room, and reversed again they are as they were. Of sixteen bytes the
digits are written, into `REVERSED_INET6_ADDRSTRLEN` bytes, and they tell the address.
-/

namespace Gross.Addrutils

open Foundation Worker

/-- `REVERSED_INET6_ADDRSTRLEN` -/
def reversedInet6Addrstrlen : ℕ := 65

/-! ### Four bytes -/

/-- A turn of the loop of `reverse_inet4_addr`, with `ipa` and `tmp`. -/
def reverseTurn (s : Word × Word) : Word × Word := (s.1 >>> 8, (s.2 <<< 8) ||| (s.1 &&& 0xff))

/-- The loop of `reverse_inet4_addr`. -/
def reverseWord (ipa : Word) : Word := ((List.range 4).foldl (fun s _ => reverseTurn s) (ipa, 0)).2

/-- `reverse_inet4_addr` -/
def reverseInet4Addr (inet : Inet) (e : Endian) (mem : List Char) : Except Fault (ℤ × List Char) := do
  let ipstr ← strdup '\x00' mem
  if ipstr.length ≥ inetAddrstrlen then return (-1, mem)
  match inet.pton4 ipstr with
  | none => return (-1, mem)
  | some addr =>
    match inet.ntop4 (bytesOf e (reverseWord (wordOf e addr))) with
    | none => return (-1, mem)
    | some tmpstr => do
      check (tmpstr.length = ipstr.length)
      let out ← strncpy '\x00' ipstr.length (tmpstr ++ ['\x00'])
      let mem ← memcpy mem 0 out ipstr.length
      return (0, mem)

/-! ### Sixteen bytes -/

/-- The two arguments for a byte. -/
def nibbles (b : Byte) : List Byte := [b &&& 0xf, b >>> 4]

/-- The arguments of the `snprintf` of `reverse_inet6_addr`, from the last byte to the first. -/
def nibbleArgs (addr : List Byte) : List Byte := addr.reverse.flatMap nibbles

/-- What it prints: each with `%x`, and dots between them. -/
def nibbleText (addr : List Byte) : List Char :=
  ['.'].intercalate ((nibbleArgs addr).map fun n => Nat.toDigits 16 n.toNat)

/-- `reverse_inet6_addr` -/
def reverseInet6Addr (inet : Inet) (mem : List Char) : Except Fault (ℤ × List Char) := do
  let ipstr ← strdup '\x00' mem
  if ipstr.length ≥ inet6Addrstrlen then return (-1, mem)
  match inet.pton6 ipstr with
  | none => return (-1, mem)
  | some addr => do
    let mem ← snprintf '\x00' mem 0 reversedInet6Addrstrlen (nibbleText addr)
    return (0, mem)

/-- `reverse_inet_addr` -/
def reverseInetAddr (inet : Inet) (e : Endian) (mem : List Char) : Except Fault (ℤ × List Char) := do
  let colon ← strchr '\x00' ':' mem
  if colon.isSome then reverseInet6Addr inet mem else reverseInet4Addr inet e mem

/-! ### The loop -/

/-- A turn takes the last byte of one word to the end of the other. -/
theorem reverseTurn_wordOf (a b c d a' b' c' d' : Byte) :
    reverseTurn (wordOf .big [a, b, c, d], wordOf .big [a', b', c', d']) =
      (wordOf .big [0, a, b, c], wordOf .big [b', c', d', d]) := by
  simp only [wordOf]
  rw [reverseTurn, Prod.mk.injEq]
  have hlow : ∀ i, (0xff : Word).getLsbD i = decide (i < 8) := by
    intro i
    rw [show (0xff : Word) = (BitVec.allOnes 8).setWidth 32 from rfl, BitVec.getLsbD_setWidth, BitVec.getLsbD_allOnes]
    by_cases h : i < 8
    · simp [h, show i < 32 by omega]
    · simp [h]
  constructor <;> apply BitVec.eq_of_getLsbD_eq <;> intro i hi
  · simp only [BitVec.getLsbD_ushiftRight, BitVec.getLsbD_append, show ¬ 8 + i < 8 by omega, if_false,
      Nat.add_sub_cancel_left]
    split_ifs with h₁ h₂ h₃
    · rfl
    · rfl
    · rfl
    · rw [BitVec.getLsbD_of_ge a _ (by omega)]
      exact BitVec.getLsbD_zero.symm
  · simp only [BitVec.getLsbD_or, BitVec.getLsbD_shiftLeft, BitVec.getLsbD_and, hlow, BitVec.getLsbD_append, hi]
    by_cases h : i < 8
    · simp [h]
    · simp only [h, decide_true, decide_false, if_false, Bool.not_false, Bool.and_false, Bool.or_false, Bool.true_and]
      split_ifs <;> first | rfl | omega

theorem reverseWord_wordOf (a b c d : Byte) : reverseWord (wordOf .big [a, b, c, d]) = wordOf .big [d, c, b, a] := by
  have hstart : (0 : Word) = wordOf .big [0, 0, 0, 0] := rfl
  have hrange : List.range 4 = [0, 1, 2, 3] := rfl
  simp only [reverseWord, hrange, hstart, List.foldl_cons, List.foldl_nil, reverseTurn_wordOf]

/-- **The loop** reverses the bytes, on a machine of either kind. -/
theorem bytesOf_reverseWord (e : Endian) {addr : List Byte} (h : addr.length = 4) :
    bytesOf e (reverseWord (wordOf e addr)) = addr.reverse := by
  obtain ⟨a, b, c, d, rfl⟩ := List.length_eq_four.mp h
  have hword : reverseWord (wordOf e [a, b, c, d]) = wordOf e [d, c, b, a] := by
    cases e with
    | big => exact reverseWord_wordOf a b c d
    | little => exact reverseWord_wordOf d c b a
  rw [hword, bytesOf_wordOf e rfl]
  rfl

/-! ### The digits of a number -/

/-- The number an address is. -/
def addressNumber (addr : List Byte) : ℕ := addr.foldl (fun n b => 256 * n + b.toNat) 0

/-- A hexadecimal digit of a number, from the last one on. -/
def nibble (n k : ℕ) : ℕ := n / 16 ^ k % 16

/-- The last 32 digits of a number, the last one first, with dots between them. -/
def nibbleName (n : ℕ) : List Char :=
  ['.'].intercalate ((List.range 32).map fun k => [Nat.digitChar (nibble n k)])

/-- The digits of a number with a byte behind it. -/
theorem nibble_add (n : ℕ) (b : Byte) :
    nibble (256 * n + b.toNat) 0 = (b &&& 0xf).toNat ∧ nibble (256 * n + b.toNat) 1 = (b >>> 4).toNat ∧
      ∀ k, nibble (256 * n + b.toNat) (k + 2) = nibble n k := by
  have hb := b.isLt
  refine ⟨?_, ?_, fun k => ?_⟩
  · have hand : (b &&& 0xf).toNat = b.toNat % 16 := by
      rw [BitVec.toNat_and]
      exact Nat.and_two_pow_sub_one_eq_mod b.toNat 4
    rw [nibble, hand]
    omega
  · rw [nibble, BitVec.toNat_ushiftRight, Nat.shiftRight_eq_div_pow]
    omega
  · have hdiv : (256 * n + b.toNat) / 256 = n := by omega
    rw [nibble, nibble, Nat.pow_add', ← Nat.div_div_eq_div_mul, hdiv]

theorem map_nibbleArgs (addr : List Byte) :
    (nibbleArgs addr).map BitVec.toNat = (List.range (2 * addr.length)).map (nibble (addressNumber addr)) := by
  -- from the last byte on, as the arguments go
  rw [nibbleArgs, addressNumber, ← List.foldr_reverse, ← List.length_reverse]
  induction addr.reverse with
  | nil => rfl
  | cons b l ih =>
    obtain ⟨hlow, hhigh, hmore⟩ := nibble_add (l.foldr (fun b n => 256 * n + b.toNat) 0) b
    have hrange : List.range (2 * (l.length + 1)) = 0 :: 1 :: (List.range (2 * l.length)).map (· + 2) := by
      rw [Nat.mul_succ, List.range_succ_eq_map, List.range_succ_eq_map, List.map_cons, List.map_map]
      rfl
    rw [List.flatMap_cons, List.map_append, ih, List.foldr_cons, List.length_cons, hrange]
    simp only [nibbles, List.map_cons, List.map_nil, List.map_map, hlow, hhigh, Function.comp_def, hmore]
    rfl

theorem nibble_lt (n k : ℕ) : nibble n k < 16 := Nat.mod_lt _ (by omega)

/-- **What is printed** are the digits of the address. -/
theorem nibbleText_eq {addr : List Byte} (h : addr.length = 16) :
    nibbleText addr = nibbleName (addressNumber addr) := by
  have hargs := map_nibbleArgs addr
  rw [h] at hargs
  have hdigits : (nibbleArgs addr).map (fun n => Nat.toDigits 16 n.toNat) =
      ((nibbleArgs addr).map BitVec.toNat).map (Nat.toDigits 16) := by
    rw [List.map_map]
    rfl
  rw [nibbleText, nibbleName, hdigits, hargs, List.map_map]
  congr 1
  apply List.map_congr_left
  intro k _
  exact Nat.toDigits_of_lt_base (nibble_lt _ k)

theorem length_nibbleName (n : ℕ) : (nibbleName n).length = 63 := by
  have hne : (List.range 32).map (fun k => [Nat.digitChar (nibble n k)]) ≠ [] := List.cons_ne_nil _ _
  have htwo : ((fun s : List Char => s.length + 1) ∘ fun k => [Nat.digitChar (nibble n k)]) = fun _ => 2 := rfl
  have hlen := length_intercalate '.' hne
  rw [List.map_map, htwo, List.map_const', List.sum_replicate_nat, List.length_range] at hlen
  exact Nat.succ.inj hlen

/-- The digits are told by the dots. -/
theorem splitOn_nibbleName (n : ℕ) :
    (nibbleName n).splitOn '.' = (List.range 32).map fun k => [Nat.digitChar (nibble n k)] := by
  refine List.splitOn_intercalate '.' ?_ (List.cons_ne_nil _ _)
  rw [List.forall_mem_map]
  intro k _ h
  have hdot : ∀ d : Fin 16, '.' ≠ Nat.digitChar d := by decide
  exact hdot ⟨nibble n k, nibble_lt n k⟩ (List.mem_singleton.mp h)

theorem nibbleArgs_inj {addr addr' : List Byte} (h : nibbleArgs addr = nibbleArgs addr') : addr = addr' := by
  have key : ∀ l l' : List Byte, l.flatMap nibbles = l'.flatMap nibbles → l = l' := by
    intro l
    induction l with
    | nil =>
      intro l' h
      cases l' with
      | nil => rfl
      | cons b' l' => cases h
    | cons b l ih =>
      intro l' h
      cases l' with
      | nil => cases h
      | cons b' l' =>
        simp only [List.flatMap_cons, nibbles, List.cons_append, List.nil_append, List.cons.injEq] at h
        obtain ⟨hlow, hhigh, hrest⟩ := h
        -- a byte is its two digits
        obtain ⟨hl, hh, -⟩ := nibble_add 0 b
        obtain ⟨hl', hh', -⟩ := nibble_add 0 b'
        rw [hlow, ← hl', nibble, nibble] at hl
        rw [hhigh, ← hh', nibble, nibble] at hh
        have hb := b.isLt
        have hb' := b'.isLt
        rw [ih l' hrest, show b = b' from BitVec.eq_of_toNat_eq (by omega)]
  exact List.reverse_injective (key _ _ h)

/-- The digits tell the address. -/
theorem nibbleName_inj {addr addr' : List Byte} (h : addr.length = 16) (h' : addr'.length = 16)
    (heq : nibbleName (addressNumber addr) = nibbleName (addressNumber addr')) : addr = addr' := by
  have hsplit := congrArg (List.splitOn '.') heq
  rw [splitOn_nibbleName, splitOn_nibbleName, List.map_inj_left] at hsplit
  have hdigits : ∀ k ∈ List.range 32, nibble (addressNumber addr) k = nibble (addressNumber addr') k := by
    intro k hk
    have hchar := (List.cons.inj (hsplit k hk)).1
    rw [← (hex_digitChar (nibble_lt (addressNumber addr) k)).2, hchar, (hex_digitChar (nibble_lt _ k)).2]
  have hargs : (nibbleArgs addr).map BitVec.toNat = (nibbleArgs addr').map BitVec.toNat := by
    rw [map_nibbleArgs, map_nibbleArgs, h, h']
    exact List.map_congr_left hdigits
  exact nibbleArgs_inj (List.map_injective_iff.mpr (fun _ _ => BitVec.eq_of_toNat_eq) hargs)

/-! ### In place -/

section

variable {inet : Inet} {e : Endian} {s rest : List Char} {addr : List Byte}

theorem reverseInetAddr_of_colon (hs : '\x00' ∉ s) (hcolon : ':' ∈ s) :
    reverseInetAddr inet e (s ++ '\x00' :: rest) = reverseInet6Addr inet (s ++ '\x00' :: rest) := by
  obtain ⟨front, back, rfl, hfront⟩ := List.eq_append_cons_of_mem hcolon
  have hnul : '\x00' ∉ front := fun h => hs (List.mem_append_left _ h)
  have hchr : strchr '\x00' ':' (front ++ ':' :: (back ++ '\x00' :: rest)) = .ok (some front.length) :=
    strchr_append hfront hnul _
  rw [reverseInetAddr, List.append_assoc, List.cons_append, hchr]
  rfl

theorem reverseInetAddr_of_no_colon (hs : '\x00' ∉ s) (hcolon : ':' ∉ s) :
    reverseInetAddr inet e (s ++ '\x00' :: rest) = reverseInet4Addr inet e (s ++ '\x00' :: rest) := by
  rw [reverseInetAddr, strchr_none hcolon hs (by decide)]
  rfl

theorem reverseInet4Addr_invalid (hs : '\x00' ∉ s) (h : inet.pton4 s = none) :
    reverseInet4Addr inet e (s ++ '\x00' :: rest) = .ok (-1, s ++ '\x00' :: rest) := by
  rw [reverseInet4Addr, strdup_append hs, ok_bind]
  split_ifs
  · rfl
  · rw [h]
    rfl

theorem reverseInet6Addr_invalid (hs : '\x00' ∉ s) (h : inet.pton6 s = none) :
    reverseInet6Addr inet (s ++ '\x00' :: rest) = .ok (-1, s ++ '\x00' :: rest) := by
  rw [reverseInet6Addr, strdup_append hs, ok_bind]
  split_ifs
  · rfl
  · rw [h]
    rfl

/-- **Four numbers** are reversed, in the room they take. -/
theorem reverseInetAddr_v4 (hinet : Lawful inet) (haddr : addr.length = 4) :
    reverseInetAddr inet e (ntopDotted addr ++ '\x00' :: rest) = .ok (0, ntopDotted addr.reverse ++ '\x00' :: rest) := by
  have hnul : ∀ addr, '\x00' ∉ ntopDotted addr := notMem_ntopDotted rfl (by decide)
  have hread : inet.pton4 (ntopDotted addr) = some addr :=
    (hinet.pton4 _).trans (ptonDotted_eq_some_iff.mpr ⟨haddr, rfl⟩)
  have hprint : inet.ntop4 (bytesOf e (reverseWord (wordOf e addr))) = some (ntopDotted addr.reverse) := by
    rw [bytesOf_reverseWord e haddr]
    exact hinet.ntop4 _ (by rw [List.length_reverse, haddr])
  have hlen := length_ntopDotted_reverse haddr
  have hcopy : strncpy '\x00' (ntopDotted addr).length (ntopDotted addr.reverse ++ ['\x00']) =
      .ok (ntopDotted addr.reverse) := by
    rw [← hlen]
    exact strncpy_length (hnul _) _
  have hwrite : memcpy (ntopDotted addr ++ '\x00' :: rest) 0 (ntopDotted addr.reverse) (ntopDotted addr).length =
      .ok (ntopDotted addr.reverse ++ '\x00' :: rest) := by
    rw [memcpy_ok (Nat.le_of_eq hlen.symm) (by rw [List.length_append]; omega), ← hlen, List.take_length, overwrite_start,
      hlen, List.drop_left]
  rw [reverseInetAddr_of_no_colon (hnul addr) (notMem_ntopDotted rfl (by decide) addr), reverseInet4Addr,
    strdup_append (hnul addr), ok_bind,
    if_neg (Nat.not_le.mpr (length_ntopDotted_lt haddr))]
  simp only [hread, hprint, check_pos hlen, hcopy, hwrite, ok_bind]
  rfl

/-- **Sixteen bytes** become their digits. -/
theorem reverseInetAddr_v6 (hinet : Lawful inet) (hs : '\x00' ∉ s) (haddr : inet.pton6 s = some addr)
    (hmem : reversedInet6Addrstrlen ≤ (s ++ '\x00' :: rest).length) :
    reverseInetAddr inet e (s ++ '\x00' :: rest) =
      .ok (0, nibbleName (addressNumber addr) ++ '\x00' :: (s ++ '\x00' :: rest).drop 64) := by
  have hs6 : ptonColon s = some addr := (hinet.pton6 s).symm.trans haddr
  obtain ⟨hlen, hshort⟩ := of_ptonColon_eq_some hs6
  have hname := length_nibbleName (addressNumber addr)
  have htake : (nibbleName (addressNumber addr)).take (reversedInet6Addrstrlen - 1) =
      nibbleName (addressNumber addr) := List.take_of_length_le (by rw [hname, reversedInet6Addrstrlen]; omega)
  have hwrite : snprintf '\x00' ([] ++ (s ++ '\x00' :: rest)) ([] : List Char).length reversedInet6Addrstrlen
      (nibbleText addr) = .ok _ := snprintf_append (by rw [reversedInet6Addrstrlen]; omega) hmem _
  rw [nibbleText_eq hlen, htake, hname] at hwrite
  rw [reverseInetAddr_of_colon hs (colon_mem_of_ptonColon hs6), reverseInet6Addr, strdup_append hs, ok_bind,
    if_neg (Nat.not_le.mpr hshort)]
  simp only [haddr, nibbleText_eq hlen]
  exact congrArg (· >>= fun mem => pure (0, mem)) hwrite

theorem reverseInetAddr_invalid (hs : '\x00' ∉ s) (h4 : inet.pton4 s = none) (h6 : inet.pton6 s = none) :
    reverseInetAddr inet e (s ++ '\x00' :: rest) = .ok (-1, s ++ '\x00' :: rest) := by
  by_cases hcolon : ':' ∈ s
  · rw [reverseInetAddr_of_colon hs hcolon, reverseInet6Addr_invalid hs h6]
  · rw [reverseInetAddr_of_no_colon hs hcolon, reverseInet4Addr_invalid hs h4]

/-- A string in a block of `REVERSED_INET6_ADDRSTRLEN` bytes can always be given. -/
theorem reverseInetAddr_ok (hinet : Lawful inet) {mem : List Char} (hnul : '\x00' ∈ mem)
    (hmem : reversedInet6Addrstrlen ≤ mem.length) : ∃ r, reverseInetAddr inet e mem = .ok r := by
  obtain ⟨s, rest, rfl, hs⟩ := List.eq_append_cons_of_mem hnul
  cases h4 : inet.pton4 s with
  | some addr =>
    obtain ⟨hlen, rfl⟩ := ptonDotted_eq_some_iff.mp ((hinet.pton4 s).symm.trans h4)
    exact ⟨_, reverseInetAddr_v4 hinet hlen⟩
  | none =>
    cases h6 : inet.pton6 s with
    | some addr => exact ⟨_, reverseInetAddr_v6 hinet hs h6 hmem⟩
    | none => exact ⟨_, reverseInetAddr_invalid hs h4 h6⟩

/-- **In reverse**: on every string and every machine. A text that is no address is left as it is,
with -1. The four numbers of an address are written in the reverse order, no assertion
fails, and a second time restores the text. For sixteen bytes the 32 digits of the address are
written, the last one first and with dots between them, into the first
`REVERSED_INET6_ADDRSTRLEN` bytes of the block, and other addresses have other names. -/
theorem reverseInetAddr_correct (hinet : Lawful inet) (hs : '\x00' ∉ s) :
    (inet.pton4 s = none → inet.pton6 s = none →
        reverseInetAddr inet e (s ++ '\x00' :: rest) = .ok (-1, s ++ '\x00' :: rest)) ∧
      (∀ addr, inet.pton4 s = some addr → s = ntopDotted addr ∧
        reverseInetAddr inet e (s ++ '\x00' :: rest) = .ok (0, ntopDotted addr.reverse ++ '\x00' :: rest) ∧
        reverseInetAddr inet e (ntopDotted addr.reverse ++ '\x00' :: rest) = .ok (0, s ++ '\x00' :: rest)) ∧
      ∀ addr, inet.pton6 s = some addr →
        (reversedInet6Addrstrlen ≤ (s ++ '\x00' :: rest).length →
          ∃ mem, reverseInetAddr inet e (s ++ '\x00' :: rest) =
              .ok (0, nibbleName (addressNumber addr) ++ '\x00' :: mem) ∧
            (nibbleName (addressNumber addr) ++ '\x00' :: mem).length = (s ++ '\x00' :: rest).length ∧
            (nibbleName (addressNumber addr) ++ '\x00' :: mem).drop reversedInet6Addrstrlen =
              (s ++ '\x00' :: rest).drop reversedInet6Addrstrlen) ∧
        ∀ s' addr', inet.pton6 s' = some addr' → addr' ≠ addr →
          nibbleName (addressNumber addr') ≠ nibbleName (addressNumber addr) := by
  refine ⟨fun h4 h6 => reverseInetAddr_invalid hs h4 h6, fun addr haddr => ?_,
    fun addr haddr => ⟨fun hmem => ?_, fun s' addr' haddr' hne heq => ?_⟩⟩
  · obtain ⟨hlen, rfl⟩ := ptonDotted_eq_some_iff.mp ((hinet.pton4 s).symm.trans haddr)
    refine ⟨rfl, reverseInetAddr_v4 hinet hlen, ?_⟩
    rw [reverseInetAddr_v4 hinet (by rw [List.length_reverse, hlen]), List.reverse_reverse]
  · have hname := length_nibbleName (addressNumber addr)
    refine ⟨_, reverseInetAddr_v6 hinet hs haddr hmem, ?_, ?_⟩
    · rw [List.length_append, List.length_cons, List.length_drop, hname]
      rw [reversedInet6Addrstrlen] at hmem
      omega
    · rw [reversedInet6Addrstrlen, List.drop_append, List.drop_eq_nil_of_le (by omega), hname, List.nil_append,
        List.drop_succ_cons, List.drop_drop]
  · have hlen := (of_ptonColon_eq_some ((hinet.pton6 s).symm.trans haddr)).1
    have hlen' := (of_ptonColon_eq_some ((hinet.pton6 s').symm.trans haddr')).1
    exact hne (nibbleName_inj hlen' hlen heq)

end

/-- Three tests of the source, of four numbers, of five, and of sixteen bytes. -/
theorem reverseInetAddr_tests :
    reverseInetAddr plainInet .little ("210.123.110.220".toList ++ ['\x00']) =
        .ok (0, "220.110.123.210".toList ++ ['\x00']) ∧
      reverseInetAddr plainInet .little ("1.2.3.4.5".toList ++ ['\x00']) = .ok (-1, "1.2.3.4.5".toList ++ ['\x00']) ∧
      ∃ mem, reverseInetAddr plainInet .little
          ("2600:abcd::f03c:91ff:fe50:d2".toList ++ '\x00' :: List.replicate 36 '\x00') =
        .ok (0, "2.d.0.0.0.5.e.f.f.f.1.9.c.3.0.f.0.0.0.0.0.0.0.0.d.c.b.a.0.0.6.2".toList ++ '\x00' :: mem) := by
  have hs : plainInet.pton4 "210.123.110.220".toList = some [210, 123, 110, 220] :=
    (lawful_plainInet.pton4 _).trans (ptonDotted_eq_some_iff.mpr ⟨rfl, rfl⟩)
  have h4 : plainInet.pton4 "1.2.3.4.5".toList = none := rfl
  have h6 : plainInet.pton6 "1.2.3.4.5".toList = none := rfl
  have hs6 : plainInet.pton6 "2600:abcd::f03c:91ff:fe50:d2".toList =
      some [0x26, 0, 0xab, 0xcd, 0, 0, 0, 0, 0xf0, 0x3c, 0x91, 0xff, 0xfe, 0x50, 0, 0xd2] := by decide
  have hname : nibbleName (addressNumber [0x26, 0, 0xab, 0xcd, 0, 0, 0, 0, 0xf0, 0x3c, 0x91, 0xff, 0xfe, 0x50, 0, 0xd2]) =
      "2.d.0.0.0.5.e.f.f.f.1.9.c.3.0.f.0.0.0.0.0.0.0.0.d.c.b.a.0.0.6.2".toList := by decide +kernel
  refine ⟨((reverseInetAddr_correct lawful_plainInet (by decide)).2.1 _ hs).2.1,
    (reverseInetAddr_correct lawful_plainInet (by decide)).1 h4 h6, ?_⟩
  have hmem : reversedInet6Addrstrlen ≤
      ("2600:abcd::f03c:91ff:fe50:d2".toList ++ '\x00' :: List.replicate 36 '\x00').length := by decide
  obtain ⟨mem, hreverse, -, -⟩ := ((reverseInetAddr_correct lawful_plainInet (by decide)).2.2 _ hs6).1 hmem
  exact ⟨mem, hname ▸ hreverse⟩

end Gross.Addrutils
