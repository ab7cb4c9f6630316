import Gross.Addrutils.Text
import Gross.Foundation.Netmask

/-!
# Masking the client address

`grey_mask` keeps the first bits of the client address, `grey_mask` of them if it has four
bytes and `grey_mask6` if it has sixteen, so that the hosts of a net are greylisted as
one. `configure_grossd` accepts a `grey_mask` from 0 to 32, and any `grey_mask6` up to
128.

## The model

The arithmetic of `int` is partial: a result that is no `int`, and a shift by less than 0 or
more than 31, are undefined. `greyMaskV4Int` is `grey_mask_v4` with this arithmetic, and
`greyMaskInt` is `grey_mask`; where all is defined they are what `Worker` has
(`greyMaskInt_eq`).

## What is proved

* `greyMaskInt_v4_iff` — the first `grey_mask` bits of a four byte address are kept, and no
  others, exactly if `grey_mask` is at least 2. A mask of no bits asks for `1 << 32`, one
  of one bit for `1 << 31`.
* `greyMaskInt_v6` — of a sixteen byte address the first `grey_mask6` bits are kept, none if
  it is negative; addresses with these bits in common are masked to one text, and a masked
  one stays as it is.
-/

namespace Gross.Addrutils

open Foundation Worker

/-! ### `int` -/

/-- A result that is an `int`. -/
def asInt (n : ℤ) : Option ℤ := if -2 ^ 31 ≤ n ∧ n < 2 ^ 31 then some n else none

/-- `a << n` -/
def shlInt (a n : ℤ) : Option ℤ := if 0 ≤ a ∧ 0 ≤ n ∧ n < 32 then asInt (a * 2 ^ n.toNat) else none

/-- `a - b` -/
def subInt (a b : ℤ) : Option ℤ := asInt (a - b)

/-- `mask` of `grey_mask_v4`: `0xffffffff ^ ((1 << (32 - grey_mask)) - 1)` -/
def maskV4 (greyMask : ℕ) : Option Word := do
  let bit ← shlInt 1 (32 - greyMask)
  let low ← subInt bit 1
  return 0xffffffff ^^^ BitVec.ofInt 32 low

/-- `grey_mask_v4`, where it is defined. -/
def greyMaskV4Int (inet : Inet) (e : Endian) (conf : MaskConfig) (ipstr : List Char) : Option (Option (List Char)) :=
  if ipstr.length ≥ inetAddrstrlen then some none
  else
    match inet.pton4 ipstr with
    | none => some none
    | some addr => do
      let mask ← maskV4 conf.greyMask
      -- the address is in network order
      return inet.ntop4 (bytesOf e (wordOf e addr &&& htonl e mask))

/-- `grey_mask`, where it is defined. -/
def greyMaskInt (inet : Inet) (e : Endian) (conf : MaskConfig) (ipstr : List Char) : Option (Option (List Char)) := do
  let masked ← greyMaskV4Int inet e conf ipstr
  match masked with
  | some masked => return some masked
  | none => return greyMaskV6 inet conf ipstr

/-! ### The masks -/

/-- The mask as `Worker` has it. -/
def maskWord (m : ℕ) : Word := 0xffffffff ^^^ (((1 : Word) <<< (32 - m)) - 1)

/-- The mask is defined from two bits on. -/
theorem maskV4_eq {m : ℕ} (h : m ≤ 32) : maskV4 m = if 2 ≤ m then some (maskWord m) else none := by
  have hall : ∀ m : Fin 33, maskV4 m = if 2 ≤ m.val then some (maskWord m) else none := by decide
  exact hall ⟨m, by omega⟩

/-- The bytes of a mask. -/
theorem bytesOf_maskWord {m : ℕ} (h : m ≤ 32) :
    bytesOf .big (maskWord m) = [ones m, ones (m - 8), ones (m - 16), ones (m - 24)] := by
  have hall : ∀ m : Fin 33,
      bytesOf .big (maskWord m) = [ones m, ones (m - 8), ones (m - 16), ones (m - 24)] := by decide
  exact hall ⟨m, by omega⟩

/-- On a machine of either kind, the first bits of the address are kept. -/
theorem bytesOf_mask_eq (e : Endian) {m : ℕ} (hm : m ≤ 32) {addr : List Byte} (haddr : addr.length = 4) :
    bytesOf e (wordOf e addr &&& htonl e (maskWord m)) = keepBits m addr := by
  rw [bytesOf_and, bytesOf_wordOf e haddr, bytesOf_htonl, bytesOf_maskWord hm]
  obtain ⟨a, b, c, d, rfl⟩ := List.length_eq_four.mp haddr
  rfl

/-- What is kept of a byte of the other kind of address. -/
theorem maskPart_eq {conf : MaskConfig} (i : ℕ) : maskPart conf i = ones (conf.greyMask6.toNat - 8 * i) := by
  have hfull : ∀ k, 8 ≤ k → ones k = 0xff := by
    intro k hk
    rw [ones, Nat.sub_eq_zero_of_le hk]
    rfl
  have hpart : ∀ r : Fin 8, (0xff : Byte) ^^^ (((1 : Byte) <<< (8 - r.val)) - 1) = ones r := by decide
  rw [maskPart, Int.shiftRight_eq_div_pow]
  split_ifs with hlt hgt
  · rw [hfull]
    omega
  · rw [show conf.greyMask6.toNat - 8 * i = 0 by omega]
    rfl
  · -- the boundary is in this byte
    rw [show conf.greyMask6.toNat - 8 * i = (conf.greyMask6 % 8).toNat by omega]
    exact hpart ⟨(conf.greyMask6 % 8).toNat, by omega⟩

theorem mapIdx_maskPart (conf : MaskConfig) (addr : List Byte) :
    (addr.mapIdx fun i b => b &&& maskPart conf i) = keepBits conf.greyMask6.toNat addr := by
  simp only [maskPart_eq]
  rfl

/-! ### Masked addresses -/

section

variable {inet : Inet} {e : Endian} {conf : MaskConfig} {s s' : List Char} {addr addr' : List Byte}

/-- Where the mask is defined, so is everything. -/
theorem greyMaskInt_eq (hmask : conf.greyMask ≤ 32) (hdef : 2 ≤ conf.greyMask) :
    greyMaskInt inet e conf s = some (greyMask inet e conf s) := by
  have hmaskV4 := maskV4_eq hmask
  rw [if_pos hdef, maskWord] at hmaskV4
  have hfirst : greyMaskV4Int inet e conf s = some (greyMaskV4 inet e conf s) := by
    simp only [greyMaskV4Int, greyMaskV4, hmaskV4]
    split_ifs
    · rfl
    · cases inet.pton4 s <;> rfl
  rw [greyMaskInt, hfirst, greyMask]
  cases greyMaskV4 inet e conf s <;> rfl

/-- A four byte address, with a mask that is not defined. -/
theorem greyMaskInt_undefined (hinet : Lawful inet) (hundef : conf.greyMask < 2) (hs : inet.pton4 s = some addr) :
    greyMaskInt inet e conf s = none := by
  have hmask := maskV4_eq (m := conf.greyMask) (by omega)
  rw [if_neg (by omega)] at hmask
  obtain ⟨haddr, rfl⟩ := ptonDotted_eq_some_iff.mp (hinet.pton4 s ▸ hs)
  simp only [greyMaskInt, greyMaskV4Int, hs, hmask, if_neg (Nat.not_le.mpr (length_ntopDotted_lt haddr))]
  rfl

/-- A four byte address, with a mask that is defined: its first bits are kept. -/
theorem greyMaskInt_v4 (hinet : Lawful inet) (hmask : conf.greyMask ≤ 32) (hdef : 2 ≤ conf.greyMask)
    (hs : inet.pton4 s = some addr) :
    greyMaskInt inet e conf s = some (some (ntopDotted (keepBits conf.greyMask addr))) := by
  obtain ⟨haddr, rfl⟩ := ptonDotted_eq_some_iff.mp (hinet.pton4 s ▸ hs)
  have hlen := Nat.not_le.mpr (length_ntopDotted_lt haddr)
  have hkeep := bytesOf_mask_eq e hmask haddr
  rw [maskWord] at hkeep
  have hntop := hinet.ntop4 (keepBits conf.greyMask addr) (by rw [length_keepBits, haddr])
  simp only [greyMaskInt_eq hmask hdef, greyMask, greyMaskV4, hs, if_neg hlen, hkeep, hntop]

/-- **Four bytes**: with a mask that `configure_grossd` accepts, `grey_mask` returns the text of the
address with its first `grey_mask` bits, and so tells nets apart, exactly if the mask is at
least 2. -/
theorem greyMaskInt_v4_iff (hinet : Lawful inet) (hmask : conf.greyMask ≤ 32) :
    ((∀ s addr, inet.pton4 s = some addr →
        greyMaskInt inet e conf s = some (some (ntopDotted (keepBits conf.greyMask addr)))) ∧
      ∀ s addr s' addr', inet.pton4 s = some addr → inet.pton4 s' = some addr' →
        (greyMaskInt inet e conf s = greyMaskInt inet e conf s' ↔
          ∀ i < conf.greyMask, bitAt addr i = bitAt addr' i)) ↔
      2 ≤ conf.greyMask := by
  have hread : ∀ addr : List Byte, addr.length = 4 → inet.pton4 (ntopDotted addr) = some addr :=
    fun addr haddr => hinet.pton4 _ ▸ ptonDotted_eq_some_iff.mpr ⟨haddr, rfl⟩
  constructor
  · rintro ⟨hkeeps, -⟩
    by_contra hundef
    have hzero := hread [0, 0, 0, 0] rfl
    have := hkeeps _ _ hzero
    rw [greyMaskInt_undefined hinet (by omega) hzero] at this
    cases this
  · intro hdef
    refine ⟨fun s addr hs => greyMaskInt_v4 hinet hmask hdef hs, fun s addr s' addr' hs hs' => ?_⟩
    have haddr := (ptonDotted_eq_some_iff.mp (hinet.pton4 s ▸ hs)).1
    have haddr' := (ptonDotted_eq_some_iff.mp (hinet.pton4 s' ▸ hs')).1
    rw [greyMaskInt_v4 hinet hmask hdef hs, greyMaskInt_v4 hinet hmask hdef hs',
      ← keepBits_eq_iff _ (haddr.trans haddr'.symm), Option.some.injEq, Option.some.injEq]
    constructor
    · -- a text is read as one address
      intro h
      have hsame := hread _ ((length_keepBits conf.greyMask addr).trans haddr)
      rw [h, hread _ ((length_keepBits conf.greyMask addr').trans haddr')] at hsame
      exact (Option.some.inj hsame).symm
    · intro h
      rw [h]

/-- A text of sixteen bytes is not one of four. -/
theorem greyMaskInt_of_pton6 (hinet : Lawful inet) (hs : inet.pton6 s = some addr) :
    greyMaskInt inet e conf s = some (inet.ntop6 (keepBits conf.greyMask6.toNat addr)) := by
  have hs6 := hinet.pton6 s ▸ hs
  have hs4 : inet.pton4 s = none := hinet.pton4 s ▸ ptonDotted_of_ptonColon hs6
  have hfirst : greyMaskV4Int inet e conf s = some none := by
    simp only [greyMaskV4Int, hs4, ite_self]
  have hlen := Nat.not_le.mpr (of_ptonColon_eq_some hs6).2
  simp only [greyMaskInt, hfirst, greyMaskV6, hs, if_neg hlen, mapIdx_maskPart]
  rfl

/-- **Sixteen bytes**: `grey_mask` returns the text of the address with its first `grey_mask6` bits,
or none if that is negative. Two addresses have the same text exactly if they agree in these
bits, and a masked address is masked to itself. -/
theorem greyMaskInt_v6 (hinet : Lawful inet) :
    (∀ s addr, inet.pton6 s = some addr →
        ∃ t, inet.ntop6 (keepBits conf.greyMask6.toNat addr) = some t ∧
          greyMaskInt inet e conf s = some (some t) ∧ greyMaskInt inet e conf t = some (some t)) ∧
      ∀ s addr s' addr', inet.pton6 s = some addr → inet.pton6 s' = some addr' →
        (greyMaskInt inet e conf s = greyMaskInt inet e conf s' ↔
          ∀ i < conf.greyMask6.toNat, bitAt addr i = bitAt addr' i) := by
  have hlen : ∀ s addr, inet.pton6 s = some addr → (keepBits conf.greyMask6.toNat addr).length = 16 := by
    intro s addr hs
    rw [length_keepBits, (of_ptonColon_eq_some (hinet.pton6 s ▸ hs)).1]
  constructor
  · intro s addr hs
    obtain ⟨t, ht, hread⟩ := hinet.ntop6 _ (hlen s addr hs)
    refine ⟨t, ht, ?_, ?_⟩
    · rw [greyMaskInt_of_pton6 hinet hs, ht]
    · rw [greyMaskInt_of_pton6 hinet ((hinet.pton6 t).trans hread), keepBits_keepBits, ht]
  · intro s addr s' addr' hs hs'
    have haddr := (of_ptonColon_eq_some (hinet.pton6 s ▸ hs)).1
    have haddr' := (of_ptonColon_eq_some (hinet.pton6 s' ▸ hs')).1
    rw [greyMaskInt_of_pton6 hinet hs, greyMaskInt_of_pton6 hinet hs', Option.some.injEq,
      ← keepBits_eq_iff _ (haddr.trans haddr'.symm)]
    constructor
    · intro h
      obtain ⟨t, ht, hread⟩ := hinet.ntop6 _ (hlen s addr hs)
      obtain ⟨t', ht', hread'⟩ := hinet.ntop6 _ (hlen s' addr' hs')
      rw [ht, ht', Option.some.injEq] at h
      subst h
      exact Option.some.inj (hread.symm.trans hread')
    · intro h
      rw [h]

end

/-! ### Some addresses -/

/-- Masks of so many bits. -/
def maskConfig (greyMask : ℕ) (greyMask6 : ℤ) : MaskConfig := ⟨greyMask, greyMask6, .user⟩

/-- A test of the source. -/
theorem greyMaskInt_v4_test :
    plainInet.pton4 "210.123.110.220".toList = some [210, 123, 110, 220] ∧
      greyMaskInt plainInet .little (maskConfig 11 64) "210.123.110.220".toList =
        some (some "210.96.0.0".toList) := by
  have hs : plainInet.pton4 "210.123.110.220".toList = some [210, 123, 110, 220] :=
    (lawful_plainInet.pton4 _).trans (ptonDotted_eq_some_iff.mpr ⟨rfl, rfl⟩)
  exact ⟨hs, ((greyMaskInt_v4_iff lawful_plainInet (by decide)).mpr (by decide)).1 _ _ hs⟩

/-- A mask of no bits, and one of one bit, are not defined. -/
theorem greyMaskInt_v4_undefined :
    plainInet.pton4 "192.0.2.1".toList = some [192, 0, 2, 1] ∧
      greyMaskInt plainInet .little (maskConfig 0 64) "192.0.2.1".toList = none ∧
      greyMaskInt plainInet .little (maskConfig 1 64) "192.0.2.1".toList = none := by
  have hs : plainInet.pton4 "192.0.2.1".toList = some [192, 0, 2, 1] :=
    (lawful_plainInet.pton4 _).trans (ptonDotted_eq_some_iff.mpr ⟨rfl, rfl⟩)
  exact ⟨hs, greyMaskInt_undefined lawful_plainInet (by decide) hs,
    greyMaskInt_undefined lawful_plainInet (by decide) hs⟩

/-- An address of which no group begins with a zero, before and after, so that there is one way to print it. -/
theorem greyMaskInt_v6_test :
    plainInet.pton6 "2600:abcd:1234:5678:f03c:91ff:fe50:d2f7".toList =
        some [0x26, 0, 0xab, 0xcd, 0x12, 0x34, 0x56, 0x78, 0xf0, 0x3c, 0x91, 0xff, 0xfe, 0x50, 0xd2, 0xf7] ∧
      greyMaskInt plainInet .little (maskConfig 24 116) "2600:abcd:1234:5678:f03c:91ff:fe50:d2f7".toList =
        some (some "2600:abcd:1234:5678:f03c:91ff:fe50:d000".toList) := by
  have hs : plainInet.pton6 "2600:abcd:1234:5678:f03c:91ff:fe50:d2f7".toList =
      some [0x26, 0, 0xab, 0xcd, 0x12, 0x34, 0x56, 0x78, 0xf0, 0x3c, 0x91, 0xff, 0xfe, 0x50, 0xd2, 0xf7] := by decide
  obtain ⟨t, ht, hmask, -⟩ := (greyMaskInt_v6 lawful_plainInet).1 _ _ hs
  refine ⟨hs, hmask.trans ?_⟩
  rw [← ht]
  rfl

end Gross.Addrutils
