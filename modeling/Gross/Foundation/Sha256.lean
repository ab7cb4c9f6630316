import Gross.Foundation.ByteOrder
import Mathlib.Analysis.SpecialFunctions.Pow.NthRootLemmas
import Mathlib.Data.Nat.Prime.Basic

/-!
# SHA-256

The hash function as the Secure Hash Standard defines it, over strings of bits.

* `ch`, `maj`, `bigSigma0`, … — the functions of words; `init` and `K` — the
  constants, as fractional parts of roots of primes.
* `pad` — the message, a one, the least number of zeros (`zeros_isLeast`) and the
  length, so that blocks of 512 bits come out even.
* `schedule`, `oneRound`, `compress`, `sha256` — a block's sixty-four words, one
  round, one block, all blocks.

A program hashes bytes. `bits` is the string a row of bytes spells, most
significant bit first, and `sha256_bits` is the hash of such a string in terms of
`padBytes`, the padded message in bytes.

The digest is left as its eight words: writing them one behind the other, which
the standard does last, is not modelled.
-/

namespace Gross.Foundation.Sha256

/-! ### Functions of words -/

/-- `Ch`: `x` chooses between `y` and `z`, bit by bit. -/
def ch (x y z : Word) : Word := (x &&& y) ^^^ (~~~x &&& z)

/-- `Maj`: the majority, bit by bit. -/
def maj (x y z : Word) : Word := (x &&& y) ^^^ (x &&& z) ^^^ (y &&& z)

/-- `Σ₀`. -/
def bigSigma0 (x : Word) : Word := x.rotateRight 2 ^^^ x.rotateRight 13 ^^^ x.rotateRight 22

/-- `Σ₁`. -/
def bigSigma1 (x : Word) : Word := x.rotateRight 6 ^^^ x.rotateRight 11 ^^^ x.rotateRight 25

/-- `σ₀`. -/
def smallSigma0 (x : Word) : Word := x.rotateRight 7 ^^^ x.rotateRight 18 ^^^ (x >>> 3)

/-- `σ₁`. -/
def smallSigma1 (x : Word) : Word := x.rotateRight 17 ^^^ x.rotateRight 19 ^^^ (x >>> 10)

/-! ### Constants -/

/-- The first sixty-four primes. -/
def primes : List ℕ := (List.range 312).filter Nat.Prime

/-- The first 32 bits of the fractional part of the `k`-th root of `p`. -/
def fraction (k p : ℕ) : Word := BitVec.ofNat 32 (Nat.nthRoot k (p * 2 ^ (32 * k)))

/-- `K t`: from the cube root of prime `t`. -/
def K (t : ℕ) : Word := (primes.map (fraction 3)).getD t 0

/-- Eight words: a hash value, and the working variables of a round. -/
@[ext]
structure Vars where
  /-- `a`, or `H₀`. -/
  a : Word
  /-- `b`, or `H₁`. -/
  b : Word
  /-- `c`, or `H₂`. -/
  c : Word
  /-- `d`, or `H₃`. -/
  d : Word
  /-- `e`, or `H₄`. -/
  e : Word
  /-- `f`, or `H₅`. -/
  f : Word
  /-- `g`, or `H₆`. -/
  g : Word
  /-- `h`, or `H₇`. -/
  h : Word
  deriving DecidableEq, Repr

/-- The initial hash value: from the square roots of the first eight primes. -/
def init : Vars :=
  ⟨fraction 2 2, fraction 2 3, fraction 2 5, fraction 2 7,
    fraction 2 11, fraction 2 13, fraction 2 17, fraction 2 19⟩

/-- A number below 18² that no number below 18 divides is prime. -/
theorem prime_iff_of_lt {p : ℕ} (hp : p < 324) : p.Prime ↔ 2 ≤ p ∧ ∀ m < 18, 2 ≤ m → m * m ≤ p → ¬ m ∣ p := by
  rw [Nat.prime_def_le_sqrt]
  apply and_congr_right
  intro _
  constructor
  · intro h m _ hm hsq
    exact h m hm (Nat.le_sqrt.mpr hsq)
  · intro h m hm hsqrt
    have hsq : m * m ≤ p := Nat.le_sqrt.mp hsqrt
    exact h m (Nat.mul_self_lt_mul_self_iff.mp (by omega)) hm hsq

theorem primes_eq : primes = [
    2, 3, 5, 7, 11, 13, 17, 19, 23, 29, 31, 37, 41, 43, 47, 53, 59, 61, 67, 71, 73, 79, 83, 89, 97, 101, 103, 107, 109,
    113, 127, 131, 137, 139, 149, 151, 157, 163, 167, 173, 179, 181, 191, 193, 197, 199, 211, 223, 227, 229, 233, 239,
    241, 251, 257, 263, 269, 271, 277, 281, 283, 293, 307, 311] := by
  have hdiv : primes = (List.range 312).filter fun p => 2 ≤ p ∧ ∀ m < 18, 2 ≤ m → m * m ≤ p → ¬ m ∣ p := by
    apply List.filter_congr
    intro p hp
    rw [List.mem_range] at hp
    exact decide_eq_decide.mpr (prime_iff_of_lt (by omega))
  rw [hdiv]
  decide +kernel

/-- A word is the fraction of a root when the root lies between it and the next, behind the whole part `q`. -/
theorem fraction_eq {k p q : ℕ} {x : Word} (hle : (q * 2 ^ 32 + x.toNat) ^ k ≤ p * 2 ^ (32 * k))
    (hlt : p * 2 ^ (32 * k) < (q * 2 ^ 32 + x.toNat + 1) ^ k) : fraction k p = x := by
  rw [fraction, Nat.nthRoot_eq_of_le_of_lt hle hlt]
  apply BitVec.eq_of_toNat_eq
  rw [BitVec.toNat_ofNat, Nat.add_comm, Nat.add_mul_mod_self_right, Nat.mod_eq_of_lt x.isLt]

/-- A table of fractions, with no root to be taken but the whole part. -/
theorem map_fraction_eq {k : ℕ} {ps : List ℕ} {xs : List Word}
    (h : List.Forall₂ (fun p x => (Nat.nthRoot k p * 2 ^ 32 + x.toNat) ^ k ≤ p * 2 ^ (32 * k) ∧
      p * 2 ^ (32 * k) < (Nat.nthRoot k p * 2 ^ 32 + x.toNat + 1) ^ k) ps xs) : ps.map (fraction k) = xs := by
  induction h with
  | nil => rfl
  | cons hpx _ ih => rw [List.map_cons, fraction_eq hpx.1 hpx.2, ih]

/-! ### One block -/

/-- The message schedule of the block whose words are `M 0`, …, `M 15`. -/
def schedule (M : ℕ → Word) (t : ℕ) : Word :=
  if t < 16 then M t
  else smallSigma1 (schedule M (t - 2)) + schedule M (t - 7) + smallSigma0 (schedule M (t - 15)) + schedule M (t - 16)

/-- One round, with its constant and its word of the schedule. -/
def oneRound (k w : Word) (v : Vars) : Vars :=
  let t₁ := v.h + bigSigma1 v.e + ch v.e v.f v.g + k + w
  let t₂ := bigSigma0 v.a + maj v.a v.b v.c
  ⟨t₁ + t₂, v.a, v.b, v.c, v.d + t₁, v.e, v.f, v.g⟩

/-- The first `n` rounds of a block. -/
def rounds (M : ℕ → Word) (n : ℕ) (v : Vars) : Vars :=
  (List.range n).foldl (fun v t => oneRound (K t) (schedule M t) v) v

/-- The sum, word by word. -/
def Vars.add (v H : Vars) : Vars :=
  ⟨v.a + H.a, v.b + H.b, v.c + H.c, v.d + H.d, v.e + H.e, v.f + H.f, v.g + H.g, v.h + H.h⟩

/-- The hash value after a block. -/
def compress (H : Vars) (M : ℕ → Word) : Vars := (rounds M 64 H).add H

theorem schedule_lt (M : ℕ → Word) {t : ℕ} (ht : t < 16) : schedule M t = M t := by
  rw [schedule, if_pos ht]

theorem schedule_ge (M : ℕ → Word) (t : ℕ) :
    schedule M (16 + t) = smallSigma1 (schedule M (14 + t)) + schedule M (9 + t) + smallSigma0 (schedule M (1 + t)) +
      schedule M t := by
  rw [schedule, if_neg (by omega), show 16 + t - 2 = 14 + t by omega, show 16 + t - 7 = 9 + t by omega,
    show 16 + t - 15 = 1 + t by omega, Nat.add_sub_cancel_left]

theorem rounds_succ (M : ℕ → Word) (n : ℕ) (v : Vars) :
    rounds M (n + 1) v = oneRound (K n) (schedule M n) (rounds M n v) := by
  rw [rounds, List.range_succ, List.foldl_append]
  rfl

/-- Only the sixteen words of the block count. -/
theorem schedule_congr {M M' : ℕ → Word} (h : ∀ j < 16, M j = M' j) : schedule M = schedule M' := by
  funext t
  induction t using Nat.strong_induction_on with
  | _ t ih =>
    by_cases ht : t < 16
    · rw [schedule_lt M ht, schedule_lt M' ht, h t ht]
    · obtain ⟨n, rfl⟩ := Nat.exists_eq_add_of_le (not_lt.mp ht)
      rw [schedule_ge, schedule_ge, ih (14 + n) (by omega), ih (9 + n) (by omega), ih (1 + n) (by omega),
        ih n (by omega)]

theorem compress_congr (H : Vars) {M M' : ℕ → Word} (h : ∀ j < 16, M j = M' j) : compress H M = compress H M' := by
  rw [compress, compress, rounds, rounds, schedule_congr h]

/-! ### All blocks -/

/-- The number of zeros behind a message of `l` bits and its one. -/
def zeros (l : ℕ) : ℕ := (959 - l % 512) % 512

/-- `l` as a string of 64 bits. -/
def lengthBits (l : ℕ) : List Bool := (List.range 64).map fun i => l.testBit (63 - i)

/-- The padded message. -/
def pad (m : List Bool) : List Bool := m ++ true :: (List.replicate (zeros m.length) false ++ lengthBits m.length)

/-- The word that 32 bits spell. -/
def word (bs : List Bool) : Word := (BitVec.ofBoolListBE bs).setWidth 32

/-- Word `j` of block `i` of the padded message. -/
def blockWord (m : List Bool) (i j : ℕ) : Word := word (slice (pad m) (512 * i + 32 * j) 32)

/-- SHA-256. -/
def sha256 (m : List Bool) : Vars :=
  (List.range ((pad m).length / 512)).foldl (fun H i => compress H (blockWord m i)) init

/-- The zeros are the fewest that leave room for the length at the end of a block. -/
theorem zeros_isLeast (l : ℕ) : IsLeast {k | (l + 1 + k) % 512 = 448} (zeros l) := by
  unfold zeros
  refine ⟨?_, ?_⟩
  · change (l + 1 + (959 - l % 512) % 512) % 512 = 448
    omega
  · intro k hk
    change (l + 1 + k) % 512 = 448 at hk
    omega

/-! ### Messages of bytes -/

/-- The bits of a row of bytes. -/
def bits (bs : List Byte) : List Bool := bs.flatMap fun b => (List.range 8).map b.getMsbD

/-- The number of zero bytes behind a message of `n` bytes and its `0x80`. -/
def zeroBytes (n : ℕ) : ℕ := (119 - n % 64) % 64

/-- The padded message, in bytes. -/
def padBytes (m : List Byte) : List Byte :=
  m ++ 0x80 :: (List.replicate (zeroBytes m.length) 0 ++ bytesOfLong .big (BitVec.ofNat 64 (8 * m.length)))

theorem bits_cons (b : Byte) (bs : List Byte) : bits (b :: bs) = (List.range 8).map b.getMsbD ++ bits bs := rfl

theorem bits_append (bs cs : List Byte) : bits (bs ++ cs) = bits bs ++ bits cs := List.flatMap_append

@[simp] theorem length_bits (bs : List Byte) : (bits bs).length = 8 * bs.length := by
  induction bs with
  | nil => rfl
  | cons b bs ih =>
    rw [bits_cons, List.length_append, ih, List.length_map, List.length_range, List.length_cons]
    omega

theorem drop_bits (bs : List Byte) (n : ℕ) : (bits bs).drop (8 * n) = bits (bs.drop n) := by
  induction bs generalizing n with
  | nil => simp [bits]
  | cons b bs ih =>
    cases n with
    | zero => rfl
    | succ n =>
      have hlen : ((List.range 8).map b.getMsbD).length = 8 := by rw [List.length_map, List.length_range]
      rw [bits_cons, List.drop_append, List.drop_of_length_le (by omega), hlen, List.drop_succ_cons, ← ih n,
        List.nil_append, Nat.mul_add, Nat.add_sub_cancel]

theorem take_bits (bs : List Byte) (n : ℕ) : (bits bs).take (8 * n) = bits (bs.take n) := by
  induction bs generalizing n with
  | nil => simp [bits]
  | cons b bs ih =>
    cases n with
    | zero => rfl
    | succ n =>
      have hlen : ((List.range 8).map b.getMsbD).length = 8 := by rw [List.length_map, List.length_range]
      rw [bits_cons, List.take_append, List.take_of_length_le (by omega), hlen, List.take_succ_cons, bits_cons, ← ih n,
        Nat.mul_add, Nat.add_sub_cancel]

theorem slice_bits (bs : List Byte) (off n : ℕ) : slice (bits bs) (8 * off) (8 * n) = bits (slice bs off n) := by
  rw [slice, slice, drop_bits, take_bits]

/-- The bits of the bytes of a word are its bits. -/
theorem bits_bytesOfLong (w : BitVec 64) : bits (bytesOfLong .big w) = lengthBits w.toNat := by
  simp [bits, bytesOfLong, lengthBits, List.range_succ, BitVec.getMsbD, BitVec.testBit_toNat]

theorem getElem?_bits (bs : List Byte) (k : ℕ) : (bits bs)[k]? = bs[k / 8]?.map fun b => b.getMsbD (k % 8) := by
  induction bs generalizing k with
  | nil => rfl
  | cons b bs ih =>
    rw [bits_cons]
    by_cases hk : k < 8
    · rw [List.getElem?_append_left (by simpa using hk), List.getElem?_map, List.getElem?_range hk,
        Nat.div_eq_of_lt hk, Nat.mod_eq_of_lt hk]
      rfl
    · rw [List.getElem?_append_right (by simpa using hk), ih, List.length_map, List.length_range,
        show k / 8 = (k - 8) / 8 + 1 by omega, List.getElem?_cons_succ, show (k - 8) % 8 = k % 8 by omega]

/-- The word the bits of four bytes spell is the word the bytes make. -/
theorem word_bits {bs : List Byte} (h : bs.length = 4) : word (bits bs) = wordOf .big bs := by
  obtain ⟨a, b, c, d, rfl⟩ := List.length_eq_four.mp h
  apply BitVec.eq_of_getMsbD_eq
  intro i hi
  have hlen : (bits [a, b, c, d]).length = 32 := rfl
  rw [word, BitVec.getMsbD_setWidth, BitVec.getMsbD_ofBoolListBE, hlen]
  simp only [wordOf, BitVec.getMsbD_append, Nat.sub_self, Nat.add_sub_cancel, Nat.zero_le, List.getD_eq_getElem?_getD,
    getElem?_bits]
  split_ifs
  · simp [show i / 8 = 3 by omega, show i % 8 = i - 24 by omega]
  · simp [show i / 8 = 2 by omega, show i % 8 = i - 16 by omega]
  · simp [show i / 8 = 1 by omega, show i % 8 = i - 8 by omega]
  · simp [show i / 8 = 0 by omega, show i % 8 = i by omega]

theorem bits_zeros (n : ℕ) : bits (List.replicate n 0) = List.replicate (8 * n) false := by
  induction n with
  | zero => rfl
  | succ n ih =>
    rw [List.replicate_succ, bits_cons, ih, show 8 * (n + 1) = 8 + 8 * n by omega, List.replicate_add]
    rfl

/-- The padding of a message of bytes is made of bytes. -/
theorem pad_bits (m : List Byte) (hm : 8 * m.length < 2 ^ 64) : pad (bits m) = bits (padBytes m) := by
  have hone : (List.range 8).map (0x80 : Byte).getMsbD = true :: List.replicate 7 false := by decide
  have hzeros : zeros (8 * m.length) = 7 + 8 * zeroBytes m.length := by
    unfold zeros zeroBytes
    omega
  rw [pad, padBytes, bits_append, bits_cons, bits_append, bits_zeros, bits_bytesOfLong, BitVec.toNat_ofNat,
    Nat.mod_eq_of_lt hm, length_bits, hzeros, List.replicate_add, hone]
  simp

theorem length_padBytes (m : List Byte) : (padBytes m).length = m.length + 9 + zeroBytes m.length := by
  simp only [padBytes, List.length_append, List.length_cons, List.length_replicate, length_bytesOfLong]
  omega

/-- The padded message is made of blocks. -/
theorem length_padBytes_mod (m : List Byte) : (padBytes m).length % 64 = 0 := by
  rw [length_padBytes, zeroBytes]
  omega

/-- **The hash of a message of bytes.** -/
theorem sha256_bits (m : List Byte) (hm : 8 * m.length < 2 ^ 64) :
    sha256 (bits m) = (List.range ((padBytes m).length / 64)).foldl
      (fun H i => compress H fun j => wordAt .big (padBytes m) (64 * i + 4 * j)) init := by
  rw [sha256, pad_bits m hm, length_bits, show 512 = 8 * 64 from rfl, Nat.mul_div_mul_left _ _ (by omega)]
  apply List.foldl_ext
  intro H i hi
  rw [List.mem_range] at hi
  apply compress_congr
  intro j hj
  have hlen : 64 * i + 4 * j + 4 ≤ (padBytes m).length := by omega
  rw [blockWord, pad_bits m hm, show 512 * i + 32 * j = 8 * (64 * i + 4 * j) by omega, slice_bits _ _ 4,
    word_bits (length_slice hlen), wordAt]

/-! ### The blocks of a padded message -/

/-- The blocks that lie in the message. -/
theorem slice_padBytes_full {m : List Byte} {b : ℕ} (h : 64 * b + 64 ≤ m.length) :
    slice (padBytes m) (64 * b) 64 = slice m (64 * b) 64 := slice_append_left h

/-- The block the message ends in, with room for the length. -/
theorem slice_padBytes_tail {m : List Byte} (h : m.length % 64 ≤ 55) :
    slice (padBytes m) (64 * (m.length / 64)) 64 = m.drop (64 * (m.length / 64)) ++
      0x80 :: (List.replicate (55 - m.length % 64) 0 ++ bytesOfLong .big (BitVec.ofNat 64 (8 * m.length))) := by
  have hz : zeroBytes m.length = 55 - m.length % 64 := by
    unfold zeroBytes
    omega
  rw [slice, padBytes, List.drop_append_of_le_length (by omega), hz]
  apply List.take_of_length_le
  simp
  omega

/-- Without room for the length the zeros go on to the next block. -/
theorem zeroBytes_marker {n : ℕ} (h : 55 < n % 64) : zeroBytes n = 63 - n % 64 + 56 := by
  unfold zeroBytes
  omega

/-- The block the message ends in, without. -/
theorem slice_padBytes_marker {m : List Byte} (h : 55 < m.length % 64) :
    slice (padBytes m) (64 * (m.length / 64)) 64 = m.drop (64 * (m.length / 64)) ++
      0x80 :: List.replicate (63 - m.length % 64) 0 := by
  rw [slice, padBytes, List.drop_append_of_le_length (by omega), zeroBytes_marker h, List.replicate_add,
    List.append_assoc, ← List.cons_append, ← List.append_assoc]
  apply List.take_left'
  simp
  omega

/-- The block behind it. -/
theorem slice_padBytes_length {m : List Byte} (h : 55 < m.length % 64) :
    slice (padBytes m) (64 * (m.length / 64 + 1)) 64 =
      List.replicate 56 0 ++ bytesOfLong .big (BitVec.ofNat 64 (8 * m.length)) := by
  rw [slice, padBytes, zeroBytes_marker h, List.replicate_add, List.append_assoc, ← List.cons_append,
    ← List.append_assoc, List.drop_left' (by simp; omega)]
  exact List.take_of_length_le (by simp)

end Gross.Foundation.Sha256
