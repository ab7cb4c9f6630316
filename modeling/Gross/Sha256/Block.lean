import Gross.Bloom.Filter
import Gross.Foundation.Sha256

/-!
# A block and its digest

`sha256.c` works block by block. For each block it makes the sixty-four words
`w[0..63]` and mixes them into the digest in sixty-four turns. A machine's byte
order matters twice: the length is written, and the words of a block are read,
through a function that turns the bytes round on a little-endian machine.

* `convertInt64ToBigEndian`, `convertInt32ToBigEndian` — that function, on the bytes
  a number has in memory.
* `beginTurn`, `endTurn`, `mainTurn` — one turn of each of the three loops;
  `digestBlock` — the loops and the sum.

`digestBlock_ok` is what the module is for: a block is `compress`, whatever the array
`w` held before. Its parts are that the constants the source writes out are those of
the standard (`defaultSha256_eq`, `roundConstants_eq`), that the first two loops make
the schedule (`beginTurns_ok`, `endTurns_ok`), and that a turn of the third is a round
(`mainTurn_ok`).

The pointers to the two functions are global and are set at each call before
anything is called through them, so here they are not part of a state.
-/

namespace Gross.Sha256

open Foundation Bloom
open Foundation.Sha256

/-! ### Words and their bytes -/

/-- `rotate_right`. -/
def rotateRight (num : Word) (amount : ℕ) : Word := (num >>> amount) ||| (num <<< (32 - amount))

/-- `little_endian`: whether the byte at the lowest address of a one is one. -/
def littleEndian (e : Endian) : Except Fault Bool := do
  let p ← load (bytesOf e 1) 0
  return p == 1

/-- `swap_bytes`, of the bytes at `a` and `b`. -/
def swapBytes (index : List Byte) (a b : ℕ) : Except Fault (List Byte) := do
  let tmp ← load index a
  let x ← load index b
  let index ← store index a x
  store index b tmp

/-- `convert_int64_little_endian`, on the bytes in memory. -/
def convertInt64LittleEndian (num : List Byte) : Except Fault (List Byte) := do
  let num ← swapBytes num 0 7
  let num ← swapBytes num 1 6
  let num ← swapBytes num 2 5
  swapBytes num 3 4

/-- `convert_int64_big_endian`. -/
def convertInt64BigEndian (num : List Byte) : Except Fault (List Byte) := .ok num

/-- `convert_int32_little_endian`, on the bytes in memory. -/
def convertInt32LittleEndian (num : List Byte) : Except Fault (List Byte) := do
  let num ← swapBytes num 0 3
  swapBytes num 1 2

/-- `convert_int32_big_endian`. -/
def convertInt32BigEndian (num : List Byte) : Except Fault (List Byte) := .ok num

/-- `*p_convert_int64_to_big_endian`, which is set first thing. -/
def convertInt64ToBigEndian (e : Endian) (num : List Byte) : Except Fault (List Byte) := do
  if ← littleEndian e then convertInt64LittleEndian num else convertInt64BigEndian num

/-- `*p_convert_int32_to_big_endian`. -/
def convertInt32ToBigEndian (e : Endian) (num : List Byte) : Except Fault (List Byte) := do
  if ← littleEndian e then convertInt32LittleEndian num else convertInt32BigEndian num

/-! ### Constants -/

/-- `DEFAULT_SHA256`. -/
def defaultSha256 : Digest :=
  ⟨0x6a09e667, 0xbb67ae85, 0x3c6ef372, 0xa54ff53a, 0x510e527f, 0x9b05688c, 0x1f83d9ab, 0x5be0cd19⟩

/-- `ROUND_CONSTANTS`. -/
def roundConstants : List Word := [
  0x428a2f98, 0x71374491, 0xb5c0fbcf, 0xe9b5dba5, 0x3956c25b, 0x59f111f1, 0x923f82a4, 0xab1c5ed5,
  0xd807aa98, 0x12835b01, 0x243185be, 0x550c7dc3, 0x72be5d74, 0x80deb1fe, 0x9bdc06a7, 0xc19bf174,
  0xe49b69c1, 0xefbe4786, 0x0fc19dc6, 0x240ca1cc, 0x2de92c6f, 0x4a7484aa, 0x5cb0a9dc, 0x76f988da,
  0x983e5152, 0xa831c66d, 0xb00327c8, 0xbf597fc7, 0xc6e00bf3, 0xd5a79147, 0x06ca6351, 0x14292967,
  0x27b70a85, 0x2e1b2138, 0x4d2c6dfc, 0x53380d13, 0x650a7354, 0x766a0abb, 0x81c2c92e, 0x92722c85,
  0xa2bfe8a1, 0xa81a664b, 0xc24b8b70, 0xc76c51a3, 0xd192e819, 0xd6990624, 0xf40e3585, 0x106aa070,
  0x19a4c116, 0x1e376c08, 0x2748774c, 0x34b0bcb5, 0x391c0cb3, 0x4ed8aa4a, 0x5b9cca4f, 0x682e6ff3,
  0x748f82ee, 0x78a5636f, 0x84c87814, 0x8cc70208, 0x90befffa, 0xa4506ceb, 0xbef9a3f7, 0xc67178f2]

/-! ### One block -/

/-- One turn of the loop that fills the beginning `0..15` of the word block: turn `n` has `j = 4 n`. -/
def beginTurn (e : Endian) (block : List Byte) (w : List Word) (n : ℕ) : Except Fault (List Word) := do
  let j := 4 * n
  let chunk ← loadWord e block j
  let chunk ← convertInt32ToBigEndian e (bytesOf e chunk)
  store w (j / 4) (wordOf e chunk)

/-- One turn of the loop that fills the end `16..63`: turn `n` has `j = 16 + n`. -/
def endTurn (w : List Word) (n : ℕ) : Except Fault (List Word) := do
  let j := 16 + n
  let w15 ← load w (j - 15)
  let s0 := rotateRight w15 7 ^^^ rotateRight w15 18 ^^^ (w15 >>> 3)
  let w2 ← load w (j - 2)
  let s1 := rotateRight w2 17 ^^^ rotateRight w2 19 ^^^ (w2 >>> 10)
  let w16 ← load w (j - 16)
  let w7 ← load w (j - 7)
  store w j (w16 + s0 + w7 + s1)

/-- One turn of the main loop. -/
def mainTurn (w : List Word) (tmp : Digest) (j : ℕ) : Except Fault Digest := do
  let s0 := rotateRight tmp.h0 2 ^^^ rotateRight tmp.h0 13 ^^^ rotateRight tmp.h0 22
  let maj := (tmp.h0 &&& tmp.h1) ^^^ (tmp.h1 &&& tmp.h2) ^^^ (tmp.h2 &&& tmp.h0)
  let t2 := s0 + maj
  let s1 := rotateRight tmp.h4 6 ^^^ rotateRight tmp.h4 11 ^^^ rotateRight tmp.h4 25
  let ch := (tmp.h4 &&& tmp.h5) ^^^ (~~~tmp.h4 &&& tmp.h6)
  let k ← load roundConstants j
  let wj ← load w j
  let t1 := tmp.h7 + s1 + ch + k + wj
  return ⟨t2 + t1, tmp.h0, tmp.h1, tmp.h2, tmp.h3 + t1, tmp.h4, tmp.h5, tmp.h6⟩

/-- `digest.h0 += tmp_digest.h0` and so on. -/
def addDigest (digest tmp : Digest) : Digest :=
  ⟨digest.h0 + tmp.h0, digest.h1 + tmp.h1, digest.h2 + tmp.h2, digest.h3 + tmp.h3,
    digest.h4 + tmp.h4, digest.h5 + tmp.h5, digest.h6 + tmp.h6, digest.h7 + tmp.h7⟩

/-- The rest of a turn of the loop over blocks: what it does with the block. -/
def digestBlock (e : Endian) (block : List Byte) (digest : Digest) (w : List Word) :
    Except Fault (Digest × List Word) := do
  let w ← (List.range 16).foldlM (beginTurn e block) w
  let w ← (List.range 48).foldlM endTurn w
  let tmp ← (List.range 64).foldlM (mainTurn w) digest
  return (addDigest digest tmp, w)

/-! ### Words of the standard -/

/-- A hash value, as the code holds it. -/
def digestOf (v : Vars) : Digest := ⟨v.a, v.b, v.c, v.d, v.e, v.f, v.g, v.h⟩

theorem rotateRight_eq (num : Word) {amount : ℕ} (h : amount < 32) :
    rotateRight num amount = num.rotateRight amount := by
  rw [BitVec.rotateRight_def, Nat.mod_eq_of_lt h]
  rfl

/-- The majority, with its operands turned round. -/
theorem maj_eq (x y z : Word) : (x &&& y) ^^^ (y &&& z) ^^^ (z &&& x) = maj x y z := by
  rw [maj, BitVec.and_comm z x, BitVec.xor_assoc, BitVec.xor_comm (y &&& z), BitVec.xor_assoc]

/-- The bytes of a length, in network order. -/
theorem convertInt64ToBigEndian_ok (e : Endian) (num : BitVec 64) :
    convertInt64ToBigEndian e (bytesOfLong e num) = .ok (bytesOfLong .big num) := by
  cases e <;> rfl

/-- Four bytes that lie in memory in network order, converted and read as a word. -/
theorem convertInt32ToBigEndian_ok (e : Endian) {bs : List Byte} (h : bs.length = 4) :
    ∃ chunk, convertInt32ToBigEndian e (bytesOf e (wordOf e bs)) = .ok chunk ∧ wordOf e chunk = wordOf .big bs := by
  rw [bytesOf_wordOf e h]
  obtain ⟨a, b, c, d, rfl⟩ := List.length_eq_four.mp h
  cases e with
  | little => exact ⟨[d, c, b, a], rfl, rfl⟩
  | big => exact ⟨[a, b, c, d], rfl, rfl⟩

/-! ### The constants are those of the standard -/

theorem defaultSha256_eq : defaultSha256 = digestOf init := by decide +kernel

theorem roundConstants_eq : primes.map (fraction 3) = roundConstants := by
  rw [primes_eq]
  exact map_fraction_eq (by decide +kernel)

theorem load_roundConstants {j : ℕ} (hj : j < 64) : load roundConstants j = .ok (K j) := by
  have hlen : j < roundConstants.length := hj
  rw [load_lt hlen, K, roundConstants_eq, List.getD_eq_getElem _ _ hlen]

/-! ### A block's words -/

/-- Storing the next word of a sequence in an array that has the ones before it. -/
theorem getElem?_set_next {w : List Word} {W : ℕ → Word} {k : ℕ} (hk : k < w.length)
    (hw : ∀ t < k, w[t]? = some (W t)) : ∀ t < k + 1, (w.set k (W k))[t]? = some (W t) := by
  intro t ht
  rw [List.getElem?_set]
  by_cases h : k = t
  · rw [if_pos h, if_pos hk, h]
  · rw [if_neg h]
    exact hw t (by omega)

/-- The beginning of the word block is the block, in words. -/
theorem beginTurns_ok (e : Endian) {block : List Byte} {w : List Word} (hblock : block.length = 64)
    (hw : w.length = 64) : ∃ w', (List.range 16).foldlM (beginTurn e block) w = .ok w' ∧ w'.length = 64 ∧
      ∀ t < 16, w'[t]? = some (wordAt .big block (4 * t)) := by
  apply foldlM_range_inv (beginTurn e block)
    (fun k w => w.length = 64 ∧ ∀ t < k, w[t]? = some (wordAt .big block (4 * t)))
  · exact ⟨hw, fun t ht => absurd ht (Nat.not_lt_zero t)⟩
  · rintro k hk w ⟨hlen, hwords⟩
    have hin : 4 * k + 4 ≤ block.length := by omega
    obtain ⟨chunk, hchunk, hword⟩ := convertInt32ToBigEndian_ok e (length_slice hin)
    refine ⟨w.set k (wordAt .big block (4 * k)), ?_, ?_, getElem?_set_next (by omega) hwords⟩
    · have hindex : 4 * k / 4 = k := by omega
      simp only [beginTurn, loadWord_ok e hin, wordAt, hchunk, hword, ok_bind, hindex]
      exact store_lt (by omega) _
    · rw [List.length_set, hlen]

/-- The word that is stored is the next one of the schedule. -/
theorem schedule_eq (M : ℕ → Word) (k : ℕ) :
    let w := fun t => schedule M (16 + k - t)
    w 16 + (rotateRight (w 15) 7 ^^^ rotateRight (w 15) 18 ^^^ (w 15 >>> 3)) + w 7 +
      (rotateRight (w 2) 17 ^^^ rotateRight (w 2) 19 ^^^ (w 2 >>> 10)) = schedule M (16 + k) := by
  intro w
  have h15 : w 15 = schedule M (1 + k) := congrArg (schedule M) (by omega)
  have h7 : w 7 = schedule M (9 + k) := congrArg (schedule M) (by omega)
  have h2 : w 2 = schedule M (14 + k) := congrArg (schedule M) (by omega)
  have h16 : w 16 = schedule M k := congrArg (schedule M) (by omega)
  rw [schedule_ge, h15, h7, h2, h16, smallSigma0, smallSigma1]
  simp only [rotateRight_eq, Nat.reduceLT]
  ac_rfl

/-- The end of it is the rest of the schedule. -/
theorem endTurns_ok {M : ℕ → Word} {w : List Word} (hw : w.length = 64) (hM : ∀ t < 16, w[t]? = some (M t)) :
    ∃ w', (List.range 48).foldlM endTurn w = .ok w' ∧ w'.length = 64 ∧ ∀ t < 64, w'[t]? = some (schedule M t) := by
  apply foldlM_range_inv endTurn (fun k w => w.length = 64 ∧ ∀ t < 16 + k, w[t]? = some (schedule M t))
  · exact ⟨hw, fun t ht => by rw [schedule_lt M ht]; exact hM t ht⟩
  · rintro k hk w ⟨hlen, hwords⟩
    have hload : ∀ t < 16 + k, load w t = .ok (schedule M t) := fun t ht => load_of_getElem? (hwords t ht)
    refine ⟨w.set (16 + k) (schedule M (16 + k)), ?_, ?_, getElem?_set_next (k := 16 + k) (by omega) hwords⟩
    · simp only [endTurn, hload (16 + k - 15) (by omega), hload (16 + k - 2) (by omega), hload (16 + k - 16) (by omega),
        hload (16 + k - 7) (by omega), ok_bind]
      rw [store_lt (by omega), ← schedule_eq M k]
    · rw [List.length_set, hlen]

/-! ### A block's rounds -/

/-- A turn of the main loop is a round. -/
theorem mainTurn_ok {w : List Word} {j : ℕ} {x : Word} (hj : j < 64) (hx : w[j]? = some x) (v : Vars) :
    mainTurn w (digestOf v) j = .ok (digestOf (oneRound (K j) x v)) := by
  simp only [mainTurn, load_roundConstants hj, load_of_getElem? hx, ok_bind, digestOf, maj_eq, rotateRight_eq,
    Nat.reduceLT, oneRound, bigSigma0, bigSigma1, ch, BitVec.add_comm (_ + maj _ _ _)]
  rfl

/-- The main loop is the rounds of the block. -/
theorem mainTurns_ok {M : ℕ → Word} {w : List Word} (hw : ∀ t < 64, w[t]? = some (schedule M t)) (H : Vars) :
    (List.range 64).foldlM (mainTurn w) (digestOf H) = .ok (digestOf (rounds M 64 H)) := by
  obtain ⟨d, hrun, rfl⟩ := foldlM_range_inv (mainTurn w) (fun k d => d = digestOf (rounds M k H)) (n := 64) rfl
    fun k hk d hd => ⟨digestOf (rounds M (k + 1) H), by rw [hd, mainTurn_ok hk (hw k hk), rounds_succ], rfl⟩
  exact hrun

theorem addDigest_eq (H v : Vars) : addDigest (digestOf H) (digestOf v) = digestOf (v.add H) := by
  simp only [addDigest, digestOf, Vars.add, BitVec.add_comm]

/-- **One block**: the digest is compressed with the words of the block, whatever was in `w`. -/
theorem digestBlock_ok (e : Endian) {block : List Byte} {w : List Word} (hblock : block.length = 64)
    (hw : w.length = 64) (H : Vars) : ∃ w', digestBlock e block (digestOf H) w =
      .ok (digestOf (compress H fun j => wordAt .big block (4 * j)), w') ∧ w'.length = 64 := by
  obtain ⟨w₁, h₁, hlen₁, hw₁⟩ := beginTurns_ok e hblock hw
  obtain ⟨w₂, h₂, hlen₂, hw₂⟩ := endTurns_ok hlen₁ hw₁
  refine ⟨w₂, ?_, hlen₂⟩
  simp only [digestBlock, h₁, h₂, mainTurns_ok hw₂, ok_bind, addDigest_eq]
  rfl

end Gross.Sha256
