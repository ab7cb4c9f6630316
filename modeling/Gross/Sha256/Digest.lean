import Gross.Foundation.CString
import Gross.Sha256.Block

/-!
# The digest of a message

`sha256` never makes the padded message. Each turn of its loop decides, from how far
it has come, what of it to put in the block: sixty-four bytes of the message, the
rest of it with the marker (*padding round*), the length at the end (*last round*),
or two of these.

* `digestableBlock` — the block of one turn. `digestableBlock_ok`: it is that block of
  the padded message, also when the length just does not fit behind the marker.
* `blockLoop` — the loop, for some number of tests, since nothing says that it ends:
  its counter has 32 bits and what it is compared with has 64.
* `sha256_eq` — the digest is that of the standard, and the loop ends, for messages of
  at most 2³² - 73 bytes.
* `sha256_returns_iff` — the bound is the right one: for longer messages the padded
  message has 2³² bytes or more, and the counter never gets there.

The hexadecimal texts of a digest (`sha256_hexdigest`) are not modelled.
-/

namespace Gross.Sha256

open Foundation Bloom
open Foundation.Sha256

/-! ### `sha256` -/

/-- The padding round. -/
def paddingRound (message : List Byte) (size : BitVec 64) (i : Word) (block : List Byte) :
    Except Fault (List Byte) := do
  let block ← memcpy block 0 (message.drop i.toNat) (size % 64).toNat
  store block (size % 64).toNat 0x80

/-- The last round: the length goes to the end of the block. -/
def lastRound (tmpSize block : List Byte) : Except Fault (List Byte) :=
  (List.range 8).foldlM (copyTurn tmpSize 56) block

/-- `digestable_block`, for the turn at `i`. -/
def digestableBlock (message : List Byte) (size newSize : BitVec 64) (tmpSize : List Byte) (i : Word) :
    Except Fault (List Byte) := do
  let block : List Byte := List.replicate 64 0
  let block ←
    if (i + 64).setWidth 64 ≤ size then memcpy block 0 (message.drop i.toNat) 64
    else .ok block
  let block ←
    if (i + 64).setWidth 64 > size ∧ size ≥ i.setWidth 64 then paddingRound message size i block
    else .ok block
  if (i + 64).setWidth 64 ≥ newSize then lastRound tmpSize block else .ok block

/-- The loop over blocks, from the test at `i` on. It is not known to end: `none` when it has not after
`fuel` tests. -/
def blockLoop (e : Endian) (message : List Byte) (size newSize : BitVec 64) (tmpSize : List Byte) :
    ℕ → Word → Digest → List Word → Except Fault (Option Digest)
  | 0, _, _, _ => .ok none
  | fuel + 1, i, digest, w =>
    if i.setWidth 64 < newSize then do
      let block ← digestableBlock message size newSize tmpSize i
      let (digest, w) ← digestBlock e block digest w
      blockLoop e message size newSize tmpSize fuel (i + 64) digest w
    else .ok (some digest)

/-- `new_size`. -/
def newSize (size : BitVec 64) : BitVec 64 := size + 1 + 8 + ((448 - 8 * (size + 1)) % 512) / 8

/-- `sha256`, of the `size` bytes at `message`. What lies in `w` at first is whatever was there. -/
def sha256 (e : Endian) (fuel : ℕ) (w : List Word) (message : List Byte) (size : BitVec 64) :
    Except Fault (Option Digest) := do
  let tmpSize ← convertInt64ToBigEndian e (bytesOfLong e (size * 8))
  blockLoop e message size (newSize size) tmpSize fuel 0 defaultSha256 w

/-! ### The blocks -/

theorem toNat_newSize {n : ℕ} (h : n + 72 < 2 ^ 64) : (newSize (BitVec.ofNat 64 n)).toNat = n + 9 + zeroBytes n := by
  simp only [newSize, zeroBytes, BitVec.toNat_add, BitVec.toNat_udiv, BitVec.toNat_umod, BitVec.toNat_sub,
    BitVec.toNat_mul, BitVec.toNat_ofNat, BitVec.reduceToNat]
  omega

/-- The turn at block `b`, as the comparisons see it. -/
theorem toNat_turn {b : ℕ} (h : 64 * b + 64 < 2 ^ 32) :
    ((BitVec.ofNat 32 (64 * b)).setWidth 64).toNat = 64 * b ∧
      ((BitVec.ofNat 32 (64 * b) + 64).setWidth 64).toNat = 64 * b + 64 := by
  simp only [BitVec.toNat_setWidth, BitVec.toNat_add, BitVec.toNat_ofNat, BitVec.reduceToNat]
  omega

section Padding

variable {m : List Byte} (rest : List Byte)

/-- The padding round leaves the end of the message, the marker and zeros. -/
theorem paddingRound_ok {size : BitVec 64} {i : Word} (hsize : size.toNat = m.length)
    (hi : i.toNat = 64 * (m.length / 64)) : paddingRound (m ++ rest) size i (List.replicate 64 0) =
    .ok (m.drop (64 * (m.length / 64)) ++ 0x80 :: List.replicate (63 - m.length % 64) 0) := by
  have hlen : (m.drop (64 * (m.length / 64))).length = m.length % 64 := by
    rw [List.length_drop]
    omega
  have hrest : (size % 64).toNat = m.length % 64 := by
    rw [BitVec.toNat_umod, hsize]
    rfl
  rw [paddingRound, hi, hrest, memcpy_ok (by simp; omega) (by simp; omega), ok_bind,
    List.drop_append_of_le_length (by omega), List.take_left' hlen, overwrite_start, hlen, List.drop_replicate,
    store_lt (by simp; omega), show 64 - m.length % 64 = 63 - m.length % 64 + 1 by omega, List.replicate_succ,
    List.set_append_right _ _ (by omega), hlen, Nat.sub_self, List.set_cons_zero]

/-- The last round puts the length where the last eight bytes were. -/
theorem lastRound_ok {block tmpSize : List Byte} (hblock : block.length = 64) (hsize : tmpSize.length = 8) :
    lastRound tmpSize block = .ok (block.take 56 ++ tmpSize) := by
  rw [lastRound, copyTurns_ok (by omega) (by omega), List.take_of_length_le (by omega), overwrite,
    List.drop_of_length_le (by omega), List.append_nil]

/-- The blocks that are prepared are those of the padded message. -/
theorem digestableBlock_ok {b : ℕ} (hm : m.length ≤ 2 ^ 32 - 73) (hb : 64 * b < (padBytes m).length) :
    digestableBlock (m ++ rest) (BitVec.ofNat 64 m.length) (newSize (BitVec.ofNat 64 m.length))
      (bytesOfLong .big (BitVec.ofNat 64 (8 * m.length))) (BitVec.ofNat 32 (64 * b)) =
    .ok (slice (padBytes m) (64 * b) 64) := by
  have hlen := length_padBytes m
  have hmod := length_padBytes_mod m
  have hz : zeroBytes m.length < 64 := Nat.mod_lt _ (by omega)
  obtain ⟨hi, hnext⟩ := toNat_turn (b := b) (by omega)
  have hsize : (BitVec.ofNat 64 m.length).toNat = m.length := by
    rw [BitVec.toNat_ofNat]
    omega
  have hoff : (BitVec.ofNat 32 (64 * b)).toNat = 64 * b := by
    rw [BitVec.toNat_ofNat]
    omega
  simp only [digestableBlock, BitVec.le_def, BitVec.lt_def, ge_iff_le, gt_iff_lt, hi, hnext, hsize, hoff,
    toNat_newSize (n := m.length) (by omega), ← hlen]
  obtain hfull | htail | hlast : 64 * b + 64 ≤ m.length ∨ b = m.length / 64 ∨
      b = m.length / 64 + 1 ∧ 55 < m.length % 64 := by
    unfold zeroBytes at hlen
    omega
  · -- Only the first round: the block lies in the message.
    have hcopy : memcpy (List.replicate 64 0) 0 ((m ++ rest).drop (64 * b)) 64 = .ok (slice m (64 * b) 64) := by
      rw [memcpy_ok (by simp; omega) (by simp), ← slice, slice_append_left hfull, overwrite_start, length_slice hfull]
      simp
    rw [if_pos hfull, hcopy, ok_bind, if_neg (by omega), ok_bind, if_neg (by omega), slice_padBytes_full hfull]
  · -- The padding round, which is the last one when there is room for the length.
    subst htail
    rw [if_neg (by omega), ok_bind, if_pos (by omega), paddingRound_ok rest hsize hoff, ok_bind]
    by_cases hroom : m.length % 64 ≤ 55
    · rw [if_pos (by unfold zeroBytes at hlen; omega), lastRound_ok (by simp; omega) (by simp),
        slice_padBytes_tail hroom, show 63 - m.length % 64 = 55 - m.length % 64 + 8 by omega, List.replicate_add,
        ← List.cons_append, ← List.append_assoc, List.take_left' (by simp; omega), List.append_assoc, List.cons_append]
    · rw [if_neg (by unfold zeroBytes at hlen; omega), slice_padBytes_marker (by omega)]
  · -- Only the last round.
    obtain ⟨rfl, hlast⟩ := hlast
    rw [if_neg (by omega), ok_bind, if_neg (by omega), ok_bind, if_pos (by unfold zeroBytes at hlen; omega),
      lastRound_ok (by simp) (by simp), slice_padBytes_length hlast]
    rfl

end Padding

/-! ### The digest -/

/-- The hash value after the first `b` blocks of the padded message. -/
def hashOf (m : List Byte) (b : ℕ) : Vars :=
  (List.range b).foldl (fun H i => compress H fun j => wordAt .big (padBytes m) (64 * i + 4 * j)) init

theorem hashOf_succ (m : List Byte) (b : ℕ) :
    hashOf m (b + 1) = compress (hashOf m b) fun j => wordAt .big (padBytes m) (64 * b + 4 * j) := by
  rw [hashOf, List.range_succ, List.foldl_append]
  rfl

section Loop

variable (e : Endian) {m : List Byte} (rest : List Byte)

/-- One turn of the loop over blocks takes the hash value from block to block. -/
theorem digestBlock_hashOf {b : ℕ} {w : List Word} (hb : 64 * b + 64 ≤ (padBytes m).length) (hw : w.length = 64) :
    ∃ w', digestBlock e (slice (padBytes m) (64 * b) 64) (digestOf (hashOf m b)) w =
      .ok (digestOf (hashOf m (b + 1)), w') ∧ w'.length = 64 := by
  obtain ⟨w', hrun, hw'⟩ := digestBlock_ok e (length_slice hb) hw (hashOf m b)
  have hwords : ∀ j < 16, wordAt .big (slice (padBytes m) (64 * b) 64) (4 * j) =
      wordAt .big (padBytes m) (64 * b + 4 * j) := by
    intro j hj
    rw [wordAt, slice_slice _ (by omega), wordAt]
  refine ⟨w', ?_, hw'⟩
  rw [hrun, hashOf_succ, compress_congr _ hwords]

/-- The loop, from block `b` on: it ends, with the hash value after all blocks. -/
theorem blockLoop_ok (hm : m.length ≤ 2 ^ 32 - 73) {n : ℕ} (hn : 64 * n = (padBytes m).length) (fuel : ℕ) {b : ℕ}
    (hb : b ≤ n) (hfuel : n < b + fuel) {w : List Word} (hw : w.length = 64) :
    blockLoop e (m ++ rest) (BitVec.ofNat 64 m.length) (newSize (BitVec.ofNat 64 m.length))
      (bytesOfLong .big (BitVec.ofNat 64 (8 * m.length))) fuel (BitVec.ofNat 32 (64 * b)) (digestOf (hashOf m b)) w =
    .ok (some (digestOf (hashOf m n))) := by
  have hlen := length_padBytes m
  have hz : zeroBytes m.length < 64 := Nat.mod_lt _ (by omega)
  have hnew : (newSize (BitVec.ofNat 64 m.length)).toNat = 64 * n := by
    rw [toNat_newSize (by omega), hn, hlen]
  induction fuel generalizing b w with
  | zero => omega
  | succ fuel ih =>
    have hi : ((BitVec.ofNat 32 (64 * b)).setWidth 64).toNat = 64 * b := by
      simp only [BitVec.toNat_setWidth, BitVec.toNat_ofNat]
      omega
    simp only [blockLoop, BitVec.lt_def, hi, hnew]
    by_cases hlast : b = n
    · rw [if_neg (by omega), hlast]
    · obtain ⟨w', hrun, hw'⟩ := digestBlock_hashOf e (m := m) (b := b) (by omega) hw
      have hnext : BitVec.ofNat 32 (64 * b) + 64 = BitVec.ofNat 32 (64 * (b + 1)) := by
        rw [Nat.mul_add, BitVec.ofNat_add]
        rfl
      rw [if_pos (by omega), digestableBlock_ok rest hm (by omega), ok_bind, hrun, ok_bind, hnext]
      exact ih (by omega) (by omega) hw'

/-- A counter of 32 bits never gets to the end of 2³² bytes or more. -/
theorem blockLoop_ne_some {message tmpSize : List Byte} {size newSize : BitVec 64} (hnew : 2 ^ 32 ≤ newSize.toNat)
    (fuel : ℕ) (i : Word) (digest : Digest) (w : List Word) (d : Digest) :
    blockLoop e message size newSize tmpSize fuel i digest w ≠ .ok (some d) := by
  induction fuel generalizing i digest w with
  | zero =>
    intro h
    cases h
  | succ fuel ih =>
    have hi : (i.setWidth 64).toNat < newSize.toNat := by
      rw [BitVec.toNat_setWidth]
      omega
    rw [blockLoop, if_pos (BitVec.lt_def.mpr hi)]
    intro h
    obtain ⟨block, -, h⟩ := bind_eq_ok h
    obtain ⟨⟨digest', w'⟩, -, h⟩ := bind_eq_ok h
    exact ih _ _ _ h

/-- What is set up before the loop. -/
theorem sha256_start (fuel : ℕ) (w : List Word) : sha256 e fuel w (m ++ rest) (BitVec.ofNat 64 m.length) =
    blockLoop e (m ++ rest) (BitVec.ofNat 64 m.length) (newSize (BitVec.ofNat 64 m.length))
      (bytesOfLong .big (BitVec.ofNat 64 (8 * m.length))) fuel (BitVec.ofNat 32 (64 * 0))
      (digestOf (hashOf m 0)) w := by
  have hbits : BitVec.ofNat 64 m.length * 8 = BitVec.ofNat 64 (8 * m.length) := by
    rw [Nat.mul_comm, BitVec.ofNat_mul]
    rfl
  rw [sha256, convertInt64ToBigEndian_ok, ok_bind, hbits, defaultSha256_eq]
  rfl

end Loop

/-- **`sha256` is SHA-256**: for a message of at most 2³² - 73 bytes, whatever lies behind it and in `w`, on a machine
of either kind. -/
theorem sha256_eq (e : Endian) {m : List Byte} (rest : List Byte) {w : List Word} {fuel : ℕ}
    (hm : m.length ≤ 2 ^ 32 - 73) (hw : w.length = 64) (hfuel : (m.length + 8) / 64 + 1 < fuel) :
    sha256 e fuel w (m ++ rest) (BitVec.ofNat 64 m.length) =
      .ok (some (digestOf (Foundation.Sha256.sha256 (bits m)))) := by
  have hmod := length_padBytes_mod m
  have hblocks : (padBytes m).length / 64 = (m.length + 8) / 64 + 1 := by
    rw [length_padBytes, zeroBytes]
    omega
  have hrun := blockLoop_ok e rest hm (n := (padBytes m).length / 64) (by omega) fuel (Nat.zero_le _) (by omega) hw
  rw [sha256_start, hrun, sha256_bits m (by omega), hashOf]

/-- `"abc"`, with its NUL behind it. -/
theorem sha256_eq_abc :
    sha256 .little 3 (List.replicate 64 0) ([0x61, 0x62, 0x63] ++ [0]) (BitVec.ofNat 64 3) =
      .ok (some (digestOf (Foundation.Sha256.sha256 (bits [0x61, 0x62, 0x63])))) :=
  sha256_eq .little [0] (by decide) List.length_replicate (by decide)

-- The first of the vectors the source tests with.
example : sha256 .little 3 (List.replicate 64 0) [0x61, 0x62, 0x63, 0] 3 =
    .ok (some ⟨0xba7816bf, 0x8f01cfea, 0x414140de, 0x5dae2223, 0xb00361a3, 0x96177a9c, 0xb410ff61, 0xf20015ad⟩) := by
  decide +kernel

/-- It returns for these messages and for no others. -/
theorem sha256_returns_iff (e : Endian) {m : List Byte} (rest : List Byte) {w : List Word}
    (hm : m.length + 72 < 2 ^ 64) (hw : w.length = 64) :
    (∃ fuel d, sha256 e fuel w (m ++ rest) (BitVec.ofNat 64 m.length) = .ok (some d)) ↔ m.length ≤ 2 ^ 32 - 73 := by
  have hmod := length_padBytes_mod m
  constructor
  · rintro ⟨fuel, d, hd⟩
    by_contra hlong
    rw [sha256_start] at hd
    refine blockLoop_ne_some e ?_ fuel _ _ _ d hd
    rw [toNat_newSize hm]
    rw [length_padBytes] at hmod
    omega
  · intro hm
    refine ⟨(padBytes m).length / 64 + 1, digestOf (hashOf m ((padBytes m).length / 64)), ?_⟩
    rw [sha256_start]
    exact blockLoop_ok e rest hm (by omega) _ (Nat.zero_le _) (by omega) hw

end Gross.Sha256
