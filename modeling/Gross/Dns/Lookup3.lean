import Gross.Dns.Cache
import Gross.Foundation.CString
import Gross.Foundation.LittleEndian

/-!
# The hash of a name

The slot of a name in the cache of the resolver is a hash of its bytes. `hashlittle` reads the name
twelve bytes at a time, by words where the address allows it, by halves of words, or byte by byte;
and where it reads by words it reads past the end of the name, to the end of the last word.

## The model

`mem` is a block of memory that begins at a multiple of four, and `key` an offset in it. The
three words `a`, `b` and `c` are an `Abc`. `while (length > 12)` is the same loop three times, with a
different body each time (`whileBlocks`), and a label of a `switch` that falls through goes on with
the label below. How the code was compiled, and for which machine, is a parameter (`Build`).

## What is proved

* `hashlittle_eq` — the hash is a function of the bytes, whatever their address and whatever comes after
  them, and no byte is read beyond the last word of the block.
* `hashfunc_eq` — so is the slot of a name, and `slot` is the hash function that the tables of
  `Gross.Dns.Cache` are used with.
* `mixed_ne` — two names of the same length that differ in one block of twelve bytes only never come
  to the same `a`, `b` and `c`.

## Honest scope

Where `HASH_LITTLE_ENDIAN` is set on a big-endian machine, the words are read in another order than the
bytes, and the hash depends on the address. This is excluded. Lengths are below `2 ^ 64`, and here not
bounded.
-/

namespace Gross.Dns.Lookup3

open Foundation

/-- `a`, `b` and `c`. -/
@[ext] structure Abc where
  /-- `a` -/
  a : Word
  /-- `b` -/
  b : Word
  /-- `c` -/
  c : Word
  deriving DecidableEq, Repr

/-- `rot` -/
def rot (x : Word) (k : ℕ) : Word := (x <<< k) ||| (x >>> (32 - k))

/-- `mix` -/
def mix : Abc → Abc
  | ⟨a, b, c⟩ =>
    let a := a - c; let a := a ^^^ rot c 4; let c := c + b
    let b := b - a; let b := b ^^^ rot a 6; let a := a + c
    let c := c - b; let c := c ^^^ rot b 8; let b := b + a
    let a := a - c; let a := a ^^^ rot c 16; let c := c + b
    let b := b - a; let b := b ^^^ rot a 19; let a := a + c
    let c := c - b; let c := c ^^^ rot b 4; let b := b + a
    ⟨a, b, c⟩

/-- `final` -/
def final : Abc → Abc
  | ⟨a, b, c⟩ =>
    let c := c ^^^ b; let c := c - rot b 14
    let a := a ^^^ c; let a := a - rot c 11
    let b := b ^^^ a; let b := b - rot a 25
    let c := c ^^^ b; let c := c - rot b 16
    let a := a ^^^ c; let a := a - rot c 4
    let b := b ^^^ a; let b := b - rot a 14
    let c := c ^^^ b; let c := c - rot b 24
    ⟨a, b, c⟩

/-- `while (length > 12)`, from `k` on, with what is done in a turn: the words that are left to do, where they
begin, and how many bytes they are. -/
def whileBlocks (turn : ℕ → Abc → Except Fault Abc) (k length : ℕ) (s : Abc) : Except Fault (Abc × ℕ × ℕ) :=
  if 12 < length then do
    let s ← turn k s
    whileBlocks turn (k + 12) (length - 12) s
  else .ok (s, k, length)
termination_by length

/-- How the code was compiled. -/
structure Build where
  /-- The machine. -/
  endian : Endian
  /-- `HASH_LITTLE_ENDIAN` -/
  littleEndian : Bool
  /-- `VALGRIND` is defined. -/
  valgrind : Bool

section Reading

variable (e : Endian) (mem : List Byte) (k : ℕ)

/-- `k[i]`, with `k` a `uint32_t *`. -/
def word (i : ℕ) : Except Fault Word := loadWord e mem (k + 4 * i)

/-- `k[i]`, with `k` a `uint16_t *`, in an expression. -/
def half (i : ℕ) : Except Fault Word := do return (← loadHalf e mem (k + 2 * i)).setWidth 32

/-- `k[i]`, with `k` a `uint8_t *`, in an expression. -/
def byte (i : ℕ) : Except Fault Word := do return (← load mem (k + i)).setWidth 32

/-- `k[i] + (((uint32_t) k[i + 1]) << 16)`, with `k` a `uint16_t *`. -/
def halves (i : ℕ) : Except Fault Word := do
  let lo ← half e mem k i
  let hi ← half e mem k (i + 1)
  return lo + hi <<< 16

/-- A block, by words. -/
def turnWords (s : Abc) : Except Fault Abc := do
  let a := s.a + (← word e mem k 0)
  let b := s.b + (← word e mem k 1)
  let c := s.c + (← word e mem k 2)
  return mix ⟨a, b, c⟩

/-- A block, by halves of words. -/
def turnHalves (s : Abc) : Except Fault Abc := do
  let a := s.a + (← halves e mem k 0)
  let b := s.b + (← halves e mem k 2)
  let c := s.c + (← halves e mem k 4)
  return mix ⟨a, b, c⟩

/-- A block, byte by byte. -/
def turnBytes (s : Abc) : Except Fault Abc := do
  let a := s.a + (← byte mem k 0)
  let a := a + (← byte mem k 1) <<< 8
  let a := a + (← byte mem k 2) <<< 16
  let a := a + (← byte mem k 3) <<< 24
  let b := s.b + (← byte mem k 4)
  let b := b + (← byte mem k 5) <<< 8
  let b := b + (← byte mem k 6) <<< 16
  let b := b + (← byte mem k 7) <<< 24
  let c := s.c + (← byte mem k 8)
  let c := c + (← byte mem k 9) <<< 8
  let c := c + (← byte mem k 10) <<< 16
  let c := c + (← byte mem k 11) <<< 24
  return mix ⟨a, b, c⟩

/-- The last block, by words: what lies beyond the end of the name is masked off. -/
def lastWords : ℕ → Abc → Except Fault Abc
  | 12, s => do
    let c := s.c + (← word e mem k 2)
    let b := s.b + (← word e mem k 1)
    let a := s.a + (← word e mem k 0)
    return ⟨a, b, c⟩
  | 11, s => do
    let c := s.c + ((← word e mem k 2) &&& 0xffffff)
    let b := s.b + (← word e mem k 1)
    let a := s.a + (← word e mem k 0)
    return ⟨a, b, c⟩
  | 10, s => do
    let c := s.c + ((← word e mem k 2) &&& 0xffff)
    let b := s.b + (← word e mem k 1)
    let a := s.a + (← word e mem k 0)
    return ⟨a, b, c⟩
  | 9, s => do
    let c := s.c + ((← word e mem k 2) &&& 0xff)
    let b := s.b + (← word e mem k 1)
    let a := s.a + (← word e mem k 0)
    return ⟨a, b, c⟩
  | 8, s => do
    let b := s.b + (← word e mem k 1)
    let a := s.a + (← word e mem k 0)
    return ⟨a, b, s.c⟩
  | 7, s => do
    let b := s.b + ((← word e mem k 1) &&& 0xffffff)
    let a := s.a + (← word e mem k 0)
    return ⟨a, b, s.c⟩
  | 6, s => do
    let b := s.b + ((← word e mem k 1) &&& 0xffff)
    let a := s.a + (← word e mem k 0)
    return ⟨a, b, s.c⟩
  | 5, s => do
    let b := s.b + ((← word e mem k 1) &&& 0xff)
    let a := s.a + (← word e mem k 0)
    return ⟨a, b, s.c⟩
  | 4, s => do return { s with a := s.a + (← word e mem k 0) }
  | 3, s => do return { s with a := s.a + ((← word e mem k 0) &&& 0xffffff) }
  | 2, s => do return { s with a := s.a + ((← word e mem k 0) &&& 0xffff) }
  | 1, s => do return { s with a := s.a + ((← word e mem k 0) &&& 0xff) }
  | _, s => .ok s

/-- The last block, by words, as it is compiled to make valgrind happy. -/
def lastWordsValgrind : ℕ → Abc → Except Fault Abc
  | 12, s => do
    let c := s.c + (← word e mem k 2)
    let b := s.b + (← word e mem k 1)
    let a := s.a + (← word e mem k 0)
    return ⟨a, b, c⟩
  | 11, s => do lastWordsValgrind 10 { s with c := s.c + (← byte mem k 10) <<< 16 }
  | 10, s => do lastWordsValgrind 9 { s with c := s.c + (← byte mem k 9) <<< 8 }
  | 9, s => do lastWordsValgrind 8 { s with c := s.c + (← byte mem k 8) }
  | 8, s => do
    let b := s.b + (← word e mem k 1)
    let a := s.a + (← word e mem k 0)
    return ⟨a, b, s.c⟩
  | 7, s => do lastWordsValgrind 6 { s with b := s.b + (← byte mem k 6) <<< 16 }
  | 6, s => do lastWordsValgrind 5 { s with b := s.b + (← byte mem k 5) <<< 8 }
  | 5, s => do lastWordsValgrind 4 { s with b := s.b + (← byte mem k 4) }
  | 4, s => do return { s with a := s.a + (← word e mem k 0) }
  | 3, s => do lastWordsValgrind 2 { s with a := s.a + (← byte mem k 2) <<< 16 }
  | 2, s => do lastWordsValgrind 1 { s with a := s.a + (← byte mem k 1) <<< 8 }
  | 1, s => do return { s with a := s.a + (← byte mem k 0) }
  | _, s => .ok s

/-- The last block, by halves of words. -/
def lastHalves : ℕ → Abc → Except Fault Abc
  | 12, s => do
    let c := s.c + (← halves e mem k 4)
    let b := s.b + (← halves e mem k 2)
    let a := s.a + (← halves e mem k 0)
    return ⟨a, b, c⟩
  | 11, s => do lastHalves 10 { s with c := s.c + (← byte mem k 10) <<< 16 }
  | 10, s => do
    let c := s.c + (← half e mem k 4)
    let b := s.b + (← halves e mem k 2)
    let a := s.a + (← halves e mem k 0)
    return ⟨a, b, c⟩
  | 9, s => do lastHalves 8 { s with c := s.c + (← byte mem k 8) }
  | 8, s => do
    let b := s.b + (← halves e mem k 2)
    let a := s.a + (← halves e mem k 0)
    return ⟨a, b, s.c⟩
  | 7, s => do lastHalves 6 { s with b := s.b + (← byte mem k 6) <<< 16 }
  | 6, s => do
    let b := s.b + (← half e mem k 2)
    let a := s.a + (← halves e mem k 0)
    return ⟨a, b, s.c⟩
  | 5, s => do lastHalves 4 { s with b := s.b + (← byte mem k 4) }
  | 4, s => do return { s with a := s.a + (← halves e mem k 0) }
  | 3, s => do lastHalves 2 { s with a := s.a + (← byte mem k 2) <<< 16 }
  | 2, s => do return { s with a := s.a + (← half e mem k 0) }
  | 1, s => do return { s with a := s.a + (← byte mem k 0) }
  | _, s => .ok s

/-- The last block, byte by byte. -/
def lastBytes : ℕ → Abc → Except Fault Abc
  | 12, s => do lastBytes 11 { s with c := s.c + (← byte mem k 11) <<< 24 }
  | 11, s => do lastBytes 10 { s with c := s.c + (← byte mem k 10) <<< 16 }
  | 10, s => do lastBytes 9 { s with c := s.c + (← byte mem k 9) <<< 8 }
  | 9, s => do lastBytes 8 { s with c := s.c + (← byte mem k 8) }
  | 8, s => do lastBytes 7 { s with b := s.b + (← byte mem k 7) <<< 24 }
  | 7, s => do lastBytes 6 { s with b := s.b + (← byte mem k 6) <<< 16 }
  | 6, s => do lastBytes 5 { s with b := s.b + (← byte mem k 5) <<< 8 }
  | 5, s => do lastBytes 4 { s with b := s.b + (← byte mem k 4) }
  | 4, s => do lastBytes 3 { s with a := s.a + (← byte mem k 3) <<< 24 }
  | 3, s => do lastBytes 2 { s with a := s.a + (← byte mem k 2) <<< 16 }
  | 2, s => do lastBytes 1 { s with a := s.a + (← byte mem k 1) <<< 8 }
  | 1, s => do return { s with a := s.a + (← byte mem k 0) }
  | _, s => .ok s

end Reading

/-- The loop, the `switch` and `final`. -/
def hashBy (turn : ℕ → Abc → Except Fault Abc) (last : ℕ → ℕ → Abc → Except Fault Abc) (key length : ℕ) (s : Abc) :
    Except Fault Word := do
  let (s, k, length) ← whileBlocks turn key length s
  -- zero length strings require no mixing
  if length = 0 then return s.c
  let s ← last k length s
  return (final s).c

/-- What `a`, `b` and `c` are set to. -/
def init (length : ℕ) (initval : Word) : Abc :=
  let x := 0xdeadbeef + BitVec.ofNat 32 length + initval
  ⟨x, x, x⟩

/-- `hashlittle`, of the name at `key`. -/
def hashlittle (build : Build) (mem : List Byte) (key length : ℕ) (initval : Word) : Except Fault Word :=
  if build.littleEndian ∧ key % 4 = 0 then
    let last := if build.valgrind then lastWordsValgrind build.endian mem else lastWords build.endian mem
    hashBy (turnWords build.endian mem) last key length (init length initval)
  else if build.littleEndian ∧ key % 2 = 0 then
    hashBy (turnHalves build.endian mem) (lastHalves build.endian mem) key length (init length initval)
  else hashBy (turnBytes mem) (lastBytes mem) key length (init length initval)

/-! ### The bytes of a name -/

/-- Up to twelve bytes, added to `a`, `b` and `c`. -/
def absorb (s : Abc) (bs : List Byte) : Abc := ⟨s.a + leAt bs 0 4, s.b + leAt bs 4 4, s.c + leAt bs 8 4⟩

/-- What the bytes of a name make of `a`, `b` and `c`. -/
def mixed (s : Abc) (bs : List Byte) : Abc :=
  if 12 < bs.length then mixed (mix (absorb s (bs.take 12))) (bs.drop 12) else absorb s bs
termination_by bs.length

/-- The hash, as a function of the bytes. -/
def hashBytes (bs : List Byte) (initval : Word) : Word :=
  if bs.length = 0 then (init bs.length initval).c else (final (mixed (init bs.length initval) bs)).c

section Agree

variable {mem : List Byte} {k n i : ℕ} {s : Abc}

theorem slice_slice_min (bs : List Byte) (k n off m : ℕ) : slice (slice bs k n) off m = slice bs (k + off) (min (n - off) m) := by
  rw [slice, slice, slice, List.drop_take, List.take_take, List.drop_drop, Nat.min_comm]

/-- What a block in memory adds. -/
theorem absorb_slice (s : Abc) (mem : List Byte) (k n : ℕ) :
    absorb s (slice mem k n) = ⟨s.a + leAt mem k (min n 4), s.b + leAt mem (k + 4) (min (n - 4) 4),
      s.c + leAt mem (k + 8) (min (n - 8) 4)⟩ := by
  simp only [absorb, leAt, slice_slice_min, Nat.add_zero, Nat.sub_zero]

theorem word_ok (h : k + 4 * i + 4 ≤ mem.length) : word .little mem k i = .ok (leAt mem (k + 4 * i) 4) := loadWord_leAt h

theorem half_ok (h : k + 2 * i + 2 ≤ mem.length) : half .little mem k i = .ok (leAt mem (k + 2 * i) 2) := by
  obtain ⟨w, hload, hw⟩ := loadHalf_leAt h
  rw [half, hload, ok_bind, hw]
  rfl

theorem byte_ok (h : k + i + 1 ≤ mem.length) : byte mem k i = .ok (leAt mem (k + i) 1) := by
  obtain ⟨b, hload, hb⟩ := load_leAt h
  rw [byte, hload, ok_bind, hb]
  rfl

theorem halves_ok (h : k + 2 * i + 4 ≤ mem.length) : halves .little mem k i = .ok (leAt mem (k + 2 * i) 4) := by
  rw [halves, half_ok (by omega), ok_bind, half_ok (by omega), ok_bind,
    leAt_add (show k + 2 * i + 2 ≤ mem.length by omega) (n := 2)]
  rfl

theorem turnWords_ok (h : k + 12 ≤ mem.length) : turnWords .little mem k s = .ok (mix (absorb s (slice mem k 12))) := by
  rw [turnWords, word_ok (by omega), ok_bind, word_ok (by omega), ok_bind, word_ok (by omega), ok_bind, absorb_slice]
  rfl

theorem turnHalves_ok (h : k + 12 ≤ mem.length) :
    turnHalves .little mem k s = .ok (mix (absorb s (slice mem k 12))) := by
  rw [turnHalves, halves_ok (by omega), ok_bind, halves_ok (by omega), ok_bind, halves_ok (by omega), ok_bind, absorb_slice]
  rfl

/-- Four bytes. -/
theorem leAt_four (h : k + 4 ≤ mem.length) (x : Word) :
    x + leAt mem k 1 + leAt mem (k + 1) 1 <<< 8 + leAt mem (k + 2) 1 <<< 16 + leAt mem (k + 3) 1 <<< 24 = x + leAt mem k 4 := by
  rw [leAt_add (show k + 3 ≤ mem.length by omega) (n := 1), leAt_add (show k + 2 ≤ mem.length by omega) (n := 1),
    leAt_add (show k + 1 ≤ mem.length by omega) (n := 1)]
  simp only [BitVec.add_assoc, Nat.mul_one, Nat.reduceMul]

theorem turnBytes_ok (h : k + 12 ≤ mem.length) : turnBytes mem k s = .ok (mix (absorb s (slice mem k 12))) := by
  have hb : ∀ i < 12, byte mem k i = .ok (leAt mem (k + i) 1) := fun i hi => byte_ok (by omega)
  simp only [turnBytes, hb 0, hb 1, hb 2, hb 3, hb 4, hb 5, hb 6, hb 7, hb 8, hb 9, hb 10, hb 11, ok_bind, Nat.reduceLT,
    absorb_slice]
  have ha := leAt_four (show k + 4 ≤ mem.length by omega) s.a
  have hb := leAt_four (show k + 4 + 4 ≤ mem.length by omega) s.b
  have hc := leAt_four (show k + 8 + 4 ≤ mem.length by omega) s.c
  simp only [Nat.add_assoc, Nat.reduceAdd] at ha hb hc
  simp only [Nat.add_zero, ha, hb, hc]
  rfl

/-- One more byte, added where it belongs. -/
def addByte (s : Abc) (n : ℕ) (x : Word) : Abc :=
  if n < 4 then { s with a := s.a + x <<< (8 * n) }
  else if n < 8 then { s with b := s.b + x <<< (8 * (n - 4)) }
  else { s with c := s.c + x <<< (8 * (n - 8)) }

theorem add_leAt_succ (h : k + n ≤ mem.length) (x : Word) :
    x + leAt mem (k + n) 1 <<< (8 * n) + leAt mem k n = x + leAt mem k (n + 1) := by
  rw [leAt_add h, BitVec.add_assoc, BitVec.add_comm (leAt mem k n)]

/-- The last byte of a block can be added first. -/
theorem absorb_addByte (hn : n < 12) (h : k + n < mem.length) :
    absorb (addByte s n (leAt mem (k + n) 1)) (slice mem k n) = absorb s (slice mem k (n + 1)) := by
  rw [absorb_slice, absorb_slice, addByte]
  split_ifs with h4 h8
  · have ha := add_leAt_succ h.le s.a
    simp only [show min n 4 = n by omega, show min (n + 1) 4 = n + 1 by omega, show n - 4 = 0 by omega,
      show n + 1 - 4 = 0 by omega, show n - 8 = 0 by omega, show n + 1 - 8 = 0 by omega, ha]
  · have hb := add_leAt_succ (show k + 4 + (n - 4) ≤ mem.length by omega) s.b
    rw [show k + 4 + (n - 4) = k + n by omega] at hb
    simp only [show min n 4 = 4 by omega, show min (n + 1) 4 = 4 by omega, show min (n - 4) 4 = n - 4 by omega,
      show min (n + 1 - 4) 4 = n - 4 + 1 by omega, show n - 8 = 0 by omega, show n + 1 - 8 = 0 by omega, hb]
  · have hc := add_leAt_succ (show k + 8 + (n - 8) ≤ mem.length by omega) s.c
    rw [show k + 8 + (n - 8) = k + n by omega] at hc
    simp only [show min n 4 = 4 by omega, show min (n + 1) 4 = 4 by omega, show min (n - 4) 4 = 4 by omega,
      show min (n + 1 - 4) 4 = 4 by omega, show min (n - 8) 4 = n - 8 by omega, show min (n + 1 - 8) 4 = n - 8 + 1 by omega, hc]

/-- A label that adds a byte and falls through to the one below. -/
theorem fallthrough {last : ℕ → Abc → Except Fault Abc} (hn : n < 12) (h : k + n < mem.length)
    (hlast : last (n + 1) s = do last n (addByte s n (← byte mem k n)))
    (ih : ∀ s, last n s = .ok (absorb s (slice mem k n))) : last (n + 1) s = .ok (absorb s (slice mem k (n + 1))) := by
  rw [hlast, byte_ok (by omega), ok_bind, ih, absorb_addByte hn h]

@[simp] theorem absorb_slice_zero (s : Abc) (mem : List Byte) (k : ℕ) : absorb s (slice mem k 0) = s := by
  simp [absorb_slice]

/-- The words of a block that begins at a multiple of four are inside the block of memory. -/
theorem lastWords_ok (hn : n ≤ 12) (h : k + n ≤ mem.length) (hk : k % 4 = 0) (hmem : mem.length % 4 = 0) :
    lastWords .little mem k n s = .ok (absorb s (slice mem k n)) := by
  have hw : ∀ i, 4 * i < n → word .little mem k i = .ok (leAt mem (k + 4 * i) 4) := fun i hi => word_ok (by omega)
  have h3 : ∀ off, leAt mem off 4 &&& 0xffffff#32 = leAt mem off 3 := fun off => leAt_and (k := 3) (by decide) (by decide)
  have h2 : ∀ off, leAt mem off 4 &&& 0xffff#32 = leAt mem off 2 := fun off => leAt_and (k := 2) (by decide) (by decide)
  have h1 : ∀ off, leAt mem off 4 &&& 0xff#32 = leAt mem off 1 := fun off => leAt_and (k := 1) (by decide) (by decide)
  rw [absorb_slice]
  interval_cases n <;> simp [lastWords, hw, h1, h2, h3]

theorem lastWordsValgrind_ok (hn : n ≤ 12) (h : k + n ≤ mem.length) :
    lastWordsValgrind .little mem k n s = .ok (absorb s (slice mem k n)) := by
  induction n generalizing s with
  | zero => simp [lastWordsValgrind]
  | succ n ih =>
    by_cases hword : (n + 1) % 4 = 0
    · have hw : ∀ i, 4 * i + 3 < n + 1 → word .little mem k i = .ok (leAt mem (k + 4 * i) 4) := fun i hi => word_ok (by omega)
      rw [absorb_slice]
      have hcases : n = 3 ∨ n = 7 ∨ n = 11 := by omega
      rcases hcases with rfl | rfl | rfl <;> simp [lastWordsValgrind, hw]
    · have hlt : n < 12 := by omega
      refine fallthrough hlt (by omega) ?_ fun s => ih (by omega) (by omega)
      interval_cases n <;> simp [lastWordsValgrind, addByte] at hword ⊢
      rfl

theorem lastHalves_ok (hn : n ≤ 12) (h : k + n ≤ mem.length) :
    lastHalves .little mem k n s = .ok (absorb s (slice mem k n)) := by
  induction n generalizing s with
  | zero => simp [lastHalves]
  | succ n ih =>
    by_cases hhalf : (n + 1) % 2 = 0
    · have hh : ∀ i, 2 * i + 1 < n + 1 → half .little mem k i = .ok (leAt mem (k + 2 * i) 2) := fun i hi => half_ok (by omega)
      have hw : ∀ i, 2 * i + 3 < n + 1 → halves .little mem k i = .ok (leAt mem (k + 2 * i) 4) :=
        fun i hi => halves_ok (by omega)
      rw [absorb_slice]
      have hcases : n = 1 ∨ n = 3 ∨ n = 5 ∨ n = 7 ∨ n = 9 ∨ n = 11 := by omega
      rcases hcases with rfl | rfl | rfl | rfl | rfl | rfl <;> simp [lastHalves, hh, hw]
    · have hlt : n < 12 := by omega
      refine fallthrough hlt (by omega) ?_ fun s => ih (by omega) (by omega)
      interval_cases n <;> simp [lastHalves, addByte] at hhalf ⊢
      rfl

theorem lastBytes_ok (hn : n ≤ 12) (h : k + n ≤ mem.length) : lastBytes mem k n s = .ok (absorb s (slice mem k n)) := by
  induction n generalizing s with
  | zero => simp [lastBytes]
  | succ n ih =>
    have hlt : n < 12 := by omega
    refine fallthrough hlt (by omega) ?_ fun s => ih (by omega) (by omega)
    interval_cases n <;> simp [lastBytes, addByte]
    rfl

theorem mixed_slice_of_lt {length key : ℕ} (hlt : 12 < length) (h : key + length ≤ mem.length) :
    mixed s (slice mem key length) = mixed (mix (absorb s (slice mem key 12))) (slice mem (key + 12) (length - 12)) := by
  rw [mixed, if_pos (by rwa [length_slice h])]
  congr 2
  · rw [slice, slice, List.take_take, Nat.min_eq_left hlt.le]
  · rw [slice, slice, List.drop_take, List.drop_drop]

theorem mixed_slice_of_le {length key : ℕ} (hle : length ≤ 12) (h : key + length ≤ mem.length) :
    mixed s (slice mem key length) = absorb s (slice mem key length) := by
  rw [mixed, if_neg (by rw [length_slice h]; omega)]

section Loop

variable {turn : ℕ → Abc → Except Fault Abc} {last : ℕ → ℕ → Abc → Except Fault Abc} {r : ℕ}

/-- The loop leaves a block of at most twelve bytes, and of none only if there were none. -/
theorem whileBlocks_ok (hturn : ∀ k s, k % 4 = r → k + 12 ≤ mem.length → turn k s = .ok (mix (absorb s (slice mem k 12))))
    (length key : ℕ) (hr : key % 4 = r) (h : key + length ≤ mem.length) (s : Abc) :
    ∃ s' k n, whileBlocks turn key length s = .ok (s', k, n) ∧ k % 4 = r ∧ k + n ≤ mem.length ∧ n ≤ 12 ∧
      (n = 0 → length = 0 ∧ s' = s) ∧ (length = 0 → n = 0) ∧ absorb s' (slice mem k n) = mixed s (slice mem key length) := by
  induction length using Nat.strong_induction_on generalizing key s with
  | _ length ih =>
    rw [whileBlocks]
    by_cases hlt : 12 < length
    · rw [if_pos hlt, hturn key s hr (by omega), ok_bind, mixed_slice_of_lt hlt h]
      obtain ⟨s', k, n, hrun, hk, hkn, hn, hzero, -, habs⟩ :=
        ih (length - 12) (by omega) (key + 12) (by omega) (by omega) (mix (absorb s (slice mem key 12)))
      refine ⟨s', k, n, hrun, hk, hkn, hn, fun h0 => ?_, by omega, habs⟩
      have := (hzero h0).1
      omega
    · rw [if_neg hlt, mixed_slice_of_le (by omega) h]
      exact ⟨s, key, length, rfl, hr, h, by omega, fun h0 => ⟨h0, rfl⟩, id, rfl⟩

theorem hashBy_ok (hturn : ∀ k s, k % 4 = r → k + 12 ≤ mem.length → turn k s = .ok (mix (absorb s (slice mem k 12))))
    (hlast : ∀ k n s, k % 4 = r → n ≤ 12 → k + n ≤ mem.length → last k n s = .ok (absorb s (slice mem k n)))
    {length key : ℕ} (hr : key % 4 = r) (h : key + length ≤ mem.length) (s : Abc) :
    hashBy turn last key length s = .ok (if length = 0 then s.c else (final (mixed s (slice mem key length))).c) := by
  obtain ⟨s', k, n, hrun, hk, hkn, hn, hzero, hzero', habs⟩ := whileBlocks_ok hturn length key hr h s
  simp only [hashBy, hrun, ok_bind]
  by_cases h0 : n = 0
  · obtain ⟨hlength, rfl⟩ := hzero h0
    rw [if_pos h0, if_pos hlength]
    rfl
  · rw [if_neg h0, if_neg (fun hlength => h0 (hzero' hlength)), hlast k n s' hk hn hkn, ok_bind, habs]
    rfl

end Loop

end Agree

/-- The hash is one of the bytes: whatever their address is and whatever lies around them, the three ways
to read them come to the same, and read nothing outside the words of the block. -/
theorem hashlittle_eq {build : Build} (hbuild : build.littleEndian = true → build.endian = .little) {mem : List Byte}
    (hmem : mem.length % 4 = 0) {key length : ℕ} (h : key + length ≤ mem.length) (initval : Word) :
    hashlittle build mem key length initval = .ok (hashBytes (slice mem key length) initval) := by
  have hspec : hashBytes (slice mem key length) initval = if length = 0 then (init length initval).c
      else (final (mixed (init length initval) (slice mem key length))).c := by
    rw [hashBytes, length_slice h]
  rw [hspec, hashlittle]
  by_cases hword : build.littleEndian = true ∧ key % 4 = 0
  · rw [if_pos hword, hbuild hword.1]
    cases build.valgrind with
    | false =>
      exact hashBy_ok (fun _ _ _ => turnWords_ok) (fun k n s hk hn hkn => lastWords_ok hn hkn (hk.trans hword.2) hmem) rfl h _
    | true => exact hashBy_ok (fun _ _ _ => turnWords_ok) (fun _ _ _ _ => lastWordsValgrind_ok) rfl h _
  rw [if_neg hword]
  by_cases hhalf : build.littleEndian = true ∧ key % 2 = 0
  · rw [if_pos hhalf, hbuild hhalf.1]
    exact hashBy_ok (fun _ _ _ => turnHalves_ok) (fun _ _ _ _ => lastHalves_ok) rfl h _
  · rw [if_neg hhalf]
    exact hashBy_ok (fun _ _ _ => turnBytes_ok) (fun _ _ _ _ => lastBytes_ok) rfl h _

/-! ### Nothing is lost on the way -/

/-- A line of `mix`, with the three words in the order in which the next line has them. -/
def mixLine (k : ℕ) (s : Abc) : Abc := ⟨s.b, s.c + s.b, (s.a - s.c) ^^^ rot s.c k⟩

theorem mix_eq (s : Abc) : mix s = mixLine 4 (mixLine 19 (mixLine 16 (mixLine 8 (mixLine 6 (mixLine 4 s))))) := rfl

theorem mixLine_injective (k : ℕ) : Function.Injective (mixLine k) := by
  rintro ⟨a, b, c⟩ ⟨a', b', c'⟩ h
  obtain ⟨rfl, hc, ha⟩ := Abc.mk.inj h
  obtain rfl : c = c' := add_right_cancel hc
  obtain rfl : a = a' := sub_left_injective ((BitVec.xor_left_inj _).mp ha)
  rfl

/-- `mix` is reversible. -/
theorem mix_injective : Function.Injective mix := by
  intro s s' h
  rw [mix_eq, mix_eq] at h
  iterate 6 replace h := mixLine_injective _ h
  exact h

theorem mixed_of_lt {bs : List Byte} (h : 12 < bs.length) (s : Abc) :
    mixed s bs = mixed (mix (absorb s (bs.take 12))) (bs.drop 12) := by rw [mixed, if_pos h]

theorem mixed_of_le {bs : List Byte} (h : bs.length ≤ 12) (s : Abc) : mixed s bs = absorb s bs := by
  rw [mixed, if_neg (by omega)]

theorem absorb_left_injective (bs : List Byte) : Function.Injective fun s => absorb s bs := by
  rintro ⟨a, b, c⟩ ⟨a', b', c'⟩ h
  obtain ⟨ha, hb, hc⟩ := Abc.mk.inj h
  obtain rfl : a = a' := add_right_cancel ha
  obtain rfl : b = b' := add_right_cancel hb
  obtain rfl : c = c' := add_right_cancel hc
  rfl

/-- A block is the three numbers it adds. -/
theorem absorb_right_inj {bs bs' : List Byte} (hlen : bs.length = bs'.length) (hle : bs.length ≤ 12) {s : Abc}
    (h : absorb s bs = absorb s bs') : bs = bs' := by
  obtain ⟨ha, hb, hc⟩ := Abc.mk.inj h
  have hparts : ∀ off, leAt bs off 4 = leAt bs' off 4 → slice bs off 4 = slice bs' off 4 := fun off h =>
    leAt_inj (by decide) (by simp [slice, hlen]) h
  have hslice : ∀ cs : List Byte, cs.length ≤ 12 → slice cs 0 4 ++ slice cs (0 + 4) 4 ++ slice cs (0 + (4 + 4)) 4 = cs := by
    intro cs hcs
    rw [← slice_add, ← slice_add]
    exact List.take_of_length_le hcs
  rw [← hslice bs hle, ← hslice bs' (hlen ▸ hle)]
  rw [hparts 0 (add_left_cancel ha), hparts (0 + 4) (add_left_cancel hb), hparts (0 + (4 + 4)) (add_left_cancel hc)]

theorem mixed_left_injective (bs : List Byte) : Function.Injective fun s => mixed s bs := by
  induction hn : bs.length using Nat.strong_induction_on generalizing bs with
  | _ n ih =>
    intro s s' h
    by_cases hlt : 12 < bs.length
    · simp only [mixed_of_lt hlt] at h
      exact absorb_left_injective _ (mix_injective (ih (bs.drop 12).length (by rw [List.length_drop]; omega) _ rfl h))
    · simp only [mixed_of_le (not_lt.mp hlt)] at h
      exact absorb_left_injective _ h

/-- **A change within a block is never lost**: names of the same length that differ in one block of twelve
bytes only come to different `a`, `b` and `c`, before `final`, whatever they were at the start. -/
theorem mixed_ne (s : Abc) (bs bs' : List Byte) (hlen : bs.length = bs'.length) (i : ℕ)
    (hsame : ∀ j, j / 12 ≠ i → bs[j]? = bs'[j]?) (hne : bs ≠ bs') : mixed s bs ≠ mixed s bs' := by
  intro h
  refine hne ?_
  clear hne
  induction i generalizing s bs bs' with
  | zero =>
    by_cases hlt : 12 < bs.length
    · have hdrop : bs.drop 12 = bs'.drop 12 := by
        refine List.ext_getElem? fun j => ?_
        rw [List.getElem?_drop, List.getElem?_drop]
        exact hsame _ (by omega)
      have hlt' : 12 < bs'.length := hlen ▸ hlt
      rw [mixed_of_lt hlt, mixed_of_lt hlt', hdrop] at h
      have hblock := absorb_right_inj (by simp [hlen]) (by simp) (mix_injective (mixed_left_injective _ h))
      rw [← List.take_append_drop 12 bs, ← List.take_append_drop 12 bs', hblock, hdrop]
    · have hle : bs.length ≤ 12 := not_lt.mp hlt
      have hle' : bs'.length ≤ 12 := hlen ▸ hle
      rw [mixed_of_le hle, mixed_of_le hle'] at h
      exact absorb_right_inj hlen hle h
  | succ i ih =>
    have htake : bs.take 12 = bs'.take 12 := by
      refine List.ext_getElem? fun j => ?_
      rw [List.getElem?_take, List.getElem?_take]
      split_ifs with hj
      · exact hsame j (by omega)
      · rfl
    by_cases hlt : 12 < bs.length
    · have hlt' : 12 < bs'.length := hlen ▸ hlt
      rw [mixed_of_lt hlt, mixed_of_lt hlt', htake] at h
      have hdrop := ih _ (bs.drop 12) (bs'.drop 12) (by simp [hlen])
        (fun j hj => by rw [List.getElem?_drop, List.getElem?_drop]; exact hsame _ (by omega)) h
      rw [← List.take_append_drop 12 bs, ← List.take_append_drop 12 bs', htake, hdrop]
    · rwa [List.take_of_length_le (not_lt.mp hlt), List.take_of_length_le (hlen ▸ not_lt.mp hlt)] at htake

/-- Thirteen bytes, of which the last one differs. -/
theorem mixed_ne_last : mixed (init 13 0) (List.replicate 12 0 ++ [1]) ≠ mixed (init 13 0) (List.replicate 12 0 ++ [2]) := by
  refine mixed_ne _ _ _ rfl 1 (fun j hj => ?_) (by decide)
  rcases Nat.lt_or_ge j 12 with hlt | hge
  · rw [List.getElem?_append_left (by simpa using hlt), List.getElem?_append_left (by simpa using hlt)]
  · rw [List.getElem?_eq_none (by simp; omega), List.getElem?_eq_none (by simp; omega)]

/-! ### The slot of a name -/

/-- `HASHMASK` -/
def hashmask : Word := BitVec.ofNat 32 (hashsize - 1)

theorem and_hashmask_lt (h : Word) : (h &&& hashmask).toNat < hashsize := by
  rw [BitVec.toNat_and]
  exact Nat.and_lt_two_pow (n := 10) _ (by decide)

/-- `hashfunc(key, strlen(key))` -/
def hashfunc (build : Build) (mem : List Byte) (key : ℕ) : Except Fault (Fin hashsize) := do
  let h ← hashlittle build mem key (← strlen 0 (mem.drop key)) 0x715517
  return ⟨(h &&& hashmask).toNat, and_hashmask_lt h⟩

/-- The bytes of a name. -/
def nameBytes (key : List Char) : List Byte := key.map fun c => BitVec.ofNat 8 c.toNat

/-- The slot of a name. -/
def slot (key : List Char) : Fin hashsize :=
  ⟨(hashBytes (nameBytes key) 0x715517 &&& hashmask).toNat, and_hashmask_lt _⟩

/-- The name lies at `p`, with its terminator. -/
structure NameAt (mem : List Byte) (p : ℕ) (key : List Char) : Prop where
  /-- Its bytes, and the terminator. -/
  bytes : ∃ rest, mem.drop p = nameBytes key ++ 0 :: rest
  /-- There is no other terminator. -/
  ne_zero : ∀ b ∈ nameBytes key, b ≠ 0

theorem NameAt.length_eq {mem : List Byte} {p : ℕ} {key : List Char} (h : NameAt mem p key) : p + key.length < mem.length := by
  obtain ⟨rest, hdrop⟩ := h.bytes
  have := congrArg List.length hdrop
  simp only [List.length_drop, List.length_append, List.length_cons, nameBytes, List.length_map] at this
  omega

theorem NameAt.slice_eq {mem : List Byte} {p : ℕ} {key : List Char} (h : NameAt mem p key) :
    slice mem p key.length = nameBytes key := by
  obtain ⟨rest, hdrop⟩ := h.bytes
  have hlength : (nameBytes key).length = key.length := List.length_map _
  rw [slice, hdrop, List.take_left' hlength]

theorem NameAt.strlen_eq {mem : List Byte} {p : ℕ} {key : List Char} (h : NameAt mem p key) :
    strlen 0 (mem.drop p) = .ok key.length := by
  obtain ⟨rest, hdrop⟩ := h.bytes
  rw [hdrop, strlen_append (fun hmem => h.ne_zero 0 hmem rfl), nameBytes, List.length_map]

/-- **The slot of a name is a function of its characters**: whatever its address is and whatever lies around
it, and however the code was compiled, the slot is that of the tables of `Gross.Dns.Cache`, and nothing
is read outside the words of the block. `HASH_LITTLE_ENDIAN` must not be set on a machine that is not. -/
theorem hashfunc_eq (build : Build) (hbuild : build.littleEndian = true → build.endian = .little) (mem : List Byte)
    (hmem : mem.length % 4 = 0) (p : ℕ) (key : List Char) (h : NameAt mem p key) :
    hashfunc build mem p = .ok (slot key) := by
  rw [hashfunc, h.strlen_eq, ok_bind, hashlittle_eq hbuild hmem h.length_eq.le, ok_bind, h.slice_eq]
  rfl

/-- A name at the start of a word, and between other bytes. -/
theorem hashfunc_eq_ab :
    hashfunc ⟨.little, true, false⟩ [0x61, 0x62, 0, 0xff] 0 = .ok (slot ['a', 'b']) ∧
      hashfunc ⟨.little, true, false⟩ [0xff, 0x61, 0x62, 0] 1 = .ok (slot ['a', 'b']) :=
  ⟨hashfunc_eq _ (fun _ => rfl) _ rfl 0 _ ⟨⟨[0xff], by decide⟩, by decide⟩,
    hashfunc_eq _ (fun _ => rfl) _ rfl 1 _ ⟨⟨[], by decide⟩, by decide⟩⟩

end Gross.Dns.Lookup3
