import Gross.Foundation.ByteOrder
import Gross.Foundation.CString
import Gross.Stats.Guard

/-!
# Printing the statistics

`dnsbl_stats` prints the names of all lists and then their counts into a buffer, with one
`snprintf` after another. It keeps the place in `tick` and the room that is left in `size`, an
`int32_t`, and changes both by what `snprintf` returns: the length of all there was to print,
also where it had to stop short.

## The model

`Tick` is the buffer, the place and the room. The parts are those of `dnsblStats`
(`Gross.Stats.Guard`), with the same lists both times. `snprintf` takes the room as a `size_t`: a negative one is huge. A write
outside the buffer is a fault; if there is no room at all, nothing is written.

## What is proved

`dnsblStats_inside_iff` — nothing is written outside exactly if each part begins inside the
buffer, or right behind it. With parts shorter than 2³¹ that is: all the parts but the last are
together no longer than the buffer.

## Honest scope

`count`, the `int32_t` that is given what `snprintf` returns, and `size` wrap around.
-/

namespace Gross.Stats

open Foundation

/-- Where `dnsbl_stats` is. -/
structure Tick where
  /-- `buf` -/
  mem : List Char
  /-- `tick - buf` -/
  tick : ℤ
  /-- `size` -/
  size : BitVec 32

/-- `snprintf(tick, size, …)` -/
def Tick.snprintf (t : Tick) (text : List Char) : Except Fault (List Char) :=
  let n := (t.size.signExtend 64).toNat
  if n = 0 then .ok t.mem
  else if t.tick < 0 then .error .outOfBounds
  else Foundation.snprintf '\x00' t.mem t.tick.toNat n text

/-- `count = snprintf(tick, size, …)`, and what is done with it. -/
def Tick.print (t : Tick) (text : List Char) : Except Fault Tick := do
  let mem ← t.snprintf text
  let count := BitVec.ofNat 32 text.length
  return ⟨mem, t.tick + count.toInt, t.size - count⟩

/-- `dnsbl_stats(buf, size)` -/
def dnsblStatsInto (buf : List Char) (size : BitVec 32) (stats : List DnsblStat) : Except Fault Tick :=
  (parts stats stats).foldlM Tick.print ⟨buf, 0, size⟩

/-! ### Where the parts begin -/

/-- Where the parts begin, from `tick` on. -/
def starts (tick : ℤ) : List (List Char) → List ℤ
  | [] => []
  | part :: parts => tick :: starts (tick + (BitVec.ofNat 32 part.length).toInt) parts

/-- A part that begins here is not written outside: it begins in the buffer or right behind it, or the room
is none. -/
def Fits (size : ℕ) (tick : ℤ) : Prop := 0 ≤ tick ∧ tick ≤ size ∨ BitVec.ofInt 32 (size - tick) = 0

instance (size : ℕ) (tick : ℤ) : Decidable (Fits size tick) := inferInstanceAs (Decidable (_ ∨ _))

/-- The buffer is as long as it was, and the room is what is left of it. -/
structure Tick.Inv (size : ℕ) (t : Tick) : Prop where
  /-- The length of the buffer. -/
  length : t.mem.length = size
  /-- The room. -/
  room : t.size = BitVec.ofInt 32 (size - t.tick)

variable {t t' : Tick} {size : ℕ} {text : List Char}

/-! ### One part -/

/-- There is no room, as a `size_t`, exactly if there is none. -/
theorem toNat_signExtend_eq_zero {x : BitVec 32} : (x.signExtend 64).toNat = 0 ↔ x = 0 := by
  have hint : (x.signExtend 64).toInt = x.toInt := BitVec.toInt_signExtend_of_le (by omega)
  constructor
  · intro h
    have hzero : x.signExtend 64 = 0 := BitVec.eq_of_toNat_eq h
    rw [hzero] at hint
    exact BitVec.eq_of_toInt_eq (hint.symm.trans rfl)
  · rintro rfl
    rfl

/-- Room that is not negative is the same as a `size_t`. -/
theorem toNat_signExtend_ofInt {k : ℤ} (hlo : 0 ≤ k) (hhi : k < 2147483648) :
    (((BitVec.ofInt 32 k).signExtend 64).toNat : ℤ) = k := by
  have hint : ((BitVec.ofInt 32 k).signExtend 64).toInt = k := by
    rw [BitVec.toInt_signExtend_of_le (by omega), BitVec.toInt_ofInt, Int.bmod_eq_of_le (by omega) (by omega)]
  rw [BitVec.toInt_eq_toNat_cond] at hint
  split_ifs at hint <;> omega

/-- A part is not written outside exactly if it fits. -/
theorem Tick.Inv.snprintf_ok_iff (h : t.Inv size) (hsize : size < 2147483648) (text : List Char) :
    (∃ mem, t.snprintf text = .ok mem) ↔ Fits size t.tick := by
  unfold Tick.snprintf
  dsimp only
  split_ifs with hroom hneg
  · exact iff_of_true ⟨_, rfl⟩ (Or.inr (h.room ▸ toNat_signExtend_eq_zero.mp hroom))
  · refine iff_of_false (fun ⟨_, hok⟩ => nomatch hok) ?_
    rintro (hfits | hzero)
    · omega
    · exact hroom (toNat_signExtend_eq_zero.mpr (h.room.trans hzero))
  · rw [Foundation.snprintf_ok_iff hroom, h.length]
    constructor
    · exact fun hlt => Or.inl (by omega)
    · rintro (hfits | hzero)
      · -- inside the buffer the room is what is left of it
        have hleft := toNat_signExtend_ofInt (k := size - t.tick) (by omega) (by omega)
        rw [← h.room] at hleft
        omega
      · exact absurd (toNat_signExtend_eq_zero.mpr (h.room.trans hzero)) hroom

theorem length_snprintf {mem : List Char} (h : t.snprintf text = .ok mem) : mem.length = t.mem.length := by
  unfold Tick.snprintf at h
  dsimp only at h
  split_ifs at h
  · cases h
    rfl
  · exact Foundation.length_snprintf h

theorem ofInt_sub_toInt (k : ℤ) (count : BitVec 32) : BitVec.ofInt 32 (k - count.toInt) = BitVec.ofInt 32 k - count := by
  refine BitVec.eq_of_toInt_eq ?_
  rw [BitVec.toInt_sub, BitVec.toInt_ofInt, BitVec.toInt_ofInt, Int.bmod_sub_bmod]

theorem Tick.Inv.print (h : t.Inv size) (hprint : t.print text = .ok t') :
    t'.Inv size ∧ t'.tick = t.tick + (BitVec.ofNat 32 text.length).toInt := by
  obtain ⟨mem, hmem, hprint⟩ := bind_eq_ok hprint
  cases hprint
  refine ⟨⟨(length_snprintf hmem).trans h.length, ?_⟩, rfl⟩
  dsimp only
  rw [h.room, ← Int.sub_sub, ofInt_sub_toInt]

/-! ### All the parts -/

/-- **A run of parts** is not written outside exactly if each of them fits. -/
theorem Tick.Inv.print_all_iff (h : t.Inv size) (hsize : size < 2147483648) (parts : List (List Char)) :
    (∃ t', parts.foldlM Tick.print t = .ok t') ↔ ∀ tick ∈ starts t.tick parts, Fits size tick := by
  induction parts generalizing t with
  | nil => exact iff_of_true ⟨t, rfl⟩ (List.forall_mem_nil _)
  | cons part parts ih =>
    rw [List.foldlM_cons, starts, List.forall_mem_cons, ← h.snprintf_ok_iff hsize part]
    constructor
    · rintro ⟨t', hall⟩
      obtain ⟨t₁, h₁, hrest⟩ := bind_eq_ok hall
      obtain ⟨hinv, htick⟩ := h.print h₁
      obtain ⟨mem, hmem, -⟩ := bind_eq_ok h₁
      exact ⟨⟨mem, hmem⟩, htick ▸ (ih hinv).mp ⟨t', hrest⟩⟩
    · rintro ⟨⟨mem, hmem⟩, hrest⟩
      have h₁ : t.print part = .ok ⟨mem, t.tick + (BitVec.ofNat 32 part.length).toInt, t.size - BitVec.ofNat 32 part.length⟩ := by
        rw [Tick.print, hmem]
        rfl
      obtain ⟨hinv, -⟩ := h.print h₁
      rw [h₁, ok_bind]
      exact (ih hinv).mpr hrest

theorem inv_start {buf : List Char} (hbuf : buf.length = size) : Tick.Inv size ⟨buf, 0, BitVec.ofNat 32 size⟩ where
  length := hbuf
  room := by rw [Int.sub_zero, BitVec.ofInt_natCast]

/-- Behind the buffer, but not by so much that the room wraps around. -/
theorem not_fits {tick : ℤ} (hlo : size < tick) (hhi : tick < size + 4294967296) : ¬ Fits size tick := by
  rintro (h | h)
  · omega
  · have hzero := congrArg BitVec.toNat h
    have htoNat : (0 : BitVec 32).toNat = 0 := rfl
    rw [BitVec.toNat_ofInt, htoNat] at hzero
    omega

/-- Where the parts are short, they fit exactly if all but the last are no longer than the buffer. -/
theorem fits_iff_of_short {tick : ℕ} {parts : List (List Char)} (hne : parts ≠ []) (htick : tick ≤ size)
    (hshort : ∀ part ∈ parts, part.length < 2147483648) :
    (∀ p ∈ starts tick parts, Fits size p) ↔ tick + parts.dropLast.flatten.length ≤ size := by
  induction parts generalizing tick with
  | nil => exact absurd rfl hne
  | cons part parts ih =>
    obtain ⟨hpart, hshort⟩ := List.forall_mem_cons.mp hshort
    have hfits : Fits size (tick : ℤ) := Or.inl (by omega)
    have hcount : (BitVec.ofNat 32 part.length).toInt = part.length :=
      toInt_ofNat_of_lt (by omega)
    rw [starts, hcount, List.forall_mem_cons, ← Int.natCast_add]
    by_cases hparts : parts = []
    · subst hparts
      exact iff_of_true ⟨hfits, List.forall_mem_nil _⟩ htick
    · rw [List.dropLast_cons_of_ne_nil hparts, List.flatten_cons, List.length_append, ← Nat.add_assoc]
      by_cases hnext : tick + part.length ≤ size
      · rw [← ih hparts hnext hshort]
        exact and_iff_right hfits
      · -- the next part begins behind the buffer
        refine iff_of_false (fun h => ?_) (by omega)
        obtain ⟨next, rest, rfl⟩ := List.exists_cons_of_ne_nil hparts
        exact not_fits (by omega) (by omega) (h.2 _ List.mem_cons_self)

theorem parts_ne_nil (stats : List DnsblStat) : parts stats stats ≠ [] := List.cons_ne_nil _ _

variable {buf : List Char} (hsize : size < 2147483648) (hbuf : buf.length = size)

include hsize hbuf

/-- If no part has 2³¹ characters, it is enough that all the parts but the last are together no longer than the buffer. -/
theorem inside_iff_of_short {stats : List DnsblStat} (hshort : ∀ part ∈ parts stats stats, part.length < 2147483648) :
    (∃ t, dnsblStatsInto buf (BitVec.ofNat 32 size) stats = .ok t) ↔
      (parts stats stats).dropLast.flatten.length ≤ size := by
  rw [← Nat.zero_add (parts stats stats).dropLast.flatten.length,
    ← fits_iff_of_short (parts_ne_nil stats) (Nat.zero_le size) hshort]
  exact (inv_start hbuf).print_all_iff hsize (parts stats stats)

/-- **`dnsbl_stats` writes nothing outside its buffer** exactly if every part that it prints fits. If no part has 2³¹
characters, that is: all the parts but the last are together no longer than the buffer. -/
theorem dnsblStats_inside_iff (stats : List DnsblStat) :
    ((∃ t, dnsblStatsInto buf (BitVec.ofNat 32 size) stats = .ok t) ↔
      ∀ tick ∈ starts 0 (parts stats stats), Fits size tick) ∧
    ((∀ part ∈ parts stats stats, part.length < 2147483648) →
      ((∃ t, dnsblStatsInto buf (BitVec.ofNat 32 size) stats = .ok t) ↔
        (parts stats stats).dropLast.flatten.length ≤ size)) :=
  ⟨(inv_start hbuf).print_all_iff hsize (parts stats stats), inside_iff_of_short hsize hbuf⟩

omit hsize hbuf

/-- `TMP_BUF_SIZE` -/
def tmpBufSize : ℕ := 640

theorem dnsblStats_inside_one :
    ∃ t, dnsblStatsInto (List.replicate tmpBufSize '\x00') (BitVec.ofNat 32 tmpBufSize) [⟨"dnsbl.example.org".toList, 7⟩] =
      .ok t :=
  (dnsblStats_inside_iff (by decide) List.length_replicate _).1.mpr (by decide)

/-- What is printed for one list that has not matched. -/
theorem parts_one (name : List Char) :
    parts [⟨name, 0⟩] [⟨name, 0⟩] = ["grossd dnsbl matches (".toList, name, "): ".toList, "0".toList] := by
  have hzero : toString (0 : ℕ) = "0" := rfl
  simp only [parts, separated, printCount, hzero, List.cons_append, List.nil_append]

/-- The buffer of `log_stats` is overrun by a name of as many characters; and a small one without any name. -/
theorem dnsblStats_overruns :
    (¬ ∃ t, dnsblStatsInto (List.replicate tmpBufSize '\x00') (BitVec.ofNat 32 tmpBufSize)
      [⟨List.replicate 640 'a', 0⟩] = .ok t) ∧
      dnsblStatsInto ['x'] 1 [] = .error .outOfBounds := by
  have hlong : ∀ name : List Char, name.length = 640 →
      ¬ ∃ t, dnsblStatsInto (List.replicate tmpBufSize '\x00') (BitVec.ofNat 32 tmpBufSize) [⟨name, 0⟩] = .ok t := by
    intro name hname
    rw [inside_iff_of_short (by decide) List.length_replicate (by simp [parts_one, hname]), parts_one]
    simp [tmpBufSize, hname]
  exact ⟨hlong _ List.length_replicate, rfl⟩

end Gross.Stats
