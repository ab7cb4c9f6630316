import Gross.Bloom.Layout

/-!
# The cells of a ring

A ring that lies in one block of memory is made of cells: the fields of its structures,
the pointers to its filters, and the words of their bits. A `Place` is a cell by its name,
and the layout of `build_bloom_ring` says at which offset it is.

## What is proved

`fits_of_layoutEnd_le` — if the layout ends inside the block, all cells are inside it, and
no two of them overlap.
-/

namespace Gross.Bloom

open Foundation

/-! ### Places -/

/-- The fields of the `mmapped_brq_t`, the `bloom_ring_queue_t` and the
`bloom_filter_group_t`. -/
inductive Head where
  /-- `mmap_info->magic`. -/
  | magic
  /-- `mmap_info->brq`. -/
  | brq
  /-- `mmap_info->last_rotate`. -/
  | lastRotate
  /-- `brq->group`. -/
  | group
  /-- `brq->aggregate`. -/
  | aggregate
  /-- `brq->current_index`. -/
  | currentIndex
  /-- `brq->group->filter_group`. -/
  | filterGroup
  /-- `brq->group->group_size`. -/
  | groupSize
  deriving DecidableEq, Repr

/-- The fields of a `bloom_filter_t`. -/
inductive Field where
  /-- `filter`. -/
  | filter
  /-- `bitsize`. -/
  | bitsize
  /-- `mask`. -/
  | mask
  /-- `size`. -/
  | size
  deriving DecidableEq, Repr

/-- A cell of the file. Filter `0` is the aggregate, and filter `i + 1` is member `i`. -/
inductive Place where
  /-- A field of a structure there is one of. -/
  | head (h : Head)
  /-- `brq->group->filter_group[i]`. -/
  | member (i : ℕ)
  /-- A field of filter `k`. -/
  | field (k : ℕ) (f : Field)
  /-- Word `j` of the bits of filter `k`. -/
  | word (k j : ℕ)
  deriving DecidableEq, Repr

/-- Where the fields of filter `k` are. -/
def Layout.fields (l : Layout) : ℕ → Size
  | 0 => l.aggregate
  | i + 1 => l.member i

/-- Where the bits of filter `k` are. -/
def Layout.data (l : Layout) : ℕ → Size
  | 0 => l.aggregateFilter
  | i + 1 => l.memberFilter i

/-- The offset of a field in a `bloom_filter_t`. -/
def Field.off : Field → Size
  | .filter => 0
  | .bitsize => 8
  | .mask => 12
  | .size => 16

/-- The offset of a place. -/
def Place.off (l : Layout) : Place → Size
  | .head .magic => 0
  | .head .brq => 8
  | .head .lastRotate => 24
  | .head .group => l.brq
  | .head .aggregate => l.brq + 8
  | .head .currentIndex => l.brq + 16
  | .head .filterGroup => l.group
  | .head .groupSize => l.group + 8
  | .member i => l.filterGroup + sizeofPointer * BitVec.ofNat 64 i
  | .field k f => l.fields k + f.off
  | .word k j => l.data k + sizeofBase * BitVec.ofNat 64 j

theorem Place.off_filter (l : Layout) (k : ℕ) : (Place.field k .filter).off l = l.fields k := BitVec.add_zero _

/-- The places of a ring of `n` filters and an aggregate, of `w` words each. -/
def Place.Among (n w : ℕ) : Place → Prop
  | .head _ => True
  | .member i => i < n
  | .field k _ => k ≤ n
  | .word k j => k ≤ n ∧ j < w

/-- The places of a layout. -/
def Place.Valid (l : Layout) (p : Place) : Prop := p.Among l.groupSize.toNat l.size.toNat

/-! ### Where the places are -/

/-- The bytes of a field of a filter. -/
def Field.bytes : Field → ℕ
  | .filter => 8
  | .bitsize | .mask | .size => 4

/-- The bytes of a place. -/
def Place.bytes : Place → ℕ
  | .head .currentIndex | .head .groupSize => 4
  | .head _ => 8
  | .member _ => 8
  | .field _ f => f.bytes
  | .word _ _ => 4

/-- The offset of a place as a number, in a ring of `n` filters and an aggregate, of `w`
words each, when room is made for the fields of `n₁` filters. -/
def Place.pos (n n₁ w : ℕ) : Place → ℕ
  | .head .magic => 0
  | .head .brq => 8
  | .head .lastRotate => 24
  | .head .group => 32
  | .head .aggregate => 40
  | .head .currentIndex => 48
  | .head .filterGroup => 56
  | .head .groupSize => 64
  | .member i => 72 + 8 * i
  | .field k f => 72 + 8 * n + 24 * k + f.off.toNat
  | .word k j => 72 + 8 * n + 24 * n₁ + (k * (4 * w) + 4 * j)

variable {num numBits : Word}

theorem toNat_fields {k : ℕ} (hk : k ≤ num.toNat) :
    ((layout true num numBits).fields k).toNat = 72 + 8 * num.toNat + 24 * k := by
  cases k with
  | zero => exact toNat_aggregate
  | succ i => exact toNat_member hk

theorem toNat_data {k : ℕ} (hk : k ≤ num.toNat) :
    ((layout true num numBits).data k).toNat =
      72 + 8 * num.toNat + 24 * (num + 1).toNat + k * (4 * (wordsOf numBits).toNat) := by
  cases k with
  | zero =>
    rw [Layout.data, toNat_aggregateFilter]
    simp [headroom]
  | succ i => exact toNat_memberFilter hk

theorem Place.toNat_off {p : Place} (hp : p.Valid (layout true num numBits)) :
    (p.off (layout true num numBits)).toNat = p.pos num.toNat (num + 1).toNat (wordsOf numBits).toNat := by
  have hnum := num.isLt
  have hnum1 := (num + 1).isLt
  have hw := toNat_wordsOf_le numBits
  cases p with
  | head h => cases h <;> rfl
  | member i =>
    have hi : i < num.toNat := hp
    rw [off, BitVec.toNat_add, toNat_filterGroup, BitVec.toNat_mul, toNat_sizeofPointer, BitVec.toNat_ofNat]
    simp only [pos, headroom, if_true]
    omega
  | field k f =>
    have hk : k ≤ num.toNat := hp
    have hf : f.off.toNat ≤ 16 := by cases f <;> decide
    rw [off, BitVec.toNat_add, toNat_fields hk, pos]
    omega
  | word k j =>
    obtain ⟨hk, hj⟩ : k ≤ num.toNat ∧ j < (wordsOf numBits).toNat := hp
    have hprod : k * (4 * (wordsOf numBits).toNat) ≤ 4294967296 * 536870912 := Nat.mul_le_mul (by omega) (by omega)
    rw [off, BitVec.toNat_add, toNat_data hk, BitVec.toNat_mul, toNat_sizeofBase, BitVec.toNat_ofNat, pos]
    omega

/-- The cells of a layout do not overlap, and lie inside the block. -/
structure Layout.Fits (l : Layout) : Prop where
  /-- No two cells overlap. -/
  apart : ∀ p q : Place, p.Valid l → q.Valid l → p ≠ q →
    (p.off l).toNat + p.bytes ≤ (q.off l).toNat ∨ (q.off l).toNat + q.bytes ≤ (p.off l).toNat
  /-- The cells lie inside the block. -/
  inside : ∀ p : Place, p.Valid l → (p.off l).toNat + p.bytes ≤ l.lumpsize.toNat

theorem Place.bytes_pos (p : Place) : 0 < p.bytes := by
  cases p with
  | head h => cases h <;> decide
  | member i => exact Nat.zero_lt_succ _
  | field k f => cases f <;> exact Nat.zero_lt_succ _
  | word k j => exact Nat.zero_lt_succ _

/-- Two places of the same offset are the same. -/
theorem Layout.Fits.off_inj {l : Layout} (h : l.Fits) {p q : Place} (hp : p.Valid l) (hq : q.Valid l)
    (hoff : p.off l = q.off l) : p = q := by
  by_contra hne
  have hpos := p.bytes_pos
  have hpos' := q.bytes_pos
  have hapart := h.apart p q hp hq hne
  rw [hoff] at hapart
  omega

theorem Field.pos_apart {f g : Field} (h : f ≠ g) :
    f.off.toNat + f.bytes ≤ g.off.toNat ∨ g.off.toNat + g.bytes ≤ f.off.toNat := by
  revert h
  cases f <;> cases g <;> decide

theorem Field.pos_le (f : Field) : f.off.toNat + f.bytes ≤ 20 := by
  cases f <;> decide

theorem Head.pos_apart {h h' : Head} (hne : h ≠ h') (n n₁ w : ℕ) :
    (Place.head h).pos n n₁ w + (Place.head h).bytes ≤ (Place.head h').pos n n₁ w ∨
      (Place.head h').pos n n₁ w + (Place.head h').bytes ≤ (Place.head h).pos n n₁ w := by
  revert hne
  cases h <;> cases h' <;> simp [Place.pos, Place.bytes]

theorem Head.pos_le (h : Head) (n n₁ w : ℕ) : (Place.head h).pos n n₁ w + (Place.head h).bytes ≤ 72 := by
  cases h <;> simp [Place.pos, Place.bytes]

/-- The words of filters that follow each other. -/
theorem word_apart {w k k' j j' : ℕ} (hj : j < w) (hj' : j' < w) (hne : ¬ (k = k' ∧ j = j')) :
    k * (4 * w) + 4 * j + 4 ≤ k' * (4 * w) + 4 * j' ∨ k' * (4 * w) + 4 * j' + 4 ≤ k * (4 * w) + 4 * j := by
  rcases Nat.lt_trichotomy k k' with h | rfl | h
  · have := Nat.mul_le_mul_right (4 * w) (Nat.succ_le_of_lt h)
    rw [Nat.succ_mul] at this
    omega
  · omega
  · have := Nat.mul_le_mul_right (4 * w) (Nat.succ_le_of_lt h)
    rw [Nat.succ_mul] at this
    omega

/-- The last word of the last filter ends where the layout does. -/
theorem word_inside {n w k j : ℕ} (hk : k ≤ n) (hj : j < w) : k * (4 * w) + 4 * j + 4 ≤ (n + 1) * (4 * w) := by
  have : (k + 1) * (4 * w) ≤ (n + 1) * (4 * w) := Nat.mul_le_mul_right (4 * w) (by omega)
  rw [Nat.succ_mul k] at this
  omega

theorem Place.pos_apart {n w : ℕ} {p q : Place} (hne : p ≠ q) (hp : p.Among n w) (hq : q.Among n w) :
    p.pos n (n + 1) w + p.bytes ≤ q.pos n (n + 1) w ∨ q.pos n (n + 1) w + q.bytes ≤ p.pos n (n + 1) w := by
  cases p with
  | head h =>
    have hle := h.pos_le n (n + 1) w
    cases q with
    | head h' => exact Head.pos_apart (fun heq => hne (congrArg _ heq)) n (n + 1) w
    | member i | field k f | word k j =>
      refine Or.inl (Nat.le_trans hle ?_)
      simp only [pos]
      omega
  | member i =>
    cases q with
    | head h => exact Or.inr (Nat.le_trans (h.pos_le n (n + 1) w) (by simp only [pos]; omega))
    | member i' =>
      have : i ≠ i' := fun heq => hne (congrArg _ heq)
      simp only [pos, bytes, Among] at hp hq ⊢
      omega
    | field k f | word k j =>
      simp only [pos, bytes, Among] at hp hq ⊢
      omega
  | field k f =>
    have hf := f.pos_le
    cases q with
    | head h => exact Or.inr (Nat.le_trans (h.pos_le n (n + 1) w) (by simp only [pos]; omega))
    | member i | word k' j =>
      simp only [pos, bytes, Among] at hp hq ⊢
      omega
    | field k' f' =>
      have hf' := f'.pos_le
      simp only [pos, bytes, Among] at hp hq ⊢
      by_cases hk : k = k'
      · subst hk
        have := Field.pos_apart (f := f) (g := f') fun heq => hne (congrArg _ heq)
        omega
      · omega
  | word k j =>
    cases q with
    | head h => exact Or.inr (Nat.le_trans (h.pos_le n (n + 1) w) (by simp only [pos]; omega))
    | member i =>
      simp only [pos, bytes, Among] at hp hq ⊢
      omega
    | field k' f =>
      have hf := f.pos_le
      simp only [pos, bytes, Among] at hp hq ⊢
      omega
    | word k' j' =>
      have hkj : ¬ (k = k' ∧ j = j') := fun ⟨hk, hj⟩ => hne (by rw [hk, hj])
      have := word_apart hp.2 hq.2 hkj
      simp only [pos, bytes, Among] at hp hq ⊢
      omega

/-- A layout whose end is inside the block fits. -/
theorem fits_of_layoutEnd_le (hnum : num.toNat + 1 < 2 ^ 32)
    (hend : layoutEnd true num numBits ≤ (layout true num numBits).lumpsize.toNat) : (layout true num numBits).Fits := by
  have hsucc := toNat_num_succ hnum
  constructor
  · intro p q hp hq hne
    rw [Place.toNat_off hp, Place.toNat_off hq, hsucc]
    exact Place.pos_apart hne hp hq
  · intro p hp
    refine Nat.le_trans ?_ hend
    rw [Place.toNat_off hp, layoutEnd, hsucc]
    simp only [headroom, if_true]
    cases p with
    | head h =>
      have := h.pos_le num.toNat (num.toNat + 1) (wordsOf numBits).toNat
      omega
    | member i =>
      have hi : i < num.toNat := hp
      simp only [Place.pos, Place.bytes]
      omega
    | field k f =>
      have hk : k ≤ num.toNat := hp
      have hf := f.pos_le
      simp only [Place.pos, Place.bytes]
      omega
    | word k j =>
      have := word_inside (w := (wordsOf numBits).toNat) (show k ≤ num.toNat from hp.1) hp.2
      simp only [Place.pos, Place.bytes]
      omega

end Gross.Bloom
