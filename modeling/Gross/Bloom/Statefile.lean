import Gross.Bloom.Places
import Gross.Foundation.Memory

/-!
# The statefile

With a statefile the ring lives in a file that is mapped into memory, pointers and
all. After a restart the file is mapped again, at whatever address there is, and
`walk_mmap_info` moves the pointers from the old address to the new one: through
pointers that it has just moved, by an offset it finds from one of them.

## The model

The mapped file is a block of `Memory`. Its cells are pointers, 32-bit words, a time,
and the magic string, at the offsets of their `Place`s. `buildStatefile` is
`build_bloom_ring` on a file mapped at an address. `Act` is what can happen to the file
then: stores into the bits of a filter, of the current index and of the time of the last
rotation, which are all that `bloommgr` stores, and restarts.

A new file is all zeros, as `create_statefile` makes it; here nothing has been stored
there yet, so that a read of it before the first store fails.

## What is proved

`relocated` — however the file came to its state, after any number of restarts, each
at its own address, the pointers are those of a ring laid out at the last address, and
the ring read through them and the time of the last rotation are what they were.
-/

namespace Gross.Bloom

open Foundation

/-- What a cell holds. -/
inductive Cell where
  /-- The magic string, `"mmbrq2\n"`. -/
  | magic
  /-- A pointer. -/
  | pointer (p : Size)
  /-- An unsigned integer of 32 bits. -/
  | word (w : Word)
  /-- A `time_t`. -/
  | time (t : ℤ)
  deriving DecidableEq, Repr

instance : Bytes Cell where
  bytes
    | .word _ => 4
    | .magic | .pointer _ | .time _ => 8

/-- A mapped file: its base is `ctx->mmap_info`. -/
abbrev Mapped := Memory Cell

/-! ### Reading and writing through pointers -/

/-- A pointer behind an address. -/
def loadPointer (m : Mapped) (a : Size) : Except Fault Size := do
  match ← m.load a with
  | .pointer p => return p
  | _ => throw .outOfBounds

/-- An unsigned integer behind an address. -/
def loadWord (m : Mapped) (a : Size) : Except Fault Word := do
  match ← m.load a with
  | .word w => return w
  | _ => throw .outOfBounds

/-- A time behind an address. -/
def loadTime (m : Mapped) (a : Size) : Except Fault ℤ := do
  match ← m.load a with
  | .time t => return t
  | _ => throw .outOfBounds

/-- `CHANGE_ADDRESS`, of the pointer behind an address. -/
def changeAddress (m : Mapped) (a offset : Size) : Except Fault Mapped := do
  let p ← loadPointer m a
  m.store a (.pointer (p + offset))

/-- A turn of the loop of `walk_mmap_info`: the pointer to a member is moved, and then, through
it, the pointer to its bits. -/
def walkTurn (brq offset : Size) (m : Mapped) (i : ℕ) : Except Fault Mapped := do
  let filterGroup ← loadPointer m (← loadPointer m brq)
  let m ← changeAddress m (filterGroup + sizeofPointer * BitVec.ofNat 64 i) offset
  let filterGroup ← loadPointer m (← loadPointer m brq)
  changeAddress m (← loadPointer m (filterGroup + sizeofPointer * BitVec.ofNat 64 i)) offset

/-- `walk_mmap_info`, after the pointers to the group and to the aggregate. The bound of its loop,
which the loop does not change, is read once. -/
def walkGroup (brq offset : Size) (m : Mapped) : Except Fault Mapped := do
  let m ← changeAddress m (← loadPointer m (brq + 8)) offset
  let m ← changeAddress m (← loadPointer m brq) offset
  let groupSize ← loadWord m ((← loadPointer m brq) + 8)
  (List.range groupSize.toNat).foldlM (walkTurn brq offset) m

/-- `walk_mmap_info` -/
def walkMmapInfo (m : Mapped) : Except Fault Mapped := do
  let brq ← loadPointer m (m.base + 8)
  let offset := (brq + sizeofRingQueue) - (← loadPointer m brq)
  let m ← changeAddress m brq offset
  let m ← changeAddress m (brq + 8) offset
  walkGroup brq offset m

/-! ### Building the ring -/

/-- The fields of a filter but its bits. -/
def fieldStores (l : Layout) (k : ℕ) : List (Place × Cell) :=
  [(.field k .bitsize, .word l.bitsize), (.field k .mask, .word l.mask), (.field k .size, .word l.size)]

/-- `zero_bloom_filter`. -/
def zeroWords (l : Layout) (k : ℕ) : List (Place × Cell) :=
  (List.range l.size.toNat).map fun j => (.word k j, .word 0)

/-- The stores of `build_bloom_ring` into a file without the magic string, in order. -/
def initStores (l : Layout) (base : Size) (now : ℤ) : List (Place × Cell) :=
  [(.head .magic, .magic), (.head .lastRotate, .time now), (.head .brq, .pointer (base + l.brq)),
    (.head .currentIndex, .word 0), (.head .group, .pointer (base + l.group)),
    (.head .groupSize, .word l.groupSize), (.head .filterGroup, .pointer (base + l.filterGroup)),
    (.head .aggregate, .pointer (base + l.aggregate))] ++
  fieldStores l 0 ++
  (List.range l.groupSize.toNat).flatMap (fun i =>
    (.member i, .pointer (base + l.member i)) :: fieldStores l (i + 1)) ++
  [(.field 0 .filter, .pointer (base + l.aggregateFilter))] ++
  (List.range l.groupSize.toNat).map (fun i => (.field (i + 1) .filter, .pointer (base + l.memberFilter i))) ++
  zeroWords l 0 ++
  (List.range l.groupSize.toNat).flatMap (fun i => zeroWords l (i + 1))

/-- `build_bloom_ring`, with a statefile that is mapped at `base`. -/
def buildStatefile (num numBits : Word) (now : ℤ) (m : Mapped) : Except Fault Mapped := do
  check (3 < numBits)
  let l := layout true num numBits
  -- "statefile size differs from the calculated size"
  if m.length ≠ l.lumpsize.toNat then throw .exit
  if m.cells 0 = some .magic then
    let m ← m.store (m.base + 8) (.pointer (m.base + sizeofMmapped))
    walkMmapInfo m
  else
    m.storeAll (Place.off l) (initStores l m.base now)

/-- The file `create_statefile` makes, mapped at `base`. -/
def newStatefile (num numBits : Word) (base : Size) : Mapped := ⟨base, (statefileSize num numBits).toNat, fun _ => none⟩

/-! ### What happens to the file -/

/-- The pointer to filter `k`: `brq->aggregate`, or `brq->group->filter_group[i]`. -/
def filterPointer (m : Mapped) (k : ℕ) : Except Fault Size := do
  let brq ← loadPointer m (m.base + 8)
  match k with
  | 0 => loadPointer m (brq + 8)
  | i + 1 =>
    let group ← loadPointer m brq
    check (i < (← loadWord m (group + 8)).toNat)
    loadPointer m ((← loadPointer m group) + sizeofPointer * BitVec.ofNat 64 i)

/-- Something that happens to the mapped file. -/
inductive Act where
  /-- A store into word `j` of filter `k`. -/
  | storeWord (k j : ℕ) (w : Word)
  /-- A store of `brq->current_index`. -/
  | setCurrentIndex (i : Word)
  /-- A store of `*ctx->last_rotate`. -/
  | setLastRotate (t : ℤ)
  /-- The daemon is started anew, and the file mapped at another address. -/
  | restart (base : Size) (now : ℤ)
  deriving DecidableEq, Repr

/-- The file after an act. A store outside its filter is outside of an array. -/
def act (num numBits : Word) (m : Mapped) : Act → Except Fault Mapped
  | .storeWord k j w => do
    let f ← filterPointer m k
    if j < (← loadWord m (f + 16)).toNat then
      m.store ((← loadPointer m f) + sizeofBase * BitVec.ofNat 64 j) (.word w)
    else throw .outOfBounds
  | .setCurrentIndex i => do m.store ((← loadPointer m (m.base + 8)) + 16) (.word i)
  | .setLastRotate t => m.store (m.base + 24) (.time t)
  | .restart base now => buildStatefile num numBits now { m with base := base }

/-- The filter a pointer points to. -/
def readFilter (m : Mapped) (f : Size) : Except Fault BloomFilter := do
  let filter ← loadPointer m f
  let bitsize ← loadWord m (f + 8)
  let mask ← loadWord m (f + 12)
  let size ← loadWord m (f + 16)
  let words ← (List.range size.toNat).mapM fun j => loadWord m (filter + sizeofBase * BitVec.ofNat 64 j)
  return ⟨words, bitsize, mask, size⟩

/-- The ring in the file, read through its pointers. -/
def readRing (m : Mapped) : Except Fault BloomRingQueue := do
  let brq ← loadPointer m (m.base + 8)
  let groupSize ← loadWord m ((← loadPointer m brq) + 8)
  let members ← (List.range groupSize.toNat).mapM fun i => do readFilter m (← filterPointer m (i + 1))
  let aggregate ← readFilter m (← filterPointer m 0)
  let currentIndex ← loadWord m (brq + 16)
  return ⟨⟨members, groupSize.toNat⟩, aggregate, currentIndex.toNat⟩

/-- The pointers of a ring that is laid out at the base of the block. -/
structure Placed (l : Layout) (m : Mapped) : Prop where
  /-- `mmap_info->brq`. -/
  brq : loadPointer m (m.base + 8) = .ok (m.base + l.brq)
  /-- `brq->group`. -/
  group : loadPointer m (m.base + l.brq) = .ok (m.base + l.group)
  /-- `brq->aggregate`. -/
  aggregate : loadPointer m (m.base + l.brq + 8) = .ok (m.base + l.aggregate)
  /-- `brq->group->filter_group`. -/
  filterGroup : loadPointer m (m.base + l.group) = .ok (m.base + l.filterGroup)
  /-- `brq->group->filter_group[i]`. -/
  member : ∀ i < l.groupSize.toNat,
    loadPointer m (m.base + l.filterGroup + sizeofPointer * BitVec.ofNat 64 i) = .ok (m.base + l.member i)
  /-- `brq->aggregate->filter`. -/
  aggregateFilter : loadPointer m (m.base + l.aggregate) = .ok (m.base + l.aggregateFilter)
  /-- `brq->group->filter_group[i]->filter`. -/
  memberFilter : ∀ i < l.groupSize.toNat, loadPointer m (m.base + l.member i) = .ok (m.base + l.memberFilter i)

/-! ### Files with a ring in them -/

variable {num numBits : Word}

/-- What is in the file apart from pointers and sizes. -/
structure Content where
  /-- The words of the filters. -/
  words : ℕ → ℕ → Word
  /-- `brq->current_index`. -/
  currentIndex : Word
  /-- `mmap_info->last_rotate`. -/
  lastRotate : ℤ

/-- What the pointer at a place points to, if there is one. -/
def Place.target (l : Layout) : Place → Option Size
  | .head .brq => some l.brq
  | .head .group => some l.group
  | .head .aggregate => some l.aggregate
  | .head .filterGroup => some l.filterGroup
  | .member i => some (l.member i)
  | .field k .filter => some (l.data k)
  | _ => none

/-- What is at a place that has no pointer. -/
def Content.data (l : Layout) (x : Content) : Place → Cell
  | .head .lastRotate => .time x.lastRotate
  | .head .currentIndex => .word x.currentIndex
  | .head .groupSize => .word l.groupSize
  | .field _ .bitsize => .word l.bitsize
  | .field _ .mask => .word l.mask
  | .field _ .size => .word l.size
  | .word k j => .word (x.words k j)
  | _ => .magic

/-- The file, mapped at `base`, holds a ring of this layout and content. The pointers at the
places of `D` point into the block where it is, the others into where it was. -/
structure Laid (l : Layout) (x : Content) (D : Set Place) (old base : Size) (m : Mapped) : Prop where
  /-- The address of the file. -/
  base_eq : m.base = base
  /-- The size of the file. -/
  length : m.length = l.lumpsize.toNat
  /-- What is no pointer. -/
  data : ∀ p : Place, p.Valid l → p.target l = none → m.cells (p.off l) = some (x.data l p)
  /-- The pointers that have been moved. -/
  moved : ∀ (p : Place) (t : Size), p.Valid l → p.target l = some t → p ∈ D →
    m.cells (p.off l) = some (.pointer (base + t))
  /-- The pointers that have not. -/
  unmoved : ∀ (p : Place) (t : Size), p.Valid l → p.target l = some t → p ∉ D →
    m.cells (p.off l) = some (.pointer (old + t))

namespace Laid

variable {l : Layout} {x : Content} {D : Set Place} {old base : Size} {m : Mapped} {p : Place} {t : Size}

theorem bytes_of_target (ht : p.target l = some t) : p.bytes = 8 := by
  cases p with
  | head h => cases h <;> simp_all [Place.target, Place.bytes]
  | member i => rfl
  | field k f => cases f <;> simp_all [Place.target, Place.bytes, Field.bytes]
  | word k j => simp [Place.target] at ht

/-- A cell that is there is read. -/
theorem load_cell (h : Laid l x D old base m) {y : Cell} (hy : m.cells (p.off l) = some y) :
    m.load (base + p.off l) = .ok y := by
  rw [← h.base_eq]
  exact Memory.load_at hy

/-- A cell inside the block is stored. -/
theorem store_cell (hl : l.Fits) (h : Laid l x D old base m) (hp : p.Valid l) {y : Cell} (hy : bytes y = p.bytes) :
    m.store (base + p.off l) y = .ok { m with cells := Function.update m.cells (p.off l) (some y) } := by
  have hin : (p.off l).toNat + bytes y ≤ m.length := by
    rw [h.length, hy]
    exact hl.inside p hp
  rw [← h.base_eq]
  exact Memory.store_at hin

theorem load (h : Laid l x D old base m) (hp : p.Valid l) (ht : p.target l = some t) (hD : p ∈ D) :
    loadPointer m (base + p.off l) = .ok (base + t) := by
  rw [loadPointer, h.load_cell (h.moved p t hp ht hD)]
  rfl

theorem load_word (h : Laid l x D old base m) {w : Word} (hp : p.Valid l) (ht : p.target l = none)
    (hw : x.data l p = .word w) : loadWord m (base + p.off l) = .ok w := by
  rw [loadWord, h.load_cell (h.data p hp ht), hw]
  rfl

/-- The file is mapped at another address. -/
theorem remap (h : Laid l x Set.univ old base m) (base' : Size) : Laid l x ∅ base base' { m with base := base' } :=
  ⟨rfl, h.length, h.data, fun _ _ _ _ hm => hm.elim, fun p t hp ht _ => h.moved p t hp ht (Set.mem_univ p)⟩

/-- A store at one place leaves the others alone. -/
theorem update_of_ne (hl : l.Fits) {q : Place} (hp : p.Valid l) (hq : q.Valid l) (hne : q ≠ p) (y : Option Cell) :
    Function.update m.cells (p.off l) y (q.off l) = m.cells (q.off l) :=
  Function.update_of_ne (fun heq => hne (hl.off_inj hq hp heq)) ..

/-- A pointer is stored that points where it should. -/
theorem store (hl : l.Fits) (h : Laid l x D old base m) (hp : p.Valid l) (ht : p.target l = some t) :
    ∃ m', m.store (base + p.off l) (.pointer (base + t)) = .ok m' ∧ Laid l x (insert p D) old base m' := by
  refine ⟨_, h.store_cell hl hp (bytes_of_target ht).symm, h.base_eq, h.length,
    fun q hq hn => ?_, fun q t' hq ht' hm => ?_, fun q t' hq ht' hm => ?_⟩
  · have hne : q ≠ p := by
      rintro rfl
      simp [hn] at ht
    exact (update_of_ne hl hp hq hne _).trans (h.data q hq hn)
  · by_cases hqp : q = p
    · subst hqp
      obtain rfl : t' = t := Option.some.inj (ht'.symm.trans ht)
      exact Function.update_self ..
    · exact (update_of_ne hl hp hq hqp _).trans (h.moved q t' hq ht' (hm.resolve_left hqp))
  · have hqp : q ≠ p := fun heq => hm (Or.inl heq)
    exact (update_of_ne hl hp hq hqp _).trans (h.unmoved q t' hq ht' fun h' => hm (Or.inr h'))

/-- Something that is no pointer is stored. -/
theorem storeData (hl : l.Fits) (h : Laid l x D old base m) (hp : p.Valid l) (ht : p.target l = none) {y : Content}
    (hy : ∀ q : Place, q ≠ p → y.data l q = x.data l q) (hb : bytes (y.data l p) = p.bytes) :
    ∃ m', m.store (base + p.off l) (y.data l p) = .ok m' ∧ Laid l y D old base m' := by
  have hne : ∀ {q : Place} {t : Size}, q.target l = some t → q ≠ p := by
    rintro q t hq rfl
    simp [ht] at hq
  refine ⟨_, h.store_cell hl hp hb, h.base_eq, h.length, fun q hq hn => ?_,
    fun q t' hq ht' hm => (update_of_ne hl hp hq (hne ht') _).trans (h.moved q t' hq ht' hm),
    fun q t' hq ht' hm => (update_of_ne hl hp hq (hne ht') _).trans (h.unmoved q t' hq ht' hm)⟩
  by_cases hqp : q = p
  · subst hqp
    exact Function.update_self ..
  · rw [hy q hqp]
    exact (update_of_ne hl hp hq hqp _).trans (h.data q hq hn)

end Laid

/-! ### The walk -/

/-- The places `walk_mmap_info` has come to after `k` turns of its loop. -/
def walked (k : ℕ) : Set Place := fun
  | .head _ => True
  | .member i => i < k
  | .field 0 _ => True
  | .field (i + 1) _ => i < k
  | .word _ _ => True

variable {l : Layout} {x : Content} {old base : Size} {m : Mapped}

/-- Before the loop: five pointers. -/
theorem walked_zero {p : Place} {t : Size} (ht : p.target l = some t) :
    p ∈ walked 0 ↔ p ∈ insert (.head .filterGroup) (insert (.field 0 .filter) (insert (.head .aggregate)
      (insert (.head .group) ({.head .brq} : Set Place)))) := by
  cases p with
  | head h =>
    have : Place.head h ∈ walked 0 := trivial
    cases h <;> simp_all [Place.target]
  | member i =>
    have : Place.member i ∉ walked 0 := Nat.not_lt_zero i
    simp [this]
  | field k f =>
    obtain rfl : f = .filter := by
      cases f <;> simp_all [Place.target]
    cases k with
    | zero =>
      have : Place.field 0 .filter ∈ walked 0 := trivial
      simp [this]
    | succ i =>
      have : Place.field (i + 1) .filter ∉ walked 0 := Nat.not_lt_zero i
      simp [this]
  | word k j => simp [Place.target] at ht

/-- A turn of the loop: two more. -/
theorem walked_succ {i : ℕ} {p : Place} {t : Size} (ht : p.target l = some t) :
    p ∈ walked (i + 1) ↔ p ∈ insert (.field (i + 1) .filter) (insert (.member i) (walked i)) := by
  cases p with
  | head h =>
    have h₁ : Place.head h ∈ walked (i + 1) := trivial
    have h₂ : Place.head h ∈ walked i := trivial
    simp [h₁, h₂]
  | member j =>
    have h₁ : Place.member j ∈ walked (i + 1) ↔ j < i + 1 := Iff.rfl
    have h₂ : Place.member j ∈ walked i ↔ j < i := Iff.rfl
    simp only [h₁, h₂, Set.mem_insert_iff, reduceCtorEq, Place.member.injEq, false_or]
    omega
  | field k f =>
    obtain rfl : f = .filter := by
      cases f <;> simp_all [Place.target]
    cases k with
    | zero =>
      have h₁ : Place.field 0 .filter ∈ walked (i + 1) := trivial
      have h₂ : Place.field 0 .filter ∈ walked i := trivial
      simp [h₁, h₂]
    | succ j =>
      have h₁ : Place.field (j + 1) .filter ∈ walked (i + 1) ↔ j < i + 1 := Iff.rfl
      have h₂ : Place.field (j + 1) .filter ∈ walked i ↔ j < i := Iff.rfl
      simp only [h₁, h₂, Set.mem_insert_iff, reduceCtorEq, Place.field.injEq, and_true, false_or]
      omega
  | word k j => simp [Place.target] at ht

/-- After the loop: all of them. -/
theorem mem_walked {p : Place} (hp : p.Valid l) : p ∈ walked l.groupSize.toNat := by
  cases p with
  | head h => trivial
  | member i => exact hp
  | field k f =>
    cases k with
    | zero => trivial
    | succ i => exact hp
  | word k j => trivial

/-- A file whose pointers are being moved. The pointer at a place points `aim` away from where
the file is, if it has been moved, and from where it was, if it has not. What is no pointer is
in `rest`. -/
structure Aimed (l : Layout) (aim : Place → Size) (rest : Size → Option Cell) (D : Set Place) (old base : Size)
    (m : Mapped) : Prop where
  /-- The address of the file. -/
  base_eq : m.base = base
  /-- The size of the file. -/
  length : m.length = l.lumpsize.toNat
  /-- The pointers that have been moved. -/
  moved : ∀ (p : Place) (t : Size), p.Valid l → p.target l = some t → p ∈ D →
    m.cells (p.off l) = some (.pointer (base + aim p))
  /-- The pointers that have not. -/
  unmoved : ∀ (p : Place) (t : Size), p.Valid l → p.target l = some t → p ∉ D →
    m.cells (p.off l) = some (.pointer (old + aim p))
  /-- The other cells. -/
  rest : ∀ o : Size, (∀ (p : Place) (t : Size), p.Valid l → p.target l = some t → p.off l ≠ o) → m.cells o = rest o

namespace Aimed

variable {aim : Place → Size} {rest : Size → Option Cell} {D : Set Place} {p : Place} {t : Size}

theorem load (h : Aimed l aim rest D old base m) (hp : p.Valid l) (ht : p.target l = some t) (hD : p ∈ D) :
    loadPointer m (base + p.off l) = .ok (base + aim p) := by
  rw [loadPointer, ← h.base_eq, Memory.load_at (h.moved p t hp ht hD), h.base_eq]
  rfl

theorem load_unmoved (h : Aimed l aim rest D old base m) (hp : p.Valid l) (ht : p.target l = some t) (hD : p ∉ D) :
    loadPointer m (base + p.off l) = .ok (old + aim p) := by
  rw [loadPointer, ← h.base_eq, Memory.load_at (h.unmoved p t hp ht hD)]
  rfl

/-- A cell that is no pointer. -/
theorem cells_data (hl : l.Fits) (h : Aimed l aim rest D old base m) (hp : p.Valid l) (ht : p.target l = none) :
    m.cells (p.off l) = rest (p.off l) := by
  refine h.rest _ fun q t hq hqt hoff => ?_
  rw [hl.off_inj hq hp hoff, ht] at hqt
  cases hqt

theorem load_word (hl : l.Fits) (h : Aimed l aim rest D old base m) (hp : p.Valid l) (ht : p.target l = none) {w : Word}
    (hw : rest (p.off l) = some (.word w)) : loadWord m (base + p.off l) = .ok w := by
  rw [loadWord, ← h.base_eq, Memory.load_at ((h.cells_data hl hp ht).trans hw)]
  rfl

/-- Only the places of pointers count. -/
theorem congr (h : Aimed l aim rest D old base m) {D' : Set Place}
    (hD : ∀ (p : Place) (t : Size), p.Valid l → p.target l = some t → (p ∈ D' ↔ p ∈ D)) :
    Aimed l aim rest D' old base m :=
  ⟨h.base_eq, h.length, fun p t hp ht hm => h.moved p t hp ht ((hD p t hp ht).mp hm),
    fun p t hp ht hm => h.unmoved p t hp ht (fun h' => hm ((hD p t hp ht).mpr h')), h.rest⟩

/-- `CHANGE_ADDRESS` moves a pointer. -/
theorem change (hl : l.Fits) (h : Aimed l aim rest D old base m) (hp : p.Valid l) (ht : p.target l = some t)
    (hD : p ∉ D) :
    ∃ m', changeAddress m (base + p.off l) (base - old) = .ok m' ∧ Aimed l aim rest (insert p D) old base m' := by
  have hmove : old + aim p + (base - old) = base + aim p := by bv_omega
  have hin : (p.off l).toNat + bytes (Cell.pointer (base + aim p)) ≤ m.length := by
    rw [h.length, show bytes (Cell.pointer (base + aim p)) = p.bytes from (Laid.bytes_of_target ht).symm]
    exact hl.inside p hp
  have hchange : changeAddress m (base + p.off l) (base - old) =
      .ok { m with cells := Function.update m.cells (p.off l) (some (.pointer (base + aim p))) } := by
    rw [changeAddress, h.load_unmoved hp ht hD, ok_bind, hmove, show base + p.off l = m.base + p.off l by rw [h.base_eq]]
    exact Memory.store_at hin
  refine ⟨_, hchange, h.base_eq, h.length, fun q t' hq ht' hm => ?_, fun q t' hq ht' hm => ?_, fun o ho => ?_⟩
  · by_cases hqp : q = p
    · subst hqp
      exact Function.update_self ..
    · exact (Laid.update_of_ne hl hp hq hqp _).trans (h.moved q t' hq ht' (hm.resolve_left hqp))
  · have hqp : q ≠ p := fun heq => hm (Or.inl heq)
    exact (Laid.update_of_ne hl hp hq hqp _).trans (h.unmoved q t' hq ht' fun h' => hm (Or.inr h'))
  · exact (Function.update_of_ne (ho p t hp ht).symm ..).trans (h.rest o ho)

/-- `walk_mmap_info` finds the distance between the two addresses from the pointer to the group,
and moves that and the pointer to the aggregate. -/
theorem walkMmapInfo_eq (hl : l.Fits) (hlay : l.brq + sizeofRingQueue = l.group) (hbrq : aim (.head .brq) = l.brq)
    (hgroup : aim (.head .group) = l.group) (h : Aimed l aim rest {.head .brq} old base m) :
    ∃ m', walkMmapInfo m = walkGroup (base + l.brq) (base - old) m' ∧
      Aimed l aim rest (insert (.head .aggregate) (insert (.head .group) {.head .brq})) old base m' := by
  have hoffset : base + l.brq + sizeofRingQueue - (old + l.group) = base - old := by
    rw [BitVec.add_assoc, hlay]
    bv_omega
  have hbrq₀ := h.load (p := .head .brq) trivial rfl rfl
  have hgrp := h.load_unmoved (p := .head .group) trivial rfl (by simp)
  obtain ⟨m₁, hm₁, h₁⟩ := h.change hl (p := .head .group) trivial rfl (by simp)
  obtain ⟨m₂, hm₂, h₂⟩ := h₁.change hl (p := .head .aggregate) trivial rfl (by simp)
  simp only [Place.off, ← BitVec.add_assoc, hbrq, hgroup] at hbrq₀ hgrp hm₁ hm₂
  refine ⟨m₂, ?_, h₂⟩
  rw [walkMmapInfo, h.base_eq]
  simp only [hbrq₀, hgrp, hoffset, hm₁, hm₂, ok_bind]

/-- Before the loop two more pointers are moved, if the aggregate is where it should be. -/
theorem walkGroup_eq (hl : l.Fits) (hgroup : aim (.head .group) = l.group)
    (hagg : aim (.head .aggregate) = l.aggregate)
    (hsize : rest ((Place.head .groupSize).off l) = some (.word l.groupSize))
    (h : Aimed l aim rest (insert (.head .aggregate) (insert (.head .group) {.head .brq})) old base m) :
    ∃ m', walkGroup (base + l.brq) (base - old) m =
        (List.range l.groupSize.toNat).foldlM (walkTurn (base + l.brq) (base - old)) m' ∧
      Aimed l aim rest (walked 0) old base m' := by
  have hagg₂ := h.load (p := .head .aggregate) trivial rfl (by simp)
  obtain ⟨m₃, hm₃, h₃⟩ := h.change hl (p := .field 0 .filter) (Nat.zero_le _) rfl (by simp)
  have hgrp₃ := h₃.load (p := .head .group) trivial rfl (by simp)
  obtain ⟨m₄, hm₄, h₄⟩ := h₃.change hl (p := .head .filterGroup) trivial rfl (by simp)
  have hgrp₄ := h₄.load (p := .head .group) trivial rfl (by simp)
  have hsize₄ := h₄.load_word hl (p := .head .groupSize) trivial rfl hsize
  rw [Place.off_filter] at hm₃
  simp only [Place.off, Layout.fields, ← BitVec.add_assoc, hgroup, hagg] at hagg₂ hm₃ hgrp₃ hm₄ hgrp₄ hsize₄
  refine ⟨m₄, ?_, h₄.congr fun p t _ ht => walked_zero ht⟩
  simp only [walkGroup, hagg₂, hm₃, hgrp₃, hm₄, hgrp₄, hsize₄, ok_bind]

/-- A turn of the loop comes to the filter that the pointer to the member points to. -/
theorem walkTurn_eq (hl : l.Fits) (hgroup : aim (.head .group) = l.group)
    (hfilterGroup : aim (.head .filterGroup) = l.filterGroup) {i : ℕ} (hi : i < l.groupSize.toNat)
    (h : Aimed l aim rest (walked i) old base m) :
    ∃ m', walkTurn (base + l.brq) (base - old) m i = changeAddress m' (base + aim (.member i)) (base - old) ∧
      Aimed l aim rest (insert (.member i) (walked i)) old base m' := by
  have hg := h.load (p := .head .group) trivial rfl trivial
  have hfg := h.load (p := .head .filterGroup) trivial rfl trivial
  obtain ⟨m₁, hm₁, h₁⟩ := h.change hl (p := .member i) hi rfl (Nat.lt_irrefl i)
  have hg₁ := h₁.load (p := .head .group) trivial rfl (Or.inr trivial)
  have hfg₁ := h₁.load (p := .head .filterGroup) trivial rfl (Or.inr trivial)
  have hmem := h₁.load (p := .member i) hi rfl (Or.inl rfl)
  simp only [Place.off, ← BitVec.add_assoc, hgroup, hfilterGroup] at hg hfg hm₁ hg₁ hfg₁ hmem
  refine ⟨m₁, ?_, h₁⟩
  simp only [walkTurn, hg, hfg, hm₁, hg₁, hfg₁, hmem, ok_bind]

/-- It goes on if it finds the member where it should be. -/
theorem walkTurn_ok (hl : l.Fits) (hgroup : aim (.head .group) = l.group)
    (hfilterGroup : aim (.head .filterGroup) = l.filterGroup) {i : ℕ} (hi : i < l.groupSize.toNat)
    (hmember : aim (.member i) = l.member i) (h : Aimed l aim rest (walked i) old base m) :
    ∃ m', walkTurn (base + l.brq) (base - old) m i = .ok m' ∧ Aimed l aim rest (walked (i + 1)) old base m' := by
  obtain ⟨m₁, hm₁, h₁⟩ := h.walkTurn_eq hl hgroup hfilterGroup hi
  obtain ⟨m₂, hm₂, h₂⟩ := h₁.change hl (p := .field (i + 1) .filter) (Nat.succ_le_of_lt hi) rfl (by
    rintro (heq | hlt)
    · cases heq
    · exact Nat.lt_irrefl i hlt)
  rw [Place.off_filter] at hm₂
  refine ⟨m₂, ?_, h₂.congr fun p t _ ht => walked_succ ht⟩
  rw [hm₁, hmember]
  exact hm₂

end Aimed

/-- The pointers of a ring that is laid out point to what it has. -/
theorem Laid.aimed (h : Laid l x {.head .brq} old base m) :
    Aimed l (fun p => (p.target l).getD 0) m.cells {.head .brq} old base m := by
  refine ⟨h.base_eq, h.length, fun p t hp ht hD => ?_, fun p t hp ht hD => ?_, fun o _ => rfl⟩
  · rw [h.moved p t hp ht hD, ht, Option.getD_some]
  · rw [h.unmoved p t hp ht hD, ht, Option.getD_some]

/-- **`walk_mmap_info` moves every pointer, once.** It starts with the pointer to the ring
where it should be. -/
theorem walkMmapInfo_ok (hl : l.Fits) (hgroup : l.brq + sizeofRingQueue = l.group)
    (h : Laid l x {.head .brq} old base m) :
    ∃ m', walkMmapInfo m = .ok m' ∧ Laid l x Set.univ old base m' := by
  obtain ⟨m₁, hm₁, h₁⟩ := h.aimed.walkMmapInfo_eq hl hgroup rfl rfl
  obtain ⟨m₂, hm₂, h₂⟩ := h₁.walkGroup_eq hl rfl rfl (h.data (.head .groupSize) trivial rfl)
  obtain ⟨m₃, hm₃, h₃⟩ := foldlM_range_inv _ (fun k m' => Aimed l _ m.cells (walked k) old base m') h₂
    fun i hi m' h' => h'.walkTurn_ok hl rfl rfl hi rfl
  refine ⟨m₃, hm₁.trans (hm₂.trans hm₃), h₃.base_eq, h₃.length, fun p hp ht => ?_, fun p t hp ht _ => ?_,
    fun p t _ _ hn => absurd (Set.mem_univ p) hn⟩
  · exact (h₃.cells_data hl hp ht).trans (h.data p hp ht)
  · rw [h₃.moved p t hp ht (mem_walked hp), ht, Option.getD_some]

/-- Without the magic string the ring is laid out anew. -/
theorem buildStatefile_new (hbits : 3 < numBits) (hlen : m.length = (layout true num numBits).lumpsize.toNat)
    (hmagic : m.cells 0 ≠ some .magic) (now : ℤ) :
    buildStatefile num numBits now m =
      m.storeAll (Place.off (layout true num numBits)) (initStores (layout true num numBits) m.base now) := by
  rw [buildStatefile, check_pos hbits, ok_bind]
  simp only [if_neg (not_not.mpr hlen), if_neg hmagic]

/-- With the magic string the ring is taken to be there. -/
theorem buildStatefile_found (hbits : 3 < numBits) (hlen : m.length = (layout true num numBits).lumpsize.toNat)
    (hmagic : m.cells 0 = some .magic) (now : ℤ) :
    buildStatefile num numBits now m =
      m.store (m.base + 8) (.pointer (m.base + (layout true num numBits).brq)) >>= walkMmapInfo := by
  rw [buildStatefile, check_pos hbits, ok_bind]
  simp only [if_neg (not_not.mpr hlen), if_pos hmagic]
  rfl

/-- A restart: the file is mapped at another address, and the ring is there. -/
theorem buildStatefile_restart (hl : (layout true num numBits).Fits) (hbits : 3 < numBits)
    (h : Laid (layout true num numBits) x Set.univ old base m) (base' : Size) (now : ℤ) :
    ∃ m', buildStatefile num numBits now { m with base := base' } = .ok m' ∧
      Laid (layout true num numBits) x Set.univ base base' m' := by
  have hmagic : m.cells 0 = some .magic := h.data (.head .magic) trivial rfl
  obtain ⟨m₁, hm₁, h₁⟩ := (h.remap base').store hl (p := .head .brq) trivial rfl
  rw [insert_empty_eq] at h₁
  obtain ⟨m₂, hm₂, h₂⟩ := walkMmapInfo_ok hl rfl h₁
  refine ⟨m₂, ?_, h₂⟩
  rw [buildStatefile_found hbits (m := { m with base := base' }) h.length hmagic]
  exact (congrArg (· >>= walkMmapInfo) hm₁).trans hm₂

/-! ### A new file -/

/-- What is at a place of a ring laid out at `base`. -/
def Content.cell (l : Layout) (x : Content) (base : Size) (p : Place) : Cell :=
  match p.target l with
  | some t => .pointer (base + t)
  | none => x.data l p

/-- A new ring. -/
def newContent (now : ℤ) : Content := ⟨fun _ _ => 0, 0, now⟩

theorem mem_fieldStores {k : ℕ} {s : Place × Cell} (hk : k ≤ l.groupSize.toNat) (hs : s ∈ fieldStores l k) (now : ℤ) :
    s.1.Valid l ∧ s.2 = (newContent now).cell l base s.1 := by
  simp only [fieldStores, List.mem_cons, List.not_mem_nil, or_false] at hs
  rcases hs with rfl | rfl | rfl <;> exact ⟨hk, rfl⟩

theorem mem_zeroWords {k : ℕ} {s : Place × Cell} (hk : k ≤ l.groupSize.toNat) (hs : s ∈ zeroWords l k) (now : ℤ) :
    s.1.Valid l ∧ s.2 = (newContent now).cell l base s.1 := by
  obtain ⟨j, hj, rfl⟩ := List.mem_map.mp hs
  exact ⟨⟨hk, List.mem_range.mp hj⟩, rfl⟩

/-- `build_bloom_ring` stores what belongs to a new ring, at places of the layout. -/
theorem of_mem_initStores {now : ℤ} {s : Place × Cell} (hs : s ∈ initStores l base now) :
    s.1.Valid l ∧ s.2 = (newContent now).cell l base s.1 := by
  simp only [initStores, List.mem_append, List.mem_flatMap, List.mem_map, List.mem_range] at hs
  rcases hs with (((((hs | hs) | ⟨i, hi, hs⟩) | hs) | ⟨i, hi, rfl⟩) | hs) | ⟨i, hi, hs⟩
  · simp only [List.mem_cons, List.not_mem_nil, or_false] at hs
    rcases hs with rfl | rfl | rfl | rfl | rfl | rfl | rfl | rfl <;> exact ⟨trivial, rfl⟩
  · exact mem_fieldStores (Nat.zero_le _) hs now
  · rcases List.mem_cons.mp hs with rfl | hs
    · exact ⟨hi, rfl⟩
    · exact mem_fieldStores hi hs now
  · obtain rfl := List.mem_singleton.mp hs
    exact ⟨Nat.zero_le _, rfl⟩
  · exact ⟨hi, rfl⟩
  · exact mem_zeroWords (Nat.zero_le _) hs now
  · exact mem_zeroWords hi hs now

/-- It stores to every place of the layout. -/
theorem mem_initStores {now : ℤ} {p : Place} (hp : p.Valid l) :
    (p, (newContent now).cell l base p) ∈ initStores l base now := by
  simp only [initStores, List.mem_append, List.mem_flatMap, List.mem_map, List.mem_range]
  cases p with
  | head h =>
    refine Or.inl (Or.inl (Or.inl (Or.inl (Or.inl (Or.inl ?_)))))
    cases h <;> simp [newContent, Content.cell, Place.target, Content.data]
  | member i => exact Or.inl (Or.inl (Or.inl (Or.inl (Or.inr ⟨i, hp, List.mem_cons_self ..⟩))))
  | field k f =>
    cases k with
    | zero =>
      cases f with
      | filter => exact Or.inl (Or.inl (Or.inl (Or.inr (List.mem_cons_self ..))))
      | bitsize | mask | size =>
        refine Or.inl (Or.inl (Or.inl (Or.inl (Or.inl (Or.inr ?_)))))
        simp [fieldStores, Content.cell, Place.target, Content.data]
    | succ i =>
      cases f with
      | filter => exact Or.inl (Or.inl (Or.inr ⟨i, hp, rfl⟩))
      | bitsize | mask | size =>
        refine Or.inl (Or.inl (Or.inl (Or.inl (Or.inr ⟨i, hp, List.mem_cons_of_mem _ ?_⟩))))
        simp [fieldStores, Content.cell, Place.target, Content.data]
  | word k j =>
    have hword : (Place.word k j, (newContent now).cell l base (.word k j)) ∈ zeroWords l k :=
      List.mem_map.mpr ⟨j, List.mem_range.mpr hp.2, rfl⟩
    cases k with
    | zero => exact Or.inl (Or.inr hword)
    | succ i => exact Or.inr ⟨i, hp.1, hword⟩

/-- A new file in which the ring has been laid out without going outside is large enough for
it. -/
theorem fits_of_initStores {now : ℤ} {m' : Mapped} (hlen : m.length = (layout true num numBits).lumpsize.toNat)
    (h : m.storeAll (Place.off (layout true num numBits)) (initStores (layout true num numBits) m.base now) = .ok m') :
    (layout true num numBits).Fits := by
  have hin : ∀ p : Place, p.Valid (layout true num numBits) →
      p.pos num.toNat (num + 1).toNat (wordsOf numBits).toNat +
        bytes ((newContent now).cell (layout true num numBits) m.base p) ≤ (layout true num numBits).lumpsize.toNat := by
    intro p hp
    rw [← Place.toNat_off hp, ← hlen]
    exact Memory.of_storeAll_eq_ok h _ (mem_initStores hp)
  rw [toNat_lumpsize] at hin
  simp only [headroom, if_true] at hin
  -- the fields of the aggregate are inside, so `num + 1` has not come round to `0`
  have hnum : num.toNat + 1 < 2 ^ 32 := by
    have hfield := hin (.field 0 .bitsize) (Nat.zero_le _)
    simp only [Place.pos, show bytes ((newContent now).cell (layout true num numBits) m.base (.field 0 .bitsize)) = 4 from rfl]
      at hfield
    by_contra hbig
    have hzero : (num + 1).toNat = 0 := by
      have := num.isLt
      rw [BitVec.toNat_add, show (1 : Word).toNat = 1 from rfl]
      omega
    rw [hzero] at hfield
    omega
  refine fits_of_layoutEnd_le hnum ?_
  rw [toNat_lumpsize, layoutEnd]
  simp only [headroom, if_true]
  -- the last word of the last filter is inside, if there is one
  rcases Nat.eq_zero_or_pos (wordsOf numBits).toNat with hw | hw
  · rw [hw]
    omega
  · have hword := hin (.word num.toNat ((wordsOf numBits).toNat - 1)) ⟨Nat.le_refl _, Nat.sub_lt hw Nat.one_pos⟩
    simp only [Place.pos, show bytes ((newContent now).cell (layout true num numBits) m.base
      (.word num.toNat ((wordsOf numBits).toNat - 1))) = 4 from rfl] at hword
    rw [show (num.toNat + 1) * (4 * (wordsOf numBits).toNat) =
      num.toNat * (4 * (wordsOf numBits).toNat) + 4 * (wordsOf numBits).toNat from Nat.succ_mul _ _]
    omega

theorem Content.bytes_cell (l : Layout) (x : Content) (base : Size) (p : Place) : bytes (x.cell l base p) = p.bytes := by
  cases p with
  | head h => cases h <;> rfl
  | member i => rfl
  | field k f => cases f <;> rfl
  | word k j => rfl

/-- The stores are made inside a file of the right size. -/
theorem inside_initStores (hl : l.Fits) {now : ℤ} : ∀ s ∈ initStores l base now,
    (s.1.off l).toNat + bytes s.2 ≤ l.lumpsize.toNat := by
  intro s hs
  obtain ⟨hv, hc⟩ := of_mem_initStores hs
  rw [hc, Content.bytes_cell]
  exact hl.inside s.1 hv

/-- No two of them disagree about a cell. -/
theorem agree_initStores (hl : l.Fits) {now : ℤ} : ∀ s ∈ initStores l base now, ∀ t ∈ initStores l base now,
    s.1.off l = t.1.off l → s.2 = t.2 := by
  intro s hs t ht hoff
  obtain ⟨hvs, hs⟩ := of_mem_initStores hs
  obtain ⟨hvt, ht⟩ := of_mem_initStores ht
  rw [hs, ht, hl.off_inj hvs hvt hoff]

/-- A file of the right size comes to hold a new ring, whatever was in it. -/
theorem storeAll_initStores (hl : l.Fits) (hlen : m.length = l.lumpsize.toNat) (now : ℤ) :
    ∃ m', m.storeAll (Place.off l) (initStores l m.base now) = .ok m' ∧
      Laid l (newContent now) Set.univ m.base m.base m' := by
  obtain ⟨m', hm', hbase, hlen', hcells, -⟩ : ∃ m', m.storeAll (Place.off l) (initStores l m.base now) = .ok m' ∧ _ :=
    Memory.storeAll_ok (fun s hs => (inside_initStores hl s hs).trans_eq hlen.symm) (agree_initStores hl)
  have hcell : ∀ p : Place, p.Valid l → m'.cells (p.off l) = some ((newContent now).cell l m.base p) :=
    fun p hp => hcells _ (mem_initStores hp)
  refine ⟨m', hm', hbase, hlen'.trans hlen, fun p hp ht => ?_, fun p t hp ht _ => ?_,
    fun p t _ _ hn => absurd (Set.mem_univ p) hn⟩
  · rw [hcell p hp, Content.cell, ht]
  · rw [hcell p hp, Content.cell, ht]

/-- A new file comes to hold a new ring. -/
theorem laid_of_buildStatefile {now : ℤ} {m' : Mapped}
    (h : buildStatefile num numBits now (newStatefile num numBits base) = .ok m') :
    3 < numBits ∧ (layout true num numBits).Fits ∧
      Laid (layout true num numBits) (newContent now) Set.univ base base m' := by
  have hlen : (newStatefile num numBits base).length = (layout true num numBits).lumpsize.toNat := rfl
  have hbits : 3 < numBits := by
    by_contra hn
    rw [buildStatefile, check_neg hn] at h
    cases h
  rw [buildStatefile_new hbits hlen (by simp [newStatefile])] at h
  have hl := fits_of_initStores hlen h
  obtain ⟨m₁, hm₁, h₁⟩ := storeAll_initStores hl hlen now
  obtain rfl : m₁ = m' := Except.ok.inj (hm₁.symm.trans h)
  exact ⟨hbits, hl, h₁⟩

/-! ### Stores through the ring -/

/-- A ring laid out where the file is has its pointers in place. -/
theorem Laid.placed (h : Laid l x Set.univ old base m) : Placed l m := by
  have hload : ∀ {p : Place} {t : Size}, p.Valid l → p.target l = some t →
      loadPointer m (m.base + p.off l) = .ok (m.base + t) := by
    intro p t hp ht
    rw [h.base_eq]
    exact h.load hp ht (Set.mem_univ p)
  have hfilter : ∀ k ≤ l.groupSize.toNat, loadPointer m (m.base + l.fields k) = .ok (m.base + l.data k) := by
    intro k hk
    rw [← Place.off_filter]
    exact hload hk rfl
  refine ⟨hload (p := .head .brq) trivial rfl, hload (p := .head .group) trivial rfl, ?_,
    hload (p := .head .filterGroup) trivial rfl, fun i hi => ?_, hfilter 0 (Nat.zero_le _),
    fun i hi => hfilter (i + 1) hi⟩
  · rw [BitVec.add_assoc]
    exact hload (p := .head .aggregate) trivial rfl
  · rw [BitVec.add_assoc]
    exact hload (p := .member i) hi rfl

/-- A word of the ring, read through an address of a place. -/
theorem Laid.word_at (h : Laid l x Set.univ old base m) {p : Place} {w : Word} {a : Size} (ha : a = m.base + p.off l)
    (hp : p.Valid l) (ht : p.target l = none) (hw : x.data l p = .word w) : loadWord m a = .ok w := by
  rw [ha, h.base_eq]
  exact h.load_word hp ht hw

/-- The pointer to a filter. -/
theorem Laid.filterPointer_ok (h : Laid l x Set.univ old base m) {k : ℕ} (hk : k ≤ l.groupSize.toNat) :
    filterPointer m k = .ok (m.base + l.fields k) := by
  have hpl := h.placed
  cases k with
  | zero =>
    rw [filterPointer, hpl.brq, ok_bind]
    exact hpl.aggregate
  | succ i =>
    have hsize : loadWord m (m.base + l.group + 8) = .ok l.groupSize :=
      h.word_at (p := .head .groupSize) (BitVec.add_assoc ..) trivial rfl rfl
    simp only [filterPointer, hpl.brq, hpl.group, hsize, ok_bind, check_pos (show i < l.groupSize.toNat from hk),
      hpl.filterGroup, hpl.member i hk]
    rfl

/-- There is no pointer to a filter that is not there. -/
theorem Laid.le_of_filterPointer (h : Laid l x Set.univ old base m) {k : ℕ} {f : Size} (hf : filterPointer m k = .ok f) :
    k ≤ l.groupSize.toNat := by
  have hpl := h.placed
  cases k with
  | zero => exact Nat.zero_le _
  | succ i =>
    have hsize : loadWord m (m.base + l.group + 8) = .ok l.groupSize :=
      h.word_at (p := .head .groupSize) (BitVec.add_assoc ..) trivial rfl rfl
    by_contra hk
    simp only [filterPointer, hpl.brq, hpl.group, hsize, ok_bind, check_neg (show ¬ i < l.groupSize.toNat from hk),
      error_bind] at hf
    cases hf

/-- What an act does to what is in the file: a restart nothing. -/
def Content.after (x : Content) : Act → Content
  | .storeWord k j w => { x with words := fun k' j' => if k' = k ∧ j' = j then w else x.words k' j' }
  | .setCurrentIndex i => { x with currentIndex := i }
  | .setLastRotate t => { x with lastRotate := t }
  | .restart _ _ => x

/-- The place an act stores to. -/
def Act.place : Act → Option Place
  | .storeWord k j _ => some (.word k j)
  | .setCurrentIndex _ => some (.head .currentIndex)
  | .setLastRotate _ => some (.head .lastRotate)
  | .restart _ _ => none

theorem Content.data_after (l : Layout) (x : Content) {a : Act} {q : Place} (hq : a.place ≠ some q) :
    (x.after a).data l q = x.data l q := by
  cases a with
  | storeWord k j w =>
    cases q with
    | head h => cases h <;> rfl
    | member i => rfl
    | field k' f => cases f <;> rfl
    | word k' j' =>
      have : ¬ (k' = k ∧ j' = j) := fun ⟨hk, hj⟩ => hq (by rw [Act.place, hk, hj])
      simp only [data, after, if_neg this]
  | setCurrentIndex i =>
    cases q with
    | head h => cases h <;> first | rfl | exact absurd rfl hq
    | member i => rfl
    | field k f => cases f <;> rfl
    | word k j => rfl
  | setLastRotate t =>
    cases q with
    | head h => cases h <;> first | rfl | exact absurd rfl hq
    | member i => rfl
    | field k f => cases f <;> rfl
    | word k j => rfl
  | restart base now => rfl

/-- An act that does not fail does to the ring what it should, and leaves it laid out where
the file is. -/
theorem Laid.act_of_ok (hl : (layout true num numBits).Fits) (hbits : 3 < numBits)
    (h : Laid (layout true num numBits) x Set.univ old base m) {a : Act} {m' : Mapped} (ha : act num numBits m a = .ok m') :
    ∃ old' base', Laid (layout true num numBits) (x.after a) Set.univ old' base' m' := by
  cases a with
  | storeWord k j w =>
    obtain ⟨f, hf, ha⟩ := bind_eq_ok ha
    have hk := h.le_of_filterPointer hf
    obtain rfl : m.base + (layout true num numBits).fields k = f := Except.ok.inj ((h.filterPointer_ok hk).symm.trans hf)
    have hsize : loadWord m (m.base + (layout true num numBits).fields k + 16) = .ok (layout true num numBits).size :=
      h.word_at (p := .field k .size) (BitVec.add_assoc ..) hk rfl rfl
    have hdata : loadPointer m (m.base + (layout true num numBits).fields k) =
        .ok (m.base + (layout true num numBits).data k) := by
      rw [← Place.off_filter, h.base_eq]
      exact h.load (p := .field k .filter) hk rfl (Set.mem_univ _)
    rw [hsize, ok_bind] at ha
    by_cases hj : j < (layout true num numBits).size.toNat
    · rw [if_pos hj, hdata, ok_bind, BitVec.add_assoc, h.base_eq] at ha
      obtain ⟨m₁, hm₁, h₁⟩ := h.storeData hl (p := .word k j) (y := x.after (.storeWord k j w)) ⟨hk, hj⟩ rfl
        (fun q hq => x.data_after _ (by simpa [Act.place] using hq.symm)) rfl
      have hcell : (x.after (.storeWord k j w)).data (layout true num numBits) (.word k j) = .word w := by
        simp [Content.data, Content.after]
      rw [hcell] at hm₁
      obtain rfl : m₁ = m' := Except.ok.inj (hm₁.symm.trans ha)
      exact ⟨old, base, h₁⟩
    · rw [if_neg hj] at ha
      cases ha
  | setCurrentIndex i =>
    obtain ⟨b, hb, ha⟩ := bind_eq_ok ha
    obtain rfl : m.base + (layout true num numBits).brq = b := Except.ok.inj (h.placed.brq.symm.trans hb)
    rw [BitVec.add_assoc, h.base_eq] at ha
    obtain ⟨m₁, hm₁, h₁⟩ := h.storeData hl (p := .head .currentIndex) (y := x.after (.setCurrentIndex i)) trivial rfl
      (fun q hq => x.data_after _ (by simpa [Act.place] using hq.symm)) rfl
    obtain rfl : m₁ = m' := Except.ok.inj (hm₁.symm.trans ha)
    exact ⟨old, base, h₁⟩
  | setLastRotate t =>
    simp only [act] at ha
    rw [h.base_eq] at ha
    obtain ⟨m₁, hm₁, h₁⟩ := h.storeData hl (p := .head .lastRotate) (y := x.after (.setLastRotate t)) trivial rfl
      (fun q hq => x.data_after _ (by simpa [Act.place] using hq.symm)) rfl
    obtain rfl : m₁ = m' := Except.ok.inj (hm₁.symm.trans ha)
    exact ⟨old, base, h₁⟩
  | restart base' now =>
    obtain ⟨m₁, hm₁, h₁⟩ := buildStatefile_restart hl hbits h base' now
    obtain rfl : m₁ = m' := Except.ok.inj (hm₁.symm.trans ha)
    exact ⟨base, base', h₁⟩

/-! ### Reading the ring back -/

/-- Filter `k`. -/
def Content.filter (l : Layout) (x : Content) (k : ℕ) : BloomFilter :=
  ⟨(List.range l.size.toNat).map (x.words k), l.bitsize, l.mask, l.size⟩

/-- The ring of a content. -/
def Content.ring (l : Layout) (x : Content) : BloomRingQueue :=
  ⟨⟨(List.range l.groupSize.toNat).map fun i => x.filter l (i + 1), l.groupSize.toNat⟩, x.filter l 0,
    x.currentIndex.toNat⟩

theorem Laid.readFilter_ok (h : Laid l x Set.univ old base m) {k : ℕ} (hk : k ≤ l.groupSize.toNat) :
    readFilter m (m.base + l.fields k) = .ok (x.filter l k) := by
  have hdata : loadPointer m (m.base + l.fields k) = .ok (m.base + l.data k) := by
    rw [← Place.off_filter, h.base_eq]
    exact h.load (p := .field k .filter) hk rfl (Set.mem_univ _)
  have hbitsize : loadWord m (m.base + l.fields k + 8) = .ok l.bitsize :=
    h.word_at (p := .field k .bitsize) (BitVec.add_assoc ..) hk rfl rfl
  have hmask : loadWord m (m.base + l.fields k + 12) = .ok l.mask :=
    h.word_at (p := .field k .mask) (BitVec.add_assoc ..) hk rfl rfl
  have hsize : loadWord m (m.base + l.fields k + 16) = .ok l.size :=
    h.word_at (p := .field k .size) (BitVec.add_assoc ..) hk rfl rfl
  have hwords := mapM_ok (l := List.range l.size.toNat) (g := x.words k)
    (f := fun j => loadWord m (m.base + l.data k + sizeofBase * BitVec.ofNat 64 j))
    fun j hj => h.word_at (p := .word k j) (BitVec.add_assoc ..) ⟨hk, List.mem_range.mp hj⟩ rfl rfl
  simp only [readFilter, hdata, hbitsize, hmask, hsize, hwords, ok_bind]
  rfl

theorem Laid.readRing_ok (h : Laid l x Set.univ old base m) : readRing m = .ok (x.ring l) := by
  have hpl := h.placed
  have hgroupSize : loadWord m (m.base + l.group + 8) = .ok l.groupSize :=
    h.word_at (p := .head .groupSize) (BitVec.add_assoc ..) trivial rfl rfl
  have hcurrent : loadWord m (m.base + l.brq + 16) = .ok x.currentIndex :=
    h.word_at (p := .head .currentIndex) (BitVec.add_assoc ..) trivial rfl rfl
  have hmembers := mapM_ok (l := List.range l.groupSize.toNat) (g := fun i => x.filter l (i + 1))
    (f := fun i => do readFilter m (← filterPointer m (i + 1)))
    fun i hi => by
      have hk : i + 1 ≤ l.groupSize.toNat := List.mem_range.mp hi
      rw [h.filterPointer_ok hk, ok_bind, h.readFilter_ok hk]
  simp only [readRing, hpl.brq, hpl.group, hgroupSize, hmembers, h.filterPointer_ok (Nat.zero_le _),
    h.readFilter_ok (Nat.zero_le _), hcurrent, ok_bind]
  rfl

theorem Laid.loadTime_ok (h : Laid l x Set.univ old base m) : loadTime m (m.base + 24) = .ok x.lastRotate := by
  have hload : m.load (base + 24) = .ok (.time x.lastRotate) :=
    h.load_cell (p := .head .lastRotate) (h.data _ trivial rfl)
  rw [h.base_eq, loadTime, hload]
  rfl

theorem buildBloomRing_newContent (hbits : 3 < numBits) (now : ℤ) :
    buildBloomRing num.toNat numBits = .ok ((newContent now).ring (layout true num numBits)) := by
  let f : BloomFilter := ⟨List.replicate (wordsOf numBits).toNat 0, bitsizeOf numBits,
    (layout true num numBits).mask, wordsOf numBits⟩
  have hzero : zeroBloomFilter f = .ok f := by
    rw [zeroBloomFilter, initBitArray, updateLoop_ok (g := fun _ _ => 0) (by simp [f]) fun _ _ _ _ => rfl, ok_bind]
    refine congrArg (fun a => Except.ok { f with filter := a }) (List.ext_getElem? fun i => ?_)
    rw [getElem?_updated]
    by_cases hi : i < (wordsOf numBits).toNat <;> simp [f, hi]
  have hfilter : ∀ k, (newContent now).filter (layout true num numBits) k = f := by
    intro k
    rw [Content.filter, newContent, List.map_const', List.length_range]
    rfl
  rw [buildBloomRing, check_pos hbits, ok_bind]
  show (do
    let aggregate ← zeroBloomFilter f
    let fs ← (List.range num.toNat).mapM fun _ => zeroBloomFilter f
    return (⟨⟨fs, num.toNat⟩, aggregate, 0⟩ : BloomRingQueue)) = _
  simp only [hzero, ok_bind, mapM_const_ok, Content.ring, hfilter, List.map_const', List.length_range]
  rfl

/-! ### Restarts -/

/-- In every state the file can be in, it holds a ring laid out where the file is. -/
theorem laid_of_run {now : ℤ} {m₀ m : Mapped} {acts : List Act}
    (hbuild : buildStatefile num numBits now (newStatefile num numBits base) = .ok m₀)
    (hrun : acts.foldlM (act num numBits) m₀ = .ok m) :
    3 < numBits ∧ (layout true num numBits).Fits ∧
      ∃ x old base', Laid (layout true num numBits) x Set.univ old base' m := by
  obtain ⟨hbits, hl, h₀⟩ := laid_of_buildStatefile hbuild
  refine ⟨hbits, hl, ?_⟩
  refine foldlM_preserves (fun m => ∃ x old base', Laid (layout true num numBits) x Set.univ old base' m)
    (fun m a m' ⟨x, old, base', h⟩ ha => ?_) ⟨_, _, _, h₀⟩ hrun
  obtain ⟨old', base'', h'⟩ := h.act_of_ok hl hbits ha
  exact ⟨_, old', base'', h'⟩

/-- **After any number of restarts the ring is laid out at the address of the last, and is
the ring it was.** The file is one `create_statefile` made, in any state it has come to
since. -/
theorem relocated {now : ℤ} {m₀ m : Mapped} {acts : List Act}
    (hbuild : buildStatefile num numBits now (newStatefile num numBits base) = .ok m₀)
    (hrun : acts.foldlM (act num numBits) m₀ = .ok m) (restarts : List (Size × ℤ)) :
    ∃ m' ring t, restarts.foldlM (fun m r => act num numBits m (.restart r.1 r.2)) m = .ok m' ∧
      m'.base = (restarts.map Prod.fst).getLastD m.base ∧ Placed (layout true num numBits) m' ∧
      readRing m = .ok ring ∧ readRing m' = .ok ring ∧
      loadTime m (m.base + 24) = .ok t ∧ loadTime m' (m'.base + 24) = .ok t := by
  obtain ⟨hbits, hl, x, old, base', h⟩ := laid_of_run hbuild hrun
  suffices hall : ∃ m' old', restarts.foldlM (fun m r => act num numBits m (.restart r.1 r.2)) m = .ok m' ∧
      Laid (layout true num numBits) x Set.univ old' ((restarts.map Prod.fst).getLastD m.base) m' by
    obtain ⟨m', old', hm', h'⟩ := hall
    exact ⟨m', _, _, hm', h'.base_eq, h'.placed, h.readRing_ok, h'.readRing_ok, h.loadTime_ok, h'.loadTime_ok⟩
  clear hrun
  induction restarts generalizing m old base' with
  | nil => exact ⟨m, old, rfl, by rw [List.map_nil, List.getLastD_nil, h.base_eq]; exact h⟩
  | cons r restarts ih =>
    obtain ⟨m₁, hm₁, h₁⟩ := buildStatefile_restart hl hbits h r.1 r.2
    obtain ⟨m', old', hm', h'⟩ := ih _ _ h₁
    refine ⟨m', old', ?_, ?_⟩
    · rw [List.foldlM_cons]
      exact (congrArg (· >>= _) hm₁).trans hm'
    · rw [List.map_cons, List.getLastD_cons]
      rw [h₁.base_eq] at h'
      exact h'

/-- A ring of one filter of one word: a digest goes in, and the daemon is restarted twice. -/
theorem relocated_twice :
    ∃ m₀ m m' ring, buildStatefile 1 5 1000 (newStatefile 1 5 4096) = .ok m₀ ∧
      [Act.storeWord 0 0 7, .storeWord 1 0 7].foldlM (act 1 5) m₀ = .ok m ∧
      [((8192, 2000) : Size × ℤ), (4096, 3000)].foldlM (fun m r => act 1 5 m (.restart r.1 r.2)) m = .ok m' ∧
      m'.base = 4096 ∧ readRing m = .ok ring ∧ readRing m' = .ok ring := by
  obtain ⟨m, h⟩ : ∃ m, (buildStatefile 1 5 1000 (newStatefile 1 5 4096) >>=
      [Act.storeWord 0 0 7, .storeWord 1 0 7].foldlM (act 1 5)) = .ok m := ⟨_, rfl⟩
  obtain ⟨m₀, hbuild, hrun⟩ := bind_eq_ok h
  obtain ⟨m', ring, -, hm', hbase, -, hring, hring', -⟩ := relocated hbuild hrun [(8192, 2000), (4096, 3000)]
  exact ⟨m₀, m, m', ring, hbuild, hrun, hm', hbase, hring, hring'⟩

end Gross.Bloom
