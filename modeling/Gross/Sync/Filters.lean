import Gross.Sync.Stream

/-!
# Sending the filters

`send_filters` goes through the members of the ring word by word. The words are
collected in a `startup_sync_t`, which is sent whenever it is full: after
`FILTER_SIZE` words, or after the whole filter if that is smaller. At the end the
peer is told to rebuild its aggregate.

## The model

`Sending.word` is the body of the inner loop, on a word that has been read. The
ring is read one word at a time, so that a run of the sender can be interleaved
with changes of the ring; `sendFilters` is the run on a ring that stays as it is.

## What is proved

Nothing is written outside the message, and the chunks sent are the members cut
in pieces, each piece padded with zeros (`AtWord.word`, `memberChunks`). So the
chunks fit the ring (`fits_of_mem_memberChunks`), and every bit of a member is in
one of its chunks (`mem_bits_memberChunks`).
-/

namespace Gross.Sync

open Foundation Bloom

/-- The state of `send_filters` inside its loops. -/
structure Sending where
  /-- `msg.filter` -/
  filter : Vector Word 32
  /-- `index` -/
  index : Word
  /-- The chunks that have been sent. -/
  sent : List StartupSync
  deriving DecidableEq

/-- What `send_filters` starts with; `msg.filter` and `index` are set before they are
read. -/
def Sending.start : Sending := ⟨Vector.replicate 32 0, 0, []⟩

/-- The inner loop of `send_filters` at word `j` of member `i`, which is `w`. At the
first word of a member the message and the index are reset. -/
def Sending.word (size : Word) (i j : ℕ) (w : Word) (st : Sending) : Except Fault Sending :=
  let st := if j = 0 then { st with filter := Vector.replicate 32 0, index := 0 } else st
  let k := (BitVec.ofNat 32 j - st.index * filterSize).toNat
  if h : k < 32 then
    let filter := st.filter.set k w
    if BitVec.ofNat 32 j % size = size - 1 then
      .ok ⟨Vector.replicate 32 0, st.index + 1, st.sent ++ [⟨BitVec.ofNat 32 i, st.index, filter⟩]⟩
    else .ok { st with filter := filter }
  else .error .outOfBounds

/-- Word `j` of member `i` of a ring. -/
def readWord (brq : BloomRingQueue) (i j : ℕ) : Except Fault Word := do
  let f ← load brq.group.filterGroup i
  load f.filter j

/-- `min`, of two numbers as `int`s. -/
def minInt (x y : Word) : Word := if x.toInt < y.toInt then x else y

/-- `size` in `send_filters`. -/
def sendSize (brq : BloomRingQueue) : Except Fault Word := do
  let f ← load brq.group.filterGroup 0
  return minInt filterSize f.size

/-- The inner loop for member `i`. -/
def sendMember (brq : BloomRingQueue) (size : Word) (st : Sending) (i : ℕ) : Except Fault Sending := do
  let f ← load brq.group.filterGroup i
  (List.range f.size.toNat).foldlM (fun st j => do st.word size i j (← readWord brq i j)) st

/-- `send_filters`: the chunks it sends. -/
def sendFilters (brq : BloomRingQueue) : Except Fault (List StartupSync) := do
  let size ← sendSize brq
  let st ← (List.range brq.group.groupSize).foldlM (sendMember brq size) Sending.start
  return st.sent

/-! ### The chunks of a member -/

/-- Words, and zeros up to `FILTER_SIZE`. -/
def pad (ws : List Word) : Vector Word 32 := Vector.ofFn fun k => ws[k.val]?.getD 0

/-- Chunk `c` of member `i`, where the chunks have `m` words. -/
def chunkOf (m i c : ℕ) (ws : List Word) : StartupSync :=
  ⟨BitVec.ofNat 32 i, BitVec.ofNat 32 c, pad (slice ws (c * m) m)⟩

/-- The chunks of member `i`, as far as its words `ws` go. -/
def memberChunks (m i : ℕ) (ws : List Word) : List StartupSync :=
  (List.range (ws.length / m)).map fun c => chunkOf m i c ws

theorem pad_nil : pad [] = Vector.replicate 32 0 := by
  ext k hk
  simp [pad]

theorem pad_set (ws : List Word) (w : Word) (h : ws.length < 32) : (pad ws).set ws.length w = pad (ws ++ [w]) := by
  ext k hk
  rw [Vector.getElem_set]
  split_ifs with hkl
  · subst hkl
    simp [pad]
  · by_cases hlt : k < ws.length
    · simp [pad, List.getElem?_append_left hlt]
    · simp [pad, List.getElem?_eq_none (show ws.length ≤ k by omega),
        List.getElem?_eq_none (show (ws ++ [w]).length ≤ k by simp; omega)]

/-- The state of `send_filters` when it has read the words `ws` of member `i`, having
sent the chunks `before` of the members before. -/
structure AtWord (m i : ℕ) (before : List StartupSync) (ws : List Word) (st : Sending) : Prop where
  /-- The chunks that are complete have been sent. -/
  sent : st.sent = before ++ memberChunks m i ws
  /-- The number of the chunk that is being collected. -/
  index : ws ≠ [] → st.index = BitVec.ofNat 32 (ws.length / m)
  /-- The words collected. -/
  filter : ws ≠ [] → st.filter = pad (ws.drop (ws.length / m * m))

theorem atWord_nil (m i : ℕ) (st : Sending) : AtWord m i st.sent [] st :=
  ⟨by simp [memberChunks], fun h => absurd rfl h, fun h => absurd rfl h⟩

theorem chunkOf_append {m i c q : ℕ} {ws : List Word} (w : Word) (hq : q * m ≤ ws.length) (hc : c < q) :
    chunkOf m i c (ws ++ [w]) = chunkOf m i c ws := by
  have hle : (c + 1) * m ≤ q * m := Nat.mul_le_mul_right m hc
  rw [Nat.add_mul, Nat.one_mul] at hle
  rw [chunkOf, chunkOf, slice_append_left (hle.trans hq)]

/-- A word more, after `q` chunks and `k` words: it completes a chunk, or it does not. -/
theorem memberChunks_snoc {m i q k : ℕ} {ws : List Word} (w : Word) (hl : ws.length = q * m + k) (hk : k < m) :
    memberChunks m i (ws ++ [w]) = memberChunks m i ws ++
      if k + 1 = m then [⟨BitVec.ofNat 32 i, BitVec.ofNat 32 q, pad (ws.drop (q * m) ++ [w])⟩] else [] := by
  have hq : ws.length / m = q := by
    rw [hl, Nat.mul_comm, Nat.mul_add_div (by omega), Nat.div_eq_of_lt hk, Nat.add_zero]
  have hsame : ∀ c ∈ List.range q, chunkOf m i c (ws ++ [w]) = chunkOf m i c ws := fun c hc =>
    chunkOf_append w (by omega) (List.mem_range.mp hc)
  rw [memberChunks, memberChunks, List.length_append, List.length_singleton, hq]
  split_ifs with hlast
  · have hq' : (ws.length + 1) / m = q + 1 := by
      rw [hl, Nat.add_assoc, hlast, Nat.add_div_right _ (by omega), Nat.mul_div_cancel _ (by omega)]
    rw [hq', List.range_succ, List.map_append, List.map_congr_left hsame, List.map_singleton]
    -- the chunk that this word completes
    have hlen : (ws.drop (q * m) ++ [w]).length ≤ m := by
      rw [List.length_append, List.length_drop, List.length_singleton]
      omega
    rw [chunkOf, slice, List.drop_append_of_le_length (by omega), List.take_of_length_le hlen]
  · have hq' : (ws.length + 1) / m = q := by
      rw [hl, Nat.add_assoc, Nat.mul_comm, Nat.mul_add_div (by omega), Nat.div_eq_of_lt (by omega), Nat.add_zero]
    rw [hq', List.map_congr_left hsame, List.append_nil]

/-- Once the reset at a first word is done, the message holds what there is of the chunk. -/
theorem AtWord.reset {m i : ℕ} {before : List StartupSync} {ws : List Word} {st : Sending}
    (h : AtWord m i before ws st) : ∃ st₀,
      (if ws.length = 0 then { st with filter := Vector.replicate 32 0, index := 0 } else st) = st₀ ∧
      st₀.sent = before ++ memberChunks m i ws ∧ st₀.index = BitVec.ofNat 32 (ws.length / m) ∧
      st₀.filter = pad (ws.drop (ws.length / m * m)) := by
  refine ⟨_, rfl, ?_⟩
  split_ifs with h0
  · obtain rfl := List.length_eq_zero_iff.mp h0
    exact ⟨h.sent, by simp, by simp [pad_nil]⟩
  · have hne : ws ≠ [] := fun hnil => h0 (by simp [hnil])
    exact ⟨h.sent, h.index hne, h.filter hne⟩

/-- The place of a word in the message. -/
theorem toNat_place {n q k : ℕ} (hn : q * 32 + k = n) (hlt : n < 2 ^ 32) :
    (BitVec.ofNat 32 n - BitVec.ofNat 32 q * filterSize).toNat = k := by
  rw [BitVec.toNat_sub, BitVec.toNat_mul, BitVec.toNat_ofNat, BitVec.toNat_ofNat, toNat_filterSize,
    Nat.mod_eq_of_lt hlt, Nat.mod_eq_of_lt (show q < 2 ^ 32 by omega),
    Nat.mod_eq_of_lt (show q * 32 < 2 ^ 32 by omega)]
  omega

/-- The test for the last word of a chunk. -/
theorem umod_eq_sub_one_iff {n m : ℕ} {size : Word} (hsize : size.toNat = m) (hm : 0 < m) (hlt : n < 2 ^ 32) :
    BitVec.ofNat 32 n % size = size - 1 ↔ n % m + 1 = m := by
  have hm32 : m < 2 ^ 32 := hsize ▸ size.isLt
  rw [← BitVec.toNat_inj, BitVec.toNat_umod, BitVec.toNat_ofNat, hsize, BitVec.toNat_sub, hsize,
    Nat.mod_eq_of_lt hlt, show (1 : Word).toNat = 1 from rfl,
    show 2 ^ 32 - 1 + m = m - 1 + 2 ^ 32 by omega, Nat.add_mod_right, Nat.mod_eq_of_lt (show m - 1 < 2 ^ 32 by omega)]
  omega

/-- **One word**: `send_filters` stays inside its message, and goes on to the next
word. The message holds `FILTER_SIZE` words, or else the whole member. -/
theorem AtWord.word {m i : ℕ} {before : List StartupSync} {ws : List Word} {st : Sending} {size : Word}
    (h : AtWord m i before ws st) (w : Word) (hsize : size.toNat = m) (hm : 0 < m) (hm32 : m ≤ 32)
    (hlen : ws.length < 2 ^ 32) (hwhole : m = 32 ∨ ws.length < m) :
    ∃ st', st.word size i ws.length w = .ok st' ∧ AtWord m i before (ws ++ [w]) st' := by
  obtain ⟨st₀, hst₀, hsent, hindex, hfilter⟩ := h.reset
  have hfull := umod_eq_sub_one_iff hsize hm hlen
  have hl := (Nat.div_add_mod' ws.length m).symm
  have hk := Nat.mod_lt ws.length hm
  have hwhole' : m = 32 ∨ ws.length / m = 0 := hwhole.imp_right Nat.div_eq_of_lt
  generalize ws.length / m = q at *
  generalize ws.length % m = k at *
  have hplace : (BitVec.ofNat 32 ws.length - st₀.index * filterSize).toNat = k := by
    rw [hindex]
    refine toNat_place ?_ hlen
    rcases hwhole' with rfl | rfl <;> omega
  have hset : st₀.filter.set k w (by omega) = pad (ws.drop (q * m) ++ [w]) := by
    have hdrop : (ws.drop (q * m)).length = k := by
      rw [List.length_drop]
      omega
    have hpad := pad_set (ws.drop (q * m)) w (by omega)
    simp only [hdrop] at hpad
    rw [← hpad, hfilter]
  have hlen' : (ws ++ [w]).length = ws.length + 1 := by simp
  simp only [Sending.word, hst₀, hplace, show k < 32 by omega, dif_pos, hset]
  by_cases hlast : k + 1 = m
  · rw [if_pos (hfull.mpr hlast)]
    have hnext : (ws.length + 1) / m = q + 1 := by
      rw [hl, Nat.add_assoc, hlast, Nat.add_div_right _ hm, Nat.mul_div_cancel _ hm]
    refine ⟨_, rfl, ⟨?_, fun _ => ?_, fun _ => ?_⟩⟩
    · rw [memberChunks_snoc w hl hk, if_pos hlast, ← List.append_assoc, ← hsent, ← hindex]
    · rw [hlen', hnext, BitVec.ofNat_add, ← hindex]
      rfl
    · have hnil : (ws ++ [w]).drop ((q + 1) * m) = [] :=
        List.drop_eq_nil_of_le (by rw [hlen', Nat.add_mul]; omega)
      rw [hlen', hnext, hnil, pad_nil]
  · rw [if_neg fun h => hlast (hfull.mp h)]
    have hnext : (ws.length + 1) / m = q := by
      rw [hl, Nat.add_assoc, Nat.mul_comm, Nat.mul_add_div hm, Nat.div_eq_of_lt (by omega), Nat.add_zero]
    refine ⟨_, rfl, ⟨?_, fun _ => ?_, fun _ => ?_⟩⟩
    · rw [memberChunks_snoc w hl hk, if_neg hlast, List.append_nil]
      exact hsent
    · rw [hlen', hnext]
      exact hindex
    · rw [hlen', hnext, List.drop_append_of_le_length (by omega)]

/-! ### What the chunks of a member are -/

/-- A message holds `FILTER_SIZE` words, or else the whole member. -/
theorem chunkLen_cases (nb : ℕ) : chunkLen nb = 32 ∨ 2 ^ (nb - 5) = chunkLen nb := by
  unfold chunkLen
  omega

theorem take_pad {ws : List Word} {m : ℕ} (hws : ws.length = m) (hm : m ≤ 32) : (pad ws).toList.take m = ws := by
  apply List.ext_getElem
  · simp [hws, hm]
  · intro k hk hk'
    simp [pad, hk']

variable {num nb : ℕ} {ws : List Word}

theorem length_slice_chunk {m c : ℕ} (hc : c < ws.length / m) : (slice ws (c * m) m).length = m := by
  refine length_slice ?_
  have hle : (c + 1) * m ≤ ws.length / m * m := Nat.mul_le_mul_right m hc
  rw [Nat.add_mul, Nat.one_mul] at hle
  exact hle.trans (Nat.div_mul_le_self _ _)

/-- The chunks of a member lie inside it. -/
theorem fits_of_mem_memberChunks (hws : ws.length = 2 ^ (nb - 5)) (hnb : nb ≤ 36) {i : ℕ} (hi : i < num)
    (hnum : num ≤ 2 ^ 32) {ss : StartupSync} (hss : ss ∈ memberChunks (chunkLen nb) i ws) :
    ss.Fits num nb ∧ ss.buffer.toNat = i := by
  obtain ⟨c, hc, rfl⟩ := List.mem_map.mp hss
  have hc' : c < ws.length / chunkLen nb := List.mem_range.mp hc
  have hle : (c + 1) * chunkLen nb ≤ 2 ^ (nb - 5) :=
    (Nat.mul_le_mul_right _ hc').trans (hws ▸ Nat.div_mul_le_self _ _)
  have hpos := chunkLen_pos nb
  have hpow : 2 ^ (nb - 5) ≤ 2 ^ 31 := Nat.pow_le_pow_right (by decide) (by omega)
  have hclt : c < 2 ^ 32 := by
    have := Nat.le_mul_of_pos_right (c + 1) hpos
    omega
  have hb : (BitVec.ofNat 32 i).toNat = i := by
    rw [BitVec.toNat_ofNat, Nat.mod_eq_of_lt (by omega)]
  refine ⟨⟨hb.trans_lt hi, ?_⟩, hb⟩
  rw [chunkOf, BitVec.toNat_ofNat, Nat.mod_eq_of_lt hclt, ← Nat.succ_mul]
  exact hle

/-- The bits of a member are those of its chunks. -/
theorem mem_bits_memberChunks (hws : ws.length = 2 ^ (nb - 5)) (hnb : nb ≤ 31) (i n : ℕ) :
    (∃ ss ∈ memberChunks (chunkLen nb) i ws, n ∈ ss.bits nb) ↔ n ∈ bits ws := by
  have hpos := chunkLen_pos nb
  have hpow : 2 ^ (nb - 5) ≤ 2 ^ 31 := Nat.pow_le_pow_right (by decide) (by omega)
  have key : ∀ c, c < ws.length / chunkLen nb → (n ∈ (chunkOf (chunkLen nb) i c ws).bits nb ↔
      ∃ k ∈ bits (slice ws (c * chunkLen nb) (chunkLen nb)), n = 32 * (c * chunkLen nb) + k) := by
    intro c hc
    have hclt : c < 2 ^ 32 := by
      have := Nat.div_le_self ws.length (chunkLen nb)
      omega
    rw [StartupSync.bits, chunkOf, take_pad (length_slice_chunk hc) (chunkLen_le nb), BitVec.toNat_ofNat,
      Nat.mod_eq_of_lt hclt]
    rfl
  constructor
  · rintro ⟨ss, hss, hn⟩
    obtain ⟨c, hc, rfl⟩ := List.mem_map.mp hss
    have hc' : c < ws.length / chunkLen nb := List.mem_range.mp hc
    obtain ⟨k, hk, rfl⟩ := (key c hc').mp hn
    have hlt := lt_of_mem_bits hk
    rw [length_slice_chunk hc'] at hlt
    exact (mem_bits_slice (by decide) (by omega)).mp hk
  · intro hn
    have hlt : n / 32 < ws.length := by
      have := lt_of_mem_bits hn
      omega
    -- the chunk of the bit's word
    have hdvd : ws.length / chunkLen nb * chunkLen nb = ws.length :=
      Nat.div_mul_cancel (hws ▸ chunkLen_dvd nb)
    have hc : n / 32 / chunkLen nb < ws.length / chunkLen nb :=
      Nat.div_lt_of_lt_mul (by rw [Nat.mul_comm, hdvd]; exact hlt)
    have hmod := Nat.div_add_mod' (n / 32) (chunkLen nb)
    have hrem := Nat.mod_lt (n / 32) hpos
    have hn' : n = 32 * (n / 32 / chunkLen nb * chunkLen nb) + (32 * (n / 32 % chunkLen nb) + n % 32) := by omega
    refine ⟨_, List.mem_map.mpr ⟨_, List.mem_range.mpr hc, rfl⟩, (key _ hc).mpr ⟨_, ?_, hn'⟩⟩
    refine (mem_bits_slice (by decide) (by omega)).mpr ?_
    rw [← hn']
    exact hn

/-! ### A ring that stays as it is -/

variable {r : BloomRingQueue}

/-- The words of member `i`. -/
def memberWords (r : BloomRingQueue) (i : ℕ) : List Word := (r.group.filterGroup[i]?.map BloomFilter.filter).getD []

theorem memberWords_eq {i : ℕ} {f : BloomFilter} (hf : r.group.filterGroup[i]? = some f) :
    memberWords r i = f.filter := by
  rw [memberWords, hf]
  rfl

/-- A size of less than 2³¹ words is the same as an `int`. -/
theorem toNat_minInt {n : Word} (h : n.toNat < 2147483648) : (minInt filterSize n).toNat = min 32 n.toNat := by
  have hint : n.toInt = n.toNat := BitVec.toInt_eq_toNat_of_lt (by omega)
  have hfilterSize : filterSize.toInt = 32 := by decide
  rw [minInt, hint, hfilterSize]
  split_ifs with hlt
  · rw [toNat_filterSize]
    omega
  · omega

theorem sendSize_ok (h : r.Sized num (nb - 5)) (hnb : nb ≤ 35) (hnum : 0 < num) :
    ∃ size, sendSize r = .ok size ∧ size.toNat = chunkLen nb := by
  have hlt : 0 < r.group.filterGroup.length := h.length.symm ▸ hnum
  have hsize := h.size _ (List.getElem_mem hlt)
  have hpow : 2 ^ (nb - 5) ≤ 2 ^ 30 := Nat.pow_le_pow_right (by decide) (by omega)
  refine ⟨_, by rw [sendSize, load_lt hlt, ok_bind]; rfl, ?_⟩
  rw [toNat_minInt (by omega), hsize, chunkLen]

/-- The inner loop sends the chunks of its member. -/
theorem sendMember_ok (h : r.Sized num (nb - 5)) {size : Word} (hsize : size.toNat = chunkLen nb) {i : ℕ} (hi : i < num)
    (st : Sending) :
    ∃ st', sendMember r size st i = .ok st' ∧ st'.sent = st.sent ++ memberChunks (chunkLen nb) i (memberWords r i) := by
  obtain ⟨f, hget, hfsize, hwords⟩ := h.member hi
  have hpow := f.size.isLt
  rw [hfsize] at hpow
  obtain ⟨st', hst', hat⟩ := foldlM_range_inv (fun st j => do st.word size i j (← readWord r i j))
    (fun n st' => AtWord (chunkLen nb) i st.sent (f.filter.take n) st') (n := 2 ^ (nb - 5))
    (by simpa using atWord_nil (chunkLen nb) i st) fun n hn st₁ hat => by
      have hn' : n < f.filter.length := hwords.symm ▸ hn
      have hlen : (f.filter.take n).length = n := by simp [hn'.le]
      obtain ⟨st₂, hst₂, hat'⟩ := hat.word f.filter[n] hsize (chunkLen_pos nb) (chunkLen_le nb) (by omega)
        ((chunkLen_cases nb).imp_right fun hc => by omega)
      rw [hlen] at hst₂
      refine ⟨st₂, ?_, ?_⟩
      · simp only [readWord, load_of_getElem? hget, load_lt hn', ok_bind, hst₂]
      · rwa [List.take_succ_eq_append_getElem hn']
  refine ⟨st', ?_, ?_⟩
  · rw [sendMember, load_of_getElem? hget, ok_bind, hfsize]
    exact hst'
  · rw [hat.sent, memberWords_eq hget, List.take_of_length_le hwords.le]

/-- A chunk of all members is one of a member. -/
theorem mem_allChunks (hlen : r.group.filterGroup.length = num) {m : ℕ} {ss : StartupSync}
    (hss : ss ∈ (List.range num).flatMap fun i => memberChunks m i (memberWords r i)) :
    ∃ i < num, ∃ f, r.group.filterGroup[i]? = some f ∧ ss ∈ memberChunks m i f.filter := by
  obtain ⟨i, hi, hss⟩ := List.mem_flatMap.mp hss
  have hi' : i < num := List.mem_range.mp hi
  have hget := List.getElem?_eq_getElem (show i < r.group.filterGroup.length from hlen.symm ▸ hi')
  rw [memberWords_eq hget] at hss
  exact ⟨i, hi', _, hget, hss⟩

/-- The loops of `send_filters` send the chunks of all members. -/
theorem sendMembers_ok (h : r.Sized num (nb - 5)) {size : Word} (hsize : size.toNat = chunkLen nb) :
    ∃ st, (List.range num).foldlM (sendMember r size) Sending.start = .ok st ∧
      st.sent = (List.range num).flatMap fun i => memberChunks (chunkLen nb) i (memberWords r i) := by
  refine foldlM_range_inv (sendMember r size) (fun n st => st.sent =
    (List.range n).flatMap fun i => memberChunks (chunkLen nb) i (memberWords r i)) rfl fun n hn st hsent => ?_
  obtain ⟨st', hst', hsent'⟩ := sendMember_ok h hsize hn st
  refine ⟨st', hst', ?_⟩
  rw [hsent', hsent, List.range_succ, List.flatMap_append, List.flatMap_singleton]

/-- `send_filters` sends the chunks of all members. -/
theorem sendFilters_eq (h : r.Sized num (nb - 5)) (hnb : nb ≤ 35) (hnum : 0 < num) :
    sendFilters r = .ok ((List.range num).flatMap fun i => memberChunks (chunkLen nb) i (memberWords r i)) := by
  obtain ⟨size, hsize, hlen⟩ := sendSize_ok h hnb hnum
  obtain ⟨st, hst, hsent⟩ := sendMembers_ok h hlen
  rw [sendFilters, hsize, ok_bind, h.groupSize, hst, ← hsent]
  rfl

/-- **What `send_filters` sends**: chunks that fit the ring, and for each member those
that hold just its bits. -/
theorem sendFilters_ok (h : r.WF num nb) (hnum : num ≤ 2 ^ 32) :
    ∃ chunks, sendFilters r = .ok chunks ∧ (∀ ss ∈ chunks, ss.Fits num nb) ∧
      ∀ s n, (∃ ss ∈ chunks, ss.buffer.toNat = s ∧ n ∈ ss.bits nb) ↔ n ∈ memberBits r.group.filterGroup s := by
  have hnb : nb ≤ 31 := h.aggregate.hi
  refine ⟨_, sendFilters_eq h.sized (by omega) ((Nat.zero_le _).trans_lt h.current), ?_, fun s n => ?_⟩
  · intro ss hss
    obtain ⟨i, hi, f, hget, hss⟩ := mem_allChunks h.length hss
    have hf := h.getElem?_wf hget
    exact (fits_of_mem_memberChunks hf.length (by have := hf.hi; omega) hi hnum hss).1
  · constructor
    · rintro ⟨ss, hss, hs, hn⟩
      obtain ⟨i, hi, f, hget, hss⟩ := mem_allChunks h.length hss
      have hf := h.getElem?_wf hget
      rw [(fits_of_mem_memberChunks hf.length (by have := hf.hi; omega) hi hnum hss).2] at hs
      subst hs
      exact ⟨f, hget, (mem_bits_memberChunks hf.length hf.hi i n).mp ⟨ss, hss, hn⟩⟩
    · rintro ⟨f, hget, hn⟩
      have hf := h.getElem?_wf hget
      have hs : s < num := h.length ▸ (List.getElem?_eq_some_iff.mp hget).1
      obtain ⟨ss, hss, hbit⟩ := (mem_bits_memberChunks hf.length hf.hi s n).mpr hn
      refine ⟨ss, ?_, (fits_of_mem_memberChunks hf.length (by have := hf.hi; omega) hs hnum hss).2, hbit⟩
      exact List.mem_flatMap.mpr ⟨s, List.mem_range.mpr hs, by rw [memberWords_eq hget]; exact hss⟩

end Gross.Sync
