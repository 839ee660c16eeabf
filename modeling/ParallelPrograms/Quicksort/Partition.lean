import ParallelPrograms.Quicksort.Model

namespace ParallelPrograms.Quicksort

variable {α : Type*} {s t : Segment} {a b : Array α}

theorem swapElements_spec (ht : t.Fits a) {i j : ℤ} (hi : i ∈ t) (hj : j ∈ t) :
    ∃ b, swapElements t a i j = some b ∧ b.size = a.size ∧
      ∀ k, cell b k = cell a (Equiv.swap i j k) := by
  obtain ⟨x, hx⟩ := exists_cell ht hi
  obtain ⟨y, hy⟩ := exists_cell ht hj
  have hi0 : 0 ≤ i ∧ i < a.size := ⟨ht.1.trans hi.1, hi.2.trans_lt ht.2⟩
  have hj0 : 0 ≤ j ∧ j < a.size := ⟨ht.1.trans hj.1, hj.2.trans_lt ht.2⟩
  have hsize : (a.setIfInBounds i.toNat y).size = a.size := Array.size_setIfInBounds
  have ht' : t.Fits (a.setIfInBounds i.toNat y) := by
    unfold Segment.Fits
    rw [hsize]
    exact ht
  refine ⟨(a.setIfInBounds i.toNat y).setIfInBounds j.toNat x, ?_, ?_, fun k => ?_⟩
  · simp [swapElements, read_eq, hi, hj, hx, hy, write_eq ht hi, write_eq ht' hj]
  · rw [Array.size_setIfInBounds, hsize]
  · rw [cell_set hj0.1 (by rw [hsize]; exact hj0.2), cell_set hi0.1 hi0.2,
      Equiv.swap_apply_def]
    split_ifs with hkj hki hki
    · rw [← hx, ← hki, hkj]
    · exact hx.symm
    · exact hy.symm
    · rfl

theorem swap_rearranges {i j : ℤ} (hi : i ∈ s) (hj : j ∈ s) (hsize : b.size = a.size)
    (hcell : ∀ k, cell b k = cell a (Equiv.swap i j k)) : Rearranges s a b := by
  refine ⟨hsize, Equiv.swap i j, fun k hk => ?_, hcell⟩
  apply Equiv.swap_apply_of_ne_of_ne
  · rintro rfl
    exact hk hi
  · rintro rfl
    exact hk hj

variable [LinearOrder α] {pivot : α} {i j : ℤ}

/-- Position `m` holds the pivot, all that is smaller is on its left and the rest on its right. -/
structure PartitionedAt (s : Segment) (a : Array α) (pivot : α) (m : ℤ) : Prop where
  mem : m ∈ s
  pivot_mem : pivot ∈ cell a m
  small : ∀ k ∈ s, k < m → ∀ x ∈ cell a k, x < pivot
  large : ∀ k ∈ s, m < k → ∀ x ∈ cell a k, pivot ≤ x

theorem PartitionedAt.splits {m : ℤ} (h : PartitionedAt s a pivot m) : Splits s a m :=
  ⟨h.mem, pivot, h.pivot_mem, fun k hk hkm x hx => (h.small k hk hkm x hx).le, h.large⟩

theorem PartitionedAt.lt_of_mem_contents {m : ℤ} (h : PartitionedAt s a pivot m) :
    ∀ x ∈ contents ⟨s.low, m - 1⟩ a, x < pivot := by
  intro x hx
  obtain ⟨k, hk, hkx⟩ := mem_contents.mp hx
  have hm := h.mem.2
  rw [Segment.mem_mk] at hk
  exact h.small k ⟨hk.1, by omega⟩ (by omega) x hkx

theorem PartitionedAt.le_of_mem_contents {m : ℤ} (h : PartitionedAt s a pivot m) :
    ∀ x ∈ contents ⟨m + 1, s.high⟩ a, pivot ≤ x := by
  intro x hx
  obtain ⟨k, hk, hkx⟩ := mem_contents.mp hx
  have hm := h.mem.1
  rw [Segment.mem_mk] at hk
  exact h.large k ⟨by omega, hk.2⟩ (by omega) x hkx

structure Blocks (first : ℤ) (a : Array α) (pivot : α) (i j : ℤ) : Prop where
  small : ∀ k, first ≤ k → k ≤ i → ∀ x ∈ cell a k, x < pivot
  large : ∀ k, i < k → k < j → ∀ x ∈ cell a k, pivot ≤ x

namespace Blocks

variable {first : ℤ} {x : α}

theorem keep (h : Blocks first a pivot i j) (hx : cell a j = some x) (hxp : pivot ≤ x) :
    Blocks first a pivot i (j + 1) where
  small := h.small
  large k hk hkj y hy := by
    by_cases hk' : k = j
    · rw [hk', hx] at hy
      obtain rfl := Option.some.inj hy
      exact hxp
    · exact h.large k hk (by omega) y hy

theorem gather (h : Blocks first a pivot i j) (hij : i < j) (hx : cell a j = some x)
    (hxp : x < pivot) (hcell : ∀ k, cell b k = cell a (Equiv.swap (i + 1) j k)) :
    Blocks first b pivot (i + 1) (j + 1) where
  small k hk hki y hy := by
    by_cases hk' : k = i + 1
    · rw [hk', hcell, Equiv.swap_apply_left, hx] at hy
      obtain rfl := Option.some.inj hy
      exact hxp
    · rw [hcell, Equiv.swap_apply_of_ne_of_ne hk' (by omega)] at hy
      exact h.small k hk (by omega) y hy
  large k hk hkj y hy := by
    by_cases hk' : k = j
    · rw [hk', hcell, Equiv.swap_apply_right] at hy
      exact h.large (i + 1) (by omega) (by omega) y hy
    · rw [hcell, Equiv.swap_apply_of_ne_of_ne (by omega) hk'] at hy
      exact h.large k (by omega) (by omega) y hy

end Blocks

/-- The elements of `original` from `first` up to pass `j` that are smaller than the pivot
stand at `first, .., i`, in their old order, and nothing has changed from `j` on. -/
structure Gathered (first : ℤ) (original a : Array α) (pivot : α) (i j : ℤ) : Prop where
  small : contents ⟨first, i⟩ a = (contents ⟨first, j - 1⟩ original).filter (· < pivot)
  rest : ∀ k, j ≤ k → cell a k = cell original k

namespace Gathered

variable {first : ℤ} {original : Array α} {x : α}

theorem start (first : ℤ) (a : Array α) (pivot : α) :
    Gathered first a a pivot (first - 1) first where
  small := by simp [contents_nil a (sub_one_lt first)]
  rest _ _ := rfl

theorem keep (h : Gathered first original a pivot i j) (hfirst : first ≤ j)
    (hx : cell a j = some x) (hxp : pivot ≤ x) : Gathered first original a pivot i (j + 1) where
  small := by
    have hxo : cell original j = some x := (h.rest j le_rfl).symm.trans hx
    rw [add_sub_cancel_right, contents_concat hfirst hxo, List.filter_append, h.small]
    simp [hxp]
  rest k hk := h.rest k (by omega)

theorem gather (h : Gathered first original a pivot i j) (hi : first ≤ i + 1) (hij : i < j)
    (hx : cell a j = some x) (hxp : x < pivot)
    (hcell : ∀ k, cell b k = cell a (Equiv.swap (i + 1) j k)) :
    Gathered first original b pivot (i + 1) (j + 1) where
  small := by
    have hxo : cell original j = some x := (h.rest j le_rfl).symm.trans hx
    have hxb : cell b (i + 1) = some x := by rw [hcell, Equiv.swap_apply_left, hx]
    have hblock : contents ⟨first, i⟩ b = contents ⟨first, i⟩ a := by
      apply contents_congr
      intro k hk
      rw [Segment.mem_mk] at hk
      rw [hcell, Equiv.swap_apply_of_ne_of_ne (by omega) (by omega)]
    rw [contents_concat hi hxb, add_sub_cancel_right, add_sub_cancel_right,
      contents_concat (by omega) hxo, List.filter_append, hblock, h.small]
    simp [hxp]
  rest k hk := by
    rw [hcell, Equiv.swap_apply_of_ne_of_ne (by omega) (by omega)]
    exact h.rest k (by omega)

/-- Where the block ends: the number of elements in it. -/
theorem index_eq (h : Gathered first original a pivot i j) (hfits : (Segment.mk first i).Fits a)
    (hi : first ≤ i + 1) :
    i + 1 = first + (contents ⟨first, j - 1⟩ original).countP (· < pivot) := by
  have hlength := contents_length hfits
  rw [h.small, ← List.countP_eq_length_filter] at hlength
  rw [hlength]
  simp only [Segment.length]
  omega

end Gathered

/-- In front of pass `j` the elements up to `i` are smaller than the pivot, those behind
it up to `j` are not, and the pivot is still at the end. -/
structure LoopInv (s : Segment) (a : Array α) (pivot : α) (i j : ℤ) : Prop where
  low_le : s.low ≤ i + 1
  lt : i < j
  le_high : j ≤ s.high
  pivot_mem : pivot ∈ cell a s.high
  small : ∀ k, s.low ≤ k → k ≤ i → ∀ x ∈ cell a k, x < pivot
  large : ∀ k, i < k → k < j → ∀ x ∈ cell a k, pivot ≤ x

theorem loopInv_start (hle : s.low ≤ s.high) (hpivot : pivot ∈ cell a s.high) :
    LoopInv s a pivot (s.low - 1) s.low where
  low_le := by omega
  lt := by omega
  le_high := hle
  pivot_mem := hpivot
  small k hk hk' := by omega
  large k hk hk' := by omega

theorem partitionPass_spec (hst : ∀ k ∈ s, k ∈ t) (ht : t.Fits a)
    (h : LoopInv s a pivot i j) (hj : j < s.high) :
    ∃ b i', partitionPass t pivot (a, i) j = some (b, i') ∧ Rearranges s a b ∧
      LoopInv s b pivot i' (j + 1) ∧ ∀ original, Gathered s.low original a pivot i j →
        Gathered s.low original b pivot i' (j + 1) := by
  have hlow := h.low_le
  have hlt := h.lt
  have hjs : j ∈ s := ⟨by omega, hj.le⟩
  have his : i + 1 ∈ s := ⟨hlow, by omega⟩
  have hblocks : Blocks s.low a pivot i j := ⟨h.small, h.large⟩
  obtain ⟨x, hx⟩ := exists_cell ht (hst j hjs)
  by_cases hxp : x < pivot
  · obtain ⟨b, hb, hsize, hcell⟩ := swapElements_spec ht (hst _ his) (hst _ hjs)
    have hpivot : pivot ∈ cell b s.high := by
      rw [hcell, Equiv.swap_apply_of_ne_of_ne (by omega) (by omega)]
      exact h.pivot_mem
    -- `array[i + 1]`, which is not smaller than the pivot, goes to the end of its part
    have hnext := hblocks.gather hlt hx hxp hcell
    exact ⟨b, i + 1, by simp [partitionPass, read_eq, hst j hjs, hx, hxp, hb],
      swap_rearranges his hjs hsize hcell,
      ⟨by omega, by omega, by omega, hpivot, hnext.small, hnext.large⟩,
      fun original hg => hg.gather hlow hlt hx hxp hcell⟩
  · have hnext := hblocks.keep hx (not_lt.mp hxp)
    exact ⟨a, i, by simp [partitionPass, read_eq, hst j hjs, hx, hxp], .refl s a,
      ⟨hlow, by omega, by omega, h.pivot_mem, hnext.small, hnext.large⟩,
      fun original hg => hg.keep (by omega) hx (not_lt.mp hxp)⟩

/-- The last swap puts the pivot between the two parts and leaves the smaller ones alone. -/
theorem finalSwap_spec (hst : ∀ k ∈ s, k ∈ t) (ht : t.Fits a)
    (h : LoopInv s a pivot i s.high) :
    ∃ b, swapElements t a (i + 1) s.high = some b ∧ Rearranges s a b ∧
      PartitionedAt s b pivot (i + 1) ∧ contents ⟨s.low, i⟩ b = contents ⟨s.low, i⟩ a := by
  have hlow := h.low_le
  have hlt := h.lt
  have his : i + 1 ∈ s := ⟨hlow, by omega⟩
  have hhs : s.high ∈ s := ⟨by omega, le_rfl⟩
  obtain ⟨b, hb, hsize, hcell⟩ := swapElements_spec ht (hst _ his) (hst _ hhs)
  have hblock : ∀ k ≤ i, cell b k = cell a k := by
    intro k hk
    rw [hcell, Equiv.swap_apply_of_ne_of_ne (by omega) (by omega)]
  refine ⟨b, hb, swap_rearranges his hhs hsize hcell, ⟨his, ?_, ?_, ?_⟩,
    contents_congr fun k hk => hblock k hk.2⟩
  · rw [hcell, Equiv.swap_apply_left]
    exact h.pivot_mem
  · intro k hk hki x hx
    rw [hblock k (by omega)] at hx
    exact h.small k hk.1 (by omega) x hx
  · intro k hk hik x hx
    by_cases hk' : k = s.high
    · rw [hk', hcell, Equiv.swap_apply_right] at hx
      exact h.large (i + 1) (by omega) (by omega) x hx
    · rw [hcell, Equiv.swap_apply_of_ne_of_ne (by omega) hk'] at hx
      have hkh := hk.2
      exact h.large k (by omega) (by omega) x hx

theorem loop_spec (hst : ∀ k ∈ s, k ∈ t) (ht : t.Fits a) (h : LoopInv s a pivot i j) :
    ∃ b i', (Segment.mk j (s.high - 1)).positions.foldlM (partitionPass t pivot) (a, i) =
      some (b, i') ∧ Rearranges s a b ∧ LoopInv s b pivot i' s.high ∧
      ∀ original, Gathered s.low original a pivot i j →
        Gathered s.low original b pivot i' s.high := by
  -- induction on the passes that are left
  obtain ⟨n, hn⟩ : ∃ n, (s.high - j).toNat = n := ⟨_, rfl⟩
  have hle := h.le_high
  induction n generalizing a i j with
  | zero =>
    obtain rfl : j = s.high := by omega
    rw [Segment.positions_nil (by omega)]
    exact ⟨a, i, rfl, .refl s a, h, fun original hg => hg⟩
  | succ n ih =>
    obtain ⟨b, i', hpass, hrearr, hinv, hgather⟩ := partitionPass_spec hst ht h (by omega)
    obtain ⟨c, i'', hloop, hrearr', hinv', hgather'⟩ :=
      ih (hrearr.mono hst |>.fits ht) hinv (by omega) hinv.le_high
    rw [Segment.positions_cons (by omega), List.foldlM_cons, hpass]
    exact ⟨c, i'', hloop, hrearr.trans hrearr', hinv',
      fun original hg => hgather' original (hgather original hg)⟩

/-- A call for the segment: where the pivot goes, and what stands in front of it. -/
theorem partition_spec (hst : ∀ k ∈ s, k ∈ t) (ht : t.Fits a) (hle : s.low ≤ s.high) :
    ∃ b m, ∃ pivot ∈ cell a s.high, partition t a s.low s.high = some (b, m) ∧
      Rearranges s a b ∧ PartitionedAt s b pivot m ∧
      m = s.low + (contents ⟨s.low, s.high - 1⟩ a).countP (· < pivot) ∧
      contents ⟨s.low, m - 1⟩ b = (contents ⟨s.low, s.high - 1⟩ a).filter (· < pivot) := by
  have hhs : s.high ∈ t := hst _ ⟨hle, le_rfl⟩
  obtain ⟨pivot, hpivot⟩ := exists_cell ht hhs
  obtain ⟨b, i, hloop, hrearr, hinv, hgather⟩ := loop_spec hst ht (loopInv_start hle hpivot)
  have hb : t.Fits b := (hrearr.mono hst).fits ht
  obtain ⟨c, hswap, hrearr', hparted, hblock⟩ := finalSwap_spec hst hb hinv
  have hgathered := hgather a (.start s.low a pivot)
  have hlow := hst _ ⟨le_rfl, hle⟩
  have hfits : (Segment.mk s.low i).Fits b :=
    ⟨hb.1.trans hlow.1, hinv.lt.trans_le hhs.2 |>.trans hb.2⟩
  refine ⟨c, i + 1, pivot, hpivot, ?_, hrearr.trans hrearr', hparted,
    hgathered.index_eq hfits hinv.low_le, ?_⟩
  · simp [partition, read_eq, hhs, hpivot, hloop, hswap]
  · rw [add_sub_cancel_right, hblock, hgathered.small]

end ParallelPrograms.Quicksort
