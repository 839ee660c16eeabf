import ParallelPrograms.Quicksort.Partition

namespace ParallelPrograms.Quicksort

variable {α : Type*} [LinearOrder α] {t : Segment} {a b c d : Array α} {low high m : ℤ}

theorem sorted_of_parts (hsplit : Splits ⟨low, high⟩ b m) (hc : Rearranges ⟨low, m - 1⟩ b c)
    (hcs : Sorted ⟨low, m - 1⟩ c) (hd : Rearranges ⟨m + 1, high⟩ c d)
    (hds : Sorted ⟨m + 1, high⟩ d) : Sorted ⟨low, high⟩ d := by
  have hm := Segment.mem_mk.mp hsplit.1
  have hsplit' : Splits ⟨low, high⟩ d m := by
    apply (hsplit.rearranges hc (.inl fun i hi => ?_)).rearranges hd (.inr fun i hi => ?_)
    all_goals
      rw [Segment.mem_mk] at hi ⊢
      omega
  intro i hi j hj hij
  rw [Segment.mem_mk] at hi hj
  -- both on the left of the split, both on the right, or on different sides
  by_cases hleft : j < m
  · have hi' : i ∈ Segment.mk low (m - 1) := Segment.mem_mk.mpr (by omega)
    have hj' : j ∈ Segment.mk low (m - 1) := Segment.mem_mk.mpr (by omega)
    have hkept : ∀ k < m, cell d k = cell c k := by
      intro k hk
      apply hd.frame
      rw [Segment.mem_mk]
      omega
    intro x hx y hy
    rw [hkept i (by omega)] at hx
    rw [hkept j hleft] at hy
    exact hcs i hi' j hj' hij x hx y hy
  · by_cases hright : m < i
    · exact hds i ⟨hright, hi.2⟩ j (Segment.mem_mk.mpr (by omega)) hij
    · exact hsplit'.inOrder hi hj (by omega) (by omega) hij

/-- A call for a segment rearranges it into order and touches nothing else. -/
theorem quicksort_spec (hst : ∀ k ∈ Segment.mk low high, k ∈ t) (ht : t.Fits a) :
    ∃ b, quicksort t a low high = some b ∧ Rearranges ⟨low, high⟩ a b ∧ Sorted ⟨low, high⟩ b := by
  -- the two calls get shorter ranges, because the index is inside the range
  obtain ⟨n, hn⟩ : ∃ n, (high + 1 - low).toNat = n := ⟨_, rfl⟩
  induction n using Nat.strong_induction_on generalizing a low high with
  | _ n ih =>
  by_cases hlt : low < high
  · obtain ⟨b, m, pivot, -, hpart, hab, hparted, -⟩ :=
      partition_spec (s := ⟨low, high⟩) hst ht hlt.le
    have hsplit := hparted.splits
    have hm := Segment.mem_mk.mp hsplit.1
    simp only at hpart
    have hleft : ∀ k ∈ Segment.mk low (m - 1), k ∈ Segment.mk low high := by
      intro k hk
      rw [Segment.mem_mk] at hk ⊢
      omega
    have hright : ∀ k ∈ Segment.mk (m + 1) high, k ∈ Segment.mk low high := by
      intro k hk
      rw [Segment.mem_mk] at hk ⊢
      omega
    obtain ⟨c, hc, hbc, hcs⟩ := ih _ (by omega) (fun k hk => hst k (hleft k hk))
      ((hab.mono hst).fits ht) rfl
    have hac := hab.trans (hbc.mono hleft)
    obtain ⟨d, hd, hcd, hds⟩ := ih _ (by omega) (fun k hk => hst k (hright k hk))
      ((hac.mono hst).fits ht) rfl
    refine ⟨d, ?_, hac.trans (hcd.mono hright), sorted_of_parts hsplit hbc hcs hcd hds⟩
    rw [quicksort, dif_pos hlt]
    split
    · simp_all
    · next b' m' h =>
      obtain ⟨rfl, rfl⟩ : b = b' ∧ m = m' := by simpa using hpart.symm.trans h
      simp [hc, hd]
  · refine ⟨a, by rw [quicksort, dif_neg hlt], .refl _ a, fun i hi j hj hij => ?_⟩
    rw [Segment.mem_mk] at hi hj
    omega

/-- `quicksort(array, low, high)` never leaves `low, .., high`, changes nothing outside and
leaves a non-decreasing permutation there; called for the whole array it sorts it. -/
theorem quicksort_sorts :
    (∀ (a : Array α) (low high : ℤ), 0 ≤ low → high < a.size →
      ∃ b, quicksort ⟨low, high⟩ a low high = some b ∧ b.size = a.size ∧
        (∀ i, i < low ∨ high < i → cell b i = cell a i) ∧
        (contents ⟨low, high⟩ b).Perm (contents ⟨low, high⟩ a) ∧
        (contents ⟨low, high⟩ b).Pairwise (· ≤ ·)) ∧
    ∀ a : Array α, ∃ b, quicksort (whole a) a 0 (a.size - 1) = some b ∧
      b.toList.Perm a.toList ∧ b.toList.Pairwise (· ≤ ·) := by
  constructor
  · intro a low high hlow hhigh
    have hfits : (Segment.mk low high).Fits a := ⟨hlow, hhigh⟩
    obtain ⟨b, hb, hab, hsorted⟩ := quicksort_spec (fun k hk => hk) hfits
    refine ⟨b, hb, hab.size_eq, fun i hi => hab.frame fun his => ?_, hab.contents_perm,
      hsorted.pairwise⟩
    rw [Segment.mem_mk] at his
    omega
  · intro a
    obtain ⟨b, hb, hab, hsorted⟩ := quicksort_spec (fun k hk => hk) (whole_fits a)
    have hwhole : (⟨0, a.size - 1⟩ : Segment) = whole b := by rw [whole, hab.size_eq]
    refine ⟨b, hb, ?_, ?_⟩
    · rw [← contents_whole b, ← contents_whole a, ← hwhole]
      exact hab.contents_perm
    · rw [← contents_whole b, ← hwhole]
      exact hsorted.pairwise

theorem quicksort_sorts_three : ∃ b, quicksort ⟨1, 2⟩ #[5, 3, (1 : ℤ)] 1 2 = some b ∧
    cell b 0 = some 5 ∧ (contents ⟨1, 2⟩ b).Perm [3, 1] := by
  obtain ⟨b, hb, -, hframe, hperm, -⟩ :=
    quicksort_sorts.1 #[5, 3, (1 : ℤ)] 1 2 (by decide) (by decide)
  exact ⟨b, hb, hframe 0 (by decide), hperm⟩

end ParallelPrograms.Quicksort
