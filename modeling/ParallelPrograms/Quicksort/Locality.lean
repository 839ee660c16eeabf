import ParallelPrograms.ForkWork
import ParallelPrograms.Quicksort.ParallelNew
import ParallelPrograms.Quicksort.Parallel

namespace ParallelPrograms.Quicksort

variable {α : Type*} {s t : Segment} {a b c : Array α} {i j low high : ℤ}

theorem swapElements_mono (hst : ∀ k ∈ s, k ∈ t) (h : swapElements s a i j = some c) :
    swapElements t a i j = some c := by
  simp only [swapElements, Option.bind_eq_bind, Option.bind_eq_some_iff] at h ⊢
  obtain ⟨x, hx, y, hy, d, hd, hc⟩ := h
  exact ⟨x, read_mono hst hx, y, read_mono hst hy, d, write_mono hst hd, write_mono hst hc⟩

theorem swapElements_congr (hb : s.Fits b) (hcell : ∀ k ∈ s, cell b k = cell a k)
    (h : swapElements s a i j = some c) :
    ∃ d, swapElements s b i j = some d ∧ ∀ k ∈ s, cell d k = cell c k := by
  simp only [swapElements, Option.bind_eq_bind, Option.bind_eq_some_iff] at h ⊢
  obtain ⟨x, hx, y, hy, c₁, hc₁, hc⟩ := h
  obtain ⟨d₁, hd₁, hfits, hcell₁⟩ := write_congr hb hcell hc₁
  obtain ⟨d, hd, -, hcell'⟩ := write_congr hfits hcell₁ hc
  exact ⟨d, ⟨x, (read_congr hcell i).trans hx, y, (read_congr hcell j).trans hy, d₁, hd₁, hd⟩,
    hcell'⟩

variable [LinearOrder α] {pivot : α}

theorem partitionPass_mono (hst : ∀ k ∈ s, k ∈ t) {v w : Array α × ℤ}
    (h : partitionPass s pivot v j = some w) : partitionPass t pivot v j = some w := by
  simp only [partitionPass, Option.bind_eq_bind, Option.bind_eq_some_iff] at h ⊢
  obtain ⟨x, hx, h⟩ := h
  refine ⟨x, read_mono hst hx, ?_⟩
  split_ifs at h ⊢ with hlt
  · obtain ⟨c, hc, hw⟩ := Option.bind_eq_some_iff.mp h
    exact Option.bind_eq_some_iff.mpr ⟨c, swapElements_mono hst hc, hw⟩
  · exact h

/-- A call that stays in its segment does the same if it may go further. -/
theorem partition_mono (hst : ∀ k ∈ s, k ∈ t) {r : Array α × ℤ}
    (h : partition s a low high = some r) : partition t a low high = some r := by
  have hfold : ∀ (l : List ℤ) (pivot : α) (v w : Array α × ℤ),
      l.foldlM (partitionPass s pivot) v = some w →
        l.foldlM (partitionPass t pivot) v = some w := by
    intro l pivot
    induction l with
    | nil => exact fun v w h => h
    | cons j l ih =>
      intro v w h
      rw [List.foldlM_cons, Option.bind_eq_bind, Option.bind_eq_some_iff] at h ⊢
      obtain ⟨u, hu, hrest⟩ := h
      exact ⟨u, partitionPass_mono hst hu, ih u w hrest⟩
  simp only [partition, Option.bind_eq_bind, Option.bind_eq_some_iff] at h ⊢
  obtain ⟨pivot, hpivot, v, hv, b, hb, hr⟩ := h
  exact ⟨pivot, read_mono hst hpivot, v, hfold _ _ _ _ hv, b, swapElements_mono hst hb, hr⟩

theorem partitionPass_congr (hb : s.Fits b) (hcell : ∀ k ∈ s, cell b k = cell a k) {i' : ℤ}
    (h : partitionPass s pivot (a, i) j = some (c, i')) :
    ∃ d, partitionPass s pivot (b, i) j = some (d, i') ∧ ∀ k ∈ s, cell d k = cell c k := by
  simp only [partitionPass, Option.bind_eq_bind, Option.bind_eq_some_iff] at h ⊢
  obtain ⟨x, hx, h⟩ := h
  have hx' := (read_congr hcell j).trans hx
  split_ifs at h with hlt
  · obtain ⟨c₁, hc₁, hc⟩ := Option.bind_eq_some_iff.mp h
    obtain ⟨rfl, rfl⟩ := Prod.mk.inj (Option.some.inj hc)
    obtain ⟨d, hd, hcell'⟩ := swapElements_congr hb hcell hc₁
    exact ⟨d, ⟨x, hx', by rw [if_pos hlt, hd]; rfl⟩, hcell'⟩
  · obtain ⟨rfl, rfl⟩ := Prod.mk.inj (Option.some.inj h)
    exact ⟨b, ⟨x, hx', if_neg hlt⟩, hcell⟩

theorem partitionScheme_local : (partitionScheme : Scheme α (Vars α)).Local where
  start_eq {s a b} hcell := congrArg (Option.map _) (read_congr hcell s.high)
  pass_eq {s a b a' v r} _ hb hcell h := by
    simp only [partitionScheme] at h ⊢
    split_ifs at h ⊢ with hj
    · obtain ⟨⟨c, i'⟩, hc, hr⟩ := Option.map_eq_some_iff.mp h
      obtain ⟨rfl, rfl⟩ := Prod.mk.inj hr
      obtain ⟨d, hd, hcell'⟩ := partitionPass_congr hb hcell hc
      exact ⟨d, Option.map_eq_some_iff.mpr ⟨_, hd, rfl⟩, hcell'⟩
    · obtain ⟨c, hc, hr⟩ := Option.map_eq_some_iff.mp h
      obtain ⟨rfl, rfl⟩ := Prod.mk.inj hr
      obtain ⟨d, hd, hcell'⟩ := swapElements_congr hb hcell hc
      exact ⟨d, Option.map_eq_some_iff.mpr ⟨_, hd, rfl⟩, hcell'⟩

namespace Qs

theorem partitionPass_congr (hb : s.Fits b) (hcell : ∀ k ∈ s, cell b k = cell a k) {key : α}
    {j' : ℤ} (h : partitionPass s key a i j = some (c, j')) :
    ∃ d, partitionPass s key b i j = some (d, j') ∧ ∀ k ∈ s, cell d k = cell c k := by
  simp only [partitionPass, Option.bind_eq_bind, Option.bind_eq_some_iff] at h ⊢
  obtain ⟨x, hx, h⟩ := h
  have hx' := (read_congr hcell i).trans hx
  split_ifs at h with hlt
  · obtain ⟨c₁, hc₁, hc⟩ := Option.bind_eq_some_iff.mp h
    obtain ⟨rfl, rfl⟩ := Prod.mk.inj (Option.some.inj hc)
    obtain ⟨d, hd, hcell'⟩ := swapElements_congr hb hcell hc₁
    refine ⟨d, ⟨x, hx', ?_⟩, hcell'⟩
    rw [if_pos hlt, swap, hd]
    rfl
  · obtain ⟨rfl, rfl⟩ := Prod.mk.inj (Option.some.inj h)
    exact ⟨b, ⟨x, hx', if_neg hlt⟩, hcell⟩

theorem partition_local : (partition : Scheme α (Vars α)).Local where
  start_eq {s a b} hcell := congrArg (Option.map _) (read_congr hcell s.low)
  pass_eq {s a b a' v r} _ hb hcell h := by
    simp only [partition] at h ⊢
    split_ifs at h ⊢ with hi
    · obtain ⟨⟨c, j'⟩, hc, hr⟩ := Option.map_eq_some_iff.mp h
      obtain ⟨rfl, rfl⟩ := Prod.mk.inj hr
      obtain ⟨d, hd, hcell'⟩ := partitionPass_congr hb hcell hc
      exact ⟨d, Option.map_eq_some_iff.mpr ⟨_, hd, rfl⟩, hcell'⟩
    · obtain ⟨c, hc, hr⟩ := Option.map_eq_some_iff.mp h
      obtain ⟨rfl, rfl⟩ := Prod.mk.inj hr
      obtain ⟨d, hd, hcell'⟩ := swapElements_congr hb hcell hc
      exact ⟨d, Option.map_eq_some_iff.mpr ⟨_, hd, rfl⟩, hcell'⟩

end Qs

end ParallelPrograms.Quicksort
