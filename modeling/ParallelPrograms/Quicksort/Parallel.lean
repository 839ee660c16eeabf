import ParallelPrograms.Quicksort.Sequential

namespace ParallelPrograms.Quicksort

variable {α : Type*} [LinearOrder α]

theorem loopInv_local {s : Segment} {a b : Array α} {pivot : α} {i j : ℤ}
    (h : LoopInv s a pivot i j) (hcell : ∀ k ∈ s, cell b k = cell a k) :
    LoopInv s b pivot i j := by
  obtain ⟨hlow, hlt, hhigh, hpivot, hsmall, hlarge⟩ := h
  refine ⟨hlow, hlt, hhigh, ?_, fun k hk hki => ?_, fun k hk hkj => ?_⟩
  · rwa [hcell s.high ⟨by omega, le_rfl⟩]
  · rw [hcell k ⟨hk, by omega⟩]
    exact hsmall k hk hki
  · rw [hcell k ⟨by omega, by omega⟩]
    exact hlarge k hk hkj

def passesLeft (s : Segment) (v : Vars α) : ℕ := (s.high - v.j).toNat

theorem partitionScheme_start {s : Segment} {a : Array α} (hs : s.Fits a) (hlt : s.low < s.high) :
    ∃ v, partitionScheme.start s a = some v ∧ LoopInv s a v.pivot v.i v.j ∧
      passesLeft s v < s.length := by
  have hhs : s.high ∈ s := ⟨hlt.le, le_rfl⟩
  obtain ⟨pivot, hpivot⟩ := exists_cell hs hhs
  have hstart : partitionScheme.start s a = some ⟨pivot, s.low - 1, s.low⟩ := by
    show (read s a s.high).map _ = _
    rw [read_eq a hhs, hpivot]
    rfl
  refine ⟨_, hstart, loopInv_start hlt.le hpivot, ?_⟩
  simp only [passesLeft, Segment.length]
  omega

theorem partitionScheme_pass {s : Segment} {a : Array α} {v : Vars α} (hs : s.Fits a)
    (h : LoopInv s a v.pivot v.i v.j) : ∃ b r, partitionScheme.pass s a v = some (b, r) ∧
      Rearranges s a b ∧ ((∃ w, r = .inl w ∧ LoopInv s b w.pivot w.i w.j ∧
        passesLeft s w < passesLeft s v) ∨ ∃ index, r = .inr index ∧ Splits s b index) := by
  by_cases hj : v.j ≤ s.high - 1
  · obtain ⟨b, i', hpass, hrearr, hinv, -⟩ := partitionPass_spec (fun k hk => hk) hs h (by omega)
    have hnext : partitionScheme.pass s a v = some (b, .inl ⟨v.pivot, i', v.j + 1⟩) := by
      show (if v.j ≤ s.high - 1 then _ else _) = _
      rw [if_pos hj, hpass]
      rfl
    refine ⟨b, .inl ⟨v.pivot, i', v.j + 1⟩, hnext, hrearr, .inl ⟨_, rfl, hinv, ?_⟩⟩
    simp only [passesLeft]
    omega
  · have hend : v.j = s.high := le_antisymm h.le_high (by omega)
    obtain ⟨b, hswap, hrearr, hparted, -⟩ := finalSwap_spec (fun k hk => hk) hs (hend ▸ h)
    have hlast : partitionScheme.pass s a v = some (b, .inr (v.i + 1)) := by
      show (if v.j ≤ s.high - 1 then _ else _) = _
      rw [if_neg hj, hswap]
      rfl
    exact ⟨b, .inr (v.i + 1), hlast, hrearr, .inr ⟨_, rfl, hparted.splits⟩⟩

def partitionSchemeCorrect : (partitionScheme : Scheme α (Vars α)).Correct where
  Inv s a v := LoopInv s a v.pivot v.i v.j
  remaining := passesLeft
  inv_local := loopInv_local
  start_spec := partitionScheme_start
  pass_spec := partitionScheme_pass

/-- Every schedule of `quicksort_parallel(array, low, high)` ends; until then some call can
go on, the live calls own disjoint parts of the range and none leaves its own; and the
array it ends with is the one `quicksort` leaves. -/
theorem quicksort_parallel_schedules (a : Array α) (low high : ℤ) (hlow : 0 ≤ low)
    (hhigh : high < a.size) :
    (¬ ∃ run : ℕ → Pool α (Vars α), run 0 = launch a ⟨low, high⟩ ∧
      ∀ n, partitionScheme.Step (run n) (run (n + 1))) ∧
    ∀ p, Relation.ReflTransGen partitionScheme.Step (launch a ⟨low, high⟩) p →
      (p.calls = [] ∨ ∃ q, partitionScheme.Step p q) ∧
      (p.calls.Pairwise fun c d => c.range.Disjoint d.range) ∧
      (∀ c ∈ p.calls, ∃ b forked, partitionScheme.advance p.array c = some (b, forked) ∧
        ∀ i ∉ c.range, cell b i = cell p.array i) ∧
      (p.calls = [] → quicksort ⟨low, high⟩ a low high = some p.array) := by
  have hfits : (Segment.mk low high).Fits a := ⟨hlow, hhigh⟩
  have hstart := partitionSchemeCorrect.sound_launch hfits
  refine ⟨hstart.no_infinite_run, fun p hp => ?_⟩
  have hsound := hstart.reach hp
  refine ⟨hsound.progress, hsound.disjoint, fun c hc => ?_, fun hdone => ?_⟩
  · obtain ⟨b, forked, hadvance, hadv⟩ := hsound.advance hc
    exact ⟨b, forked, hadvance, fun i hi => hadv.rearranges.frame hi⟩
  · obtain ⟨b, hb, hab, hsorted⟩ := quicksort_spec (fun k hk => hk) hfits
    rw [hb, hab.eq_of_sorted hfits hsound.rearranges hsorted (hsound.sorted hdone)]

theorem quicksort_parallel_schedules_two :
    ∃ q, partitionScheme.Step (launch #[(2 : ℤ), 1] ⟨0, 1⟩) q := by
  have h := (quicksort_parallel_schedules #[(2 : ℤ), 1] 0 1 (by decide) (by decide)).2 _ .refl
  exact h.1.resolve_left (by simp [launch])

end ParallelPrograms.Quicksort
