import ParallelPrograms.ForkSort

namespace ParallelPrograms.Quicksort

variable {α : Type*}

def swapElements (s : Segment) (a : Array α) (i j : ℤ) : Option (Array α) := do
  let t ← read s a i
  let y ← read s a j
  let a ← write s a i y
  write s a j t

variable [LinearOrder α]

def partitionPass (s : Segment) (pivot : α) (v : Array α × ℤ) (j : ℤ) :
    Option (Array α × ℤ) := do
  let x ← read s v.1 j
  if x < pivot then
    let a ← swapElements s v.1 (v.2 + 1) j
    return (a, v.2 + 1)
  else return v

/-- The array after `partition(array, low, high)` of `quicksort.cpp` and `quicksort_parallel.cpp`,
and the index it returns.  Accesses are made within `s`; there is no result for one outside it. -/
def partition (s : Segment) (a : Array α) (low high : ℤ) : Option (Array α × ℤ) := do
  let pivot ← read s a high
  let v ← (Segment.mk low (high - 1)).positions.foldlM (partitionPass s pivot) (a, low - 1)
  let b ← swapElements s v.1 (v.2 + 1) high
  return (b, v.2 + 1)

theorem partitionPass_index {s : Segment} {pivot : α} {v w : Array α × ℤ} {j : ℤ}
    (h : partitionPass s pivot v j = some w) : v.2 ≤ w.2 ∧ w.2 ≤ v.2 + 1 := by
  simp only [partitionPass, Option.bind_eq_bind, Option.bind_eq_some_iff, Option.pure_def] at h
  obtain ⟨x, -, h⟩ := h
  split_ifs at h
  · simp only [Option.bind_eq_some_iff, Option.some.injEq] at h
    obtain ⟨a, -, rfl⟩ := h
    exact ⟨by simp, le_rfl⟩
  · obtain rfl := Option.some.inj h
    exact ⟨le_rfl, by simp⟩

theorem partition_index {s : Segment} {a b : Array α} {low high index : ℤ} (hlt : low < high)
    (h : partition s a low high = some (b, index)) : low ≤ index ∧ index ≤ high := by
  have hfold : ∀ (l : List ℤ) (pivot : α) (v w : Array α × ℤ),
      l.foldlM (partitionPass s pivot) v = some w → v.2 ≤ w.2 ∧ w.2 ≤ v.2 + l.length := by
    intro l pivot
    induction l with
    | nil =>
      intro v w h
      obtain rfl := Option.some.inj h
      simp
    | cons j l ih =>
      intro v w h
      rw [List.foldlM_cons, Option.bind_eq_bind, Option.bind_eq_some_iff] at h
      obtain ⟨u, hu, h⟩ := h
      have hpass := partitionPass_index hu
      have hrest := ih u w h
      rw [List.length_cons]
      omega
  simp only [partition, Option.bind_eq_bind, Option.bind_eq_some_iff, Option.pure_def,
    Option.some.injEq, Prod.mk.injEq] at h
  obtain ⟨pivot, -, v, hv, b', -, rfl, rfl⟩ := h
  have hbounds := hfold _ _ _ _ hv
  simp only [Segment.positions, Segment.length, List.length_map, List.length_range] at hbounds
  omega

/-- `quicksort(array, low, high)` of `quicksort.cpp`, with accesses within `s`. -/
def quicksort (s : Segment) (a : Array α) (low high : ℤ) : Option (Array α) :=
  if hlt : low < high then
    match h : partition s a low high with
    | none => none
    | some (b, index) => do
      have hindex := partition_index hlt h
      let c ← quicksort s b low (index - 1)
      quicksort s c (index + 1) high
  else some a
termination_by (high + 1 - low).toNat
decreasing_by all_goals omega

structure Vars (α : Type*) where
  pivot : α
  i : ℤ
  j : ℤ

/-- `partition` one pass at a time: `j` runs up to `high - 1`, then the pivot is swapped
into its place and its index returned. -/
def partitionScheme : Scheme α (Vars α) where
  start s a := (read s a s.high).map fun pivot => ⟨pivot, s.low - 1, s.low⟩
  pass s a v :=
    if v.j ≤ s.high - 1 then
      (partitionPass s v.pivot (a, v.i) v.j).map fun r => (r.1, .inl ⟨v.pivot, r.2, v.j + 1⟩)
    else (swapElements s a (v.i + 1) s.high).map fun b => (b, .inr (v.i + 1))

end ParallelPrograms.Quicksort
