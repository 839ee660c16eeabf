import ParallelPrograms.Quicksort.Comparisons

namespace ParallelPrograms.Quicksort.Qs

open Scheme Scheme.Correct

variable {α : Type*} [LinearOrder α] {s : Segment} {a : Array α}

def compares (c : Call (Vars α)) : ℕ :=
  match c.stage with
  | .enter => 0
  | .loop v => if v.i ≤ c.range.high then 1 else 0
  | .fork _ => 0

theorem loop_work {v : Vars α} (hs : s.Fits a) (h : LoopInv s a v.key v.i v.j) :
    ∃ b index, Rearranges s a b ∧ PartitionedAt s b v.key index ∧
      ∀ n, partition.Work compares b [⟨s, .fork index⟩] n →
        partition.Work compares a [⟨s, .loop v⟩] (passesLeft s v + n) := by
  obtain ⟨passes, hpasses⟩ : ∃ passes, passesLeft s v = passes := ⟨_, rfl⟩
  induction passes generalizing a v with
  | zero =>
    have hi : ¬ v.i ≤ s.high := by
      simp only [passesLeft] at hpasses
      omega
    have hend : v.i = s.high + 1 := le_antisymm h.le_high (by omega)
    obtain ⟨b, hswap, hrearr, hparted⟩ := finalSwap_spec hs (hend ▸ h)
    have hadvance : partition.advance a ⟨s, .loop v⟩ = some (b, [⟨s, .fork v.j⟩]) := by
      simp only [advance, partition, if_neg hi, hswap]
      rfl
    refine ⟨b, v.j, hrearr, hparted, fun n hn => ?_⟩
    have hwork := Work.single hadvance hn
    simpa only [compares, if_neg hi, Nat.zero_add, Nat.add_zero, hpasses] using hwork
  | succ passes ih =>
    have hi : v.i ≤ s.high := by
      simp only [passesLeft] at hpasses
      omega
    obtain ⟨b, j', hpass, hrearr, hinv, -⟩ := partitionPass_spec hs h hi
    have hadvance : partition.advance a ⟨s, .loop v⟩ =
        some (b, [⟨s, .loop ⟨v.key, v.i + 1, j'⟩⟩]) := by
      simp only [advance, partition, if_pos hi, hpass]
      rfl
    have hnext : passesLeft s ⟨v.key, v.i + 1, j'⟩ = passes := by
      simp only [passesLeft] at hpasses ⊢
      omega
    obtain ⟨c, index, hrearr', hparted, hrest⟩ := ih (hrearr.fits hs) hinv hnext
    refine ⟨c, index, hrearr.trans hrearr', hparted, fun n hn => ?_⟩
    have hwork := Work.single hadvance (hrest n hn)
    simp only [compares, if_pos hi, hnext] at hwork
    rw [hpasses]
    convert hwork using 1
    omega

theorem partition_compares : Compares (partition : Scheme α (Vars α)) compares where
  call {s a} hs hlt := by
    obtain ⟨v, hv, hinv, -⟩ := partition_start hs hlt.le
    obtain ⟨b, index, hrearr, hparted, hrest⟩ := loop_work hs hinv
    refine ⟨b, v.key, index, hrearr, hparted, fun n hn => ?_⟩
    have hadvance : partition.advance a ⟨s, .enter⟩ = some (a, [⟨s, .loop v⟩]) := by
      simp only [advance, if_pos hlt, hv]
      rfl
    have hpasses : passesLeft s v = (s.high - s.low).toNat := by
      obtain ⟨key, -, rfl⟩ := Option.map_eq_some_iff.mp hv
      simp only [passesLeft]
      omega
    have hwork := Work.single hadvance (hrest n hn)
    simpa only [compares, Nat.zero_add, Nat.add_zero, hpasses] using hwork
  enter _ := rfl
  fork _ _ := rfl

/-- Under every schedule of its sections `sort()` makes the same number of comparisons, at least
one for every pair of equal elements and at most one for every pair. -/
theorem sort_comparisons (nos : Array α) : ∃ n,
    (∀ p m, partition.Run compares (sort nos) m p → p.calls = [] → m = n) ∧
      equalPairs (contents ⟨0, lastIndex nos.size⟩ nos) ≤ n ∧
      n ≤ (Segment.mk 0 (lastIndex nos.size)).length.choose 2 ∧
      ∀ values : Finset α, (∀ x ∈ contents ⟨0, lastIndex nos.size⟩ nos, x ∈ values) →
        (Segment.mk 0 (lastIndex nos.size)).length ^ 2 ≤
          values.card * (2 * n + (Segment.mk 0 (lastIndex nos.size)).length) := by
  have hs : (Segment.mk 0 (lastIndex nos.size)).Fits nos := ⟨le_rfl, lastIndex_lt nos.size⟩
  obtain ⟨n, hn⟩ := exists_work compares (enter_live partitionCorrect hs)
  obtain ⟨hpairs, hall⟩ := partition_compares.bounds partitionCorrect hs hn
  refine ⟨n, fun p m hrun hdone => ?_, hpairs, hall, fun values =>
    partition_compares.forced partitionCorrect hs hn⟩
  exact (work_launch partition_local partitionCorrect hs hrun hdone).unique hn

end ParallelPrograms.Quicksort.Qs
