import Mathlib.Algebra.Group.Basic
import ParallelPrograms.KMeans.Partition

namespace ParallelPrograms.KMeans

variable {F : Type} [AddCommMonoid F] [Sub F] [Div F] [NatCast F] [LT F] [DecidableLT F]
  [CMath F] {km : Parameters} {s : State F} {schedules : Schedules}

omit [Div F] [NatCast F] in
theorem parallel_assign (h : Shaped km s) (hvalid : schedules.Valid) (iter : ℕ) :
    parallelFor (assignPoint km s.clusters) (· && ·) true (schedules.assign iter km.totalPoints)
        s.points true =
      .ok (s.points.map (relabel km.dimensions s.clusters), unchanged km.dimensions s) := by
  have hind := assign_independent h.clusters_length h.clusters_pos h.centroid_length
  rw [hind.parallelFor_eq ⟨h.points_length, h.values_length⟩ (hvalid.assign iter km.totalPoints)]
  exact assign_eq h

omit [Sub F] [Div F] [NatCast F] [LT F] [DecidableLT F] [CMath F] in
theorem parallel_sums (hvalid : schedules.Valid) (iter i : ℕ) : Sums fun j (c : Cluster F) =>
    parallelFor (sumPass j) (· + ·) 0 (schedules.sum iter i j c.getSize) c 0 := by
  intro j c hc
  have hloop := (sum_independent hc).parallelFor_eq (e := 0) rfl
    (hvalid.sum iter i j c.getSize) 0
  exact hloop.trans (sequential_sums j c hc)

theorem iterationParallel_eq (h : Shaped km s) (hvalid : schedules.Valid) (iter : ℕ) :
    iterationParallel schedules km iter s =
      .ok (KMeans.round km.dimensions s, unchanged km.dimensions s) :=
  iterationWith_eq h (parallel_assign h hvalid iter) fun i => parallel_sums hvalid iter i

/-- Two iterations that do the same in states of the right shape make the same run. -/
theorem runWith_congr {iter iter' : Parameters → ℕ → State F → Except Stop (State F × Bool)}
    {points : List (Point F)} {K iters : ℤ} {first : Point F} (hK : 1 ≤ K)
    (hfirst : points[0]? = some first)
    (hdims : ∀ p ∈ points, first.values.length ≤ p.values.length)
    (hiter : ∀ i s, Shaped (parameters K iters points first) s →
      iter (parameters K iters points first) i s =
        .ok (KMeans.round first.getDimensions s, unchanged first.getDimensions s))
    (hiter' : ∀ i s, Shaped (parameters K iters points first) s →
      iter' (parameters K iters points first) i s =
        .ok (KMeans.round first.getDimensions s, unchanged first.getDimensions s))
    (rand : List ℕ) : runWith iter K iters points rand = runWith iter' K iters points rand := by
  -- both runs wait for `rand()` in the seeding, or both complete the seeded state
  rcases runWith_cases hK hfirst hdims hiter rand with
    ⟨hrun, hseed⟩ | ⟨s, hseed, -, -, hrun⟩
  · rcases runWith_cases hK hfirst hdims hiter' rand with
      ⟨hrun', -⟩ | ⟨t, hseed', -, -, -⟩
    · rw [hrun, hrun']
    · rw [hseed] at hseed'
      cases hseed'
  · rcases runWith_cases hK hfirst hdims hiter' rand with
      ⟨-, hseed'⟩ | ⟨t, hseed', -, -, hrun'⟩
    · rw [hseed] at hseed'
      cases hseed'
    · obtain rfl : s = t := by simpa [hseed] using hseed'
      rw [hrun, hrun']

/-- Whatever the threads do, the two programs go through the same states, stop in the same
iteration and write the same files. -/
theorem runParallel_eq_run (points : List (Point F)) (K iters : ℤ) (rand : List ℕ) {d : ℕ}
    (hd : ∀ p ∈ points, p.values.length = d) (hK : 1 ≤ K) (hn : K ≤ points.length)
    (hvalid : schedules.Valid) :
    runParallel schedules K iters points rand = run K iters points rand := by
  obtain ⟨first, hfirst⟩ : ∃ first, points[0]? = some first :=
    ⟨_, List.getElem?_eq_getElem (by omega)⟩
  have hdims : ∀ p ∈ points, first.values.length ≤ p.values.length := by
    intro p hp
    rw [hd p hp, hd first (List.mem_of_getElem? hfirst)]
  exact runWith_congr hK hfirst hdims (fun iter _ hs => iterationParallel_eq hs hvalid iter)
    (fun iter _ hs => iteration_eq hs iter) rand

def sixteenThreads : Schedules :=
  ⟨fun _ n => .cyclic 16 n, fun _ _ _ n => .cyclic 16 n⟩

theorem sixteenThreads_valid : sixteenThreads.Valid :=
  ⟨fun _ n => Schedule.cyclic_valid (by decide) n,
    fun _ _ _ n => Schedule.cyclic_valid (by decide) n⟩

theorem runParallel_eq_run_sixteen :
    runParallel sixteenThreads 1 5 twoPoints [0] = run 1 5 twoPoints [0] :=
  runParallel_eq_run twoPoints 1 5 [0] twoPoints_dimensions (by decide) (by decide)
    sixteenThreads_valid

end ParallelPrograms.KMeans
