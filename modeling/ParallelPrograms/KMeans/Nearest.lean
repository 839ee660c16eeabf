import Mathlib.Analysis.InnerProductSpace.PiL2
import ParallelPrograms.KMeans.Arithmetic

namespace ParallelPrograms.KMeans

noncomputable def euclidean (d : ℕ) (values : List ℝ) : EuclideanSpace ℝ (Fin d) :=
  WithLp.toLp 2 (coords d values)

/-- `abs` of the difference and the root of the sum of squares are both the distance. -/
theorem dist_eq_euclidean (d : ℕ) (u v : List ℝ) :
    dist d u v = Dist.dist (euclidean d u) (euclidean d v) := by
  rw [EuclideanSpace.dist_eq]
  by_cases hd : d = 1
  · subst hd
    rw [dist, if_pos rfl, ExactMath.abs_eq, Fin.sum_univ_one, Real.sqrt_sq dist_nonneg,
      Real.dist_eq]
    rfl
  · have hsum : ∀ j : Fin d, Dist.dist (euclidean d u j) (euclidean d v j) ^ 2 =
        (coord u j - coord v j) ^ 2 := by
      intro j
      rw [Real.dist_eq, sq_abs]
      rfl
    have hsquares : (List.range d).foldl (fun sum j => sum + CMath.pow2 (coord u j - coord v j)) 0 =
        ∑ j : Fin d, (coord u j - coord v j) ^ 2 := by
      simp only [ExactMath.pow2_eq]
      exact foldl_range_add (fun j => (coord u j - coord v j) ^ 2) d
    rw [dist, if_neg hd, hsquares, Finset.sum_congr rfl fun j _ => hsum j]
    rfl

/-- The id that `getNearestClusterId` returns belongs to a centroid at the smallest distance,
and every centroid with a smaller id is farther away. -/
theorem getNearestClusterId_argmin (iters : ℤ) (totalPoints d : ℕ) (clusters : List (Cluster ℝ))
    (p : Point ℝ) (hK : 1 ≤ clusters.length) (hd : ∀ c ∈ clusters, c.centroid.length = d)
    (hid : ∀ i (h : i < clusters.length), clusters[i].clusterId = i + 1)
    (hp : p.values.length = d) :
    ∃ (c : ℕ) (hc : c < clusters.length),
      getNearestClusterId ⟨clusters.length, iters, totalPoints, d⟩ clusters p = .ok (c + 1) ∧
      (∀ i (h : i < clusters.length),
        Dist.dist (euclidean d p.values) (euclidean d clusters[c].centroid) ≤
          Dist.dist (euclidean d p.values) (euclidean d clusters[i].centroid)) ∧
      ∀ i (h : i < c),
        Dist.dist (euclidean d p.values) (euclidean d clusters[c].centroid) <
          Dist.dist (euclidean d p.values) (euclidean d clusters[i].centroid) := by
  obtain ⟨front, c, back, hsplit, hnearest, hfront, hback⟩ := nearest_first (d := d) hK p
  have hlength : front.length < clusters.length := by simp [hsplit]
  have hget : clusters[front.length] = c := by simp [hsplit]
  have hreturn : getNearestClusterId ⟨clusters.length, iters, totalPoints, d⟩ clusters p =
      .ok (front.length + 1) := by
    rw [getNearestClusterId_eq rfl hK (fun c hc => (hd c hc).ge) hp.ge, hnearest, ← hget,
      hid _ hlength]
  simp only [dist_eq_euclidean] at hfront hback
  simp only [dist_comm (euclidean d p.values)]
  have hbefore : ∀ i (h : i < front.length),
      Dist.dist (euclidean d clusters[front.length].centroid) (euclidean d p.values) <
        Dist.dist (euclidean d clusters[i].centroid) (euclidean d p.values) := by
    intro i hi
    have hmem : clusters[i] = front[i] := by simp [hsplit, List.getElem_append_left hi]
    rw [hget, hmem]
    exact hfront _ (List.getElem_mem hi)
  refine ⟨front.length, hlength, hreturn, fun i hi => ?_, hbefore⟩
  rw [hget]
  have hmem : clusters[i] ∈ front ++ c :: back := hsplit ▸ List.getElem_mem hi
  rcases List.mem_append.mp hmem with hmem | hmem
  · exact (hfront _ hmem).le
  · rcases List.mem_cons.mp hmem with heq | hmem
    · rw [heq]
    · exact hback _ hmem

theorem getNearestClusterId_argmin_tie : ∃ (c : ℕ) (_ : c < 2),
    getNearestClusterId ⟨2, 10, 1, 1⟩ [⟨1, [0], []⟩, ⟨2, [2], []⟩] (Point.mk 0 0 [(1 : ℝ)]) =
      .ok (c + 1) := by
  let clusters : List (Cluster ℝ) := [⟨1, [0], []⟩, ⟨2, [2], []⟩]
  have hid : ∀ i (h : i < clusters.length), clusters[i].clusterId = i + 1 := by
    intro i hi
    match i, hi with
    | 0, _ => rfl
    | 1, _ => rfl
  obtain ⟨c, hc, h, -⟩ := getNearestClusterId_argmin 10 1 1 clusters (Point.mk 0 0 [1])
    (by decide) (by simp [clusters]) hid rfl
  exact ⟨c, hc, h⟩

end ParallelPrograms.KMeans
