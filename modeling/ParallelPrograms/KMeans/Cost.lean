import ParallelPrograms.KMeans.Convergence

namespace ParallelPrograms.KMeans

variable {F : Type} [Field F]

/-- The centroid of the cluster with id `g`, at the index the program uses. -/
def centroidOf (s : State F) (g : ℤ) : List F :=
  (s.clusters[(g - 1).toNat]?).elim [] Cluster.centroid

def squaredDistance (d : ℕ) (u v : List F) : F :=
  ∑ j ∈ Finset.range d, (coord u j - coord v j) ^ 2

def cost (d : ℕ) (s : State F) : F :=
  (s.points.map fun p => squaredDistance d (centroidOf s p.clusterId) p.values).sum

variable {points : List (Point F)} {d : ℕ} {s : State F}

theorem squaredDistance_eq (d : ℕ) (u v : List F) :
    squaredDistance d u v = Centres.sqDist (coords d u) (coords d v) :=
  Finset.sum_range fun j => (coord u j - coord v j) ^ 2

theorem centre_eq_coords (d : ℕ) (s : State F) (g : ℤ) :
    centre d s g = coords d (centroidOf s g) := by
  rw [centre, centroidOf]
  cases s.clusters[(g - 1).toNat]? with
  | none =>
    funext j
    simp [coords, coord]
  | some c => rfl

theorem cost_eq (hdata : s.points.map Point.data = points.map Point.data) :
    cost d s =
      Centres.cost (location points d) (centre d s) (labels points.length s) := by
  have hn : s.points.length = points.length := length_of_data_eq hdata
  have hterm : ∀ i : Fin points.length, ∀ p, s.points[(i : ℕ)]? = some p →
      Centres.sqDist (centre d s (labels points.length s i)) (location points d i) =
        squaredDistance d (centroidOf s p.clusterId) p.values := by
    intro i p hp
    obtain ⟨q, hq, hvalues⟩ := exists_getElem? hdata i
    obtain rfl : p = q := Option.some.inj (hp.symm.trans hq)
    rw [labels_of_getElem? hp, centre_eq_coords, squaredDistance_eq, location, hvalues]
  rw [cost, Centres.cost, ← Fin.sum_univ_fun_getElem]
  refine Fintype.sum_equiv (finCongr hn) _ _ fun i => ?_
  exact (hterm (finCongr hn i) _ (List.getElem?_eq_getElem i.isLt)).symm

theorem eq_of_coords {u v : List F} (hu : u.length = d) (hv : v.length = d)
    (h : coords d u = coords d v) : u = v := by
  rw [← map_coord hu, ← map_coord hv]
  apply List.map_congr_left
  intro j hj
  exact congrFun h ⟨j, List.mem_range.mp hj⟩

theorem centroids_eq {s' : State F} {K : ℤ} (hexact : Exact points d s)
    (hexact' : Exact points d s') (hK : (s.clusters.length : ℤ) = K)
    (hK' : (s'.clusters.length : ℤ) = K)
    (h : ∀ g ∈ Set.Icc 1 K, centre d s' g = centre d s g) :
    s'.clusters.map Cluster.centroid = s.clusters.map Cluster.centroid := by
  have hlen : s'.clusters.length = s.clusters.length := by omega
  apply List.ext_getElem
  · simpa using hlen
  · intro i hi' hi
    rw [List.length_map] at hi' hi
    rw [List.getElem_map, List.getElem_map]
    have hg : ((i : ℤ) + 1) ∈ Set.Icc 1 K := by
      rw [Set.mem_Icc]
      omega
    have hcentre := h _ hg
    rw [centre_eq hi' rfl, centre_eq hi rfl] at hcentre
    exact eq_of_coords (hexact'.centroid_length _ (List.getElem_mem hi'))
      (hexact.centroid_length _ (List.getElem_mem hi)) hcentre

variable [LinearOrder F] [IsStrictOrderedRing F] [ExactMath F] {km : Parameters}

/-- An iteration that follows another one. -/
theorem iterate_cost (hd : km.dimensions = d) (h : Shaped km s ∧ Exact points d s) (t : ℕ) :
    cost d ((KMeans.round d)^[t + 2] s) ≤ cost d ((KMeans.round d)^[t + 1] s) ∧
      (cost d ((KMeans.round d)^[t + 2] s) = cost d ((KMeans.round d)^[t + 1] s) →
        ((KMeans.round d)^[t + 2] s).clusters.map Cluster.centroid =
          ((KMeans.round d)^[t + 1] s).clusters.map Cluster.centroid) := by
  obtain ⟨-, hfirst⟩ := iterate_centres hd h t
  obtain ⟨hexact, hround⟩ := iterate_centres hd h (t + 1)
  obtain ⟨hshaped, -⟩ := iterate_exact hd h (t + 1)
  obtain ⟨hshaped', hexact'⟩ := iterate_exact hd h (t + 2)
  -- the labels of the iteration before are ids, and the new ones are nearer
  have hmem := hfirst.nearest.mem
  rw [cost_eq hexact.data_eq, cost_eq hexact'.data_eq]
  refine ⟨hround.cost_le hmem, fun hcost => ?_⟩
  exact centroids_eq hexact hexact' hshaped.clusters_length hshaped'.clusters_length
    (hround.eq_of_cost_eq hmem hcost.ge)

/-- From the end of the first iteration on no iteration raises the cost, and one that does
not lower it leaves every centroid where it is. -/
theorem run_cost_anti (points : List (Point F)) (K iters : ℤ) (rand : List ℕ)
    (hd : ∀ p ∈ points, p.values.length = d) (hK : 1 ≤ K) (hn : K ≤ points.length)
    {seeded : Seeding F}
    (hseed : seeding ⟨K, iters, points.length, d⟩ points rand = .ok seeded) :
    ∃ r : Run F, run K iters points rand = .ok r ∧
      ∀ (t : ℕ) before after done done', r.history[t]? = some (before, done) →
        r.history[t + 1]? = some (after, done') →
          cost d after ≤ cost d before ∧ (cost d after = cost d before →
            after.clusters.map Cluster.centroid = before.clusters.map Cluster.centroid) := by
  obtain ⟨-, -, hshaped, hexact, hrun⟩ := run_eq hd hK (by omega) hseed
  refine ⟨_, hrun, fun t before after done done' hbefore hafter => ?_⟩
  obtain ⟨rfl, -⟩ := Prod.mk.inj (rounds_getElem hbefore)
  obtain ⟨rfl, -⟩ := Prod.mk.inj (rounds_getElem hafter)
  have hdims : (Parameters.mk K iters points.length d).dimensions = d := rfl
  have hcost := iterate_cost hdims ⟨hshaped, hexact⟩ t
  rw [Function.iterate_succ_apply', Function.iterate_succ_apply'] at hcost
  rw [Function.iterate_succ_apply'] at ⊢
  exact hcost

theorem run_cost_anti_two : ∃ r : Run ℝ, run 1 5 twoPoints [0] = .ok r ∧
    ∀ (t : ℕ) before after done done', r.history[t]? = some (before, done) →
      r.history[t + 1]? = some (after, done') →
        cost 1 after ≤ cost 1 before ∧ (cost 1 after = cost 1 before →
          after.clusters.map Cluster.centroid = before.clusters.map Cluster.centroid) :=
  run_cost_anti twoPoints 1 5 [0] twoPoints_dimensions (by decide) (by decide) rfl

end ParallelPrograms.KMeans
