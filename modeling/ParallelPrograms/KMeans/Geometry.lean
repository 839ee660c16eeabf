import Mathlib.Algebra.Order.Pi
import Mathlib.Analysis.Convex.Combination
import ParallelPrograms.KMeans.Bounds
import ParallelPrograms.KMeans.Cost
import ParallelPrograms.KMeans.Padded
import ParallelPrograms.Similarity

namespace ParallelPrograms.KMeans

variable {F : Type}

def Point.mapValues (f : List F → List F) (p : Point F) : Point F :=
  { p with values := f p.values }

def Cluster.mapValues (f : List F → List F) (e : Cluster F) : Cluster F :=
  { e with centroid := f e.centroid, points := e.points.map (Point.mapValues f) }

def State.mapValues (f : List F → List F) (s : State F) : State F :=
  ⟨s.points.map (Point.mapValues f), s.clusters.map (Cluster.mapValues f)⟩

def Seeding.mapValues (f : List F → List F) (s : Seeding F) : Seeding F :=
  { s with
    points := s.points.map (Point.mapValues f), clusters := s.clusters.map (Cluster.mapValues f) }

theorem members_mapValues (f : List F → List F) (points : List (Point F)) (e : Cluster F) :
    members (points.map (Point.mapValues f)) (e.mapValues f) =
      (members points e).map (Point.mapValues f) := by
  rw [members, List.filter_map]
  rfl

theorem ofSeed_mapValues (f : List F → List F) (i : ℤ) (p : Point F) :
    Cluster.ofSeed i (p.mapValues f) = (Cluster.ofSeed i p).map (Cluster.mapValues f) := by
  rw [ofSeed_eq, ofSeed_eq]
  rfl

/-- The seeding loop does not look at the values. -/
theorem seedCluster_mapValues (km : Parameters) (f : List F → List F) (s : Seeding F) (i : ℕ) :
    seedCluster km (s.mapValues f) i = (seedCluster km s i).map (Seeding.mapValues f) := by
  have hupdate : ∀ index : ℕ, update (s.points.map (Point.mapValues f)) index
      (fun p => .ok (p.setCluster i)) =
        (update s.points index fun p => .ok (p.setCluster i)).map
          (List.map (Point.mapValues f)) := by
    intro index
    apply update_map
    exact fun _ => rfl
  rw [seedCluster, seedCluster, map_bind]
  congr 1
  funext v
  simp only [Seeding.mapValues, hupdate, bind_map, map_bind, nth_map, ofSeed_mapValues]
  congr 1
  funext points
  congr 1
  funext p
  congr 1
  funext cluster
  exact congrArg Except.ok (by simp [Seeding.mapValues])

theorem seeding_mapValues (km : Parameters) (f : List F → List F) (points : List (Point F))
    (rand : List ℕ) : seeding km (points.map (Point.mapValues f)) rand =
      (seeding km points rand).map (Seeding.mapValues f) :=
  foldlM_map (seedCluster_mapValues km f) (List.range' 1 km.K.toNat) ⟨[], points, [], rand⟩

variable [Field F] [LinearOrder F] {d : ℕ}

def move (T : Similarity F d) (values : List F) : List F := List.ofFn (T.apply (coords d values))

@[simp] theorem move_length (T : Similarity F d) (values : List F) :
    (move T values).length = d := List.length_ofFn

@[simp] theorem coords_move (T : Similarity F d) (values : List F) :
    coords d (move T values) = T.apply (coords d values) := by
  funext j
  simp [coords, coord, move]

omit [LinearOrder F] in
/-- The centre of a cluster, as a vector. -/
theorem coords_mean (points : List (Point F)) :
    coords d ((List.range d).map (mean points)) =
      (points.length : F)⁻¹ • (points.map fun p => coords d p.values).sum := by
  funext j
  have hsum : (points.map fun p => coords d p.values).sum j =
      (points.map fun p => coord p.values j).sum := by
    refine (map_list_sum (Pi.evalAddMonoidHom (fun _ : Fin d => F) j) _).trans ?_
    rw [List.map_map]
    rfl
  have hmean : coords d ((List.range d).map (mean points)) j = mean points j := by
    simp [coords, coord]
  rw [hmean, mean_eq, Pi.smul_apply, smul_eq_mul, hsum, div_eq_inv_mul]

theorem mean_move [CharZero F] {points : List (Point F)} (hne : points ≠ [])
    (T : Similarity F d) :
    (List.range d).map (mean (points.map (Point.mapValues (move T)))) =
      move T ((List.range d).map (mean points)) := by
  have hvectors : (points.map (Point.mapValues (move T))).map (fun p => coords d p.values) =
      (points.map fun p => coords d p.values).map T.apply := by
    rw [List.map_map, List.map_map]
    apply List.map_congr_left
    intro p _
    exact coords_move T p.values
  have hne' : (points.map fun p => coords d p.values) ≠ [] := by simpa using hne
  have hmean := T.mean_apply hne'
  rw [List.length_map] at hmean
  refine eq_of_coords (by simp) (move_length T _) ?_
  rw [coords_move, coords_mean, coords_mean, hvectors, List.length_map, hmean]

theorem recentered_move [CharZero F] {e : Cluster F} (he : e.centroid.length = d)
    (T : Similarity F d) :
    recentered d (e.mapValues (move T)) = (recentered d e).mapValues (move T) := by
  by_cases hempty : e.points = []
  · have hempty' : (e.mapValues (move T)).points = [] := by
      rw [Cluster.mapValues, hempty, List.map_nil]
    rw [recentered_of_eq_nil hempty, recentered_of_eq_nil hempty']
  · have hempty' : (e.mapValues (move T)).points ≠ [] := by simpa [Cluster.mapValues] using hempty
    have he' : (e.mapValues (move T)).centroid.length = d := move_length T _
    rw [recentered_of_ne_nil he hempty, recentered_of_ne_nil he' hempty', Cluster.mapValues,
      Cluster.mapValues, mean_move hempty]

theorem recenters_move [CharZero F] {clusters : List (Cluster F)}
    (hclusters : ∀ e ∈ clusters, e.centroid.length = d) (moved : List (Point F))
    (T : Similarity F d) :
    ((clusters.map (Cluster.mapValues (move T))).map fun e => recentered d
        { e with points := members (moved.map (Point.mapValues (move T))) e }) =
      (clusters.map fun e => recentered d { e with points := members moved e }).map
        (Cluster.mapValues (move T)) := by
  rw [List.map_map, List.map_map]
  apply List.map_congr_left
  intro e he
  rw [Function.comp_apply, Function.comp_apply, members_mapValues]
  exact recentered_move (e := { e with points := members moved e }) (hclusters e he) T

variable [IsStrictOrderedRing F] [ExactMath F] {points : List (Point F)} {s : State F}

theorem nearest_move (clusters : List (Cluster F)) (p : Point F) (T : Similarity F d) :
    nearest d (clusters.map (Cluster.mapValues (move T))) (p.mapValues (move T)) =
      nearest d clusters p := by
  apply nearest_map
  · exact fun _ => rfl
  · intro e _ f _
    rw [dist_lt_dist, dist_lt_dist]
    simp only [Cluster.mapValues, Point.mapValues, coords_move]
    exact T.sqDist_apply_lt

theorem unchanged_move (s : State F) (T : Similarity F d) :
    unchanged d (s.mapValues (move T)) = unchanged d s := by
  rw [unchanged, unchanged, State.mapValues, List.all_map]
  simp only [Function.comp_def, nearest_move]
  rfl

theorem round_move (h : Exact points d s) (T : Similarity F d) :
    KMeans.round d (s.mapValues (move T)) = (KMeans.round d s).mapValues (move T) := by
  have hpoints : (s.mapValues (move T)).points.map
      (relabel d (s.mapValues (move T)).clusters) =
        (s.points.map (relabel d s.clusters)).map (Point.mapValues (move T)) := by
    rw [State.mapValues, List.map_map, List.map_map]
    apply List.map_congr_left
    intro p _
    show (p.mapValues (move T)).setCluster _ = (p.setCluster _).mapValues (move T)
    rw [nearest_move]
    rfl
  rw [KMeans.round, hpoints]
  exact congrArg (State.mk _) (recenters_move h.centroid_length _ T)

/-- The loops go through the same states, up to the coordinates. -/
theorem rounds_move (h : Exact points d s) (T : Similarity F d) (left : ℕ) :
    rounds d left (s.mapValues (move T)) =
      (rounds d left s).map (Prod.map (State.mapValues (move T)) id) := by
  induction left generalizing s with
  | zero => rw [rounds, rounds, round_move h, unchanged_move, List.map_singleton, Prod.map, id]
  | succ left ih =>
    rw [rounds, rounds, round_move h, unchanged_move, List.map_cons, ih h.round]
    split_ifs <;> rfl

omit [IsStrictOrderedRing F] [ExactMath F] in
theorem exact_move (h : Exact points d s) (T : Similarity F d) :
    Exact (points.map (Point.mapValues (move T))) d (s.mapValues (move T)) where
  data_eq := by
    have hmap : ∀ l : List (Point F), (l.map (Point.mapValues (move T))).map Point.data =
        (l.map Point.data).map (Prod.map id (move T)) := by
      intro l
      rw [List.map_map, List.map_map]
      rfl
    rw [State.mapValues, hmap, hmap, h.data_eq]
  centroid_length c hc := by
    obtain ⟨e, -, rfl⟩ := List.mem_map.mp hc
    exact move_length T _

theorem completed_move {km : Parameters} (hd : km.dimensions = d) (h : Exact points d s)
    (T : Similarity F d) : completed km (s.mapValues (move T)) =
      let r := completed km s
      ⟨r.seeded.mapValues (move T), r.history.map (Prod.map (State.mapValues (move T)) id),
        r.pointsFile, r.clustersFile.map (move T)⟩ := by
  obtain ⟨last, done, hlast, -, hpoints, hclusters⟩ := completed_files hd h
  obtain ⟨last', done', hlast', -, hpoints', hclusters'⟩ := completed_files hd (exact_move h T)
  have hhistory : (completed km (s.mapValues (move T))).history =
      (completed km s).history.map (Prod.map (State.mapValues (move T)) id) := by
    subst hd
    exact rounds_move h T _
  rw [hhistory, List.getLast?_map, hlast] at hlast'
  obtain ⟨rfl, rfl⟩ := Prod.mk.inj (Option.some.inj hlast')
  have hpointsFile : (completed km (s.mapValues (move T))).pointsFile =
      (completed km s).pointsFile := by
    rw [hpoints', hpoints, State.mapValues, List.map_map]
    rfl
  have hclustersFile : (completed km (s.mapValues (move T))).clustersFile =
      (completed km s).clustersFile.map (move T) := by
    rw [hclusters', hclusters, State.mapValues, List.map_map, List.map_map]
    rfl
  show (⟨s.mapValues (move T), (completed km (s.mapValues (move T))).history,
    (completed km (s.mapValues (move T))).pointsFile,
    (completed km (s.mapValues (move T))).clustersFile⟩ : Run F) = _
  rw [hhistory, hpointsFile, hclustersFile]
  rfl

/-- Moved points have the same labels after every iteration, the centroids are moved like them,
empty clusters or not, and the loop stops after the same iteration. -/
theorem run_similar (points : List (Point F)) (T : Similarity F d) (K iters : ℤ) (rand : List ℕ)
    (hd : ∀ p ∈ points, p.values.length = d) :
    run K iters (points.map (Point.mapValues (move T))) rand =
      (run K iters points rand).map fun r =>
        ⟨r.seeded.mapValues (move T), r.history.map (Prod.map (State.mapValues (move T)) id),
          r.pointsFile, r.clustersFile.map (move T)⟩ := by
  have hd' : ∀ p ∈ points.map (Point.mapValues (move T)), p.values.length = d := by
    intro p hp
    obtain ⟨q, -, rfl⟩ := List.mem_map.mp hp
    exact move_length T _
  have hlen : (points.map (Point.mapValues (move T))).length = points.length := List.length_map _
  by_cases hgiven : 1 ≤ K ∧ 0 < points.length
  swap
  · rw [run_outOfRange rand hgiven, run_outOfRange rand (by rwa [hlen])]
    rfl
  obtain ⟨hK, hpos⟩ := hgiven
  have hseed := seeding_mapValues ⟨K, iters, points.length, d⟩ (move T) points rand
  rcases run_cases rand hd hK hpos with ⟨herror, hrun⟩ | ⟨u, hu, -, -, -, hexact, hrun⟩
  · rw [herror] at hseed
    rcases run_cases rand hd' hK (by omega) with ⟨-, hrun'⟩ | ⟨u', hu', -⟩
    · rw [hrun, hrun']
      rfl
    · rw [hlen, hseed] at hu'
      cases hu'
  · rw [hu, ← hlen] at hseed
    obtain ⟨-, -, -, -, hrun'⟩ := run_eq hd' hK (by omega) hseed
    rw [hrun, hrun', hlen]
    have hd'' : (Parameters.mk K iters points.length d).dimensions = d := rfl
    exact congrArg Except.ok (completed_move hd'' hexact T)

theorem run_similar_two :
    let T : Similarity ℝ 1 := .stretch 3 (by norm_num) fun _ => 5
    run 1 5 (twoPoints.map (Point.mapValues (move T))) [0] =
      (run 1 5 twoPoints [0]).map fun r =>
        ⟨r.seeded.mapValues (move T), r.history.map (Prod.map (State.mapValues (move T)) id),
          r.pointsFile, r.clustersFile.map (move T)⟩ :=
  run_similar twoPoints _ 1 5 [0] twoPoints_dimensions

def State.Inside (S : Set (Fin d → F)) (s : State F) : Prop :=
  ∀ c ∈ s.clusters, coords d c.centroid ∈ S

omit [ExactMath F] in
/-- A convex set holds the mean of its vectors. -/
theorem mean_mem {S : Set (Fin d → F)} (hS : Convex F S) {xs : List (Fin d → F)} (hne : xs ≠ [])
    (hxs : ∀ x ∈ xs, x ∈ S) : (xs.length : F)⁻¹ • xs.sum ∈ S := by
  have hlen : (xs.length : F) ≠ 0 := by
    rw [Nat.cast_ne_zero]
    exact (List.length_pos_iff.mpr hne).ne'
  have hweights : ∑ _i : Fin xs.length, (xs.length : F)⁻¹ = 1 := by
    rw [Finset.sum_const, Finset.card_univ, Fintype.card_fin, nsmul_eq_mul, mul_inv_cancel₀ hlen]
  have hsum : xs.sum = ∑ i : Fin xs.length, xs[i] := by
    simp
  rw [hsum, Finset.smul_sum]
  refine hS.sum_mem (fun _ _ => ?_) hweights fun i _ => hxs _ (List.getElem_mem i.isLt)
  exact inv_nonneg.mpr (Nat.cast_nonneg _)

/-- A centre stays where it is or goes to the mean of its points. -/
theorem round_inside {S : Set (Fin d → F)} (hS : Convex F S)
    (hpoints : ∀ p ∈ points, coords d p.values ∈ S) (hexact : Exact points d s)
    (h : s.Inside S) : (KMeans.round d s).Inside S := by
  intro c hc
  obtain ⟨e, he, rfl⟩ := mem_round hc
  let e' : Cluster F := { e with points := members (KMeans.round d s).points e }
  have hlen : e'.centroid.length = d := hexact.centroid_length e he
  by_cases hempty : e'.points = []
  · rw [recentered_of_eq_nil hempty]
    exact h e he
  · rw [recentered_of_ne_nil hlen hempty]
    show coords d ((List.range d).map (mean e'.points)) ∈ S
    rw [coords_mean, ← List.length_map (fun p : Point F => coords d p.values)]
    refine mean_mem hS (by simpa using hempty) fun x hx => ?_
    obtain ⟨p, hp, rfl⟩ := List.mem_map.mp hx
    obtain ⟨q, hq, hvalues⟩ := exists_of_data_eq hexact.round.data_eq (List.mem_of_mem_filter hp)
    rw [← hvalues]
    exact hpoints q hq

/-- No centroid of a run leaves a convex set that holds the points, after no iteration and in no
file, whatever clusters go empty. -/
theorem run_inside {S : Set (Fin d → F)} (hS : Convex F S) (points : List (Point F))
    (K iters : ℤ) (rand : List ℕ) (hd : ∀ p ∈ points, p.values.length = d)
    (hpoints : ∀ p ∈ points, coords d p.values ∈ S) {r : Run F}
    (hrun : run K iters points rand = .ok r) :
    r.seeded.Inside S ∧ (∀ v ∈ r.history, v.1.Inside S) ∧
      ∀ line ∈ r.clustersFile, coords d line ∈ S := by
  by_cases hgiven : 1 ≤ K ∧ 0 < points.length
  swap
  · rw [run_outOfRange rand hgiven] at hrun
    cases hrun
  rcases run_cases rand hd hgiven.1 hgiven.2 with ⟨-, herror⟩ | ⟨u, -, hseeded, -, -, hexact, hok⟩
  · rw [herror] at hrun
    cases hrun
  rw [hok] at hrun
  obtain rfl := Except.ok.inj hrun
  have hstart : State.Inside S ⟨u.points, u.clusters⟩ := by
    intro c hc
    obtain ⟨p, hp, hcentroid⟩ := hseeded.centroid_mem c hc
    rw [hcentroid]
    exact hpoints p hp
  have hhistory : ∀ v ∈ rounds d (iters - 1).toNat ⟨u.points, u.clusters⟩,
      Exact points d v.1 ∧ v.1.Inside S :=
    rounds_invariant (P := fun s => Exact points d s ∧ s.Inside S)
      (fun _ h => ⟨h.1.round, round_inside hS hpoints h.1 h.2⟩) ⟨hexact, hstart⟩ _
  have hdims : (Parameters.mk K iters points.length d).dimensions = d := rfl
  obtain ⟨last, done, hlast, -, -, hfile⟩ := completed_files hdims hexact
  refine ⟨hstart, fun v hv => (hhistory v hv).2, fun line hline => ?_⟩
  rw [hfile] at hline
  obtain ⟨c, hc, rfl⟩ := List.mem_map.mp hline
  exact (hhistory _ (List.mem_of_getLast? hlast)).2 c hc

theorem run_inside_two : ∃ r : Run ℝ, run 1 5 twoPoints [0] = .ok r ∧
    ∀ line ∈ r.clustersFile, coords 1 line ∈ Set.Icc (0 : Fin 1 → ℝ) 1 := by
  have hpoints : ∀ p ∈ twoPoints, coords 1 p.values ∈ Set.Icc (0 : Fin 1 → ℝ) 1 := by
    intro p hp
    simp only [twoPoints, List.mem_cons, List.not_mem_nil, or_false] at hp
    rcases hp with rfl | rfl <;> simp [Pi.le_def, coords, coord]
  have hcases : _ ∧ run 1 5 twoPoints [0] = .error .exhausted ∨ _ :=
    run_cases [0] twoPoints_dimensions (by decide) (by decide)
  rcases hcases with ⟨-, hrun⟩ | ⟨u, -, -, -, -, -, hrun⟩
  · cases hrun
  · exact ⟨_, hrun, (run_inside (convex_Icc 0 1) twoPoints 1 5 [0] twoPoints_dimensions
      hpoints hrun).2.2⟩

end ParallelPrograms.KMeans
