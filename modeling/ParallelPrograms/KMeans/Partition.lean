import Mathlib.Algebra.BigOperators.Group.List.Basic
import Mathlib.Algebra.Order.Field.Basic
import ParallelPrograms.KMeans.Arithmetic
import ParallelPrograms.KMeans.Seeding

namespace ParallelPrograms.KMeans

variable {F : Type}

/-- The state `after` an iteration that began in the state `before`: every point is in the
cluster it is labelled with and in no other, and empty clusters keep their centroids. -/
structure Labelled (points : List (Point F)) (K : ℤ) (before after : State F) : Prop where
  data_eq : after.points.map Point.data = points.map Point.data
  label_mem : ∀ p ∈ after.points, 1 ≤ p.clusterId ∧ p.clusterId ≤ K
  clusters_length : (after.clusters.length : ℤ) = K
  clusterId_eq : ∀ i (h : i < after.clusters.length), after.clusters[i].clusterId = i + 1
  points_eq : ∀ c ∈ after.clusters,
    c.points = after.points.filter fun p => p.clusterId = c.clusterId
  empty_eq : ∀ i (h : i < after.clusters.length) (h' : i < before.clusters.length),
    after.clusters[i].points = [] → after.clusters[i].centroid = before.clusters[i].centroid

/-- In addition the centroids are the means. -/
structure Partitioned [Field F] (points : List (Point F)) (d : ℕ) (K : ℤ)
    (before after : State F) : Prop extends Labelled points K before after where
  centroid_eq : ∀ c ∈ after.clusters, c.points ≠ [] → c.centroid = (List.range d).map fun j =>
    (c.points.map fun p => coord p.values j).sum / (c.points.length : F)

theorem mean_eq [Field F] (points : List (Point F)) (j : ℕ) :
    mean points j = (points.map fun p => coord p.values j).sum / (points.length : F) := by
  rw [mean, List.sum_eq_foldl, List.foldl_map]

structure Exact (points : List (Point F)) (d : ℕ) (s : State F) : Prop where
  data_eq : s.points.map Point.data = points.map Point.data
  centroid_length : ∀ c ∈ s.clusters, c.centroid.length = d

section Centers

variable [Zero F]

theorem map_coord {d : ℕ} {values : List F} (h : values.length = d) :
    (List.range d).map (coord values) = values := by
  subst h
  apply List.ext_getElem
  · simp
  · intro j hj hj'
    simp [coord, hj']

variable [Add F] [Div F] [NatCast F]

theorem recentered_of_ne_nil {d : ℕ} {c : Cluster F} (hc : c.centroid.length = d)
    (hne : c.points ≠ []) :
    recentered d c = { c with centroid := (List.range d).map (mean c.points) } := by
  rw [recentered, if_neg hne, ← hc, List.drop_length, List.append_nil]

theorem recentered_of_eq_nil {d : ℕ} {c : Cluster F} (hempty : c.points = []) :
    recentered d c = c := by
  rw [recentered, if_pos hempty]

end Centers

section Runs

variable [Zero F] [Add F] [Sub F] [Div F] [NatCast F] [LT F] [DecidableLT F] [CMath F]
  {km : Parameters} {points : List (Point F)} {d : ℕ} {s : State F}

theorem Exact.round (h : Exact points d s) : Exact points d (KMeans.round d s) where
  data_eq := by
    rw [← h.data_eq, KMeans.round, List.map_map]
    rfl
  centroid_length c hc := by
    obtain ⟨e, he, rfl⟩ := mem_round hc
    have hlen := h.centroid_length e he
    rw [recentered_length]
    · exact hlen
    · exact hlen.ge

theorem iterate_exact (hd : km.dimensions = d) (h : Shaped km s ∧ Exact points d s) (t : ℕ) :
    Shaped km ((KMeans.round d)^[t] s) ∧ Exact points d ((KMeans.round d)^[t] s) := by
  subst hd
  induction t with
  | zero => exact h
  | succ t ih =>
    rw [Function.iterate_succ_apply']
    exact ⟨ih.1.round, ih.2.round⟩

theorem labelled_round (hd : km.dimensions = d) (h : Shaped km s) (hexact : Exact points d s) :
    Labelled points km.K s (KMeans.round d s) := by
  subst hd
  have hround := h.round
  refine ⟨hexact.round.data_eq, fun p hp => ?_, hround.clusters_length, hround.clusterId_eq,
    fun c hc => ?_, fun i hi hi' hempty => ?_⟩
  · obtain ⟨i, hi, hlabel⟩ := h.label p hp
    have hK := h.clusters_length
    omega
  · obtain ⟨e, -, rfl⟩ := mem_round hc
    rw [recentered_points, recentered_clusterId]
    rfl
  · simp only [KMeans.round, List.getElem_map, recentered_points] at hempty ⊢
    rw [recentered_of_eq_nil hempty]

theorem rounds_step (hd : km.dimensions = d) (h : Shaped km s) (hexact : Exact points d s)
    {left t : ℕ} {before : State F} {r : State F × Bool}
    (hbefore : (s :: (rounds d left s).map Prod.fst)[t]? = some before)
    (hr : (rounds d left s)[t]? = some r) :
    Shaped km before ∧ Exact points d before ∧ r.1 = KMeans.round d before := by
  have hinv := iterate_exact hd ⟨h, hexact⟩ t
  rw [rounds_before hbefore, rounds_getElem hr]
  exact ⟨hinv.1, hinv.2, rfl⟩

theorem completed_files (hd : km.dimensions = d) (hexact : Exact points d s) :
    ∃ last done, (completed km s).history.getLast? = some (last, done) ∧ Exact points d last ∧
      (completed km s).pointsFile = last.points.map Point.clusterId ∧
      (completed km s).clustersFile = last.clusters.map Cluster.centroid := by
  obtain ⟨⟨last, done⟩, hlast⟩ :
      ∃ r, (rounds km.dimensions (km.iters - 1).toNat s).getLast? = some r :=
    ⟨_, List.getLast?_eq_some_getLast (rounds_ne_nil _ _ _)⟩
  have hlast' : Exact points d last :=
    rounds_invariant (fun _ hs => hd ▸ hs.round) hexact _ _ (List.mem_of_getLast? hlast)
  have hfinal : finalState s (rounds km.dimensions (km.iters - 1).toNat s) = last := by
    rw [finalState, hlast]
    rfl
  refine ⟨last, done, hlast, hlast', ?_, ?_⟩
  · rw [completed, hfinal]
  · rw [completed, hfinal]
    apply List.map_congr_left
    intro c hc
    rw [hd]
    exact map_coord (hlast'.centroid_length c hc)

/-- A run with `K` clusters waits for ever in its seeding or is the pure one. -/
theorem run_cases {K iters : ℤ} (rand : List ℕ) (hd : ∀ p ∈ points, p.values.length = d)
    (hK : 1 ≤ K) (hpos : 0 < points.length) :
    (seeding ⟨K, iters, points.length, d⟩ points rand = .error .exhausted ∧
        run K iters points rand = .error .exhausted) ∨
      ∃ seeded, seeding ⟨K, iters, points.length, d⟩ points rand = .ok seeded ∧
        Seeded points K.toNat seeded ∧
        ((∀ p ∈ points, p.clusterId = 0) → Fresh K.toNat seeded) ∧
        Shaped ⟨K, iters, points.length, d⟩ ⟨seeded.points, seeded.clusters⟩ ∧
        Exact points d ⟨seeded.points, seeded.clusters⟩ ∧
        run K iters points rand =
          .ok (completed ⟨K, iters, points.length, d⟩ ⟨seeded.points, seeded.clusters⟩) := by
  obtain ⟨first, hfirst⟩ : ∃ first, points[0]? = some first :=
    ⟨_, List.getElem?_eq_getElem hpos⟩
  have hfirstd : first.getDimensions = d := hd first (List.mem_of_getElem? hfirst)
  have hparam : parameters K iters points first = ⟨K, iters, points.length, d⟩ := by
    rw [parameters, hfirstd]
  have hiteration : ∀ (iter : ℕ) (s : State F), Shaped (parameters K iters points first) s →
      iteration (parameters K iters points first) iter s =
        .ok (KMeans.round first.getDimensions s, unchanged first.getDimensions s) :=
    fun iter s hs => iteration_eq hs iter
  have hdims : ∀ p ∈ points, first.values.length ≤ p.values.length :=
    fun p hp => hfirstd.le.trans (hd p hp).ge
  rcases runWith_cases hK hfirst hdims hiteration rand with
    ⟨hrun, herror⟩ | ⟨s, hs, hseeded, hfresh, hrun⟩
  · rw [hparam] at herror
    exact .inl ⟨herror, hrun⟩
  · rw [hparam] at hs hrun
    refine .inr ⟨s, hs, hseeded, hfresh, hseeded.shaped hK rfl (fun p hp => (hd p hp).ge),
      ⟨hseeded.data_eq, fun c hc => ?_⟩, hrun⟩
    obtain ⟨p, hp, hvalues⟩ := hseeded.centroid_mem c hc
    rw [hvalues]
    exact hd p hp

theorem run_eq {K iters : ℤ} {rand : List ℕ} {seeded : Seeding F}
    (hd : ∀ p ∈ points, p.values.length = d) (hK : 1 ≤ K) (hpos : 0 < points.length)
    (hseed : seeding ⟨K, iters, points.length, d⟩ points rand = .ok seeded) :
    Seeded points K.toNat seeded ∧ ((∀ p ∈ points, p.clusterId = 0) → Fresh K.toNat seeded) ∧
      Shaped ⟨K, iters, points.length, d⟩ ⟨seeded.points, seeded.clusters⟩ ∧
      Exact points d ⟨seeded.points, seeded.clusters⟩ ∧
      run K iters points rand =
        .ok (completed ⟨K, iters, points.length, d⟩ ⟨seeded.points, seeded.clusters⟩) := by
  rcases run_cases rand hd hK hpos with ⟨herror, -⟩ | ⟨s, hs, hrest⟩
  · rw [hseed] at herror
    cases herror
  · obtain rfl : seeded = s := by simpa using hseed.symm.trans hs
    exact hrest

/-- At the end of every iteration each point is in the cluster of its label, whatever the
arithmetic and whichever exit is taken, and the files are written from the last of these states. -/
theorem run_labels (points : List (Point F)) (K iters : ℤ) (rand : List ℕ)
    (hd : ∀ p ∈ points, p.values.length = d) (hK : 1 ≤ K) (hn : K ≤ points.length)
    {seeded : Seeding F}
    (hseed : seeding ⟨K, iters, points.length, d⟩ points rand = .ok seeded) :
    ∃ r : Run F, run K iters points rand = .ok r ∧
      r.seeded = ⟨seeded.points, seeded.clusters⟩ ∧
      (∀ (t : ℕ) before after done, (r.seeded :: r.history.map Prod.fst)[t]? = some before →
        r.history[t]? = some (after, done) →
        Labelled points K before after ∧ Exact points d before ∧ after = KMeans.round d before) ∧
      ∃ last done, r.history.getLast? = some (last, done) ∧
        r.pointsFile = last.points.map Point.clusterId ∧
        r.clustersFile = last.clusters.map Cluster.centroid := by
  obtain ⟨-, -, hshaped, hexact, hrun⟩ := run_eq hd hK (by omega) hseed
  have hdims : (Parameters.mk K iters points.length d).dimensions = d := rfl
  refine ⟨_, hrun, rfl, fun t before after done hbefore hafter => ?_, ?_⟩
  · obtain ⟨hshape, hdata, hround⟩ := rounds_step hdims hshaped hexact hbefore hafter
    have hround : after = KMeans.round d before := hround
    subst hround
    exact ⟨labelled_round hdims hshape hdata, hdata, rfl⟩
  · obtain ⟨last, done, hlast, -, hpoints, hclusters⟩ := completed_files hdims hexact
    exact ⟨last, done, hlast, hpoints, hclusters⟩

end Runs

section Means

variable [Field F] [LinearOrder F] [CMath F] {points : List (Point F)} {d : ℕ} {s : State F}

theorem centroid_round (hexact : Exact points d s) :
    ∀ c ∈ (KMeans.round d s).clusters, c.points ≠ [] →
      c.centroid = (List.range d).map fun j =>
        (c.points.map fun p => coord p.values j).sum / (c.points.length : F) := by
  intro c hc hne
  obtain ⟨e, he, rfl⟩ := mem_round hc
  rw [recentered_points] at hne
  have hlen := hexact.centroid_length e he
  have hmean := recentered_of_ne_nil (d := d) (by exact hlen) hne
  rw [hmean]
  apply List.map_congr_left
  intro j _
  exact mean_eq _ j

theorem partitioned_round {km : Parameters} (hd : km.dimensions = d) (h : Shaped km s)
    (hexact : Exact points d s) : Partitioned points d km.K s (KMeans.round d s) :=
  ⟨labelled_round hd h hexact, centroid_round hexact⟩

/-- At the end of every iteration the clusters partition the points, whichever exit is
taken, and the files are written from the last of these states. -/
theorem run_partitions (points : List (Point F)) (K iters : ℤ) (rand : List ℕ)
    (hd : ∀ p ∈ points, p.values.length = d) (hK : 1 ≤ K) (hn : K ≤ points.length)
    {seeded : Seeding F}
    (hseed : seeding ⟨K, iters, points.length, d⟩ points rand = .ok seeded) :
    ∃ r : Run F, run K iters points rand = .ok r ∧
      r.seeded = ⟨seeded.points, seeded.clusters⟩ ∧
      (∀ (t : ℕ) before after done, (r.seeded :: r.history.map Prod.fst)[t]? = some before →
        r.history[t]? = some (after, done) → Partitioned points d K before after) ∧
      ∃ last done, r.history.getLast? = some (last, done) ∧
        r.pointsFile = last.points.map Point.clusterId ∧
        r.clustersFile = last.clusters.map Cluster.centroid := by
  obtain ⟨r, hrun, hseeded, hlabels, hfiles⟩ := run_labels points K iters rand hd hK hn hseed
  refine ⟨r, hrun, hseeded, fun t before after done hbefore hafter => ?_, hfiles⟩
  obtain ⟨hlabelled, hexact, rfl⟩ := hlabels t before after done hbefore hafter
  exact ⟨hlabelled, centroid_round hexact⟩

end Means

noncomputable def twoPoints : List (Point ℝ) := [⟨1, 0, [0]⟩, ⟨2, 0, [1]⟩]

theorem twoPoints_dimensions : ∀ p ∈ twoPoints, p.values.length = 1 := by
  simp [twoPoints]

theorem run_partitions_two : ∃ r : Run ℝ, run 1 5 twoPoints [0] = .ok r ∧
    (∀ (t : ℕ) before after done, (r.seeded :: r.history.map Prod.fst)[t]? = some before →
      r.history[t]? = some (after, done) → Partitioned twoPoints 1 1 before after) ∧
    ∃ last done, r.history.getLast? = some (last, done) ∧
      r.pointsFile = last.points.map Point.clusterId ∧
      r.clustersFile = last.clusters.map Cluster.centroid := by
  obtain ⟨r, hrun, -, hpartitioned, hfiles⟩ :=
    run_partitions twoPoints 1 5 [0] twoPoints_dimensions (by decide) (by decide) rfl
  exact ⟨r, hrun, hpartitioned, hfiles⟩

end ParallelPrograms.KMeans
