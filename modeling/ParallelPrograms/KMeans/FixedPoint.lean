import ParallelPrograms.KMeans.Partition

namespace ParallelPrograms.KMeans

variable {F : Type} [Field F]

/-- Every centroid is the mean of the points labelled with its cluster, if there are any. -/
def Balanced (d : ℕ) (s : State F) : Prop :=
  ∀ c ∈ s.clusters, members s.points c ≠ [] →
    c.centroid = (List.range d).map (mean (members s.points c))

theorem mean_singleton (p : Point F) (j : ℕ) : mean [p] j = coord p.values j := by
  simp [mean]

/-- A seed is the mean of the only point of its cluster. -/
theorem Fresh.balanced {points : List (Point F)} {d k : ℕ} {s : Seeding F} (h : Fresh k s)
    (hexact : Exact points d ⟨s.points, s.clusters⟩) : Balanced d ⟨s.points, s.clusters⟩ := by
  intro c hc _
  obtain ⟨p, hp, hvalues⟩ := h.seed c hc
  have hlen : p.values.length = d := hvalues ▸ hexact.centroid_length c hc
  simp only [hp]
  calc c.centroid = (List.range d).map (coord p.values) := by rw [map_coord hlen, hvalues]
    _ = (List.range d).map (mean [p]) := List.map_congr_left fun j _ => (mean_singleton p j).symm

/-- The state with every cluster filled with the points labelled with it. -/
def filled (s : State F) : State F :=
  ⟨s.points, s.clusters.map fun c => { c with points := members s.points c }⟩

omit [Field F] in
theorem filled_filled (s : State F) : filled (filled s) = filled s := by
  rw [filled, filled, List.map_map]
  rfl

omit [Field F] in
theorem Exact.filled {points : List (Point F)} {d : ℕ} {s : State F} (h : Exact points d s) :
    Exact points d (filled s) where
  data_eq := h.data_eq
  centroid_length c hc := by
    obtain ⟨e, he, rfl⟩ := List.mem_map.mp hc
    exact h.centroid_length e he

theorem Balanced.filled {d : ℕ} {s : State F} (h : Balanced d s) : Balanced d (filled s) := by
  intro c hc hne
  obtain ⟨e, he, rfl⟩ := List.mem_map.mp hc
  exact h e he hne

variable [LinearOrder F] [CMath F] {points : List (Point F)} {d : ℕ} {s : State F}

theorem Balanced.round (hexact : Exact points d s) : Balanced d (KMeans.round d s) := by
  intro c hc hne
  obtain ⟨e, he, rfl⟩ := mem_round hc
  have hmembers : members (KMeans.round d s).points (recentered d
      { e with points := members (KMeans.round d s).points e }) =
        members (KMeans.round d s).points e := by
    rw [members, recentered_clusterId]
    rfl
  rw [hmembers] at hne ⊢
  have hlen := hexact.centroid_length e he
  rw [recentered_of_ne_nil (by exact hlen) hne]

theorem nearest_filled (p : Point F) :
    nearest d (filled s).clusters p = nearest d s.clusters p := by
  obtain ⟨points, clusters⟩ := s
  cases clusters with
  | nil => rfl
  | cons c cs =>
    have hfold : ∀ v : F × ℤ, (cs.map fun c => { c with points := members points c }).foldl
        (closer d p.values) v = cs.foldl (closer d p.values) v := by
      intro v
      rw [List.foldl_map]
      rfl
    exact congrArg Prod.snd (hfold _)

theorem unchanged_filled : unchanged d (filled s) = unchanged d s := by
  simp only [unchanged, nearest_filled]
  rfl

theorem round_of_unchanged (hexact : Exact points d s) (hbalanced : Balanced d s)
    (hdone : unchanged d s = true) : KMeans.round d s = filled s := by
  have hlabel : ∀ p ∈ s.points, p.clusterId = nearest d s.clusters p := by
    simpa [unchanged] using hdone
  have hpoints : s.points.map (relabel d s.clusters) = s.points := by
    have hself : ∀ p ∈ s.points, relabel d s.clusters p = id p := by
      intro p hp
      rw [relabel, ← hlabel p hp]
      rfl
    rw [List.map_congr_left hself, List.map_id]
  rw [KMeans.round, hpoints, filled]
  congr 1
  apply List.map_congr_left
  intro c hc
  by_cases hempty : members s.points c = []
  · exact recentered_of_eq_nil hempty
  · have hlen := hexact.centroid_length c hc
    rw [recentered_of_ne_nil (by exact hlen) hempty, ← hbalanced c hc hempty]

/-- Once no label has changed, nothing changes any more. -/
theorem filled_fixed (hexact : Exact points d s) (hbalanced : Balanced d s)
    (hdone : unchanged d s = true) :
    KMeans.round d (filled s) = filled s ∧ unchanged d (filled s) = true := by
  have hdone' : unchanged d (filled s) = true := by rwa [unchanged_filled]
  refine ⟨?_, hdone'⟩
  calc KMeans.round d (filled s)
      = filled (filled s) := round_of_unchanged hexact.filled hbalanced.filled hdone'
    _ = filled s := filled_filled s

theorem iterate_settled {km : Parameters} (hdims : km.dimensions = d) (hshaped : Shaped km s)
    (hexact : Exact points d s) (hbalanced : Balanced d s) (t : ℕ) :
    Shaped km ((KMeans.round d)^[t] s) ∧ Exact points d ((KMeans.round d)^[t] s) ∧
      Balanced d ((KMeans.round d)^[t] s) := by
  have hinv := iterate_exact hdims ⟨hshaped, hexact⟩
  refine ⟨(hinv t).1, (hinv t).2, ?_⟩
  cases t with
  | zero => exact hbalanced
  | succ t =>
    rw [Function.iterate_succ_apply']
    exact Balanced.round (hinv t).2

/-- A run that stops because it is done has written labels and centroids that one more
iteration would not change.  Points come from their constructor without a label. -/
theorem run_fixed_point (points : List (Point F)) (K iters : ℤ) (rand : List ℕ)
    (hd : ∀ p ∈ points, p.values.length = d) (hnew : ∀ p ∈ points, p.clusterId = 0)
    (hK : 1 ≤ K) (hn : K ≤ points.length) {seeded : Seeding F}
    (hseed : seeding ⟨K, iters, points.length, d⟩ points rand = .ok seeded) :
    ∃ r : Run F, run K iters points rand = .ok r ∧
      ∀ last, r.history.getLast? = some (last, true) →
        r.pointsFile = last.points.map Point.clusterId ∧
        r.clustersFile = last.clusters.map Cluster.centroid ∧
        (∀ p ∈ last.points,
          getNearestClusterId ⟨K, iters, points.length, d⟩ last.clusters p = .ok p.clusterId) ∧
        ∀ iter, iteration ⟨K, iters, points.length, d⟩ iter last = .ok (last, true) := by
  obtain ⟨-, hfresh, hshaped, hexact, hrun⟩ := run_eq hd hK (by omega) hseed
  refine ⟨_, hrun, fun last hlast => ?_⟩
  have hdims : (Parameters.mk K iters points.length d).dimensions = d := rfl
  obtain ⟨last', done, hlast', -, hpoints, hclusters⟩ := completed_files hdims hexact
  obtain ⟨rfl, rfl⟩ : last = last' ∧ true = done := by simpa [hlast] using hlast'
  refine ⟨hpoints, hclusters, ?_⟩
  -- the state `before` the last iteration
  obtain ⟨t, ht⟩ := List.mem_iff_getElem?.mp (List.mem_of_getLast? hlast)
  have hstep := rounds_getElem ht
  have hinv := iterate_settled hdims hshaped hexact ((hfresh hnew).balanced hexact) t
  generalize (KMeans.round d)^[t] (⟨seeded.points, seeded.clusters⟩ : State F) = before
    at hstep hinv
  obtain ⟨hbeforeshaped, hbefore, hbalanced⟩ := hinv
  obtain ⟨rfl, hdone⟩ := Prod.mk.inj hstep
  have hfilled := round_of_unchanged hbefore hbalanced hdone.symm
  obtain ⟨hfixed, hunchanged⟩ := filled_fixed hbefore hbalanced hdone.symm
  have hlastshaped := hbeforeshaped.round
  rw [hfilled] at hlastshaped ⊢
  refine ⟨fun p hp => ?_, fun iter => ?_⟩
  · have hlabel : p.clusterId = nearest d (filled before).clusters p := by
      simpa using List.all_eq_true.mp hunchanged p hp
    rw [getNearestClusterId_eq hlastshaped.clusters_length hlastshaped.clusters_pos
      hlastshaped.centroid_length (hlastshaped.values_length p hp), hlabel]
  · rw [iteration_eq hlastshaped, hfixed, hunchanged]

theorem run_fixed_point_two : ∃ (r : Run ℝ) (last : State ℝ), run 1 5 twoPoints [0] = .ok r ∧
    r.history.getLast? = some (last, true) ∧ r.pointsFile = last.points.map Point.clusterId ∧
    ∀ iter, iteration ⟨1, 5, 2, 1⟩ iter last = .ok (last, true) := by
  obtain ⟨r, hrun, hr⟩ := run_fixed_point twoPoints 1 5 [0] twoPoints_dimensions
    (by simp [twoPoints]) (by decide) (by decide) rfl
  -- the labels do not change in the second iteration
  obtain ⟨last, hlast⟩ : ∃ last, r.history.getLast? = some (last, true) := by
    cases hrun
    exact ⟨_, rfl⟩
  obtain ⟨hfile, -, -, hfixed⟩ := hr last hlast
  exact ⟨r, last, hrun, hlast, hfile, hfixed⟩

end ParallelPrograms.KMeans
