import Mathlib.Data.Fintype.BigOperators
import Mathlib.Tactic.Ring
import ParallelPrograms.KMeans.Partition

namespace ParallelPrograms.KMeans

variable {F : Type}

def labels (n : ℕ) (s : State F) (i : Fin n) : ℤ := (s.points[(i : ℕ)]?).elim 0 Point.clusterId

theorem labels_of_getElem? {n : ℕ} {s : State F} {i : Fin n} {p : Point F}
    (h : s.points[(i : ℕ)]? = some p) : labels n s i = p.clusterId := by
  rw [labels, h]
  rfl

theorem labels_congr {n : ℕ} {s t : State F}
    (h : s.points.map Point.clusterId = t.points.map Point.clusterId) :
    labels n s = labels n t := by
  have hmap : ∀ (s : State F) (i : Fin n),
      labels n s i = (s.points.map Point.clusterId)[(i : ℕ)]?.getD 0 := by
    intro s i
    rw [labels, List.getElem?_map]
    cases s.points[(i : ℕ)]? <;> rfl
  funext i
  rw [hmap, hmap, h]

variable [Field F] {points : List (Point F)} {d : ℕ} {s before : State F}

def location (points : List (Point F)) (d : ℕ) (i : Fin points.length) : Fin d → F :=
  coords d points[i].values

def centre (d : ℕ) (s : State F) (g : ℤ) : Fin d → F :=
  (s.clusters[(g - 1).toNat]?).elim 0 fun c => coords d c.centroid

theorem centre_eq {i : ℕ} (hi : i < s.clusters.length) {g : ℤ} (hg : g = i + 1) :
    centre d s g = coords d s.clusters[i].centroid := by
  have hindex : (g - 1).toNat = i := by omega
  rw [centre, hindex, List.getElem?_eq_getElem hi]
  rfl

omit [Field F] in
theorem exists_getElem? (hdata : s.points.map Point.data = points.map Point.data)
    (i : Fin points.length) :
    ∃ p, s.points[(i : ℕ)]? = some p ∧ p.values = points[i].values := by
  have hget : (s.points.map Point.data)[(i : ℕ)]? = some points[i].data := by
    rw [hdata, List.getElem?_map, List.getElem?_eq_getElem i.isLt]
    rfl
  rw [List.getElem?_map, Option.map_eq_some_iff] at hget
  obtain ⟨p, hp, hpdata⟩ := hget
  exact ⟨p, hp, congrArg Prod.snd hpdata⟩

omit [Field F] in
theorem exists_index {K g : ℤ} (hK : (s.clusters.length : ℤ) = K) (hg : g ∈ Set.Icc 1 K) :
    ∃ i < s.clusters.length, g = i + 1 := by
  obtain ⟨hg1, hgK⟩ := hg
  exact ⟨(g - 1).toNat, by omega, by omega⟩

theorem sum_labelled {n : ℕ} (hn : s.points.length = n) (g : ℤ) {y : Fin n → F} {f : Point F → F}
    (hy : ∀ i p, s.points[(i : Fin n).val]? = some p → y i = f p) :
    ∑ i with labels n s i = g, y i =
      ((s.points.filter fun p => p.clusterId = g).map f).sum := by
  subst hn
  rw [← Centres.sum_filter_getElem s.points (fun p => p.clusterId = g) f, Finset.sum_filter,
    Finset.sum_filter]
  apply Finset.sum_congr rfl
  intro i _
  have hi := List.getElem?_eq_getElem i.isLt
  rw [labels_of_getElem? hi, hy i _ hi]
  rfl

/-- The centre times the number of the points is their sum. -/
theorem Partitioned.length_mul_centre [CharZero F] {K : ℤ} (h : Partitioned points d K before s)
    {g : ℤ} (hne : s.points.filter (fun p => p.clusterId = g) ≠ []) (j : Fin d) :
    ((s.points.filter fun p => p.clusterId = g).length : F) * centre d s g j =
      ((s.points.filter fun p => p.clusterId = g).map fun p => coord p.values j).sum := by
  obtain ⟨p, hp⟩ := List.exists_mem_of_ne_nil _ hne
  obtain ⟨hp, hlabel⟩ := List.mem_filter.mp hp
  have hg : g ∈ Set.Icc 1 K := by
    rw [← of_decide_eq_true hlabel]
    exact h.label_mem p hp
  obtain ⟨i, hi, hgi⟩ := exists_index h.clusters_length hg
  have hc := List.getElem_mem hi
  have hpoints : s.clusters[i].points = s.points.filter fun p => p.clusterId = g := by
    rw [h.points_eq _ hc, h.clusterId_eq i hi, hgi]
  have hmean := h.centroid_eq _ hc (by rwa [hpoints])
  rw [hpoints] at hmean
  have hlength : ((s.points.filter fun p => p.clusterId = g).length : F) ≠ 0 := by
    rw [Nat.cast_ne_zero]
    exact (List.length_pos_iff.mpr hne).ne'
  rw [centre_eq hi hgi, coords, hmean, coord]
  simp only [List.getD_eq_getElem?_getD, List.getElem?_map, List.getElem?_range j.isLt,
    Option.map_some, Option.getD_some]
  exact mul_div_cancel₀ _ hlength

theorem Partitioned.centered [CharZero F] {K : ℤ} (h : Partitioned points d K before s) :
    Centres.Centered (location points d) (centre d s) (labels points.length s) := by
  intro g j
  have hsum := sum_labelled (y := fun i => centre d s g j - location points d i j)
    (f := fun p => centre d s g j - coord p.values j) (length_of_data_eq h.data_eq) g (by
      intro i p hp
      obtain ⟨q, hq, hvalues⟩ := exists_getElem? h.data_eq i
      obtain rfl : p = q := Option.some.inj (hp.symm.trans hq)
      rw [location, coords, hvalues])
  rw [hsum, Centres.sum_const_sub]
  -- without points there is nothing to balance
  by_cases hempty : s.points.filter (fun p => p.clusterId = g) = []
  · simp [hempty]
  · rw [h.length_mul_centre hempty, sub_self]

theorem Partitioned.stale {K : ℤ} (h : Partitioned points d K before s)
    (hlen : before.clusters.length = s.clusters.length) {g : ℤ} (hg : g ∈ Set.Icc 1 K)
    (hempty : ∀ i, labels points.length s i ≠ g) : centre d s g = centre d before g := by
  have hn : s.points.length = points.length :=
    length_of_data_eq h.data_eq
  obtain ⟨i, hi, hgi⟩ := exists_index h.clusters_length hg
  have hi' : i < before.clusters.length := hlen ▸ hi
  have hpoints : s.clusters[i].points = [] := by
    rw [h.points_eq _ (List.getElem_mem hi), List.filter_eq_nil_iff]
    intro p hp
    obtain ⟨k, hk⟩ := List.mem_iff_getElem?.mp hp
    have hk' : k < points.length := hn ▸ (List.getElem?_eq_some_iff.mp hk).1
    have hlabel := hempty ⟨k, hk'⟩
    rw [labels_of_getElem? hk, hgi, ← h.clusterId_eq i hi] at hlabel
    simpa using hlabel
  rw [centre_eq hi hgi, centre_eq hi' hgi, h.empty_eq i hi hi' hpoints]

variable [LinearOrder F] [IsStrictOrderedRing F] [ExactMath F] {km : Parameters}

def gap (points : List (Point F)) (d : ℕ) (i : Fin points.length) (c : Cluster F) : F :=
  Centres.sqDist (coords d c.centroid) (location points d i)

theorem label_first (h : Shaped km s) (hexact : Exact points km.dimensions s)
    (i : Fin points.length) : ∃ k, ∃ hk : k < s.clusters.length,
      labels points.length (KMeans.round km.dimensions s) i = k + 1 ∧
      (∀ e ∈ s.clusters, gap points km.dimensions i s.clusters[k] ≤ gap points km.dimensions i e) ∧
      ∀ j (hj : j < k),
        gap points km.dimensions i s.clusters[k] < gap points km.dimensions i s.clusters[j] := by
  obtain ⟨p, hp, hvalues⟩ := exists_getElem? hexact.data_eq i
  have hgap : ∀ c e : Cluster F, dist km.dimensions c.centroid p.values <
      dist km.dimensions e.centroid p.values ↔
        gap points km.dimensions i c < gap points km.dimensions i e := by
    intro c e
    rw [gap, gap, location, ← hvalues]
    exact dist_lt_dist _ _ _ _
  obtain ⟨front, c, back, hsplit, hnearest, hfront, hback⟩ :=
    nearest_first (d := km.dimensions) h.clusters_pos p
  have hk : front.length < s.clusters.length := by
    rw [hsplit, List.length_append, List.length_cons]
    omega
  have hc : s.clusters[front.length] = c := by simp [hsplit]
  have hround : (KMeans.round km.dimensions s).points[(i : ℕ)]? =
      some (relabel km.dimensions s.clusters p) := by
    rw [KMeans.round, List.getElem?_map, hp]
    rfl
  refine ⟨front.length, hk, ?_, ?_, ?_⟩
  · rw [labels_of_getElem? hround, relabel, Point.setCluster, hnearest, ← hc]
    exact h.clusterId_eq _ hk
  · intro e he
    rw [hc]
    rw [hsplit, List.mem_append, List.mem_cons] at he
    rcases he with he | rfl | he
    · exact ((hgap _ _).mp (hfront e he)).le
    · exact le_rfl
    · exact not_lt.mp ((hgap _ _).not.mp (hback e he).not_gt)
  · intro j hj
    have hmem : s.clusters[j] ∈ front := by
      have hget : s.clusters[j] = front[j] := by simp [hsplit, List.getElem_append_left hj]
      rw [hget]
      exact List.getElem_mem hj
    rw [hc]
    exact (hgap _ _).mp (hfront _ hmem)

/-- The search finds the first of the nearest centres. -/
theorem round_nearest (h : Shaped km s) (hexact : Exact points km.dimensions s) :
    Centres.Nearest (Set.Icc 1 km.K) (location points km.dimensions) (centre km.dimensions s)
      (labels points.length (KMeans.round km.dimensions s)) where
  mem i := by
    have hK := h.clusters_length
    obtain ⟨k, hk, hL, -, -⟩ := label_first h hexact i
    rw [hL, Set.mem_Icc]
    omega
  le i g hg := by
    obtain ⟨k, hk, hL, hle, -⟩ := label_first h hexact i
    obtain ⟨j, hj, hgj⟩ := exists_index h.clusters_length hg
    rw [centre_eq hk hL, centre_eq hj hgj]
    exact hle _ (List.getElem_mem hj)
  lt i g hg hlt := by
    obtain ⟨k, hk, hL, -, hfirst⟩ := label_first h hexact i
    obtain ⟨j, hj, hgj⟩ := exists_index h.clusters_length hg
    rw [centre_eq hk hL, centre_eq hj hgj]
    exact hfirst j (by omega)

theorem round_centres (h : Shaped km s) (hexact : Exact points km.dimensions s) :
    Centres.Round (Set.Icc 1 km.K) (location points km.dimensions) (centre km.dimensions s)
      (labels points.length (KMeans.round km.dimensions s))
      (centre km.dimensions (KMeans.round km.dimensions s)) where
  nearest := round_nearest h hexact
  centered := (partitioned_round rfl h hexact).centered
  stale g hg hempty := (partitioned_round rfl h hexact).stale (by simp [KMeans.round]) hg hempty

theorem iterate_centres (hd : km.dimensions = d) (h : Shaped km s ∧ Exact points d s) (t : ℕ) :
    Exact points d ((KMeans.round d)^[t] s) ∧
      Centres.Round (Set.Icc 1 km.K) (location points d) (centre d ((KMeans.round d)^[t] s))
        (labels points.length ((KMeans.round d)^[t + 1] s))
        (centre d ((KMeans.round d)^[t + 1] s)) := by
  subst hd
  obtain ⟨hshaped, hexact⟩ := iterate_exact rfl h t
  rw [Function.iterate_succ_apply']
  exact ⟨hexact, round_centres hshaped hexact⟩

omit [IsStrictOrderedRing F] in
theorem unchanged_iff_labels (hexact : Exact points d s) :
    unchanged d s = true ↔
      labels points.length (KMeans.round d s) = labels points.length s := by
  have hlen : s.points.length = points.length :=
    length_of_data_eq hexact.data_eq
  have hnext : ∀ (i : ℕ) (p : Point F), s.points[i]? = some p →
      (KMeans.round d s).points[i]? = some (relabel d s.clusters p) := by
    intro i p hp
    rw [KMeans.round, List.getElem?_map, hp]
    rfl
  rw [unchanged, List.all_eq_true]
  constructor
  · intro h
    funext i
    obtain ⟨p, hp, -⟩ := exists_getElem? hexact.data_eq i
    rw [labels_of_getElem? (hnext i p hp), labels_of_getElem? hp]
    exact (of_decide_eq_true (h p (List.mem_of_getElem? hp))).symm
  · intro h p hp
    obtain ⟨i, hi⟩ := List.mem_iff_getElem?.mp hp
    have hi' : i < points.length := hlen ▸ (List.getElem?_eq_some_iff.mp hi).1
    have hlabel := congrFun h ⟨i, hi'⟩
    rw [labels_of_getElem? (hnext i p hi), labels_of_getElem? hi] at hlabel
    exact decide_eq_true hlabel.symm

/-- Labels come back only in an iteration that is done. -/
theorem rounds_labels (hd : km.dimensions = d) (h : Shaped km s ∧ Exact points d s)
    {left a b : ℕ} (ha : 0 < a) (hab : a < b) (hb : b ≤ (rounds d left s).length)
    (hback : labels points.length ((KMeans.round d)^[b] s) =
      labels points.length ((KMeans.round d)^[a] s)) :
    b = (rounds d left s).length ∧ ∃ r, (rounds d left s).getLast? = some r ∧ r.2 = true := by
  obtain ⟨t, rfl⟩ := Nat.exists_eq_add_of_lt ha
  have hround := iterate_centres hd h
  -- labels that come back have stayed from the first of the two iterations on
  have hstay : labels points.length ((KMeans.round d)^[0 + t + 1 + 1] s) =
      labels points.length ((KMeans.round d)^[0 + t + 1] s) :=
    Centres.no_cycle (m := fun t => centre d ((KMeans.round d)^[t] s))
      (L := fun t => labels points.length ((KMeans.round d)^[t] s)) hab
      (fun t _ _ => (hround t).2) (hround (0 + t)).2.nearest.mem (hround (0 + t)).2.centered hback
  rw [Function.iterate_succ_apply', ← unchanged_iff_labels (hround (0 + t + 1)).1] at hstay
  obtain ⟨r, hr⟩ : ∃ r, (rounds d left s)[0 + t + 1]? = some r :=
    ⟨_, List.getElem?_eq_getElem (by omega)⟩
  have hdone : r.2 = true := by rw [rounds_getElem hr, hstay]
  have hlen := rounds_done hr hdone
  refine ⟨by omega, r, ?_, hdone⟩
  rw [List.getLast?_eq_getElem?, hlen]
  exact hr

/-- So many iterations that are not done would need more labellings than there are. -/
theorem rounds_converge (hd : km.dimensions = d) (h : Shaped km s ∧ Exact points d s) {left : ℕ}
    (hleft : km.K.toNat ^ points.length ≤ left) :
    ∃ r, (rounds d left s).getLast? = some r ∧ r.2 = true := by
  by_contra hnot
  have hnone : ∀ r ∈ rounds d left s, r.2 = false := by
    intro r hr
    by_contra hdone
    rw [Bool.not_eq_false] at hdone
    obtain ⟨t, ht⟩ := List.mem_iff_getElem?.mp hr
    refine hnot ⟨r, ?_, hdone⟩
    rw [List.getLast?_eq_getElem?, rounds_done ht hdone]
    exact ht
  have hlen := rounds_limit hnone
  -- every iteration ends with a labelling of its own
  have hinj : Set.InjOn (fun t => labels points.length ((KMeans.round d)^[t + 1] s))
      (Finset.range (left + 1)) := by
    intro a ha b hb hab
    rw [Finset.coe_range, Set.mem_Iio] at ha hb
    rcases lt_trichotomy a b with hlt | heq | hgt
    · exact absurd (rounds_labels hd h (Nat.succ_pos a) (by omega) (by omega) hab.symm).2 hnot
    · exact heq
    · exact absurd (rounds_labels hd h (Nat.succ_pos b) (by omega) (by omega) hab).2 hnot
  have hmaps : ∀ t ∈ Finset.range (left + 1),
      labels points.length ((KMeans.round d)^[t + 1] s) ∈
        Fintype.piFinset fun _ : Fin points.length => Finset.Icc 1 km.K := by
    intro t _
    rw [Fintype.mem_piFinset]
    intro i
    rw [Finset.mem_Icc]
    exact (iterate_centres hd h t).2.nearest.mem i
  have hcard := Finset.card_le_card_of_injOn _ hmaps hinj
  rw [Finset.card_range, Fintype.card_piFinset_const, Int.card_Icc] at hcard
  have hK : (km.K + 1 - 1).toNat = km.K.toNat := by omega
  rw [hK] at hcard
  omega

theorem rounds_nodup (hd : km.dimensions = d) (h : Shaped km s ∧ Exact points d s) (left : ℕ) :
    ((rounds d left s).dropLast.map fun v => v.1.points.map Point.clusterId).Nodup := by
  rw [List.Nodup, List.pairwise_iff_getElem]
  intro i j hi hj hij heq
  rw [List.length_map, List.length_dropLast] at hi hj
  simp only [List.getElem_map, List.getElem_dropLast] at heq
  rw [rounds_getElem (List.getElem?_eq_getElem (by omega)),
    rounds_getElem (List.getElem?_eq_getElem (by omega))] at heq
  simp only [← Function.iterate_succ_apply'] at heq
  have hlen : j + 1 = (rounds d left s).length :=
    (rounds_labels hd h (Nat.succ_pos i) (Nat.succ_lt_succ hij) (by omega)
      (labels_congr heq.symm)).1
  omega

/-- The loop ends by itself: from `K ^ n + 1` iterations on the limit does not matter, and no
labelling comes back before the last iteration. -/
theorem run_converges (points : List (Point F)) (K iters : ℤ) (rand : List ℕ)
    (hd : ∀ p ∈ points, p.values.length = d) (hK : 1 ≤ K) (hn : K ≤ points.length)
    (hiters : K ^ points.length + 1 ≤ iters) {seeded : Seeding F}
    (hseed : seeding ⟨K, iters, points.length, d⟩ points rand = .ok seeded) :
    ∃ r : Run F, run K iters points rand = .ok r ∧
      (∃ last, r.history.getLast? = some (last, true)) ∧
      (r.history.dropLast.map fun v => v.1.points.map Point.clusterId).Nodup := by
  obtain ⟨-, -, hshaped, hexact, hrun⟩ := run_eq hd hK (by omega) hseed
  have hdims : (Parameters.mk K iters points.length d).dimensions = d := rfl
  refine ⟨_, hrun, ?_, ?_⟩
  · have hpow : ((K.toNat ^ points.length : ℕ) : ℤ) = K ^ points.length := by
      rw [Nat.cast_pow, Int.toNat_of_nonneg (by omega)]
    have hleft : K.toNat ^ points.length ≤ (iters - 1).toNat := by omega
    obtain ⟨⟨last, done⟩, hlast, rfl⟩ := rounds_converge hdims ⟨hshaped, hexact⟩ hleft
    exact ⟨last, hlast⟩
  · exact rounds_nodup hdims ⟨hshaped, hexact⟩ _

theorem run_converges_two : ∃ r : Run ℝ, run 1 5 twoPoints [0] = .ok r ∧
    (∃ last, r.history.getLast? = some (last, true)) ∧
    (r.history.dropLast.map fun v => v.1.points.map Point.clusterId).Nodup :=
  run_converges twoPoints 1 5 [0] twoPoints_dimensions (by decide) (by decide) (by decide) rfl

end ParallelPrograms.KMeans
