import ParallelPrograms.KMeans.Rounds

namespace ParallelPrograms.KMeans

variable {F : Type}

def Point.data (p : Point F) : ℕ × List F := (p.pointId, p.values)

theorem length_of_data_eq {points points' : List (Point F)}
    (h : points.map Point.data = points'.map Point.data) : points.length = points'.length := by
  simpa using congrArg List.length h

theorem exists_of_data_eq {points points' : List (Point F)}
    (h : points.map Point.data = points'.map Point.data) {p : Point F} (hp : p ∈ points) :
    ∃ q ∈ points', q.values = p.values := by
  have hmem : p.data ∈ points'.map Point.data := h ▸ List.mem_map_of_mem hp
  obtain ⟨q, hq, hdata⟩ := List.mem_map.mp hmem
  exact ⟨q, hq, congrArg Prod.snd hdata⟩

theorem ofSeed_eq (clusterId : ℤ) (p : Point F) :
    Cluster.ofSeed clusterId p = .ok ⟨clusterId, p.values, [p.setCluster clusterId]⟩ := by
  have hpass : ∀ (v : List F), ∀ x ∈ p.values,
      (do return v ++ [x] : Except Stop (List F)) = .ok (v ++ [x]) := fun _ _ _ => rfl
  have hloop : (List.range p.getDimensions).foldlM (fun centroid i => do
      let x ← p.getVal i
      return centroid ++ [x]) [] = Except.ok p.values := by
    refine (foldlM_nth_range (fun (v : List F) x => do return v ++ [x]) p.values []).trans ?_
    rw [foldlM_of_forall hpass, foldl_push (fun x => x), List.map_id', List.nil_append]
  rw [Cluster.ofSeed, hloop]
  rfl

theorem drawIndex_cases {totalPoints : ℕ} (hpos : 0 < totalPoints) (used rand : List ℕ) :
    drawIndex totalPoints used rand = .error .exhausted ∨ ∃ index rest,
      drawIndex totalPoints used rand = .ok (index, rest) ∧ index < totalPoints ∧
        index ∉ used := by
  induction rand with
  | nil => exact .inl rfl
  | cons r rand ih =>
    rw [drawIndex, if_neg hpos.ne']
    split_ifs with hr
    · exact ih
    · exact .inr ⟨_, _, rfl, Nat.mod_lt _ hpos, hr⟩

/-- What holds when the clusters `1, .., k` have been seeded. -/
structure Seeded (points : List (Point F)) (k : ℕ) (s : Seeding F) : Prop where
  data_eq : s.points.map Point.data = points.map Point.data
  clusters_length : s.clusters.length = k
  clusterId_eq : ∀ i (h : i < s.clusters.length), s.clusters[i].clusterId = i + 1
  centroid_mem : ∀ c ∈ s.clusters, ∃ p ∈ points, c.centroid = p.values

/-- What holds in addition when no point was labelled before. -/
structure Fresh (k : ℕ) (s : Seeding F) : Prop where
  label_le : ∀ p ∈ s.points, 0 ≤ p.clusterId ∧ p.clusterId ≤ k
  unused : ∀ i (h : i < s.points.length), i ∉ s.used → s.points[i].clusterId = 0
  seed : ∀ c ∈ s.clusters, ∃ p, members s.points c = [p] ∧ c.centroid = p.values

variable {km : Parameters} {points : List (Point F)} {k : ℕ} {s t : Seeding F}

theorem Seeded.points_length (h : Seeded points k s) : s.points.length = points.length :=
  length_of_data_eq h.data_eq

def afterSeed (s : Seeding F) (k index : ℕ) (hi : index < s.points.length) (rest : List ℕ) :
    Seeding F :=
  ⟨s.used ++ [index], s.points.modify index (fun p => p.setCluster (k + 1)),
    s.clusters ++ [⟨k + 1, s.points[index].values, [s.points[index].setCluster (k + 1)]⟩], rest⟩

theorem seedCluster_eq {index : ℕ} {rest : List ℕ} (hi : index < s.points.length)
    (hdraw : drawIndex km.totalPoints s.used s.rand = .ok (index, rest)) :
    seedCluster km s (k + 1) = .ok (afterSeed s k index hi rest) := by
  have hupdate : update s.points (index : ℕ) (fun p => .ok (p.setCluster ((k + 1 : ℕ) : ℤ))) =
      .ok (s.points.modify index fun p => p.setCluster ((k + 1 : ℕ) : ℤ)) := update_eq hi rfl
  have hget : nth (s.points.modify index fun p => p.setCluster ((k + 1 : ℕ) : ℤ)) (index : ℕ) =
      .ok (s.points[index].setCluster ((k + 1 : ℕ) : ℤ)) := by
    apply nth_eq
    simp [hi]
  rw [seedCluster, hdraw, ok_bind]
  simp only [hupdate, hget, ok_bind, ofSeed_eq, pure_eq_ok]
  rfl

theorem seedCluster_cases (h : Seeded points k s) (hlen : points.length = km.totalPoints)
    (hpos : 0 < km.totalPoints) :
    seedCluster km s (k + 1) = .error .exhausted ∨ ∃ index rest, ∃ hi : index < s.points.length,
      index ∉ s.used ∧ seedCluster km s (k + 1) = .ok (afterSeed s k index hi rest) := by
  rcases drawIndex_cases hpos s.used s.rand with hdraw | ⟨index, rest, hdraw, hlt, hnew⟩
  · exact .inl (by rw [seedCluster, hdraw]; rfl)
  · have hi : index < s.points.length := by rw [h.points_length, hlen]; exact hlt
    exact .inr ⟨index, rest, hi, hnew, seedCluster_eq hi hdraw⟩

theorem Seeded.afterSeed (h : Seeded points k s) {index : ℕ} (hi : index < s.points.length)
    (rest : List ℕ) : Seeded points (k + 1) (afterSeed s k index hi rest) where
  data_eq := by
    have hdata : ∀ p : Point F, (p.setCluster (k + 1)).data = p.data := fun _ => rfl
    exact (map_modify_eq hdata s.points index).trans h.data_eq
  clusters_length := by simp [KMeans.afterSeed, h.clusters_length]
  clusterId_eq j hj := by
    simp only [KMeans.afterSeed, List.length_append, List.length_singleton] at hj
    by_cases hlast : j < s.clusters.length
    · simp only [KMeans.afterSeed, List.getElem_append_left hlast]
      exact h.clusterId_eq j hlast
    · obtain rfl : j = s.clusters.length := by omega
      simp [KMeans.afterSeed, h.clusters_length]
  centroid_mem c hc := by
    simp only [KMeans.afterSeed, List.mem_append, List.mem_singleton] at hc
    rcases hc with hc | rfl
    · exact h.centroid_mem c hc
    · obtain ⟨p, hp, hvalues⟩ := exists_of_data_eq h.data_eq (List.getElem_mem hi)
      exact ⟨p, hp, hvalues.symm⟩

theorem Seeded.clusterId_mem (h : Seeded points k s) :
    ∀ c ∈ s.clusters, 1 ≤ c.clusterId ∧ c.clusterId ≤ k := by
  intro c hc
  obtain ⟨i, hi, rfl⟩ := List.mem_iff_getElem.mp hc
  have hid := h.clusterId_eq i hi
  have hlen := h.clusters_length
  omega

theorem members_modify (c : Cluster F) (g : Point F → Point F) {points : List (Point F)} {i : ℕ}
    (hi : i < points.length) :
    members (points.modify i g) c = members (points.take i) c ++
      (members [g points[i]] c ++ members (points.drop (i + 1)) c) := by
  rw [List.modify_eq_take_cons_drop hi]
  simp only [members, ← List.filter_append]
  rfl

/-- Relabelling a point between two other labels is not noticed by a cluster. -/
theorem members_setCluster {c : Cluster F} {points : List (Point F)} {i : ℕ}
    (hi : i < points.length) {val : ℤ} (hold : points[i].clusterId ≠ c.clusterId)
    (hnew : val ≠ c.clusterId) :
    members (points.modify i fun p => p.setCluster val) c = members points c := by
  have hself := members_modify c id hi
  rw [modify_eq_self_of hi rfl] at hself
  rw [members_modify c _ hi, hself]
  simp [members, Point.setCluster, hold, hnew]

theorem members_eq_nil {c : Cluster F} {points : List (Point F)}
    (h : ∀ p ∈ points, p.clusterId ≠ c.clusterId) : members points c = [] := by
  rw [members, List.filter_eq_nil_iff]
  intro p hp
  simpa using h p hp

theorem Fresh.afterSeed (hfresh : Fresh k s) (h : Seeded points k s) {index : ℕ}
    (hi : index < s.points.length) (hnew : index ∉ s.used) (rest : List ℕ) :
    Fresh (k + 1) (afterSeed s k index hi rest) where
  label_le := by
    have hold : ∀ p ∈ s.points, 0 ≤ p.clusterId ∧ p.clusterId ≤ (k + 1 : ℕ) := by
      intro p hp
      have := hfresh.label_le p hp
      omega
    refine forall_mem_modify (fun p _ => ?_) hold index
    simp only [Point.setCluster]
    omega
  unused j hj hused := by
    simp only [KMeans.afterSeed, List.mem_append, List.mem_singleton, not_or] at hused
    simp only [KMeans.afterSeed, List.length_modify] at hj
    simp only [KMeans.afterSeed, List.getElem_modify, if_neg (Ne.symm hused.2)]
    exact hfresh.unused j hj hused.1
  seed c hc := by
    have hzero := hfresh.unused index hi hnew
    simp only [KMeans.afterSeed, List.mem_append, List.mem_singleton] at hc
    rcases hc with hc | rfl
    · -- the point drawn had label 0 and gets the new one, neither of which is an older id
      have hid := h.clusterId_mem c hc
      obtain ⟨p, hp, hvalues⟩ := hfresh.seed c hc
      refine ⟨p, ?_, hvalues⟩
      rw [← hp]
      exact members_setCluster hi (by omega) (by omega)
    · -- no other point can carry the new label
      refine ⟨s.points[index].setCluster (k + 1), ?_, rfl⟩
      have hother : ∀ p ∈ s.points, p.clusterId ≠ k + 1 := by
        intro p hp
        have := hfresh.label_le p hp
        omega
      simp only [KMeans.afterSeed]
      rw [members_modify _ _ hi, members_eq_nil fun p hp => hother p (List.mem_of_mem_take hp),
        members_eq_nil fun p hp => hother p (List.mem_of_mem_drop hp)]
      simp [members, Point.setCluster]

theorem seedLoop_cases (hlen : points.length = km.totalPoints) (hpos : 0 < km.totalPoints)
    (rand : List ℕ) (k : ℕ) :
    (List.range' 1 k).foldlM (seedCluster km) ⟨[], points, [], rand⟩ = .error .exhausted ∨
      ∃ s, (List.range' 1 k).foldlM (seedCluster km) ⟨[], points, [], rand⟩ = .ok s ∧
        Seeded points k s ∧ ((∀ p ∈ points, p.clusterId = 0) → Fresh k s) := by
  induction k with
  | zero =>
    refine .inr ⟨_, rfl, ⟨rfl, rfl, by simp, by simp⟩, fun hzero => ⟨fun p hp => ?_, fun i hi _ =>
      hzero _ (List.getElem_mem hi), by simp⟩⟩
    simp [hzero p hp]
  | succ k ih =>
    rw [List.range'_1_concat, List.foldlM_append, Nat.add_comm 1 k]
    rcases ih with herror | ⟨s, hs, hseeded, hfresh⟩
    · -- the loop has stopped before
      left
      rw [herror, error_bind]
    · rw [hs, ok_bind, List.foldlM_cons]
      rcases seedCluster_cases hseeded hlen hpos with hseed | ⟨index, rest, hi, hnew, hseed⟩
      · left
        rw [hseed, error_bind]
      · rw [hseed, ok_bind, List.foldlM_nil]
        exact .inr ⟨_, rfl, hseeded.afterSeed hi rest, fun hzero =>
          (hfresh hzero).afterSeed hseeded hi hnew rest⟩

/-- Seeding either waits for further results of `rand()` or delivers all clusters. -/
theorem seeding_cases (hlen : points.length = km.totalPoints) (hpos : 0 < km.totalPoints)
    (rand : List ℕ) :
    seeding km points rand = .error .exhausted ∨ ∃ s, seeding km points rand = .ok s ∧
      Seeded points km.K.toNat s ∧
      ((∀ p ∈ points, p.clusterId = 0) → Fresh km.K.toNat s) :=
  seedLoop_cases hlen hpos rand km.K.toNat

/-- The last pass of the seeding loop. -/
theorem seedLoop_succ (hlen : points.length = km.totalPoints) (hpos : 0 < km.totalPoints)
    {rand : List ℕ}
    (h : (List.range' 1 (k + 1)).foldlM (seedCluster km) ⟨[], points, [], rand⟩ = .ok t) :
    ∃ s index rest, ∃ hi : index < s.points.length,
      (List.range' 1 k).foldlM (seedCluster km) ⟨[], points, [], rand⟩ = .ok s ∧
        t = afterSeed s k index hi rest := by
  rw [List.range'_1_concat, List.foldlM_append, Nat.add_comm 1 k] at h
  rcases seedLoop_cases hlen hpos rand k with herror | ⟨s, hs, hseeded, -⟩
  · rw [herror, error_bind] at h
    cases h
  · rw [hs, ok_bind, List.foldlM_cons] at h
    rcases seedCluster_cases hseeded hlen hpos with hseed | ⟨index, rest, hi, -, hseed⟩
    · rw [hseed, error_bind] at h
      cases h
    · rw [hseed, ok_bind, List.foldlM_nil] at h
      cases h
      exact ⟨s, index, rest, hi, hs, rfl⟩

theorem seedLoop_used (hlen : points.length = km.totalPoints) (hpos : 0 < km.totalPoints)
    {rand : List ℕ}
    (h : (List.range' 1 k).foldlM (seedCluster km) ⟨[], points, [], rand⟩ = .ok t) :
    t.used.length = k := by
  induction k generalizing t with
  | zero =>
    cases h
    rfl
  | succ k ih =>
    obtain ⟨s, index, rest, hi, hs, rfl⟩ := seedLoop_succ hlen hpos h
    simp [afterSeed, ih hs]

/-- The centroids are the points drawn, in this order. -/
theorem seedLoop_centroids (hlen : points.length = km.totalPoints) (hpos : 0 < km.totalPoints)
    {rand : List ℕ}
    (h : (List.range' 1 k).foldlM (seedCluster km) ⟨[], points, [], rand⟩ = .ok t) :
    (∀ i ∈ t.used, i < points.length) ∧ t.clusters.map Cluster.centroid =
      t.used.map fun i => (points[i]?).elim [] Point.values := by
  induction k generalizing t with
  | zero =>
    cases h
    exact ⟨by simp, rfl⟩
  | succ k ih =>
    obtain ⟨s, index, rest, hi, hs, rfl⟩ := seedLoop_succ hlen hpos h
    obtain ⟨hused, hcentroids⟩ := ih hs
    have hdata : s.points.map Point.data = points.map Point.data := by
      rcases seedLoop_cases hlen hpos rand k with herror | ⟨s', hs', hseeded, -⟩
      · rw [herror] at hs
        cases hs
      · rw [hs'] at hs
        cases hs
        exact hseeded.data_eq
    have hi' : index < points.length := length_of_data_eq hdata ▸ hi
    have hvalues : s.points[index].values = points[index].values := by
      have hget := congrArg (fun l => l[index]?) hdata
      simp only [List.getElem?_map, List.getElem?_eq_getElem hi, List.getElem?_eq_getElem hi',
        Option.map_some, Option.some.injEq] at hget
      exact congrArg Prod.snd hget
    simp only [afterSeed, List.mem_append, List.mem_singleton, List.map_append, List.map_cons,
      List.map_nil, hcentroids, hvalues, List.getElem?_eq_getElem hi', Option.elim_some]
    refine ⟨fun i hmem => ?_, trivial⟩
    rcases hmem with hmem | rfl
    · exact hused i hmem
    · exact hi'

theorem drawIndex_new {totalPoints index : ℕ} {used rand : List ℕ} (hlt : index < totalPoints)
    (hnew : index ∉ used) : drawIndex totalPoints used (index :: rand) = .ok (index, rand) := by
  have hmod : index % totalPoints = index := Nat.mod_eq_of_lt hlt
  rw [drawIndex, if_neg (by omega), hmod, if_neg hnew]

/-- Any choice of different seeds can be drawn. -/
theorem seeding_indices {indices : List ℕ} (hnodup : indices.Nodup)
    (hlt : ∀ i ∈ indices, i < km.totalPoints) (hK : indices.length = km.K.toNat)
    (hlen : points.length = km.totalPoints) :
    ∃ s, seeding km points indices = .ok s ∧ s.used = indices ∧ Seeded points km.K.toNat s := by
  have hloop : ∀ k ≤ indices.length, ∃ s,
      (List.range' 1 k).foldlM (seedCluster km) ⟨[], points, [], indices⟩ = .ok s ∧
        s.used = indices.take k ∧ s.rand = indices.drop k ∧ Seeded points k s := by
    intro k
    induction k with
    | zero => exact fun _ => ⟨_, rfl, rfl, rfl, rfl, rfl, by simp, by simp⟩
    | succ k ih =>
      intro hk
      obtain ⟨s, hs, hused, hrand, hseeded⟩ := ih (by omega)
      have hk' : k < indices.length := hk
      have hi : indices[k] < km.totalPoints := hlt _ (List.getElem_mem hk')
      have hnew : indices[k] ∉ s.used := by
        rw [hused]
        intro hmem
        obtain ⟨j, hj, heq⟩ := List.mem_take_iff_getElem.mp hmem
        have hjk := (hnodup.getElem_inj_iff).mp heq
        omega
      have hdraw : drawIndex km.totalPoints s.used s.rand =
          .ok (indices[k], indices.drop (k + 1)) := by
        rw [hrand, List.drop_eq_getElem_cons hk']
        exact drawIndex_new hi hnew
      have hpoints : indices[k] < s.points.length := by rwa [hseeded.points_length, hlen]
      refine ⟨_, ?_, ?_, rfl, hseeded.afterSeed hpoints (indices.drop (k + 1))⟩
      · rw [List.range'_1_concat, List.foldlM_append, hs, ok_bind, List.foldlM_cons,
          Nat.add_comm 1 k, seedCluster_eq hpoints hdraw]
        rfl
      · simp [afterSeed, hused]
  obtain ⟨s, hs, hused, -, hseeded⟩ := hloop km.K.toNat hK.ge
  rw [← hK, List.take_length] at hused
  exact ⟨s, hs, hused, hseeded⟩

def parameters (K iters : ℤ) (points : List (Point F)) (first : Point F) : Parameters :=
  ⟨K, iters, points.length, first.getDimensions⟩

theorem Seeded.shaped (h : Seeded points km.K.toNat s) (hK : 1 ≤ km.K)
    (hlen : points.length = km.totalPoints)
    (hdims : ∀ p ∈ points, km.dimensions ≤ p.values.length) :
    Shaped km ⟨s.points, s.clusters⟩ where
  points_length := h.points_length.trans hlen
  clusters_length := by
    have := h.clusters_length
    simp only
    omega
  clusters_pos := by
    have := h.clusters_length
    simp only
    omega
  values_length p hp := by
    obtain ⟨q, hq, hvalues⟩ := exists_of_data_eq h.data_eq hp
    rw [← hvalues]
    exact hdims q hq
  centroid_length c hc := by
    obtain ⟨p, hp, hvalues⟩ := h.centroid_mem c hc
    rw [hvalues]
    exact hdims p hp
  clusterId_eq := h.clusterId_eq

theorem writePoints_eq {points : List (Point F)} (hlen : points.length = km.totalPoints) :
    writePoints km points = .ok (points.map Point.clusterId) := by
  have hpass : ∀ (file : List ℤ), ∀ p ∈ points,
      (do return file ++ [p.clusterId] : Except Stop (List ℤ)) = .ok (file ++ [p.clusterId]) :=
    fun _ _ _ => rfl
  rw [writePoints, ← hlen, foldlM_nth_range, foldlM_of_forall hpass, foldl_push,
    List.nil_append]

variable [Zero F]

theorem writeCentroid_eq {c : Cluster F} (hc : km.dimensions ≤ c.centroid.length) :
    writeCentroid km c = .ok ((List.range km.dimensions).map (coord c.centroid)) := by
  have hpass : ∀ (line : List F), ∀ j ∈ List.range km.dimensions, (do
      let x ← c.getCentroidByPos j
      return line ++ [x]) = Except.ok (line ++ [coord c.centroid j]) := by
    intro line j hj
    simp [Cluster.getCentroidByPos, nth_coord ((List.mem_range.mp hj).trans_le hc)]
  rw [writeCentroid, foldlM_of_forall hpass, foldl_push, List.nil_append]

theorem writeClusters_eq {clusters : List (Cluster F)} (hK : (clusters.length : ℤ) = km.K)
    (hclusters : ∀ c ∈ clusters, km.dimensions ≤ c.centroid.length) :
    writeClusters km clusters =
      .ok (clusters.map fun c => (List.range km.dimensions).map (coord c.centroid)) := by
  have hcount : km.K.toNat = clusters.length := by omega
  have hpass : ∀ (file : List (List F)), ∀ c ∈ clusters, (do
      let line ← writeCentroid km c
      return file ++ [line]) =
        Except.ok (file ++ [(List.range km.dimensions).map (coord c.centroid)]) := by
    intro file c hc
    rw [writeCentroid_eq (hclusters c hc)]
    rfl
  rw [writeClusters, hcount, foldlM_nth_range, foldlM_of_forall hpass, foldl_push,
    List.nil_append]

variable [Add F] [Sub F] [Div F] [NatCast F] [LT F] [DecidableLT F] [CMath F]

theorem finalState_shaped {s : State F} (h : Shaped km s) (left : ℕ) :
    Shaped km (finalState s (rounds km.dimensions left s)) := by
  unfold finalState
  cases hlast : (rounds km.dimensions left s).getLast? with
  | none => exact h
  | some r =>
    exact rounds_invariant (fun _ hs => hs.round) h left r (List.mem_of_getLast? hlast)

def completed (km : Parameters) (seeded : State F) : Run F :=
  let history := rounds km.dimensions (km.iters - 1).toNat seeded
  let final := finalState seeded history
  ⟨seeded, history, final.points.map Point.clusterId,
    final.clusters.map fun c => (List.range km.dimensions).map (coord c.centroid)⟩

/-- When no line is shorter than the first, a run waits for ever in its seeding or ends. -/
theorem runWith_cases {iteration : Parameters → ℕ → State F → Except Stop (State F × Bool)}
    {K iters : ℤ} {first : Point F} (hK : 1 ≤ K) (hfirst : points[0]? = some first)
    (hdims : ∀ p ∈ points, first.values.length ≤ p.values.length)
    (hiteration : ∀ iter s, Shaped (parameters K iters points first) s →
      iteration (parameters K iters points first) iter s =
        .ok (KMeans.round first.getDimensions s, unchanged first.getDimensions s))
    (rand : List ℕ) :
    runWith iteration K iters points rand = .error .exhausted ∧
      seeding (parameters K iters points first) points rand = .error .exhausted ∨
    ∃ s, seeding (parameters K iters points first) points rand = .ok s ∧
      Seeded points K.toNat s ∧ ((∀ p ∈ points, p.clusterId = 0) → Fresh K.toNat s) ∧
      runWith iteration K iters points rand =
        .ok (completed (parameters K iters points first) ⟨s.points, s.clusters⟩) := by
  have hpos : 0 < points.length := by
    by_contra h0
    simp [List.eq_nil_of_length_eq_zero (Nat.eq_zero_of_not_pos h0)] at hfirst
  have hnth : nth points 0 = .ok first := nth_eq hfirst
  have hrun : runWith iteration K iters points rand = (do
      let s ← seeding (parameters K iters points first) points rand
      let seeded : State F := ⟨s.points, s.clusters⟩
      let history ← whileLoop (iteration (parameters K iters points first)) 1 (iters - 1).toNat
        seeded
      let final := finalState seeded history
      let pointsFile ← writePoints (parameters K iters points first) final.points
      let clustersFile ← writeClusters (parameters K iters points first) final.clusters
      return ⟨seeded, history, pointsFile, clustersFile⟩) := by
    rw [runWith, hnth, ok_bind]
    rfl
  have hlen : points.length = (parameters K iters points first).totalPoints := rfl
  rcases seeding_cases hlen hpos rand with herror | ⟨s, hs, hseeded, hfresh⟩
  · left
    exact ⟨by rw [hrun, herror, error_bind], herror⟩
  · right
    have hshaped := hseeded.shaped hK rfl hdims
    have hfinal := finalState_shaped hshaped (iters - 1).toNat
    refine ⟨s, hs, hseeded, hfresh, ?_⟩
    rw [hrun, hs, ok_bind]
    simp only
    rw [whileLoop_eq hiteration hshaped, ok_bind, writePoints_eq hfinal.points_length, ok_bind,
      writeClusters_eq hfinal.clusters_length hfinal.centroid_length]
    rfl

end ParallelPrograms.KMeans
