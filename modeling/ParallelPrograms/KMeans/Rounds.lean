import Mathlib.Data.List.GetD
import Mathlib.Logic.Function.Iterate
import ParallelPrograms.KMeans.Model

namespace ParallelPrograms.KMeans

variable {F : Type}

section Functions

variable [Zero F]

def coord (values : List F) (j : ℕ) : F := values.getD j 0

variable [Add F]

def mean [Div F] [NatCast F] (points : List (Point F)) (j : ℕ) : F :=
  points.foldl (fun sum p => sum + coord p.values j) 0 / (points.length : F)

/-- The centroid moves unless the cluster is empty. -/
def recentered [Div F] [NatCast F] (dimensions : ℕ) (c : Cluster F) : Cluster F :=
  if c.points = [] then c
  else { c with
    centroid := (List.range dimensions).map (mean c.points) ++ c.centroid.drop dimensions }

variable [Sub F] [CMath F]

def dist (dimensions : ℕ) (centroid values : List F) : F :=
  if dimensions = 1 then CMath.abs (coord centroid 0 - coord values 0)
  else CMath.sqrt ((List.range dimensions).foldl (fun sum j =>
    sum + CMath.pow2 (coord centroid j - coord values j)) 0)

variable [LT F] [DecidableLT F]

def closer (dimensions : ℕ) (values : List F) (v : F × ℤ) (c : Cluster F) : F × ℤ :=
  if dist dimensions c.centroid values < v.1 then (dist dimensions c.centroid values, c.clusterId)
  else v

/-- The id of the nearest cluster, the first of several. -/
def nearest (dimensions : ℕ) (clusters : List (Cluster F)) (p : Point F) : ℤ :=
  match clusters with
  | [] => 0
  | c :: cs => (cs.foldl (closer dimensions p.values)
      (dist dimensions c.centroid p.values, c.clusterId)).2

def relabel (dimensions : ℕ) (clusters : List (Cluster F)) (p : Point F) : Point F :=
  p.setCluster (nearest dimensions clusters p)

def members (points : List (Point F)) (c : Cluster F) : List (Point F) :=
  points.filter fun p => p.clusterId = c.clusterId

def unchanged (dimensions : ℕ) (s : State F) : Bool :=
  s.points.all fun p => p.clusterId = nearest dimensions s.clusters p

def round [Div F] [NatCast F] (dimensions : ℕ) (s : State F) : State F :=
  let points := s.points.map (relabel dimensions s.clusters)
  ⟨points, s.clusters.map fun c => recentered dimensions { c with points := members points c }⟩

end Functions

section Access

variable [Zero F]

theorem nth_coord {values : List F} {j : ℕ} (h : j < values.length) :
    nth values j = .ok (coord values j) := by
  rw [nth_of_lt h, coord, List.getD_eq_getElem _ _ h]

variable [Add F] [Sub F] [CMath F]

theorem distance_eq {dimensions : ℕ} {c : Cluster F} {p : Point F}
    (hc : dimensions ≤ c.centroid.length) (hp : dimensions ≤ p.values.length) :
    distance dimensions c p = .ok (dist dimensions c.centroid p.values) := by
  unfold distance dist
  split_ifs with h1
  · have hx : nth c.centroid (0 : ℕ) = .ok (coord c.centroid 0) := nth_coord (by omega)
    have hy : nth p.values (0 : ℕ) = .ok (coord p.values 0) := nth_coord (by omega)
    simp only [Cluster.getCentroidByPos, Point.getVal, hx, hy, ok_bind, pure_eq_ok]
  · have hpass : ∀ sum : F, ∀ j ∈ List.range dimensions, (do
        let x ← c.getCentroidByPos j
        let y ← p.getVal j
        return sum + CMath.pow2 (x - y)) =
          Except.ok (sum + CMath.pow2 (coord c.centroid j - coord p.values j)) := by
      intro sum j hj
      have hj' := List.mem_range.mp hj
      simp [Cluster.getCentroidByPos, Point.getVal, nth_coord (hj'.trans_le hc),
        nth_coord (hj'.trans_le hp)]
    rw [foldlM_of_forall hpass]
    rfl

variable [LT F] [DecidableLT F]

/-- Every point and every centroid has the coordinates `0, .., dimensions - 1`, and the
clusters are numbered from 1. -/
structure Shaped (km : Parameters) (s : State F) : Prop where
  points_length : s.points.length = km.totalPoints
  clusters_length : (s.clusters.length : ℤ) = km.K
  clusters_pos : 0 < s.clusters.length
  values_length : ∀ p ∈ s.points, km.dimensions ≤ p.values.length
  centroid_length : ∀ c ∈ s.clusters, km.dimensions ≤ c.centroid.length
  clusterId_eq : ∀ i (h : i < s.clusters.length), s.clusters[i].clusterId = i + 1

variable {km : Parameters} {s : State F}

theorem getNearestClusterId_eq {clusters : List (Cluster F)} {p : Point F}
    (hK : (clusters.length : ℤ) = km.K) (hpos : 0 < clusters.length)
    (hclusters : ∀ c ∈ clusters, km.dimensions ≤ c.centroid.length)
    (hp : km.dimensions ≤ p.values.length) :
    getNearestClusterId km clusters p = .ok (nearest km.dimensions clusters p) := by
  cases clusters with
  | nil => simp at hpos
  | cons c cs =>
    have hpass : ∀ v : F × ℤ, ∀ d ∈ cs, nearestPass km.dimensions p v d =
        .ok (closer km.dimensions p.values v d) := by
      intro v d hd
      rw [nearestPass, distance_eq (hclusters d (List.mem_cons_of_mem c hd)) hp, closer]
      simp only [ok_bind, pure_eq_ok]
      split_ifs <;> rfl
    -- the first cluster starts the search and the loop goes over the others
    have hcount : (km.K - 1).toNat = cs.length := by
      rw [← hK, List.length_cons]
      omega
    have hfirst : nth (c :: cs) 0 = .ok c := rfl
    have hloop := foldlM_nth (nearestPass km.dimensions p) [c] cs
      (dist km.dimensions c.centroid p.values, c.clusterId)
    rw [List.singleton_append, List.length_singleton] at hloop
    rw [getNearestClusterId, hfirst, ok_bind, distance_eq (hclusters c List.mem_cons_self) hp,
      ok_bind, hcount, hloop, foldlM_of_forall hpass]
    rfl

theorem nearest_mem {clusters : List (Cluster F)} (hpos : 0 < clusters.length)
    (dimensions : ℕ) (p : Point F) :
    ∃ c ∈ clusters, nearest dimensions clusters p = c.clusterId := by
  have hfold : ∀ (cs : List (Cluster F)) (v : F × ℤ),
      (cs.foldl (closer dimensions p.values) v).2 = v.2 ∨
        ∃ c ∈ cs, (cs.foldl (closer dimensions p.values) v).2 = c.clusterId := by
    intro cs
    induction cs with
    | nil => exact fun v => .inl rfl
    | cons c cs ih =>
      intro v
      rw [List.foldl_cons]
      rcases ih (closer dimensions p.values v c) with hv | ⟨d, hd, hv⟩
      · rw [hv, closer]
        split_ifs
        · exact .inr ⟨c, List.mem_cons_self, rfl⟩
        · exact .inl rfl
      · exact .inr ⟨d, List.mem_cons_of_mem c hd, hv⟩
  cases clusters with
  | nil => simp at hpos
  | cons c cs =>
    rcases hfold cs (dist dimensions c.centroid p.values, c.clusterId) with h | ⟨d, hd, h⟩
    · exact ⟨c, List.mem_cons_self, h⟩
    · exact ⟨d, List.mem_cons_of_mem c hd, h⟩

/-- No pass of the assignment loop looks at a point of another pass. -/
theorem assign_independent {clusters : List (Cluster F)} (hK : (clusters.length : ℤ) = km.K)
    (hpos : 0 < clusters.length) (hclusters : ∀ c ∈ clusters, km.dimensions ≤ c.centroid.length) :
    Independent (assignPoint km clusters) (· && ·) km.totalPoints
      (fun points => points.length = km.totalPoints ∧
        ∀ p ∈ points, km.dimensions ≤ p.values.length)
      (fun points i => points.modify i (relabel km.dimensions clusters))
      (fun points i => points[i]?.all fun p =>
        p.clusterId = nearest km.dimensions clusters p) where
  body_eq {points done i} := by
    rintro ⟨hlen, hvalues⟩ hi
    rw [← hlen] at hi
    have hnearest := getNearestClusterId_eq hK hpos hclusters (hvalues _ (List.getElem_mem hi))
    have hupdate : update points (i : ℕ) (fun p =>
        .ok (p.setCluster (nearest km.dimensions clusters points[i]))) =
          .ok (points.modify i (relabel km.dimensions clusters)) := update_eq hi rfl
    rw [assignPoint, nth_of_lt hi, ok_bind, hnearest, ok_bind]
    split_ifs with hne
    · simp [hupdate, List.getElem?_eq_getElem hi, hne]
    · have heq := not_not.mp hne
      have hsame : points.modify i (relabel km.dimensions clusters) = points := by
        apply modify_eq_self_of hi
        rw [relabel, ← heq]
        rfl
      simp [hsame, List.getElem?_eq_getElem hi, ← heq]
  inv_next {points i} := by
    rintro ⟨hlen, hvalues⟩ hi
    have hkept : ∀ p : Point F, km.dimensions ≤ p.values.length →
        km.dimensions ≤ (relabel km.dimensions clusters p).values.length := fun p hp => hp
    exact ⟨by rwa [List.length_modify], forall_mem_modify hkept hvalues i⟩
  next_comm points i j hij := List.modify_modify_ne _ _ points hij
  value_next points i j hij := by simp only [List.getElem?_modify_ne _ _ hij]

theorem foldl_and (f : ℕ → Bool) (l : List ℕ) (r : Bool) :
    l.foldl (fun r i => r && f i) r = (r && l.all f) := by
  induction l generalizing r with
  | nil => simp
  | cons i l ih => rw [List.foldl_cons, ih, List.all_cons, Bool.and_assoc]

theorem all_range {α : Type} (P : α → Bool) (l : List α) :
    ((List.range l.length).all fun i => l[i]?.all P) = l.all P := by
  rw [Bool.eq_iff_iff, List.all_eq_true, List.all_eq_true]
  constructor
  · intro h x hx
    obtain ⟨i, hi⟩ := List.mem_iff_getElem?.mp hx
    have hlt : i < l.length := (List.getElem?_eq_some_iff.mp hi).1
    simpa [hi] using h i (List.mem_range.mpr hlt)
  · intro h i hi
    rw [List.getElem?_eq_getElem (List.mem_range.mp hi)]
    exact h _ (List.getElem_mem _)

theorem assign_eq (h : Shaped km s) :
    sequentialFor (assignPoint km s.clusters) km.totalPoints s.points true =
      .ok (s.points.map (relabel km.dimensions s.clusters), unchanged km.dimensions s) := by
  have hind := assign_independent h.clusters_length h.clusters_pos h.centroid_length
  have hloop := hind.foldlM_eq ⟨h.points_length, h.values_length⟩ List.nodup_range
    (fun i hi => List.mem_range.mp hi) true
  rw [sequentialFor, hloop, foldl_and, ← h.points_length, foldl_modify_range, all_range]
  rfl

end Access

section Clusters

variable {km : Parameters}

theorem clearClusters_eq {clusters : List (Cluster F)} (hK : (clusters.length : ℤ) = km.K) :
    clearClusters km clusters = .ok (clusters.map Cluster.removeAllPoints) := by
  have hcount : km.K.toNat = clusters.length := by omega
  rw [clearClusters, hcount]
  have hpass : ∀ (_ : ℕ) (c : Cluster F), True →
      Except.ok (ε := Stop) c.removeAllPoints = .ok c.removeAllPoints ∧ True :=
    fun _ _ _ => ⟨rfl, trivial⟩
  exact foldlM_update hpass fun _ _ => trivial

def join (clusters : List (Cluster F)) (p : Point F) : List (Cluster F) :=
  clusters.map fun c => if p.clusterId = c.clusterId then c.addPoint p else c

theorem update_addPoint {clusters : List (Cluster F)} {p : Point F} {i : ℕ}
    (hids : ∀ i (h : i < clusters.length), clusters[i].clusterId = i + 1)
    (hi : i < clusters.length) (hp : p.clusterId = i + 1) :
    update clusters (p.clusterId - 1) (fun c => .ok (c.addPoint p)) = .ok (join clusters p) := by
  have hindex : p.clusterId - 1 = (i : ℤ) := by omega
  have hjoin : clusters.modify i (fun c => c.addPoint p) = join clusters p := by
    apply List.ext_getElem?
    intro j
    rw [List.getElem?_modify, join, List.getElem?_map]
    by_cases hj : j < clusters.length
    · rw [List.getElem?_eq_getElem hj]
      -- the ids are different, so that only cluster `i` takes the point
      have hid := hids j hj
      by_cases hij : i = j
      · subst hij
        simp [hp, hid]
      · have hne : p.clusterId ≠ clusters[j].clusterId := by omega
        simp [hij, hne]
    · rw [List.getElem?_eq_none (not_lt.mp hj)]
      rfl
  have hupdate : update clusters (i : ℕ) (fun c => .ok (c.addPoint p)) =
      .ok (clusters.modify i fun c => c.addPoint p) := update_eq hi rfl
  rw [hindex, hupdate, hjoin]

theorem foldl_join (points : List (Point F)) (clusters : List (Cluster F)) :
    points.foldl join clusters =
      clusters.map fun c => { c with points := c.points ++ members points c } := by
  induction points generalizing clusters with
  | nil => simp [members]
  | cons p points ih =>
    rw [List.foldl_cons, ih, join, List.map_map]
    apply List.map_congr_left
    intro c _
    by_cases hp : p.clusterId = c.clusterId
    · have hself : p.setCluster c.clusterId = p := by
        rw [← hp]
        rfl
      simp [members, Cluster.addPoint, hp, hself]
    · simp [members, hp]

theorem reassign_eq {points : List (Point F)} {clusters : List (Cluster F)}
    (hlen : points.length = km.totalPoints)
    (hids : ∀ i (h : i < clusters.length), clusters[i].clusterId = i + 1)
    (hlabels : ∀ p ∈ points, ∃ i < clusters.length, p.clusterId = i + 1) :
    reassign km points clusters =
      .ok (clusters.map fun c => { c with points := c.points ++ members points c }) := by
  -- a point more changes neither the number of the clusters nor their ids
  have hpass : ∀ cs : List (Cluster F), (cs.length = clusters.length ∧
      ∀ i (h : i < cs.length), cs[i].clusterId = i + 1) → ∀ p ∈ points,
      update cs (p.clusterId - 1) (fun c => .ok (c.addPoint p)) = .ok (join cs p) ∧
        (join cs p).length = clusters.length ∧
        ∀ i (h : i < (join cs p).length), (join cs p)[i].clusterId = i + 1 := by
    intro cs ⟨hcs, hcsids⟩ p hp
    obtain ⟨i, hi, hpi⟩ := hlabels p hp
    refine ⟨update_addPoint hcsids (hcs ▸ hi) hpi, by rw [join, List.length_map, hcs], ?_⟩
    intro j hj
    have hj' : j < cs.length := by rwa [join, List.length_map] at hj
    rw [← hcsids j hj']
    simp only [join, List.getElem_map]
    split_ifs <;> rfl
  rw [reassign, ← hlen, foldlM_nth_range, (foldlM_ok hpass ⟨rfl, hids⟩).1, foldl_join]

end Clusters

section Centers

variable [Zero F] [Add F]

def addend (j : ℕ) (c : Cluster F) (i : ℕ) : F := (c.points[i]?).elim 0 fun p => coord p.values j

theorem sum_independent {j : ℕ} {c : Cluster F} (h : ∀ p ∈ c.points, j < p.values.length) :
    Independent (sumPass j) (· + ·) c.getSize (fun d => d = c) (fun d _ => d) (addend j) where
  body_eq {d sum i} := by
    rintro rfl hi
    have hp : nth d.points (i : ℕ) = .ok d.points[i] := nth_of_lt hi
    have hx := nth_coord (h _ (List.getElem_mem hi))
    simp [sumPass, Cluster.getPoint, Point.getVal, hp, hx, addend, List.getElem?_eq_getElem hi]
  inv_next hd _ := hd
  next_comm _ _ _ _ := rfl
  value_next _ _ _ _ := rfl

/-- What the sum loop of one cluster and coordinate has to deliver. -/
def Sums (sum : ℕ → Cluster F → Except Stop (Cluster F × F)) : Prop :=
  ∀ j c, (∀ p ∈ c.points, j < p.values.length) →
    sum j c = .ok (c, c.points.foldl (fun sum p => sum + coord p.values j) 0)

theorem sequential_sums :
    Sums fun j (c : Cluster F) => sequentialFor (sumPass j) c.getSize c 0 := by
  intro j c h
  have hloop := (sum_independent h).foldlM_eq rfl List.nodup_range
    (fun i hi => List.mem_range.mp hi) 0
  have hsum : (List.range c.points.length).foldl (fun sum i => sum + addend j c i) 0 =
      c.points.foldl (fun sum p => sum + coord p.values j) 0 := by
    apply foldl_range_eq
    intro sum i hi
    simp [addend, List.getElem?_eq_getElem hi]
  have hconst : (List.range c.getSize).foldl (fun d _ => d) c = c := List.foldl_fixed _
  show sequentialFor (sumPass j) c.getSize c 0 = _
  rw [sequentialFor, hloop, hconst, Cluster.getSize, hsum]

variable [Div F] [NatCast F]

@[simp] theorem recentered_points (dimensions : ℕ) (c : Cluster F) :
    (recentered dimensions c).points = c.points := by
  unfold recentered
  split_ifs <;> rfl

@[simp] theorem recentered_clusterId (dimensions : ℕ) (c : Cluster F) :
    (recentered dimensions c).clusterId = c.clusterId := by
  unfold recentered
  split_ifs <;> rfl

theorem recentered_length {dimensions : ℕ} {c : Cluster F} (h : dimensions ≤ c.centroid.length) :
    (recentered dimensions c).centroid.length = c.centroid.length := by
  unfold recentered
  split_ifs
  · rfl
  · simp only [List.length_append, List.length_map, List.length_range, List.length_drop]
    omega

theorem recenter_eq {sum : ℕ → Cluster F → Except Stop (Cluster F × F)} (hsum : Sums sum)
    {dimensions : ℕ} {c : Cluster F} (hpoints : ∀ p ∈ c.points, dimensions ≤ p.values.length)
    (hc : dimensions ≤ c.centroid.length) :
    recenter sum dimensions c = .ok (recentered dimensions c) := by
  by_cases hempty : c.points = []
  · have hpass : ∀ d : Cluster F, ∀ j ∈ List.range dimensions, (if 0 < c.getSize then do
        let s ← sum j d
        d.setCentroidByPos j (s.2 / (c.getSize : F))
      else return d) = Except.ok d := by
      intro d j _
      simp [Cluster.getSize, hempty]
    rw [recenter, foldlM_of_forall hpass, List.foldl_fixed, recentered, if_pos hempty]
  · have hsize : 0 < c.getSize := List.length_pos_iff.mpr hempty
    -- the loop changes one coordinate of the centroid after the other
    have hpass : ∀ d : Cluster F, (d.points = c.points ∧ dimensions ≤ d.centroid.length) →
        ∀ j ∈ List.range dimensions, (if 0 < c.getSize then do
          let s ← sum j d
          d.setCentroidByPos j (s.2 / (c.getSize : F))
        else return d) =
          Except.ok { d with centroid := d.centroid.set j (mean c.points j) } ∧
        d.points = c.points ∧ dimensions ≤ (d.centroid.set j (mean c.points j)).length := by
      rintro d ⟨hd, hlen⟩ j hj
      have hj' := List.mem_range.mp hj
      refine ⟨?_, hd, by rwa [List.length_set]⟩
      rw [if_pos hsize, hsum j d (fun p hp => hj'.trans_le (hpoints p (hd ▸ hp)))]
      simp [Cluster.setCentroidByPos, update, nth_coord (hj'.trans_le hlen), hd, mean,
        Cluster.getSize]
    have hloop : (List.range dimensions).foldl (fun (d : Cluster F) j =>
        { d with centroid := d.centroid.set j (mean c.points j) }) c =
          { c with centroid := ((List.range dimensions).foldl
              (fun v j => v.set j (mean c.points j)) c.centroid) } :=
      List.foldl_hom (fun v => { c with centroid := v }) (fun _ _ => rfl)
    rw [recenter, (foldlM_ok hpass ⟨rfl, hc⟩).1, hloop, foldl_set_range _ _ hc, recentered,
      if_neg hempty]

theorem recalculate_eq {sum : ℕ → ℕ → Cluster F → Except Stop (Cluster F × F)}
    (hsum : ∀ i, Sums (sum i)) {km : Parameters} {clusters : List (Cluster F)}
    (hK : (clusters.length : ℤ) = km.K)
    (hclusters : ∀ c ∈ clusters, (∀ p ∈ c.points, km.dimensions ≤ p.values.length) ∧
      km.dimensions ≤ c.centroid.length) :
    recalculate sum km clusters = .ok (clusters.map (recentered km.dimensions)) := by
  have hcount : km.K.toNat = clusters.length := by omega
  have hpass : ∀ (i : ℕ) (c : Cluster F), ((∀ p ∈ c.points, km.dimensions ≤ p.values.length) ∧
      km.dimensions ≤ c.centroid.length) →
      recenter (sum i) km.dimensions c = .ok (recentered km.dimensions c) ∧
        (∀ p ∈ (recentered km.dimensions c).points, km.dimensions ≤ p.values.length) ∧
        km.dimensions ≤ (recentered km.dimensions c).centroid.length := by
    rintro i c ⟨hpoints, hc⟩
    refine ⟨recenter_eq (hsum i) hpoints hc, ?_, ?_⟩
    · rwa [recentered_points]
    · rwa [recentered_length hc]
  rw [recalculate, hcount]
  exact foldlM_update hpass hclusters

end Centers

section Loop

variable [Zero F] [Add F] [Sub F] [Div F] [NatCast F] [LT F] [DecidableLT F] [CMath F]
  {km : Parameters} {s : State F}

theorem mem_round {dimensions : ℕ} {c : Cluster F} (hc : c ∈ (round dimensions s).clusters) :
    ∃ e ∈ s.clusters,
      c = recentered dimensions { e with points := members (round dimensions s).points e } := by
  obtain ⟨e, he, rfl⟩ := List.mem_map.mp hc
  exact ⟨e, he, rfl⟩

/-- Every label is the number of a cluster. -/
theorem Shaped.label (h : Shaped km s) :
    ∀ p ∈ (round km.dimensions s).points, ∃ i < s.clusters.length, p.clusterId = i + 1 := by
  intro p hp
  obtain ⟨q, -, rfl⟩ := List.mem_map.mp hp
  obtain ⟨c, hc, hnearest⟩ := nearest_mem h.clusters_pos km.dimensions q
  obtain ⟨i, hi, rfl⟩ := List.mem_iff_getElem.mp hc
  exact ⟨i, hi, by rw [relabel, Point.setCluster, hnearest, h.clusterId_eq i hi]⟩

theorem Shaped.round_values (h : Shaped km s) :
    ∀ p ∈ (round km.dimensions s).points, km.dimensions ≤ p.values.length := by
  intro p hp
  obtain ⟨q, hq, rfl⟩ := List.mem_map.mp hp
  exact h.values_length q hq

theorem Shaped.round (h : Shaped km s) : Shaped km (round km.dimensions s) where
  points_length := by simpa [KMeans.round] using h.points_length
  clusters_length := by simpa [KMeans.round] using h.clusters_length
  clusters_pos := by simpa [KMeans.round] using h.clusters_pos
  values_length := h.round_values
  centroid_length c hc := by
    obtain ⟨d, hd, rfl⟩ := mem_round hc
    have hlen := h.centroid_length d hd
    rw [recentered_length]
    · exact hlen
    · exact hlen
  clusterId_eq i hi := by
    simp only [KMeans.round, List.getElem_map, recentered_clusterId]
    exact h.clusterId_eq i (by simpa [KMeans.round] using hi)

theorem iterationWith_eq {assign : State F → Except Stop (List (Point F) × Bool)}
    {sum : ℕ → ℕ → Cluster F → Except Stop (Cluster F × F)} (h : Shaped km s)
    (hassign : assign s =
      .ok (s.points.map (relabel km.dimensions s.clusters), unchanged km.dimensions s))
    (hsum : ∀ i, Sums (sum i)) :
    iterationWith assign sum km s =
      .ok (KMeans.round km.dimensions s, unchanged km.dimensions s) := by
  have hreassign : reassign km (s.points.map (relabel km.dimensions s.clusters))
      (s.clusters.map Cluster.removeAllPoints) = .ok (s.clusters.map fun c =>
        { c with points := members (KMeans.round km.dimensions s).points c }) := by
    rw [reassign_eq, List.map_map]
    · rfl
    · rw [List.length_map, h.points_length]
    · intro i hi
      rw [List.getElem_map]
      exact h.clusterId_eq i (by simpa using hi)
    · intro p hp
      rw [List.length_map]
      exact h.label p hp
  have hrecalculate : recalculate sum km (s.clusters.map fun c =>
        { c with points := members (KMeans.round km.dimensions s).points c }) =
      .ok (KMeans.round km.dimensions s).clusters := by
    rw [recalculate_eq hsum, List.map_map]
    · rfl
    · rw [List.length_map, h.clusters_length]
    · intro c hc
      obtain ⟨d, hd, rfl⟩ := List.mem_map.mp hc
      refine ⟨fun p hp => ?_, h.centroid_length d hd⟩
      exact h.round_values p (List.mem_of_mem_filter hp)
  rw [iterationWith, hassign, ok_bind, clearClusters_eq h.clusters_length, ok_bind, hreassign,
    ok_bind, hrecalculate]
  rfl

/-- One iteration of `kmean.cpp`. -/
theorem iteration_eq (h : Shaped km s) (iter : ℕ) :
    iteration km iter s = .ok (KMeans.round km.dimensions s, unchanged km.dimensions s) :=
  iterationWith_eq h (assign_eq h) fun _ => sequential_sums

/-- The end of every iteration when at most `left` more follow the next one. -/
def rounds (dimensions : ℕ) : ℕ → State F → List (State F × Bool)
  | 0, s => [(KMeans.round dimensions s, unchanged dimensions s)]
  | left + 1, s => (KMeans.round dimensions s, unchanged dimensions s) ::
      if unchanged dimensions s then [] else rounds dimensions left (KMeans.round dimensions s)

theorem rounds_ne_nil (dimensions left : ℕ) (s : State F) : rounds dimensions left s ≠ [] := by
  cases left <;> simp [rounds]

/-- Every iteration starts from the state the one before it ends with. -/
theorem rounds_getElem {dimensions left t : ℕ} {s : State F} {r : State F × Bool}
    (hr : (rounds dimensions left s)[t]? = some r) :
    r = (KMeans.round dimensions ((KMeans.round dimensions)^[t] s),
      unchanged dimensions ((KMeans.round dimensions)^[t] s)) := by
  induction left generalizing s t with
  | zero =>
    cases t with
    | zero => exact (Option.some.inj hr).symm
    | succ t => simp [rounds] at hr
  | succ left ih =>
    cases t with
    | zero => exact (Option.some.inj hr).symm
    | succ t =>
      rw [rounds, List.getElem?_cons_succ] at hr
      split_ifs at hr
      · simp at hr
      · rw [Function.iterate_succ_apply]
        exact ih hr

theorem rounds_before {dimensions left t : ℕ} {s before : State F}
    (h : (s :: (rounds dimensions left s).map Prod.fst)[t]? = some before) :
    before = (KMeans.round dimensions)^[t] s := by
  cases t with
  | zero => exact (Option.some.inj h).symm
  | succ t =>
    rw [List.getElem?_cons_succ, List.getElem?_map, Option.map_eq_some_iff] at h
    obtain ⟨r, hr, rfl⟩ := h
    rw [rounds_getElem hr, Function.iterate_succ_apply']

/-- What an iteration preserves holds at the end of every one. -/
theorem rounds_invariant {dimensions : ℕ} {P : State F → Prop}
    (hround : ∀ s, P s → P (KMeans.round dimensions s)) {s : State F} (hs : P s) (left : ℕ) :
    ∀ r ∈ rounds dimensions left s, P r.1 := by
  intro r hr
  obtain ⟨t, ht⟩ := List.mem_iff_getElem?.mp hr
  rw [rounds_getElem ht]
  exact hround _ (Function.Iterate.rec P hs hround t)

/-- Only the last iteration is done. -/
theorem rounds_done {dimensions left t : ℕ} {s : State F} {r : State F × Bool}
    (hr : (rounds dimensions left s)[t]? = some r) (hdone : r.2 = true) :
    (rounds dimensions left s).length = t + 1 := by
  induction left generalizing s t with
  | zero =>
    cases t with
    | zero => rfl
    | succ t => simp [rounds] at hr
  | succ left ih =>
    cases t with
    | zero =>
      obtain rfl := Option.some.inj hr
      have hu : unchanged dimensions s = true := hdone
      rw [rounds, if_pos hu]
      rfl
    | succ t =>
      rw [rounds, List.getElem?_cons_succ] at hr
      split_ifs at hr with hu
      · simp at hr
      · rw [rounds, List.length_cons, if_neg hu, ih hr]

/-- A loop in which no iteration is done stops at the limit. -/
theorem rounds_limit {dimensions left : ℕ} {s : State F}
    (h : ∀ r ∈ rounds dimensions left s, r.2 = false) :
    (rounds dimensions left s).length = left + 1 := by
  induction left generalizing s with
  | zero => rfl
  | succ left ih =>
    have hu : unchanged dimensions s = false := h _ List.mem_cons_self
    simp only [rounds, hu, Bool.false_eq_true, if_false] at h ⊢
    rw [List.length_cons, ih fun r hr => h r (List.mem_cons_of_mem _ hr)]

theorem whileLoop_eq {iteration : ℕ → State F → Except Stop (State F × Bool)}
    (hiteration : ∀ iter s, Shaped km s →
      iteration iter s = .ok (KMeans.round km.dimensions s, unchanged km.dimensions s))
    (h : Shaped km s) (iter left : ℕ) :
    whileLoop iteration iter left s = .ok (rounds km.dimensions left s) := by
  induction left generalizing iter s with
  | zero => simp [whileLoop, rounds, hiteration iter s h]
  | succ left ih =>
    rw [whileLoop, hiteration iter s h, ok_bind, rounds]
    by_cases hdone : unchanged km.dimensions s = true
    · simp [hdone]
    · simp [hdone, ih h.round]

end Loop

end ParallelPrograms.KMeans
