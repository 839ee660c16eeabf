import ParallelPrograms.FirstMin
import ParallelPrograms.KMeans.FixedPoint

namespace ParallelPrograms.KMeans.Planar

structure Point (F : Type) where
  x : F
  y : F

/-- `double x{0}, y{0};` -/
instance {F : Type} [Zero F] : Inhabited (Point F) := ⟨⟨0, 0⟩⟩

variable {F : Type} [Field F]

def square (value : F) : F := value * value

def squaredL2Distance (first second : Point F) : F :=
  square (first.x - second.x) + square (first.y - second.y)

/-- Pick centroids as random points from the dataset; the third argument is a list of results
of `indices`. -/
def pickMeans (data : List (Point F)) : ℕ → List ℕ → Except Stop (List (Point F))
  | 0, _ => .ok []
  | _ + 1, [] => .error .exhausted
  | k + 1, i :: indices => do
    let p ← nth data i
    let means ← pickMeans data k indices
    return p :: means

/-- `new_means` and `counts` -/
structure Sums (F : Type) where
  newMeans : List (Point F)
  counts : List ℕ

def sumPass (data : List (Point F)) (assignments : List ℕ) (s : Sums F) (point : ℕ) :
    Except Stop (Sums F) := do
  let cluster ← nth assignments point
  let p ← nth data point
  let newMeans ← update s.newMeans cluster fun m => .ok ⟨m.x + p.x, m.y + p.y⟩
  let counts ← update s.counts cluster fun count => .ok (count + 1)
  return ⟨newMeans, counts⟩

/-- One pass of the loop that divides sums by counts: 0/0 is turned into 0/1. -/
def dividePass (s : Sums F) (means : List (Point F)) (cluster : ℕ) :
    Except Stop (List (Point F)) := do
  let c ← nth s.counts cluster
  let count : ℕ := max 1 c
  let m ← nth s.newMeans cluster
  update means cluster fun _ => .ok ⟨m.x / (count : F), m.y / (count : F)⟩

variable [LinearOrder F]

/-- One pass of the search: `best_distance` and `best_cluster`.  The largest number of the
type is above every distance. -/
def searchPass (means : List (Point F)) (p : Point F) (v : WithTop F × ℕ) (cluster : ℕ) :
    Except Stop (WithTop F × ℕ) := do
  let mean ← nth means cluster
  let distance := squaredL2Distance p mean
  if (distance : WithTop F) < v.1 then return (distance, cluster) else return v

def assignPass (data : List (Point F)) (k : ℕ) (means : List (Point F)) (assignments : List ℕ)
    (point : ℕ) : Except Stop (List ℕ) := do
  let p ← nth data point
  let best ← (List.range k).foldlM (searchPass means p) (⊤, 0)
  update assignments point fun _ => .ok best.2

def iteration (data : List (Point F)) (k : ℕ) (v : List (Point F) × List ℕ) :
    Except Stop (List (Point F) × List ℕ) := do
  let assignments ← (List.range data.length).foldlM (assignPass data k v.1) v.2
  let sums ← (List.range data.length).foldlM (sumPass data assignments)
    ⟨List.replicate k default, List.replicate k 0⟩
  let means ← (List.range k).foldlM (dividePass sums) v.1
  return (means, assignments)

/-- `k_means` of `kmeans.cpp` -/
def kMeans (data : List (Point F)) (k numberOfIterations : ℕ) (indices : List ℕ) :
    Except Stop (List (Point F)) := do
  let means ← pickMeans data k indices
  let v ← (List.range numberOfIterations).foldlM (fun v _ => iteration data k v)
    (means, List.replicate data.length 0)
  return v.1

def distanceTo (means : List (Point F)) (p : Point F) (cluster : ℕ) : F :=
  squaredL2Distance p (means.getD cluster default)

def assigned (means : List (Point F)) (p : Point F) : ℕ :=
  searchMin (distanceTo means p) means.length

def cell (data means : List (Point F)) (cluster : ℕ) : List (Point F) :=
  data.filter fun p => assigned means p = cluster

/-- The mean of `points`, and the origin when there are none. -/
def meanOf (points : List (Point F)) : Point F :=
  ⟨(points.map Point.x).sum / (max 1 points.length : ℕ),
    (points.map Point.y).sum / (max 1 points.length : ℕ)⟩

def step (data means : List (Point F)) : List (Point F) :=
  (List.range means.length).map fun cluster => meanOf (cell data means cluster)

theorem assigned_firstMin {means : List (Point F)} (hpos : 0 < means.length) (p : Point F) :
    FirstMin (distanceTo means p) means.length (assigned means p) :=
  searchMin_firstMin _ hpos

theorem search_eq (means : List (Point F)) (p : Point F) :
    ∃ d, (List.range means.length).foldlM (searchPass means p) (⊤, 0) =
      .ok (d, assigned means p) := by
  have hpass : ∀ v : WithTop F × ℕ, ∀ j ∈ List.range means.length,
      searchPass means p v j = .ok (smaller (distanceTo means p) v j) := by
    intro v j hj
    have hj' := List.mem_range.mp hj
    have hmean : means.getD j default = means[j] := List.getD_eq_getElem _ _ hj'
    rw [searchPass, nth_of_lt hj', ok_bind, smaller, distanceTo, hmean]
    dsimp only
    split_ifs <;> rfl
  exact ⟨_, foldlM_of_forall hpass _⟩

theorem assign_eq (data means : List (Point F)) {assignments : List ℕ}
    (hlen : assignments.length = data.length) :
    (List.range data.length).foldlM (assignPass data means.length means) assignments =
      .ok (data.map (assigned means)) := by
  have hpass : ∀ v : List ℕ, v.length = data.length → ∀ i ∈ List.range data.length,
      assignPass data means.length means v i =
        .ok (v.set i (((data.map (assigned means))[i]?).getD 0)) ∧
      (v.set i (((data.map (assigned means))[i]?).getD 0)).length = data.length := by
    intro v hv i hi
    have hi' := List.mem_range.mp hi
    obtain ⟨d, hd⟩ := search_eq means data[i]
    have hiv : i < v.length := hv ▸ hi'
    refine ⟨?_, by rwa [List.length_set]⟩
    rw [assignPass, nth_of_lt hi', ok_bind, hd, ok_bind, update, nth_of_lt hiv]
    simp [hi']
  rw [(foldlM_ok hpass hlen).1, foldl_set_range _ _ hlen.ge, ← hlen, List.drop_length,
    List.append_nil]
  congr 1
  apply List.ext_getElem
  · simp [hlen]
  · intro i hi hi'
    simp only [List.getElem_map, List.getElem_range, List.getElem?_eq_getElem hi',
      Option.getD_some]

def addPoint (cluster : ℕ) (s : Sums F) (p : Point F) : Sums F :=
  ⟨s.newMeans.modify cluster fun m => ⟨m.x + p.x, m.y + p.y⟩, s.counts.modify cluster (· + 1)⟩

omit [LinearOrder F] in
theorem foldl_addPoint (label : Point F → ℕ) (data : List (Point F)) (s : Sums F) (g : ℕ) :
    (data.foldl (fun s p => addPoint (label p) s p) s).newMeans[g]? =
        (s.newMeans[g]?).map (fun m =>
          ⟨m.x + ((data.filter fun p => label p = g).map Point.x).sum,
            m.y + ((data.filter fun p => label p = g).map Point.y).sum⟩) ∧
      (data.foldl (fun s p => addPoint (label p) s p) s).counts[g]? =
        (s.counts[g]?).map (· + (data.filter fun p => label p = g).length) := by
  induction data generalizing s with
  | nil => simp
  | cons p data ih =>
    obtain ⟨hmeans, hcounts⟩ := ih (addPoint (label p) s p)
    rw [List.foldl_cons, hmeans, hcounts]
    simp only [addPoint, List.getElem?_modify]
    by_cases hp : label p = g
    · subst hp
      constructor
      · cases s.newMeans[label p]? <;> simp [add_assoc]
      · cases s.counts[label p]? <;> simp [Nat.add_assoc, Nat.add_comm 1]
    · simp [hp]

theorem sumPass_eq {data means : List (Point F)} (hpos : 0 < means.length) {s : Sums F}
    (hmeans : s.newMeans.length = means.length) (hcounts : s.counts.length = means.length) {i : ℕ}
    (hi : i < data.length) : sumPass data (data.map (assigned means)) s i =
      .ok (addPoint (assigned means data[i]) s data[i]) := by
  have hlt := (assigned_firstMin hpos data[i]).lt
  have hlabel : nth (data.map (assigned means)) i = .ok (assigned means data[i]) :=
    nth_eq (by simp [hi])
  have hnewMeans : update s.newMeans (assigned means data[i])
      (fun m => .ok ⟨m.x + data[i].x, m.y + data[i].y⟩) =
        .ok (s.newMeans.modify (assigned means data[i]) fun m =>
          ⟨m.x + data[i].x, m.y + data[i].y⟩) := update_eq (hmeans ▸ hlt) rfl
  have hcount : update s.counts (assigned means data[i]) (fun count => .ok (count + 1)) =
      .ok (s.counts.modify (assigned means data[i]) (· + 1)) := update_eq (hcounts ▸ hlt) rfl
  rw [sumPass, hlabel, ok_bind, nth_of_lt hi, ok_bind, hnewMeans, ok_bind, hcount, ok_bind]
  rfl

theorem sums_eq (data means : List (Point F)) (hpos : 0 < means.length) :
    ∃ sums, (List.range data.length).foldlM (sumPass data (data.map (assigned means)))
        ⟨List.replicate means.length default, List.replicate means.length 0⟩ = .ok sums ∧
      ∀ g < means.length,
        sums.newMeans[g]? = some ⟨((cell data means g).map Point.x).sum,
          ((cell data means g).map Point.y).sum⟩ ∧
        sums.counts[g]? = some (cell data means g).length := by
  have hpass : ∀ s : Sums F,
      (s.newMeans.length = means.length ∧ s.counts.length = means.length) →
      ∀ i ∈ List.range data.length, sumPass data (data.map (assigned means)) s i =
          .ok (addPoint (assigned means (data.getD i default)) s (data.getD i default)) ∧
        (addPoint (assigned means (data.getD i default)) s (data.getD i default)).newMeans.length =
          means.length ∧
        (addPoint (assigned means (data.getD i default)) s (data.getD i default)).counts.length =
          means.length := by
    intro s ⟨hmeans, hcounts⟩ i hi
    have hi' := List.mem_range.mp hi
    rw [List.getD_eq_getElem _ _ hi']
    exact ⟨sumPass_eq hpos hmeans hcounts hi', by simpa [addPoint] using hmeans,
      by simpa [addPoint] using hcounts⟩
  have hstart : (List.replicate means.length (default : Point F)).length = means.length ∧
      (List.replicate means.length 0).length = means.length :=
    ⟨List.length_replicate, List.length_replicate⟩
  refine ⟨_, (foldlM_ok hpass hstart).1, fun g hg => ?_⟩
  have hread : ∀ (s : Sums F) (i : ℕ), (hi : i < data.length) →
      addPoint (assigned means (data.getD i default)) s (data.getD i default) =
        addPoint (assigned means data[i]) s data[i] := by
    intro s i hi
    rw [List.getD_eq_getElem _ _ hi]
  rw [foldl_range_eq (g := fun s p => addPoint (assigned means p) s p) hread]
  obtain ⟨hmeans, hcounts⟩ := foldl_addPoint (assigned means) data
    ⟨List.replicate means.length default, List.replicate means.length 0⟩ g
  -- the sums start from the origin
  have hzero : ∀ p : Point F, p = default → ∀ u v : F,
      (⟨p.x + u, p.y + v⟩ : Point F) = ⟨u, v⟩ := by
    rintro p rfl u v
    show (⟨0 + u, 0 + v⟩ : Point F) = ⟨u, v⟩
    rw [zero_add, zero_add]
  rw [hmeans, hcounts, List.getElem?_replicate_of_lt hg, List.getElem?_replicate_of_lt hg,
    Option.map_some, Option.map_some, hzero _ rfl, Nat.zero_add]
  exact ⟨rfl, rfl⟩

theorem iteration_eq (data means : List (Point F)) (hpos : 0 < means.length)
    {assignments : List ℕ} (hlen : assignments.length = data.length) :
    iteration data means.length (means, assignments) =
      .ok (step data means, data.map (assigned means)) := by
  obtain ⟨sums, hsums, hcell⟩ := sums_eq data means hpos
  have hpass : ∀ v : List (Point F), v.length = means.length → ∀ g ∈ List.range means.length,
      dividePass sums v g = .ok (v.set g (meanOf (cell data means g))) ∧
        (v.set g (meanOf (cell data means g))).length = means.length := by
    intro v hv g hg
    have hg' := List.mem_range.mp hg
    obtain ⟨hmean, hcount⟩ := hcell g hg'
    have hgv : g < v.length := hv ▸ hg'
    refine ⟨?_, by rwa [List.length_set]⟩
    rw [dividePass, nth_eq hcount, ok_bind, nth_eq hmean, ok_bind, update, nth_of_lt hgv]
    rfl
  rw [iteration, assign_eq data means hlen, ok_bind, hsums, ok_bind, (foldlM_ok hpass rfl).1,
    foldl_set_range _ _ le_rfl, List.drop_length, List.append_nil]
  rfl

theorem step_length (data means : List (Point F)) : (step data means).length = means.length := by
  rw [step, List.length_map, List.length_range]

theorem iterate_length (data means : List (Point F)) (m : ℕ) :
    ((step data)^[m] means).length = means.length := by
  induction m with
  | zero => rfl
  | succ m ih => rw [Function.iterate_succ_apply', step_length, ih]

theorem kMeans_eq {data means : List (Point F)} {k : ℕ} {indices : List ℕ}
    (hpick : pickMeans data k indices = .ok means) (hlen : means.length = k) (hpos : 0 < k)
    (m : ℕ) : kMeans data k m indices = .ok ((step data)^[m] means) := by
  subst hlen
  have hloop : ∃ assignments : List ℕ, assignments.length = data.length ∧
      (List.range m).foldlM (fun v _ => iteration data means.length v)
        (means, List.replicate data.length 0) = .ok ((step data)^[m] means, assignments) := by
    induction m with
    | zero => exact ⟨_, List.length_replicate, rfl⟩
    | succ m ih =>
      obtain ⟨assignments, hassignments, hm⟩ := ih
      have hlast := iteration_eq data ((step data)^[m] means)
        (by rwa [iterate_length]) hassignments
      rw [iterate_length] at hlast
      refine ⟨data.map (assigned ((step data)^[m] means)), List.length_map _, ?_⟩
      rw [List.range_succ, List.foldlM_append, hm, ok_bind, List.foldlM_cons, hlast, ok_bind,
        Function.iterate_succ_apply']
      rfl
  obtain ⟨assignments, -, hm⟩ := hloop
  rw [kMeans, hpick, ok_bind, hm]
  rfl

def Point.toList (p : Point F) : List F := [p.x, p.y]

structure Related (data : List (Point F)) (s : State F) (means : List (Point F)) : Prop where
  values_eq : s.points.map KMeans.Point.values = data.map Point.toList
  centroid_eq : s.clusters.map Cluster.centroid = means.map Point.toList

variable {data means : List (Point F)} {points : List (KMeans.Point F)}
  {s : State F} {km : Parameters}

omit [Field F] [LinearOrder F] in
theorem Related.length_eq (h : Related data s means) : s.clusters.length = means.length := by
  simpa using congrArg List.length h.centroid_eq

omit [LinearOrder F] in
theorem Related.centroid_getElem (h : Related data s means) {i : ℕ} (hi : i < s.clusters.length) :
    s.clusters[i].centroid = (means.getD i default).toList := by
  have hi' : i < means.length := h.length_eq ▸ hi
  have hget := congrArg (fun l => l[i]?) h.centroid_eq
  simp only [List.getElem?_map, List.getElem?_eq_getElem hi, List.getElem?_eq_getElem hi',
    Option.map_some, Option.some.injEq] at hget
  rw [hget, List.getD_eq_getElem _ _ hi']

omit [LinearOrder F] in
theorem sqDist_toList (m p : Point F) :
    Centres.sqDist (coords 2 m.toList) (coords 2 p.toList) = squaredL2Distance p m := by
  rw [Centres.sqDist, Fin.sum_univ_two, squaredL2Distance, square, square]
  show (m.x - p.x) ^ 2 + (m.y - p.y) ^ 2 = _
  ring

omit [LinearOrder F] in
theorem mean_eq_meanOf {members : List (KMeans.Point F)} {cell : List (Point F)}
    (h : members.map KMeans.Point.values = cell.map Point.toList) (hne : members ≠ []) :
    (List.range 2).map (mean members) = (meanOf cell).toList := by
  have hlen : members.length = cell.length := by simpa using congrArg List.length h
  have hpos : 0 < members.length := List.length_pos_iff.mpr hne
  have hcount : max 1 cell.length = members.length := by omega
  have hcoord : ∀ j, (members.map fun q => coord q.values j) =
      cell.map fun p => coord p.toList j := by
    intro j
    have hmap := congrArg (List.map fun values => coord values j) h
    rwa [List.map_map, List.map_map] at hmap
  have hx : mean members 0 = (meanOf cell).x := by
    rw [mean_eq, hcoord, meanOf, hcount]
    rfl
  have hy : mean members 1 = (meanOf cell).y := by
    rw [mean_eq, hcoord, meanOf, hcount]
    rfl
  show [mean members 0, mean members 1] = [(meanOf cell).x, (meanOf cell).y]
  rw [hx, hy]

omit [LinearOrder F] in
theorem pickMeans_eq (data : List (Point F)) {used : List ℕ} (h : ∀ i ∈ used, i < data.length) :
    pickMeans data used.length used = .ok (used.map fun i => data.getD i default) := by
  induction used with
  | nil => rfl
  | cons i used ih =>
    have hi : i < data.length := h i List.mem_cons_self
    have hrest := ih fun j hj => h j (List.mem_cons_of_mem i hj)
    rw [List.length_cons, pickMeans, nth_of_lt hi, ok_bind, hrest, ok_bind, List.map_cons,
      List.getD_eq_getElem _ _ hi]
    rfl

omit [LinearOrder F] in
theorem values_eq_toList (hdata : points.map KMeans.Point.values = data.map Point.toList) {i : ℕ}
    (hi : i < points.length) :
    (points[i]?).elim [] KMeans.Point.values = (data.getD i default).toList := by
  have hlen : points.length = data.length := by simpa using congrArg List.length hdata
  have hi' : i < data.length := hlen ▸ hi
  have hget := congrArg (fun l => l[i]?) hdata
  simp only [List.getElem?_map, List.getElem?_eq_getElem hi, List.getElem?_eq_getElem hi',
    Option.map_some, Option.some.injEq] at hget
  rw [List.getElem?_eq_getElem hi, Option.elim_some, hget, List.getD_eq_getElem _ _ hi']

omit [LinearOrder F] in
/-- The means that `k_means` picks are the seeds. -/
theorem related_seeded (hdata : points.map KMeans.Point.values = data.map Point.toList)
    {k : ℕ} {t : Seeding F} (hseeded : Seeded points k t)
    (hused : ∀ i ∈ t.used, i < points.length) (hcentroids : t.clusters.map Cluster.centroid =
      t.used.map fun i => (points[i]?).elim [] KMeans.Point.values) :
    Related data ⟨t.points, t.clusters⟩ (t.used.map fun i => data.getD i default) where
  values_eq := by
    have hvalues := congrArg (List.map Prod.snd) hseeded.data_eq
    rw [List.map_map, List.map_map] at hvalues
    rw [← hdata]
    exact hvalues
  centroid_eq := by
    rw [List.map_map]
    refine hcentroids.trans (List.map_congr_left fun i hi => ?_)
    exact values_eq_toList hdata (hused i hi)

section Agreement

variable [IsStrictOrderedRing F] [ExactMath F]

/-- Square roots or not, the search finds the same cluster. -/
theorem nearest_eq (h : Related data s means) (hshaped : Shaped km s) {q : KMeans.Point F}
    {p : Point F} (hq : q.values = p.toList) :
    nearest 2 s.clusters q = (assigned means p : ℤ) + 1 := by
  obtain ⟨front, c, back, hsplit, hnearest, hfront, hback⟩ :=
    nearest_first (d := 2) hshaped.clusters_pos q
  have hlt : ∀ i j, (hi : i < s.clusters.length) → (hj : j < s.clusters.length) →
      (dist 2 s.clusters[i].centroid q.values < dist 2 s.clusters[j].centroid q.values ↔
        distanceTo means p i < distanceTo means p j) := by
    intro i j hi hj
    rw [dist_lt_dist, h.centroid_getElem hi, h.centroid_getElem hj, hq, sqDist_toList,
      sqDist_toList]
    rfl
  have hlen : s.clusters.length = front.length + (back.length + 1) := by
    rw [hsplit, List.length_append, List.length_cons]
  have hc : front.length < s.clusters.length := by omega
  have hget : s.clusters[front.length] = c := by simp [hsplit]
  have hmin : FirstMin (distanceTo means p) means.length front.length := by
    refine ⟨h.length_eq ▸ hc, fun j hj => ?_, fun j hj => ?_⟩
    · have hj' : j < s.clusters.length := hj.trans hc
      have hmem : s.clusters[j] ∈ front := by
        simp only [hsplit, List.getElem_append_left hj, List.getElem_mem]
      rw [← hlt _ _ hc hj', hget]
      exact hfront _ hmem
    · have hj' : j < s.clusters.length := h.length_eq ▸ hj
      rw [← not_lt, ← hlt _ _ hj' hc, hget, not_lt]
      have hmem : s.clusters[j] ∈ front ++ c :: back := hsplit ▸ List.getElem_mem hj'
      rcases List.mem_append.mp hmem with hmem | hmem
      · exact (hfront _ hmem).le
      · rcases List.mem_cons.mp hmem with hmem | hmem
        · rw [hmem]
        · exact hback _ hmem
  have hpos : 0 < means.length := h.length_eq ▸ hshaped.clusters_pos
  have hindex : assigned means p = front.length := (assigned_firstMin hpos p).unique hmin
  rw [hnearest, hindex, ← hget, hshaped.clusterId_eq _ hc]

theorem map_filter_eq {α β γ : Type} {f : α → γ} {g : β → γ} {P : α → Bool} {Q : β → Bool}
    (hPQ : ∀ x y, f x = g y → P x = Q y) {l : List α} {l' : List β} (h : l.map f = l'.map g) :
    (l.filter P).map f = (l'.filter Q).map g := by
  induction l generalizing l' with
  | nil =>
    rw [List.map_nil, eq_comm, List.map_eq_nil_iff] at h
    rw [h]
    rfl
  | cons x l ih =>
    cases l' with
    | nil => cases h
    | cons y l' =>
      obtain ⟨hxy, hrest⟩ := List.cons.inj h
      have hkeep := hPQ x y hxy
      cases hQ : Q y with
      | false => rw [List.filter_cons_of_neg (by simp [hkeep, hQ]),
          List.filter_cons_of_neg (by simp [hQ]), ih hrest]
      | true => rw [List.filter_cons_of_pos (by simp [hkeep, hQ]),
          List.filter_cons_of_pos (by simp [hQ]), List.map_cons, List.map_cons, hxy, ih hrest]

/-- A cluster holds the points assigned to its mean. -/
theorem members_values (h : Related data s means) (hshaped : Shaped km s) {i : ℕ}
    (hi : i < s.clusters.length) :
    (members (KMeans.round 2 s).points s.clusters[i]).map KMeans.Point.values =
      (cell data means i).map Point.toList := by
  have hvalues : (KMeans.round 2 s).points.map KMeans.Point.values = data.map Point.toList := by
    rw [← h.values_eq, KMeans.round, List.map_map]
    rfl
  -- the label is that of the round, which the coordinates determine
  have hlabel : ∀ (q : KMeans.Point F) (p : Point F), q.values = p.toList →
      decide ((relabel 2 s.clusters q).clusterId = s.clusters[i].clusterId) =
        decide (assigned means p = i) := by
    intro q p hq
    have hid : (relabel 2 s.clusters q).clusterId = nearest 2 s.clusters q := rfl
    rw [hid, nearest_eq h hshaped hq, hshaped.clusterId_eq i hi]
    simp
  have hmembers : (members (KMeans.round 2 s).points s.clusters[i]).map KMeans.Point.values =
      (s.points.filter fun q => (relabel 2 s.clusters q).clusterId =
        s.clusters[i].clusterId).map KMeans.Point.values := by
    rw [members, KMeans.round, List.filter_map, List.map_map]
    rfl
  rw [hmembers]
  exact map_filter_eq hlabel h.values_eq

/-- An iteration of either program keeps them together unless it leaves a cluster empty. -/
theorem Related.round (h : Related data s means) (hshaped : Shaped km s) (hexact : Exact points 2 s)
    (hfull : ∀ c ∈ (KMeans.round 2 s).clusters, c.points ≠ []) :
    Related data (KMeans.round 2 s) (step data means) where
  values_eq := by
    rw [← h.values_eq, KMeans.round, List.map_map]
    rfl
  centroid_eq := by
    apply List.ext_getElem
    · simp [KMeans.round, step, h.length_eq]
    · intro i hi hi'
      have hi' : i < s.clusters.length := by simpa [KMeans.round] using hi
      have hmem : recentered 2 { s.clusters[i] with
          points := members (KMeans.round 2 s).points s.clusters[i] } ∈
            (KMeans.round 2 s).clusters := by
        exact List.mem_map_of_mem (f := fun c => recentered 2
          { c with points := members (KMeans.round 2 s).points c }) (List.getElem_mem hi')
      have hne := hfull _ hmem
      rw [recentered_points] at hne
      have hlen := hexact.centroid_length _ (List.getElem_mem hi')
      have hcell := mean_eq_meanOf (members_values h hshaped hi') hne
      have hcenter := congrArg Cluster.centroid (recentered_of_ne_nil (by exact hlen) hne)
      simp only [List.getElem_map, step, List.getElem_range, KMeans.round]
      exact hcenter.trans hcell

/-- Once no label has changed, further iterations of `k_means` find the same means. -/
theorem Related.settled (h : Related data s means) (hd : km.dimensions = 2)
    (hshaped : Shaped km s) (hexact : Exact points 2 s) (hbalanced : Balanced 2 s)
    (hdone : unchanged 2 s = true) (hfull : ∀ c ∈ (KMeans.round 2 s).clusters, c.points ≠ [])
    (t : ℕ) : Related data (KMeans.round 2 s) ((step data)^[t + 1] means) := by
  have hround : Shaped km (KMeans.round 2 s) := by
    rw [← hd]
    exact hshaped.round
  have hfixed : KMeans.round 2 (KMeans.round 2 s) = KMeans.round 2 s := by
    rw [round_of_unchanged hexact hbalanced hdone]
    exact (filled_fixed hexact hbalanced hdone).1
  induction t with
  | zero => exact h.round hshaped hexact hfull
  | succ t ih =>
    have hnext := ih.round hround hexact.round (by rwa [hfixed])
    rw [hfixed] at hnext
    rwa [Function.iterate_succ_apply']

/-- The last state of `KMeans::run` against all iterations of `k_means`. -/
theorem Related.rounds (h : Related data s means) (hd : km.dimensions = 2)
    (hshaped : Shaped km s) (hexact : Exact points 2 s) (hbalanced : Balanced 2 s) (left : ℕ)
    (hfull : ∀ r ∈ rounds 2 left s, ∀ c ∈ r.1.clusters, c.points ≠ []) :
    ∃ last done, (KMeans.rounds 2 left s).getLast? = some (last, done) ∧
      Related data last ((step data)^[left + 1] means) := by
  induction left generalizing s means with
  | zero => exact ⟨_, _, rfl, h.round hshaped hexact (hfull _ List.mem_cons_self)⟩
  | succ left ih =>
    have hfirst := hfull _ List.mem_cons_self
    by_cases hdone : unchanged 2 s = true
    · have hlast : (KMeans.rounds 2 (left + 1) s).getLast? =
          some (KMeans.round 2 s, unchanged 2 s) := by
        rw [KMeans.rounds, if_pos hdone]
        rfl
      exact ⟨_, _, hlast, h.settled hd hshaped hexact hbalanced hdone hfirst (left + 1)⟩
    · have hround : Shaped km (KMeans.round 2 s) := by
        rw [← hd]
        exact hshaped.round
      have hrounds : KMeans.rounds 2 (left + 1) s =
          (KMeans.round 2 s, unchanged 2 s) :: KMeans.rounds 2 left (KMeans.round 2 s) := by
        rw [KMeans.rounds, if_neg hdone]
      obtain ⟨last, done, hlast, hrelated⟩ := ih (h.round hshaped hexact hfirst) hround
        hexact.round (Balanced.round hexact)
        fun r hr => hfull r (hrounds ▸ List.mem_cons_of_mem _ hr)
      refine ⟨last, done, ?_, ?_⟩
      · rw [hrounds, List.getLast?_cons, hlast]
        rfl
      · rwa [Function.iterate_succ_apply]

/-- For as long as no cluster is empty, `k_means` returns the centroids `KMeans::run` writes
when it draws the same seeds, whether `KMeans::run` stops before its limit or not. -/
theorem kMeans_eq_run (data : List (Point F)) (points : List (KMeans.Point F))
    (hdata : points.map KMeans.Point.values = data.map Point.toList)
    (hnew : ∀ p ∈ points, p.clusterId = 0) (k m : ℕ) (hk : 1 ≤ k) (hn : k ≤ data.length)
    (hm : 1 ≤ m) (rand : List ℕ) {seeded : Seeding F}
    (hseed : seeding ⟨k, m, points.length, 2⟩ points rand = .ok seeded) :
    ∃ r : Run F, run k m points rand = .ok r ∧
      ((∀ v ∈ r.history, ∀ c ∈ v.1.clusters, c.points ≠ []) →
        ∃ means last done, kMeans data k m seeded.used = .ok means ∧
          r.history.getLast? = some (last, done) ∧
          last.clusters.map Cluster.centroid = means.map Point.toList ∧
          r.clustersFile = means.map Point.toList) := by
  have hlen : points.length = data.length := by simpa using congrArg List.length hdata
  have hvalues : ∀ p ∈ points, p.values.length = 2 := by
    intro p hp
    have hmem : p.values ∈ data.map Point.toList := hdata ▸ List.mem_map_of_mem hp
    obtain ⟨q, -, hq⟩ := List.mem_map.mp hmem
    rw [← hq]
    rfl
  obtain ⟨hseeded, hfresh, hshaped, hexact, hrun⟩ :=
    run_eq hvalues (by omega) (by omega) hseed
  refine ⟨_, hrun, fun hfull => ?_⟩
  have hpos : 0 < points.length := by omega
  have hk' : (k : ℤ).toNat = k := Int.toNat_natCast k
  obtain ⟨hused, hcentroids⟩ := seedLoop_centroids rfl hpos hseed
  have hcount : seeded.used.length = k := (seedLoop_used rfl hpos hseed).trans hk'
  have hpick := pickMeans_eq data (hlen ▸ hused)
  rw [hcount] at hpick
  have hrelated := related_seeded hdata hseeded hused hcentroids
  have hdims : (Parameters.mk k m points.length 2).dimensions = 2 := rfl
  have hleft : ((m : ℤ) - 1).toNat = m - 1 := by omega
  have hfull' : ∀ v ∈ rounds 2 (m - 1) (⟨seeded.points, seeded.clusters⟩ : State F),
      ∀ c ∈ v.1.clusters, c.points ≠ [] := by
    rw [← hleft]
    exact hfull
  obtain ⟨last, done, hlast, hend⟩ := hrelated.rounds hdims hshaped hexact
    ((hfresh hnew).balanced hexact) (m - 1) hfull'
  rw [Nat.sub_add_cancel hm] at hend
  rw [← hleft] at hlast
  -- the file is written from the same state
  obtain ⟨last', done', hlast', -, -, hfile⟩ := completed_files hdims hexact
  obtain ⟨rfl, rfl⟩ : last = last' ∧ done = done' := by
    simpa using hlast.symm.trans hlast'
  exact ⟨_, last, done, kMeans_eq hpick (by simp [hcount]) hk m, hlast, hend.centroid_eq,
    hfile.trans hend.centroid_eq⟩

end Agreement

theorem kMeans_eq_run_two : ∃ (r : Run ℝ) (means : List (Point ℝ)),
    run 1 3 [⟨1, 0, [0, 4]⟩, ⟨2, 0, [2, 6]⟩] [0] = .ok r ∧
      kMeans [⟨0, 4⟩, ⟨2, 6⟩] 1 3 [0] = .ok means ∧
      r.clustersFile = means.map Point.toList := by
  obtain ⟨r, hrun, hr⟩ := kMeans_eq_run (F := ℝ) [⟨0, 4⟩, ⟨2, 6⟩]
    [⟨1, 0, [0, 4]⟩, ⟨2, 0, [2, 6]⟩] rfl (by simp) 1 3 (by decide) (by decide) (by decide) [0] rfl
  -- the second iteration changes no label
  have hsizes : r.history.map (fun v => v.1.clusters.map Cluster.getSize) = [[2], [2]] := by
    cases hrun
    rfl
  have hfull : ∀ v ∈ r.history, ∀ c ∈ v.1.clusters, c.points ≠ [] := by
    intro v hv c hc hempty
    have hv' : v.1.clusters.map Cluster.getSize ∈ [[2], [2]] :=
      hsizes ▸ List.mem_map_of_mem (f := fun v => v.1.clusters.map Cluster.getSize) hv
    have hc' : c.getSize ∈ v.1.clusters.map Cluster.getSize := List.mem_map_of_mem hc
    have hone : v.1.clusters.map Cluster.getSize = [2] := by simpa using hv'
    rw [hone, List.mem_singleton, Cluster.getSize, hempty] at hc'
    cases hc'
  obtain ⟨means, last, done, hmeans, -, -, hfile⟩ := hr hfull
  exact ⟨r, means, hrun, hmeans, hfile⟩

end ParallelPrograms.KMeans.Planar
