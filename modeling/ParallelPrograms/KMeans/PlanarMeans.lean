import ParallelPrograms.KMeans.Planar

namespace ParallelPrograms.KMeans.Planar

variable {F : Type} [Field F] [LinearOrder F] {data means : List (Point F)}

omit [LinearOrder F] in
/-- Only the first `k` results of `indices` are used. -/
theorem pickMeans_take (data : List (Point F)) {k : ℕ} {indices : List ℕ}
    (hk : k ≤ indices.length) (h : ∀ i ∈ indices, i < data.length) :
    pickMeans data k indices =
      .ok ((indices.take k).map fun i => data.getD i default) := by
  induction indices generalizing k with
  | nil =>
    obtain rfl : k = 0 := Nat.le_zero.mp hk
    rfl
  | cons i indices ih =>
    cases k with
    | zero => rfl
    | succ k =>
      have hi : i < data.length := h i List.mem_cons_self
      have hrest := ih (Nat.le_of_succ_le_succ hk) fun j hj => h j (List.mem_cons_of_mem i hj)
      rw [pickMeans, nth_of_lt hi, ok_bind, hrest, ok_bind, List.take_succ_cons, List.map_cons,
        List.getD_eq_getElem _ _ hi]
      rfl

/-- A run goes through the iterates of `step`, from points of the data. -/
theorem kMeans_iterate (data : List (Point F)) {k : ℕ} {indices : List ℕ} (hpos : 1 ≤ k)
    (hk : k ≤ indices.length) (h : ∀ i ∈ indices, i < data.length) :
    ∃ seeds : List (Point F), seeds.length = k ∧ (∀ c ∈ seeds, c ∈ data) ∧
      ∀ m, kMeans data k m indices = .ok ((step data)^[m] seeds) := by
  have hlen : ((indices.take k).map fun i => data.getD i default).length = k := by
    rw [List.length_map, List.length_take_of_le hk]
  refine ⟨_, hlen, fun c hc => ?_, kMeans_eq (pickMeans_take data hk h) hlen hpos⟩
  obtain ⟨i, hi, rfl⟩ := List.mem_map.mp hc
  have hlt := h i (List.mem_of_mem_take hi)
  rw [List.getD_eq_getElem _ _ hlt]
  exact List.getElem_mem hlt

theorem step_getElem? (data means : List (Point F)) {g : ℕ} (hg : g < means.length) :
    (step data means)[g]? = some (meanOf (cell data means g)) := by
  rw [step, List.getElem?_map, List.getElem?_range hg]
  rfl

/-- Each coordinate is between the smallest and the largest one of the data. -/
structure Within (data : List (Point F)) (c : Point F) : Prop where
  x_ge : ∃ p ∈ data, p.x ≤ c.x
  x_le : ∃ p ∈ data, c.x ≤ p.x
  y_ge : ∃ p ∈ data, p.y ≤ c.y
  y_le : ∃ p ∈ data, c.y ≤ p.y

omit [Field F] in
theorem within_of_mem {c : Point F} (hc : c ∈ data) : Within data c :=
  ⟨⟨c, hc, le_rfl⟩, ⟨c, hc, le_rfl⟩, ⟨c, hc, le_rfl⟩, ⟨c, hc, le_rfl⟩⟩

omit [Field F] in
theorem Within.mono {points : List (Point F)} {c : Point F} (h : Within points c)
    (hsub : ∀ p ∈ points, p ∈ data) : Within data c where
  x_ge := h.x_ge.imp fun p hp => ⟨hsub p hp.1, hp.2⟩
  x_le := h.x_le.imp fun p hp => ⟨hsub p hp.1, hp.2⟩
  y_ge := h.y_ge.imp fun p hp => ⟨hsub p hp.1, hp.2⟩
  y_le := h.y_le.imp fun p hp => ⟨hsub p hp.1, hp.2⟩

variable [IsStrictOrderedRing F]

theorem within_meanOf {points : List (Point F)} (hne : points ≠ []) :
    Within points (meanOf points) := by
  have hcount : max 1 points.length = points.length :=
    max_eq_right (List.length_pos_iff.mpr hne)
  obtain ⟨hx, hx'⟩ := Centres.exists_le_mean hne Point.x
  obtain ⟨hy, hy'⟩ := Centres.exists_le_mean hne Point.y
  rw [meanOf, hcount]
  exact ⟨hx, hx', hy, hy'⟩

/-- Cluster `g` got no point in the last of `m` iterations. -/
def LeftEmpty (data : List (Point F)) (k : ℕ) (indices : List ℕ) (m g : ℕ) : Prop :=
  ∃ t before, m = t + 1 ∧ kMeans data k t indices = .ok before ∧ ∀ p ∈ data, assigned before p ≠ g

/-- A mean is in the box around the data, unless its cluster got no point in the last iteration:
then it is the origin. -/
theorem kMeans_within (data : List (Point F)) (k m : ℕ) (indices : List ℕ) (hk : 1 ≤ k)
    (hdraws : k ≤ indices.length) (hindices : ∀ i ∈ indices, i < data.length) :
    ∃ means, kMeans data k m indices = .ok means ∧ means.length = k ∧
      ∀ (g : ℕ) (c : Point F), means[g]? = some c →
        (¬ LeftEmpty data k indices m g → Within data c) ∧
          (LeftEmpty data k indices m g → c = ⟨0, 0⟩) := by
  obtain ⟨seeds, hlen, hseeds, hrun⟩ := kMeans_iterate data hk hdraws hindices
  refine ⟨_, hrun m, by rw [iterate_length, hlen], fun g c hc => ?_⟩
  cases m with
  | zero =>
    refine ⟨fun _ => within_of_mem (hseeds c (List.mem_of_getElem? hc)), ?_⟩
    rintro ⟨t, before, hm, -⟩
    cases hm
  | succ t =>
    rw [Function.iterate_succ_apply'] at hc
    have hg : g < ((step data)^[t] seeds).length := by
      rw [← step_length data]
      exact (List.getElem?_eq_some_iff.mp hc).1
    rw [step_getElem? data _ hg] at hc
    obtain rfl := Option.some.inj hc
    have hempty : LeftEmpty data k indices (t + 1) g ↔
        cell data ((step data)^[t] seeds) g = [] := by
      rw [cell, List.filter_eq_nil_iff]
      simp only [decide_eq_true_eq]
      constructor
      · rintro ⟨t', before, ht, hbefore, hnone⟩
        obtain rfl : t = t' := by omega
        obtain rfl := Except.ok.inj ((hrun t).symm.trans hbefore)
        exact hnone
      · exact fun hnone => ⟨t, _, rfl, hrun t, hnone⟩
    rw [hempty]
    refine ⟨fun hne => ?_, fun hnil => ?_⟩
    · exact (within_meanOf hne).mono fun p hp => List.mem_of_mem_filter hp
    · rw [hnil, meanOf]
      simp

def onePoint : List (Point ℝ) := [⟨1, 1⟩]

theorem cell_twice : cell onePoint [⟨1, 1⟩, ⟨1, 1⟩] 1 = [] := by
  have hpos : 0 < [(⟨1, 1⟩ : Point ℝ), ⟨1, 1⟩].length := Nat.two_pos
  have hmin := assigned_firstMin hpos ⟨1, 1⟩
  have hfirst : assigned [(⟨1, 1⟩ : Point ℝ), ⟨1, 1⟩] ⟨1, 1⟩ ≠ 1 := by
    intro hone
    exact (hmin.before 0 (by omega)).ne (by rw [hone]; rfl)
  simp [cell, onePoint, hfirst]

theorem kMeans_twice : kMeans onePoint 2 1 [0, 0] = .ok (step onePoint [⟨1, 1⟩, ⟨1, 1⟩]) := by
  have hpick : pickMeans onePoint 2 [0, 0] = .ok [⟨1, 1⟩, ⟨1, 1⟩] := rfl
  exact kMeans_eq hpick rfl Nat.two_pos 1

theorem kMeans_within_twice : ∃ means : List (Point ℝ),
    kMeans onePoint 2 1 [0, 0] = .ok means ∧ means.length = 2 ∧
      ∀ (g : ℕ) (c : Point ℝ), means[g]? = some c →
        (¬ LeftEmpty onePoint 2 [0, 0] 1 g → Within onePoint c) ∧
          (LeftEmpty onePoint 2 [0, 0] 1 g → c = ⟨0, 0⟩) :=
  kMeans_within onePoint 2 1 [0, 0] (by decide) (by decide) (by simp [onePoint])

/-- One iteration moves the second mean away from the only point. -/
theorem not_within_twice : ¬ ∀ (data : List (Point ℝ)) (k m : ℕ) (indices : List ℕ), 1 ≤ k →
    k ≤ indices.length → (∀ i ∈ indices, i < data.length) →
      ∃ means, kMeans data k m indices = .ok means ∧ ∀ c ∈ means, Within data c := by
  intro h
  obtain ⟨means, hmeans, hwithin⟩ :=
    h onePoint 2 1 [0, 0] (by decide) (by decide) (by simp [onePoint])
  obtain rfl := Except.ok.inj (kMeans_twice.symm.trans hmeans)
  have hsecond := step_getElem? onePoint [⟨1, 1⟩, ⟨1, 1⟩] Nat.one_lt_two
  obtain ⟨p, hp, hle⟩ := (hwithin _ (List.mem_of_getElem? hsecond)).x_ge
  rw [cell_twice] at hle
  obtain rfl := List.mem_singleton.mp hp
  norm_num [meanOf] at hle

def nearestDistance (means : List (Point F)) (p : Point F) : F :=
  ((means.map (squaredL2Distance p)).min?).getD 0

def cost (data means : List (Point F)) : F := (data.map (nearestDistance means)).sum

omit [IsStrictOrderedRing F] in
theorem nearestDistance_eq (hpos : 0 < means.length) (p : Point F) :
    nearestDistance means p = distanceTo means p (assigned means p) := by
  have hmin := assigned_firstMin hpos p
  have hread : ∀ g, (hg : g < means.length) →
      distanceTo means p g = squaredL2Distance p means[g] := by
    intro g hg
    rw [distanceTo, List.getD_eq_getElem _ _ hg]
  have hsome : (means.map (squaredL2Distance p)).min? =
      some (distanceTo means p (assigned means p)) := by
    rw [List.min?_eq_some_iff]
    constructor
    · rw [hread _ hmin.lt]
      exact List.mem_map_of_mem (List.getElem_mem hmin.lt)
    · intro b hb
      obtain ⟨c, hc, rfl⟩ := List.mem_map.mp hb
      obtain ⟨g, hg, rfl⟩ := List.mem_iff_getElem.mp hc
      rw [← hread g hg]
      exact hmin.le g hg
  rw [nearestDistance, hsome, Option.getD_some]

def location (data : List (Point F)) (i : Fin data.length) : Fin 2 → F := coords 2 data[i].toList

def centre (means : List (Point F)) (g : ℕ) : Fin 2 → F := coords 2 (means.getD g default).toList

def labels (data means : List (Point F)) (i : Fin data.length) : ℕ := assigned means data[i]

omit [LinearOrder F] [IsStrictOrderedRing F] in
theorem sqDist_centre (data means : List (Point F)) (i : Fin data.length) (g : ℕ) :
    Centres.sqDist (centre means g) (location data i) = distanceTo means data[i] g :=
  sqDist_toList _ _

omit [IsStrictOrderedRing F] in
theorem nearest_labels (data : List (Point F)) (hpos : 0 < means.length) :
    Centres.Nearest {g | g < means.length} (location data) (centre means) (labels data means) where
  mem i := (assigned_firstMin hpos data[i]).lt
  le i g hg := by
    rw [sqDist_centre, sqDist_centre]
    exact (assigned_firstMin hpos data[i]).le g hg
  lt i g _ hlt := by
    rw [sqDist_centre, sqDist_centre]
    exact (assigned_firstMin hpos data[i]).before g hlt

omit [IsStrictOrderedRing F] in
theorem cost_eq (data : List (Point F)) (hpos : 0 < means.length) :
    cost data means = Centres.cost (location data) (centre means) (labels data means) := by
  rw [cost, Centres.cost, ← Fin.sum_univ_fun_getElem]
  apply Finset.sum_congr rfl
  intro i _
  rw [sqDist_centre]
  exact nearestDistance_eq hpos _

omit [LinearOrder F] [IsStrictOrderedRing F] in
theorem coord_meanOf (points : List (Point F)) (j : Fin 2) :
    coord (meanOf points).toList j =
      (points.map fun p => coord p.toList j).sum / (max 1 points.length : ℕ) := by
  match j with
  | 0 => rfl
  | 1 => rfl

/-- The means behind an iteration balance the assignments of that iteration. -/
theorem centered_step (data means : List (Point F)) (hpos : 0 < means.length) :
    Centres.Centered (location data) (centre (step data means)) (labels data means) := by
  intro g j
  have hsum : ∑ i with labels data means i = g, (centre (step data means) g j - location data i j) =
      ((cell data means g).map fun p =>
        centre (step data means) g j - coord p.toList j).sum :=
    Centres.sum_filter_getElem data (fun p => assigned means p = g)
      fun p => centre (step data means) g j - coord p.toList j
  rw [hsum, Centres.sum_const_sub]
  by_cases hempty : cell data means g = []
  · simp [hempty]
  · obtain ⟨p, hp⟩ := List.exists_mem_of_ne_nil _ hempty
    have hg : g < means.length := by
      rw [← of_decide_eq_true (List.mem_filter.mp hp).2]
      exact (assigned_firstMin hpos p).lt
    have hlen : 0 < (cell data means g).length := List.length_pos_iff.mpr hempty
    have hne : ((cell data means g).length : F) ≠ 0 := Nat.cast_ne_zero.mpr hlen.ne'
    rw [centre, List.getD_eq_getElem?_getD, step_getElem? data means hg, Option.getD_some, coords,
      coord_meanOf, max_eq_right hlen, mul_div_cancel₀ _ hne, sub_self]

/-- No iteration raises the cost, whether clusters are empty or not. -/
theorem cost_step_le (data means : List (Point F)) (hpos : 0 < means.length) :
    cost data (step data means) ≤ cost data means := by
  have hlen := step_length data means
  have hpos' : 0 < (step data means).length := hlen.symm ▸ hpos
  have hnearest := nearest_labels data hpos'
  -- the old assignments are those to means of the new list
  have hmem : ∀ i, labels data means i ∈ {g | g < (step data means).length} := fun i =>
    hlen.symm ▸ (nearest_labels data hpos).mem i
  rw [cost_eq data hpos, cost_eq data hpos']
  calc Centres.cost (location data) (centre (step data means)) (labels data (step data means))
      ≤ Centres.cost (location data) (centre (step data means)) (labels data means) :=
        hnearest.cost_le hmem
    _ ≤ Centres.cost (location data) (centre means) (labels data means) :=
        (centered_step data means hpos).cost_le (centre means)

/-- An iteration more never raises the cost. -/
theorem kMeans_cost_le (data : List (Point F)) (k m : ℕ) (indices : List ℕ) (hk : 1 ≤ k)
    (hdraws : k ≤ indices.length) (hindices : ∀ i ∈ indices, i < data.length) :
    ∃ before after, kMeans data k m indices = .ok before ∧
      kMeans data k (m + 1) indices = .ok after ∧ cost data after ≤ cost data before := by
  obtain ⟨seeds, hlen, -, hrun⟩ := kMeans_iterate data hk hdraws hindices
  refine ⟨_, _, hrun m, hrun (m + 1), ?_⟩
  rw [Function.iterate_succ_apply']
  apply cost_step_le
  rw [iterate_length, hlen]
  exact hk

theorem kMeans_cost_le_twice : ∃ before after : List (Point ℝ),
    kMeans onePoint 2 0 [0, 0] = .ok before ∧ kMeans onePoint 2 1 [0, 0] = .ok after ∧
      cost onePoint after ≤ cost onePoint before :=
  kMeans_cost_le onePoint 2 0 [0, 0] (by decide) (by decide) (by simp [onePoint])

end ParallelPrograms.KMeans.Planar
