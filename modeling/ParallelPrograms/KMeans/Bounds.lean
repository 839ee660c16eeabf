import Mathlib.Data.Nat.Cast.Basic
import ParallelPrograms.KMeans.Arithmetic
import ParallelPrograms.KMeans.Seeding

namespace ParallelPrograms.KMeans

variable {F : Type} [Zero F] [Add F] [Sub F] [CMath F] {km : Parameters}

theorem distance_onlyRange (d : ℕ) (c : Cluster F) (p : Point F) : OnlyRange (distance d c p) := by
  have hread : ∀ (j : ℕ) {σ : Type} (f : F → F → σ), OnlyRange (do
      let x ← c.getCentroidByPos j
      let y ← p.getVal j
      return f x y) := by
    intro j σ f
    apply (OnlyRange.nth c.centroid j).bind
    intro x
    exact (OnlyRange.nth p.values j).bind fun y => .ok _
  unfold distance
  split_ifs
  · exact hread 0 _
  · apply OnlyRange.bind
    · exact .foldlM (fun sum j => hread j fun x y => sum + CMath.pow2 (x - y)) _ _
    · exact fun sum => .ok _

theorem le_of_distance_ok {d : ℕ} {c : Cluster F} {p : Point F} {x : F}
    (h : distance d c p = .ok x) : d ≤ p.values.length := by
  unfold distance at h
  split_ifs at h with h1
  · obtain ⟨u, -, h⟩ := exists_of_bind_ok h
    obtain ⟨v, hv, -⟩ := exists_of_bind_ok h
    have hlt := lt_of_nth_ok hv
    omega
  · obtain ⟨sum, hloop, -⟩ := exists_of_bind_ok h
    have hpass := exists_of_foldlM_ok (fun _ => True) (fun _ _ _ _ _ => trivial) trivial hloop
    cases d with
    | zero => exact Nat.zero_le _
    | succ d =>
      -- the last pass of the loop reads the last coordinate
      obtain ⟨s, t, -, hbody⟩ := hpass d List.self_mem_range_succ
      obtain ⟨u, -, hbody⟩ := exists_of_bind_ok hbody
      obtain ⟨v, hv, -⟩ := exists_of_bind_ok hbody
      have hlt := lt_of_nth_ok hv
      omega

variable [LT F] [DecidableLT F]

theorem getNearestClusterId_onlyRange (clusters : List (Cluster F)) (p : Point F) :
    OnlyRange (getNearestClusterId km clusters p) := by
  apply (OnlyRange.nth clusters 0).bind
  intro c
  apply (distance_onlyRange km.dimensions c p).bind
  intro minDist
  apply OnlyRange.bind
  · apply OnlyRange.foldlM
    intro v i
    apply (OnlyRange.nth clusters i).bind
    intro c
    apply (distance_onlyRange km.dimensions c p).bind
    intro dist
    split_ifs
    · exact .ok _
    · exact .ok _
  · exact fun v => .ok _

theorem of_getNearestClusterId_ok {clusters : List (Cluster F)} {p : Point F} {g : ℤ}
    (h : getNearestClusterId km clusters p = .ok g) :
    clusters ≠ [] ∧ km.dimensions ≤ p.values.length := by
  obtain ⟨c, hc, h⟩ := exists_of_bind_ok h
  obtain ⟨minDist, hdist, -⟩ := exists_of_bind_ok h
  refine ⟨?_, le_of_distance_ok hdist⟩
  rintro rfl
  cases hc

theorem assignPoint_onlyRange (clusters : List (Cluster F)) (points : List (Point F)) (done : Bool)
    (i : ℕ) : OnlyRange (assignPoint km clusters points done i) := by
  apply (OnlyRange.nth points i).bind
  intro p
  apply (getNearestClusterId_onlyRange clusters p).bind
  intro g
  split_ifs
  · exact (OnlyRange.update points i fun p => .ok _).bind fun _ => .ok _
  · exact .ok _

theorem of_assignPoint_ok {clusters : List (Cluster F)} {points : List (Point F)} {done : Bool}
    {i : ℕ} {v : List (Point F) × Bool} (h : assignPoint km clusters points done i = .ok v) :
    v.1.map Point.values = points.map Point.values ∧ clusters ≠ [] ∧
      ∃ values, (points.map Point.values)[i]? = some values ∧ km.dimensions ≤ values.length := by
  obtain ⟨p, hp, h⟩ := exists_of_bind_ok h
  obtain ⟨g, hg, h⟩ := exists_of_bind_ok h
  have hi : i < points.length := by
    have hlt := lt_of_nth_ok hp
    omega
  obtain rfl : points[i] = p := Except.ok.inj ((nth_of_lt hi).symm.trans hp)
  obtain ⟨hclusters, hdims⟩ := of_getNearestClusterId_ok hg
  refine ⟨?_, hclusters, points[i].values, by simp [hi], hdims⟩
  split_ifs at h
  · have hupdate : update points (i : ℕ) (fun p => .ok (p.setCluster g)) =
        .ok (points.modify i fun p => p.setCluster g) := update_eq hi rfl
    rw [hupdate] at h
    obtain rfl := Except.ok.inj h
    have hvalues : ∀ p : Point F, (p.setCluster g).values = p.values := fun _ => rfl
    exact map_modify_eq hvalues points i
  · obtain rfl := Except.ok.inj h
    rfl

theorem assign_error (km : Parameters) (s : State F) (hlen : s.points.length = km.totalPoints)
    (hpos : 0 < km.totalPoints)
    (hbad : s.clusters = [] ∨ ∃ p ∈ s.points, p.values.length < km.dimensions) :
    sequentialFor (assignPoint km s.clusters) km.totalPoints s.points true =
      .error .outOfRange := by
  apply OnlyRange.eq_error
  · exact .foldlM (fun v i => assignPoint_onlyRange s.clusters v.1 v.2 i) _ _
  intro v hv
  -- a loop that succeeds has made the pass for the short point
  have hpass := exists_of_foldlM_ok
    (fun v : List (Point F) × Bool => v.1.map Point.values = s.points.map Point.values)
    (fun v i w hv hw => (of_assignPoint_ok hw).1.trans hv) rfl hv
  rcases hbad with hempty | ⟨p, hp, hshort⟩
  · obtain ⟨u, w, -, hbody⟩ := hpass 0 (List.mem_range.mpr hpos)
    exact (of_assignPoint_ok hbody).2.1 hempty
  · obtain ⟨i, hi, rfl⟩ := List.mem_iff_getElem.mp hp
    obtain ⟨u, w, hinv, hbody⟩ := hpass i (List.mem_range.mpr (hlen ▸ hi))
    obtain ⟨values, hvalues, hdims⟩ := (of_assignPoint_ok hbody).2.2
    rw [hinv, List.getElem?_map, List.getElem?_eq_getElem hi] at hvalues
    obtain rfl := Option.some.inj hvalues
    omega

section Runs

variable [Div F] [NatCast F] {points : List (Point F)} {K iters : ℤ}

/-- No index is out of range and nothing is divided by zero. -/
def Safe (r : Except Stop (Run F)) : Prop := r ≠ .error .outOfRange ∧ r ≠ .error .divByZero

/-- The condition on the input: there is a cluster, and no line has fewer numbers than the
first. -/
def Regular (K : ℤ) (points : List (Point F)) : Prop :=
  1 ≤ K ∧ ∀ first ∈ points.head?, ∀ p ∈ points, first.getDimensions ≤ p.getDimensions

theorem run_safe (hregular : Regular K points) (hn : K ≤ points.length) (rand : List ℕ) :
    Safe (run K iters points rand) := by
  obtain ⟨hK, hdims⟩ := hregular
  obtain ⟨first, hfirst⟩ : ∃ first, points[0]? = some first :=
    ⟨_, List.getElem?_eq_getElem (by omega)⟩
  have hhead : first ∈ points.head? := by rwa [List.head?_eq_getElem?]
  rcases runWith_cases hK hfirst (hdims first hhead) (fun iter _ hs => iteration_eq hs iter) rand
    with ⟨hrun, -⟩ | ⟨s, -, -, -, hrun⟩
  · rw [run, hrun]
    exact ⟨by simp, by simp⟩
  · rw [run, hrun]
    exact ⟨by simp, by simp⟩

/-- The first iteration fails, whichever the limit. -/
theorem run_error {first : Point F} (hfirst : points[0]? = some first) {rand : List ℕ}
    {s : Seeding F} (hseed : seeding (parameters K iters points first) points rand = .ok s)
    (hdata : s.points.map Point.data = points.map Point.data)
    (hbad : s.clusters = [] ∨ ∃ p ∈ points, p.getDimensions < first.getDimensions) :
    run K iters points rand = .error .outOfRange := by
  have hlen := length_of_data_eq hdata
  have hpos : 0 < points.length := (List.getElem?_eq_some_iff.mp hfirst).1
  have hassign : sequentialFor (assignPoint (parameters K iters points first) s.clusters)
      points.length s.points true = .error .outOfRange := by
    apply assign_error (parameters K iters points first) ⟨s.points, s.clusters⟩ hlen hpos
    rcases hbad with hempty | ⟨p, hp, hshort⟩
    · exact .inl hempty
    · obtain ⟨q, hq, hvalues⟩ := exists_of_data_eq hdata.symm hp
      exact .inr ⟨q, hq, by rw [hvalues]; exact hshort⟩
  have hiteration : iteration (parameters K iters points first) 1 ⟨s.points, s.clusters⟩ =
      .error .outOfRange := by
    show (sequentialFor (assignPoint (parameters K iters points first) s.clusters)
      points.length s.points true >>= _) = _
    rw [hassign]
    rfl
  have hloop : ∀ left, whileLoop (iteration (parameters K iters points first)) 1 left
      ⟨s.points, s.clusters⟩ = .error .outOfRange := by
    intro left
    cases left with
    | zero => rw [whileLoop, hiteration]; rfl
    | succ left => rw [whileLoop, hiteration]; rfl
  have hnth : nth points 0 = .ok first := nth_eq hfirst
  have hseed' : seeding ⟨K, iters, points.length, first.getDimensions⟩ points rand = .ok s := hseed
  have hloop' := hloop (iters - 1).toNat
  rw [parameters] at hloop'
  rw [run, runWith, hnth, ok_bind]
  simp only [hseed', ok_bind, hloop', error_bind]

theorem main_eq {stod : String → Option F} {lines : List String}
    (hparse : readPoints stod 1 lines = some points) (hn : K ≤ points.length) (rand : List ℕ) :
    main stod lines K rand = some (run K 100 points rand) := by
  rw [main, hparse]
  exact if_neg hn.not_gt

/-- Without a point or a cluster the run reads `all_points[0]` or `clusters[0]`. -/
theorem run_outOfRange (rand : List ℕ) (h : ¬ (1 ≤ K ∧ 0 < points.length)) :
    run K iters points rand = .error .outOfRange := by
  cases hfirst : points[0]? with
  | none =>
    have hnth : nth points 0 = .error .outOfRange := by simp [nth, hfirst]
    rw [run, runWith, hnth, error_bind]
  | some first =>
    have hpos : 0 < points.length := (List.getElem?_eq_some_iff.mp hfirst).1
    have hK : K.toNat = 0 := by omega
    have hseed : seeding (parameters K iters points first) points rand =
        .ok ⟨[], points, [], rand⟩ := by
      show (List.range' 1 K.toNat).foldlM _ _ = _
      rw [hK]
      rfl
    exact run_error hfirst hseed rfl (.inl rfl)

/-- Any other input goes wrong with the first `K` points as seeds. -/
theorem run_not_safe (hregular : ¬ Regular K points) (hn : K ≤ points.length) :
    run K iters points (List.range K.toNat) = .error .outOfRange := by
  by_cases hgiven : 1 ≤ K ∧ 0 < points.length
  · obtain ⟨hK, hpos⟩ := hgiven
    obtain ⟨first, hfirst⟩ : ∃ first, points[0]? = some first :=
      ⟨_, List.getElem?_eq_getElem hpos⟩
    have hlt : ∀ i ∈ List.range K.toNat, i < (parameters K iters points first).totalPoints := by
      intro i hi
      have hiK := List.mem_range.mp hi
      show i < points.length
      omega
    obtain ⟨s, hseed, -, hseeded⟩ := seeding_indices List.nodup_range hlt List.length_range rfl
    refine run_error hfirst hseed hseeded.data_eq (.inr ?_)
    by_contra hshort
    push Not at hshort
    refine hregular ⟨hK, fun e he p hp => ?_⟩
    rw [List.head?_eq_getElem?, hfirst] at he
    obtain rfl := Option.some.inj he
    exact hshort p hp
  · exact run_outOfRange _ hgiven

/-- Exactly the regular inputs are safe for every outcome of `rand()`. -/
theorem main_safe_iff (stod : String → Option F) (lines : List String) (K : ℤ)
    (hparse : readPoints stod 1 lines = some points) (hn : K ≤ points.length) :
    (∀ rand r, main stod lines K rand = some r → Safe r) ↔ Regular K points := by
  constructor
  · intro hsafe
    by_contra hregular
    have hmain := main_eq hparse hn (List.range K.toNat)
    rw [run_not_safe hregular hn] at hmain
    exact (hsafe _ _ hmain).1 rfl
  · intro hregular rand r hmain
    rw [main_eq hparse hn] at hmain
    obtain rfl := Option.some.inj hmain
    exact run_safe hregular hn rand

end Runs

noncomputable def digits (text : String) : Option ℝ :=
  some (text.toList.foldl (fun v c => 10 * v + ((c.toNat - 48 : ℕ) : ℝ)) 0)

theorem ofLine_two (id : ℕ) : Point.ofLine digits id "1 2" = some ⟨id, 0, [1, 2]⟩ := by
  have h1 : "1".length = 1 := rfl
  have h2 : "2".length = 1 := rfl
  simp [Point.ofLine, Point.lineToVec, Point.lineToVecPass, Point.isNumberChar, digits, h1, h2]

theorem ofLine_one (id : ℕ) : Point.ofLine digits id "3" = some ⟨id, 0, [3]⟩ := by
  have h3 : "3".length = 1 := rfl
  simp [Point.ofLine, Point.lineToVec, Point.lineToVecPass, Point.isNumberChar, digits, h3]

/-- A second line may be longer than the first. -/
theorem main_safe_iff_long : Regular 1 ([⟨1, 0, [3]⟩, ⟨2, 0, [1, 2]⟩] : List (Point ℝ)) ∧
    ∀ rand r, main digits ["3", "1 2"] 1 rand = some r → Safe r := by
  have hparse : readPoints digits 1 ["3", "1 2"] = some [⟨1, 0, [3]⟩, ⟨2, 0, [1, 2]⟩] := by
    simp [readPoints, ofLine_two, ofLine_one]
  have hregular : Regular 1 ([⟨1, 0, [3]⟩, ⟨2, 0, [1, 2]⟩] : List (Point ℝ)) := by
    simp [Regular, Point.getDimensions]
  exact ⟨hregular, (main_safe_iff digits _ 1 hparse (by decide)).mpr hregular⟩

/-- It may not be shorter: point 2 has no second coordinate. -/
theorem main_unsafe_short : ¬ ∀ rand r, main digits ["1 2", "3"] 1 rand = some r → Safe r := by
  intro hsafe
  have hparse : readPoints digits 1 ["1 2", "3"] = some [⟨1, 0, [1, 2]⟩, ⟨2, 0, [3]⟩] := by
    simp [readPoints, ofLine_two, ofLine_one]
  have hrun : run 1 100 ([⟨1, 0, [1, 2]⟩, ⟨2, 0, [3]⟩] : List (Point ℝ)) [0] =
      .error .outOfRange := rfl
  have hmain := main_eq hparse (by decide : (1 : ℤ) ≤ 2) [0]
  rw [hrun] at hmain
  exact (hsafe [0] _ hmain).1 rfl

end ParallelPrograms.KMeans
