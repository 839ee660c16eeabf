import Mathlib.Algebra.BigOperators.Fin
import ParallelPrograms.KMeans.Partition

namespace ParallelPrograms.KMeans

variable {F : Type}

/-- The point with a last coordinate `c`. -/
def Point.pad (c : F) (p : Point F) : Point F := { p with values := p.values ++ [c] }

def Cluster.pad (c : F) (e : Cluster F) : Cluster F :=
  { e with centroid := e.centroid ++ [c], points := e.points.map (Point.pad c) }

def State.pad (c : F) (s : State F) : State F :=
  ⟨s.points.map (Point.pad c), s.clusters.map (Cluster.pad c)⟩

def Seeding.pad (c : F) (s : Seeding F) : Seeding F :=
  { s with points := s.points.map (Point.pad c), clusters := s.clusters.map (Cluster.pad c) }

@[simp] theorem setCluster_pad (c : F) (p : Point F) (val : ℤ) :
    (p.pad c).setCluster val = (p.setCluster val).pad c := rfl

theorem members_pad (c : F) (points : List (Point F)) (e : Cluster F) :
    members (points.map (Point.pad c)) (e.pad c) = (members points e).map (Point.pad c) := by
  rw [members, List.filter_map]
  rfl

theorem ofSeed_pad (c : F) (i : ℤ) (p : Point F) :
    Cluster.ofSeed i (p.pad c) = (Cluster.ofSeed i p).map (Cluster.pad c) := by
  rw [ofSeed_eq, ofSeed_eq]
  rfl

theorem seedCluster_pad {km km' : Parameters} (hn : km'.totalPoints = km.totalPoints) (c : F)
    (s : Seeding F) (i : ℕ) :
    seedCluster km' (s.pad c) i = (seedCluster km s i).map (Seeding.pad c) := by
  have hupdate : ∀ index : ℕ, update (s.points.map (Point.pad c)) index
      (fun p => .ok (p.setCluster i)) =
        (update s.points index fun p => .ok (p.setCluster i)).map (List.map (Point.pad c)) := by
    intro index
    apply update_map
    exact fun _ => rfl
  rw [seedCluster, seedCluster, hn, map_bind]
  congr 1
  funext v
  simp only [Seeding.pad, hupdate, bind_map, map_bind, nth_map, ofSeed_pad]
  congr 1
  funext points
  congr 1
  funext p
  congr 1
  funext cluster
  exact congrArg Except.ok (by simp [Seeding.pad])

theorem seeding_pad {km km' : Parameters} (hn : km'.totalPoints = km.totalPoints)
    (hK : km'.K = km.K) (c : F) (points : List (Point F)) (rand : List ℕ) :
    seeding km' (points.map (Point.pad c)) rand =
      (seeding km points rand).map (Seeding.pad c) := by
  rw [seeding, seeding, hK]
  exact foldlM_map (seedCluster_pad hn c) (List.range' 1 km.K.toNat) ⟨[], points, [], rand⟩

section Search

variable [Zero F] [Add F] [Sub F] [CMath F] [LT F] [DecidableLT F] {d d' : ℕ}

theorem nearest_map {g : Cluster F → Cluster F} (hid : ∀ e, (g e).clusterId = e.clusterId)
    {clusters : List (Cluster F)} {p p' : Point F}
    (hlt : ∀ e ∈ clusters, ∀ f ∈ clusters,
      (dist d' (g e).centroid p'.values < dist d' (g f).centroid p'.values ↔
        dist d e.centroid p.values < dist d f.centroid p.values)) :
    nearest d' (clusters.map g) p' = nearest d clusters p := by
  have hfold : ∀ (cs : List (Cluster F)) (first : Cluster F), (∀ e ∈ first :: cs, e ∈ clusters) →
      ((cs.map g).foldl (closer d' p'.values)
          (dist d' (g first).centroid p'.values, (g first).clusterId)).2 =
        (cs.foldl (closer d p.values) (dist d first.centroid p.values, first.clusterId)).2 := by
    intro cs
    induction cs with
    | nil => exact fun first _ => hid first
    | cons e cs ih =>
      intro first hmem
      have hcompare := hlt e (hmem e (by simp)) first (hmem first (by simp))
      rw [List.map_cons, List.foldl_cons, List.foldl_cons, closer, closer]
      by_cases he : dist d e.centroid p.values < dist d first.centroid p.values
      · rw [if_pos (hcompare.mpr he), if_pos he]
        exact ih e fun f hf => hmem f (List.mem_cons_of_mem first hf)
      · rw [if_neg (hcompare.not.mpr he), if_neg he]
        refine ih first fun f hf => hmem f ?_
        rcases List.mem_cons.mp hf with rfl | hf
        · exact List.mem_cons_self
        · exact List.mem_cons_of_mem _ (List.mem_cons_of_mem _ hf)
  cases clusters with
  | nil => rfl
  | cons first cs => exact hfold cs first fun _ he => he

end Search

variable [Field F] {d : ℕ} {c : F}

theorem coord_append (values : List F) (c : F) {j : ℕ} (hj : j < values.length) :
    coord (values ++ [c]) j = coord values j := by
  rw [coord, coord, List.getD_append _ _ _ _ hj]

theorem coord_append_last (values : List F) (c : F) : coord (values ++ [c]) values.length = c := by
  simp [coord]

theorem sqDist_pad {u v : List F} (hu : u.length = d) (hv : v.length = d) (c : F) :
    Centres.sqDist (coords (d + 1) (u ++ [c])) (coords (d + 1) (v ++ [c])) =
      Centres.sqDist (coords d u) (coords d v) := by
  have hlast : ∀ w : List F, w.length = d → coord (w ++ [c]) d = c := by
    rintro w rfl
    exact coord_append_last w c
  rw [Centres.sqDist, Centres.sqDist, Fin.sum_univ_castSucc]
  have hzero : (coords (d + 1) (u ++ [c]) (Fin.last d) -
      coords (d + 1) (v ++ [c]) (Fin.last d)) ^ 2 = 0 := by
    rw [coords, coords, Fin.val_last, hlast u hu, hlast v hv]
    ring
  rw [hzero, add_zero]
  apply Finset.sum_congr rfl
  intro j _
  rw [coords, coords, coords, coords, Fin.val_castSucc, coord_append u c (hu ▸ j.isLt),
    coord_append v c (hv ▸ j.isLt)]

/-- The mean of points with the same last coordinate has that last coordinate. -/
theorem mean_pad [CharZero F] {points : List (Point F)} (hne : points ≠ [])
    (hd : ∀ p ∈ points, p.values.length = d) (c : F) :
    (List.range (d + 1)).map (mean (points.map (Point.pad c))) =
      (List.range d).map (mean points) ++ [c] := by
  have hlen : (points.length : F) ≠ 0 := by
    rw [Nat.cast_ne_zero]
    exact (List.length_pos_iff.mpr hne).ne'
  rw [List.range_succ, List.map_append, List.map_singleton]
  congr 1
  · apply List.map_congr_left
    intro j hj
    have hj' := List.mem_range.mp hj
    rw [mean_eq, mean_eq, List.map_map, List.length_map]
    congr 2
    apply List.map_congr_left
    intro p hp
    exact coord_append p.values c ((hd p hp).symm ▸ hj')
  · have hlast : (points.map (Point.pad c)).map (fun p => coord p.values d) =
        points.map fun _ => c := by
      rw [List.map_map]
      apply List.map_congr_left
      intro p hp
      rw [← hd p hp]
      exact coord_append_last p.values c
    rw [mean_eq, hlast, List.length_map, List.map_const', List.sum_replicate, nsmul_eq_mul,
      mul_div_cancel_left₀ _ hlen]

theorem recentered_pad [CharZero F] {e : Cluster F} (he : e.centroid.length = d)
    (hd : ∀ p ∈ e.points, p.values.length = d) (c : F) :
    recentered (d + 1) (e.pad c) = (recentered d e).pad c := by
  by_cases hempty : e.points = []
  · have hempty' : (e.pad c).points = [] := by rw [Cluster.pad, hempty, List.map_nil]
    rw [recentered_of_eq_nil hempty, recentered_of_eq_nil hempty']
  · have hempty' : (e.pad c).points ≠ [] := by simpa [Cluster.pad] using hempty
    have he' : (e.pad c).centroid.length = d + 1 := by simp [Cluster.pad, he]
    rw [recentered_of_ne_nil he hempty, recentered_of_ne_nil he' hempty', Cluster.pad, Cluster.pad,
      mean_pad hempty hd]

theorem recenters_pad [CharZero F] {clusters : List (Cluster F)} {moved : List (Point F)}
    (hclusters : ∀ e ∈ clusters, e.centroid.length = d)
    (hmoved : ∀ p ∈ moved, p.values.length = d) (c : F) :
    ((clusters.map (Cluster.pad c)).map fun e =>
        recentered (d + 1) { e with points := members (moved.map (Point.pad c)) e }) =
      (clusters.map fun e => recentered d { e with points := members moved e }).map
        (Cluster.pad c) := by
  rw [List.map_map, List.map_map]
  apply List.map_congr_left
  intro e he
  have hmembers : ∀ p ∈ members moved e, p.values.length = d :=
    fun p hp => hmoved p (List.mem_of_mem_filter hp)
  rw [Function.comp_apply, Function.comp_apply, members_pad]
  exact recentered_pad (e := { e with points := members moved e }) (hclusters e he) hmembers c

variable [LinearOrder F] [IsStrictOrderedRing F] [ExactMath F] {points : List (Point F)}
  {s : State F}

theorem nearest_pad {clusters : List (Cluster F)} {p : Point F}
    (hclusters : ∀ e ∈ clusters, e.centroid.length = d) (hp : p.values.length = d) (c : F) :
    nearest (d + 1) (clusters.map (Cluster.pad c)) (p.pad c) = nearest d clusters p := by
  apply nearest_map
  · exact fun _ => rfl
  · intro e he f hf
    rw [dist_lt_dist, dist_lt_dist]
    show Centres.sqDist (coords (d + 1) (e.centroid ++ [c])) (coords (d + 1) (p.values ++ [c])) <
      Centres.sqDist (coords (d + 1) (f.centroid ++ [c])) (coords (d + 1) (p.values ++ [c])) ↔ _
    rw [sqDist_pad (hclusters e he) hp, sqDist_pad (hclusters f hf) hp]

omit [Field F] [LinearOrder F] [IsStrictOrderedRing F] [ExactMath F] in
theorem Exact.values_length (h : Exact points d s) (hd : ∀ p ∈ points, p.values.length = d) :
    ∀ p ∈ s.points, p.values.length = d := by
  intro p hp
  obtain ⟨q, hq, hvalues⟩ := exists_of_data_eq h.data_eq hp
  rw [← hvalues]
  exact hd q hq

theorem unchanged_pad (h : Exact points d s) (hd : ∀ p ∈ points, p.values.length = d) (c : F) :
    unchanged (d + 1) (s.pad c) = unchanged d s := by
  rw [unchanged, unchanged, State.pad, List.all_map, Bool.eq_iff_iff, List.all_eq_true,
    List.all_eq_true]
  apply forall₂_congr
  intro p hp
  have hnearest := nearest_pad h.centroid_length (h.values_length hd p hp) c
  simp only [Function.comp_apply, hnearest]
  rfl

theorem round_pad (h : Exact points d s) (hd : ∀ p ∈ points, p.values.length = d) (c : F) :
    KMeans.round (d + 1) (s.pad c) = (KMeans.round d s).pad c := by
  have hpoints : (s.pad c).points.map (relabel (d + 1) (s.pad c).clusters) =
      (s.points.map (relabel d s.clusters)).map (Point.pad c) := by
    rw [State.pad, List.map_map, List.map_map]
    apply List.map_congr_left
    intro p hp
    show (p.pad c).setCluster _ = (p.setCluster _).pad c
    rw [nearest_pad h.centroid_length (h.values_length hd p hp), setCluster_pad]
  have hvalues : ∀ p ∈ s.points.map (relabel d s.clusters), p.values.length = d :=
    h.round.values_length hd
  rw [KMeans.round, hpoints]
  exact congrArg (State.mk _) (recenters_pad h.centroid_length hvalues c)

/-- The two loops go through the same states, up to the last coordinate. -/
theorem rounds_pad (h : Exact points d s) (hd : ∀ p ∈ points, p.values.length = d) (c : F)
    (left : ℕ) :
    rounds (d + 1) left (s.pad c) = (rounds d left s).map fun r => (r.1.pad c, r.2) := by
  induction left generalizing s with
  | zero => rw [rounds, rounds, round_pad h hd, unchanged_pad h hd, List.map_singleton]
  | succ left ih =>
    rw [rounds, rounds, round_pad h hd, unchanged_pad h hd, List.map_cons, ih h.round]
    split_ifs <;> rfl

/-- Points with a further coordinate `c` have the same labels after every iteration, their
centroids are the same with `c` behind them, empty clusters or not, and the loop stops after
the same iteration. -/
theorem run_padded (points : List (Point F)) (c : F) (K iters : ℤ) (rand : List ℕ)
    (hd : ∀ p ∈ points, p.values.length = d) (hK : 1 ≤ K) (hn : K ≤ points.length) :
    (run K iters points rand = .error .exhausted ∧
        run K iters (points.map (Point.pad c)) rand = .error .exhausted) ∨
      ∃ r r' : Run F, run K iters points rand = .ok r ∧
        run K iters (points.map (Point.pad c)) rand = .ok r' ∧
        r'.history.length = r.history.length ∧
        ∀ (t : ℕ) s s' done done', r.history[t]? = some (s, done) →
          r'.history[t]? = some (s', done') → done' = done ∧
            s'.points.map Point.clusterId = s.points.map Point.clusterId ∧
            s'.clusters.map Cluster.centroid = s.clusters.map (fun e => e.centroid ++ [c]) ∧
            ∀ e ∈ s.clusters, e.centroid.length = d := by
  have hd' : ∀ p ∈ points.map (Point.pad c), p.values.length = d + 1 := by
    intro p hp
    obtain ⟨q, hq, rfl⟩ := List.mem_map.mp hp
    simp [Point.pad, hd q hq]
  have hlen : (points.map (Point.pad c)).length = points.length := List.length_map _
  have hpad : seeding ⟨K, iters, (points.map (Point.pad c)).length, d + 1⟩
      (points.map (Point.pad c)) rand =
        (seeding ⟨K, iters, points.length, d⟩ points rand).map (Seeding.pad c) := by
    apply seeding_pad
    · exact hlen
    · rfl
  rcases run_cases rand hd hK (by omega) with ⟨herror, hrun⟩ | ⟨u, hu, -, -, -, hexact, hrun⟩
  · left
    rw [herror] at hpad
    rcases run_cases rand hd' hK (by omega) with ⟨-, hrun'⟩ | ⟨u', hu', -⟩
    · exact ⟨hrun, hrun'⟩
    · rw [hpad] at hu'
      cases hu'
  · right
    rw [hu] at hpad
    obtain ⟨-, -, -, -, hrun'⟩ := run_eq hd' hK (by omega) hpad
    have hhistory := rounds_pad hexact hd c (iters - 1).toNat
    refine ⟨_, _, hrun, hrun', ?_, fun t s s' done done' hs hs' => ?_⟩
    · exact (congrArg List.length hhistory).trans (List.length_map _)
    · have hget := (congrArg (·[t]?) hhistory).symm.trans hs'
      simp only [List.getElem?_map] at hget
      have hround : (rounds d (iters - 1).toNat ⟨u.points, u.clusters⟩)[t]? = some (s, done) := hs
      rw [hround] at hget
      obtain ⟨rfl, rfl⟩ := Prod.mk.inj (Option.some.inj hget)
      have hexact' : Exact points d s := rounds_invariant (fun _ h => h.round) hexact _ _
        (List.mem_of_getElem? hround)
      refine ⟨rfl, ?_, ?_, hexact'.centroid_length⟩
      · rw [State.pad, List.map_map]
        rfl
      · rw [State.pad, List.map_map]
        rfl

theorem run_padded_two :
    ∃ r r' : Run ℝ, run 1 5 twoPoints [0] = .ok r ∧
      run 1 5 (twoPoints.map (Point.pad 7)) [0] = .ok r' ∧
      r'.history.length = r.history.length := by
  rcases run_padded twoPoints 7 1 5 [0] twoPoints_dimensions (by decide) (by decide) with
    ⟨hrun, -⟩ | ⟨r, r', hrun, hrun', hlen, -⟩
  · cases hrun
  · exact ⟨r, r', hrun, hrun', hlen⟩

end ParallelPrograms.KMeans
