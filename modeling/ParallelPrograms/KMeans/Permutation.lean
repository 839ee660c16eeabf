import Mathlib.Data.List.FinRange
import ParallelPrograms.KMeans.Partition

namespace ParallelPrograms.KMeans

variable {F : Type}

/-- What an iteration looks at in a point. -/
def Point.content (p : Point F) : List F × ℤ := (p.values, p.clusterId)

def Cluster.head (c : Cluster F) : ℤ × List F := (c.clusterId, c.centroid)

/-- Point `i` of `s` stands at `σ i` in `s'`, and the clusters are the same. -/
structure Aligned {n : ℕ} (σ : Equiv.Perm (Fin n)) (s s' : State F) : Prop where
  length : s.points.length = n
  length' : s'.points.length = n
  content : ∀ i : Fin n, (s'.points[(σ i : ℕ)]?).map Point.content =
    (s.points[(i : ℕ)]?).map Point.content
  clusters : s'.clusters.map Cluster.head = s.clusters.map Cluster.head

variable {n : ℕ} {σ : Equiv.Perm (Fin n)} {s s' : State F}

theorem Aligned.content_eq (h : Aligned σ s s') {i : Fin n} {p p' : Point F}
    (hp : s.points[(i : ℕ)]? = some p) (hp' : s'.points[(σ i : ℕ)]? = some p') :
    p'.content = p.content := by
  have hcontent := h.content i
  rw [hp, hp'] at hcontent
  exact Option.some.inj hcontent

/-- The points with their labels are permuted. -/
theorem Aligned.perm (h : Aligned σ s s') :
    (s'.points.map Point.content).Perm (s.points.map Point.content) := by
  obtain rfl := h.length
  have hleft : s'.points.map Point.content =
      List.ofFn ((fun i : Fin s.points.length => s.points[i].content) ∘ σ.symm) := by
    apply List.ext_getElem
    · simp [h.length']
    · intro k hk hk'
      rw [List.length_map] at hk
      rw [List.length_ofFn] at hk'
      have hplace : ((σ (σ.symm ⟨k, hk'⟩) : Fin s.points.length) : ℕ) = k := by
        rw [Equiv.apply_symm_apply]
      rw [List.getElem_map, List.getElem_ofFn]
      apply h.content_eq (i := σ.symm ⟨k, hk'⟩) (List.getElem?_eq_getElem _)
      rw [hplace]
      exact List.getElem?_eq_getElem hk
  have hright : s.points.map Point.content =
      List.ofFn fun i : Fin s.points.length => s.points[i].content := by
    apply List.ext_getElem <;> simp
  rw [hleft, hright]
  exact Equiv.Perm.ofFn_comp_perm σ.symm _

theorem members_values (points : List (Point F)) (c : Cluster F) :
    (members points c).map Point.values =
      ((points.map Point.content).filter fun v => v.2 = c.clusterId).map Prod.fst := by
  rw [List.filter_map, List.map_map]
  rfl

theorem Aligned.members (h : Aligned σ s s') {c c' : Cluster F} (hc : c'.head = c.head) :
    ((members s'.points c').map Point.values).Perm ((members s.points c).map Point.values) := by
  have hid : c'.clusterId = c.clusterId := congrArg Prod.fst hc
  rw [members_values, members_values, hid]
  exact (h.perm.filter _).map _

variable [Field F]

theorem mean_values (points : List (Point F)) (j : ℕ) :
    mean points j = ((points.map Point.values).map fun values => coord values j).sum /
      ((points.map Point.values).length : F) := by
  rw [mean_eq, List.map_map, List.length_map]
  rfl

theorem mean_perm {points points' : List (Point F)}
    (h : (points'.map Point.values).Perm (points.map Point.values)) :
    mean points' = mean points := by
  funext j
  rw [mean_values, mean_values, h.length_eq, (h.map fun values => coord values j).sum_eq]

theorem head_recentered {d : ℕ} {c c' : Cluster F} (hhead : c'.head = c.head)
    (hpoints : (c'.points.map Point.values).Perm (c.points.map Point.values)) :
    (recentered d c').head = (recentered d c).head := by
  have hempty : c'.points = [] ↔ c.points = [] := by
    rw [← List.length_eq_zero_iff, ← List.length_eq_zero_iff]
    simpa using congrArg (· = 0) hpoints.length_eq
  obtain ⟨hid, hcentroid⟩ := Prod.mk.inj hhead
  unfold recentered
  by_cases hc : c.points = []
  · rw [if_pos hc, if_pos (hempty.mpr hc), hhead]
  · rw [if_neg hc, if_neg (hempty.not.mpr hc), Cluster.head, Cluster.head, mean_perm hpoints, hid,
      hcentroid]

variable [LinearOrder F] [CMath F] {d : ℕ}

theorem nearest_head {clusters clusters' : List (Cluster F)} {p p' : Point F}
    (hclusters : clusters'.map Cluster.head = clusters.map Cluster.head)
    (hp : p'.values = p.values) : nearest d clusters' p' = nearest d clusters p := by
  -- one comparison on the head of a cluster
  have hfold : ∀ (cs : List (Cluster F)) (values : List F) (v : F × ℤ),
      cs.foldl (closer d values) v = (cs.map Cluster.head).foldl (fun v h =>
        if dist d h.2 values < v.1 then (dist d h.2 values, h.1) else v) v := by
    intro cs values v
    rw [List.foldl_map]
    rfl
  cases clusters with
  | nil =>
    rw [List.map_nil, List.map_eq_nil_iff] at hclusters
    rw [hclusters]
    rfl
  | cons c cs =>
    cases clusters' with
    | nil => cases hclusters
    | cons c' cs' =>
      rw [List.map_cons, List.map_cons, List.cons.injEq] at hclusters
      obtain ⟨hhead, htail⟩ := hclusters
      obtain ⟨hid, hcentroid⟩ := Prod.mk.inj hhead
      rw [nearest, nearest, hfold, hfold, htail, hp, hid, hcentroid]

/-- The labels of one iteration. -/
theorem Aligned.relabel (h : Aligned σ s s') {p p' : Point F} (hp : p'.content = p.content) :
    (relabel d s'.clusters p').content = (relabel d s.clusters p).content := by
  have hvalues : p'.values = p.values := congrArg Prod.fst hp
  rw [KMeans.relabel, KMeans.relabel, nearest_head h.clusters hvalues]
  exact Prod.ext hvalues rfl

theorem Aligned.unchanged (h : Aligned σ s s') : unchanged d s' = unchanged d s := by
  have hall : ∀ s : State F, KMeans.unchanged d s = (s.points.map Point.content).all fun v =>
      v.2 = nearest d s.clusters ⟨0, 0, v.1⟩ := by
    intro s
    rw [List.all_map]
    exact List.all_congr rfl fun p => by
      rw [nearest_head rfl rfl]
      rfl
  rw [hall, hall, h.perm.all_eq]
  congr 1
  funext v
  rw [nearest_head h.clusters rfl]

theorem Aligned.round (h : Aligned σ s s') : Aligned σ (KMeans.round d s) (KMeans.round d s') := by
  have hcontent : ∀ i : Fin n, ((KMeans.round d s').points[(σ i : ℕ)]?).map Point.content =
      ((KMeans.round d s).points[(i : ℕ)]?).map Point.content := by
    intro i
    have hi : (i : ℕ) < s.points.length := h.length ▸ i.isLt
    have hi' : (σ i : ℕ) < s'.points.length := h.length' ▸ (σ i).isLt
    have hp := List.getElem?_eq_getElem hi
    have hp' := List.getElem?_eq_getElem hi'
    rw [KMeans.round, KMeans.round, List.getElem?_map, List.getElem?_map, hp, hp']
    exact congrArg some (h.relabel (h.content_eq hp hp'))
  refine ⟨by simpa [KMeans.round] using h.length, by simpa [KMeans.round] using h.length',
    hcontent, ?_⟩
  -- the relabelled points in front of the clusters of the old states
  have hmoved : Aligned σ ⟨(KMeans.round d s).points, s.clusters⟩
      ⟨(KMeans.round d s').points, s'.clusters⟩ :=
    ⟨by simpa [KMeans.round] using h.length, by simpa [KMeans.round] using h.length',
      hcontent, h.clusters⟩
  have hlen : s'.clusters.length = s.clusters.length := by
    simpa using congrArg List.length h.clusters
  apply List.ext_getElem
  · simp [KMeans.round, hlen]
  · intro k hk' hk
    simp only [KMeans.round, List.length_map] at hk hk'
    have hhead : s'.clusters[k].head = s.clusters[k].head := by
      simpa [hk, hk'] using congrArg (·[k]?) h.clusters
    simp only [KMeans.round, List.getElem_map]
    exact head_recentered hhead (hmoved.members hhead)

theorem Aligned.iterate (h : Aligned σ s s') (t : ℕ) :
    Aligned σ ((KMeans.round d)^[t] s) ((KMeans.round d)^[t] s') := by
  induction t with
  | zero => exact h
  | succ t ih =>
    rw [Function.iterate_succ_apply', Function.iterate_succ_apply']
    exact ih.round

theorem Aligned.rounds_length (h : Aligned σ s s') (left : ℕ) :
    (rounds d left s').length = (rounds d left s).length := by
  induction left generalizing s s' with
  | zero => rfl
  | succ left ih =>
    rw [rounds, rounds, h.unchanged, List.length_cons, List.length_cons]
    split_ifs
    · rfl
    · rw [ih h.round]

omit [Field F] [LinearOrder F] [CMath F] in
theorem Aligned.afterSeed {t t' : Seeding F} {k : ℕ} {i : Fin n}
    (h : Aligned σ ⟨t.points, t.clusters⟩ ⟨t'.points, t'.clusters⟩)
    (hi : (i : ℕ) < t.points.length) (hi' : (σ i : ℕ) < t'.points.length) (rest rest' : List ℕ) :
    Aligned σ ⟨(afterSeed t k i hi rest).points, (afterSeed t k i hi rest).clusters⟩
      ⟨(afterSeed t' k (σ i) hi' rest').points, (afterSeed t' k (σ i) hi' rest').clusters⟩ := by
  have hseed := h.content_eq (List.getElem?_eq_getElem hi) (List.getElem?_eq_getElem hi')
  have hvalues : t'.points[(σ i : ℕ)].values = t.points[(i : ℕ)].values := congrArg Prod.fst hseed
  refine ⟨by simpa [KMeans.afterSeed] using h.length, by simpa [KMeans.afterSeed] using h.length',
    fun j => ?_, ?_⟩
  · have hj := h.content j
    have hmoved : (σ i : ℕ) = σ j ↔ (i : ℕ) = j := by
      rw [Fin.val_inj, Fin.val_inj, σ.injective.eq_iff]
    simp only [KMeans.afterSeed, List.getElem?_modify, hmoved]
    by_cases hij : (i : ℕ) = j
    · -- the point that has been drawn
      obtain rfl := Fin.ext hij
      simp only [List.getElem?_eq_getElem hi, List.getElem?_eq_getElem hi']
      exact congrArg some (Prod.ext hvalues rfl)
    · simpa [hij] using hj
  · have hclusters : t'.clusters.map Cluster.head = t.clusters.map Cluster.head := h.clusters
    simp [KMeans.afterSeed, hclusters, Cluster.head, hvalues]

omit [Field F] [LinearOrder F] [CMath F] in
theorem seedLoop_aligned {km km' : Parameters} {points points' : List (Point F)}
    {rand rand' : List ℕ} (h : Aligned σ ⟨points, []⟩ ⟨points', []⟩)
    (hn : points.length = km.totalPoints) (hn' : points'.length = km'.totalPoints) (hpos : 0 < n)
    {k : ℕ} {t t' : Seeding F}
    (ht : (List.range' 1 k).foldlM (seedCluster km) ⟨[], points, [], rand⟩ = .ok t)
    (ht' : (List.range' 1 k).foldlM (seedCluster km') ⟨[], points', [], rand'⟩ = .ok t')
    (hsame : ∀ (k : ℕ) (i : Fin n), t.used[k]? = some (i : ℕ) → t'.used[k]? = some (σ i : ℕ)) :
    Aligned σ ⟨t.points, t.clusters⟩ ⟨t'.points, t'.clusters⟩ := by
  have hlen : points.length = n := h.length
  have hlen' : points'.length = n := h.length'
  induction k generalizing t t' with
  | zero =>
    cases ht
    cases ht'
    exact h
  | succ k ih =>
    obtain ⟨u, index, rest, hi, hu, rfl⟩ := seedLoop_succ hn (by omega) ht
    obtain ⟨u', index', rest', hi', hu', rfl⟩ := seedLoop_succ hn' (by omega) ht'
    have hused : (afterSeed u k index hi rest).used = u.used ++ [index] := rfl
    have hused' : (afterSeed u' k index' hi' rest').used = u'.used ++ [index'] := rfl
    rw [hused, hused'] at hsame
    have hk := seedLoop_used hn (by omega) hu
    have hk' := seedLoop_used hn' (by omega) hu'
    -- the passes before drew the same points
    have hbefore : ∀ (m : ℕ) (i : Fin n), u.used[m]? = some (i : ℕ) →
        u'.used[m]? = some (σ i : ℕ) := by
      intro m i hm
      have hlt : m < u.used.length := (List.getElem?_eq_some_iff.mp hm).1
      have hnext := hsame m i (by rwa [List.getElem?_append_left hlt])
      rwa [List.getElem?_append_left (by omega)] at hnext
    have haligned := ih hu hu' hbefore
    have hindex : index < n := by
      have : u.points.length = n := haligned.length
      omega
    -- so does the last one
    have hlast := hsame k ⟨index, hindex⟩ (by simp [← hk])
    obtain rfl : index' = σ ⟨index, hindex⟩ := by simpa [← hk'] using hlast
    exact haligned.afterSeed (i := ⟨index, hindex⟩) hi hi' rest rest'

/-- Two runs over the same points in different orders that seed every cluster from the same
point give every point the same label in every iteration, have the same centroids and stop
after the same iteration. -/
theorem run_permuted (points points' : List (Point F)) (K iters : ℤ) (rand rand' : List ℕ)
    (σ : Equiv.Perm (Fin points.length)) (hd : ∀ p ∈ points, p.values.length = d) (hK : 1 ≤ K)
    (hn : K ≤ points.length) (hlen : points'.length = points.length)
    (hσ : ∀ i : Fin points.length,
      (points'[(σ i : ℕ)]?).map Point.content = some points[i].content)
    {seeded seeded' : Seeding F}
    (hseed : seeding ⟨K, iters, points.length, d⟩ points rand = .ok seeded)
    (hseed' : seeding ⟨K, iters, points.length, d⟩ points' rand' = .ok seeded')
    (hsame : ∀ (k : ℕ) (i : Fin points.length), seeded.used[k]? = some (i : ℕ) →
      seeded'.used[k]? = some (σ i : ℕ)) :
    ∃ r r' : Run F, run K iters points rand = .ok r ∧ run K iters points' rand' = .ok r' ∧
      r'.history.length = r.history.length ∧
      ∀ (t : ℕ) s s' done done', r.history[t]? = some (s, done) →
        r'.history[t]? = some (s', done') → done' = done ∧
          (∀ i : Fin points.length, (s'.points[(σ i : ℕ)]?).map Point.clusterId =
            (s.points[(i : ℕ)]?).map Point.clusterId) ∧
          s'.clusters.map Cluster.centroid = s.clusters.map Cluster.centroid := by
  have hstart : Aligned σ (⟨points, []⟩ : State F) ⟨points', []⟩ := by
    refine ⟨rfl, hlen, fun i => ?_, rfl⟩
    rw [hσ i, List.getElem?_eq_getElem i.isLt]
    rfl
  have hd' : ∀ p ∈ points', p.values.length = d := by
    intro p hp
    have hmem := hstart.perm.mem_iff.mp (List.mem_map_of_mem hp)
    obtain ⟨q, hq, hcontent⟩ := List.mem_map.mp hmem
    have hvalues : q.values = p.values := congrArg Prod.fst hcontent
    rw [← hvalues]
    exact hd q hq
  have hloop : (List.range' 1 K.toNat).foldlM (seedCluster ⟨K, iters, points.length, d⟩)
      ⟨[], points, [], rand⟩ = .ok seeded := hseed
  have hloop' : (List.range' 1 K.toNat).foldlM (seedCluster ⟨K, iters, points.length, d⟩)
      ⟨[], points', [], rand'⟩ = .ok seeded' := hseed'
  have hseeded := seedLoop_aligned hstart rfl hlen (by omega) hloop hloop' hsame
  rw [← hlen] at hseed'
  obtain ⟨-, -, -, -, hrun⟩ := run_eq hd hK (by omega) hseed
  obtain ⟨-, -, -, -, hrun'⟩ := run_eq hd' hK (by omega) hseed'
  refine ⟨_, _, hrun, hrun', hseeded.rounds_length _, fun t s s' done done' hs hs' => ?_⟩
  obtain ⟨rfl, rfl⟩ := Prod.mk.inj (rounds_getElem hs)
  obtain ⟨rfl, rfl⟩ := Prod.mk.inj (rounds_getElem hs')
  have hbefore := hseeded.iterate (d := d) t
  have haligned := hbefore.round (d := d)
  refine ⟨hbefore.unchanged, fun i => ?_, ?_⟩
  · have hlabel := congrArg (Option.map Prod.snd) (haligned.content i)
    rwa [Option.map_map, Option.map_map] at hlabel
  · have hcentroid := congrArg (List.map Prod.snd) haligned.clusters
    rwa [List.map_map, List.map_map] at hcentroid

noncomputable def twoPointsSwapped : List (Point ℝ) := [⟨1, 0, [1]⟩, ⟨2, 0, [0]⟩]

theorem run_permuted_two : ∃ r r' : Run ℝ, run 1 5 twoPoints [0] = .ok r ∧
    run 1 5 twoPointsSwapped [1] = .ok r' ∧ r'.history.length = r.history.length ∧
    ∀ (t : ℕ) s s' done done', r.history[t]? = some (s, done) →
      r'.history[t]? = some (s', done') → done' = done ∧
        (∀ i : Fin 2, (s'.points[((Equiv.swap (0 : Fin 2) 1 i : Fin 2) : ℕ)]?).map Point.clusterId =
          (s.points[(i : ℕ)]?).map Point.clusterId) ∧
        s'.clusters.map Cluster.centroid = s.clusters.map Cluster.centroid :=
  run_permuted twoPoints twoPointsSwapped 1 5 [0] [1] (Equiv.swap 0 1 : Equiv.Perm (Fin 2))
    twoPoints_dimensions (by decide) (by decide) rfl
    (fun i : Fin 2 => by match i with
      | 0 => rfl
      | 1 => rfl)
    rfl rfl (fun k (i : Fin 2) hk => by
      match k with
      | 0 =>
        have hi : (i : ℕ) = 0 := (Option.some.inj hk).symm
        obtain rfl : i = 0 := Fin.ext hi
        rfl
      | k + 1 => cases hk)

end ParallelPrograms.KMeans
