import ParallelPrograms.Appearances
import ParallelPrograms.KMeans.Seeding

namespace ParallelPrograms.KMeans

variable {F : Type}

def drawn (totalPoints : ℕ) (r : ℕ → ℕ) (t : ℕ) : ℕ := r t % totalPoints

def results (r : ℕ → ℕ) (start count : ℕ) : List ℕ := (List.range' start count).map r

/-- The seeding loops finish on the stream `r`, in the state `s`, with the first `count`
results drawn and no further one. -/
def Finishes (km : Parameters) (points : List (Point F)) (r : ℕ → ℕ) (count : ℕ)
    (s : Seeding F) : Prop :=
  seeding km points (results r 0 count) = .ok s ∧ s.rand = []

/-- Cluster `i + 1` has been seeded from the point at `used[i]`, which carries its label, and no
other point has changed. -/
structure SeededFrom (points : List (Point F)) (used : List ℕ) (s : Seeding F) : Prop where
  used_eq : s.used = used
  clusters_length : s.clusters.length = used.length
  points_length : s.points.length = points.length
  seed : ∀ i index : ℕ, used[i]? = some index → ∃ p : Point F, points[index]? = some p ∧
    s.clusters[i]? = some ⟨i + 1, p.values, [p.setCluster (i + 1)]⟩ ∧
    s.points[index]? = some (p.setCluster (i + 1))
  other : ∀ j : ℕ, j ∉ used → s.points[j]? = points[j]?

variable {km : Parameters} {points : List (Point F)} {r : ℕ → ℕ} {n k : ℕ}
  {used : List ℕ} {s : Seeding F}

/-- The rejection loop ends at the first value that is new, if there is one. -/
theorem drawIndex_results (hn : 0 < n) (r : ℕ → ℕ) (start count : ℕ)
    (hused : appearances (drawn n r) start = used) :
    (drawIndex n used (results r start count) = .error .exhausted ∧
        appearances (drawn n r) (start + count) = used) ∨
      ∃ m < count, drawIndex n used (results r start count) =
          .ok (drawn n r (start + m), results r (start + m + 1) (count - m - 1)) ∧
        appearances (drawn n r) (start + m) = used ∧ drawn n r (start + m) ∉ used := by
  induction count generalizing start with
  | zero => exact .inl ⟨rfl, hused⟩
  | succ count ih =>
    have hstep : results r start (count + 1) = r start :: results r (start + 1) count := by
      rw [results, List.range'_succ, List.map_cons]
      rfl
    rw [hstep, drawIndex, if_neg hn.ne']
    by_cases hold : r start % n ∈ used
    · rw [if_pos hold]
      have hnext : appearances (drawn n r) (start + 1) = used := by
        rw [← hused] at hold ⊢
        exact appearances_of_mem hold
      rcases ih (start + 1) hnext with ⟨hdraw, hend⟩ | ⟨m, hm, hdraw, hend, hnew⟩
      · exact .inl ⟨hdraw, by rwa [Nat.add_comm count 1, ← Nat.add_assoc]⟩
      · have hshift : start + 1 + m = start + (m + 1) := by omega
        rw [hshift] at hdraw hend hnew
        have hleft : count - m - 1 = count + 1 - (m + 1) - 1 := by omega
        exact .inr ⟨m + 1, by omega, hleft ▸ hdraw, hend, hnew⟩
    · rw [if_neg hold]
      exact .inr ⟨0, by omega, rfl, hused, hold⟩

/-- A point that has not been used seeds the next cluster. -/
theorem SeededFrom.afterSeed (h : SeededFrom points used s) {index : ℕ}
    (hi : index < s.points.length) (hnew : index ∉ used) (rest : List ℕ) :
    SeededFrom points (used ++ [index]) (afterSeed s used.length index hi rest) where
  used_eq := by rw [KMeans.afterSeed, h.used_eq]
  clusters_length := by simp [KMeans.afterSeed, h.clusters_length]
  points_length := by simp [KMeans.afterSeed, h.points_length]
  seed i j hj := by
    have hsame : points[index]? = some s.points[index] := by
      rw [← h.other index hnew, List.getElem?_eq_getElem hi]
    rcases lt_or_ge i used.length with hlt | hge
    · -- an older seed is another point
      rw [List.getElem?_append_left hlt] at hj
      obtain ⟨p, hp, hcluster, hpoint⟩ := h.seed i j hj
      have hne : index ≠ j := by
        rintro rfl
        exact hnew (List.mem_of_getElem? hj)
      refine ⟨p, hp, ?_, ?_⟩
      · rwa [KMeans.afterSeed, List.getElem?_append_left (h.clusters_length ▸ hlt)]
      · rwa [KMeans.afterSeed, List.getElem?_modify_ne _ _ hne]
    · rw [List.getElem?_append_right hge, List.getElem?_singleton] at hj
      split_ifs at hj with hlast
      obtain rfl := Option.some.inj hj
      obtain rfl : i = used.length := by omega
      refine ⟨s.points[index], hsame, ?_, ?_⟩
      · rw [KMeans.afterSeed, ← h.clusters_length, List.getElem?_concat_length]
      · rw [KMeans.afterSeed, List.getElem?_modify_eq, List.getElem?_eq_getElem hi]
        rfl
  other j hj := by
    simp only [List.mem_append, List.mem_singleton, not_or] at hj
    rw [KMeans.afterSeed, List.getElem?_modify_ne _ _ (Ne.symm hj.2)]
    exact h.other j hj.1

/-- So many passes either use up the results, which then have too few values, or have drawn
them up to the last value they needed. -/
theorem seedLoop_results (hlen : points.length = km.totalPoints) (hpos : 0 < km.totalPoints)
    (r : ℕ → ℕ) (count k : ℕ) :
    ((List.range' 1 k).foldlM (seedCluster km) ⟨[], points, [], results r 0 count⟩ =
        .error .exhausted ∧ (appearances (drawn km.totalPoints r) count).length < k) ∨
      ∃ s c, c ≤ count ∧
        (List.range' 1 k).foldlM (seedCluster km) ⟨[], points, [], results r 0 count⟩ = .ok s ∧
        s.rand = results r c (count - c) ∧
        SeededFrom points (appearances (drawn km.totalPoints r) c) s ∧
        (appearances (drawn km.totalPoints r) c).length = k ∧
        ∀ t < c, (appearances (drawn km.totalPoints r) t).length < k := by
  induction k with
  | zero =>
    exact .inr ⟨_, 0, Nat.zero_le _, rfl, rfl,
      ⟨rfl, rfl, rfl, by simp [appearances], fun _ _ => rfl⟩, rfl, by simp⟩
  | succ k ih =>
    rw [List.range'_1_concat, List.foldlM_append, Nat.add_comm 1 k]
    rcases ih with ⟨herror, hfew⟩ | ⟨s, c, hc, hs, hrand, hseeded, hk, -⟩
    · left
      rw [herror, error_bind]
      exact ⟨rfl, by omega⟩
    · rw [hs, ok_bind, List.foldlM_cons]
      have hdraws := drawIndex_results hpos r c (count - c) rfl
      rw [← hrand, Nat.add_sub_cancel' hc] at hdraws
      rcases hdraws with ⟨hdraw, hend⟩ | ⟨m, hm, hdraw, hend, hnew⟩
      · -- no further value is new
        left
        rw [← hseeded.used_eq] at hdraw
        rw [seedCluster, hdraw, error_bind, error_bind]
        exact ⟨rfl, by rw [hend]; omega⟩
      · right
        have hi : drawn km.totalPoints r (c + m) < s.points.length := by
          rw [hseeded.points_length, hlen]
          exact Nat.mod_lt _ hpos
        have hnext : appearances (drawn km.totalPoints r) (c + m + 1) =
            appearances (drawn km.totalPoints r) c ++ [drawn km.totalPoints r (c + m)] := by
          rw [← hend] at hnew ⊢
          exact appearances_of_not_mem hnew
        have hafter := hseeded.afterSeed hi hnew
          (results r (c + m + 1) (count - c - m - 1))
        rw [← hseeded.used_eq] at hdraw
        rw [seedCluster_eq hi hdraw, ok_bind, List.foldlM_nil]
        refine ⟨_, c + m + 1, by omega, rfl, ?_, ?_, ?_, fun t ht => ?_⟩
        · have hleft : count - c - m - 1 = count - (c + m + 1) := by omega
          rw [afterSeed, hleft]
        · rw [hnext, ← hk]
          exact hafter
        · rw [hnext, List.length_append, hk, List.length_singleton]
        · have hmono := length_appearances_mono (drawn km.totalPoints r) (Nat.le_of_lt_succ ht)
          rw [hend] at hmono
          omega

theorem seeding_results (hlen : points.length = km.totalPoints) (hpos : 0 < km.totalPoints)
    (r : ℕ → ℕ) (count : ℕ) :
    (seeding km points (results r 0 count) = .error .exhausted ∧
        (appearances (drawn km.totalPoints r) count).length < km.K.toNat) ∨
      ∃ s c, c ≤ count ∧ seeding km points (results r 0 count) = .ok s ∧
        s.rand = results r c (count - c) ∧
        SeededFrom points (appearances (drawn km.totalPoints r) c) s ∧
        (appearances (drawn km.totalPoints r) c).length = km.K.toNat ∧
        ∀ t < c, (appearances (drawn km.totalPoints r) t).length < km.K.toNat :=
  seedLoop_results hlen hpos r count km.K.toNat

theorem Finishes.spec (hlen : points.length = km.totalPoints) (hpos : 0 < km.totalPoints)
    {count : ℕ} (h : Finishes km points r count s) :
    (appearances (drawn km.totalPoints r) count).length = km.K.toNat ∧
      (∀ t < count, (appearances (drawn km.totalPoints r) t).length < km.K.toNat) ∧
      SeededFrom points (appearances (drawn km.totalPoints r) count) s := by
  obtain ⟨hseed, hrand⟩ := h
  rcases seeding_results hlen hpos r count with ⟨herror, -⟩ | ⟨s', c, hc, hs, hleft, hspec⟩
  · rw [hseed] at herror
    cases herror
  · obtain rfl : s = s' := by simpa using hseed.symm.trans hs
    -- nothing is left of the results
    have hcount : c = count := by
      have hnone := congrArg List.length (hrand.symm.trans hleft)
      simp only [results, List.length_nil, List.length_map, List.length_range'] at hnone
      omega
    subst hcount
    exact ⟨hspec.2.1, hspec.2.2, hspec.1⟩

theorem finishes_of_le (hlen : points.length = km.totalPoints) (hpos : 0 < km.totalPoints) {t : ℕ}
    (h : km.K.toNat ≤ (appearances (drawn km.totalPoints r) t).length) :
    ∃ count s, Finishes km points r count s := by
  rcases seeding_results hlen hpos r t with ⟨-, hfew⟩ | ⟨-, c, -, -, -, -, hk, hmin⟩
  · omega
  · -- the run on the results up to there draws them all
    rcases seeding_results hlen hpos r c with ⟨-, hfew⟩ | ⟨s, c', hc', hs, hleft, -, hk', -⟩
    · omega
    · have hcount : c' = c := by
        by_contra hne
        have := hmin c' (by omega)
        omega
      subst hcount
      rw [Nat.sub_self] at hleft
      exact ⟨c', s, hs, hleft⟩

/-- Seeding finishes exactly on the streams that select `K` different points.  It seeds the
clusters from the first `K` of them in the order of their first appearance, labels these points
and no other, and draws no result behind the last of these appearances.  So it finishes for
`K ≤ n` when every point is selected sometime, and for `K > n` it never does. -/
theorem seeding_finishes_iff (points : List (Point F)) (hnew : ∀ p ∈ points, p.clusterId = 0)
    (hn : 1 ≤ points.length) (K d : ℕ) (iters : ℤ) (r : ℕ → ℕ) :
    ((∃ count s, Finishes ⟨K, iters, points.length, d⟩ points r count s) ↔
      (K : ℕ∞) ≤ (Set.range (drawn points.length r)).encard) ∧
    (∀ count s, Finishes ⟨K, iters, points.length, d⟩ points r count s →
      (appearances (drawn points.length r) count).length = K ∧
      (∀ t < count, (appearances (drawn points.length r) t).length < K) ∧
      SeededFrom points (appearances (drawn points.length r) count) s ∧
      ∀ j p, j ∉ appearances (drawn points.length r) count → s.points[j]? = some p →
        p.clusterId = 0) ∧
    (K ≤ points.length → (∀ index < points.length, ∃ t, drawn points.length r t = index) →
      ∃ count s, Finishes ⟨K, iters, points.length, d⟩ points r count s) ∧
    (points.length < K → ∀ count,
      seeding ⟨K, iters, points.length, d⟩ points (results r 0 count) = .error .exhausted) := by
  have hpos : 0 < (Parameters.mk K iters points.length d).totalPoints := hn
  have hK : ((K : ℤ)).toNat = K := Int.toNat_natCast K
  have hiff : (∃ count s, Finishes ⟨K, iters, points.length, d⟩ points r count s) ↔
      (K : ℕ∞) ≤ (Set.range (drawn points.length r)).encard := by
    rw [← exists_le_length_iff]
    constructor
    · rintro ⟨count, s, hfinish⟩
      exact ⟨count, ((hfinish.spec rfl hpos).1.trans hK).ge⟩
    · rintro ⟨t, ht⟩
      exact finishes_of_le rfl hpos (hK.trans_le ht)
  refine ⟨hiff, fun count s hfinish => ?_, fun hle hall => ?_, fun hlt count => ?_⟩
  · obtain ⟨hlength, hmin, hseeded⟩ := hfinish.spec rfl hpos
    refine ⟨hlength.trans hK, fun t ht => (hmin t ht).trans_eq hK, hseeded, fun j p hj hp => ?_⟩
    rw [hseeded.other j hj] at hp
    exact hnew p (List.mem_of_getElem? hp)
  · rw [hiff]
    have hsub : ((Finset.range points.length : Finset ℕ) : Set ℕ) ⊆
        Set.range (drawn points.length r) := fun index hindex =>
      hall index (Finset.mem_range.mp hindex)
    calc (K : ℕ∞) ≤ (Finset.range points.length).card := by
          rw [Finset.card_range]
          exact_mod_cast hle
      _ = ((Finset.range points.length : Finset ℕ) : Set ℕ).encard :=
          (Set.encard_coe_eq_coe_finsetCard _).symm
      _ ≤ (Set.range (drawn points.length r)).encard := Set.encard_le_encard hsub
  · rcases seeding_results rfl hpos r count with
      ⟨herror, -⟩ | ⟨-, c, -, -, -, -, hlength, -⟩
    · exact herror
    · -- there are not so many points
      have hmem : ∀ t, drawn points.length r t ∈ Finset.range points.length := fun t =>
        Finset.mem_range.mpr (Nat.mod_lt _ hn)
      have hbound := length_appearances_le hmem c
      rw [Finset.card_range] at hbound
      have hlength' : (appearances (drawn points.length r) c).length = K := hlength.trans hK
      omega

/-- The first result is drawn twice. -/
theorem seeding_finishes_iff_three :
    let points : List (Point ℤ) := [⟨1, 0, [7]⟩, ⟨2, 0, [8]⟩, ⟨3, 0, [9]⟩]
    ∃ s, Finishes ⟨(2 : ℕ), 5, 3, 1⟩ points (fun t => 2 - t / 2) 3 s ∧
      SeededFrom points [2, 1] s := by
  intro points
  have hspec := (seeding_finishes_iff points (by simp [points]) (by decide) 2 1 5
    fun t => 2 - t / 2).2.1
  exact ⟨_, ⟨rfl, rfl⟩, (hspec 3 _ ⟨rfl, rfl⟩).2.2.1⟩

end ParallelPrograms.KMeans
