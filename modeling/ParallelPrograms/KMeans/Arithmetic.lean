import Mathlib.Algebra.BigOperators.Fin
import Mathlib.Analysis.Real.Sqrt
import ParallelPrograms.KMeans.Rounds
import ParallelPrograms.Centres

namespace ParallelPrograms.KMeans

/-- The functions of `<cmath>` in exact arithmetic.  Square roots are only compared with each
other, so that nothing but their order matters. -/
class ExactMath (F : Type) [Field F] [LinearOrder F] extends CMath F where
  abs_eq : ∀ x : F, CMath.abs x = |x|
  pow2_eq : ∀ x : F, CMath.pow2 x = x ^ 2
  sqrt_lt_sqrt : ∀ {x y : F}, 0 ≤ x → 0 ≤ y → (CMath.sqrt x < CMath.sqrt y ↔ x < y)

noncomputable instance : ExactMath ℝ where
  abs x := |x|
  sqrt := Real.sqrt
  pow2 x := x ^ 2
  abs_eq _ := rfl
  pow2_eq _ := rfl
  sqrt_lt_sqrt hx _ := Real.sqrt_lt_sqrt_iff hx

variable {F : Type} [Field F]

def coords (d : ℕ) (values : List F) (j : Fin d) : F := coord values j

theorem foldl_range_add (f : ℕ → F) (d : ℕ) :
    (List.range d).foldl (fun sum j => sum + f j) 0 = ∑ j : Fin d, f j := by
  induction d with
  | zero => rfl
  | succ d ih =>
    rw [List.range_succ, List.foldl_append, ih, Fin.sum_univ_castSucc]
    rfl

variable [LinearOrder F]

section Distances

variable [IsStrictOrderedRing F] [ExactMath F]

/-- The branch for one dimension orders like the other one. -/
theorem dist_lt_dist (d : ℕ) (u v values : List F) :
    dist d u values < dist d v values ↔
      Centres.sqDist (coords d u) (coords d values) <
        Centres.sqDist (coords d v) (coords d values) := by
  by_cases hd : d = 1
  · subst hd
    have hone : ∀ w : List F, Centres.sqDist (coords 1 w) (coords 1 values) =
        (coord w 0 - coord values 0) ^ 2 := by
      intro w
      simp [Centres.sqDist, coords]
    rw [dist, dist, if_pos rfl, if_pos rfl, ExactMath.abs_eq, ExactMath.abs_eq, hone, hone]
    exact sq_lt_sq.symm
  · have hsum : ∀ w : List F, (List.range d).foldl (fun sum j =>
        sum + CMath.pow2 (coord w j - coord values j)) 0 =
          Centres.sqDist (coords d w) (coords d values) := by
      intro w
      simp only [ExactMath.pow2_eq]
      exact foldl_range_add (fun j => (coord w j - coord values j) ^ 2) d
    rw [dist, dist, if_neg hd, if_neg hd, hsum, hsum]
    exact ExactMath.sqrt_lt_sqrt (Centres.sqDist_nonneg _ _) (Centres.sqDist_nonneg _ _)

end Distances

section Nearest

variable [CMath F] {d : ℕ}

theorem foldl_closer (values : List F) (first : Cluster F) (cs : List (Cluster F)) :
    ∃ front c back, first :: cs = front ++ c :: back ∧
      cs.foldl (closer d values) (dist d first.centroid values, first.clusterId) =
        (dist d c.centroid values, c.clusterId) ∧
      (∀ e ∈ front, dist d c.centroid values < dist d e.centroid values) ∧
      ∀ e ∈ back, dist d c.centroid values ≤ dist d e.centroid values := by
  induction cs using List.reverseRecOn with
  | nil => exact ⟨[], first, [], rfl, rfl, by simp, by simp⟩
  | append_singleton cs e ih =>
    obtain ⟨front, c, back, hsplit, hfold, hfront, hback⟩ := ih
    rw [List.foldl_append, hfold, List.foldl_cons, List.foldl_nil]
    by_cases he : dist d e.centroid values < dist d c.centroid values
    · refine ⟨first :: cs, e, [], rfl, if_pos he, ?_, by simp⟩
      intro b hb
      rw [hsplit, List.mem_append, List.mem_cons] at hb
      rcases hb with hb | rfl | hb
      · exact he.trans (hfront b hb)
      · exact he
      · exact he.trans_le (hback b hb)
    · refine ⟨front, c, back ++ [e], ?_, if_neg he, hfront, ?_⟩
      · rw [← List.cons_append, hsplit, List.append_assoc, List.cons_append]
      · intro b hb
        rcases List.mem_append.mp hb with hb | hb
        · exact hback b hb
        · rw [List.mem_singleton.mp hb]
          exact not_lt.mp he

theorem nearest_first {clusters : List (Cluster F)} (hpos : 0 < clusters.length) (p : Point F) :
    ∃ front c back, clusters = front ++ c :: back ∧ nearest d clusters p = c.clusterId ∧
      (∀ e ∈ front, dist d c.centroid p.values < dist d e.centroid p.values) ∧
      ∀ e ∈ back, dist d c.centroid p.values ≤ dist d e.centroid p.values := by
  cases clusters with
  | nil => simp at hpos
  | cons first cs =>
    obtain ⟨front, c, back, hsplit, hfold, hfront, hback⟩ := foldl_closer p.values first cs
    exact ⟨front, c, back, hsplit, congrArg Prod.snd hfold, hfront, hback⟩

end Nearest

end ParallelPrograms.KMeans
