import Mathlib.LinearAlgebra.Matrix.DotProduct
import ParallelPrograms.Centres

namespace ParallelPrograms

/-- The map `x ↦ matrix * x + shift`, where the matrix is orthogonal up to a factor: shifts,
rotations, reflections, changes of unit and what is composed of them. -/
structure Similarity (F : Type*) [Field F] [LinearOrder F] (d : ℕ) where
  matrix : Matrix (Fin d) (Fin d) F
  shift : Fin d → F
  scale : F
  scale_pos : 0 < scale
  orthogonal : matrix.transpose * matrix = scale • 1

namespace Similarity
open Centres Matrix

variable {F : Type*} [Field F] [LinearOrder F] {d : ℕ} (T : Similarity F d)

def apply (x : Fin d → F) : Fin d → F := T.matrix *ᵥ x + T.shift

omit [LinearOrder F] in
theorem sqDist_eq_dotProduct {κ : Type*} [Fintype κ] (x y : κ → F) :
    sqDist x y = (x - y) ⬝ᵥ (x - y) := by
  simp only [sqDist, dotProduct, Pi.sub_apply, sq]

theorem mulVec_dotProduct (z : Fin d → F) :
    (T.matrix *ᵥ z) ⬝ᵥ (T.matrix *ᵥ z) = T.scale * (z ⬝ᵥ z) := by
  calc (T.matrix *ᵥ z) ⬝ᵥ (T.matrix *ᵥ z)
      = ((T.matrix *ᵥ z) ᵥ* T.matrix) ⬝ᵥ z := dotProduct_mulVec _ _ _
    _ = (z ᵥ* (T.matrix.transpose * T.matrix)) ⬝ᵥ z := by
        rw [← vecMul_transpose, vecMul_vecMul]
    _ = T.scale * (z ⬝ᵥ z) := by
        rw [T.orthogonal, vecMul_smul, vecMul_one, smul_dotProduct, smul_eq_mul]

theorem sqDist_apply (x y : Fin d → F) :
    sqDist (T.apply x) (T.apply y) = T.scale * sqDist x y := by
  have hsub : T.apply x - T.apply y = T.matrix *ᵥ (x - y) := by
    rw [apply, apply, mulVec_sub, add_sub_add_right_eq_sub]
  rw [sqDist_eq_dotProduct, sqDist_eq_dotProduct, hsub, mulVec_dotProduct]

theorem sqDist_apply_lt [IsStrictOrderedRing F] {u v x y : Fin d → F} :
    sqDist (T.apply u) (T.apply x) < sqDist (T.apply v) (T.apply y) ↔
      sqDist u x < sqDist v y := by
  rw [sqDist_apply, sqDist_apply]
  exact mul_lt_mul_iff_right₀ T.scale_pos

theorem sum_apply (xs : List (Fin d → F)) :
    (xs.map T.apply).sum = T.matrix *ᵥ xs.sum + (xs.length : F) • T.shift := by
  induction xs with
  | nil => simp
  | cons x xs ih =>
    rw [List.map_cons, List.sum_cons, List.sum_cons, ih, apply, mulVec_add, List.length_cons]
    push_cast
    rw [add_smul, one_smul, add_add_add_comm, add_comm T.shift]

/-- The mean of the images is the image of the mean. -/
theorem mean_apply [CharZero F] {xs : List (Fin d → F)} (hne : xs ≠ []) :
    (xs.length : F)⁻¹ • (xs.map T.apply).sum = T.apply ((xs.length : F)⁻¹ • xs.sum) := by
  have hlen : (xs.length : F) ≠ 0 := by
    rw [Nat.cast_ne_zero]
    exact (List.length_pos_iff.mpr hne).ne'
  rw [sum_apply, apply, mulVec_smul, smul_add, inv_smul_smul₀ hlen]

def stretch [IsStrictOrderedRing F] (factor : F) (h : factor ≠ 0) (shift : Fin d → F) :
    Similarity F d where
  matrix := factor • 1
  shift := shift
  scale := factor * factor
  scale_pos := mul_self_pos.mpr h
  orthogonal := by
    rw [transpose_smul, transpose_one, smul_mul_smul_comm, one_mul]

end Similarity
end ParallelPrograms
