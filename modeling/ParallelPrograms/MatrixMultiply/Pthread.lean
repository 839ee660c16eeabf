import Mathlib.Data.List.Perm.Basic
import Mathlib.Data.List.Range
import ParallelPrograms.MatrixMultiply.Model

namespace ParallelPrograms.MatrixMultiply.Pthread

variable {n : ℕ}

def numThreads : ℕ := 100

/-- `struct_matrices`; the three sizes are the same. -/
structure Matrices (n : ℕ) where
  matX : IntMatrix n
  matY : IntMatrix n
  matZ : IntMatrix n

def matMultiply (x y z : IntMatrix n) : IntMatrix n := accumulate x y z

/-- A thread of `matrixMultiply_pthread.cpp`, which gets a pointer to the shared matrices: the lines
that gave it a slice of the rows are commented out. -/
def matMultiplyPthread (m : Matrices n) : Matrices n :=
  { m with matZ := matMultiply m.matX m.matY m.matZ }

/-- The threads one after the other.  All of them get the same argument. -/
def runThreads (order : List ℕ) (m : Matrices n) : Matrices n :=
  order.foldl (fun m _ => matMultiplyPthread m) m

theorem runThreads_eq (order : List ℕ) (x y z : IntMatrix n) :
    runThreads order ⟨x, y, z⟩ = ⟨x, y, z + order.length • (x * y)⟩ := by
  induction order generalizing z with
  | nil => simp [runThreads]
  | cons t order ih =>
    have hfirst : matMultiplyPthread ⟨x, y, z⟩ = ⟨x, y, z + x * y⟩ := by
      rw [matMultiplyPthread, matMultiply, accumulate_eq]
    rw [runThreads, List.foldl_cons, hfirst, ← runThreads, ih, List.length_cons, succ_nsmul',
      add_assoc]

structure OneProduct (order : List ℕ) (x y : IntMatrix n) : Prop where
  product : (runThreads order ⟨x, y, 0⟩).matZ = x * y
  sequential : (runThreads order ⟨x, y, 0⟩).matZ = main x y 0

/-- 99 has an inverse modulo `2 ^ 32`. -/
theorem ninety_nine_nsmul_eq_zero {v : BitVec 32} (h : 99 • v = 0) : v = 0 := by
  have hinv : (3210379595 : BitVec 32) * 99 = 1 := by decide
  have hmul : 99 * v = 0 := (nsmul_eq_mul 99 v).symm.trans h
  calc v = 3210379595 * 99 * v := by rw [hinv, one_mul]
    _ = 3210379595 * (99 * v) := mul_assoc _ _ _
    _ = 0 := by rw [hmul, mul_zero]

/-- The threads repeat the product, so that one product is left only where the rows of `x`
are orthogonal to the columns of `y`. -/
theorem oneProduct_iff {order : List ℕ} (h : order.Perm (List.range numThreads))
    (x y : IntMatrix n) : OneProduct order x y ↔ ∀ i j, ∑ k, x i k * y k j = 0 := by
  have hlength : order.length = 99 + 1 := by rw [h.length_eq, List.length_range]; rfl
  have hz : (runThreads order ⟨x, y, 0⟩).matZ = 99 • (x * y) + x * y := by
    rw [runThreads_eq, zero_add, hlength, succ_nsmul]
  constructor
  · intro hone i j
    have hsum : 99 • (x * y) = 0 := add_eq_right.mp (hz.symm.trans hone.product)
    have hcell : 99 • ((x * y) i j) = 0 := congrFun (congrFun hsum i) j
    rw [← Matrix.mul_apply]
    exact ninety_nine_nsmul_eq_zero hcell
  · intro horth
    have hzero : x * y = 0 := Matrix.ext horth
    refine ⟨?_, ?_⟩
    · rw [hz, hzero, smul_zero, zero_add]
    · rw [hz, main, accumulate_eq, hzero, smul_zero, zero_add]

def ones : IntMatrix 1 := fun _ _ => 1

theorem oneProduct_iff_ones :
    OneProduct (List.range numThreads) ones ones ↔ ∀ i j, ∑ k, ones i k * ones k j = 0 :=
  oneProduct_iff (.refl _) ones ones

/-- 100 threads make a 100 of 1 times 1. -/
theorem not_oneProduct_ones : ¬ ∀ (n : ℕ) (order : List ℕ) (x y : IntMatrix n),
    order.Perm (List.range numThreads) → OneProduct order x y := by
  intro h
  have hproduct := (h 1 _ ones ones (.refl _)).product
  rw [runThreads_eq, zero_add, List.length_range] at hproduct
  have hcell := congrFun (congrFun hproduct 0) 0
  revert hcell
  decide

end ParallelPrograms.MatrixMultiply.Pthread
