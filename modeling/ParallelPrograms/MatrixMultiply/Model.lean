import Mathlib.Algebra.BigOperators.Fin
import Mathlib.Data.BitVec
import Mathlib.LinearAlgebra.Matrix.RowCol
import ParallelPrograms.Grid

namespace ParallelPrograms.MatrixMultiply

variable {n : ℕ}

/-- `int **z` with `size` rows of `size` elements.  Sums and products of `int`s wrap around, as they
do in the program as it is built.  A matrix that fits into memory has fewer than `2 ^ 31` rows, so
that no loop counter overflows. -/
abbrev IntMatrix (size : ℕ) := Matrix (Fin size) (Fin size) (BitVec 32)

def store (z : IntMatrix n) (i j : Fin n) (v : BitVec 32) : IntMatrix n :=
  z.updateRow i (Function.update (z i) j v)

def accumulate (x y z : IntMatrix n) : IntMatrix n :=
  (List.finRange n).foldl (fun z i =>
    (List.finRange n).foldl (fun z j =>
      (List.finRange n).foldl (fun z k => store z i j (z i j + x i k * y k j)) z) z) z

/-- `main` of `matrixMultiply.cpp`, where `z` comes from `new int[size]` and is not cleared. -/
def main (x y z : IntMatrix n) : IntMatrix n := accumulate x y z

@[simp] theorem store_self (z : IntMatrix n) (i j : Fin n) (v : BitVec 32) :
    store z i j v i j = v := by
  rw [store, Matrix.updateRow_self, Function.update_self]

theorem store_row_ne (z : IntMatrix n) {i i' : Fin n} (j : Fin n) (v : BitVec 32) (h : i' ≠ i) :
    store z i j v i' = z i' := Matrix.updateRow_ne h

theorem store_ne (z : IntMatrix n) {i j i' j' : Fin n} (v : BitVec 32) (h : ¬ (i' = i ∧ j' = j)) :
    store z i j v i' j' = z i' j' := by
  by_cases hi : i' = i
  · subst hi
    have hj : j' ≠ j := fun hj => h ⟨rfl, hj⟩
    rw [store, Matrix.updateRow_self, Function.update_of_ne hj]
  · rw [store_row_ne z j v hi]

section Loops

variable (x y : IntMatrix n)

theorem inner_loop_self (z : IntMatrix n) (i j : Fin n) (l : List (Fin n)) :
    l.foldl (fun z k => store z i j (z i j + x i k * y k j)) z i j =
      z i j + (l.map fun k => x i k * y k j).sum := by
  induction l generalizing z with
  | nil => simp
  | cons k l ih => rw [List.foldl_cons, ih, store_self, List.map_cons, List.sum_cons, add_assoc]

theorem inner_loop_ne (z : IntMatrix n) {i j i' j' : Fin n} (l : List (Fin n))
    (h : ¬ (i' = i ∧ j' = j)) :
    l.foldl (fun z k => store z i j (z i j + x i k * y k j)) z i' j' = z i' j' :=
  foldl_frame (fun z : IntMatrix n => z i' j') l z fun z _ _ => store_ne z _ h

/-- The loops add the product to whatever `z` held before. -/
theorem accumulate_eq (z : IntMatrix n) : accumulate x y z = z + x * y := by
  ext i j : 1
  let element : IntMatrix n → BitVec 32 := fun z => z i j
  let added : BitVec 32 → BitVec 32 :=
    fun v => v + ((List.finRange n).map fun k => x i k * y k j).sum
  have hloops : element (accumulate x y z) = added (element z) := by
    unfold accumulate
    refine foldl_own element (List.nodup_finRange n) z (List.mem_finRange i) (fun z => ?_)
      (fun z i' _ hi => ?_)
    · refine foldl_own element (List.nodup_finRange n) z (List.mem_finRange j) (fun z => ?_)
        (fun z j' _ hj => ?_)
      · exact inner_loop_self x y z i j _
      · exact inner_loop_ne x y z _ fun h => hj h.2.symm
    · exact foldl_frame element _ z fun z j' _ => inner_loop_ne x y z _ fun h => hi h.1.symm
  rw [Matrix.add_apply, Matrix.mul_apply, Fin.sum_univ_def]
  exact hloops

end Loops
end ParallelPrograms.MatrixMultiply
