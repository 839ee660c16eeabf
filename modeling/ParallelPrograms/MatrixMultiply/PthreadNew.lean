import Mathlib.Algebra.BigOperators.Intervals
import Mathlib.Data.BitVec
import ParallelPrograms.Mpi.Blocks

namespace ParallelPrograms.MatrixMultiply.PthreadNew
open Finset Mpi

def maxSize : ℕ := 2000

def numThreads : ℕ := 5

/-- `int a[MAX_SIZE][MAX_SIZE]`, of `int`s that wrap around as they do in the program as it is
built -/
abbrev IntGrid := Grid (BitVec 32) maxSize

/-- The globals the threads change, and the rows of `MatC` they have written to. -/
structure Globals where
  i : ℕ
  matC : IntGrid
  written : List ℕ

def Globals.store (s : Globals) (j : ℕ) (v : BitVec 32) : Globals :=
  { s with matC := s.matC.set s.i j v, written := s.i :: s.written }

/-- A thread; nothing reads its argument or its `thread_num`. -/
def mulMatrix (size : ℕ) (matA matB : IntGrid) (s : Globals) (_arg : ℕ) : Globals :=
  (List.range size).foldl (fun s j =>
    (List.range size).foldl (fun s k =>
      s.store j (s.matC.get s.i j + matA.get s.i k * matB.get k j)) (s.store j 0))
    { s with i := s.i + 1 }

def start : Globals := ⟨0, ⟨fun _ => 0⟩, []⟩

def runThreads (size : ℕ) (matA matB : IntGrid) (order : List ℕ) : Globals :=
  order.foldl (mulMatrix size matA matB) start

section Thread

variable {size : ℕ} (a b : IntGrid)

def rowLoop (size : ℕ) (a b : IntGrid) (i : ℕ) (c : IntGrid) : IntGrid :=
  (List.range size).foldl (fun c j =>
    (List.range size).foldl (fun c k => c.set i j (c.get i j + a.get i k * b.get k j))
      (c.set i j 0)) c

theorem replicate_append_cons {α : Type*} (m : ℕ) (x : α) (l : List α) :
    List.replicate m x ++ x :: l = List.replicate (m + 1) x ++ l := by
  rw [List.replicate_succ', List.append_assoc, List.singleton_append]

theorem foldl_store (i j : ℕ) (c : IntGrid) (w : List ℕ) (l : List ℕ) :
    l.foldl (fun s k => s.store j (s.matC.get s.i j + a.get s.i k * b.get k j))
        (⟨i, c, w⟩ : Globals) =
      ⟨i, l.foldl (fun c k => c.set i j (c.get i j + a.get i k * b.get k j)) c,
        List.replicate l.length i ++ w⟩ := by
  induction l generalizing c w with
  | nil => rfl
  | cons k l ih =>
    rw [List.foldl_cons, Globals.store, ih, List.foldl_cons, List.length_cons,
      replicate_append_cons]

theorem mulMatrix_eq (s : Globals) (t : ℕ) : mulMatrix size a b s t =
    ⟨s.i + 1, rowLoop size a b (s.i + 1) s.matC,
      List.replicate (size * (size + 1)) (s.i + 1) ++ s.written⟩ := by
  have hloop : ∀ (l : List ℕ) (i : ℕ) (c : IntGrid) (w : List ℕ),
      l.foldl (fun s j => (List.range size).foldl (fun s k =>
        s.store j (s.matC.get s.i j + a.get s.i k * b.get k j)) (s.store j 0))
          (⟨i, c, w⟩ : Globals) =
        ⟨i, l.foldl (fun c j =>
          (List.range size).foldl (fun c k => c.set i j (c.get i j + a.get i k * b.get k j))
            (c.set i j 0)) c, List.replicate (l.length * (size + 1)) i ++ w⟩ := by
    intro l i
    induction l with
    | nil => simp
    | cons j l ih =>
      intro c w
      have hrows : List.replicate (l.length * (size + 1)) i ++
          (List.replicate size i ++ i :: w) =
            List.replicate ((l.length + 1) * (size + 1)) i ++ w := by
        rw [replicate_append_cons, ← List.append_assoc, List.replicate_append_replicate,
          Nat.succ_mul]
      rw [List.foldl_cons, Globals.store, foldl_store, ih, List.foldl_cons, List.length_range,
        hrows, List.length_cons]
  rw [mulMatrix, hloop, List.length_range]
  rfl

theorem entry_eq_sum (x y : ℕ → ℕ → BitVec 32) (i j : ℕ) :
    entry size x y i j = ∑ k ∈ range size, x i k * y k j := by
  induction size with
  | zero => rfl
  | succ m ih => rw [entry, List.range_succ, List.foldl_append, ← entry, ih, sum_range_succ]; rfl

/-- The row of a thread is a row of the product, whatever it held before. -/
theorem rowLoop_self (c : IntGrid) (hsize : size ≤ maxSize) (i : ℕ) {j : ℕ} (hj : j < size) :
    (rowLoop size a b i c).get i j = ∑ k ∈ range size, a.get i k * b.get k j := by
  rw [← entry_eq_sum]
  refine foldl_written (fun c : IntGrid => c.get i j) c (List.mem_range.mpr hj) (fun c => ?_)
    (fun c j' hj' hne => ?_)
  · rw [inner_loop_get, Grid.get_set_self]
    rfl
  · have hj'size := List.mem_range.mp hj'
    exact inner_loop_frame a b c _ (by omega) (by omega) (by omega)

theorem rowLoop_ne (c : IntGrid) (hsize : size ≤ maxSize) {i r j : ℕ} (hj : j < size)
    (hr : r ≠ i) : (rowLoop size a b i c).get r j = c.get r j := by
  refine foldl_frame (fun c : IntGrid => c.get r j) _ c fun c j' hj' => ?_
  have hj'size := List.mem_range.mp hj'
  exact inner_loop_frame a b c _ (by omega) (by omega) (by omega)

end Thread

/-- What `m` threads leave: the rows `1, .., m`. -/
structure After (size : ℕ) (a b : IntGrid) (m : ℕ) (s : Globals) : Prop where
  i : s.i = m
  cell : ∀ r : ℕ, ∀ c < size, s.matC.get r c =
    if 1 ≤ r ∧ r ≤ m then ∑ k ∈ range size, a.get r k * b.get k c else 0
  written : ∀ r : ℕ, r ∈ s.written ↔ 1 ≤ r ∧ r ≤ m

section Threads

variable {size : ℕ} {a b : IntGrid}

theorem start_after : After size a b 0 start where
  i := rfl
  cell r c _ := by rw [if_neg (by omega)]; rfl
  written r := by simp [start]; omega

theorem After.mulMatrix {m : ℕ} {s : Globals} (h : After size a b m s) (hpos : 1 ≤ size)
    (hsize : size ≤ maxSize) (t : ℕ) : After size a b (m + 1) (mulMatrix size a b s t) := by
  rw [mulMatrix_eq, h.i]
  refine ⟨rfl, fun r c hc => ?_, fun r => ?_⟩
  · by_cases hr : r = m + 1
    · subst hr
      rw [if_pos (by omega)]
      exact rowLoop_self a b s.matC hsize (m + 1) hc
    · have hiff : 1 ≤ r ∧ r ≤ m + 1 ↔ 1 ≤ r ∧ r ≤ m := by omega
      simp only [rowLoop_ne a b s.matC hsize hc hr, h.cell r c hc, hiff]
  · have hstores : size * (size + 1) ≠ 0 := Nat.mul_ne_zero (by omega) (by omega)
    rw [List.mem_append, List.mem_replicate, h.written]
    omega

theorem runThreads_after (hpos : 1 ≤ size) (hsize : size ≤ maxSize) (order : List ℕ) :
    After size a b order.length (runThreads size a b order) := by
  induction order using List.reverseRecOn with
  | nil => exact start_after
  | append_singleton order t ih =>
    rw [runThreads, List.foldl_concat, List.length_append]
    exact ih.mulMatrix hpos hsize t

end Threads

/-- The whole product, with nothing written behind the last row. -/
structure Correct (size : ℕ) (a b : IntGrid) (s : Globals) : Prop where
  product : ∀ r < size, ∀ c < size, s.matC.get r c = ∑ k ∈ range size, a.get r k * b.get k c
  inside : ∀ r ∈ s.written, r < size

/-- The threads compute the rows 1 to 5.  Each of these must be a row of the matrices, and
each of the others a row of zeros of the product. -/
theorem correct_rows_iff {size : ℕ} (hpos : 1 ≤ size) (hsize : size ≤ maxSize) (a b : IntGrid)
    {order : List ℕ} (horder : order.Perm (List.range numThreads)) :
    Correct size a b (runThreads size a b order) ↔ numThreads < size ∧
      ∀ r < size, r = 0 ∨ numThreads < r →
        ∀ c < size, ∑ k ∈ range size, a.get r k * b.get k c = 0 := by
  have hafter := runThreads_after (a := a) (b := b) hpos hsize order
  rw [horder.length_eq, List.length_range] at hafter
  have hthreads : 1 ≤ numThreads := by decide
  constructor
  · intro h
    refine ⟨h.inside _ ((hafter.written _).mpr ⟨hthreads, le_rfl⟩), fun r hr hout c hc => ?_⟩
    rw [← h.product r hr c hc, hafter.cell r c hc, if_neg (by omega)]
  · rintro ⟨hlt, hzero⟩
    refine ⟨fun r hr c hc => ?_, fun r hr => ?_⟩
    · rw [hafter.cell r c hc]
      split_ifs with hrow
      · rfl
      · exact (hzero r hr (by omega) c hc).symm
    · exact ((hafter.written r).mp hr).2.trans_lt hlt

def ones : IntGrid := ⟨fun _ => 1⟩

theorem correct_rows_iff_six :
    Correct 6 ones ones (runThreads 6 ones ones (List.range numThreads)) ↔
    numThreads < 6 ∧ ∀ r < 6, r = 0 ∨ numThreads < r →
      ∀ c < 6, ∑ k ∈ range 6, ones.get r k * ones.get k c = 0 :=
  correct_rows_iff (by decide) (by decide) ones ones (.refl _)

/-- Row 0 of the product of two matrices of ones is not computed. -/
theorem not_correct_six : ¬ ∀ (size : ℕ) (a b : IntGrid) (order : List ℕ), 1 ≤ size →
    size ≤ maxSize → order.Perm (List.range numThreads) →
      Correct size a b (runThreads size a b order) := by
  intro h
  have hproduct := (h 6 ones ones _ (by decide) (by decide) (.refl _)).product 0 (by decide) 0
    (by decide)
  have hafter : After 6 ones ones _ _ :=
    runThreads_after (by decide) (by decide) (List.range numThreads)
  rw [hafter.cell 0 0 (by decide), if_neg (by decide)] at hproduct
  revert hproduct
  decide

end ParallelPrograms.MatrixMultiply.PthreadNew
