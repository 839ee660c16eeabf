import Mathlib.Algebra.Group.Nat.Units
import Mathlib.Tactic.Ring
import ParallelPrograms.Int32
import ParallelPrograms.WorkItems

namespace ParallelPrograms.VectorKernels
open WorkItems

abbrev Registers := BitVec 32 × BitVec 32

namespace VectorOps

/-- The work-item of `square_magnitude` with the global id `globalIndex` -/
def squareMagnitude (globalIndex : ℕ) : List (Instruction ℕ (BitVec 32) Registers) :=
  [.load globalIndex fun x r => (x, r.2), .load globalIndex fun y r => (r.1, y),
   .store globalIndex fun r => r.1 * r.2]

/-- `A[i] = rand() % 100` -/
def init (rand : ℕ → ℕ) (i : ℕ) : BitVec 32 := BitVec.ofNat 32 (rand i % 100)

inductive Printed where
  | cell (x : ℤ)
  | dots
  deriving DecidableEq

/-- `print` with `PRINT` set to 1. -/
def print (a : ℕ → BitVec 32) (size : ℕ) : List Printed :=
  if 15 < size then
    (List.range 5).map (fun i => .cell (a i).toInt) ++ [.dots] ++
      (List.range' (size - 5) 5).map fun i => .cell (a i).toInt
  else (List.range size).map fun i => .cell (a i).toInt

def written (v : ℕ → BitVec 32) (rest : ℕ → Registers) : Machine ℕ ℕ (BitVec 32) Registers where
  memory := v
  registers := rest

def Printed.square : Printed → Printed
  | .cell x => .cell (x ^ 2)
  | .dots => .dots

theorem conflictFree (size : ℕ) : ConflictFree (List.range size) squareMagnitude := by
  refine .of_owner id List.nodup_range fun i x hx => ?_
  simp only [squareMagnitude, List.mem_cons, List.not_mem_nil, or_false] at hx
  rcases hx with rfl | rfl | rfl <;> rfl

theorem alone_squareMagnitude (m : Machine ℕ ℕ (BitVec 32) Registers) (i : ℕ) :
    (alone i (squareMagnitude i) m).memory i = m.memory i * m.memory i := by
  simp [alone, squareMagnitude, exec]

variable {size : ℕ} {v : ℕ → BitVec 32} {rest : ℕ → Registers}
  {e : Machine ℕ ℕ (BitVec 32) Registers ×
    Team (ℕ × Instruction ℕ (BitVec 32) Registers) fun _ _ => True}

theorem final_memory (he : Final (Team.Moves exec) e)
    (hreach : Reached (List.range size) squareMagnitude (written v rest) e) {i : ℕ}
    (hi : i < size) : e.1.memory i = v i * v i := by
  have hstore : Instruction.store i (fun r => r.1 * r.2) ∈ squareMagnitude i := by
    simp [squareMagnitude]
  rw [(conflictFree size).final_eq hreach he]
  exact ((conflictFree size).serial_memory _ (List.mem_range.mpr hi) hstore).trans
    (alone_squareMagnitude _ i)

theorem init_mul_self (rand : ℕ → ℕ) (i : ℕ) :
    (init rand i * init rand i).toInt = (init rand i).toInt ^ 2 := by
  have hlt : rand i % 100 < 100 := Nat.mod_lt _ (by omega)
  have hsquare : rand i % 100 * (rand i % 100) ≤ 100 * 100 := Nat.mul_le_mul hlt.le hlt.le
  rw [init, ← BitVec.ofNat_mul, toInt_of_lt (by omega), toInt_of_lt (by omega)]
  push_cast
  exact (sq _).symm

theorem print_congr {a b : ℕ → BitVec 32} (f : Printed → Printed) (hdots : f .dots = .dots)
    (h : ∀ i < size, Printed.cell (b i).toInt = f (.cell (a i).toInt)) :
    print b size = (print a size).map f := by
  have hmap : ∀ l : List ℕ, (∀ i ∈ l, i < size) → l.map (fun i => Printed.cell (b i).toInt) =
      (l.map fun i => Printed.cell (a i).toInt).map f := by
    intro l hl
    rw [List.map_map]
    exact List.map_congr_left fun i hi => h i (hl i hi)
  unfold print
  split_ifs with hsize
  · rw [List.map_append, List.map_append, List.map_singleton, hdots, hmap (List.range 5),
      hmap (List.range' (size - 5) 5)]
    · intro i hi
      obtain ⟨-, hi⟩ := List.mem_range'_1.mp hi
      omega
    · intro i hi
      have := List.mem_range.mp hi
      omega
  · exact hmap _ fun i hi => List.mem_range.mp hi

/-- The launch of `main` ends, and whatever the order of its loads and stores, the second line
that `main` prints holds the squares of the first one. -/
theorem main_prints_squares (rand : ℕ → ℕ) (size : ℕ) (rest : ℕ → Registers) :
    (¬ ∃ run : ℕ → Machine ℕ ℕ (BitVec 32) Registers ×
          Team (ℕ × Instruction ℕ (BitVec 32) Registers) fun _ _ => True,
        run 0 = (written (init rand) rest, enqueue (List.range size) squareMagnitude) ∧
        ∀ k, Team.Moves exec (run k) (run (k + 1))) ∧
      ∀ e, Final (Team.Moves exec) e →
        Reached (List.range size) squareMagnitude (written (init rand) rest) e →
        print e.1.memory size = (print (init rand) size).map Printed.square := by
  refine ⟨WorkItems.no_infinite_run _, fun e he hreach => ?_⟩
  refine print_congr Printed.square rfl fun i hi => ?_
  rw [final_memory he hreach hi, init_mul_self]
  rfl

end VectorOps

namespace VectorAdd

inductive Buffer where
  | aMemObj
  | bMemObj
  | cMemObj
  deriving DecidableEq

/-- The work-item of `vector_add` with the global id `i`, which multiplies.  `mpi_kernel.cl` and
`MatMult.cl` have it in the same words. -/
def vectorAdd (i : ℕ) : List (Instruction (Buffer × ℕ) (BitVec 32) Registers) :=
  [.load (.aMemObj, i) fun x r => (x, r.2), .load (.bMemObj, i) fun y r => (r.1, y),
   .store (.cMemObj, i) fun r => r.1 * r.2]

def written (a b c : ℕ → BitVec 32) (rest : ℕ → Registers) :
    Machine ℕ (Buffer × ℕ) (BitVec 32) Registers where
  memory
    | (.aMemObj, p) => a p
    | (.bMemObj, p) => b p
    | (.cMemObj, p) => c p
  registers := rest

/-- The work-items of a launch with `local_item_size`.  A global size that it does not divide is
refused (`CL_INVALID_WORK_GROUP_SIZE`), and the program does not look at the error. -/
def ndRange (globalItemSize localItemSize : ℕ) : List ℕ :=
  if localItemSize ∣ globalItemSize then List.range globalItemSize else []

def localItemSize : ℕ := 64

theorem ndRange_nodup (globalSize localSize : ℕ) : (ndRange globalSize localSize).Nodup := by
  unfold ndRange
  split_ifs
  · exact List.nodup_range
  · exact List.nodup_nil

theorem mem_ndRange {globalSize localSize i : ℕ} (h : localSize ∣ globalSize) :
    i ∈ ndRange globalSize localSize ↔ i < globalSize := by
  rw [ndRange, if_pos h, List.mem_range]

theorem ndRange_refused {globalSize localSize : ℕ} (h : ¬ localSize ∣ globalSize) :
    ndRange globalSize localSize = [] := if_neg h

theorem conflictFree {items : List ℕ} (hnodup : items.Nodup) : ConflictFree items vectorAdd := by
  refine .of_owner Prod.snd hnodup fun i x hx => ?_
  simp only [vectorAdd, List.mem_cons, List.not_mem_nil, or_false] at hx
  rcases hx with rfl | rfl | rfl <;> rfl

theorem alone_vectorAdd (m : Machine ℕ (Buffer × ℕ) (BitVec 32) Registers) (i : ℕ) :
    (alone i (vectorAdd i) m).memory (.cMemObj, i) =
      m.memory (.aMemObj, i) * m.memory (.bMemObj, i) := by
  simp [alone, vectorAdd, exec]

variable {a b c : ℕ → BitVec 32} {rest : ℕ → Registers}
  {e : Machine ℕ (Buffer × ℕ) (BitVec 32) Registers ×
    Team (ℕ × Instruction (Buffer × ℕ) (BitVec 32) Registers) fun _ _ => True}

theorem final_memory {items : List ℕ} (hnodup : items.Nodup) (he : Final (Team.Moves exec) e)
    (hreach : Reached items vectorAdd (written a b c rest) e) {i : ℕ} (hi : i ∈ items) :
    e.1.memory (.cMemObj, i) = a i * b i := by
  have hstore : Instruction.store (.cMemObj, i) (fun r => r.1 * r.2) ∈ vectorAdd i := by
    simp [vectorAdd]
  rw [(conflictFree hnodup).final_eq hreach he]
  exact ((conflictFree hnodup).serial_memory _ hi hstore).trans (alone_vectorAdd _ i)

theorem refused_memory (he : Final (Team.Moves exec) e)
    (hreach : Reached [] vectorAdd (written a b c rest) e) (i : ℕ) :
    e.1.memory (.cMemObj, i) = c i := by
  rw [(conflictFree List.nodup_nil).final_eq hreach he]
  rfl

inductive Sign where
  | plus
  | times
  deriving DecidableEq

structure Line where
  sign : Sign
  left : ℤ
  right : ℤ
  result : ℤ
  deriving DecidableEq

def Line.Holds : Line → Prop
  | ⟨.plus, x, y, z⟩ => x + y = z
  | ⟨.times, x, y, z⟩ => x * y = z

def lines (sign : Sign) (listSize : ℕ) (a b c : ℕ → BitVec 32) : List Line :=
  (List.range listSize).map fun i => ⟨sign, (a i).toInt, (b i).toInt, (c i).toInt⟩

/-- `A[i] = rand() % 10; B[i] = rand() % 10;` -/
def randomA (rand : ℕ → ℕ) (i : ℕ) : BitVec 32 := BitVec.ofNat 32 (rand (2 * i) % 10)

def randomB (rand : ℕ → ℕ) (i : ℕ) : BitVec 32 := BitVec.ofNat 32 (rand (2 * i + 1) % 10)

theorem toInt_mul_of_lt {x y : ℕ} (hx : x < 2 ^ 31) (hy : y < 2 ^ 31) (hxy : x * y < 2 ^ 31) :
    (BitVec.ofNat 32 x * BitVec.ofNat 32 y).toInt =
      (BitVec.ofNat 32 x).toInt * (BitVec.ofNat 32 y).toInt := by
  rw [← BitVec.ofNat_mul, toInt_of_lt hx, toInt_of_lt hy, toInt_of_lt hxy]
  exact Nat.cast_mul x y

/-- The launch ends.  Every line of `mm_opencl.cpp` is true, whatever the order of the loads and
stores, when the list size is a multiple of the local size; when it is not, the lines show what the
buffer held before. -/
theorem mm_opencl_lines (rand : ℕ → ℕ) (listSize : ℕ) (c : ℕ → BitVec 32)
    (rest : ℕ → Registers) :
    (¬ ∃ run : ℕ → Machine ℕ (Buffer × ℕ) (BitVec 32) Registers ×
          Team (ℕ × Instruction (Buffer × ℕ) (BitVec 32) Registers) fun _ _ => True,
        run 0 = (written (randomA rand) (randomB rand) c rest,
          enqueue (ndRange listSize localItemSize) vectorAdd) ∧
        ∀ k, Team.Moves exec (run k) (run (k + 1))) ∧
      ∀ e, Final (Team.Moves exec) e →
        Reached (ndRange listSize localItemSize) vectorAdd
          (written (randomA rand) (randomB rand) c rest) e →
        (localItemSize ∣ listSize → ∀ l ∈ lines .times listSize (randomA rand) (randomB rand)
          (fun i => e.1.memory (.cMemObj, i)), l.Holds) ∧
        (¬ localItemSize ∣ listSize → ∀ i, e.1.memory (.cMemObj, i) = c i) := by
  refine ⟨WorkItems.no_infinite_run _, fun e he hreach => ⟨fun hsize l hl => ?_, fun hsize i => ?_⟩⟩
  · obtain ⟨i, hi, rfl⟩ := List.mem_map.mp hl
    have hA : rand (2 * i) % 10 < 10 := Nat.mod_lt _ (by omega)
    have hB : rand (2 * i + 1) % 10 < 10 := Nat.mod_lt _ (by omega)
    have hAB : rand (2 * i) % 10 * (rand (2 * i + 1) % 10) ≤ 10 * 10 :=
      Nat.mul_le_mul hA.le hB.le
    show _ = (e.1.memory (.cMemObj, i)).toInt
    rw [final_memory (ndRange_nodup _ _) he hreach ((mem_ndRange hsize).mpr (List.mem_range.mp hi))]
    exact (toInt_mul_of_lt (by omega) (by omega) (by omega)).symm
  · rw [ndRange_refused hsize] at hreach
    exact refused_memory he hreach i

/-- `A[i] = i; B[i] = LIST_SIZE - i;` -/
def countUp (i : ℕ) : BitVec 32 := BitVec.ofNat 32 i

def countDown (listSize i : ℕ) : BitVec 32 := BitVec.ofNat 32 (listSize - i)

/-- A sum is a product of the same numbers only for zeros and for two twos. -/
theorem add_eq_mul_iff {x y : ℕ} (hy : 0 < y) : x + y = x * y ↔ x = 2 ∧ y = 2 := by
  constructor
  · intro h
    obtain ⟨q, rfl⟩ : ∃ q, y = q + 1 := ⟨y - 1, by omega⟩
    obtain _ | p := x
    · omega
    · have hpq : p * q = 1 := by
        have hexpand : (p + 1) * (q + 1) = p * q + p + q + 1 := by ring
        omega
      obtain ⟨rfl, rfl⟩ := mul_eq_one.mp hpq
      exact ⟨rfl, rfl⟩
  · rintro ⟨rfl, rfl⟩
    rfl

theorem countUp_mul_countDown {listSize i : ℕ} (hsize : listSize ≤ 2 ^ 15) (hi : i < listSize) :
    (countUp i).toInt = i ∧ (countDown listSize i).toInt = (listSize - i : ℕ) ∧
      (countUp i * countDown listSize i).toInt = (i * (listSize - i) : ℕ) := by
  have hproduct : i * (listSize - i) ≤ 2 ^ 15 * 2 ^ 15 := Nat.mul_le_mul (by omega) (by omega)
  have hup : (countUp i).toInt = i := toInt_of_lt (by omega)
  have hdown : (countDown listSize i).toInt = (listSize - i : ℕ) := toInt_of_lt (by omega)
  refine ⟨hup, hdown, ?_⟩
  have hmul : (countUp i * countDown listSize i).toInt =
      (countUp i).toInt * (countDown listSize i).toInt :=
    toInt_mul_of_lt (by omega) (by omega) (by omega)
  rw [hmul, hup, hdown, Nat.cast_mul]

/-- The lines of `MatMult_MPI_opencl.cpp` have the wrong sign: the products are right, and no line
is true. -/
theorem matMult_opencl_lines {listSize : ℕ} (hsize : listSize ≤ 2 ^ 15)
    (hlocal : localItemSize ∣ listSize) (c : ℕ → BitVec 32) (rest : ℕ → Registers) :
    ∀ e, Final (Team.Moves exec) e →
      Reached (ndRange listSize localItemSize) vectorAdd
        (written countUp (countDown listSize) c rest) e →
      (∀ i < listSize, (e.1.memory (.cMemObj, i)).toInt = (i * (listSize - i) : ℕ)) ∧
        ∀ l ∈ lines .plus listSize countUp (countDown listSize)
          (fun i => e.1.memory (.cMemObj, i)), ¬ l.Holds := by
  intro e he hreach
  have hproduct : ∀ i < listSize,
      (e.1.memory (.cMemObj, i)).toInt = (i * (listSize - i) : ℕ) := by
    intro i hi
    rw [final_memory (ndRange_nodup _ _) he hreach ((mem_ndRange hlocal).mpr hi)]
    exact (countUp_mul_countDown hsize hi).2.2
  refine ⟨hproduct, fun l hl h => ?_⟩
  obtain ⟨i, hi, rfl⟩ := List.mem_map.mp hl
  have hi := List.mem_range.mp hi
  have hdown : 0 < listSize - i := by omega
  obtain ⟨hA, hB, -⟩ := countUp_mul_countDown hsize hi
  have hsum : i + (listSize - i) = i * (listSize - i) := by
    rw [Line.Holds, hA, hB, hproduct i hi] at h
    exact_mod_cast h
  -- the vectors would have 4 elements
  obtain ⟨rfl, htwo⟩ := (add_eq_mul_iff hdown).mp hsum
  obtain ⟨q, rfl⟩ := hlocal
  simp only [localItemSize] at htwo
  omega

theorem matMult_opencl_lines_1024 : ∃ e, Final (Team.Moves exec) e ∧
    Reached (ndRange 1024 localItemSize) vectorAdd (written countUp (countDown 1024) (fun _ => 0)
      fun _ => (0, 0)) e ∧
    ∀ l ∈ lines .plus 1024 countUp (countDown 1024) (fun i => e.1.memory (.cMemObj, i)),
      ¬ l.Holds := by
  obtain ⟨e, hreach, he, -⟩ := exists_final (ndRange 1024 localItemSize) vectorAdd
    (written countUp (countDown 1024) (fun _ => 0) fun _ => (0, 0))
  exact ⟨e, he, hreach, (matMult_opencl_lines (by omega) (by decide) _ _ e he hreach).2⟩

end VectorAdd

end ParallelPrograms.VectorKernels
