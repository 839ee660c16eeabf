import ParallelPrograms.VectorAdd

namespace ParallelPrograms.VectorAdd.Pthread

structure StructVector where
  vector : Buffer
  size : BitVec 64

/-- `sizeof(vector)`, where `int vector[]` as a parameter is a pointer. -/
def sizeofPointer : ℕ := 8

def sizeofInt : ℕ := 4

/-- The vector and the number of values drawn after a call that starts at value `drawn`. -/
def randomVector (rand : ℕ → ℕ) (vector : Buffer) (drawn : ℕ) : Option (Buffer × ℕ) :=
  (List.range (sizeofPointer / sizeofInt)).foldlM (fun v i => do
    let vector ← v.1.write i (BitVec.ofNat 32 (rand v.2 % 100))
    return (vector, v.2 + 1)) (vector, drawn)

def allocateMemory (size : BitVec 64) (stale : ℕ → BitVec 32) : Buffer := malloc size stale

def allocateMemoryPthread (vect : StructVector) (stale : ℕ → BitVec 32) : StructVector :=
  { vect with vector := allocateMemory vect.size stale }

def randomVectorPthread (rand : ℕ → ℕ) (vect : StructVector) (drawn : ℕ) :
    Option (StructVector × ℕ) := do
  let v ← randomVector rand vect.vector drawn
  return ({ vect with vector := v.1 }, v.2)

/-- The two threads that fill, of which `v1First` says which one runs first: both call `rand()`, and
they are taken one after the other. -/
def fillBoth (rand : ℕ → ℕ) (v1First : Bool) (v1 v2 : StructVector) :
    Option (StructVector × StructVector × ℕ) :=
  if v1First then do
    let v ← randomVectorPthread rand v1 0
    let w ← randomVectorPthread rand v2 v.2
    return (v.1, w.1, w.2)
  else do
    let w ← randomVectorPthread rand v2 0
    let v ← randomVectorPthread rand v1 w.2
    return (v.1, w.1, v.2)

structure Heap where
  v1 : ℕ → BitVec 32
  v2 : ℕ → BitVec 32
  v3 : ℕ → BitVec 32

/-- `struct_v3` after the addition and the number of values drawn; none for an access outside a
buffer or an overflow of the loop counter. -/
def main (size : BitVec 64) (rand : ℕ → ℕ) (v1First : Bool) (heap : Heap) :
    Option (StructVector × ℕ) := do
  -- a pointer that is not set yet points to no element
  let unset : StructVector := ⟨⟨0, fun _ => 0⟩, size⟩
  let v1 := allocateMemoryPthread unset heap.v1
  let v2 := allocateMemoryPthread unset heap.v2
  let v3 := allocateMemoryPthread unset heap.v3
  let filled ← fillBoth rand v1First v1 v2
  let sum ← add size.toNat filled.1.vector filled.2.1.vector v3.vector
  return ({ v3 with vector := sum }, filled.2.2)

/-- Whatever the blocks held, the run is defined, leaves the same sums, and each of them is
made of two of the values drawn. -/
def HeapIndependent (size : BitVec 64) (rand : ℕ → ℕ) (v1First : Bool) : Prop :=
  ∀ heap heap', ∃ v v' drawn, main size rand v1First heap = some (v, drawn) ∧
    main size rand v1First heap' = some (v', drawn) ∧ ∀ i < size.toNat,
      v.vector.contents i = v'.vector.contents i ∧ ∃ a < drawn, ∃ b < drawn,
        v.vector.contents i = BitVec.ofNat 32 (rand a % 100 + rand b % 100)

theorem randomVector_eq (rand : ℕ → ℕ) {vector : Buffer} (drawn : ℕ) (h : 2 ≤ vector.capacity) :
    randomVector rand vector drawn = some (vector.overwrite 2 fun i =>
      BitVec.ofNat 32 (rand (drawn + i) % 100), drawn + 2) := by
  have hrange : List.range (sizeofPointer / sizeofInt) = [0, 1] := rfl
  have h0 : 0 < vector.capacity := by omega
  have h1 : 1 < vector.capacity := h
  simp only [randomVector, hrange, List.foldlM_cons, List.foldlM_nil, Buffer.write, h0, h1,
    if_true, Option.bind_eq_bind, Option.bind_some, Option.pure_def, Buffer.overwrite]
  congr 3
  funext i
  rcases i with _ | _ | i
  · simp
  · simp
  · simp

theorem randomVector_eq_none (rand : ℕ → ℕ) {vector : Buffer} (drawn : ℕ)
    (h : vector.capacity = 0) : randomVector rand vector drawn = none := by
  have hrange : List.range (sizeofPointer / sizeofInt) = [0, 1] := rfl
  simp [randomVector, hrange, Buffer.write, h]

theorem malloc_capacity {size : BitVec 64} (h : size.toNat < 2 ^ 31) (stale : ℕ → BitVec 32) :
    (malloc size stale).capacity = 2 * size.toNat := by
  have hmul : (size * 8).toNat = size.toNat * 8 % 2 ^ 64 := BitVec.toNat_mul size 8
  simp only [malloc, hmul]
  omega

def start1 (v1First : Bool) : ℕ := if v1First then 0 else 2

def start2 (v1First : Bool) : ℕ := if v1First then 2 else 0

def filled (rand : ℕ → ℕ) (start : ℕ) (stale : ℕ → BitVec 32) (i : ℕ) : BitVec 32 :=
  if i < 2 then BitVec.ofNat 32 (rand (start + i) % 100) else stale i

theorem fillBoth_eq (rand : ℕ → ℕ) (v1First : Bool) (v1 v2 : StructVector)
    (h1 : 2 ≤ v1.vector.capacity) (h2 : 2 ≤ v2.vector.capacity) :
    fillBoth rand v1First v1 v2 =
      some (⟨⟨v1.vector.capacity, filled rand (start1 v1First) v1.vector.contents⟩, v1.size⟩,
        ⟨⟨v2.vector.capacity, filled rand (start2 v1First) v2.vector.contents⟩, v2.size⟩, 4) := by
  cases v1First
  all_goals
    simp only [fillBoth, randomVectorPthread, randomVector_eq rand _ h1, randomVector_eq rand _ h2]
    rfl

variable {size : BitVec 64} {rand : ℕ → ℕ} {v1First : Bool} {heap : Heap}

/-- A run whose vectors have room for the two elements that are filled. -/
theorem main_eq (hpos : 1 ≤ size.toNat) (hlt : size.toNat < 2 ^ 31) (rand : ℕ → ℕ)
    (v1First : Bool) (heap : Heap) :
    ∃ v, main size rand v1First heap = some (v, 4) ∧ ∀ i < size.toNat, v.vector.contents i =
      filled rand (start1 v1First) heap.v1 i + filled rand (start2 v1First) heap.v2 i := by
  have hcapacity := malloc_capacity hlt
  have hroom : ∀ stale, 2 ≤ (malloc size stale).capacity := by
    intro stale
    rw [hcapacity]
    omega
  have hfits : ∀ stale, size.toNat ≤ (malloc size stale).capacity := by
    intro stale
    rw [hcapacity]
    omega
  let block1 : Buffer := ⟨(malloc size heap.v1).capacity, filled rand (start1 v1First) heap.v1⟩
  let block2 : Buffer := ⟨(malloc size heap.v2).capacity, filled rand (start2 v1First) heap.v2⟩
  have hadd : add size.toNat block1 block2 (malloc size heap.v3) = _ :=
    add_eq hlt (hfits heap.v1) (hfits heap.v2) (hfits heap.v3)
  refine ⟨⟨(malloc size heap.v3).overwrite size.toNat fun i =>
    block1.contents i + block2.contents i, size⟩, ?_, fun i hi => if_pos hi⟩
  have hfill := fillBoth_eq rand v1First ⟨malloc size heap.v1, size⟩ ⟨malloc size heap.v2, size⟩
    (hroom heap.v1) (hroom heap.v2)
  simp only [main, allocateMemoryPthread, allocateMemory, hfill, Option.bind_eq_bind,
    Option.bind_some]
  exact congrArg (Option.bind · _) hadd

/-- A run that stays in its buffers and comes to the end of the loop. -/
theorem size_of_main {r : StructVector × ℕ} (h : main size rand v1First heap = some r) :
    1 ≤ size.toNat ∧ size.toNat < 2 ^ 31 := by
  simp only [main, Option.bind_eq_bind, Option.bind_eq_some_iff] at h
  obtain ⟨v, hfill, sum, hadd, -⟩ := h
  constructor
  · by_contra hzero
    have hsize : size.toNat = 0 := by omega
    have hnone : ∀ stale drawn, randomVector rand (malloc size stale) drawn = none := by
      intro stale drawn
      apply randomVector_eq_none
      rw [malloc_capacity (by omega), hsize]
    cases v1First
    all_goals simp [fillBoth, randomVectorPthread, allocateMemoryPthread, allocateMemory, hnone]
      at hfill
  · rw [add] at hadd
    split_ifs at hadd with hlt
    exact hlt

theorem HeapIndependent.size_le (h : HeapIndependent size rand v1First) :
    1 ≤ size.toNat ∧ size.toNat ≤ 2 := by
  let zero : Heap := ⟨fun _ => 0, fun _ => 0, fun _ => 0⟩
  let one : Heap := ⟨fun _ => 1, fun _ => 0, fun _ => 0⟩
  obtain ⟨v, v', drawn, hv, hv', hsame⟩ := h zero one
  obtain ⟨hpos, hlt⟩ := size_of_main hv
  refine ⟨hpos, ?_⟩
  by_contra hmore
  -- the third element of `v1` is what the block held
  obtain ⟨w, hw, hsum⟩ := main_eq hpos hlt rand v1First zero
  obtain ⟨w', hw', hsum'⟩ := main_eq hpos hlt rand v1First one
  obtain rfl : v = w := (Prod.mk.inj (Option.some.inj (hv.symm.trans hw))).1
  obtain rfl : v' = w' := (Prod.mk.inj (Option.some.inj (hv'.symm.trans hw'))).1
  have hthird := (hsame 2 (by omega)).1
  rw [hsum 2 (by omega), hsum' 2 (by omega)] at hthird
  exact absurd hthird (by simp [filled, zero, one])

theorem heapIndependent_of_le (hpos : 1 ≤ size.toNat) (hle : size.toNat ≤ 2) :
    HeapIndependent size rand v1First := by
  intro heap heap'
  have hlt : size.toNat < 2 ^ 31 := by omega
  obtain ⟨v, hv, hsum⟩ := main_eq hpos hlt rand v1First heap
  obtain ⟨v', hv', hsum'⟩ := main_eq hpos hlt rand v1First heap'
  have hfilled : ∀ i < size.toNat, ∀ start stale,
      filled rand start stale i = BitVec.ofNat 32 (rand (start + i) % 100) :=
    fun i hi start stale => if_pos (by omega)
  have hstart : start1 v1First ≤ 2 ∧ start2 v1First ≤ 2 := by cases v1First <;> decide
  refine ⟨v, v', 4, hv, hv', fun i hi => ⟨?_, start1 v1First + i, by omega, start2 v1First + i,
    by omega, ?_⟩⟩
  · rw [hsum i hi, hsum' i hi, hfilled i hi, hfilled i hi, hfilled i hi, hfilled i hi]
  · rw [hsum i hi, hfilled i hi, hfilled i hi, BitVec.ofNat_add]

/-- The thread that fills sees a pointer and fills two elements: the sums do not depend on what
the heap held exactly when there are no more than these two, and they are there. -/
theorem heapIndependent_iff (size : BitVec 64) (rand : ℕ → ℕ) (v1First : Bool) :
    HeapIndependent size rand v1First ↔ size = 1 ∨ size = 2 := by
  constructor
  · intro h
    obtain ⟨hpos, hle⟩ := h.size_le
    rw [← BitVec.toNat_inj, ← BitVec.toNat_inj]
    exact (by omega : size.toNat = 1 ∨ size.toNat = 2)
  · rintro (rfl | rfl)
    · exact heapIndependent_of_le (by decide) (by decide)
    · exact heapIndependent_of_le (by decide) (by decide)

/-- With the size of `VectorAdd_final.cpp` the sums depend on what the heap held. -/
theorem not_heapIndependent : ¬ ∀ size rand v1First, HeapIndependent size rand v1First := by
  intro h
  have hsize := (h 100000 (fun _ => 0) true).size_le.2
  revert hsize
  decide

end ParallelPrograms.VectorAdd.Pthread
