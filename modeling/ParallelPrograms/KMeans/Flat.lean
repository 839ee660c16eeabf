import ParallelPrograms.KMeans.Barriers
import ParallelPrograms.KMeans.OpenMP

namespace ParallelPrograms.KMeans.OpenMP.Flat

variable {F : Type}

def load (memory : ℤ → F) (x : ℤ) : Point F := ⟨memory x, memory (x + 1), memory (x + 2)⟩

def store (memory : ℤ → F) (x : ℤ) (p : Point F) : ℤ → F :=
  Function.update (Function.update (Function.update memory x p.x) (x + 1) p.y) (x + 2) p.z

def triple (x : ℤ) : List ℤ := [x, x + 1, x + 2]

/-- `(row * NumCluster + j) * 3`, where `row` is `iteration_count` or one more or less. -/
def index (numCluster : ℕ) (row : ℤ) (j : ℕ) : ℤ := (row * numCluster + j) * 3

/-- What a thread finds in one iteration: the shared array when it looks at point `i` and in
front of its critical section, and what `current_cluster_id` holds. -/
structure Found (F : Type) where
  atPoint : ℕ → ℤ → F
  atCritical : ℤ → F
  currentClusterId : ℕ → ℕ

variable [Field F]

def critical (numCluster iterationCount : ℕ) (l : Local F) (memory : ℤ → F) :
    (ℤ → F) × List ℤ :=
  (List.range numCluster).foldl (fun v i =>
    if l.clusterCount i = 0 then v
    else (store v.1 (index numCluster (iterationCount + 1) i)
      ((l.currentCentroid i).divide (l.clusterCount i)),
        v.2 ++ triple (index numCluster (iterationCount + 1) i))) (memory, [])

def deltaReads (numCluster iterationCount : ℕ) : List ℤ :=
  (List.range numCluster).flatMap fun i =>
    triple (index numCluster iterationCount i) ++ triple (index numCluster (iterationCount - 1) i)

def copyReads (numCluster iteration : ℕ) : List ℤ :=
  (List.range ((iteration + 1) * numCluster * 3)).map fun i : ℕ => (i : ℤ)

/-- The elements lie in the `MAX_ITERATIONS * NumCluster * 3` floats of the array. -/
def InBounds (numCluster : ℕ) (elements : List ℤ) : Prop :=
  ∀ x ∈ elements, 0 ≤ x ∧ x < Barriers.maxIterations * numCluster * 3

variable [CMath F] [LinearOrder F] (a : Input F)

def assign (found : Found F) (iterationCount threadId : ℕ) : Local F × List ℤ :=
  (a.block threadId).foldl (fun v i =>
    (addPoint (a.start threadId) (a.dataPoints i) v.1 i
      (nearestId a.numCluster
        (fun j => load (found.atPoint i) (index a.numCluster iterationCount j))
        (a.dataPoints i) (v.1.currentClusterId (i - a.start threadId))),
      v.2 ++ (List.range a.numCluster).flatMap fun j =>
        triple (index a.numCluster iterationCount j)))
    (⟨found.currentClusterId, fun _ => 0, fun _ => 0⟩, [])

/-- The elements a thread reads and writes between the test and the first barrier. -/
def accesses (found : Found F) (iterationCount threadId : ℕ) : List ℤ :=
  let v := assign a found iterationCount threadId
  v.2 ++ (critical a.numCluster iterationCount v.1 found.atCritical).2 ++
    deltaReads a.numCluster iterationCount

section Points

def points (memory : ℤ → F) (x : ℕ) : Point F := load memory (x * 3)

omit [Field F] [CMath F] [LinearOrder F] in
theorem load_index (memory : ℤ → F) (numCluster t j : ℕ) :
    load memory (index numCluster t j) = points memory (t * numCluster + j) := by
  rw [points, index]
  push_cast
  rfl

omit [Field F] [CMath F] [LinearOrder F] in
theorem points_store (memory : ℤ → F) (x : ℕ) (p : Point F) :
    points (store memory (x * 3) p) = Function.update (points memory) x p := by
  funext y
  simp only [points, load, store, Function.update_apply]
  by_cases hy : y = x
  · subst hy
    simp
  · rw [if_neg hy]
    congr 1
    all_goals
      rw [if_neg (by omega), if_neg (by omega), if_neg (by omega)]

omit [CMath F] [LinearOrder F] in
/-- The critical section stores the means that it stores in the array of points. -/
theorem points_critical (numCluster t : ℕ) (l : Local F) (memory : ℤ → F) :
    points (critical numCluster t l memory).1 =
      OpenMP.critical numCluster t l (points memory) := by
  refine (List.foldl_hom (fun v : (ℤ → F) × List ℤ => points v.1) fun v i => ?_).symm
  split_ifs
  · rfl
  · have hindex : index numCluster (t + 1) i = ((t + 1) * numCluster + i : ℕ) * 3 := by
      rw [index]
      push_cast
      rfl
    rw [hindex, points_store]

/-- A thread that finds the same array all the time does what it does with the points. -/
theorem assign_fst (memory : ℤ → F) (s : State F) (hs : s.centroidsGlobal = points memory)
    (t threadId : ℕ) :
    (assign a ⟨fun _ => memory, memory, s.currentClusterId threadId⟩ t threadId).1 =
      a.assign s t threadId := by
  have hrow : (fun j => load memory (index a.numCluster t j)) = a.row s.centroidsGlobal t := by
    funext j
    rw [load_index, hs]
    rfl
  simp only [assign, hrow]
  exact (List.foldl_hom Prod.fst fun _ _ => rfl).symm

end Points

section Bounds

variable {numCluster : ℕ}

omit [Field F] [CMath F] [LinearOrder F] in
theorem foldl_append_snd {σ : Type} {pass : σ × List ℤ → ℕ → σ × List ℤ} {g : ℕ → List ℤ}
    (hpass : ∀ v i, (pass v i).2 = v.2 ++ g i) (is : List ℕ) (v : σ × List ℤ) :
    (is.foldl pass v).2 = v.2 ++ is.flatMap g := by
  induction is generalizing v with
  | nil => simp
  | cons i is ih => rw [List.foldl_cons, ih, hpass, List.flatMap_cons, List.append_assoc]

theorem assign_snd (found : Found F) (t threadId : ℕ) :
    (assign a found t threadId).2 = (a.block threadId).flatMap fun _ =>
      (List.range a.numCluster).flatMap fun j => triple (index a.numCluster t j) :=
  foldl_append_snd (fun _ _ => rfl) _ _

omit [CMath F] [LinearOrder F] in
theorem critical_snd (t : ℕ) (l : Local F) (memory : ℤ → F) :
    (critical numCluster t l memory).2 = (List.range numCluster).flatMap fun i =>
      if l.clusterCount i = 0 then [] else triple (index numCluster (t + 1) i) := by
  refine foldl_append_snd (fun v i => ?_) _ _
  split_ifs
  · exact (List.append_nil _).symm
  · rfl

theorem inBounds_append {l m : List ℤ} :
    InBounds numCluster (l ++ m) ↔ InBounds numCluster l ∧ InBounds numCluster m :=
  List.forall_mem_append

theorem inBounds_flatMap {is : List ℕ} {g : ℕ → List ℤ} :
    InBounds numCluster (is.flatMap g) ↔ ∀ i ∈ is, InBounds numCluster (g i) := by
  simp only [InBounds, List.mem_flatMap]
  constructor
  · exact fun h i hi x hx => h x ⟨i, hi, hx⟩
  · rintro h x ⟨i, hi, hx⟩
    exact h i hi x hx

/-- A centroid lies in the array exactly when its row is one of the 200. -/
theorem inBounds_triple {row : ℤ} {j : ℕ} (hj : j < numCluster) :
    InBounds numCluster (triple (index numCluster row j)) ↔ 0 ≤ row ∧ row < 200 := by
  have hmax : Barriers.maxIterations = 200 := rfl
  have hnonneg : (0 : ℤ) ≤ numCluster := Int.natCast_nonneg numCluster
  simp only [InBounds, triple, index, hmax, List.forall_mem_cons, List.not_mem_nil, false_imp_iff,
    implies_true, and_true]
  constructor
  · rintro ⟨⟨hlow, hhigh⟩, -⟩
    constructor
    · by_contra hneg
      have hrow := Int.mul_le_mul_of_nonneg_right (by omega : row ≤ -1) hnonneg
      omega
    · by_contra hmore
      have hrow := Int.mul_le_mul_of_nonneg_right (by omega : 200 ≤ row) hnonneg
      omega
  · rintro ⟨hlow, hhigh⟩
    have hrow := Int.mul_le_mul_of_nonneg_right hlow hnonneg
    have hrow' := Int.mul_le_mul_of_nonneg_right (by omega : row ≤ 199) hnonneg
    omega

/-- The distances read the row of the iteration. -/
theorem inBounds_assign (found : Found F) {t : ℕ} (ht : t < 200) (threadId : ℕ) :
    InBounds a.numCluster (assign a found t threadId).2 := by
  rw [assign_snd, inBounds_flatMap]
  intro i _
  rw [inBounds_flatMap]
  intro j hj
  rw [inBounds_triple (List.mem_range.mp hj)]
  omega

/-- The delta reads the row in front of it, which the first iteration does not have. -/
theorem inBounds_deltaReads (hpos : 1 ≤ numCluster) {t : ℕ} (ht : t < 200) :
    InBounds numCluster (deltaReads numCluster t) ↔ 1 ≤ t := by
  rw [deltaReads, inBounds_flatMap]
  constructor
  · intro h
    have hfirst := (inBounds_append.mp (h 0 (List.mem_range.mpr hpos))).2
    rw [inBounds_triple hpos] at hfirst
    omega
  · intro h i hi
    have hi := List.mem_range.mp hi
    rw [inBounds_append, inBounds_triple hi, inBounds_triple hi]
    omega

omit [CMath F] [LinearOrder F] in
/-- The update writes the next row, unless no cluster has a point. -/
theorem inBounds_critical (l : Local F) (memory : ℤ → F) {t : ℕ} :
    InBounds numCluster (critical numCluster t l memory).2 ↔
      t + 1 < 200 ∨ ∀ i < numCluster, l.clusterCount i = 0 := by
  rw [critical_snd, inBounds_flatMap]
  constructor
  · intro h
    by_contra hnot
    push Not at hnot
    obtain ⟨hlast, i, hi, hcount⟩ := hnot
    have hrow := h i (List.mem_range.mpr hi)
    rw [if_neg hcount, inBounds_triple hi] at hrow
    omega
  · intro h i hi
    have hi := List.mem_range.mp hi
    rcases h with h | h
    · split_ifs
      · exact fun x hx => absurd hx List.not_mem_nil
      · rw [inBounds_triple hi]
        omega
    · rw [if_pos (h i hi)]
      exact fun x hx => absurd hx List.not_mem_nil

/-- A thread that has points counts the last one in some cluster. -/
theorem clusterCount_eq_zero_iff (hpos : 1 ≤ a.numCluster) (found : Found F) (t threadId : ℕ) :
    (∀ g < a.numCluster, (assign a found t threadId).1.clusterCount g = 0) ↔
      a.block threadId = [] := by
  rw [assign]
  generalize a.block threadId = block
  induction block using List.reverseRecOn with
  | nil => exact ⟨fun _ => rfl, fun _ _ _ => rfl⟩
  | append_singleton block i _ =>
    rw [List.foldl_append, List.foldl_cons, List.foldl_nil]
    generalize List.foldl _ _ block = v
    refine iff_of_false (fun hzero => ?_) (by simp)
    let row : ℕ → Point F := fun j => load (found.atPoint i) (index a.numCluster t j)
    let id := v.1.currentClusterId (i - a.start threadId)
    have hlt : nearestId a.numCluster row (a.dataPoints i) id < a.numCluster := by
      rw [nearestId_eq hpos]
      exact label_lt hpos _ _
    have hcount := hzero _ hlt
    simp [addPoint, row, id] at hcount

/-- All accesses of one iteration. -/
theorem inBounds_accesses (hpos : 1 ≤ a.numCluster) (found : Found F) {t : ℕ} (ht : t < 200)
    (threadId : ℕ) : InBounds a.numCluster (accesses a found t threadId) ↔
      1 ≤ t ∧ (t + 1 < 200 ∨ a.block threadId = []) := by
  rw [accesses, inBounds_append, inBounds_append, inBounds_deltaReads hpos ht, inBounds_critical,
    clusterCount_eq_zero_iff a hpos]
  constructor
  · rintro ⟨⟨-, hupdate⟩, hdelta⟩
    exact ⟨hdelta, hupdate⟩
  · rintro ⟨hdelta, hupdate⟩
    exact ⟨⟨inBounds_assign a found ht threadId, hupdate⟩, hdelta⟩

/-- The copy reads one row more than there were iterations. -/
theorem inBounds_copyReads (hpos : 1 ≤ numCluster) (iteration : ℕ) :
    InBounds numCluster (copyReads numCluster iteration) ↔ iteration < 200 := by
  have hmax : Barriers.maxIterations = 200 := rfl
  simp only [InBounds, copyReads, hmax, List.mem_map, List.mem_range]
  constructor
  · intro h
    by_contra hmore
    have hrows := Nat.mul_le_mul_right numCluster (by omega : 201 ≤ iteration + 1)
    obtain ⟨-, hlast⟩ := h (600 * numCluster : ℕ) ⟨600 * numCluster, by omega, rfl⟩
    omega
  · rintro h x ⟨i, hi, rfl⟩
    have hrows := Nat.mul_le_mul_right numCluster (by omega : iteration + 1 ≤ 200)
    omega

end Bounds

end ParallelPrograms.KMeans.OpenMP.Flat
