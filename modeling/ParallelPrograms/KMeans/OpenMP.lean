import ParallelPrograms.FirstMin
import ParallelPrograms.Grid
import ParallelPrograms.KMeans.Arithmetic

namespace ParallelPrograms.KMeans.OpenMP

structure Point (F : Type) where
  x : F
  y : F
  z : F

variable {F : Type} [Field F]

instance : Zero (Point F) := ⟨⟨0, 0, 0⟩⟩

instance : Add (Point F) := ⟨fun p q => ⟨p.x + q.x, p.y + q.y, p.z + q.z⟩⟩

def Point.divide (p : Point F) (count : ℕ) : Point F := ⟨p.x / count, p.y / count, p.z / count⟩

/-- The parameters of `KMeansParallel` that it only reads.  Three consecutive floats are one
`Point`, so that `centroids_global` has the centroid of cluster `i` in iteration `t` at
`t * NumCluster + i`; memory and index arithmetic have no limit. -/
structure Input (F : Type) where
  numPoints : ℕ
  numCluster : ℕ
  numThreads : ℕ
  dataPoints : ℕ → Point F

namespace Input

variable (a : Input F)

def lengthPerThread : ℕ := a.numPoints / a.numThreads

def start (threadId : ℕ) : ℕ := threadId * a.lengthPerThread

def stop (threadId : ℕ) : ℕ :=
  let stop := a.start threadId + a.lengthPerThread
  if a.numPoints < stop then a.numPoints else stop

/-- `for (int i = start; i < end; i++)` -/
def block (threadId : ℕ) : List ℕ :=
  List.range' (a.start threadId) (a.stop threadId - a.start threadId)

end Input

structure Local (F : Type) where
  currentClusterId : ℕ → ℕ
  clusterCount : ℕ → ℕ
  currentCentroid : ℕ → Point F

def addPoint (start : ℕ) (p : Point F) (l : Local F) (i g : ℕ) : Local F where
  currentClusterId := Function.update l.currentClusterId (i - start) g
  clusterCount := Function.update l.clusterCount g (l.clusterCount g + 1)
  currentCentroid := Function.update l.currentCentroid g (l.currentCentroid g + p)

def critical (numCluster iterationCount : ℕ) (l : Local F) (centroids : ℕ → Point F) :
    ℕ → Point F :=
  (List.range numCluster).foldl (fun centroids i =>
    if l.clusterCount i = 0 then centroids
    else Function.update centroids ((iterationCount + 1) * numCluster + i)
      ((l.currentCentroid i).divide (l.clusterCount i))) centroids

structure State (F : Type) where
  centroidsGlobal : ℕ → Point F
  currentClusterId : ℕ → ℕ → ℕ

section Threads

variable [CMath F]

def euclidean (pointA pointB : Point F) : F :=
  CMath.sqrt (CMath.pow2 (pointB.x - pointA.x) + CMath.pow2 (pointB.y - pointA.y) +
    CMath.pow2 (pointB.z - pointA.z))

variable [LinearOrder F]

/-- The loop over `j`, which starts from the largest number there is and finds the id in
place of the old one. -/
def nearestId (numCluster : ℕ) (row : ℕ → Point F) (p : Point F) (id : ℕ) : ℕ :=
  ((List.range numCluster).foldl (smaller fun j => euclidean p (row j)) (⊤, id)).2

namespace Input

variable (a : Input F)

def row (centroids : ℕ → Point F) (iterationCount : ℕ) (j : ℕ) : Point F :=
  centroids (iterationCount * a.numCluster + j)

def assign (s : State F) (iterationCount threadId : ℕ) : Local F :=
  (a.block threadId).foldl (fun l i =>
    addPoint (a.start threadId) (a.dataPoints i) l i
      (nearestId a.numCluster (a.row s.centroidsGlobal iterationCount) (a.dataPoints i)
        (l.currentClusterId (i - a.start threadId))))
    ⟨s.currentClusterId threadId, fun _ => 0, fun _ => 0⟩

/-- The threads between two barriers; `order` is the one in which they enter the critical
section. -/
def iteration (order : List ℕ) (iterationCount : ℕ) (s : State F) : State F where
  centroidsGlobal := order.foldl (fun centroids threadId =>
    critical a.numCluster iterationCount (a.assign s iterationCount threadId) centroids)
    s.centroidsGlobal
  currentClusterId threadId := (a.assign s iterationCount threadId).currentClusterId

def iterations (orders : ℕ → List ℕ) (s : State F) : ℕ → State F
  | 0 => s
  | m + 1 => a.iteration (orders m) m (iterations orders s m)

end Input

structure Result (F : Type) where
  clusterPoints : ℕ → Point F × F
  centroids : List (Point F)

/-- What the blocks of `malloc` hold: `ClusterPoints`, and `current_cluster_id` of every
thread. -/
structure Heap (F : Type) where
  clusterPoints : ℕ → Point F × F
  currentClusterId : ℕ → ℕ → ℕ

namespace Input

variable (a : Input F)

/-- The first data points are the centroids of row 0, and `calloc` clears the others. -/
def seeded (heap : Heap F) : State F where
  centroidsGlobal i := if i < a.numCluster then a.dataPoints i else 0
  currentClusterId := heap.currentClusterId

def updateClusterPoints (currentClusterId : ℕ → ℕ) (threadId : ℕ)
    (clusterPoints : ℕ → Point F × F) : ℕ → Point F × F :=
  (a.block threadId).foldl (fun clusterPoints i =>
    Function.update clusterPoints i
      (a.dataPoints i, (currentClusterId (i - a.start threadId) : F))) clusterPoints

/-- `KMeansParallel` when the threads leave the loop after `m` iterations; `orders` are those
of the critical sections and `finish` is that of the last loops. -/
def kMeansParallel (heap : Heap F) (orders : ℕ → List ℕ) (finish : List ℕ) (m : ℕ) : Result F :=
  let s := a.iterations orders (a.seeded heap) m
  { clusterPoints := finish.foldl (fun clusterPoints threadId =>
      a.updateClusterPoints (s.currentClusterId threadId) threadId clusterPoints)
      heap.clusterPoints
    centroids := (List.range ((m + 1) * a.numCluster)).map s.centroidsGlobal }

end Input

def label (numCluster : ℕ) (row : ℕ → Point F) (p : Point F) : ℕ :=
  searchMin (fun j => euclidean p (row j)) numCluster

def cell (numCluster : ℕ) (dataPoints row : ℕ → Point F) (block : List ℕ) (g : ℕ) :
    List (Point F) :=
  (block.filter fun i => label numCluster row (dataPoints i) = g).map dataPoints

def total (points : List (Point F)) : Point F := points.foldl (· + ·) 0

def meanOf (points : List (Point F)) : Point F := (total points).divide points.length

/-- The rows when every centroid is the mean over all points: an empty cluster keeps what
`calloc` has left. -/
def history (numPoints numCluster : ℕ) (dataPoints : ℕ → Point F) : ℕ → ℕ → Point F
  | 0, g => dataPoints g
  | t + 1, g =>
    if cell numCluster dataPoints (history numPoints numCluster dataPoints t)
        (List.range numPoints) g = [] then 0
    else meanOf (cell numCluster dataPoints (history numPoints numCluster dataPoints t)
      (List.range numPoints) g)

theorem label_lt {numCluster : ℕ} (hpos : 0 < numCluster) (row : ℕ → Point F) (p : Point F) :
    label numCluster row p < numCluster :=
  (searchMin_firstMin _ hpos).lt

theorem label_congr {numCluster : ℕ} {row row' : ℕ → Point F}
    (h : ∀ j < numCluster, row j = row' j) (p : Point F) :
    label numCluster row p = label numCluster row' p := by
  rw [label, label, searchMin, searchMin]
  congr 1
  apply List.foldl_ext
  intro v j hj
  rw [smaller, smaller, h j (List.mem_range.mp hj)]

theorem cell_congr {numCluster : ℕ} {row row' : ℕ → Point F}
    (h : ∀ j < numCluster, row j = row' j) (dataPoints : ℕ → Point F) (block : List ℕ) (g : ℕ) :
    cell numCluster dataPoints row block g = cell numCluster dataPoints row' block g := by
  simp only [cell, label_congr h]

theorem nearestId_eq {numCluster : ℕ} (hpos : 0 < numCluster) (row : ℕ → Point F) (p : Point F)
    (id : ℕ) : nearestId numCluster row p id = label numCluster row p :=
  foldl_smaller_snd _ id hpos

omit [CMath F] [LinearOrder F] in
theorem total_append_singleton (points : List (Point F)) (p : Point F) :
    total (points ++ [p]) = total points + p := by
  rw [total, List.foldl_append]
  rfl

variable {a : Input F} {s : State F}

structure Assigned (a : Input F) (row : ℕ → Point F) (start : ℕ) (block : List ℕ)
    (l : Local F) : Prop where
  currentClusterId : ∀ i ∈ block,
    l.currentClusterId (i - start) = label a.numCluster row (a.dataPoints i)
  clusterCount : ∀ g, l.clusterCount g = (cell a.numCluster a.dataPoints row block g).length
  currentCentroid : ∀ g,
    l.currentCentroid g = total (cell a.numCluster a.dataPoints row block g)

theorem Assigned.addPoint {row : ℕ → Point F} {start i : ℕ} {block : List ℕ} {l : Local F}
    (h : Assigned a row start block l) (hstart : ∀ j ∈ block, start ≤ j) (hi : start ≤ i)
    (hnew : i ∉ block) :
    Assigned a row start (block ++ [i])
      (addPoint start (a.dataPoints i) l i (label a.numCluster row (a.dataPoints i))) where
  currentClusterId j hj := by
    rcases List.mem_append.mp hj with hj | hj
    · have hne : j - start ≠ i - start := by
        have hji : j ≠ i := fun hji => hnew (hji ▸ hj)
        have := hstart j hj
        omega
      simp only [OpenMP.addPoint, Function.update_of_ne hne]
      exact h.currentClusterId j hj
    · rw [List.mem_singleton.mp hj]
      exact Function.update_self ..
  clusterCount g := by
    by_cases hg : label a.numCluster row (a.dataPoints i) = g
    · subst hg
      simp [OpenMP.addPoint, cell, h.clusterCount]
    · simp [OpenMP.addPoint, cell, h.clusterCount, hg, Ne.symm hg]
  currentCentroid g := by
    by_cases hg : label a.numCluster row (a.dataPoints i) = g
    · subst hg
      have hlast : cell a.numCluster a.dataPoints row (block ++ [i])
          (label a.numCluster row (a.dataPoints i)) = cell a.numCluster a.dataPoints row block
            (label a.numCluster row (a.dataPoints i)) ++ [a.dataPoints i] := by simp [cell]
      rw [hlast, total_append_singleton, ← h.currentCentroid]
      exact Function.update_self ..
    · have hsame : cell a.numCluster a.dataPoints row (block ++ [i]) g =
          cell a.numCluster a.dataPoints row block g := by simp [cell, hg]
      rw [hsame, ← h.currentCentroid]
      exact Function.update_of_ne (Ne.symm hg) ..

theorem assign_assigned (hpos : 0 < a.numCluster) (s : State F) (iterationCount threadId : ℕ) :
    Assigned a (a.row s.centroidsGlobal iterationCount) (a.start threadId) (a.block threadId)
      (a.assign s iterationCount threadId) := by
  have hloop : ∀ block : List ℕ, block.Nodup → (∀ j ∈ block, a.start threadId ≤ j) →
      Assigned a (a.row s.centroidsGlobal iterationCount) (a.start threadId) block
        (block.foldl (fun l i =>
          addPoint (a.start threadId) (a.dataPoints i) l i
            (nearestId a.numCluster (a.row s.centroidsGlobal iterationCount) (a.dataPoints i)
              (l.currentClusterId (i - a.start threadId))))
          ⟨s.currentClusterId threadId, fun _ => 0, fun _ => 0⟩) := by
    intro block
    induction block using List.reverseRecOn with
    | nil => exact fun _ _ => ⟨by simp, fun _ => rfl, fun _ => rfl⟩
    | append_singleton block i ih =>
      intro hnodup hstart
      obtain ⟨hblock, -, hdisjoint⟩ := List.nodup_append.mp hnodup
      have hi : i ∉ block := fun hi => hdisjoint i hi i List.mem_cons_self rfl
      have hstart' : ∀ j ∈ block, a.start threadId ≤ j :=
        fun j hj => hstart j (List.mem_append_left _ hj)
      rw [List.foldl_append, List.foldl_cons, List.foldl_nil, nearestId_eq hpos]
      exact (ih hblock hstart').addPoint hstart'
        (hstart i (List.mem_append_right _ List.mem_cons_self)) hi
  exact hloop _ List.nodup_range' fun j hj => (List.mem_range'_1.mp hj).1

omit [CMath F] [LinearOrder F] in
/-- A thread stores its means in the next row, those of the clusters it has no points of
excepted. -/
theorem critical_row (numCluster t : ℕ) (l : Local F) (centroids : ℕ → Point F) {g : ℕ}
    (hg : g < numCluster) :
    critical numCluster t l centroids ((t + 1) * numCluster + g) =
      if l.clusterCount g = 0 then centroids ((t + 1) * numCluster + g)
      else (l.currentCentroid g).divide (l.clusterCount g) := by
  let view : (ℕ → Point F) → Point F := fun centroids => centroids ((t + 1) * numCluster + g)
  have hother : ∀ (centroids : ℕ → Point F) (i : ℕ), i ≠ g →
      view (if l.clusterCount i = 0 then centroids
        else Function.update centroids ((t + 1) * numCluster + i)
          ((l.currentCentroid i).divide (l.clusterCount i))) = view centroids := by
    intro centroids i hig
    have hne : (t + 1) * numCluster + g ≠ (t + 1) * numCluster + i := by omega
    split_ifs
    · rfl
    · exact Function.update_of_ne hne ..
  by_cases hzero : l.clusterCount g = 0
  · rw [if_pos hzero]
    apply foldl_frame view
    intro centroids i _
    by_cases hig : i = g
    · rw [hig, if_pos hzero]
    · exact hother centroids i hig
  · rw [if_neg hzero]
    apply foldl_written view centroids (List.mem_range.mpr hg)
    · intro centroids
      rw [if_neg hzero]
      exact Function.update_self ..
    · exact fun centroids i _ hig => hother centroids i hig

omit [CMath F] [LinearOrder F] in
theorem critical_frame (numCluster t : ℕ) (l : Local F) (centroids : ℕ → Point F) {x : ℕ}
    (hx : x < (t + 1) * numCluster ∨ (t + 2) * numCluster ≤ x) :
    critical numCluster t l centroids x = centroids x := by
  apply foldl_frame fun centroids : ℕ → Point F => centroids x
  intro centroids i hi
  have hi := List.mem_range.mp hi
  have hnext : (t + 2) * numCluster = (t + 1) * numCluster + numCluster := by ring
  have hne : x ≠ (t + 1) * numCluster + i := by omega
  split_ifs
  · rfl
  · exact Function.update_of_ne hne ..

omit [CMath F] [LinearOrder F] in
/-- The threads enter one after the other. -/
theorem foldl_critical (numCluster t : ℕ) (locals : ℕ → Local F) (order : List ℕ)
    (centroids : ℕ → Point F) {g : ℕ} (hg : g < numCluster) :
    order.foldl (fun centroids u => critical numCluster t (locals u) centroids) centroids
        ((t + 1) * numCluster + g) =
      order.foldl (fun p u => if (locals u).clusterCount g = 0 then p
        else ((locals u).currentCentroid g).divide ((locals u).clusterCount g))
        (centroids ((t + 1) * numCluster + g)) := by
  induction order generalizing centroids with
  | nil => rfl
  | cons u order ih => rw [List.foldl_cons, ih, List.foldl_cons, critical_row _ _ _ _ hg]

omit [CMath F] [LinearOrder F] in
theorem foldl_critical_frame (numCluster t : ℕ) (locals : ℕ → Local F) (order : List ℕ)
    (centroids : ℕ → Point F) {x : ℕ}
    (hx : x < (t + 1) * numCluster ∨ (t + 2) * numCluster ≤ x) :
    order.foldl (fun centroids u => critical numCluster t (locals u) centroids) centroids x =
      centroids x := by
  induction order generalizing centroids with
  | nil => rfl
  | cons u order ih => rw [List.foldl_cons, ih, critical_frame _ _ _ _ hx]

/-- What the threads that have a value to store leave when they agree on it. -/
theorem foldl_store {α : Type} {absent : ℕ → Prop} [DecidablePred absent] {value : ℕ → α} {x : α}
    {order : List ℕ} (h : ∀ u ∈ order, ¬ absent u → value u = x) (y : α) :
    order.foldl (fun y u => if absent u then y else value u) y =
      if ∀ u ∈ order, absent u then y else x := by
  induction order using List.reverseRecOn with
  | nil => simp
  | append_singleton order u ih =>
    have ih := ih fun v hv => h v (List.mem_append_left _ hv)
    rw [List.foldl_append, List.foldl_cons, List.foldl_nil, ih]
    by_cases hu : absent u
    · simp [hu, or_imp, forall_and]
    · have hvalue := h u (List.mem_append_right _ List.mem_cons_self) hu
      have hnot : ¬ ∀ v ∈ order ++ [u], absent v :=
        fun hall => hu (hall u (List.mem_append_right _ List.mem_cons_self))
      rw [if_neg hu, if_neg hnot, hvalue]

namespace Input

/-- The next row: the threads with points of the cluster store one mean after the other. -/
theorem iteration_row (hpos : 0 < a.numCluster) (order : List ℕ) (t : ℕ) (s : State F) {g : ℕ}
    (hg : g < a.numCluster) :
    a.row (a.iteration order t s).centroidsGlobal (t + 1) g = order.foldl (fun p u =>
      if cell a.numCluster a.dataPoints (a.row s.centroidsGlobal t) (a.block u) g = [] then p
      else meanOf (cell a.numCluster a.dataPoints (a.row s.centroidsGlobal t) (a.block u) g))
      (a.row s.centroidsGlobal (t + 1) g) := by
  refine (foldl_critical _ _ _ _ _ hg).trans ?_
  apply List.foldl_ext
  intro p u _
  have h := assign_assigned hpos s t u
  rw [h.clusterCount, h.currentCentroid]
  simp only [List.length_eq_zero_iff]
  rfl

theorem iteration_frame (order : List ℕ) (t : ℕ) (s : State F) {x : ℕ}
    (hx : x < (t + 1) * a.numCluster ∨ (t + 2) * a.numCluster ≤ x) :
    (a.iteration order t s).centroidsGlobal x = s.centroidsGlobal x :=
  foldl_critical_frame _ _ _ _ _ hx

theorem iterations_row (orders : ℕ → List ℕ) (s : State F) {t m : ℕ} (htm : t ≤ m) {g : ℕ}
    (hg : g < a.numCluster) :
    a.row (a.iterations orders s m).centroidsGlobal t g =
      a.row (a.iterations orders s t).centroidsGlobal t g := by
  induction m with
  | zero =>
    obtain rfl : t = 0 := Nat.le_zero.mp htm
    rfl
  | succ m ih =>
    rcases Nat.lt_or_eq_of_le htm with hlt | rfl
    · have hlow := position_lt hlt hg
      rw [← ih (Nat.le_of_lt_succ hlt)]
      exact iteration_frame (orders m) m _ (.inl hlow)
    · rfl

theorem iterations_zero (orders : ℕ → List ℕ) (heap : Heap F) (m g : ℕ) :
    a.row (a.iterations orders (a.seeded heap) m).centroidsGlobal (m + 1) g = 0 := by
  have hzero : ∀ x, (m + 1) * a.numCluster ≤ x →
      (a.iterations orders (a.seeded heap) m).centroidsGlobal x = 0 := by
    induction m with
    | zero =>
      intro x hx
      exact if_neg (by omega)
    | succ m ih =>
      intro x hx
      have hnext : (m + 2) * a.numCluster = (m + 1) * a.numCluster + a.numCluster := by ring
      have hx' : (m + 2) * a.numCluster ≤ x := hx
      rw [iterations, iteration_frame _ _ _ (.inr hx')]
      exact ih x (by omega)
  exact hzero _ (Nat.le_add_right _ _)

end Input

namespace Input

omit [Field F] [CMath F] [LinearOrder F] in
theorem lengthPerThread_mul_le : a.lengthPerThread * a.numThreads ≤ a.numPoints :=
  Nat.div_mul_le_self a.numPoints a.numThreads

omit [Field F] [CMath F] [LinearOrder F] in
theorem mem_block {i u : ℕ} (hu : u < a.numThreads) :
    i ∈ a.block u ↔ u * a.lengthPerThread ≤ i ∧ i < (u + 1) * a.lengthPerThread := by
  have hle : (u + 1) * a.lengthPerThread ≤ a.numPoints :=
    calc (u + 1) * a.lengthPerThread ≤ a.numThreads * a.lengthPerThread :=
          Nat.mul_le_mul_right _ hu
      _ = a.lengthPerThread * a.numThreads := Nat.mul_comm ..
      _ ≤ a.numPoints := lengthPerThread_mul_le
  have hsucc : (u + 1) * a.lengthPerThread = u * a.lengthPerThread + a.lengthPerThread := by ring
  have hstop : a.stop u = a.start u + a.lengthPerThread := if_neg (by rw [start]; omega)
  rw [block, hstop, List.mem_range'_1, start]
  omega

omit [Field F] [CMath F] [LinearOrder F] in
theorem block_lt {i u : ℕ} (hu : u < a.numThreads) (hi : i ∈ a.block u) : i < a.numPoints := by
  have hmem := (mem_block hu).mp hi
  calc i < (u + 1) * a.lengthPerThread := hmem.2
    _ ≤ a.numThreads * a.lengthPerThread := Nat.mul_le_mul_right _ hu
    _ = a.lengthPerThread * a.numThreads := Nat.mul_comm ..
    _ ≤ a.numPoints := lengthPerThread_mul_le

omit [Field F] [CMath F] [LinearOrder F] in
/-- Every point has one thread when the number of threads divides that of the points. -/
theorem exists_block (hdvd : a.numThreads ∣ a.numPoints) {i : ℕ} (hi : i < a.numPoints) :
    ∃ u < a.numThreads, i ∈ a.block u := by
  have hcover : a.lengthPerThread * a.numThreads = a.numPoints := Nat.div_mul_cancel hdvd
  have hu : i / a.lengthPerThread < a.numThreads :=
    Nat.div_lt_of_lt_mul (hcover.symm ▸ hi)
  have hpos : 0 < a.lengthPerThread := by
    apply Nat.pos_of_ne_zero
    intro hzero
    rw [hzero, Nat.zero_mul] at hcover
    omega
  refine ⟨_, hu, (mem_block hu).mpr ⟨Nat.div_mul_le_self i _, ?_⟩⟩
  rw [Nat.mul_comm]
  exact Nat.lt_mul_div_succ i hpos

omit [Field F] [CMath F] [LinearOrder F] in
theorem last_not_mem_block (hdvd : ¬ a.numThreads ∣ a.numPoints) {u : ℕ} (hu : u < a.numThreads) :
    a.numPoints - 1 ∉ a.block u := by
  intro hmem
  have hlt : a.lengthPerThread * a.numThreads < a.numPoints := by
    apply lt_of_le_of_ne lengthPerThread_mul_le
    intro heq
    exact hdvd ⟨a.lengthPerThread, by rw [Nat.mul_comm, heq]⟩
  have hle : (u + 1) * a.lengthPerThread ≤ a.lengthPerThread * a.numThreads := by
    rw [Nat.mul_comm]
    exact Nat.mul_le_mul_left _ hu
  have := (mem_block hu).mp hmem
  omega

omit [Field F] [CMath F] [LinearOrder F] in
theorem block_unique {i u v : ℕ} (hu : u < a.numThreads) (hv : v < a.numThreads)
    (hiu : i ∈ a.block u) (hiv : i ∈ a.block v) : u = v := by
  obtain ⟨hul, hur⟩ := (mem_block hu).mp hiu
  obtain ⟨hvl, hvr⟩ := (mem_block hv).mp hiv
  have huv : u < v + 1 := Nat.lt_of_mul_lt_mul_right (hul.trans_lt hvr)
  have hvu : v < u + 1 := Nat.lt_of_mul_lt_mul_right (hvl.trans_lt hur)
  omega

omit [CMath F] [LinearOrder F] in
theorem updateClusterPoints_eq (ids : ℕ → ℕ) (u : ℕ) (clusterPoints : ℕ → Point F × F) (i : ℕ) :
    a.updateClusterPoints ids u clusterPoints i =
      if i ∈ a.block u then (a.dataPoints i, (ids (i - a.start u) : F)) else clusterPoints i := by
  have hloop : ∀ block : List ℕ, (block.foldl (fun clusterPoints i =>
      Function.update clusterPoints i (a.dataPoints i, (ids (i - a.start u) : F)))
        clusterPoints) i =
      if i ∈ block then (a.dataPoints i, (ids (i - a.start u) : F)) else clusterPoints i := by
    intro block
    induction block using List.reverseRecOn with
    | nil => simp
    | append_singleton block j ih =>
      rw [List.foldl_append, List.foldl_cons, List.foldl_nil]
      by_cases hij : i = j
      · subst hij
        simp
      · rw [Function.update_of_ne hij, ih]
        simp [hij]
  exact hloop _

omit [CMath F] [LinearOrder F] in
theorem clusterPoints_frame (ids : ℕ → ℕ → ℕ) {finish : List ℕ} {i : ℕ}
    (h : ∀ u ∈ finish, i ∉ a.block u) (clusterPoints : ℕ → Point F × F) :
    finish.foldl (fun clusterPoints u => a.updateClusterPoints (ids u) u clusterPoints)
      clusterPoints i = clusterPoints i := by
  induction finish generalizing clusterPoints with
  | nil => rfl
  | cons u finish ih =>
    rw [List.foldl_cons, ih fun v hv => h v (List.mem_cons_of_mem u hv), updateClusterPoints_eq,
      if_neg (h u List.mem_cons_self)]

omit [CMath F] [LinearOrder F] in
/-- That of every other point is written by its thread and by no other. -/
theorem clusterPoints_row (ids : ℕ → ℕ → ℕ) {finish : List ℕ}
    (hfinish : finish.Perm (List.range a.numThreads)) {u i : ℕ} (hu : u < a.numThreads)
    (hi : i ∈ a.block u) (clusterPoints : ℕ → Point F × F) :
    finish.foldl (fun clusterPoints u => a.updateClusterPoints (ids u) u clusterPoints)
      clusterPoints i = (a.dataPoints i, (ids u (i - a.start u) : F)) := by
  obtain ⟨front, back, rfl⟩ := List.append_of_mem
    (hfinish.mem_iff.mpr (List.mem_range.mpr hu))
  have hnodup : (front ++ u :: back).Nodup := hfinish.nodup_iff.mpr List.nodup_range
  obtain ⟨-, hback, -⟩ := List.nodup_append.mp hnodup
  have hother : ∀ v ∈ back, i ∉ a.block v := by
    intro v hv hiv
    have hv' : v < a.numThreads := List.mem_range.mp
      (hfinish.mem_iff.mp (List.mem_append_right _ (List.mem_cons_of_mem u hv)))
    obtain rfl := block_unique hu hv' hi hiv
    exact (List.nodup_cons.mp hback).1 hv
  rw [List.foldl_append, List.foldl_cons, clusterPoints_frame ids hother, updateClusterPoints_eq,
    if_pos hi]

end Input

/-- In the first `m` iterations every thread with points of a cluster has the mean of the
whole cluster. -/
def Shared (a : Input F) (m : ℕ) : Prop :=
  ∀ t < m, ∀ u < a.numThreads, ∀ g < a.numCluster,
    cell a.numCluster a.dataPoints (history a.numPoints a.numCluster a.dataPoints t) (a.block u) g
        ≠ [] →
      meanOf (cell a.numCluster a.dataPoints (history a.numPoints a.numCluster a.dataPoints t)
          (a.block u) g) =
        meanOf (cell a.numCluster a.dataPoints (history a.numPoints a.numCluster a.dataPoints t)
          (List.range a.numPoints) g)

structure Valid (a : Input F) (orders : ℕ → List ℕ) (finish : List ℕ) : Prop where
  orders : ∀ t, (orders t).Perm (List.range a.numThreads)
  finish : finish.Perm (List.range a.numThreads)

theorem cell_eq_nil_iff {numCluster : ℕ} {dataPoints row : ℕ → Point F} {block : List ℕ} {g : ℕ} :
    cell numCluster dataPoints row block g = [] ↔
      ∀ i ∈ block, label numCluster row (dataPoints i) ≠ g := by
  simp [cell]

theorem cells_eq_nil_iff (hdvd : a.numThreads ∣ a.numPoints) {order : List ℕ}
    (horder : order.Perm (List.range a.numThreads)) (row : ℕ → Point F) (g : ℕ) :
    (∀ u ∈ order, cell a.numCluster a.dataPoints row (a.block u) g = []) ↔
      cell a.numCluster a.dataPoints row (List.range a.numPoints) g = [] := by
  have hmem : ∀ u, u ∈ order ↔ u < a.numThreads := by
    intro u
    rw [horder.mem_iff, List.mem_range]
  simp only [cell_eq_nil_iff, List.mem_range, hmem]
  constructor
  · intro h i hi
    obtain ⟨u, hu, hiu⟩ := Input.exists_block hdvd hi
    exact h u hu i hiu
  · intro h u hu i hiu
    exact h i (Input.block_lt hu hiu)

theorem Shared.row_eq {m : ℕ} (h : Shared a m) (hpos : 0 < a.numCluster)
    (hdvd : a.numThreads ∣ a.numPoints) {orders : ℕ → List ℕ} {finish : List ℕ}
    (hvalid : Valid a orders finish) (heap : Heap F) {t : ℕ} (ht : t ≤ m) {g : ℕ}
    (hg : g < a.numCluster) :
    a.row (a.iterations orders (a.seeded heap) t).centroidsGlobal t g =
      history a.numPoints a.numCluster a.dataPoints t g := by
  induction t generalizing g with
  | zero =>
    rw [Input.row, Nat.zero_mul, Nat.zero_add]
    exact if_pos hg
  | succ t ih =>
    have hrow : ∀ j < a.numCluster,
        a.row (a.iterations orders (a.seeded heap) t).centroidsGlobal t j =
          history a.numPoints a.numCluster a.dataPoints t j := fun j hj => ih (by omega) hj
    rw [Input.iterations, Input.iteration_row hpos _ _ _ hg, Input.iterations_zero]
    simp only [cell_congr hrow]
    -- whoever is last, the mean stored is that of the cluster
    have hmean : ∀ u ∈ orders t, ¬ cell a.numCluster a.dataPoints
        (history a.numPoints a.numCluster a.dataPoints t) (a.block u) g = [] →
        meanOf (cell a.numCluster a.dataPoints
          (history a.numPoints a.numCluster a.dataPoints t) (a.block u) g) =
        meanOf (cell a.numCluster a.dataPoints
          (history a.numPoints a.numCluster a.dataPoints t) (List.range a.numPoints) g) := by
      intro u hu hne
      have hu' := List.mem_range.mp ((hvalid.orders t).mem_iff.mp hu)
      exact h t ht u hu' g hg hne
    rw [foldl_store hmean, history]
    simp only [cells_eq_nil_iff hdvd (hvalid.orders t)]

theorem centroids_length (a : Input F) (heap : Heap F) (orders : ℕ → List ℕ) (finish : List ℕ)
    (m : ℕ) : (a.kMeansParallel heap orders finish m).centroids.length =
      (m + 1) * a.numCluster := by
  rw [Input.kMeansParallel, List.length_map, List.length_range]

/-- Row `t` of the result is the row the iterations before have left. -/
theorem centroids_getElem? (heap : Heap F) (orders : ℕ → List ℕ) (finish : List ℕ) {m t : ℕ}
    (ht : t ≤ m) {g : ℕ} (hg : g < a.numCluster) :
    (a.kMeansParallel heap orders finish m).centroids[t * a.numCluster + g]? =
      some (a.row (a.iterations orders (a.seeded heap) t).centroidsGlobal t g) := by
  have hlt := position_lt (Nat.lt_succ_of_le ht) hg
  rw [← Input.iterations_row orders (a.seeded heap) ht hg, Input.kMeansParallel,
    List.getElem?_map, List.getElem?_range hlt]
  rfl

theorem clusterPoints_eq (hpos : 0 < a.numCluster) {orders : ℕ → List ℕ} {finish : List ℕ}
    (hvalid : Valid a orders finish) (heap : Heap F) (m : ℕ) {u i : ℕ} (hu : u < a.numThreads)
    (hi : i ∈ a.block u) :
    (a.kMeansParallel heap orders finish (m + 1)).clusterPoints i =
      (a.dataPoints i, (label a.numCluster
        (a.row (a.iterations orders (a.seeded heap) m).centroidsGlobal m)
          (a.dataPoints i) : F)) := by
  have hids := (assign_assigned hpos (a.iterations orders (a.seeded heap) m) m u).currentClusterId
  rw [← hids i hi]
  exact Input.clusterPoints_row _ hvalid.finish hu hi _

def Input.single (a : Input F) : Input F := { a with numThreads := 1 }

omit [Field F] [CMath F] [LinearOrder F] in
theorem Input.single_block (a : Input F) : a.single.block 0 = List.range a.numPoints := by
  simp [single, block, start, stop, lengthPerThread, List.range_eq_range']

theorem single_shared (a : Input F) (m : ℕ) : Shared a.single m := by
  intro t _ u hu g _ _
  obtain rfl : u = 0 := Nat.lt_one_iff.mp hu
  rw [Input.single_block]
  rfl

/-- The result `r` of several threads is complete, equal to the result `r₁` of one, and every
centroid it updates is the mean over all points nearest to the one before. -/
structure Agrees (a : Input F) (m : ℕ) (r r₁ : Result F) : Prop where
  clusterPoints : ∀ i < a.numPoints, ∃ g < a.numCluster,
    r.clusterPoints i = (a.dataPoints i, (g : F))
  labels : ∀ i < a.numPoints, r.clusterPoints i = r₁.clusterPoints i
  centroids : r.centroids = r₁.centroids
  means : ∀ t < m, ∀ g < a.numCluster,
    cell a.numCluster a.dataPoints (fun j => r.centroids.getD (t * a.numCluster + j) 0)
        (List.range a.numPoints) g ≠ [] →
      r.centroids.getD ((t + 1) * a.numCluster + g) 0 = meanOf (cell a.numCluster a.dataPoints
        (fun j => r.centroids.getD (t * a.numCluster + j) 0) (List.range a.numPoints) g)

/-- The number of threads does not show in the result of `m` iterations. -/
def Independent (a : Input F) (m : ℕ) : Prop :=
  ∀ heap heap₁ orders finish, Valid a orders finish →
    Agrees a m (a.kMeansParallel heap orders finish m)
      (a.single.kMeansParallel heap₁ (fun _ => [0]) [0] m)

omit [Field F] [CMath F] [LinearOrder F] in
theorem single_valid (a : Input F) : Valid a.single (fun _ => [0]) [0] :=
  ⟨fun _ => List.Perm.refl _, List.Perm.refl _⟩

theorem single_centroids (hpos : 0 < a.numCluster) (heap : Heap F) {m t : ℕ} (ht : t ≤ m) {g : ℕ}
    (hg : g < a.numCluster) :
    (a.single.kMeansParallel heap (fun _ => [0]) [0] m).centroids[t * a.numCluster + g]? =
      some (history a.numPoints a.numCluster a.dataPoints t g) := by
  have hrow := (single_shared a m).row_eq hpos (one_dvd _) (single_valid a) heap ht hg
  exact (centroids_getElem? (a := a.single) heap _ _ ht hg).trans (congrArg some hrow)

theorem centroids_eq (hpos : 0 < a.numCluster) {heap heap₁ : Heap F} {orders : ℕ → List ℕ}
    {finish : List ℕ} {m : ℕ} (h : ∀ t ≤ m, ∀ g < a.numCluster,
      a.row (a.iterations orders (a.seeded heap) t).centroidsGlobal t g =
        history a.numPoints a.numCluster a.dataPoints t g) :
    (a.kMeansParallel heap orders finish m).centroids =
      (a.single.kMeansParallel heap₁ (fun _ => [0]) [0] m).centroids := by
  apply List.ext_getElem?
  intro x
  by_cases hx : x < (m + 1) * a.numCluster
  · obtain ⟨hlt, hg, hsplit⟩ := row_and_column hx
    have ht := Nat.le_of_lt_succ hlt
    rw [← hsplit, centroids_getElem? heap orders finish ht hg, single_centroids hpos heap₁ ht hg,
      h _ ht _ hg]
  · have hle := not_lt.mp hx
    rw [List.getElem?_eq_none, List.getElem?_eq_none]
    · rw [centroids_length]
      exact hle
    · rw [centroids_length]
      exact hle

theorem Shared.independent {m : ℕ} (h : Shared a (m + 1)) (hpos : 0 < a.numCluster)
    (hdvd : a.numThreads ∣ a.numPoints) : Independent a (m + 1) := by
  intro heap heap₁ orders finish hvalid
  have hrow : ∀ t ≤ m + 1, ∀ g < a.numCluster,
      a.row (a.iterations orders (a.seeded heap) t).centroidsGlobal t g =
        history a.numPoints a.numCluster a.dataPoints t g :=
    fun t ht g hg => h.row_eq hpos hdvd hvalid heap ht hg
  have hlabel : ∀ i < a.numPoints,
      (a.kMeansParallel heap orders finish (m + 1)).clusterPoints i =
        (a.dataPoints i, (label a.numCluster
          (history a.numPoints a.numCluster a.dataPoints m) (a.dataPoints i) : F)) := by
    intro i hi
    obtain ⟨u, hu, hiu⟩ := Input.exists_block hdvd hi
    rw [clusterPoints_eq hpos hvalid heap m hu hiu, label_congr (hrow m (Nat.le_succ m))]
  have hlabel₁ : ∀ i < a.numPoints,
      (a.single.kMeansParallel heap₁ (fun _ => [0]) [0] (m + 1)).clusterPoints i =
        (a.dataPoints i, (label a.numCluster
          (history a.numPoints a.numCluster a.dataPoints m) (a.dataPoints i) : F)) := by
    intro i hi
    have hi₁ : i ∈ a.single.block 0 := by rwa [Input.single_block, List.mem_range]
    have hrow₁ : ∀ g < a.numCluster, a.single.row (a.single.iterations (fun _ => [0])
        (a.single.seeded heap₁) m).centroidsGlobal m g =
          history a.numPoints a.numCluster a.dataPoints m g := fun g hg =>
      (single_shared a m).row_eq hpos (one_dvd _) (single_valid a) heap₁ le_rfl hg
    rw [clusterPoints_eq (a := a.single) hpos (single_valid a) heap₁ m Nat.one_pos hi₁]
    exact congrArg (fun g : ℕ => (a.dataPoints i, (g : F))) (label_congr hrow₁ _)
  have hread : ∀ t ≤ m + 1, ∀ g < a.numCluster,
      (a.kMeansParallel heap orders finish (m + 1)).centroids.getD (t * a.numCluster + g) 0 =
        history a.numPoints a.numCluster a.dataPoints t g := by
    intro t ht g hg
    rw [List.getD_eq_getElem?_getD, centroids_getElem? heap orders finish ht hg, hrow t ht g hg]
    rfl
  refine ⟨fun i hi => ⟨_, label_lt hpos _ _, hlabel i hi⟩, fun i hi => ?_, centroids_eq hpos hrow,
    fun t ht g hg hne => ?_⟩
  · rw [hlabel i hi, hlabel₁ i hi]
  · rw [cell_congr (hread t ht.le)] at hne ⊢
    rw [hread (t + 1) ht g hg, history, if_neg hne]

/-- Every row of `ClusterPoints` is written only if there is a thread for every point. -/
theorem Independent.dvd {m : ℕ} (h : Independent a m) (hpos : 0 < a.numPoints) :
    a.numThreads ∣ a.numPoints := by
  by_contra hdvd
  have hvalid : Valid a (fun _ => List.range a.numThreads) (List.range a.numThreads) :=
    ⟨fun _ => List.Perm.refl _, List.Perm.refl _⟩
  -- the heap holds something else in place of the last point
  let heap : Heap F := ⟨fun i => (a.dataPoints i + ⟨1, 0, 0⟩, 0), fun _ _ => 0⟩
  have hagrees := h heap heap _ _ hvalid
  obtain ⟨g, -, hg⟩ := hagrees.clusterPoints (a.numPoints - 1) (by omega)
  have hfree : ∀ u ∈ List.range a.numThreads, a.numPoints - 1 ∉ a.block u :=
    fun u hu => Input.last_not_mem_block hdvd (List.mem_range.mp hu)
  have hframe := Input.clusterPoints_frame (a.iterations (fun _ => List.range a.numThreads)
    (a.seeded heap) m).currentClusterId hfree heap.clusterPoints
  have hpoint : a.dataPoints (a.numPoints - 1) + ⟨1, 0, 0⟩ = a.dataPoints (a.numPoints - 1) :=
    congrArg Prod.fst (hframe.symm.trans hg)
  have hx : (a.dataPoints (a.numPoints - 1)).x + 1 = (a.dataPoints (a.numPoints - 1)).x :=
    congrArg Point.x hpoint
  exact one_ne_zero (add_eq_left.mp hx)

/-- A thread that is last in an iteration leaves its own mean. -/
theorem Independent.shared {m : ℕ} (h : Independent a m) (hpos : 0 < a.numCluster) :
    Shared a m := by
  intro t ht u hu g hg hne
  let order := (List.range a.numThreads).erase u ++ [u]
  have horder : order.Perm (List.range a.numThreads) :=
    List.perm_append_comm.trans (List.perm_cons_erase (List.mem_range.mpr hu)).symm
  let heap : Heap F := ⟨fun _ => 0, fun _ _ => 0⟩
  have hagrees := h heap heap (fun _ => order) order ⟨fun _ => horder, horder⟩
  have hrow : ∀ t ≤ m, ∀ g < a.numCluster,
      a.row (a.iterations (fun _ => order) (a.seeded heap) t).centroidsGlobal t g =
        history a.numPoints a.numCluster a.dataPoints t g := by
    intro t ht g hg
    have hget := single_centroids hpos heap ht hg
    rw [← hagrees.centroids, centroids_getElem? heap _ _ ht hg] at hget
    exact Option.some.inj hget
  have hnext := hrow (t + 1) ht g hg
  rw [Input.iterations, Input.iteration_row hpos _ _ _ hg] at hnext
  simp only [cell_congr (hrow t ht.le)] at hnext
  have hwhole : cell a.numCluster a.dataPoints
      (history a.numPoints a.numCluster a.dataPoints t) (List.range a.numPoints) g ≠ [] := by
    intro hempty
    refine hne (cell_eq_nil_iff.mpr fun i hi => ?_)
    exact cell_eq_nil_iff.mp hempty i (List.mem_range.mpr (Input.block_lt hu hi))
  rw [List.foldl_append, List.foldl_cons, List.foldl_nil, if_neg hne, history,
    if_neg hwhole] at hnext
  exact hnext

end Threads

theorem total_const {points : List (Point F)} {p : Point F} (h : ∀ q ∈ points, q = p) :
    total points = ⟨points.length * p.x, points.length * p.y, points.length * p.z⟩ := by
  induction points using List.reverseRecOn with
  | nil => simp [total]; rfl
  | append_singleton points q ih =>
    have hq : q = p := h q (List.mem_append_right _ List.mem_cons_self)
    rw [total_append_singleton, ih fun r hr => h r (List.mem_append_left _ hr), hq,
      List.length_append, List.length_singleton]
    have hone : ∀ c : F, points.length * c + c = ((points.length + 1 : ℕ) : F) * c := by
      intro c
      push_cast
      ring
    show Point.mk _ _ _ = _
    rw [hone, hone, hone]

variable [LinearOrder F] [IsStrictOrderedRing F]

theorem meanOf_const {points : List (Point F)} {p : Point F} (h : ∀ q ∈ points, q = p)
    (hne : points ≠ []) : meanOf points = p := by
  have hlen : (points.length : F) ≠ 0 := by
    rw [Nat.cast_ne_zero]
    exact (List.length_pos_iff.mpr hne).ne'
  rw [meanOf, total_const h, Point.divide, mul_div_cancel_left₀ _ hlen,
    mul_div_cancel_left₀ _ hlen, mul_div_cancel_left₀ _ hlen]

variable [ExactMath F]

theorem euclidean_le {p q r : Point F} (h : euclidean p q ≤ euclidean p r) :
    (q.x - p.x) ^ 2 + (q.y - p.y) ^ 2 + (q.z - p.z) ^ 2 ≤
      (r.x - p.x) ^ 2 + (r.y - p.y) ^ 2 + (r.z - p.z) ^ 2 := by
  simp only [euclidean, ExactMath.pow2_eq] at h
  by_contra hlt
  have hroot := (ExactMath.sqrt_lt_sqrt (by positivity) (by positivity)).mpr (not_le.mp hlt)
  exact absurd h (not_le.mpr hroot)

/-- A point that is a centroid is nearest to a centroid at its place. -/
theorem label_exact {numCluster j : ℕ} {row : ℕ → Point F} {p : Point F} (hj : j < numCluster)
    (hp : row j = p) : row (label numCluster row p) = p := by
  have hmin := searchMin_firstMin (fun j => euclidean p (row j)) (Nat.zero_lt_of_lt hj)
  have hle : euclidean p (row (label numCluster row p)) ≤ euclidean p (row j) := hmin.le j hj
  generalize row (label numCluster row p) = q at hle
  have hsum := euclidean_le hle
  rw [hp] at hsum
  simp only [sub_self, ne_eq, OfNat.ofNat_ne_zero, not_false_eq_true, zero_pow, add_zero] at hsum
  have hx := sq_nonneg (q.x - p.x)
  have hy := sq_nonneg (q.y - p.y)
  have hz := sq_nonneg (q.z - p.z)
  have hroot : ∀ u v : F, (u - v) ^ 2 ≤ 0 → u = v := by
    intro u v huv
    have hzero : (u - v) ^ 2 = 0 := le_antisymm huv (sq_nonneg _)
    exact sub_eq_zero.mp ((pow_eq_zero_iff two_ne_zero).mp hzero)
  cases q
  cases p
  simp only [Point.mk.injEq]
  exact ⟨hroot _ _ (by linarith), hroot _ _ (by linarith), hroot _ _ (by linarith)⟩

/-- If the points of a block are centroids, those of one cell are all at the same place. -/
theorem cell_const {numCluster : ℕ} {dataPoints row : ℕ → Point F} {block : List ℕ} {g : ℕ}
    (h : ∀ i ∈ block, ∃ j < numCluster, row j = dataPoints i) :
    ∀ q ∈ cell numCluster dataPoints row block g, q = row g := by
  intro q hq
  obtain ⟨i, hi, rfl⟩ := List.mem_map.mp hq
  obtain ⟨hi, hlabel⟩ := List.mem_filter.mp hi
  obtain ⟨j, hj, hjp⟩ := h i hi
  rw [← of_decide_eq_true hlabel, label_exact hj hjp]

/-- With as many clusters as points every point is a centroid, in every iteration. -/
theorem history_covers {n : ℕ} (dataPoints : ℕ → Point F) (t : ℕ) :
    ∀ i < n, ∃ j < n, history n n dataPoints t j = dataPoints i := by
  induction t with
  | zero => exact fun i hi => ⟨i, hi, rfl⟩
  | succ t ih =>
    intro i hi
    obtain ⟨j, hj, hjp⟩ := ih i hi
    have hexact := label_exact hj hjp
    have hmem : dataPoints i ∈ cell n dataPoints (history n n dataPoints t) (List.range n)
        (label n (history n n dataPoints t) (dataPoints i)) := by
      rw [cell]
      exact List.mem_map_of_mem (List.mem_filter.mpr ⟨List.mem_range.mpr hi, by simp⟩)
    have hconst : ∀ q ∈ cell n dataPoints (history n n dataPoints t) (List.range n)
        (label n (history n n dataPoints t) (dataPoints i)),
        q = history n n dataPoints t (label n (history n n dataPoints t) (dataPoints i)) :=
      cell_const fun i hi => ih i (List.mem_range.mp hi)
    refine ⟨label n (history n n dataPoints t) (dataPoints i), label_lt (Nat.zero_lt_of_lt hj) _ _,
      ?_⟩
    rw [history, if_neg (List.ne_nil_of_mem hmem), meanOf_const hconst (List.ne_nil_of_mem hmem)]
    exact hexact

theorem shared_of_numCluster_eq {a : Input F} (h : a.numCluster = a.numPoints) (m : ℕ) :
    Shared a m := by
  intro t _ u hu g _ hne
  rw [h] at hne ⊢
  have hwhole : ∀ q ∈ cell a.numPoints a.dataPoints
      (history a.numPoints a.numPoints a.dataPoints t) (List.range a.numPoints) g,
      q = history a.numPoints a.numPoints a.dataPoints t g :=
    cell_const fun i hi => history_covers a.dataPoints t i (List.mem_range.mp hi)
  have hblock : ∀ q ∈ cell a.numPoints a.dataPoints
      (history a.numPoints a.numPoints a.dataPoints t) (a.block u) g,
      q = history a.numPoints a.numPoints a.dataPoints t g :=
    cell_const fun i hi => history_covers a.dataPoints t i (Input.block_lt hu hi)
  have hne' : cell a.numPoints a.dataPoints (history a.numPoints a.numPoints a.dataPoints t)
      (List.range a.numPoints) g ≠ [] := by
    intro hempty
    refine hne (cell_eq_nil_iff.mpr fun i hi => ?_)
    exact cell_eq_nil_iff.mp hempty i (List.mem_range.mpr (Input.block_lt hu hi))
  rw [meanOf_const hblock hne, meanOf_const hwhole hne']

def lastApart (n i : ℕ) : Point F := if i + 1 = n then ⟨1, 0, 0⟩ else 0

omit [LinearOrder F] [IsStrictOrderedRing F] [ExactMath F] in
theorem lastApart_of_lt {n i : ℕ} (hi : i + 1 < n) : lastApart n i = (0 : Point F) :=
  if_neg hi.ne

omit [IsStrictOrderedRing F] in
theorem cell_lastApart {n k : ℕ} (hk : 0 < k) (hkn : k < n) (block : List ℕ) :
    cell k (lastApart n) (history n k (lastApart n) 0) block 0 =
      block.map (lastApart n : ℕ → Point F) := by
  have hrow : ∀ j < k, history n k (lastApart n) 0 j = (0 : Point F) :=
    fun j hj => lastApart_of_lt (by omega)
  have hlabel : ∀ p : Point F, label k (history n k (lastApart n) 0) p = 0 := by
    intro p
    have hzero : FirstMin (fun j => euclidean p (history n k (lastApart n) 0 j)) k 0 := by
      refine ⟨hk, fun j hj => absurd hj (Nat.not_lt_zero j), fun j hj => ?_⟩
      simp only [hrow j hj, hrow 0 hk, le_refl]
    exact (searchMin_firstMin _ hk).unique hzero
  simp [cell, hlabel]

omit [ExactMath F] in
theorem meanOf_lastApart (n : ℕ) :
    meanOf ((List.range (n + 1)).map (lastApart (n + 1))) ≠ (0 : Point F) := by
  intro hmean
  have hzeros : ∀ q ∈ (List.range n).map (lastApart (n + 1) : ℕ → Point F), q = 0 := by
    intro q hq
    obtain ⟨i, hi, rfl⟩ := List.mem_map.mp hq
    exact lastApart_of_lt (Nat.succ_lt_succ (List.mem_range.mp hi))
  have hlast : lastApart (n + 1) n = (⟨1, 0, 0⟩ : Point F) := if_pos rfl
  rw [List.range_succ, List.map_append, List.map_cons, List.map_nil, hlast, meanOf,
    total_append_singleton, total_const hzeros] at hmean
  have hx : (((List.range n).map (lastApart (n + 1) : ℕ → Point F)).length * 0 + 1 : F) /
      (((List.range n).map (lastApart (n + 1)) ++ [(⟨1, 0, 0⟩ : Point F)]).length : ℕ) = 0 :=
    congrArg Point.x hmean
  rw [mul_zero, zero_add, div_eq_zero_iff, Nat.cast_eq_zero, List.length_eq_zero_iff] at hx
  rcases hx with hx | hx
  · exact one_ne_zero hx
  · exact absurd hx (by simp)

/-- One thread sees the origin only, and the others a point apart. -/
theorem not_shared_lastApart {n k t m : ℕ} (hk : 0 < k) (hkn : k < n) (ht : 1 < t)
    (hdvd : t ∣ n) (hm : 0 < m) : ¬ Shared (⟨n, k, t, lastApart n⟩ : Input F) m := by
  intro h
  obtain ⟨n, rfl⟩ := Nat.exists_eq_succ_of_ne_zero (by omega : n ≠ 0)
  -- thread 0 has points, but not the last one
  have hlength : (n + 1) / t * t = n + 1 := Nat.div_mul_cancel hdvd
  have hlpos : 0 < (n + 1) / t := Nat.div_pos (Nat.le_of_dvd n.succ_pos hdvd) (by omega)
  have htwo : (n + 1) / t * 2 ≤ (n + 1) / t * t := Nat.mul_le_mul_left _ ht
  have hblock : ∀ i, i ∈ (⟨n + 1, k, t, lastApart (n + 1)⟩ : Input F).block 0 ↔
      i < (n + 1) / t := by
    intro i
    rw [Input.mem_block (Nat.zero_lt_of_lt ht)]
    show 0 * ((n + 1) / t) ≤ i ∧ i < (0 + 1) * ((n + 1) / t) ↔ i < (n + 1) / t
    omega
  have hne : ((⟨n + 1, k, t, lastApart (n + 1)⟩ : Input F).block 0).map
      (lastApart (n + 1) : ℕ → Point F) ≠ [] :=
    List.ne_nil_of_mem (List.mem_map_of_mem ((hblock 0).mpr hlpos))
  have hconst : ∀ q ∈ ((⟨n + 1, k, t, lastApart (n + 1)⟩ : Input F).block 0).map
      (lastApart (n + 1) : ℕ → Point F), q = 0 := by
    intro q hq
    obtain ⟨i, hi, rfl⟩ := List.mem_map.mp hq
    have hi' := (hblock i).mp hi
    exact lastApart_of_lt (by omega)
  have hmean := h 0 hm 0 (Nat.zero_lt_of_lt ht) 0 hk
  simp only [cell_lastApart hk hkn] at hmean
  have hmean := hmean hne
  rw [meanOf_const hconst hne] at hmean
  exact meanOf_lastApart n hmean.symm

/-- For one data set the threads do not show when each of them has the means of the whole
clusters; for every data set they do not when there is one thread, or when the threads divide
the points evenly and every point is the seed of a cluster. -/
theorem independent_iff (numPoints numCluster numThreads m : ℕ) (hcluster : 1 ≤ numCluster)
    (hpoints : numCluster ≤ numPoints) (hthreads : 1 ≤ numThreads) (hm : 1 ≤ m) :
    (∀ dataPoints : ℕ → Point F,
      Independent ⟨numPoints, numCluster, numThreads, dataPoints⟩ m ↔
        numThreads ∣ numPoints ∧
          Shared ⟨numPoints, numCluster, numThreads, dataPoints⟩ m) ∧
    ((∀ dataPoints : ℕ → Point F,
      Independent ⟨numPoints, numCluster, numThreads, dataPoints⟩ m) ↔
        numThreads = 1 ∨ (numThreads ∣ numPoints ∧ numCluster = numPoints)) := by
  obtain ⟨m, rfl⟩ := Nat.exists_eq_succ_of_ne_zero (by omega : m ≠ 0)
  have hdata : ∀ dataPoints : ℕ → Point F,
      Independent ⟨numPoints, numCluster, numThreads, dataPoints⟩ (m + 1) ↔
        numThreads ∣ numPoints ∧
          Shared ⟨numPoints, numCluster, numThreads, dataPoints⟩ (m + 1) := by
    intro dataPoints
    constructor
    · intro h
      exact ⟨h.dvd (hcluster.trans hpoints), h.shared hcluster⟩
    · rintro ⟨hdvd, hshared⟩
      exact hshared.independent hcluster hdvd
  refine ⟨hdata, fun h => ?_, fun h dataPoints => ?_⟩
  · obtain ⟨hdvd, hshared⟩ := (hdata (lastApart numPoints)).mp (h _)
    by_contra hnot
    obtain ⟨hone, hpair⟩ := not_or.mp hnot
    have hne : numCluster ≠ numPoints := fun heq => hpair ⟨hdvd, heq⟩
    exact not_shared_lastApart hcluster (by omega) (by omega) hdvd (Nat.succ_pos m) hshared
  · rw [hdata]
    rcases h with rfl | ⟨hdvd, heq⟩
    · exact ⟨one_dvd _, single_shared ⟨numPoints, numCluster, 1, dataPoints⟩ _⟩
    · exact ⟨hdvd, shared_of_numCluster_eq heq _⟩

theorem independent_iff_four : (∀ dataPoints : ℕ → Point ℝ, Independent ⟨4, 4, 2, dataPoints⟩ 1) ∧
    ¬ ∀ dataPoints : ℕ → Point ℝ, Independent ⟨4, 1, 2, dataPoints⟩ 1 := by
  obtain ⟨-, hall⟩ := independent_iff (F := ℝ) 4 4 2 1 (by decide) (by decide) (by decide)
    (by decide)
  obtain ⟨-, hfail⟩ := independent_iff (F := ℝ) 4 1 2 1 (by decide) (by decide) (by decide)
    (by decide)
  exact ⟨hall.mpr (by decide), fun h => absurd (hfail.mp h) (by decide)⟩

/-- Two points, one cluster and two threads: the last thread leaves its own point as the mean. -/
theorem not_independent_two : ¬ Independent (⟨2, 1, 2, lastApart 2⟩ : Input ℝ) 1 := by
  intro h
  exact not_shared_lastApart Nat.one_pos (by decide) (by decide) (by decide) Nat.one_pos
    (h.shared Nat.one_pos)

end ParallelPrograms.KMeans.OpenMP
