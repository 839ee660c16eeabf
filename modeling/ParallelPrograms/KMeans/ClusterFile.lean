import ParallelPrograms.KMeans.Dataset
import ParallelPrograms.KMeans.OpenMP
import ParallelPrograms.Tokens

namespace ParallelPrograms.KMeans.OpenMP

variable {F : Type}

/-- `writeClusters(filename, N, cluster_points)`, where `print` is `%f`. -/
def writeClusters (print : F → List Char) (n : ℕ) (clusterPoints : ℕ → Point F × F) :
    List Char :=
  (List.range n).flatMap fun i =>
    let row := clusterPoints i
    print row.1.x ++ ' ' :: (print row.1.y ++ ' ' :: (print row.1.z ++ ' ' ::
      (print row.2 ++ ['\n'])))

structure Printed (text : List Char) : Prop where
  ne_nil : text ≠ []
  chars : ∀ c ∈ text, c ≠ ' ' ∧ c ≠ '\n'

def notNewline (c : Char) : Bool := c != '\n'

def notBlank (c : Char) : Bool := c != ' '

def table (text : List Char) : List (List (List Char)) :=
  (maximalRuns notNewline text).map (maximalRuns notBlank)

def words (print : F → List Char) (row : Point F × F) : List (List Char) :=
  [print row.1.x, print row.1.y, print row.1.z, print row.2]

def line (print : F → List Char) (row : Point F × F) : List Char :=
  print row.1.x ++ ' ' :: (print row.1.y ++ ' ' :: (print row.1.z ++ ' ' :: print row.2))

theorem writeClusters_eq (print : F → List Char) (n : ℕ) (clusterPoints : ℕ → Point F × F) :
    writeClusters print n clusterPoints =
      ((List.range n).map fun i => line print (clusterPoints i)).flatMap fun t => t ++ ['\n'] := by
  rw [List.flatMap_map, writeClusters]
  simp only [line, List.append_assoc, List.cons_append]

theorem Printed.notBlank {text : List Char} (h : Printed text) : ∀ c ∈ text, notBlank c :=
  fun c hc => bne_iff_ne.mpr (h.chars c hc).1

theorem line_chars {print : F → List Char} (hprint : ∀ x, Printed (print x)) (row : Point F × F) :
    line print row ≠ [] ∧ ∀ c ∈ line print row, notNewline c := by
  refine ⟨List.append_ne_nil_of_left_ne_nil (hprint _).ne_nil _, fun c hc => bne_iff_ne.mpr ?_⟩
  simp only [line, List.mem_append, List.mem_cons] at hc
  rcases hc with hc | rfl | hc | rfl | hc | rfl | hc
  all_goals first | exact ((hprint _).chars _ hc).2 | decide

theorem line_words {print : F → List Char} (hprint : ∀ x, Printed (print x)) (row : Point F × F) :
    maximalRuns notBlank (line print row) = words print row := by
  have hsep : notBlank ' ' = false := rfl
  have hword : ∀ x, maximalRuns notBlank (print x) = [print x] := fun x =>
    maximalRuns_singleton (hprint x).notBlank (hprint x).ne_nil
  rw [line, maximalRuns_append_cons _ _ hsep, maximalRuns_append_cons _ _ hsep,
    maximalRuns_append_cons _ _ hsep, hword, hword, hword, hword]
  rfl

/-- Every line has the four numbers of its row, and there is a line for every row. -/
theorem table_writeClusters {print : F → List Char} (hprint : ∀ x, Printed (print x)) (n : ℕ)
    (clusterPoints : ℕ → Point F × F) :
    table (writeClusters print n clusterPoints) =
      (List.range n).map fun i => words print (clusterPoints i) := by
  have hlines : ∀ t ∈ (List.range n).map fun i => line print (clusterPoints i),
      t ≠ [] ∧ ∀ c ∈ t, notNewline c := by
    intro t ht
    obtain ⟨i, -, rfl⟩ := List.mem_map.mp ht
    exact line_chars hprint (clusterPoints i)
  rw [table, writeClusters_eq, maximalRuns_flatMap rfl hlines, List.map_map]
  exact List.map_congr_left fun i _ => line_words hprint (clusterPoints i)

def pointAt [Zero F] (floats : List F) (i : ℕ) : Point F :=
  ⟨floats.getD (i * 3) 0, floats.getD (i * 3 + 1) 0, floats.getD (i * 3 + 2) 0⟩

def pointOf (toFloat : ℤ → F) (zs : List ℤ) (i : ℕ) : Point F :=
  ⟨toFloat (zs.getD (i * 3) 0), toFloat (zs.getD (i * 3 + 1) 0), toFloat (zs.getD (i * 3 + 2) 0)⟩

theorem pointAt_map [Zero F] (toFloat : ℤ → F) {zs : List ℤ} {i : ℕ}
    (hi : i * 3 + 2 < zs.length) : pointAt (zs.map toFloat) i = pointOf toFloat zs i := by
  have hcoord : ∀ j < zs.length, (zs.map toFloat).getD j 0 = toFloat (zs.getD j 0) := by
    intro j hj
    rw [List.getD_eq_getElem _ _ (by rw [List.length_map]; exact hj), List.getElem_map,
      List.getD_eq_getElem _ _ hj]
  rw [pointAt, pointOf, hcoord _ (by omega), hcoord _ (by omega), hcoord _ hi]

/-- What `main` hands over to the clustering.  The header it includes is not there;
`KMeansParallel` takes the same arguments in the same order. -/
def input [Zero F] (n : ℤ) (floats : List F) (numCluster numThreads : ℕ) : Input F where
  numPoints := n.toNat
  numCluster := numCluster
  numThreads := numThreads
  dataPoints := pointAt floats

/-- There are points for the seeds, there is a thread, and `centroids_global` has a row for the
means of the last of `m` iterations. -/
structure Callable (a : Input F) (m : ℕ) : Prop where
  cluster : 1 ≤ a.numCluster
  points : a.numCluster ≤ a.numPoints
  threads : 1 ≤ a.numThreads
  iterations : m < 200

/-- A point in front of the last `N % NumThreads` has a thread. -/
theorem Input.exists_block_of_lt {a : Input F} {i : ℕ}
    (hi : i < a.numThreads * a.lengthPerThread) : ∃ u < a.numThreads, i ∈ a.block u := by
  have hpos : 0 < a.lengthPerThread := Nat.pos_of_mul_pos_left (Nat.zero_lt_of_lt hi)
  have hu : i / a.lengthPerThread < a.numThreads :=
    Nat.div_lt_of_lt_mul (Nat.mul_comm _ _ ▸ hi)
  refine ⟨_, hu, (mem_block hu).mpr ⟨Nat.div_mul_le_self i _, ?_⟩⟩
  rw [Nat.mul_comm]
  exact Nat.lt_mul_div_succ i hpos

theorem Input.not_mem_block_of_le {a : Input F} {i u : ℕ}
    (hi : a.numThreads * a.lengthPerThread ≤ i) (hu : u < a.numThreads) : i ∉ a.block u := by
  intro hmem
  have hlt := ((mem_block hu).mp hmem).2
  have hle : (u + 1) * a.lengthPerThread ≤ a.numThreads * a.lengthPerThread :=
    Nat.mul_le_mul_right _ hu
  omega

section Program

variable [Field F] [CMath F] [LinearOrder F]

def lastLabel (a : Input F) (heap : Heap F) (orders : ℕ → List ℕ) (m i : ℕ) : ℕ :=
  label a.numCluster (a.row (a.iterations orders (a.seeded heap) m).centroidsGlobal m)
    (a.dataPoints i)

theorem clusterPoints_split {a : Input F} (hcluster : 0 < a.numCluster) {orders : ℕ → List ℕ}
    {finish : List ℕ} (hvalid : Valid a orders finish) (heap : Heap F) (m i : ℕ) :
    (a.kMeansParallel heap orders finish (m + 1)).clusterPoints i =
      if i < a.numThreads * a.lengthPerThread then
        (a.dataPoints i, (lastLabel a heap orders m i : F))
      else heap.clusterPoints i := by
  split_ifs with hi
  · obtain ⟨u, hu, hiu⟩ := Input.exists_block_of_lt hi
    exact clusterPoints_eq hcluster hvalid heap m hu hiu
  · apply Input.clusterPoints_frame
    intro u hu
    have hthread := List.mem_range.mp (hvalid.finish.mem_iff.mp hu)
    exact Input.not_mem_block_of_le (Nat.le_of_not_lt hi) hthread

def centroidBefore (r : Result F) (numCluster m g : ℕ) : Point F :=
  r.centroids.getD (m * numCluster + g) 0

/-- The id is that of the first of the nearest centroids. -/
theorem lastLabel_nearest {a : Input F} (hcluster : 0 < a.numCluster) (heap : Heap F)
    (orders : ℕ → List ℕ) (finish : List ℕ) (m i : ℕ) :
    FirstMin (fun g => euclidean (a.dataPoints i)
        (centroidBefore (a.kMeansParallel heap orders finish (m + 1)) a.numCluster m g))
      a.numCluster (lastLabel a heap orders m i) := by
  have hrow : ∀ g < a.numCluster,
      centroidBefore (a.kMeansParallel heap orders finish (m + 1)) a.numCluster m g =
        a.row (a.iterations orders (a.seeded heap) m).centroidsGlobal m g := by
    intro g hg
    rw [centroidBefore, List.getD_eq_getElem?_getD,
      centroids_getElem? heap orders finish (Nat.le_succ m) hg, Option.getD_some]
  have hlabel : lastLabel a heap orders m i = label a.numCluster
      (centroidBefore (a.kMeansParallel heap orders finish (m + 1)) a.numCluster m)
        (a.dataPoints i) := label_congr (fun g hg => (hrow g hg).symm) _
  rw [hlabel]
  exact searchMin_firstMin _ hcluster

/-- Line `i` of the file has the three numbers of point `i` of the dataset and the id of the
first of the centroids nearest to it, for all but the last `N % NumThreads` points, whose lines
have what `malloc` found. -/
theorem program_clusterFile {toFloat : ℤ → F} {print : F → List Char}
    (hprint : ∀ x, Printed (print x)) {file : List Char} {n : ℤ} {floats : List F}
    (hfile : Dataset.readDataset toFloat file = some (n, floats)) {numCluster numThreads m : ℕ}
    (hcall : Callable (input n floats numCluster numThreads) (m + 1)) {orders : ℕ → List ℕ}
    {finish : List ℕ} (hvalid : Valid (input n floats numCluster numThreads) orders finish)
    (heap : Heap F) :
    let r := (input n floats numCluster numThreads).kMeansParallel heap orders finish (m + 1)
    ∃ (zs : List ℤ) (labels : ℕ → ℕ), Dataset.Lists (n :: zs) file ∧ zs.length = 3 * n.toNat ∧
      (∀ i < n.toNat, FirstMin
        (fun g => euclidean (pointOf toFloat zs i) (centroidBefore r numCluster m g)) numCluster
          (labels i)) ∧
      table (writeClusters print n.toNat r.clusterPoints) = (List.range n.toNat).map fun i =>
        words print (if i < numThreads * (n.toNat / numThreads) then
          (pointOf toFloat zs i, (labels i : F)) else heap.clusterPoints i) := by
  intro r
  obtain ⟨zs, hlists, -, hlength, rfl⟩ := Dataset.lists_of_readDataset hfile
  have hlength : zs.length = 3 * n.toNat := by omega
  set a := input n (zs.map toFloat) numCluster numThreads
  have hpoint : ∀ i < n.toNat, a.dataPoints i = pointOf toFloat zs i := fun i hi =>
    pointAt_map toFloat (by omega)
  refine ⟨zs, lastLabel a heap orders m, hlists, hlength, fun i hi => ?_, ?_⟩
  · rw [← hpoint i hi]
    exact lastLabel_nearest hcall.cluster heap orders finish m i
  · rw [table_writeClusters hprint]
    apply List.map_congr_left
    intro i hi
    rw [← hpoint i (List.mem_range.mp hi), clusterPoints_split hcall.cluster hvalid]
    rfl

noncomputable def printSmall (x : ℝ) : List Char :=
  (if x = 0 then '0' else if x = 1 then '1' else '2') :: ".000000".toList

theorem printSmall_printed (x : ℝ) : Printed (printSmall x) := by
  have hdigits : ∀ digit : Char, digit ≠ ' ' → digit ≠ '\n' →
      Printed (digit :: ".000000".toList) := by
    intro digit hblank hnewline
    refine ⟨List.cons_ne_nil _ _, fun c hc => ?_⟩
    rcases List.mem_cons.mp hc with rfl | hc
    · exact ⟨hblank, hnewline⟩
    · have hall := List.all_eq_true.mp (show ".000000".toList.all
        (fun c => c != ' ' && c != '\n') = true from rfl) c hc
      exact ⟨bne_iff_ne.mp (Bool.and_eq_true_iff.mp hall).1,
        bne_iff_ne.mp (Bool.and_eq_true_iff.mp hall).2⟩
  unfold printSmall
  split_ifs
  all_goals exact hdigits _ (by decide) (by decide)

def threePoints : List Char := "3\n0 0 0\n1 1 1\n2 2 2\n".toList

noncomputable def threePointsResult : Result ℝ :=
  (input 3 (([0, 0, 0, 1, 1, 1, 2, 2, 2] : List ℤ).map fun z => (z : ℝ)) 1 2).kMeansParallel
    ⟨fun _ => (⟨1, 1, 1⟩, 0), fun _ _ => 0⟩ (fun _ => [0, 1]) [1, 0] 1

theorem program_clusterFile_three :
    ∃ (zs : List ℤ) (labels : ℕ → ℕ), Dataset.Lists (3 :: zs) threePoints ∧ zs.length = 9 ∧
      (∀ i < 3, FirstMin (fun g => euclidean (pointOf (fun z => (z : ℝ)) zs i)
        (centroidBefore threePointsResult 1 0 g)) 1 (labels i)) ∧
      table (writeClusters printSmall 3 threePointsResult.clusterPoints) =
        (List.range 3).map fun i => words printSmall (if i < 2 then
          (pointOf (fun z => (z : ℝ)) zs i, (labels i : ℝ)) else (⟨1, 1, 1⟩, 0)) :=
  program_clusterFile printSmall_printed (show Dataset.readDataset _ threePoints = _ from rfl)
    ⟨by decide, by decide, by decide, by decide⟩ ⟨fun _ => List.Perm.refl _, by decide⟩ _

end Program

end ParallelPrograms.KMeans.OpenMP
