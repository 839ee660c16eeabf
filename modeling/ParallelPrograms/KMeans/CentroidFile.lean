import ParallelPrograms.KMeans.Flat

namespace ParallelPrograms.KMeans.OpenMP.Flat

variable {F : Type}

/-- Centroid `c` of iteration `t` in an array as `threadedClustering` and `KMeansParallel` fill
it. -/
def centroid (numCluster : ℕ) (centroids : ℤ → F) (t c : ℕ) : Point F :=
  load centroids (index numCluster t c)

theorem centroid_eq_points (numCluster : ℕ) (centroids : ℤ → F) (t c : ℕ) :
    centroid numCluster centroids t c = points centroids (t * numCluster + c) :=
  load_index centroids numCluster t c

/-- The points that `writeCentroids` prints, line by line: one `fprintf` prints
`*(centroids + (i * K) + (j * 3))` and the two elements behind it. -/
def writeCentroids (numCluster numIterations : ℕ) (centroids : ℤ → F) : List (List (Point F)) :=
  (List.range numIterations).map fun i : ℕ => (List.range numCluster).map fun j : ℕ =>
    load centroids (i * numCluster + j * 3)

def finalCentroids (numCluster iteration : ℕ) (centroids : ℤ → F) : List (Point F) :=
  (List.range numCluster).map fun i : ℕ => load centroids (iteration * numCluster + i * 3)

def LinesMatch (F : Type) (numCluster numIterations : ℕ) : Prop :=
  ∀ centroids : ℤ → F, ∀ t < numIterations, ∀ c < numCluster,
    ((writeCentroids numCluster numIterations centroids)[t]?.bind fun points => points[c]?) =
      some (centroid numCluster centroids t c)

def FinalMatch (F : Type) (numCluster iteration : ℕ) : Prop :=
  ∀ centroids : ℤ → F, finalCentroids numCluster iteration centroids =
    (List.range numCluster).map (centroid numCluster centroids iteration)

def Distinguishes (F : Type) (numCluster numIterations : ℕ) : Prop :=
  ∀ centroids centroids' : ℤ → F,
    writeCentroids numCluster numIterations centroids =
      writeCentroids numCluster numIterations centroids' →
    ∀ t < numIterations, ∀ c < numCluster,
      centroid numCluster centroids t c = centroid numCluster centroids' t c

theorem writeCentroids_getElem {numCluster numIterations t c : ℕ} (ht : t < numIterations)
    (hc : c < numCluster) (centroids : ℤ → F) :
    ((writeCentroids numCluster numIterations centroids)[t]?.bind fun points => points[c]?) =
      some (load centroids (t * numCluster + c * 3)) := by
  simp [writeCentroids, ht, hc]

/-- The two ways agree in row 0. -/
theorem index_zero (numCluster c : ℕ) :
    index numCluster (0 : ℕ) c = (0 : ℕ) * numCluster + c * 3 := by
  rw [index]
  push_cast
  ring

theorem linesMatch_of_le {numCluster numIterations : ℕ} (h : numIterations ≤ 1) :
    LinesMatch F numCluster numIterations := by
  intro centroids t ht c hc
  obtain rfl : t = 0 := by omega
  rw [writeCentroids_getElem ht hc, centroid, index_zero]

theorem LinesMatch.distinguishes {numCluster numIterations : ℕ}
    (h : LinesMatch F numCluster numIterations) : Distinguishes F numCluster numIterations := by
  intro centroids centroids' hfile t ht c hc
  have hpoint := h centroids t ht c hc
  rw [hfile, h centroids' t ht c hc] at hpoint
  exact (Option.some.inj hpoint).symm

theorem finalMatch_zero (numCluster : ℕ) : FinalMatch F numCluster 0 := by
  intro centroids
  apply List.map_congr_left
  intro c _
  rw [centroid, index_zero]

variable [Nontrivial F] {numCluster : ℕ}

/-- The first point that is read for a later row begins at another element. -/
theorem load_ne (hpos : 1 ≤ numCluster) {t : ℕ} (ht : 1 ≤ t) : ∃ centroids : ℤ → F,
    load centroids (t * numCluster + (0 : ℕ) * 3) ≠ centroid numCluster centroids t 0 := by
  obtain ⟨x, y, hxy⟩ := exists_pair_ne F
  let centroids : ℤ → F := Function.update (fun _ => y) (t * numCluster) x
  have hplace : 1 ≤ t * numCluster := Nat.mul_pos ht hpos
  have hread : centroids (t * numCluster + (0 : ℕ) * 3) = x := by simp [centroids]
  have hstored : centroids (index numCluster t 0) = y := by
    apply Function.update_of_ne
    rw [index]
    push_cast
    omega
  refine ⟨centroids, fun h => hxy ?_⟩
  have hfirst : centroids (t * numCluster + (0 : ℕ) * 3) = centroids (index numCluster t 0) :=
    congrArg Point.x h
  rw [← hread, hfirst, hstored]

omit [Nontrivial F] in
theorem load_update_of_lt (centroids : ℤ → F) {x z : ℤ} (h : x + 2 < z) (v : F) :
    load (Function.update centroids z v) x = load centroids x := by
  rw [load, load, Function.update_of_ne (by omega), Function.update_of_ne (by omega),
    Function.update_of_ne (by omega)]

theorem LinesMatch.le_one (hpos : 1 ≤ numCluster) {numIterations : ℕ}
    (h : LinesMatch F numCluster numIterations) : numIterations ≤ 1 := by
  by_contra hmore
  obtain ⟨centroids, hne⟩ := load_ne (F := F) hpos le_rfl
  have hpoint := h centroids 1 (by omega) 0 hpos
  rw [writeCentroids_getElem (by omega) hpos] at hpoint
  exact hne (Option.some.inj hpoint)

theorem FinalMatch.eq_zero (hpos : 1 ≤ numCluster) {iteration : ℕ}
    (h : FinalMatch F numCluster iteration) : iteration = 0 := by
  by_contra hne
  obtain ⟨centroids, hload⟩ := load_ne (F := F) hpos (Nat.one_le_iff_ne_zero.mpr hne)
  have hfirst := congrArg (fun l : List (Point F) => l[0]?) (h centroids)
  simp only [finalCentroids, List.getElem?_map, List.getElem?_range hpos, Option.map_some] at hfirst
  exact hload (Option.some.inj hfirst)

theorem Distinguishes.le_one (hpos : 1 ≤ numCluster) {numIterations : ℕ}
    (h : Distinguishes F numCluster numIterations) : numIterations ≤ 1 := by
  obtain ⟨x, y, hxy⟩ := exists_pair_ne F
  by_contra hmore
  obtain ⟨k, rfl⟩ := Nat.exists_eq_succ_of_ne_zero (by omega : numCluster ≠ 0)
  obtain ⟨m, rfl⟩ := Nat.exists_eq_succ_of_ne_zero (by omega : numIterations ≠ 0)
  let last : ℤ := index (k + 1) m k + 2
  let centroids : ℤ → F := Function.update (fun _ => x) last y
  have hrows : (k + 1 : ℤ) ≤ m * (k + 1) := by
    exact_mod_cast Nat.le_mul_of_pos_left (k + 1) (by omega)
  have hfile : writeCentroids (k + 1) (m + 1) (fun _ => x) =
      writeCentroids (k + 1) (m + 1) centroids := by
    apply List.map_congr_left
    intro i hi
    apply List.map_congr_left
    intro j hj
    rw [List.mem_range] at hi hj
    have hi' : (i * (k + 1) : ℤ) ≤ m * (k + 1) := by
      exact_mod_cast Nat.mul_le_mul_right (k + 1) (by omega : i ≤ m)
    refine (load_update_of_lt _ ?_ y).symm
    simp only [last, index]
    push_cast
    omega
  have hpoint := h (fun _ => x) centroids hfile m (by omega) k (by omega)
  have hlast : x = centroids last := congrArg Point.z hpoint
  rw [show centroids last = y from Function.update_self ..] at hlast
  exact hxy hlast

/-- The two loops find the centroids of row 0 only: the file is right if and only if it has at
most one line, and the final centroids are if and only if there was no iteration. -/
theorem centroidFile_iff (hpos : 1 ≤ numCluster) (numIterations iteration : ℕ) :
    (LinesMatch F numCluster numIterations ↔ numIterations ≤ 1) ∧
    (Distinguishes F numCluster numIterations ↔ numIterations ≤ 1) ∧
    (FinalMatch F numCluster iteration ↔ iteration = 0) := by
  refine ⟨⟨fun h => h.le_one hpos, linesMatch_of_le⟩,
    ⟨fun h => h.le_one hpos, fun h => (linesMatch_of_le h).distinguishes⟩,
    ⟨fun h => h.eq_zero hpos, ?_⟩⟩
  rintro rfl
  exact finalMatch_zero numCluster

theorem centroidFile_iff_two : LinesMatch ℝ 2 1 ∧ FinalMatch ℝ 2 0 :=
  ⟨(centroidFile_iff (by decide) 1 0).1.mpr le_rfl, (centroidFile_iff (by decide) 1 0).2.2.mpr rfl⟩

/-- One cluster and two iterations. -/
theorem not_linesMatch : ¬ ∀ numCluster numIterations, 1 ≤ numCluster →
    LinesMatch ℝ numCluster numIterations ∧ Distinguishes ℝ numCluster numIterations ∧
      FinalMatch ℝ numCluster numIterations := by
  intro h
  exact absurd ((h 1 2 le_rfl).1.le_one le_rfl) (by decide)

end ParallelPrograms.KMeans.OpenMP.Flat
