import Mathlib.Algebra.Order.Group.Nat
import Mathlib.Data.Nat.Cast.Defs
import ParallelPrograms.ParallelFor
import ParallelPrograms.StdVector

namespace ParallelPrograms.KMeans

/-- The functions of `<cmath>` that the program calls; `pow2 x` is `pow(x, 2.0)`.  The element type
stands for `double`, and nothing is assumed of its operations. -/
class CMath (F : Type) where
  abs : F → F
  sqrt : F → F
  pow2 : F → F

variable {F : Type}

structure Point (F : Type) where
  pointId : ℕ
  clusterId : ℤ
  values : List F

structure Cluster (F : Type) where
  clusterId : ℤ
  centroid : List F
  points : List (Point F)

namespace Point

def isNumberChar (c : Char) : Bool :=
  (48 ≤ c.toNat && c.toNat ≤ 57) || c = '.' || c = '+' || c = '-' || c = 'e'

def lineToVecPass (stod : String → Option F) (v : List F × String) (c : Char) :
    Option (List F × String) :=
  if isNumberChar c then some (v.1, v.2.push c)
  else if 0 < v.2.length then do
    let x ← stod v.2
    return (v.1 ++ [x], "")
  else some v

/-- There is no result when `stod` throws. -/
def lineToVec (stod : String → Option F) (line : String) : Option (List F) := do
  let v ← line.toList.foldlM (lineToVecPass stod) ([], "")
  if 0 < v.2.length then do
    let x ← stod v.2
    return v.1 ++ [x]
  else return v.1

/-- `Point(id, line)`: initially not assigned to any cluster. -/
def ofLine (stod : String → Option F) (id : ℕ) (line : String) : Option (Point F) := do
  let values ← lineToVec stod line
  return ⟨id, 0, values⟩

/-- The constructor sets `dimensions` to the number of values, and nothing changes either. -/
def getDimensions (p : Point F) : ℕ := p.values.length

def setCluster (p : Point F) (val : ℤ) : Point F := { p with clusterId := val }

def getVal (p : Point F) (pos : ℕ) : Except Stop F := nth p.values pos

end Point

namespace Cluster

def addPoint (c : Cluster F) (p : Point F) : Cluster F :=
  { c with points := c.points ++ [p.setCluster c.clusterId] }

/-- `Cluster(clusterId, centroid)`: the seed is stored as a first point. -/
def ofSeed (clusterId : ℤ) (seed : Point F) : Except Stop (Cluster F) := do
  let centroid ← (List.range seed.getDimensions).foldlM (fun centroid i => do
    let x ← seed.getVal i
    return centroid ++ [x]) []
  return (Cluster.mk clusterId centroid []).addPoint seed

def removeAllPoints (c : Cluster F) : Cluster F := { c with points := [] }

def getSize (c : Cluster F) : ℕ := c.points.length

def getPoint (c : Cluster F) (pos : ℕ) : Except Stop (Point F) := nth c.points pos

def getCentroidByPos (c : Cluster F) (pos : ℕ) : Except Stop F := nth c.centroid pos

def setCentroidByPos (c : Cluster F) (pos : ℕ) (val : F) : Except Stop (Cluster F) := do
  let centroid ← update c.centroid pos fun _ => .ok val
  return { c with centroid := centroid }

end Cluster

/-- The fields of `KMeans` that one run does not change.  Sizes and loop counters are natural
numbers; `K`, `iters` and the ids are integers. -/
structure Parameters where
  K : ℤ
  iters : ℤ
  totalPoints : ℕ
  dimensions : ℕ

structure State (F : Type) where
  points : List (Point F)
  clusters : List (Cluster F)

section Steps

variable [Zero F] [Add F] [Sub F] [CMath F]

def distance (dimensions : ℕ) (c : Cluster F) (p : Point F) : Except Stop F :=
  if dimensions = 1 then do
    let x ← c.getCentroidByPos 0
    let y ← p.getVal 0
    return CMath.abs (x - y)
  else do
    let sum ← (List.range dimensions).foldlM (fun sum j => do
      let x ← c.getCentroidByPos j
      let y ← p.getVal j
      return sum + CMath.pow2 (x - y)) 0
    return CMath.sqrt sum

variable [LT F] [DecidableLT F]

/-- One pass of the search: `min_dist` and `NearestClusterId` after cluster `c`. -/
def nearestPass (dimensions : ℕ) (p : Point F) (v : F × ℤ) (c : Cluster F) :
    Except Stop (F × ℤ) := do
  let dist ← distance dimensions c p
  if dist < v.1 then return (dist, c.clusterId) else return v

def getNearestClusterId (km : Parameters) (clusters : List (Cluster F)) (p : Point F) :
    Except Stop ℤ := do
  let c ← nth clusters 0
  let minDist ← distance km.dimensions c p
  let v ← (List.range' 1 (km.K - 1).toNat).foldlM (fun v (i : ℕ) => do
    let c ← nth clusters i
    nearestPass km.dimensions p v c) (minDist, c.clusterId)
  return v.2

def assignPoint (km : Parameters) (clusters : List (Cluster F)) (points : List (Point F))
    (done : Bool) (i : ℕ) : Except Stop (List (Point F) × Bool) := do
  let p ← nth points i
  let nearestClusterId ← getNearestClusterId km clusters p
  if p.clusterId ≠ nearestClusterId then do
    let points ← update points i fun p => .ok (p.setCluster nearestClusterId)
    return (points, false)
  else return (points, done)

end Steps

def clearClusters (km : Parameters) (clusters : List (Cluster F)) :
    Except Stop (List (Cluster F)) :=
  (List.range km.K.toNat).foldlM (fun clusters (i : ℕ) =>
    update clusters i fun c => .ok c.removeAllPoints) clusters

def reassign (km : Parameters) (points : List (Point F)) (clusters : List (Cluster F)) :
    Except Stop (List (Cluster F)) :=
  (List.range km.totalPoints).foldlM (fun clusters (i : ℕ) => do
    let p ← nth points i
    update clusters (p.clusterId - 1) fun c => .ok (c.addPoint p)) clusters

section Centers

variable [Add F]

def sumPass (j : ℕ) (c : Cluster F) (sum : F) (p : ℕ) : Except Stop (Cluster F × F) := do
  let point ← c.getPoint p
  let x ← point.getVal j
  return (c, sum + x)

variable [Div F] [NatCast F]

def recenter (sum : ℕ → Cluster F → Except Stop (Cluster F × F)) (dimensions : ℕ)
    (c : Cluster F) : Except Stop (Cluster F) :=
  let clusterSize := c.getSize
  (List.range dimensions).foldlM (fun c j =>
    if 0 < clusterSize then do
      let s ← sum j c
      c.setCentroidByPos j (s.2 / (clusterSize : F))
    else return c) c

def recalculate (sum : ℕ → ℕ → Cluster F → Except Stop (Cluster F × F)) (km : Parameters)
    (clusters : List (Cluster F)) : Except Stop (List (Cluster F)) :=
  (List.range km.K.toNat).foldlM (fun clusters (i : ℕ) =>
    update clusters i (recenter (sum i) km.dimensions)) clusters

end Centers

section Iterations

variable [Zero F] [Add F] [Sub F] [Div F] [NatCast F] [LT F] [DecidableLT F] [CMath F]

/-- The body of the `while` loop, with the two loops that carry a directive in the parallel
program as parameters.  The second result is `done`. -/
def iterationWith (assign : State F → Except Stop (List (Point F) × Bool))
    (sum : ℕ → ℕ → Cluster F → Except Stop (Cluster F × F)) (km : Parameters) (s : State F) :
    Except Stop (State F × Bool) := do
  let v ← assign s
  let clusters ← clearClusters km s.clusters
  let clusters ← reassign km v.1 clusters
  let clusters ← recalculate sum km clusters
  return (⟨v.1, clusters⟩, v.2)

def iteration (km : Parameters) (_iter : ℕ) : State F → Except Stop (State F × Bool) :=
  iterationWith
    (fun s => sequentialFor (assignPoint km s.clusters) km.totalPoints s.points true)
    (fun _ j c => sequentialFor (sumPass j) c.getSize c 0) km

/-- The schedules of the parallel loops of one run: of the assignment loop in iteration
`iter`, and of the sum for cluster `i`, coordinate `j` and so many points. -/
structure Schedules where
  assign : ℕ → ℕ → Schedule
  sum : ℕ → ℕ → ℕ → ℕ → Schedule

structure Schedules.Valid (schedules : Schedules) : Prop where
  assign : ∀ iter n, (schedules.assign iter n).Valid n
  sum : ∀ iter i j n, (schedules.sum iter i j n).Valid n

def iterationParallel (schedules : Schedules) (km : Parameters) (iter : ℕ) :
    State F → Except Stop (State F × Bool) :=
  iterationWith
    (fun s => parallelFor (assignPoint km s.clusters) (· && ·) true
      (schedules.assign iter km.totalPoints) s.points true)
    (fun i j c => parallelFor (sumPass j) (· + ·) 0 (schedules.sum iter i j c.getSize) c 0) km

end Iterations

/-- The `while` loop: the state and `done` at the end of every iteration.  The second
argument is `iters - iter`, so that the loop ends there at 0. -/
def whileLoop (iteration : ℕ → State F → Except Stop (State F × Bool)) :
    ℕ → ℕ → State F → Except Stop (List (State F × Bool))
  | iter, 0, s => do
    let r ← iteration iter s
    return [r]
  | iter, left + 1, s => do
    let r ← iteration iter s
    if r.2 then return [r]
    else do
      let rest ← whileLoop iteration (iter + 1) left r.1
      return r :: rest

structure Seeding (F : Type) where
  used : List ℕ
  points : List (Point F)
  clusters : List (Cluster F)
  rand : List ℕ

/-- The inner `while (true)`: the first index that is new, and the remaining results. -/
def drawIndex (totalPoints : ℕ) (used : List ℕ) : List ℕ → Except Stop (ℕ × List ℕ)
  | [] => .error .exhausted
  | r :: rand =>
    if totalPoints = 0 then .error .divByZero
    else if r % totalPoints ∈ used then drawIndex totalPoints used rand
    else .ok (r % totalPoints, rand)

def seedCluster (km : Parameters) (s : Seeding F) (i : ℕ) : Except Stop (Seeding F) := do
  let (index, rand) ← drawIndex km.totalPoints s.used s.rand
  let points ← update s.points index fun p => .ok (p.setCluster i)
  let p ← nth points index
  let cluster ← Cluster.ofSeed i p
  return ⟨s.used ++ [index], points, s.clusters ++ [cluster], rand⟩

def seeding (km : Parameters) (points : List (Point F)) (rand : List ℕ) :
    Except Stop (Seeding F) :=
  (List.range' 1 km.K.toNat).foldlM (seedCluster km) ⟨[], points, [], rand⟩

/-- What the run goes through, and the two files it writes. -/
structure Run (F : Type) where
  seeded : State F
  history : List (State F × Bool)
  pointsFile : List ℤ
  clustersFile : List (List F)

def finalState (seeded : State F) (history : List (State F × Bool)) : State F :=
  (history.getLast?.map Prod.fst).getD seeded

def writePoints (km : Parameters) (points : List (Point F)) : Except Stop (List ℤ) :=
  (List.range km.totalPoints).foldlM (fun file (i : ℕ) => do
    let p ← nth points i
    return file ++ [p.clusterId]) []

def writeCentroid (km : Parameters) (c : Cluster F) : Except Stop (List F) :=
  (List.range km.dimensions).foldlM (fun line j => do
    let x ← c.getCentroidByPos j
    return line ++ [x]) []

def writeClusters (km : Parameters) (clusters : List (Cluster F)) :
    Except Stop (List (List F)) :=
  (List.range km.K.toNat).foldlM (fun file (i : ℕ) => do
    let c ← nth clusters i
    let line ← writeCentroid km c
    return file ++ [line]) []

/-- `KMeans::run` around a given iteration; `rand` is a list of results of `rand()`. -/
def runWith (iteration : Parameters → ℕ → State F → Except Stop (State F × Bool)) (K iters : ℤ)
    (points : List (Point F)) (rand : List ℕ) : Except Stop (Run F) := do
  let first ← nth points 0
  let km : Parameters := ⟨K, iters, points.length, first.getDimensions⟩
  let s ← seeding km points rand
  let seeded : State F := ⟨s.points, s.clusters⟩
  let history ← whileLoop (iteration km) 1 (iters - 1).toNat seeded
  let final := finalState seeded history
  let pointsFile ← writePoints km final.points
  let clustersFile ← writeClusters km final.clusters
  return ⟨seeded, history, pointsFile, clustersFile⟩

section Programs

variable [Zero F] [Add F] [Sub F] [Div F] [NatCast F] [LT F] [DecidableLT F] [CMath F]

/-- `KMeans::run` of `kmean.cpp`. -/
def run : ℤ → ℤ → List (Point F) → List ℕ → Except Stop (Run F) := runWith iteration

/-- `KMeans::run` of `kmean_parallel.cpp`. -/
def runParallel (schedules : Schedules) :
    ℤ → ℤ → List (Point F) → List ℕ → Except Stop (Run F) := runWith (iterationParallel schedules)

/-- The loop of `main` that reads the points; there is no result when parsing throws. -/
def readPoints (stod : String → Option F) : ℕ → List String → Option (List (Point F))
  | _, [] => some []
  | pointId, line :: lines => do
    let p ← Point.ofLine stod pointId line
    let rest ← readPoints stod (pointId + 1) lines
    return p :: rest

/-- `main` for the lines of the input file: no result when it stops before `run`. -/
def main (stod : String → Option F) (lines : List String) (K : ℤ) (rand : List ℕ) :
    Option (Except Stop (Run F)) := do
  let points ← readPoints stod 1 lines
  if (points.length : ℤ) < K then none else some (run K 100 points rand)

end Programs

end ParallelPrograms.KMeans
