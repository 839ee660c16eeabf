import ParallelPrograms.Appearances
import ParallelPrograms.BlinkTimer
import ParallelPrograms.CompareTimer
import ParallelPrograms.Confluence
import ParallelPrograms.Consecutive
import ParallelPrograms.Enumeration
import ParallelPrograms.EqualPairs
import ParallelPrograms.FindWays
import ParallelPrograms.FirstMin
import ParallelPrograms.ForkSort
import ParallelPrograms.ForkWork
import ParallelPrograms.Grid
import ParallelPrograms.Int32
import ParallelPrograms.KMeans.Accesses
import ParallelPrograms.KMeans.Arithmetic
import ParallelPrograms.KMeans.Barriers
import ParallelPrograms.KMeans.Bounds
import ParallelPrograms.KMeans.CentroidFile
import ParallelPrograms.KMeans.ClusterFile
import ParallelPrograms.KMeans.Convergence
import ParallelPrograms.KMeans.Cost
import ParallelPrograms.KMeans.Dataset
import ParallelPrograms.KMeans.FixedPoint
import ParallelPrograms.KMeans.Flat
import ParallelPrograms.KMeans.Geometry
import ParallelPrograms.KMeans.Model
import ParallelPrograms.KMeans.Nearest
import ParallelPrograms.KMeans.OpenMP
import ParallelPrograms.KMeans.Padded
import ParallelPrograms.KMeans.Parallel
import ParallelPrograms.KMeans.Partition
import ParallelPrograms.KMeans.Permutation
import ParallelPrograms.KMeans.Planar
import ParallelPrograms.KMeans.PlanarGeometry
import ParallelPrograms.KMeans.PlanarMeans
import ParallelPrograms.KMeans.Rounds
import ParallelPrograms.KMeans.Seeding
import ParallelPrograms.KMeans.Stream
import ParallelPrograms.KMeans.Text
import ParallelPrograms.MatrixMultiply.Model
import ParallelPrograms.MatrixMultiply.OpenCL
import ParallelPrograms.MatrixMultiply.OpenCLHost
import ParallelPrograms.MatrixMultiply.OpenMP
import ParallelPrograms.MatrixMultiply.Pthread
import ParallelPrograms.MatrixMultiply.PthreadNew
import ParallelPrograms.MatrixMultiply.PthreadNewRaces
import ParallelPrograms.MatrixMultiply.PthreadRaces
import ParallelPrograms.MatrixMultiply.PthreadTest
import ParallelPrograms.MatrixMultiply.PthreadTestRows
import ParallelPrograms.MessagePassing
import ParallelPrograms.MotionSensors
import ParallelPrograms.MotionTimer
import ParallelPrograms.Mpi.Blocks
import ParallelPrograms.Mpi.MatMultMpi
import ParallelPrograms.Mpi.MmMpi
import ParallelPrograms.Mpi.MmMpiOcl
import ParallelPrograms.Mpi.MmMpiOmp
import ParallelPrograms.Mpi.MmMpiOpenmp
import ParallelPrograms.Mpi.Model
import ParallelPrograms.Mpi.Outcome
import ParallelPrograms.Mpi.Overflow
import ParallelPrograms.Mpi.Schedule
import ParallelPrograms.Centres
import ParallelPrograms.ParallelFor
import ParallelPrograms.Quicksort.Comparisons
import ParallelPrograms.Quicksort.ComparisonsNew
import ParallelPrograms.Quicksort.Locality
import ParallelPrograms.Quicksort.Model
import ParallelPrograms.Quicksort.Parallel
import ParallelPrograms.Quicksort.ParallelNew
import ParallelPrograms.Quicksort.Partition
import ParallelPrograms.Quicksort.Sequential
import ParallelPrograms.Rounding
import ParallelPrograms.Segment
import ParallelPrograms.Similarity
import ParallelPrograms.Simulation
import ParallelPrograms.StdVector
import ParallelPrograms.Team
import ParallelPrograms.Toggle
import ParallelPrograms.Tokens
import ParallelPrograms.UnlockedCounter
import ParallelPrograms.UnlockedSum
import ParallelPrograms.VectorAdd
import ParallelPrograms.VectorAddOpenMP
import ParallelPrograms.VectorAddPthread
import ParallelPrograms.VectorKernels
import ParallelPrograms.WorkItems
