import ParallelPrograms.KMeans.PlanarMeans
import ParallelPrograms.Similarity

namespace ParallelPrograms.KMeans.Planar

variable {F : Type} [Field F] [LinearOrder F]

section Linear

variable {T : Similarity F 2} (hT : T.shift = 0)
include hT

end Linear

section Loops

variable [IsStrictOrderedRing F] (T : Similarity F 2)

variable {T} (hT : T.shift = 0)
include hT

end Loops

section Shift

end Shift

end ParallelPrograms.KMeans.Planar
