import ParallelPrograms.Mpi.Overflow

namespace ParallelPrograms.Mpi
open Relation

/-- The rows of `matrixC` that the receives of the master have set, in that order. -/
def rowsWritten {D : Type*} {dim : ℕ} (t : Task D dim) : List ℕ :=
  (t.receipts.filter fun x => x.item = .matrixC).flatMap fun x =>
    List.range' x.row (x.length / dim)

variable {D : Type*} {n w : ℕ} {inputA inputB : ℕ → ℕ → D} {mem : ℕ → Memory D n}

theorem mmMpi_size : (mmMpi w inputA inputB).size n = n := rfl

theorem mmMpi_counts (hint : n * n < 2 ^ 31) : (mmMpi w inputA inputB).Counts n w :=
  Program.counts_of_lt mmMpi_size.le hint w

variable [Add D] [Mul D] [Zero D]

theorem mmMpi_masterGathered_rowsWritten (hn : 1 ≤ n) (hint : n * n < 2 ^ 31) (i : ℕ) :
    rowsWritten (masterGathered (mmMpi w inputA inputB) mem i) =
      List.range (offsetAfter n w i) := by
  rw [← rows_flatMap, rowsWritten, masterGathered_receipts, List.filter_flatMap,
    List.flatMap_assoc]
  apply List.flatMap_congr
  intro e he
  simp [Program.size, mmMpi, count_rows hint w (Nat.le_add_left 1 e), Nat.mul_div_cancel _ hn]

/-- Once the master has left its receive loop, its `matrixC` is the product, and the rows
were set once each and in order. -/
theorem mmMpi_product (hn : 1 ≤ n) (hint : n * n < 2 ^ 31) (hw : 1 ≤ w)
    (inputA inputB : ℕ → ℕ → D) (mem : ℕ → Memory D n) {mode : Mode}
    {c : Config ℕ MType (Message D) (Task D n)}
    (h : Reach (network (mmMpi w inputA inputB) n) mode (start (mmMpi w inputA inputB) mem) c)
    (hleft : (c.loc 0).pc = .finalize) :
    (∀ i < n, ∀ k < n, (c.loc 0).matrixC.get i k = entry n inputA inputB i k) ∧
      rowsWritten (c.loc 0) = List.range n := by
  rw [← settled_of_finalize mmMpi_size (mmMpi_counts hint) h hleft]
  constructor
  · intro i hi k hk
    exact settled_matrixC mmMpi_size hint hw hi hk
  · have hrows : rowsWritten (masterGathered (mmMpi w inputA inputB) mem w) =
        List.range (offsetAfter n w w) := mmMpi_masterGathered_rowsWritten hn hint w
    rw [settled_zero]
    rwa [offsetAfter_numworkers n hw] at hrows

/-- Three workers share a product of size 2: the third gets no row. -/
theorem mmMpi_product_three_workers :
    let p := mmMpi 3 (fun i j => i + 2 * j) (fun i j => i * j + 1)
    let mem : ℕ → Memory ℕ 2 := fun _ => ⟨7, 7, 7, 7, ⟨fun _ => 7⟩, ⟨fun _ => 7⟩, ⟨fun _ => 7⟩⟩
    (settled p mem 3 0).matrixC.get 1 1 = 7 ∧ rowsWritten (settled p mem 3 0) = [0, 1] := by
  intro p mem
  have h := mmMpi_product (w := 3) (by decide) (by decide) (by decide) (fun i j => i + 2 * j)
    (fun i j => i * j + 1) mem (c := quiet (settled p mem 3))
    (reach_settled rfl (mmMpi_counts (by decide)) le_rfl) settled_finalize
  exact ⟨h.1 1 (by decide) 1 (by decide), h.2⟩

/-- `65536 * 65536` wraps around to 0: every block is empty, and `matrixC` stays as it was. -/
theorem mmMpi_product_wrapped :
    let p := mmMpi 1 (fun _ _ => 0) (fun _ _ => 0)
    let mem : ℕ → Memory ℕ 65536 := fun _ =>
      ⟨7, 7, 7, 7, ⟨fun _ => 7⟩, ⟨fun _ => 7⟩, ⟨fun _ => 7⟩⟩
    ∃ c, Reach (network p 65536) .rendezvous (start p mem) c ∧ (c.loc 0).pc = .finalize ∧
      (c.loc 0).matrixC.get 0 0 = 7 ∧ entry 65536 p.inputA p.inputB 0 0 = 0 := by
  intro p mem
  have hzero : count 65536 65536 = 0 := by decide
  have hC : (settled p mem 1 0).matrixC = (mem 0).matrixC := settled_matrixC_of_zero rfl rfl hzero
  have hentry : entry 65536 p.inputA p.inputB 0 0 = 0 := by simp [entry, p, mmMpi]
  exact ⟨_, reach_settled rfl (counts_of_zero rfl rfl hzero) le_rfl, settled_finalize,
    congrArg (fun g : Grid ℕ 65536 => g.get 0 0) hC, hentry⟩

/-- In every reachable state either all ranks are at `MPI_Finalize` or some rank can go on.
When all are, no message is left, the receives of each rank were those of the program, and
up to then every one matched a message from its own variable that was not too long. -/
theorem mmMpi_no_deadlock (hint : n * n < 2 ^ 31) (inputA inputB : ℕ → ℕ → D)
    (mem : ℕ → Memory D n) {mode : Mode} {c : Config ℕ MType (Message D) (Task D n)}
    (h : Reach (network (mmMpi w inputA inputB) n) mode (start (mmMpi w inputA inputB) mem) c) :
    ((∀ rank ≤ w, (c.loc rank).pc = .finalize) ∨
      ∃ d, Step (network (mmMpi w inputA inputB) n) mode c d) ∧
    ((∀ rank ≤ w, (c.loc rank).pc = .finalize) → (∀ key, c.channel key = []) ∧
      ∀ rank ≤ w, (c.loc rank).receipts.map Receipt.item = expected w rank) ∧
    ∀ rank, ∀ x ∈ (c.loc rank).receipts, x.sent = x.item ∧ x.length ≤ x.posted := by
  refine ⟨?_, ?_, ?_⟩
  · rcases Reach.progress settled_stopped
      (reach_settled mmMpi_size (mmMpi_counts hint) le_rfl) h with rfl | hstep
    · exact .inl fun rank _ => settled_finalize
    · exact .inr hstep
  · intro hall
    obtain rfl := eq_settled_of_finalize mmMpi_size (mmMpi_counts hint) h hall
    exact ⟨fun key => rfl, fun rank hrank => settled_items hrank⟩
  · intro rank x hx
    obtain ⟨hsent, hlen⟩ :=
      settled_exact mmMpi_size x
        ((receipts_of_reach mmMpi_size (mmMpi_counts hint) h rank).subset hx)
    exact ⟨hsent, hlen.le⟩

theorem mmMpi_no_deadlock_three_workers :
    let p := mmMpi 3 (fun i j => i + 2 * j) (fun i j => i * j + 1)
    let mem : ℕ → Memory ℕ 2 := fun _ => ⟨7, 7, 7, 7, ⟨fun _ => 7⟩, ⟨fun _ => 7⟩, ⟨fun _ => 7⟩⟩
    (settled p mem 3 2).receipts.map Receipt.item = [.offset, .rows, .matrixA, .matrixB] := by
  intro p mem
  have hreach : Reach (network p 2) .rendezvous (start p mem) (quiet (settled p mem 3)) :=
    reach_settled rfl (mmMpi_counts (by decide)) le_rfl
  have h := mmMpi_no_deadlock (by decide) (fun i j => i + 2 * j) (fun i j => i * j + 1) mem hreach
  exact (h.2.1 fun rank _ => settled_finalize).2 2 (by decide)

/-- The count `46341 * 46341` is negative: rank 0 and its only worker end in their calls. -/
theorem mmMpi_stuck :
    let p := mmMpi 1 (fun _ _ => 0) (fun _ _ => 0)
    let mem : ℕ → Memory ℕ 46341 := fun _ =>
      ⟨7, 7, 7, 7, ⟨fun _ => 7⟩, ⟨fun _ => 7⟩, ⟨fun _ => 7⟩⟩
    ∃ c, Reach (network p 46341) .rendezvous (start p mem) c ∧ (c.loc 0).pc = .fault ∧
      ¬ ∃ d, Step (network p 46341) .rendezvous c d := by
  intro p mem
  obtain ⟨loc, hreach, hstopped, hpc⟩ := reach_stuck p mem rfl rfl (by decide)
  exact ⟨_, hreach, hpc, fun ⟨d, hd⟩ => hstopped.final d hd⟩

end ParallelPrograms.Mpi
