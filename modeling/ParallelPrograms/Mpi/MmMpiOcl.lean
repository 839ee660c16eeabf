import ParallelPrograms.Mpi.MmMpiOmp

namespace ParallelPrograms.Mpi.Ocl
open Relation

variable {D : Type*} {dim : ℕ}

section Network

variable [Add D] [Mul D] [Zero D]

/-- Execution of the statement at `pc` in `mm_mpi_ocl.cpp`: the loops of a worker are a comment. -/
def action (p : Program D) (t : Task D dim) : Action ℕ MType (Message D) (Task D dim) :=
  if t.pc = .multiply then .compute {{ t with pc := .returnOffset }} else t.action p

theorem action_multiply {p : Program D} {t : Task D dim} (h : t.pc = .multiply) :
    action p t = .compute {{ t with pc := .returnOffset }} := if_pos h

theorem action_of_ne {p : Program D} {t : Task D dim} (h : t.pc ≠ .multiply) :
    action p t = t.action p := if_neg h

def network (p : Program D) (dim : ℕ) : Network ℕ MType (Message D) (Task D dim) where
  action _ t := action p t
  compute_join {_ t _ _ _} h hx hy := by
    by_cases hpc : t.pc = .multiply
    · rw [action_multiply hpc] at h
      obtain rfl := Action.compute.inj h
      exact .inl (hx.trans hy.symm)
    · rw [action_of_ne hpc] at h
      obtain ⟨t', rfl⟩ := Task.action_compute h
      exact .inl (hx.trans hy.symm)

theorem follows (p : Program D) (dim : ℕ) : Follows (network p dim) p id := by
  intro r t hpc
  have hself := follows_self (p := p) r t hpc
  exact (action_of_ne hpc).trans hself

end Network

section Run

variable (p : Program D) (mem : ℕ → Memory D dim)

def workerKept (e : ℕ) : Task D dim := { workerTaken p mem e with pc := .returnOffset }

def masterGathered : ℕ → Task D dim
  | 0 => { masterSent p mem p.numworkers with source := 1 }
  | i + 1 => (masterGathered i).gathered (workerKept p mem i)

def settled (i : ℕ) (rank : ℕ) : Task D dim :=
  if rank = 0 then (masterGathered p mem i).gatherLoop p.numworkers
  else if rank ≤ i then { workerKept p mem (rank - 1) with pc := .finalize }
  else if rank ≤ p.numworkers then workerTaken p mem (rank - 1) else startTask p mem rank

variable {p mem}

@[simp] theorem masterGathered_source (i : ℕ) : (masterGathered p mem i).source = i + 1 := by
  induction i with
  | zero => rfl
  | succ i ih => simp [masterGathered, Task.gathered, ih]

@[simp] theorem masterGathered_matrixSize (i : ℕ) :
    (masterGathered p mem i).matrixSize = p.size dim := by
  induction i with
  | zero => simp [masterGathered]
  | succ i ih => simpa [masterGathered, Task.gathered] using ih

theorem served_numworkers : served p mem p.numworkers = settled p mem 0 := by
  funext rank
  by_cases h0 : rank = 0
  · subst h0
    simp [served, settled, masterGathered, Task.sendLoop]
  · simp [served, settled, h0]

theorem settled_finalize {rank : ℕ} : (settled p mem p.numworkers rank).pc = .finalize := by
  by_cases h0 : rank = 0
  · subst h0
    simp [settled, Task.gatherLoop]
  · by_cases h : rank ≤ p.numworkers
    · simp [settled, h0, h]
    · simp [settled, h0, h, startTask, firstStatement]

theorem masterGathered_matrixC (hn : p.size dim = dim) (hint : dim * dim < 2 ^ 31) {i : ℕ}
    (hi : i ≤ p.numworkers) {e r k : ℕ} (he : e < i) (hr : r < rowsFor dim p.numworkers (e + 1))
    (hk : k < dim) :
    (masterGathered p mem i).matrixC.get (offsetAfter dim p.numworkers e + r) k =
      (mem (e + 1)).matrixC.get r k := by
  induction i with
  | zero => exact absurd he (Nat.not_lt_zero e)
  | succ i ih =>
    have hC : (masterGathered p mem (i + 1)).matrixC =
        (masterGathered p mem i).matrixC.overwrite (offsetAfter dim p.numworkers i)
          ((mem (i + 1)).matrixC.slice 0 (rowsFor dim p.numworkers (i + 1) * dim)) := by
      simp [masterGathered, Task.gathered, workerKept, workerTaken, Task.taken, startTask, hn,
        count_rows hint _ (Nat.le_add_left 1 i)]
    rw [hC]
    rcases Nat.lt_succ_iff_lt_or_eq.mp he with hlt | rfl
    · -- the rows of an earlier worker are in front of the offset
      have hfront : offsetAfter dim p.numworkers e + r < offsetAfter dim p.numworkers i := by
        have hmono := offsetAfter_mono dim p.numworkers (Nat.succ_le_of_lt hlt)
        rw [offsetAfter] at hmono
        omega
      rw [Grid.overwrite_get_lt _ _ hk hfront]
      exact ih (by omega) hlt
    · rw [Grid.overwrite_slice_get _ _ hr hk, Nat.zero_add]

variable [Add D] [Mul D] [Zero D]

theorem reach_kept {i : ℕ} (hi : i < p.numworkers) :
    Reach (network p dim) .rendezvous (quiet (settled p mem i))
      (quiet (Function.update (settled p mem i) (i + 1) (workerKept p mem i))) := by
  have hs : settled p mem i (i + 1) = workerTaken p mem i := by
    simp [settled, Nat.succ_le_of_lt hi]
  have hpc : (settled p mem i (i + 1)).pc = .multiply := by rw [hs]; rfl
  refine .single (quiet_compute ?_)
  rw [workerKept, ← hs]
  exact action_multiply hpc

theorem reach_settled (hn : p.size dim = dim) (hcounts : p.Counts dim p.numworkers) {i : ℕ}
    (hi : i ≤ p.numworkers) :
    Reach (network p dim) .rendezvous (start p mem) (quiet (settled p mem i)) := by
  induction i with
  | zero =>
    rw [← served_numworkers]
    exact reach_served_map (follows p dim) hn.le hcounts le_rfl
  | succ i ih =>
    have hfits := offsetAfter_le (p.size dim) (w := p.numworkers) (d := i + 1) (by omega) hi
    have hsize : (workerKept p mem i).matrixSize = dim := rfl
    have hA : 0 ≤ count (workerKept p mem i).rows dim := by
      simpa [workerKept, workerTaken_rows, hn] using (hcounts.rows i hi).1
    have hsess := gather_session (p := p) (t := masterGathered p mem i) (v := workerKept p mem i)
      (by simpa using hi) rfl hsize.le
      (by simpa [workerKept, workerTaken_offset, workerTaken_rows, offsetAfter, hn] using hfits)
      hA (by simp [hsize, hn])
    rw [masterGathered_source] at hsess
    have hreach := reach_of_session (Nat.succ_ne_zero i).symm (settled p mem i)
      (hsess.lift _ fun _ _ hs => hs.map (follows p dim).speaks)
    simp only [Prod.map, id] at hreach
    have hbefore : Function.update (Function.update (settled p mem i) 0
        ((masterGathered p mem i).gatherLoop p.numworkers)) (i + 1) (workerKept p mem i) =
          Function.update (settled p mem i) (i + 1) (workerKept p mem i) := by
      apply update_pair_eq (by simp [settled]) (by simp)
      intro rank _ h
      rw [Function.update_of_ne h]
    have hafter : Function.update (Function.update (settled p mem i) 0
        ((masterGathered p mem (i + 1)).gatherLoop p.numworkers)) (i + 1)
          { workerKept p mem i with pc := .finalize } = settled p mem (i + 1) := by
      apply update_pair_eq (by simp [settled]) (by simp [settled])
      intro rank h0 h
      have hle : rank ≤ i + 1 ↔ rank ≤ i := by omega
      simp [settled, h0, hle]
    refine ((ih (by omega)).trans (reach_kept hi)).trans ?_
    rw [hbefore] at hreach
    rw [← hafter]
    exact hreach

theorem settled_stopped : (quiet (settled p mem p.numworkers)).Stopped (network p dim) := by
  intro rank
  have hpc : (settled p mem p.numworkers rank).pc = .finalize := settled_finalize
  have hne : (settled p mem p.numworkers rank).pc ≠ .multiply := by simp [hpc]
  exact (action_of_ne hne).trans (by simp [Task.action, hpc])

end Run

section Result

variable [Add D] [Mul D] [Zero D] {n w : ℕ}

theorem exists_worker (hw : 1 ≤ w) {i : ℕ} (hi : i < n) :
    ∃ e < w, ∃ r < rowsFor n w (e + 1), offsetAfter n w e + r = i := by
  have hmem : i ∈ List.range (offsetAfter n w w) := by
    rwa [offsetAfter_numworkers n hw, List.mem_range]
  rw [← rows_flatMap, List.mem_flatMap] at hmem
  obtain ⟨e, he, hrow⟩ := hmem
  obtain ⟨hle, hlt⟩ := List.mem_range'_1.mp hrow
  exact ⟨e, List.mem_range.mp he, i - offsetAfter n w e, by omega, by omega⟩

theorem matrixC_of_finalize (hint : n * n < 2 ^ 31) {inputA inputB : ℕ → ℕ → D}
    {mem : ℕ → Memory D n} {mode : Mode} {c : Config ℕ MType (Message D) (Task D n)}
    (h : Reach (network (mmMpi w inputA inputB) n) mode (start (mmMpi w inputA inputB) mem) c)
    (hleft : (c.loc 0).pc = .finalize) {e r k : ℕ} (he : e < w) (hr : r < rowsFor n w (e + 1))
    (hk : k < n) :
    (c.loc 0).matrixC.get (offsetAfter n w e + r) k = (mem (e + 1)).matrixC.get r k := by
  let p : Program D := mmMpi w inputA inputB
  have hend : Reach (network p n) mode c (quiet (settled p mem w)) :=
    Reach.completes settled_stopped (reach_settled mmMpi_size (mmMpi_counts hint) le_rfl) h
  have hstop : action p (c.loc 0) = .stop :=
    (action_of_ne (by simp [hleft])).trans (by simp [Task.action, hleft])
  have hsame : settled p mem w 0 = c.loc 0 := (network p n).stop_advances.reach hend 0 hstop
  have hzero : settled p mem w 0 = (masterGathered p mem w).gatherLoop w := rfl
  have hC : (settled p mem w 0).matrixC = (masterGathered p mem w).matrixC := by
    rw [hzero, Task.gatherLoop]
    split_ifs <;> rfl
  rw [← hsame, hC]
  exact masterGathered_matrixC (p := p) mmMpi_size hint le_rfl he hr hk

/-- No run goes on for ever, every run can come to its end, and when rank 0 has left its receive
loop its `matrixC` holds the rows that the workers' own arrays held at the start: nothing of
`matrixA` and `matrixB`, so that any other run from the same arrays ends in the same rows. -/
theorem mmMpiOcl_result (hint : n * n < 2 ^ 31) (hw : 1 ≤ w) (inputA inputB : ℕ → ℕ → D)
    (mem : ℕ → Memory D n) {mode : Mode} {c : Config ℕ MType (Message D) (Task D n)}
    (h : Reach (network (mmMpi w inputA inputB) n) mode (start (mmMpi w inputA inputB) mem) c) :
    (¬ ∃ run : ℕ → Config ℕ MType (Message D) (Task D n),
      run 0 = start (mmMpi w inputA inputB) mem ∧
        ∀ i, Step (network (mmMpi w inputA inputB) n) mode (run i) (run (i + 1))) ∧
    (∃ d, Reach (network (mmMpi w inputA inputB) n) mode c d ∧ (d.loc 0).pc = .finalize ∧
      ∀ key, d.channel key = []) ∧
    ((c.loc 0).pc = .finalize →
      (∀ e < w, ∀ r < rowsFor n w (e + 1), ∀ k < n,
        (c.loc 0).matrixC.get (offsetAfter n w e + r) k = (mem (e + 1)).matrixC.get r k) ∧
      ∀ (inputA' inputB' : ℕ → ℕ → D) (mode' : Mode)
        (c' : Config ℕ MType (Message D) (Task D n)),
        Reach (network (mmMpi w inputA' inputB') n) mode' (start (mmMpi w inputA' inputB') mem)
          c' → (c'.loc 0).pc = .finalize →
        ∀ i < n, ∀ k < n, (c.loc 0).matrixC.get i k = (c'.loc 0).matrixC.get i k) := by
  have hrun : Reach (network (mmMpi w inputA inputB) n) .rendezvous
      (start (mmMpi w inputA inputB) mem) (quiet (settled (mmMpi w inputA inputB) mem w)) :=
    reach_settled mmMpi_size (mmMpi_counts hint) le_rfl
  refine ⟨no_infinite_run (Reach.terminates settled_stopped hrun mode),
    ⟨_, Reach.completes settled_stopped hrun h, settled_finalize, fun _ => rfl⟩,
    fun hleft => ⟨fun e he r hr k hk => matrixC_of_finalize hint h hleft he hr hk, ?_⟩⟩
  intro inputA' inputB' mode' c' h' hleft' i hi k hk
  obtain ⟨e, he, r, hr, rfl⟩ := exists_worker hw hi
  rw [matrixC_of_finalize hint h hleft he hr hk, matrixC_of_finalize hint h' hleft' he hr hk]

theorem mmMpiOcl_result_two :
    let p := mmMpi 2 (fun i j => i + 2 * j) (fun i j => i * j + 1)
    let mem : ℕ → Memory ℕ 2 := fun rank =>
      ⟨0, 0, 0, 0, ⟨fun _ => 0⟩, ⟨fun _ => 0⟩, ⟨fun _ => 6 + rank⟩⟩
    (settled p mem 2 0).matrixC.get 1 1 = 8 := by
  intro p mem
  have hreach : Reach (network p 2) .rendezvous (start p mem) (quiet (settled p mem 2)) :=
    reach_settled rfl (mmMpi_counts (by decide)) le_rfl
  have h := mmMpiOcl_result (by decide) (by decide) (fun i j => i + 2 * j) (fun i j => i * j + 1)
    mem hreach
  exact (h.2.2 settled_finalize).1 1 (by decide) 0 (by decide) 1 (by decide)

end Result

end ParallelPrograms.Mpi.Ocl
