import ParallelPrograms.Mpi.Outcome

namespace ParallelPrograms.Mpi
open Relation

/-- The program keeps what it prints: with the size `n` entered and `w` workers, no rank
leaves an array or a posted count, the two sides of each message agree on its length, and
behind the receive loop `matrixC` is the product of `matrixA` and `matrixB`. -/
def MatMultCorrect (D : Type*) [Add D] [Mul D] [Zero D] (n w : ℕ) : Prop :=
  ∀ (inputA inputB : ℕ → ℕ → D) (mem : ℕ → Memory D 10) (mode : Mode)
    (c : Config ℕ MType (Message D) (Task D 10)),
    Reach (network (matMultMpi n w inputA inputB) 10) mode
      (start (matMultMpi n w inputA inputB) mem) c →
    (∀ rank, (c.loc rank).pc ≠ .fault) ∧
    (∀ rank, ∀ x ∈ (c.loc rank).receipts, x.length = x.posted) ∧
    ((c.loc 0).pc = .finalize → ∀ i < n, ∀ k < n, (c.loc 0).matrixC.get i k =
      entry n (c.loc 0).matrixA.get (c.loc 0).matrixB.get i k)

section Faults

variable {D : Type*} [Add D] [Mul D] [Zero D] {dim : ℕ} {p : Program D}
  (mem : ℕ → Memory D dim)

/-- A size above the declared one is out of range as soon as the matrices are filled. -/
theorem reach_fault_of_gt (h : dim < p.size dim) : ∃ c,
    Reach (network p dim) .rendezvous (start p mem) c ∧ (c.loc 0).pc = .fault := by
  have hinit : (startTask p mem 0).initialise p = (startTask p mem 0).faulted :=
    if_neg (not_le.mpr h)
  refine ⟨_, .single (quiet_compute (r := 0) rfl), ?_⟩
  simp only [quiet, Function.update_self, hinit]
  rfl

/-- With a size below the declared one the first worker returns rows that are too long for
the receive that rank 0 has posted. -/
theorem reach_fault_of_lt (hn : 1 ≤ p.size dim) (hw : 1 ≤ p.numworkers) (h : p.size dim < dim)
    (hint : dim * dim < 2 ^ 31) :
    ∃ c, Reach (network p dim) .rendezvous (start p mem) c ∧ (c.loc 0).pc = .fault := by
  have hrows : 1 ≤ rowsFor (p.size dim) p.numworkers 1 := rowsFor_one_pos hn
  have hfits : offsetAfter (p.size dim) p.numworkers 1 ≤ p.size dim := offsetAfter_le _ hw hw
  have hserved : Reach (network p dim) .rendezvous (start p mem)
      (quiet (served p mem p.numworkers)) :=
    reach_served h.le (Program.counts_of_lt h.le hint _) le_rfl
  rw [served_numworkers] at hserved
  have hcomputed : Reach (network p dim) .rendezvous (quiet (settled p mem 0)) _ :=
    reach_computed hw
  -- the counts of the two sides
  have hlt : rowsFor (p.size dim) p.numworkers 1 * p.size dim <
      rowsFor (p.size dim) p.numworkers 1 * dim := Nat.mul_lt_mul_of_pos_left h hrows
  have hcells : rowsFor (p.size dim) p.numworkers 1 * dim < 2 ^ 31 :=
    (Nat.mul_le_mul_right dim ((rowsFor_le _ _ le_rfl).trans h.le)).trans_lt hint
  obtain ⟨t', hfault, hsess⟩ := gather_session_fault (p := p) (t := masterGathered p mem 0)
    (v := workerDone p mem 0) (by simpa using hw) (by rw [workerDone_eq])
    (workerDone_matrixSize 0).le
    (by simpa [workerDone_eq, workerTaken_offset, workerTaken_rows, offsetAfter]
      using hfits.trans h.le)
    (by
      rw [workerDone_rows, masterGathered_matrixSize, count_eq (hlt.trans hcells)]
      exact Int.natCast_nonneg _)
    (by
      rw [workerDone_rows, masterGathered_matrixSize, workerDone_matrixSize,
        count_eq (hlt.trans hcells), count_eq hcells]
      exact Int.ofNat_lt.mpr hlt)
  rw [masterGathered_source] at hsess
  have hreach := reach_of_session Nat.zero_ne_one (settled p mem 0) hsess
  have hmaster : Function.update (settled p mem 0) 0
      ((masterGathered p mem 0).gatherLoop p.numworkers) = settled p mem 0 := by
    apply Function.update_eq_self_iff.mpr
    simp [settled]
  rw [hmaster] at hreach
  refine ⟨_, (hserved.trans hcomputed).trans hreach, ?_⟩
  simpa [quiet] using hfault

end Faults

section Correct

variable {D : Type*} [Add D] [Mul D] [Zero D] {n w : ℕ}

theorem not_matMultCorrect_of_ne (hn : 1 ≤ n) (hw : 1 ≤ w) (hne : n ≠ 10) :
    ¬ MatMultCorrect D n w := by
  intro hcorrect
  let mem : ℕ → Memory D 10 := fun _ => ⟨0, 0, 0, 0, ⟨fun _ => 0⟩, ⟨fun _ => 0⟩, ⟨fun _ => 0⟩⟩
  let p : Program D := matMultMpi n w (fun _ _ => 0) fun _ _ => 0
  have hfault : ∃ c, Reach (network p 10) .rendezvous (start p mem) c ∧
      (c.loc 0).pc = .fault := by
    rcases lt_or_gt_of_ne hne with hlt | hgt
    · exact reach_fault_of_lt mem hn hw hlt (by decide)
    · exact reach_fault_of_gt mem hgt
  obtain ⟨c, hreach, hpc⟩ := hfault
  exact (hcorrect _ _ mem _ c hreach).1 0 hpc

theorem matMultCorrect_ten (hw : 1 ≤ w) : MatMultCorrect D 10 w := by
  intro inputA inputB mem mode c h
  have hsize : (matMultMpi 10 w inputA inputB).size 10 = 10 := rfl
  have hint : 10 * 10 < 2 ^ 31 := by decide
  have hcounts : (matMultMpi 10 w inputA inputB).Counts 10 w :=
    Program.counts_of_lt hsize.le hint w
  refine ⟨fun rank hpc => ?_, fun rank x hx => ?_, fun hleft i hi k hk => ?_⟩
  · -- a rank that has stopped is where the complete run leaves it
    have hstop := (network (matMultMpi 10 w inputA inputB) 10).stop_advances.reach
      (reach_end hsize hcounts h) rank (by simp [network, Task.action, hpc])
    have hfin : (c.loc rank).pc = .finalize := by
      rw [← hstop]
      exact settled_finalize
    simp [hpc] at hfin
  · exact (settled_exact hsize x ((receipts_of_reach hsize hcounts h rank).subset hx)).2
  · rw [← settled_of_finalize hsize hcounts h hleft]
    refine (settled_matrixC hsize hint hw hi hk).trans (entry_congr (fun j hj => ?_) fun j hj => ?_)
    · exact (settled_inputs hsize hi hj).1.symm
    · exact (settled_inputs hsize hj hk).2.symm

/-- Two by two on one worker: it returns rows of ten. -/
theorem not_matMultCorrect_two : ¬ MatMultCorrect ℤ 2 1 :=
  not_matMultCorrect_of_ne (by decide) (by decide) (by decide)

/-- The program is right for the declared size and for no other. -/
theorem matMultCorrect_iff (hn : 1 ≤ n) (hw : 1 ≤ w) : MatMultCorrect D n w ↔ n = 10 := by
  constructor
  · intro hcorrect
    by_contra hne
    exact not_matMultCorrect_of_ne hn hw hne hcorrect
  · rintro rfl
    exact matMultCorrect_ten hw

theorem matMultCorrect_iff_four_workers : MatMultCorrect ℤ 10 4 :=
  (matMultCorrect_iff (by decide) (by decide)).mpr rfl

end Correct

end ParallelPrograms.Mpi
