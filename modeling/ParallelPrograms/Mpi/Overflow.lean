import ParallelPrograms.Mpi.Outcome

namespace ParallelPrograms.Mpi
open Relation

variable {D : Type*} {dim : ℕ} [Add D] [Mul D] [Zero D] {p : Program D} {mem : ℕ → Memory D dim}

section Follows

variable {σ : Type*} {net : Network ℕ MType (Message D) σ} {f : Task D dim → σ}

theorem reach_offered (mem : ℕ → Memory D dim) (hnet : Follows net p f) (hn : p.size dim ≤ dim)
    (hw : 1 ≤ p.numworkers) : Reach net .rendezvous (quiet (f ∘ startTask p mem))
      (quiet (Function.update (Function.update (f ∘ served p mem 0) 0
        (f ((masterSent p mem 0).offered p.numworkers))) 1
        (f ((masterSent p mem 0).informed p.numworkers (startTask p mem 1))))) := by
  have hsess := header_session (p := p) (t := masterSent p mem 0) (v := startTask p mem 1)
    (by simpa using hw) (by simp [startTask, firstStatement, hw])
  rw [masterSent_dest] at hsess
  have hreach := reach_of_session Nat.zero_ne_one (f ∘ served p mem 0)
    (hsess.lift (Prod.map f f) fun _ _ hs => hs.map hnet.speaks)
  have hbefore : Function.update (Function.update (f ∘ served p mem 0) 0
      (f ((masterSent p mem 0).sendLoop p.numworkers))) 1 (f (startTask p mem 1)) =
        f ∘ served p mem 0 :=
    update_pair_eq (by simp [served]) (by simp [served]) fun _ _ _ => rfl
  simp only [Prod.map] at hreach
  rw [hbefore] at hreach
  exact (reach_served_zero hnet hn).trans hreach

/-- Rank 0 of a pair ends in the call it is at. -/
theorem reach_faulted (hnet : Follows net p f) {c : Config ℕ MType (Message D) σ} {loc : ℕ → σ}
    {t : Task D dim} {v : σ} (hpc : t.pc ≠ .multiply) (ht : t.action p = .compute {t.faulted})
    (h : Reach net .rendezvous c
      (quiet (Function.update (Function.update loc 0 (f t)) 1 v))) :
    ∃ loc t, Reach net .rendezvous c (quiet loc) ∧ loc 0 = f t ∧ t.pc = .fault := by
  have hloc : Function.update (Function.update loc 0 (f t)) 1 v 0 = f t := by
    rw [Function.update_of_ne Nat.zero_ne_one, Function.update_self]
  refine ⟨_, t.faulted, h.tail (quiet_compute (r := 0) ?_), Function.update_self .., rfl⟩
  rw [hloc]
  exact hnet.compute hpc ht

/-- A negative count in the first pass ends rank 0. -/
theorem reach_fault (mem : ℕ → Memory D dim) (hnet : Follows net p f) (hn : p.size dim = dim)
    (hw : 1 ≤ p.numworkers) (hcounts : ¬ p.Counts dim 1) : ∃ loc t,
      Reach net .rendezvous (quiet (f ∘ startTask p mem)) (quiet loc) ∧ loc 0 = f t ∧
        t.pc = .fault := by
  have hoffered := reach_offered mem hnet hn.le hw
  by_cases hA : 0 ≤ count (rowsFor (p.size dim) p.numworkers 1) (p.size dim)
  · have hB : count (p.size dim) (p.size dim) < 0 := by
      by_contra hB
      refine hcounts ⟨fun e he => ?_, not_lt.mp hB, by rw [hn]⟩
      obtain rfl : e = 0 := by omega
      exact ⟨hA, by rw [hn]⟩
    have hfits := offsetAfter_le (p.size dim) (w := p.numworkers) (d := 1) hw hw
    have hsess := matrixA_session (p := p) (t := masterSent p mem 0) (v := startTask p mem 1)
      (by simp [hn]) (by simpa [offsetAfter, hn] using hfits) (by simpa using hA)
      (by simp [startTask, hn])
    rw [masterSent_dest] at hsess
    have hreach := reach_of_session Nat.zero_ne_one (f ∘ served p mem 0)
      (.single (hsess.map hnet.speaks))
    simp only [Prod.map] at hreach
    refine reach_faulted hnet (by simp) ?_ (hoffered.trans hreach)
    exact Task.sendBlock_of_neg (by simpa [Task.offered] using hB)
  · refine reach_faulted hnet (by simp [Task.offered]) ?_ hoffered
    exact Task.sendBlock_of_neg (by simpa [Task.offered] using hA)

end Follows

/-- With one worker, both sides of the block of `matrixA` end. -/
theorem reach_stuck (p : Program D) (mem : ℕ → Memory D dim) (hn : p.size dim = dim)
    (hw : p.numworkers = 1) (hneg : count (rowsFor dim 1 1) dim < 0) : ∃ loc,
      Reach (network p dim) .rendezvous (start p mem) (quiet loc) ∧
      (quiet loc).Stopped (network p dim) ∧ (loc 0).pc = .fault := by
  have hoffered := reach_offered mem follows_self hn.le hw.ge
  let t : Task D dim := (masterSent p mem 0).offered p.numworkers
  let v : Task D dim := (masterSent p mem 0).informed p.numworkers (startTask p mem 1)
  have ht : t.action p = .compute {t.faulted} :=
    Task.sendBlock_of_neg (by simpa [t, Task.offered, hn, hw] using hneg)
  have hv : v.action p = .compute {v.faulted} :=
    if_pos (by simpa [v, Task.informed, startTask, hn, hw] using hneg)
  let loc : ℕ → Task D dim := Function.update (Function.update (served p mem 0) 0 t) 1 v
  have hmaster : Step (network p dim) .rendezvous (quiet loc)
      (quiet (Function.update loc 0 t.faulted)) := quiet_compute ht
  have hworker : Step (network p dim) .rendezvous (quiet (Function.update loc 0 t.faulted))
      (quiet (Function.update (Function.update loc 0 t.faulted) 1 v.faulted)) := quiet_compute hv
  refine ⟨_, (hoffered.tail hmaster).tail hworker, fun rank => ?_, rfl⟩
  show Task.action p _ = .stop
  obtain _ | _ | rank := rank
  · rfl
  · rfl
  · have hpc : (startTask p mem (rank + 2)).pc = .finalize := by
      simp [startTask, firstStatement, hw]
    have hloc : Function.update (Function.update loc 0 t.faulted) 1 v.faulted (rank + 2) =
        startTask p mem (rank + 2) := by
      simp [loc, served]
    simp only [quiet, hloc, Task.action, hpc]

section Zero

variable (hn : p.size dim = dim) (hw : p.numworkers = 1) (hzero : count dim dim = 0)

include hn hw hzero

omit [Add D] [Mul D] [Zero D] in
theorem counts_of_zero : p.Counts dim 1 := by
  refine ⟨fun e he => ?_, ?_⟩
  · obtain rfl : e = 0 := by omega
    rw [hn, hw, rowsFor_single, hzero]
    exact ⟨le_rfl, le_rfl⟩
  · rw [hn, hzero]
    exact ⟨le_rfl, le_rfl⟩

/-- When the count of a single worker wraps around to 0, nothing is sent and nothing returned. -/
theorem settled_matrixC_of_zero : (settled p mem p.numworkers 0).matrixC = (mem 0).matrixC := by
  have hcount : count (rowsFor (p.size dim) 1 1) dim = 0 := by rw [hn, rowsFor_single, hzero]
  have hempty : (workerDone p mem 0).matrixC.slice 0 0 = [] := rfl
  rw [settled_zero, hw]
  simp [masterGathered, Task.gathered, workerDone_rows, workerDone_matrixSize, hcount, hempty, hw,
    masterSent, Task.afterSend, masterFilled, startTask]

end Zero

end ParallelPrograms.Mpi
