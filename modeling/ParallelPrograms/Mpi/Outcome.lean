import ParallelPrograms.Mpi.Schedule

namespace ParallelPrograms.Mpi
open Relation

variable {D : Type*} {dim : ℕ}

@[simp] theorem Task.gatherLoop_receipts (w : ℕ) (t : Task D dim) :
    (t.gatherLoop w).receipts = t.receipts := by
  unfold Task.gatherLoop
  split_ifs <;> rfl

@[simp] theorem Task.sendLoop_receipts (w : ℕ) (t : Task D dim) :
    (t.sendLoop w).receipts = t.receipts := by
  unfold Task.sendLoop
  split_ifs
  · rfl
  · exact Task.gatherLoop_receipts w _

theorem Task.receiveInt_receipts {t : Task D dim} {item : Item}
    {assign : ℕ → Task D dim → Task D dim} (h : ∀ v t, (assign v t).receipts = t.receipts)
    (m : Message D) :
    t.receipts <+: (t.receiveInt item assign m).receipts := by
  unfold Task.receiveInt
  split
  · rw [h]
    exact List.prefix_append _ _
  · exact List.prefix_rfl

theorem Task.receiveBlock_receipts {t : Task D dim} {item : Item} {posted row : ℕ}
    {target : Grid D dim} {assign : Grid D dim → Task D dim → Task D dim}
    (h : ∀ g t, (assign g t).receipts = t.receipts) (m : Message D) :
    t.receipts <+: (t.receiveBlock item posted row target assign m).receipts := by
  unfold Task.receiveBlock
  split
  · exact List.prefix_rfl
  · split_ifs
    · split
      · rw [h]
        exact List.prefix_append _ _
      · exact List.prefix_rfl
    · exact List.prefix_rfl

theorem Task.sendBlock_send {t next t' : Task D dim} {dest dest' : ℕ} {mtype tag : MType}
    {item : Item} {row : ℕ} {count : ℤ} {source : Grid D dim} {m : Message D}
    (h : t.sendBlock dest mtype item row count source next = .send dest' tag m t') :
    t' = next := by
  unfold Task.sendBlock at h
  split_ifs at h
  split at h
  · cases h
    rfl
  · cases h

theorem Task.sendBlock_recv {t next : Task D dim} {dest source' : ℕ} {mtype tag : MType}
    {item : Item} {row : ℕ} {count : ℤ} {source : Grid D dim} {k : Message D → Task D dim} :
    t.sendBlock dest mtype item row count source next ≠ .recv source' tag k := by
  unfold Task.sendBlock
  split_ifs
  · simp
  · split <;> simp

section Receive

variable {t : Task D dim} {source : ℕ} {mtype : MType} {item : Item} {count : ℤ} {row : ℕ}
  {target : Grid D dim} {assign : Grid D dim → Task D dim → Task D dim}

theorem Task.recvBlock_send {dest : ℕ} {tag : MType} {m : Message D} {t' : Task D dim} :
    t.recvBlock source mtype item count row target assign ≠ .send dest tag m t' := by
  unfold Task.recvBlock
  split_ifs <;> simp

theorem Task.recvBlock_recv {source' : ℕ} {tag : MType} {k : Message D → Task D dim}
    (h : t.recvBlock source mtype item count row target assign = .recv source' tag k) :
    k = t.receiveBlock item count.toNat row target assign := by
  unfold Task.recvBlock at h
  split_ifs at h
  cases h
  rfl

end Receive

variable [Add D] [Mul D] [Zero D]

theorem receipts_advance (p : Program D) (dim : ℕ) :
    (network p dim).Advances fun _ s s' => s.receipts <+: s'.receipts where
  refl _ _ := List.prefix_rfl
  trans := List.IsPrefix.trans
  compute {_ s _ s'} ha hs := by
    -- the statements that compute, and those that fail
    cases hpc : s.pc <;> simp only [network, Task.action, hpc] at ha
    case initialise =>
      obtain rfl : s' = s.initialise p := by simpa [← Action.compute.inj ha] using hs
      unfold Task.initialise
      dsimp only
      split_ifs
      · simp
      · exact List.prefix_rfl
    case multiply =>
      obtain rfl : s' = s.multiply := by simpa [← Action.compute.inj ha] using hs
      unfold Task.multiply
      split_ifs
      · exact List.prefix_rfl
      · exact List.prefix_rfl
    case sendA | sendB | returnC =>
      obtain rfl : s' = s.faulted := by simpa [Task.sendBlock_compute ha] using hs
      exact List.prefix_rfl
    case gatherC | takeA | takeB =>
      obtain rfl : s' = s.faulted := by simpa [Task.recvBlock_compute ha] using hs
      exact List.prefix_rfl
    all_goals cases ha
  send {_ s dest tag m s'} ha := by
    cases hpc : s.pc <;> simp only [network, Task.action, hpc] at ha
    case sendA | sendB | returnC =>
      obtain rfl := Task.sendBlock_send ha
      simp
    case gatherC | takeA | takeB => exact absurd ha Task.recvBlock_send
    all_goals
      cases ha
      try exact List.prefix_rfl
  recv {_ s source tag k} ha m := by
    cases hpc : s.pc <;> simp only [network, Task.action, hpc] at ha
    case sendA | sendB | returnC => exact absurd ha Task.sendBlock_recv
    case gatherOffset | gatherRows | takeOffset | takeRows =>
      cases ha
      apply Task.receiveInt_receipts
      intro _ _
      rfl
    case gatherC | takeA | takeB =>
      obtain rfl := Task.recvBlock_recv ha
      apply Task.receiveBlock_receipts
      intro _ _
      simp
    all_goals cases ha

section Agree

variable {p : Program D} {mem : ℕ → Memory D dim} {mode : Mode}
  {c : Config ℕ MType (Message D) (Task D dim)}

theorem reach_end (hn : p.size dim = dim) (hcounts : p.Counts dim p.numworkers)
    (h : Reach (network p dim) mode (start p mem) c) :
    Reach (network p dim) mode c (quiet (settled p mem p.numworkers)) :=
  Reach.completes settled_stopped (reach_settled hn hcounts le_rfl) h

/-- A rank that has come to `MPI_Finalize` has there the variables of the complete run. -/
theorem settled_of_finalize (hn : p.size dim = dim) (hcounts : p.Counts dim p.numworkers)
    (h : Reach (network p dim) mode (start p mem) c) {rank : ℕ}
    (hpc : (c.loc rank).pc = .finalize) : settled p mem p.numworkers rank = c.loc rank := by
  apply (network p dim).stop_advances.reach (reach_end hn hcounts h) rank
  show Task.action p (c.loc rank) = .stop
  simp [Task.action, hpc]

/-- Numbers above `numworkers` name no rank. -/
theorem finalize_of_lt (h : Reach (network p dim) mode (start p mem) c) {rank : ℕ}
    (hrank : p.numworkers < rank) : (c.loc rank).pc = .finalize := by
  have hstart : (startTask p mem rank).pc = .finalize := by
    have h0 : rank ≠ 0 := by omega
    simp [startTask, firstStatement, h0, not_le.mpr hrank]
  have hsame : c.loc rank = startTask p mem rank := by
    apply (network p dim).stop_advances.reach h rank
    show Task.action p (startTask p mem rank) = .stop
    simp [Task.action, hstart]
  rw [hsame, hstart]

theorem eq_settled_of_finalize (hn : p.size dim = dim) (hcounts : p.Counts dim p.numworkers)
    (h : Reach (network p dim) mode (start p mem) c)
    (hpc : ∀ rank ≤ p.numworkers, (c.loc rank).pc = .finalize) :
    c = quiet (settled p mem p.numworkers) := by
  have hstopped : c.Stopped (network p dim) := by
    intro rank
    show Task.action p (c.loc rank) = .stop
    rcases le_or_gt rank p.numworkers with hle | hgt
    · simp [Task.action, hpc rank hle]
    · simp [Task.action, finalize_of_lt h hgt]
  exact (hstopped.final.eq_of_reach (reach_end hn hcounts h)).symm

theorem receipts_of_reach (hn : p.size dim = dim) (hcounts : p.Counts dim p.numworkers)
    (h : Reach (network p dim) mode (start p mem) c) (rank : ℕ) :
    (c.loc rank).receipts <+: (settled p mem p.numworkers rank).receipts :=
  (receipts_advance p dim).reach (reach_end hn hcounts h) rank

theorem settled_zero (p : Program D) (mem : ℕ → Memory D dim) :
    settled p mem p.numworkers 0 =
      { masterGathered p mem p.numworkers with pc := .finalize } := by
  simp [settled, Task.gatherLoop]

theorem settled_succ (p : Program D) (mem : ℕ → Memory D dim) {e : ℕ} (he : e < p.numworkers) :
    settled p mem p.numworkers (e + 1) = { workerDone p mem e with pc := .finalize } := by
  simp [settled, Nat.succ_le_of_lt he]

theorem settled_matrixC (hn : p.size dim = dim) (hint : dim * dim < 2 ^ 31)
    (hw : 1 ≤ p.numworkers) {i k : ℕ} (hi : i < dim) (hk : k < dim) :
    (settled p mem p.numworkers 0).matrixC.get i k = entry dim p.inputA p.inputB i k := by
  rw [settled_zero]
  apply masterGathered_matrixC hn hint le_rfl _ hk
  rwa [offsetAfter_numworkers dim hw]

/-- The master's inputs are still in place at the end. -/
theorem settled_inputs (hn : p.size dim = dim) {i j : ℕ} (hi : i < dim) (hj : j < dim) :
    (settled p mem p.numworkers 0).matrixA.get i j = p.inputA i j ∧
      (settled p mem p.numworkers 0).matrixB.get i j = p.inputB i j := by
  have hkept : ∀ k, (masterGathered p mem k).matrixA = (masterFilled p mem).matrixA ∧
      (masterGathered p mem k).matrixB = (masterFilled p mem).matrixB := by
    intro k
    induction k with
    | zero => simp [masterGathered]
    | succ k ih => simpa [masterGathered, Task.gathered] using ih
  obtain ⟨hA, hB⟩ := hkept p.numworkers
  rw [settled_zero]
  simp only [hA, hB, masterFilled, hn]
  exact ⟨fill_fst_get _ _ _ _ le_rfl hi hj, fill_snd_get _ _ _ _ le_rfl hi hj⟩

/-- The variables named by the receives of rank `rank`, in program order. -/
def expected (numworkers rank : ℕ) : List Item :=
  if rank = 0 then (List.range numworkers).flatMap fun _ => [.offset, .rows, .matrixC]
  else [.offset, .rows, .matrixA, .matrixB]

theorem settled_items {rank : ℕ} (hrank : rank ≤ p.numworkers) :
    (settled p mem p.numworkers rank).receipts.map Receipt.item =
      expected p.numworkers rank := by
  cases rank with
  | zero =>
    simp [settled_zero, masterGathered_receipts, expected, List.map_flatMap]
  | succ e =>
    simp [settled_succ p mem hrank, workerDone_receipts, expected]

/-- Every receive of the complete run takes a message from the variable it names, of
exactly the posted length. -/
theorem settled_exact (hn : p.size dim = dim) {rank : ℕ} :
    ∀ x ∈ (settled p mem p.numworkers rank).receipts, x.sent = x.item ∧ x.length = x.posted := by
  intro x hx
  cases rank with
  | zero =>
    rw [settled_zero, masterGathered_receipts, hn] at hx
    simp only [List.mem_flatMap, List.mem_cons, List.not_mem_nil, or_false] at hx
    obtain ⟨e, -, rfl | rfl | rfl⟩ := hx <;> exact ⟨rfl, rfl⟩
  | succ e =>
    by_cases he : e < p.numworkers
    · rw [settled_succ p mem he, workerDone_receipts, hn] at hx
      simp only [List.mem_cons, List.not_mem_nil, or_false] at hx
      rcases hx with rfl | rfl | rfl | rfl <;> exact ⟨rfl, rfl⟩
    · have hle : ¬ e + 1 ≤ p.numworkers := by omega
      simp [settled, hle, startTask] at hx

end Agree

end ParallelPrograms.Mpi
