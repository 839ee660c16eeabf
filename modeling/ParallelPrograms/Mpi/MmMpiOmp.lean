import ParallelPrograms.Mpi.MmMpi
import ParallelPrograms.Team
import ParallelPrograms.Simulation

namespace ParallelPrograms.Mpi.Omp
open Relation

/-- The assignments of the loop: `matrixC[i][k] = 0.0`, and one pass of the loop over `j`. -/
inductive Update where
  | clear (i k : ℕ)
  | add (i j k : ℕ)

namespace Update

def row : Update → ℕ
  | clear i _ => i
  | add i _ _ => i

def column : Update → ℕ
  | clear _ k => k
  | add _ _ k => k

variable {D : Type*} {dim : ℕ}

def apply [Add D] [Mul D] [Zero D] (a b c : Grid D dim) : Update → Grid D dim
  | clear i k => c.set i k 0
  | add i j k => c.set i k (c.get i k + a.get i j * b.get j k)

def Free (dim : ℕ) (u v : Update) : Prop :=
  u.column < dim ∧ v.column < dim ∧ u.column ≠ v.column

end Update

def body (n k : ℕ) : List Update :=
  (List.range n).flatMap fun i => .clear i k :: (List.range n).map fun j => .add i j k

structure Teams where
  threads : ℕ → ℕ → List (List ℕ)
  perm : ∀ rank n, (threads rank n).flatten.Perm (List.range n)

theorem body_column {n k : ℕ} : ∀ u ∈ body n k, u.column = k := by
  intro u hu
  obtain ⟨i, -, hu⟩ := List.mem_flatMap.mp hu
  rcases List.mem_cons.mp hu with rfl | hu
  · rfl
  · obtain ⟨j, -, rfl⟩ := List.mem_map.mp hu
    rfl

theorem Teams.free (teams : Teams) (rank : ℕ) {n dim : ℕ} (h : n ≤ dim) :
    ((teams.threads rank n).map fun ks => ks.flatMap (body n)).Pairwise
      fun us vs => ∀ u ∈ us, ∀ v ∈ vs, Update.Free dim u v := by
  have hperm := teams.perm rank n
  have hnodup : (teams.threads rank n).flatten.Nodup := hperm.nodup_iff.mpr List.nodup_range
  have hlt : ∀ ks ∈ teams.threads rank n, ∀ k ∈ ks, k < dim := by
    intro ks hks k hk
    have hmem := hperm.mem_iff.mp (List.mem_flatten_of_mem hks hk)
    exact (List.mem_range.mp hmem).trans_le h
  apply Team.pairwise_flatMap
  refine (List.pairwise_flatten.mp hnodup).2.imp_of_mem fun {ks ks'} hks hks' hne => ?_
  intro k hk k' hk' u hu v hv
  rw [Update.Free, body_column u hu, body_column v hv]
  exact ⟨hlt ks hks k hk, hlt ks' hks' k' hk', hne k hk k' hk'⟩

def Teams.fork (teams : Teams) (rank : ℕ) {n dim : ℕ} (h : n ≤ dim) :
    Team Update (Update.Free dim) :=
  ⟨(teams.threads rank n).map fun ks => ks.flatMap (body n), teams.free rank h⟩

/-- A rank, outside and inside the parallel loop. -/
inductive HybridTask (D : Type*) (dim : ℕ) where
  | serial (t : Task D dim)
  | parallel (t : Task D dim) (team : Team Update (Update.Free dim))

section Program

variable {D : Type*} {dim : ℕ}

def HybridTask.fork (teams : Teams) (rank : ℕ) (t : Task D dim) : HybridTask D dim :=
  if h : t.matrixSize ≤ dim then .parallel t (teams.fork rank h) else .serial t.faulted

variable [Add D] [Mul D] [Zero D]

def HybridTask.moved (t : Task D dim) (x : Grid D dim × Team Update (Update.Free dim)) :
    HybridTask D dim := .parallel { t with matrixC := x.1 } x.2

/-- What a rank of `mm_mpi_omp.cpp` does next.  The loop over the columns has `i`, `j` and `k`
private, and the team is joined when all threads have come to their ends. -/
def HybridTask.action (p : Program D) (teams : Teams) (rank : ℕ) :
    HybridTask D dim → Action ℕ MType (Message D) (HybridTask D dim)
  | .serial t =>
    if t.pc = .multiply then .compute {HybridTask.fork teams rank t}
    else (t.action p).map .serial
  | .parallel t team =>
    if team.Finished then .compute {.serial { t with pc := .returnOffset }}
    else .compute (HybridTask.moved t ''
      {x | Team.Moves (Update.apply t.matrixA t.matrixB) (t.matrixC, team) x})

theorem Update.apply_eq (a b : Grid D dim) (u : Update) : ∃ f : D → D, ∀ c : Grid D dim,
    Update.apply a b c u = c.set u.row u.column (f (c.get u.row u.column)) := by
  cases u with
  | clear i k => exact ⟨fun _ => 0, fun _ => rfl⟩
  | add i j k => exact ⟨fun x => x + a.get i j * b.get j k, fun _ => rfl⟩

theorem Update.apply_comm (a b : Grid D dim) (c : Grid D dim) (u v : Update)
    (h : Update.Free dim u v) :
    Update.apply a b (Update.apply a b c u) v = Update.apply a b (Update.apply a b c v) u := by
  obtain ⟨hu, hv, hne⟩ := h
  obtain ⟨f, hf⟩ := Update.apply_eq a b u
  obtain ⟨g, hg⟩ := Update.apply_eq a b v
  have hvu : ¬ (v.row = u.row ∧ v.column = u.column) := fun hpos => hne hpos.2.symm
  have huv : ¬ (u.row = v.row ∧ u.column = v.column) := fun hpos => hne hpos.2
  rw [hg, hf, hf, hg, Grid.get_set_ne _ _ hu hv hvu, Grid.get_set_ne _ _ hv hu huv]
  exact Grid.set_comm c _ _ hu hv hvu

theorem map_compute {σ : Type*} {f : Task D dim → σ} {p : Program D} {t : Task D dim}
    {outcome : Set σ} (h : (t.action p).map f = .compute outcome) : ∃ x, outcome = {x} := by
  cases ha : t.action p with
  | compute X =>
    obtain ⟨t', rfl⟩ := Task.action_compute ha
    rw [ha, Action.map, Set.image_singleton] at h
    exact ⟨f t', (Action.compute.inj h).symm⟩
  | _ => simp [ha, Action.map] at h

def network (p : Program D) (dim : ℕ) (teams : Teams) :
    Network ℕ MType (Message D) (HybridTask D dim) where
  action := HybridTask.action p teams
  compute_join {r s outcome x y} h hx hy := by
    cases s with
    | serial t =>
      simp only [HybridTask.action] at h
      split_ifs at h
      · obtain rfl := Action.compute.inj h
        exact .inl (hx.trans hy.symm)
      · obtain ⟨t', rfl⟩ := map_compute h
        exact .inl (hx.trans hy.symm)
    | parallel t team =>
      simp only [HybridTask.action] at h
      split_ifs at h
      · obtain rfl := Action.compute.inj h
        exact .inl (hx.trans hy.symm)
      · obtain rfl := Action.compute.inj h
        obtain ⟨x, hx, rfl⟩ := hx
        obtain ⟨y, hy, rfl⟩ := hy
        rcases Team.moves_join (Update.apply_comm t.matrixA t.matrixB) hx hy with
          rfl | ⟨z, hxz, hyz⟩
        · exact .inl rfl
        · -- a team that can move has not finished
          refine .inr ⟨_, _, HybridTask.moved t z, if_neg fun hf => hf.not_moves hxz,
            ⟨z, hxz, rfl⟩, if_neg fun hf => hf.not_moves hyz, ⟨z, hyz, rfl⟩⟩

theorem product_eq_foldl (n : ℕ) (a b c : Grid D dim) :
    Task.product n a b c =
      (List.range n).foldl (fun c k => (body n k).foldl (Update.apply a b) c) c := by
  simp only [Task.product, body, List.foldl_flatMap, List.foldl_cons, List.foldl_map]
  rfl

/-- Whatever passes the threads have, thread after thread they compute the product. -/
theorem Teams.foldl_fork (teams : Teams) (rank : ℕ) {n : ℕ} (h : n ≤ dim) (a b c : Grid D dim) :
    (teams.fork rank h).threads.flatten.foldl (Update.apply a b) c = Task.product n a b c := by
  have hperm := teams.perm rank n
  rw [Teams.fork, Team.foldl_flatten_passes, product_eq_foldl]
  apply hperm.foldl_eq'
  intro k hk k' hk' c
  by_cases heq : k = k'
  · rw [heq]
  · have hlt : ∀ x ∈ (teams.threads rank n).flatten, x < dim := fun x hx =>
      (List.mem_range.mp (hperm.mem_iff.mp hx)).trans_le h
    apply foldl_comm
    intro s u hu v hv
    apply Update.apply_comm
    rw [Update.Free, body_column u hu, body_column v hv]
    exact ⟨hlt k hk, hlt k' hk', heq⟩

section Simulation

variable {p : Program D} {teams : Teams} {r : ℕ} {t : Task D dim}

theorem action_serial (h : t.pc ≠ .multiply) :
    (network p dim teams).action r (.serial t) = (t.action p).map .serial := if_neg h

theorem action_fork (h : t.pc = .multiply) :
    (network p dim teams).action r (.serial t) = .compute {HybridTask.fork teams r t} := if_pos h

theorem action_join {team : Team Update (Update.Free dim)} (h : team.Finished) :
    (network p dim teams).action r (.parallel t team) =
      .compute {.serial { t with pc := .returnOffset }} := if_pos h

theorem action_moved {team : Team Update (Update.Free dim)} (h : ¬ team.Finished) :
    (network p dim teams).action r (.parallel t team) = .compute (HybridTask.moved t ''
      {x | Team.Moves (Update.apply t.matrixA t.matrixB) (t.matrixC, team) x}) := if_neg h

/-- The steps of a team are computations of its rank. -/
theorem computes_moved {x y : Grid D dim × Team Update (Update.Free dim)}
    (h : ReflTransGen (Team.Moves (Update.apply t.matrixA t.matrixB)) x y) :
    ReflTransGen (Computes (network p dim teams).acts r) (HybridTask.moved t x)
      (HybridTask.moved t y) := by
  induction h with
  | refl => exact .refl
  | tail _ hmove ih => exact ih.tail ⟨_, action_moved fun hf => hf.not_moves hmove, _, hmove, rfl⟩

/-- A team is forked, its threads come to their ends, and the team is joined. -/
theorem computes_multiply (h : t.pc = .multiply) :
    ReflTransGen (Computes (network p dim teams).acts r) (.serial t) (.serial t.multiply) := by
  have hfork : Computes (network p dim teams).acts r (.serial t) (HybridTask.fork teams r t) :=
    ⟨_, action_fork h, rfl⟩
  by_cases hsize : t.matrixSize ≤ dim
  · have hparallel : HybridTask.fork teams r t =
        HybridTask.moved t (t.matrixC, teams.fork r hsize) := dif_pos hsize
    have hdone : t.multiply = { t with
        matrixC := Task.product t.matrixSize t.matrixA t.matrixB t.matrixC
        pc := .returnOffset } := if_pos hsize
    obtain ⟨team, hfinished, hmoves⟩ := Team.reach_finished
      (Update.apply t.matrixA t.matrixB) t.matrixC (teams.fork r hsize)
    rw [teams.foldl_fork] at hmoves
    rw [hparallel] at hfork
    rw [hdone]
    exact (ReflTransGen.head hfork (computes_moved hmoves)).tail ⟨_, action_join hfinished, rfl⟩
  · have hfault : HybridTask.fork teams r t = .serial t.multiply :=
      (dif_neg hsize).trans (congrArg _ (if_neg hsize).symm)
    rw [hfault] at hfork
    exact .single hfork

theorem action_outside {a : Action ℕ MType (Message D) (Task D dim)} (h : t.action p = a)
    (hne : ∀ outcome, a ≠ .compute outcome) :
    (network p dim teams).action r (.serial t) = a.map .serial := by
  rw [action_serial (Task.pc_ne_multiply h hne), h]

theorem action_finalize (h : t.pc = .finalize) :
    (network p dim teams).action r (.serial t) = .stop := by
  have hstop : t.action p = .stop := by simp only [Task.action, h]
  exact action_outside hstop (by simp)

/-- What a rank of `mm_mpi.cpp` does, a rank with a team can do. -/
theorem simulates (p : Program D) (dim : ℕ) (teams : Teams) :
    (network p dim teams).Simulates (Mpi.network p dim) HybridTask.serial where
  send h := action_outside h nofun
  recv h := action_outside h nofun
  compute {r t t'} h := by
    obtain ⟨outcome, ha, ht⟩ := h
    have ha : t.action p = .compute outcome := ha
    by_cases hpc : t.pc = .multiply
    · obtain rfl := Action.compute.inj ((Task.action_multiply hpc).symm.trans ha)
      obtain rfl := ht
      exact computes_multiply hpc
    · have hmap : (network p dim teams).action r (.serial t) =
          .compute (HybridTask.serial '' outcome) := by
        rw [action_serial hpc, ha]
        rfl
      exact .single ⟨_, hmap, t', ht, rfl⟩

theorem stopped_serial {loc : ℕ → Task D dim} (h : (quiet loc).Stopped (Mpi.network p dim)) :
    ((quiet loc).map HybridTask.serial).Stopped (network p dim teams) := fun rank =>
  action_outside (h rank) nofun

end Simulation

def start (p : Program D) (mem : ℕ → Memory D dim) :
    Config ℕ MType (Message D) (HybridTask D dim) :=
  ⟨fun rank => .serial (startTask p mem rank), fun _ => []⟩

section Agree

variable {n w : ℕ} {inputA inputB : ℕ → ℕ → D} {mem : ℕ → Memory D n} {teams : Teams}
  {mode : Mode} {c : Config ℕ MType (Message D) (HybridTask D n)}

theorem outside_stopped :
    ((quiet (settled (mmMpi w inputA inputB) mem w)).map HybridTask.serial).Stopped
      (network (mmMpi w inputA inputB) n teams) := stopped_serial settled_stopped

theorem reach_outside (hint : n * n < 2 ^ 31) :
    Reach (network (mmMpi w inputA inputB) n teams) .rendezvous
    (start (mmMpi w inputA inputB) mem)
    ((quiet (settled (mmMpi w inputA inputB) mem w)).map HybridTask.serial) := by
  have hrun : Reach (Mpi.network (mmMpi w inputA inputB) n) .rendezvous
      (Mpi.start (mmMpi w inputA inputB) mem)
      (quiet (settled (mmMpi w inputA inputB) mem w)) :=
    reach_settled mmMpi_size (mmMpi_counts hint) le_rfl
  exact hrun.simulate (simulates _ n teams)

/-- Whatever the teams, the messages and the threads do first, the run can come to the end
of the complete run of `mm_mpi.cpp`, and to no other. -/
theorem reach_end (hint : n * n < 2 ^ 31) (h : Reach (network (mmMpi w inputA inputB) n teams) mode
    (start (mmMpi w inputA inputB) mem) c) :
    Reach (network (mmMpi w inputA inputB) n teams) mode c
      ((quiet (settled (mmMpi w inputA inputB) mem w)).map HybridTask.serial) :=
  Reach.completes outside_stopped (reach_outside hint) h

theorem eq_settled_of_finalize (hint : n * n < 2 ^ 31) {t : Task D n}
    (h : Reach (network (mmMpi w inputA inputB) n teams) mode (start (mmMpi w inputA inputB) mem) c)
    {rank : ℕ} (ht : c.loc rank = .serial t) (hpc : t.pc = .finalize) :
    settled (mmMpi w inputA inputB) mem w rank = t := by
  have hstop : (network (mmMpi w inputA inputB) n teams).action rank (c.loc rank) = .stop := by
    rw [ht]
    exact action_finalize hpc
  have hsame := (network (mmMpi w inputA inputB) n teams).stop_advances.reach
    (reach_end hint h) rank hstop
  rw [ht] at hsame
  exact HybridTask.serial.inj hsame

/-- The hybrid program agrees with `mm_mpi.cpp`.  No run goes on for ever or gets stuck, and
when rank 0 has left its receive loop, its `matrixC` holds in every entry the sum that
`mm_mpi.cpp` has there, with the additions in the same order. -/
theorem mmMpiOmp_agrees (hint : n * n < 2 ^ 31) (hw : 1 ≤ w) (inputA inputB : ℕ → ℕ → D)
    (mem : ℕ → Memory D n) (teams : Teams) (h : Reach (network (mmMpi w inputA inputB) n teams) mode
      (start (mmMpi w inputA inputB) mem) c) :
    (¬ ∃ run : ℕ → Config ℕ MType (Message D) (HybridTask D n),
      run 0 = start (mmMpi w inputA inputB) mem ∧
        ∀ i, Step (network (mmMpi w inputA inputB) n teams) mode (run i) (run (i + 1))) ∧
    (∃ d t, Reach (network (mmMpi w inputA inputB) n teams) mode c d ∧
      d.Stopped (network (mmMpi w inputA inputB) n teams) ∧ d.loc 0 = .serial t ∧
      t.pc = .finalize) ∧
    ∀ t, c.loc 0 = .serial t → t.pc = .finalize → ∀ i < n, ∀ k < n,
      t.matrixC.get i k = entry n inputA inputB i k ∧
      ∀ (mem' : ℕ → Memory D n) (mode' : Mode) (c' : Config ℕ MType (Message D) (Task D n)),
        Reach (Mpi.network (mmMpi w inputA inputB) n) mode'
          (Mpi.start (mmMpi w inputA inputB) mem') c' → (c'.loc 0).pc = .finalize →
        t.matrixC.get i k = (c'.loc 0).matrixC.get i k := by
  refine ⟨no_infinite_run (Reach.terminates outside_stopped (reach_outside hint) mode),
    ⟨_, _, reach_end hint h, outside_stopped, rfl, settled_finalize⟩, ?_⟩
  intro t ht hpc i hi k hk
  have hentry : t.matrixC.get i k = entry n inputA inputB i k := by
    rw [← eq_settled_of_finalize hint h ht hpc]
    exact settled_matrixC mmMpi_size hint hw hi hk
  refine ⟨hentry, fun mem' mode' c' h' hpc' => ?_⟩
  rw [hentry, ← settled_of_finalize mmMpi_size (mmMpi_counts hint) h' hpc']
  exact (settled_matrixC mmMpi_size hint hw hi hk).symm

end Agree

end Program

def evenOdd : Teams where
  threads _ n := [(List.range n).filter (· % 2 == 0), (List.range n).filter fun k => !k % 2 == 0]
  perm _ n := by
    rw [List.flatten_cons, List.flatten_singleton]
    exact List.filter_append_perm (· % 2 == 0) (List.range n)

theorem mmMpiOmp_agrees_evenOdd :
    let p := mmMpi 2 (fun i j => i + 2 * j) (fun i j => i * j + 1)
    let mem : ℕ → Memory ℕ 2 := fun _ => ⟨7, 7, 7, 7, ⟨fun _ => 7⟩, ⟨fun _ => 7⟩, ⟨fun _ => 7⟩⟩
    (settled p mem 2 0).matrixC.get 1 1 = 7 := by
  intro p mem
  have hreach : Reach (network p 2 evenOdd) .either (start p mem) _ :=
    reach_end (by decide) .refl
  have h := mmMpiOmp_agrees (by decide) (by decide) (fun i j => i + 2 * j)
    (fun i j => i * j + 1) mem evenOdd hreach
  exact (h.2.2 _ rfl settled_finalize 1 (by decide) 1 (by decide)).1

/-- The count `46341 * 46341` is negative: in no run does rank 0 come to `MPI_Finalize`. -/
theorem mmMpiOmp_stuck :
    let p := mmMpi 1 (fun _ _ => 0) (fun _ _ => 0)
    let mem : ℕ → Memory ℕ 46341 := fun _ =>
      ⟨7, 7, 7, 7, ⟨fun _ => 7⟩, ⟨fun _ => 7⟩, ⟨fun _ => 7⟩⟩
    ¬ ∃ c t, Reach (network p 46341 evenOdd) .either (start p mem) c ∧ c.loc 0 = .serial t ∧
      t.pc = .finalize := by
  rintro p mem ⟨c, t, hreach, ht, hpc⟩
  obtain ⟨loc, hstuck, hstopped, hfault⟩ := reach_stuck p mem rfl rfl (by decide)
  have hend := Reach.completes (stopped_serial hstopped)
    (hstuck.simulate (simulates p 46341 evenOdd)) hreach
  have hstop : (network p 46341 evenOdd).action 0 (c.loc 0) = .stop := by
    rw [ht]
    exact action_finalize hpc
  have hsame := (network p 46341 evenOdd).stop_advances.reach hend 0 hstop
  rw [ht] at hsame
  obtain rfl : loc 0 = t := HybridTask.serial.inj hsame
  simp [hpc] at hfault

end ParallelPrograms.Mpi.Omp
