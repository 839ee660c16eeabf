import ParallelPrograms.Mpi.MmMpiOmp

namespace ParallelPrograms.Mpi.Openmp
open Relation

/-- The statement of the parallel loop a thread is about to execute.  The loop over `j` has no
braces, so that the assignment to `matrixC` stands behind it; the three sends are statements of
the loop over `k`. -/
inductive LoopStatement where
  | pass
  | setI | testI | clear
  | setJ | testJ | total | nextJ
  | add | nextI
  | sendOffset | sendRows | sendC
  deriving DecidableEq

/-- The private variables of a thread: `k`, its copy of the reduction variable `total`, and
the passes it has yet to make. -/
structure Thread (D : Type*) where
  pc : LoopStatement
  k : ℕ
  total : D
  passes : List ℕ

/-- What the threads of a rank share: only `k` is private. -/
structure Shared (D : Type*) (dim : ℕ) where
  task : Task D dim
  i : ℕ
  j : ℕ

inductive HybridTask (D : Type*) (dim : ℕ) where
  | serial (t : Task D dim)
  | parallel (s : Shared D dim) (threads : List (Thread D))

section Program

variable {D : Type*} {dim : ℕ}

def HybridTask.behind (s : Shared D dim) (threads : List (Thread D)) (number : ℕ) :
    Option (Shared D dim × Thread D) → HybridTask D dim
  | some (s', thread) => .parallel s' (threads.set number thread)
  | none => .serial s.task.faulted

def Thread.InRange (dim : ℕ) (s : Shared D dim) (thread : Thread D) : Prop :=
  s.i < dim ∧ s.j < dim ∧ thread.k < dim

instance (s : Shared D dim) (thread : Thread D) : Decidable (thread.InRange dim s) :=
  inferInstanceAs (Decidable (_ ∧ _))

variable [Add D] [Mul D] [Zero D]

def Thread.sum (s : Shared D dim) (thread : Thread D) : D :=
  s.task.matrixC.get s.i thread.k + s.task.matrixA.get s.i s.j * s.task.matrixB.get s.j thread.k

def Thread.action (s : Shared D dim) (thread : Thread D) :
    Action ℕ MType (Message D) (Option (Shared D dim × Thread D)) :=
  match thread.pc with
  | .pass =>
    match thread.passes with
    | k :: passes => .compute {some (s, { thread with pc := .setI, k := k, passes := passes })}
    | [] => .stop
  | .setI => .compute {some ({ s with i := 0 }, { thread with pc := .testI })}
  | .testI => .compute {some (s, { thread with
      pc := if s.i < s.task.matrixSize then .clear else .sendOffset })}
  | .clear => .compute {if s.i < dim ∧ thread.k < dim then
      some ({ s with task := { s.task with matrixC := s.task.matrixC.set s.i thread.k 0 } },
        { thread with pc := .setJ }) else none}
  | .setJ => .compute {some ({ s with j := 0 }, { thread with pc := .testJ })}
  | .testJ => .compute {some (s, { thread with
      pc := if s.j < s.task.matrixSize then .total else .add })}
  | .total => .compute {if thread.InRange dim s then
      some (s, { thread with total := thread.sum s, pc := .nextJ }) else none}
  | .nextJ => .compute {some ({ s with j := s.j + 1 }, { thread with pc := .testJ })}
  -- behind the loop over `j`
  | .add => .compute {if thread.InRange dim s then
      some ({ s with task := { s.task with
          matrixC := s.task.matrixC.set s.i thread.k (thread.sum s) } },
        { thread with pc := .nextI }) else none}
  | .nextI => .compute {some ({ s with i := s.i + 1 }, { thread with pc := .testI })}
  | .sendOffset => .send 0 .fromWorker ⟨.offset, .int s.task.offset⟩
      (some (s, { thread with pc := .sendRows }))
  | .sendRows => .send 0 .fromWorker ⟨.rows, .int s.task.rows⟩
      (some (s, { thread with pc := .sendC }))
  | .sendC =>
    -- a negative count is `MPI_ERR_COUNT`
    if count s.task.rows s.task.matrixSize < 0 then .compute {none}
    else match s.task.matrixC.block 0 (count s.task.rows s.task.matrixSize).toNat with
      | some xs => .send 0 .fromWorker ⟨.matrixC, .double xs⟩
          (some (s, { thread with pc := .pass }))
      | none => .compute {none}

/-- The team at the head of the loop.  `counters` is what `i` and `j` hold there. -/
def HybridTask.fork (teams : Omp.Teams) (counters : ℕ → ℕ × ℕ) (rank : ℕ) (t : Task D dim) :
    HybridTask D dim :=
  .parallel ⟨t, (counters rank).1, (counters rank).2⟩
    ((teams.threads rank t.matrixSize).map fun passes => ⟨.pass, 0, 0, passes⟩)

def Thread.Finished (thread : Thread D) : Prop := thread.pc = .pass ∧ thread.passes = []

/-- What a rank may do next: inside the loop, the statement of any of its threads.  Behind
the loop there is only `MPI_Finalize`. -/
inductive HybridTask.Acts (p : Program D) (teams : Omp.Teams) (counters : ℕ → ℕ × ℕ) (rank : ℕ) :
    HybridTask D dim → Action ℕ MType (Message D) (HybridTask D dim) → Prop
  | serial {t : Task D dim} : t.pc ≠ .multiply → Acts p teams counters rank (.serial t)
      ((t.action p).map .serial)
  | fork {t : Task D dim} : t.pc = .multiply → Acts p teams counters rank (.serial t)
      (.compute {HybridTask.fork teams counters rank t})
  | thread {s : Shared D dim} {threads : List (Thread D)} {number : ℕ} {thread : Thread D} :
      threads[number]? = some thread → Acts p teams counters rank (.parallel s threads)
        ((thread.action s).map (HybridTask.behind s threads number))
  | join {s : Shared D dim} {threads : List (Thread D)} : (∀ thread ∈ threads, thread.Finished) →
      Acts p teams counters rank (.parallel s threads)
        (.compute {.serial { s.task with pc := .finalize }})

def start (p : Program D) (mem : ℕ → Memory D dim) :
    Config ℕ MType (Message D) (HybridTask D dim) :=
  ⟨fun rank => .serial (startTask p mem rank), fun _ => []⟩

/-- What `mm_mpi.cpp` keeps: no rank has failed, the reads of `matrixA` and `matrixB` are in range,
behind the receive loop `matrixC` is the product, and no message is left when all ranks have come
to `MPI_Finalize`. -/
structure Agrees (n w : ℕ) (inputA inputB : ℕ → ℕ → D)
    (c : Config ℕ MType (Message D) (HybridTask D n)) : Prop where
  faultless : ∀ rank t, c.loc rank = .serial t → t.pc ≠ .fault
  indices : ∀ rank s threads, c.loc rank = .parallel s threads → ∀ thread ∈ threads,
    thread.pc = .total ∨ thread.pc = .add → thread.InRange n s
  product : ∀ t, c.loc 0 = .serial t → t.pc = .finalize → ∀ i < n, ∀ k < n,
    t.matrixC.get i k = entry n inputA inputB i k
  drained : (∀ rank ≤ w, ∃ t, c.loc rank = .serial t ∧ t.pc = .finalize) →
    ∀ key, c.channel key = []

abbrev Run (p : Program D) (teams : Omp.Teams) (counters : ℕ → ℕ × ℕ) (mode : Mode) :
    Config ℕ MType (Message D) (HybridTask D dim) →
      Config ℕ MType (Message D) (HybridTask D dim) → Prop :=
  ReflTransGen (ThreadedStep (HybridTask.Acts p teams counters) mode)

def Correct (n w : ℕ) (inputA inputB : ℕ → ℕ → D) (mem : ℕ → Memory D n) (teams : Omp.Teams)
    (counters : ℕ → ℕ × ℕ) (mode : Mode) : Prop :=
  ∀ c, Run (mmMpi w inputA inputB) teams counters mode (start (mmMpi w inputA inputB) mem) c →
    Agrees n w inputA inputB c

def Thread.Goes (x y : Shared D dim × Thread D) : Prop := x.2.action x.1 = .compute {some y}

section Goes

variable {p : Program D} {teams : Omp.Teams} {counters : ℕ → ℕ × ℕ} {rank k : ℕ}

theorem computes_of_goes {x y : Shared D dim × Thread D} (h : ReflTransGen Thread.Goes x y)
    {threads : List (Thread D)} {number : ℕ} (hx : threads[number]? = some x.2) :
    ReflTransGen (Computes (HybridTask.Acts p teams counters) rank) (.parallel x.1 threads)
      (.parallel y.1 (threads.set number y.2)) := by
  obtain ⟨hlt, hget⟩ := List.getElem?_eq_some_iff.mp hx
  induction h with
  | refl =>
    rw [← hget, List.set_getElem_self]
  | @tail y z _ hgoes ih =>
    have hy : (threads.set number y.2)[number]? = some y.2 := by simp [hlt]
    have hact : HybridTask.Acts p teams counters rank (.parallel y.1 (threads.set number y.2))
        ((y.2.action y.1).map (HybridTask.behind y.1 (threads.set number y.2) number)) :=
      .thread hy
    rw [hgoes] at hact
    refine ih.tail ⟨_, hact, some z, rfl, ?_⟩
    rw [HybridTask.behind, List.set_set]

theorem goes_loop (s : Shared D dim) (total : D) (passes : List ℕ)
    (hsize : s.task.matrixSize = dim) (hi : s.i < dim) (hk : k < dim) {m : ℕ} (hm : m ≤ dim) :
    ∃ total', ReflTransGen Thread.Goes
      ({ s with j := 0 }, ⟨.testJ, k, total, passes⟩)
      ({ s with j := m }, ⟨.testJ, k, total', passes⟩) := by
  induction m with
  | zero => exact ⟨total, .refl⟩
  | succ m ih =>
    obtain ⟨total', hgoes⟩ := ih (by omega)
    let s' : Shared D dim := { s with j := m }
    have htest : Thread.Goes (s', ⟨.testJ, k, total', passes⟩)
        (s', ⟨.total, k, total', passes⟩) := by
      have hlt : m < s.task.matrixSize := by omega
      simp [Thread.Goes, Thread.action, s', hlt]
    have hrange : Thread.InRange dim s' ⟨.total, k, total', passes⟩ := ⟨hi, hm, hk⟩
    have htotal : Thread.Goes (s', ⟨.total, k, total', passes⟩)
        (s', ⟨.nextJ, k, Thread.sum s' ⟨.total, k, total', passes⟩, passes⟩) := by
      simp [Thread.Goes, Thread.action, hrange]
    exact ⟨_, ((hgoes.tail htest).tail htotal).tail rfl⟩

/-- The first pass of a thread comes to the assignment behind the loop over `j`, where `j`
is `matrixSize`. -/
theorem goes_add (s : Shared D dim) (k₀ : ℕ) (total : D) (passes : List ℕ)
    (hsize : s.task.matrixSize = dim) (hdim : 1 ≤ dim) (hk : k < dim) :
    ∃ (s' : Shared D dim) (total' : D), s'.j = dim ∧ ReflTransGen Thread.Goes
      (s, ⟨.pass, k₀, total, k :: passes⟩) (s', ⟨.add, k, total', passes⟩) := by
  let s₁ : Shared D dim := { s with i := 0 }
  let s₂ : Shared D dim :=
    { s₁ with task := { s.task with matrixC := s.task.matrixC.set 0 k 0 } }
  have hpos : 0 < s.task.matrixSize := by omega
  have htest : Thread.Goes (s₁, ⟨.testI, k, total, passes⟩) (s₁, ⟨.clear, k, total, passes⟩) := by
    simp [Thread.Goes, Thread.action, s₁, hpos]
  have hclear : Thread.Goes (s₁, ⟨.clear, k, total, passes⟩) (s₂, ⟨.setJ, k, total, passes⟩) := by
    have hrange : 0 < dim ∧ k < dim := ⟨hdim, hk⟩
    simp [Thread.Goes, Thread.action, s₁, s₂, hrange]
  have hpass : Thread.Goes (s, ⟨.pass, k₀, total, k :: passes⟩)
      (s, ⟨.setI, k, total, passes⟩) := rfl
  have hi : Thread.Goes (s, ⟨.setI, k, total, passes⟩) (s₁, ⟨.testI, k, total, passes⟩) := rfl
  have hj : Thread.Goes (s₂, ⟨.setJ, k, total, passes⟩)
      ({ s₂ with j := 0 }, ⟨.testJ, k, total, passes⟩) := rfl
  have hstart := ReflTransGen.head hpass (.head hi (.head htest (.head hclear (.single hj))))
  obtain ⟨total', hloop⟩ := goes_loop s₂ total passes hsize hdim hk le_rfl
  have hleave : Thread.Goes ({ s₂ with j := dim }, ⟨.testJ, k, total', passes⟩)
      ({ s₂ with j := dim }, ⟨.add, k, total', passes⟩) := by
    simp [Thread.Goes, Thread.action, s₂, s₁, hsize]
  exact ⟨_, total', rfl, (hstart.trans hloop).tail hleave⟩

end Goes

def beforeLoop (p : Program D) (dim : ℕ) : Network ℕ MType (Message D) (HybridTask D dim) where
  action _
    | .serial t => if t.pc = .multiply then .stop else (t.action p).map .serial
    | .parallel _ _ => .stop
  compute_join {r s outcome x y} h hx hy := by
    cases s with
    | serial t =>
      simp only at h
      split_ifs at h
      obtain ⟨t', rfl⟩ := Omp.map_compute h
      exact .inl (hx.trans hy.symm)
    | parallel s threads => cases h

theorem beforeLoop_follows (p : Program D) (dim : ℕ) :
    Follows (beforeLoop p dim) p HybridTask.serial := fun _ _ h => if_neg h

theorem beforeLoop_acts {p : Program D} {teams : Omp.Teams} {counters : ℕ → ℕ × ℕ} {r : ℕ}
    {s : HybridTask D dim} (h : (beforeLoop p dim).action r s ≠ .stop) :
    HybridTask.Acts p teams counters r s ((beforeLoop p dim).action r s) := by
  cases s with
  | serial t =>
    by_cases hpc : t.pc = .multiply
    · exact absurd (if_pos hpc) h
    · rw [beforeLoop_follows p dim r t hpc]
      exact .serial hpc
  | parallel s threads => exact absurd rfl h

section Runs

variable {n w : ℕ} (inputA inputB : ℕ → ℕ → D) (mem : ℕ → Memory D n) (teams : Omp.Teams)
  (counters : ℕ → ℕ × ℕ) (mode : Mode)

theorem run_of_beforeLoop {loc loc' : ℕ → HybridTask D n}
    (h : Reach (beforeLoop (mmMpi w inputA inputB) n) .rendezvous (quiet loc) (quiet loc')) :
    Run (mmMpi w inputA inputB) teams counters mode (quiet loc) (quiet loc') :=
  ReflTransGen.mono (fun _ _ hs => hs.threaded fun _ _ => beforeLoop_acts) _ _
    (h.of_rendezvous mode)

/-- The first worker can be served before anything else happens. -/
theorem reach_served (hw : 1 ≤ w) (hcounts : (mmMpi w inputA inputB).Counts n 1) :
    Run (mmMpi w inputA inputB) teams counters mode (start (mmMpi w inputA inputB) mem)
      (quiet (HybridTask.serial ∘ served (mmMpi w inputA inputB) mem 1)) :=
  run_of_beforeLoop inputA inputB teams counters mode
    (reach_served_map (beforeLoop_follows _ n) mmMpi_size.le hcounts hw)

/-- One thread of the first worker, by itself, comes to a read of `matrixA[0][n]`. -/
theorem reach_add (hn : 1 ≤ n) (hw : 1 ≤ w) (hcounts : (mmMpi w inputA inputB).Counts n 1) :
    ∃ c s threads,
      Run (mmMpi w inputA inputB) teams counters mode (start (mmMpi w inputA inputB) mem) c ∧
      c.loc 1 = .parallel s threads ∧ s.j = n ∧ ∃ thread ∈ threads, thread.pc = .add := by
  let t : Task D n := workerTaken (mmMpi w inputA inputB) mem 0
  let loc : ℕ → HybridTask D n := HybridTask.serial ∘ served (mmMpi w inputA inputB) mem 1
  have hloc : loc 1 = .serial t := by simp [loc, served, t]
  have hsize : t.matrixSize = n := rfl
  -- the thread that has the first of all passes
  obtain ⟨k, rest, hflat⟩ : ∃ k rest, (teams.threads 1 n).flatten = k :: rest := by
    apply List.exists_cons_of_length_pos
    rw [(teams.perm 1 n).length_eq, List.length_range]
    exact hn
  obtain ⟨number, passes, hpasses, -⟩ := Team.exists_next hflat
  have hk : k < n := by
    have hmem : k ∈ (teams.threads 1 n).flatten := by simp [hflat]
    exact List.mem_range.mp ((teams.perm 1 n).mem_iff.mp hmem)
  let team : List (Thread D) := (teams.threads 1 n).map fun passes => ⟨.pass, 0, 0, passes⟩
  have hthread : team[number]? = some ⟨.pass, 0, 0, k :: passes⟩ := by simp [team, hpasses]
  obtain ⟨s, total, hj, hgoes⟩ := goes_add ⟨t, (counters 1).1, (counters 1).2⟩ 0 0 passes hsize
    hn hk
  have hfork : Computes (HybridTask.Acts (mmMpi w inputA inputB) teams counters) 1 (loc 1)
      (.parallel ⟨t, (counters 1).1, (counters 1).2⟩ team) := by
    rw [hloc]
    exact ⟨_, .fork rfl, rfl⟩
  have hcomputes := reach_of_computes mode loc (fun _ => [])
    (ReflTransGen.head hfork (computes_of_goes hgoes hthread))
  rw [Function.update_eq_self] at hcomputes
  have hmem : (⟨.add, k, total, passes⟩ : Thread D) ∈ team.set number ⟨.add, k, total, passes⟩ :=
    List.mem_of_getElem? (List.getElem?_set_self (List.getElem?_eq_some_iff.mp hthread).1)
  exact ⟨_, s, _, (reach_served inputA inputB mem teams counters mode hw hcounts).trans
    hcomputes, by simp, hj, _, hmem, rfl⟩

end Runs

/-- No thread has been at `j = 0`, and those behind `i = 0` are in the first row. -/
def Thread.Early (s : Shared D dim) (thread : Thread D) : Prop :=
  match thread.pc with
  | .pass | .setI => True
  | .testI | .clear | .setJ => s.i = 0
  | _ => False

/-- The thread was the last at `j = 0`: behind its loop over `j` it leaves the arrays. -/
def Thread.Caught (s : Shared D dim) (thread : Thread D) : Prop :=
  match thread.pc with
  | .testJ | .total | .nextJ => True
  | .add => dim ≤ s.j
  | _ => False

section Caught

variable {s : Shared D dim} {thread other : Thread D}

/-- No statement gives `j` a smaller value, except `j = 0`. -/
theorem Thread.action_frame (s : Shared D dim) (thread : Thread D) :
    (thread.action s).All fun o => ∀ x ∈ o, x.1.task.matrixSize = s.task.matrixSize ∧
      (s.j ≤ x.1.j ∨ x.2.pc = .testJ) := by
  cases hpc : thread.pc with
  | pass => cases hpasses : thread.passes <;> simp [Thread.action, hpc, hpasses, Action.All]
  | sendC =>
    by_cases hcount : count s.task.rows s.task.matrixSize < 0
    · simp [Thread.action, hpc, hcount, Action.All]
    · cases hblock : s.task.matrixC.block 0 (count s.task.rows s.task.matrixSize).toNat <;>
        simp [Thread.action, hpc, hcount, hblock, Action.All]
  | _ => simp +contextual [Thread.action, hpc, Action.All]

omit [Add D] [Mul D] [Zero D] in
theorem Thread.Caught.mono {s' : Shared D dim} (h : other.Caught s) (hj : s.j ≤ s'.j) :
    other.Caught s' := by
  unfold Thread.Caught at h ⊢
  cases hpc : other.pc <;> simp only [hpc] at h ⊢
  exact le_trans h hj

omit [Add D] [Mul D] [Zero D] in
theorem Thread.Early.mono {s' : Shared D dim} (h : other.Early s) (hi : s.i = 0 → s'.i = 0) :
    other.Early s' := by
  unfold Thread.Early at h ⊢
  cases hpc : other.pc <;> simp only [hpc] at h ⊢ <;> exact hi h

/-- Up to `j = 0` nothing sets `i` to another value than 0. -/
theorem Thread.Early.action (hdim : 1 ≤ dim) (hsize : s.task.matrixSize = dim)
    (h : thread.Early s) : (thread.action s).All fun o => ∀ x ∈ o, x.2.Caught x.1 ∨
      x.2.Early x.1 ∧ ¬ x.2.Finished ∧ (s.i = 0 → x.1.i = 0) := by
  have hpos : 0 < s.task.matrixSize := by omega
  cases hpc : thread.pc <;> simp only [Thread.Early, hpc] at h
  case pass =>
    cases hpasses : thread.passes <;>
      simp [Thread.action, hpc, hpasses, Action.All, Thread.Early, Thread.Finished]
  case setI => simp [Thread.action, hpc, Action.All, Thread.Early, Thread.Finished]
  case testI => simp [Thread.action, hpc, Action.All, Thread.Early, Thread.Finished, h, hpos]
  case clear =>
    simp +contextual [Thread.action, hpc, Action.All, Thread.Early, Thread.Finished, h]
  case setJ => simp [Thread.action, hpc, Action.All, Thread.Caught]

/-- The loop over `j` ends with `j` above every index, and only `j = 0` takes that back. -/
theorem Thread.Caught.action (hsize : s.task.matrixSize = dim) (h : thread.Caught s) :
    (thread.action s).All fun o => ∀ x ∈ o, x.2.Caught x.1 := by
  cases hpc : thread.pc <;> simp only [Thread.Caught, hpc] at h
  case testJ =>
    by_cases hj : s.j < dim
    · simp [Thread.action, hpc, Action.All, Thread.Caught, hsize, hj]
    · have hle : dim ≤ s.j := not_lt.mp hj
      simp [Thread.action, hpc, Action.All, Thread.Caught, hsize, hj, hle]
  case total => simp +contextual [Thread.action, hpc, Action.All, Thread.Caught]
  case nextJ => simp [Thread.action, hpc, Action.All, Thread.Caught]
  case add =>
    have hrange : ¬ thread.InRange dim s := fun hr => absurd hr.2.1 (not_lt.mpr h)
    simp [Thread.action, hpc, Action.All, hrange]

end Caught

/-- A worker that has not come to `MPI_Finalize`, and will not. -/
def HybridTask.Trapped : HybridTask D dim → Prop
  | .serial t => t.matrixSize = dim ∧
      t.pc ∈ [.takeOffset, .takeRows, .takeA, .takeB, .multiply, .fault]
  | .parallel s threads => s.task.matrixSize = dim ∧
      ((∀ thread ∈ threads, thread.Early s) ∧ (∃ thread ∈ threads, ¬ thread.Finished) ∨
        ∃ thread ∈ threads, thread.Caught s)

section Trapped

variable {p : Program D} {teams : Omp.Teams} {counters : ℕ → ℕ × ℕ} {rank : ℕ}
  {s : Shared D dim} {threads : List (Thread D)} {t : Task D dim}

omit [Add D] [Mul D] [Zero D] in
theorem trapped_faulted (hsize : t.matrixSize = dim) : (HybridTask.serial t.faulted).Trapped :=
  ⟨hsize, by simp [Task.faulted]⟩

omit [Add D] [Mul D] [Zero D] in
theorem trapped_receiveInt (hsize : t.matrixSize = dim) {item : Item}
    {assign : ℕ → Task D dim → Task D dim}
    (hassign : ∀ v t', t'.matrixSize = dim → (HybridTask.serial (assign v t')).Trapped)
    (m : Message D) : (HybridTask.serial (t.receiveInt item assign m)).Trapped := by
  unfold Task.receiveInt
  split
  · exact hassign _ _ hsize
  · exact trapped_faulted hsize

omit [Add D] [Mul D] [Zero D] in
theorem trapped_receiveBlock (hsize : t.matrixSize = dim) {item : Item} {posted row : ℕ}
    {target : Grid D dim} {assign : Grid D dim → Task D dim → Task D dim}
    (hassign : ∀ g t', t'.matrixSize = dim → (HybridTask.serial (assign g t')).Trapped)
    (m : Message D) :
    (HybridTask.serial (t.receiveBlock item posted row target assign m)).Trapped := by
  unfold Task.receiveBlock
  split
  · exact trapped_faulted hsize
  · split_ifs
    · split
      · exact hassign _ _ hsize
      · exact trapped_faulted hsize
    · exact trapped_faulted hsize

omit [Add D] [Mul D] [Zero D] in
theorem trapped_recvBlock (hsize : t.matrixSize = dim) {source : ℕ} {mtype : MType} {item : Item}
    {count : ℤ} {row : ℕ} {target : Grid D dim} {assign : Grid D dim → Task D dim → Task D dim}
    (hassign : ∀ g t', t'.matrixSize = dim → (HybridTask.serial (assign g t')).Trapped) :
    (t.recvBlock source mtype item count row target assign).All
      fun t' => (HybridTask.serial t').Trapped := by
  unfold Task.recvBlock
  split_ifs
  · rintro _ rfl
    exact trapped_faulted hsize
  · exact trapped_receiveBlock hsize hassign

theorem HybridTask.Trapped.serial (h : (HybridTask.serial t).Trapped) (hpc : t.pc ≠ .multiply) :
    ((t.action p).map HybridTask.serial).All HybridTask.Trapped := by
  apply Action.All.map
  obtain ⟨hsize, hmem⟩ := h
  simp only [List.mem_cons, List.not_mem_nil, or_false] at hmem
  rcases hmem with hpc' | hpc' | hpc' | hpc' | hpc' | hpc'
  case inr.inr.inr.inr.inl => exact absurd hpc' hpc
  case inr.inr.inr.inr.inr => simp [Task.action, hpc', Action.All]
  all_goals
    simp only [Task.action, hpc']
    first
      | exact trapped_receiveInt hsize fun _ _ ht => ⟨ht, by simp⟩
      | exact trapped_recvBlock hsize fun _ _ ht => ⟨ht, by simp⟩

omit [Add D] [Mul D] in
theorem HybridTask.Trapped.fork (hdim : 1 ≤ dim) (h : (HybridTask.serial t).Trapped) :
    (HybridTask.fork teams counters rank t).Trapped := by
  obtain ⟨hsize, -⟩ := h
  refine ⟨hsize, .inl ⟨fun thread hthread => ?_, ?_⟩⟩
  · obtain ⟨passes, -, rfl⟩ := List.mem_map.mp hthread
    trivial
  · -- some thread has pass 0
    have hzero : 0 ∈ (teams.threads rank t.matrixSize).flatten := by
      rw [(teams.perm rank t.matrixSize).mem_iff, List.mem_range]
      omega
    obtain ⟨passes, hpasses, hmem⟩ := List.mem_flatten.mp hzero
    refine ⟨_, List.mem_map_of_mem hpasses, fun hfinished => ?_⟩
    exact List.ne_nil_of_mem hmem hfinished.2

omit [Add D] [Mul D] [Zero D] in
theorem trapped_behind (hsize : s.task.matrixSize = dim) {number : ℕ}
    {o : Option (Shared D dim × Thread D)}
    (h : ∀ x ∈ o, (HybridTask.parallel x.1 (threads.set number x.2)).Trapped) :
    (HybridTask.behind s threads number o).Trapped := by
  cases o with
  | none => exact trapped_faulted hsize
  | some x => exact h x rfl

theorem HybridTask.Trapped.statement (hdim : 1 ≤ dim)
    (h : (HybridTask.parallel s threads).Trapped) {number : ℕ} {thread : Thread D}
    (hget : threads[number]? = some thread) :
    ((thread.action s).map (HybridTask.behind s threads number)).All HybridTask.Trapped := by
  obtain ⟨hsize, h⟩ := h
  have hlt : number < threads.length := (List.getElem?_eq_some_iff.mp hget).1
  have hset : ∀ thread' : Thread D, thread' ∈ threads.set number thread' := fun thread' =>
    List.mem_of_getElem? (List.getElem?_set_self hlt)
  have hframe := thread.action_frame s
  apply Action.All.map
  rcases h with ⟨hearly, -⟩ | ⟨other, hother, hcaught⟩
  · have hact := (hearly thread (List.mem_of_getElem? hget)).action hdim hsize
    refine (hframe.and hact).imp fun o ⟨hframe, hact⟩ => trapped_behind hsize fun x hx => ?_
    refine ⟨(hframe x hx).1.trans hsize, ?_⟩
    rcases hact x hx with hcaught | ⟨hnext, hnot, hi⟩
    · exact .inr ⟨x.2, hset x.2, hcaught⟩
    · refine .inl ⟨fun thread' hmem => ?_, x.2, hset x.2, hnot⟩
      rcases List.mem_or_eq_of_mem_set hmem with hmem | rfl
      · exact (hearly thread' hmem).mono hi
      · exact hnext
  · obtain ⟨number', hget'⟩ := List.mem_iff_getElem?.mp hother
    by_cases heq : number = number'
    · -- the last thread at `j = 0` itself
      subst heq
      obtain rfl := Option.some.inj (hget.symm.trans hget')
      refine (hframe.and (hcaught.action hsize)).imp fun o ⟨hframe, hact⟩ =>
        trapped_behind hsize fun x hx => ?_
      exact ⟨(hframe x hx).1.trans hsize, .inr ⟨x.2, hset x.2, hact x hx⟩⟩
    · refine hframe.imp fun o hframe => trapped_behind hsize fun x hx => ?_
      obtain ⟨hsize', hj | hpc⟩ := hframe x hx
      · have hmem : other ∈ threads.set number x.2 := by
          apply List.mem_of_getElem? (i := number')
          rwa [List.getElem?_set_ne heq]
        exact ⟨hsize'.trans hsize, .inr ⟨other, hmem, hcaught.mono hj⟩⟩
      · have hnext : x.2.Caught x.1 := by simp [Thread.Caught, hpc]
        exact ⟨hsize'.trans hsize, .inr ⟨x.2, hset x.2, hnext⟩⟩

omit [Add D] [Mul D] [Zero D] in
theorem HybridTask.Trapped.not_finished (h : (HybridTask.parallel s threads).Trapped) :
    ¬ ∀ thread ∈ threads, thread.Finished := by
  intro hfinished
  rcases h.2 with ⟨-, thread, hmem, hnot⟩ | ⟨thread, hmem, hcaught⟩
  · exact hnot (hfinished thread hmem)
  · have hpc := (hfinished thread hmem).1
    simp [Thread.Caught, hpc] at hcaught

/-- Nothing a worker can do brings it out of the loop. -/
theorem HybridTask.Trapped.acts (hdim : 1 ≤ dim) {x : HybridTask D dim} (h : x.Trapped)
    {a : Action ℕ MType (Message D) (HybridTask D dim)}
    (ha : HybridTask.Acts p teams counters rank x a) : a.All HybridTask.Trapped := by
  cases ha with
  | serial hpc => exact h.serial hpc
  | fork hpc =>
    rintro _ rfl
    exact h.fork hdim
  | thread hget => exact h.statement hdim hget
  | join hfinished => exact absurd hfinished h.not_finished

end Trapped

section Correct

variable {n w : ℕ} {inputA inputB : ℕ → ℕ → D} {mem : ℕ → Memory D n} {teams : Omp.Teams}
  {counters : ℕ → ℕ × ℕ} {mode : Mode}

theorem run_leaves_arrays (mem : ℕ → Memory D n) (teams : Omp.Teams) (counters : ℕ → ℕ × ℕ)
    (mode : Mode) (hn : 1 ≤ n) (hw : 1 ≤ w) (hcounts : (mmMpi w inputA inputB).Counts n 1) :
    ∃ c s threads thread,
      Run (mmMpi w inputA inputB) teams counters mode (start (mmMpi w inputA inputB) mem) c ∧
      c.loc 1 = .parallel s threads ∧ thread ∈ threads ∧ thread.pc = .add ∧
      ¬ thread.InRange n s := by
  obtain ⟨c, s, threads, hreach, hloc, hj, thread, hmem, hpc⟩ :=
    reach_add inputA inputB mem teams counters mode hn hw hcounts
  exact ⟨c, s, threads, thread, hreach, hloc, hmem, hpc,
    fun hrange => absurd hrange.2.1 (by omega)⟩

theorem run_not_correct (hn : 1 ≤ n) (hw : 1 ≤ w) :
    ¬ Correct n w inputA inputB mem teams counters mode := by
  intro hcorrect
  by_cases hcounts : (mmMpi w inputA inputB).Counts n 1
  · obtain ⟨c, s, threads, thread, hreach, hloc, hmem, hpc, hrange⟩ :=
      run_leaves_arrays mem teams counters mode hn hw hcounts
    exact hrange ((hcorrect c hreach).indices 1 s threads hloc thread hmem (.inr hpc))
  · -- rank 0 fails in its first pass
    obtain ⟨loc, t, hreach, hloc, hpc⟩ :=
      reach_fault mem (beforeLoop_follows _ n) mmMpi_size hw hcounts
    have hrun := run_of_beforeLoop inputA inputB teams counters mode hreach
    exact (hcorrect _ hrun).faultless 0 t hloc hpc

theorem trapped_of_run (hn : 1 ≤ n) {c : Config ℕ MType (Message D) (HybridTask D n)}
    (h : Run (mmMpi w inputA inputB) teams counters mode (start (mmMpi w inputA inputB) mem) c)
    {rank : ℕ} (hpos : 1 ≤ rank) (hle : rank ≤ w) : (c.loc rank).Trapped := by
  have hinv : ∀ r, 1 ≤ r ∧ r ≤ w → (c.loc r).Trapped := by
    refine invariant_of_reach (P := fun c => ∀ r, 1 ≤ r ∧ r ≤ w → (c.loc r).Trapped) ?_ ?_ h
    · rintro r ⟨hr, hrw⟩
      have hpc : (startTask (mmMpi w inputA inputB) mem r).pc = .takeOffset := by
        have h0 : r ≠ 0 := by omega
        simp [startTask, firstStatement, h0, mmMpi, hrw]
      exact ⟨rfl, by simp [hpc]⟩
    · intro b c hb hstep
      refine hstep.invariant (I := fun r x => 1 ≤ r ∧ r ≤ w → x.Trapped) ?_ hb
      intro r x a ha hx
      by_cases hr : 1 ≤ r ∧ r ≤ w
      · exact ((hx hr).acts hn ha).imp fun _ hs _ => hs
      · cases a <;> simp [Action.All, hr]
  exact hinv rank ⟨hpos, hle⟩

/-- The program agrees with `mm_mpi.cpp` on no input, whatever the schedule.  In some run a
worker reads behind the ends of `matrixA` and `matrixB`, if its blocks can be counted, and in no
run does a worker come to `MPI_Finalize`. -/
theorem not_correct (hn : 1 ≤ n) (hw : 1 ≤ w) :
    ¬ Correct n w inputA inputB mem teams counters mode ∧
    (n * n < 2 ^ 31 → ∃ c s threads thread,
      Run (mmMpi w inputA inputB) teams counters mode (start (mmMpi w inputA inputB) mem) c ∧
        c.loc 1 = .parallel s threads ∧ thread ∈ threads ∧ thread.pc = .add ∧
        ¬ thread.InRange n s) ∧
    ∀ c, Run (mmMpi w inputA inputB) teams counters mode (start (mmMpi w inputA inputB) mem) c →
      ∀ rank, 1 ≤ rank → rank ≤ w → ∀ t, c.loc rank = .serial t → t.pc ≠ .finalize := by
  refine ⟨run_not_correct hn hw, fun hint => run_leaves_arrays mem teams counters mode hn hw ?_, ?_⟩
  · exact Program.counts_of_lt mmMpi_size.le hint 1
  · intro c h rank hpos hle t ht hpc
    have htrapped := trapped_of_run hn h hpos hle
    rw [ht] at htrapped
    simp [HybridTask.Trapped, hpc] at htrapped

end Correct

end Program

theorem not_correct_evenOdd : ¬ Correct (D := ℕ) 2 2 (fun i j => i + 2 * j) (fun i j => i * j + 1)
    (fun _ => ⟨7, 7, 7, 7, ⟨fun _ => 7⟩, ⟨fun _ => 7⟩, ⟨fun _ => 7⟩⟩) Omp.evenOdd
    (fun _ => (7, 7)) .either :=
  (not_correct (by decide) (by decide)).1

def oneThread : Omp.Teams where
  threads _ n := [List.range n]
  perm _ n := by rw [List.flatten_singleton]

/-- A single element, one worker and one thread: `matrixA[0][1]` is read. -/
theorem not_correct_one : ¬ Correct (D := ℕ) 1 1 (fun _ _ => 3) (fun _ _ => 4)
    (fun _ => ⟨7, 7, 7, 7, ⟨fun _ => 7⟩, ⟨fun _ => 7⟩, ⟨fun _ => 7⟩⟩) oneThread
    (fun _ => (7, 7)) .buffered :=
  run_not_correct (by decide) (by decide)

end ParallelPrograms.Mpi.Openmp
