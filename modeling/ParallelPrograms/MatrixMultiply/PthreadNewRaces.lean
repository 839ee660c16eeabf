import ParallelPrograms.MatrixMultiply.PthreadNew
import ParallelPrograms.UnlockedCounter

namespace ParallelPrograms.MatrixMultiply.PthreadNew.Races
open Finset Mpi

inductive Assignment where
  | clear (j : ℕ)
  | add (j k : ℕ)

def assignments (size : ℕ) : List Assignment :=
  (List.range size).flatMap fun j => .clear j :: (List.range size).map (.add j)

/-- What a thread does next behind `++i`: begin an assignment, read `i` for its target, read
the target, or store. -/
inductive Pc where
  | next (rest : List Assignment)
  | adding (j : ℕ) (x : BitVec 32) (rest : List Assignment)
  | reading (row j : ℕ) (x : BitVec 32) (rest : List Assignment)
  | storing (row j : ℕ) (x : BitVec 32) (rest : List Assignment)

/-- `++i` is a read and a write. -/
inductive Thread where
  | begin
  | loaded (t : ℕ)
  | body (threadNum : ℕ) (pc : Pc)

structure State (ι : Type*) where
  globals : Globals
  threads : ι → Thread

def Pc.step (matA matB : IntGrid) (g : Globals) : Pc → Globals × Pc
  | .next [] => (g, .next [])
  | .next (.clear j :: rest) => (g, .storing g.i j 0 rest)
  | .next (.add j k :: rest) => (g, .adding j (matA.get g.i k * matB.get k j) rest)
  | .adding j x rest => (g, .reading g.i j x rest)
  | .reading row j x rest => (g, .storing row j (g.matC.get row j + x) rest)
  | .storing row j x rest =>
    ({ g with matC := g.matC.set row j x, written := row :: g.written }, .next rest)

section Program

variable {ι : Type*} [DecidableEq ι] {size : ℕ}

def State.put (s : State ι) (u : ι) (g : Globals) (t : Thread) : State ι :=
  ⟨g, Function.update s.threads u t⟩

/-- The next read or write of `i` or of an element of `MatC` by thread `u`.  There is no lock, and
every `MatC[i][j]` and `MatA[i][k]` reads `i` again. -/
def step (size : ℕ) (matA matB : IntGrid) (s : State ι) (u : ι) : State ι :=
  match s.threads u with
  | .begin => s.put u s.globals (.loaded s.globals.i)
  | .loaded t => s.put u { s.globals with i := t + 1 } (.body (t + 1) (.next (assignments size)))
  | .body threadNum pc =>
    let r := pc.step matA matB s.globals
    s.put u r.1 (.body threadNum r.2)

def run (size : ℕ) (matA matB : IntGrid) (s : State ι) (schedule : List ι) : State ι :=
  schedule.foldl (step size matA matB) s

theorem run_append (a b : IntGrid) (s : State ι) (l l' : List ι) :
    run size a b s (l ++ l') = run size a b (run size a b s l) l' := List.foldl_append

omit [DecidableEq ι] in
def begun (g : Globals) : State ι := ⟨g, fun _ => .begin⟩

def Thread.Finished : Thread → Prop
  | .body _ (.next []) => True
  | _ => False

@[simp] theorem put_self (s : State ι) (u : ι) (g : Globals) (t : Thread) :
    (s.put u g t).threads u = t := Function.update_self ..

theorem put_of_ne (s : State ι) {u v : ι} (g : Globals) (t : Thread) (h : v ≠ u) :
    (s.put u g t).threads v = s.threads v := Function.update_of_ne h ..

theorem step_of_ne (a b : IntGrid) (s : State ι) {u v : ι} (h : v ≠ u) :
    (step size a b s u).threads v = s.threads v := by
  unfold step
  split <;> exact put_of_ne s _ _ h

end Program

section Rows

variable {ι : Type*} {size : ℕ} {a b : IntGrid}

def Thread.draw : Thread → Draw
  | .begin => .waiting
  | .loaded t => .loaded t
  | .body threadNum _ => .drawn (threadNum - 1)

def State.counter (s : State ι) : Counter ι := ⟨s.globals.i, fun u => (s.threads u).draw⟩

theorem pc_step_i (a b : IntGrid) (g : Globals) (pc : Pc) : (pc.step a b g).1.i = g.i := by
  unfold Pc.step
  split <;> rfl

variable [DecidableEq ι]

theorem put_counter (s : State ι) (u : ι) (g : Globals) (t : Thread) :
    (s.put u g t).counter = ⟨g.i, Function.update s.counter.draw u t.draw⟩ := by
  rw [State.counter]
  congr 1
  funext v
  by_cases h : v = u
  · rw [h, put_self, Function.update_self]
  · rw [put_of_ne s g t h, Function.update_of_ne h]
    rfl

theorem step_counter (s : State ι) (u : ι) :
    (step size a b s u).counter = s.counter.step u := by
  have hdraw : s.counter.draw u = (s.threads u).draw := rfl
  cases hu : s.threads u with
  | begin =>
    rw [Counter.step_waiting (by rw [hdraw, hu]; rfl)]
    simp only [step, hu]
    exact put_counter s u _ _
  | loaded t =>
    rw [Counter.step_loaded (by rw [hdraw, hu]; rfl)]
    simp only [step, hu]
    exact put_counter s u _ _
  | body threadNum pc =>
    rw [Counter.step_drawn (by rw [hdraw, hu]; rfl)]
    simp only [step, hu]
    have hsame : Thread.draw (.body threadNum (pc.step a b s.globals).2) = s.counter.draw u := by
      rw [hdraw, hu]
      rfl
    rw [put_counter, pc_step_i, hsame, Function.update_eq_self]
    rfl

theorem run_counter (s : State ι) (schedule : List ι) :
    (run size a b s schedule).counter = s.counter.run schedule := by
  induction schedule generalizing s with
  | nil => rfl
  | cons u schedule ih =>
    rw [run, List.foldl_cons, ← run, ih, step_counter]
    rfl

end Rows

section Invariant

def Assignment.column : Assignment → ℕ
  | .clear j | .add j _ => j

/-- The assignments to come are to columns of the matrices, and the row of a target is one of
the rows `1, .., k`. -/
def Pc.Inside (size k : ℕ) : Pc → Prop
  | .next rest => ∀ x ∈ rest, x.column < size
  | .adding j _ rest => j < size ∧ ∀ x ∈ rest, x.column < size
  | .reading row j _ rest | .storing row j _ rest =>
    (1 ≤ row ∧ row ≤ k) ∧ j < size ∧ ∀ x ∈ rest, x.column < size

def Thread.Inside (size k : ℕ) : Thread → Prop
  | .begin | .loaded _ => True
  | .body _ pc => pc.Inside size k

structure Confined (size k : ℕ) (g : Globals) : Prop where
  written : ∀ r ∈ g.written, 1 ≤ r ∧ r ≤ k
  zero : ∀ r, r ∉ g.written → ∀ c < size, g.matC.get r c = 0

structure Inv (size : ℕ) {k : ℕ} (s : State (Fin k)) : Prop where
  dense : s.counter.Dense
  counted : ∀ u threadNum pc, s.threads u = .body threadNum pc → 1 ≤ s.globals.i
  inside : ∀ u, (s.threads u).Inside size k
  confined : Confined size k s.globals

theorem assignments_column {size : ℕ} : ∀ x ∈ assignments size, x.column < size := by
  intro x hx
  obtain ⟨j, hj, hx⟩ := List.mem_flatMap.mp hx
  have hj' := List.mem_range.mp hj
  rcases List.mem_cons.mp hx with rfl | hx
  · exact hj'
  · obtain ⟨k, -, rfl⟩ := List.mem_map.mp hx
    exact hj'

variable {size k : ℕ} {a b : IntGrid}

/-- A step of a thread behind `++i`, with the shared `i` a row from 1 to `k`. -/
theorem Confined.pc_step {g : Globals} (h : Confined size k g) (hsize : size ≤ maxSize)
    (hi : 1 ≤ g.i ∧ g.i ≤ k) {pc : Pc} (hpc : pc.Inside size k) :
    Confined size k (pc.step a b g).1 ∧ (pc.step a b g).2.Inside size k := by
  cases pc with
  | next rest =>
    cases rest with
    | nil => exact ⟨h, hpc⟩
    | cons x rest =>
      have hx : x.column < size := hpc x List.mem_cons_self
      have hrest : ∀ y ∈ rest, y.column < size := fun y hy => hpc y (List.mem_cons_of_mem x hy)
      cases x with
      | clear j => exact ⟨h, hi, hx, hrest⟩
      | add j k => exact ⟨h, hx, hrest⟩
  | adding j x rest => exact ⟨h, hi, hpc⟩
  | reading row j x rest => exact ⟨h, hpc⟩
  | storing row j x rest =>
    obtain ⟨hrow, hj, hrest⟩ := hpc
    refine ⟨⟨fun r hr => ?_, fun r hr c hc => ?_⟩, hrest⟩
    · rcases List.mem_cons.mp hr with rfl | hr
      · exact hrow
      · exact h.written r hr
    · rw [Pc.step, List.mem_cons, not_or] at hr
      have hframe : (g.matC.set row j x).get r c = g.matC.get r c :=
        Grid.get_set_ne _ _ (by omega) (by omega) fun he => hr.1 he.1
      exact hframe.trans (h.zero r hr.2 c hc)

theorem Inv.i_le {s : State (Fin k)} (h : Inv size s) : s.globals.i ≤ k := by
  have hcard := h.dense.value_le_card
  rwa [Fintype.card_fin] at hcard

theorem Inv.step {s : State (Fin k)} (h : Inv size s) (hsize : size ≤ maxSize) (u : Fin k) :
    Inv size (step size a b s u) := by
  have hdense : (Races.step size a b s u).counter.Dense := by
    rw [step_counter]
    exact h.dense.step u
  have hother : ∀ v, v ≠ u → (Races.step size a b s u).threads v = s.threads v :=
    fun v hv => step_of_ne a b s hv
  cases hu : s.threads u with
  | begin =>
    have hglobals : (Races.step size a b s u).globals = s.globals := by
      simp only [Races.step, hu, State.put]
    have hself : (Races.step size a b s u).threads u = .loaded s.globals.i := by
      simp only [Races.step, hu, put_self]
    refine ⟨hdense, fun v n pc hv => ?_, fun v => ?_, hglobals ▸ h.confined⟩
    · have hne : v ≠ u := fun he => by simp [he, hself] at hv
      rw [hglobals]
      exact h.counted v n pc (hother v hne ▸ hv)
    · by_cases hv : v = u
      · rw [hv, hself]
        trivial
      · rw [hother v hv]
        exact h.inside v
  | loaded t =>
    have hglobals : (Races.step size a b s u).globals = { s.globals with i := t + 1 } := by
      simp only [Races.step, hu, State.put]
    have hself : (Races.step size a b s u).threads u =
        .body (t + 1) (.next (assignments size)) := by
      simp only [Races.step, hu, put_self]
    refine ⟨hdense, fun v n pc hv => ?_, fun v => ?_, ?_⟩
    · rw [hglobals]
      exact Nat.le_add_left 1 t
    · by_cases hv : v = u
      · rw [hv, hself]
        exact assignments_column
      · rw [hother v hv]
        exact h.inside v
    · rw [hglobals]
      exact ⟨h.confined.written, h.confined.zero⟩
  | body n pc =>
    have hpc : pc.Inside size k := by
      have hinside := h.inside u
      rwa [hu] at hinside
    obtain ⟨hconfined, hnext⟩ :=
      h.confined.pc_step (a := a) (b := b) hsize ⟨h.counted u n pc hu, h.i_le⟩ hpc
    have hglobals : (Races.step size a b s u).globals = (pc.step a b s.globals).1 := by
      simp only [Races.step, hu, State.put]
    have hself : (Races.step size a b s u).threads u = .body n (pc.step a b s.globals).2 := by
      simp only [Races.step, hu, put_self]
    refine ⟨hdense, fun v m pc' hv => ?_, fun v => ?_, hglobals ▸ hconfined⟩
    · rw [hglobals, pc_step_i]
      exact h.counted u n pc hu
    · by_cases hv : v = u
      · rw [hv, hself]
        exact hnext
      · rw [hother v hv]
        exact h.inside v

theorem start_inv (size k : ℕ) : Inv size (begun PthreadNew.start : State (Fin k)) where
  dense := Counter.initial_dense
  counted u n pc hu := by simp [begun] at hu
  inside _ := trivial
  confined := ⟨fun r hr => by simp [begun, PthreadNew.start] at hr, fun _ _ _ _ => rfl⟩

theorem run_inv {s : State (Fin k)} (h : Inv size s) (hsize : size ≤ maxSize)
    (schedule : List (Fin k)) : Inv size (run size a b s schedule) := by
  induction schedule generalizing s with
  | nil => exact h
  | cons u schedule ih => exact ih (h.step hsize u)

end Invariant

/-- Whatever the order of the reads and writes of `k` threads, only the rows `1, .., k` are
written to: row 0 of the product is never computed, nor is a row behind row `k`. -/
theorem mul_matrix_confined {size k : ℕ} (hsize : size ≤ maxSize) (hk : k < maxSize)
    (a b : IntGrid) (schedule : List (Fin k)) :
    let s := run size a b (begun PthreadNew.start) schedule
    s.globals.i < maxSize ∧ (∀ r ∈ s.globals.written, 1 ≤ r ∧ r ≤ k) ∧
      ∀ r, r = 0 ∨ k < r → ∀ c < size, s.globals.matC.get r c = 0 := by
  intro s
  have hinv : Inv size s := run_inv (start_inv size k) hsize schedule
  obtain ⟨hwritten, hzero⟩ := hinv.confined
  refine ⟨lt_of_le_of_lt hinv.i_le hk, hwritten, fun r hr => hzero r fun hmem => ?_⟩
  have hbounds := hwritten r hmem
  omega

/-- Two of five threads, the second between the read and the write of the first. -/
theorem mul_matrix_confined_two :
    let s := run 6 ones ones (begun PthreadNew.start) ([0, 1, 1, 0, 1, 1] : List (Fin 5))
    s.globals.i < maxSize ∧ (∀ r ∈ s.globals.written, 1 ≤ r ∧ r ≤ 5) ∧
      ∀ r, r = 0 ∨ 5 < r → ∀ c < 6, s.globals.matC.get r c = 0 :=
  mul_matrix_confined (by decide) (by decide) ones ones [0, 1, 1, 0, 1, 1]

section Alone

variable {size : ℕ} {a b : IntGrid}

def Assignment.apply (matA matB : IntGrid) (g : Globals) : Assignment → Globals
  | .clear j => g.store j 0
  | .add j k => g.store j (g.matC.get g.i j + matA.get g.i k * matB.get k j)

def Assignment.cost : Assignment → ℕ
  | .clear _ => 2
  | .add _ _ => 4

def bodyCost (size : ℕ) : ℕ := ((assignments size).map Assignment.cost).sum

def bodyStep (matA matB : IntGrid) (x : Globals × Pc) : Globals × Pc := x.2.step matA matB x.1

theorem iterate_assignments (a b : IntGrid) (g : Globals) (l : List Assignment) :
    (bodyStep a b)^[(l.map Assignment.cost).sum] (g, .next l) =
      (l.foldl (Assignment.apply a b) g, .next []) := by
  induction l generalizing g with
  | nil => rfl
  | cons x l ih =>
    rw [List.map_cons, List.sum_cons, Nat.add_comm, Function.iterate_add_apply, List.foldl_cons,
      ← ih]
    cases x <;> rfl

/-- The loops of `mulMatrix` are these assignments. -/
theorem mulMatrix_eq_foldl (g : Globals) (t : ℕ) : mulMatrix size a b g t =
    (assignments size).foldl (Assignment.apply a b) { g with i := g.i + 1 } := by
  rw [mulMatrix, assignments, List.foldl_flatMap]
  congr 1
  funext g j
  rw [List.foldl_cons, List.foldl_map]
  rfl

variable {ι : Type*} [DecidableEq ι]

theorem put_put (s : State ι) (u : ι) (g g' : Globals) (t t' : Thread) :
    (s.put u g t).put u g' t' = s.put u g' t' := by
  rw [State.put, State.put, Function.update_idem]
  rfl

theorem put_eq_self {s : State ι} {u : ι} {t : Thread} (h : s.threads u = t) :
    s.put u s.globals t = s := by
  rw [State.put, ← h, Function.update_eq_self]

theorem run_body {s : State ι} {u : ι} {n : ℕ} {pc : Pc} (h : s.threads u = .body n pc) (m : ℕ) :
    run size a b s (List.replicate m u) =
      s.put u ((bodyStep a b)^[m] (s.globals, pc)).1
        (.body n ((bodyStep a b)^[m] (s.globals, pc)).2) := by
  induction m with
  | zero => exact (put_eq_self h).symm
  | succ m ih =>
    rw [List.replicate_succ', run, List.foldl_concat, ← run, ih, Function.iterate_succ_apply']
    simp only [step, put_self]
    exact put_put s u _ _ _ _

theorem run_loops {s : State ι} {u : ι} {n : ℕ}
    (h : s.threads u = .body n (.next (assignments size))) :
    run size a b s (List.replicate (bodyCost size) u) =
      s.put u ((assignments size).foldl (Assignment.apply a b) s.globals) (.body n (.next [])) := by
  rw [run_body h, bodyCost, iterate_assignments]

theorem run_increment {s : State ι} {u : ι} (h : s.threads u = .begin) :
    run size a b s [u, u] = s.put u { s.globals with i := s.globals.i + 1 }
      (.body (s.globals.i + 1) (.next (assignments size))) := by
  have hload : step size a b s u = s.put u s.globals (.loaded s.globals.i) := by
    simp only [step, h]
  have hstore : step size a b (step size a b s u) u =
      (step size a b s u).put u { s.globals with i := s.globals.i + 1 }
        (.body (s.globals.i + 1) (.next (assignments size))) := by
    rw [hload]
    simp only [step, put_self]
    rfl
  rw [run, List.foldl_cons, List.foldl_cons, List.foldl_nil, hstore, hload, put_put]

/-- A whole thread without an interruption is a call of `mulMatrix`. -/
theorem run_thread {s : State ι} {u : ι} (h : s.threads u = .begin) (t : ℕ) :
    run size a b s ([u, u] ++ List.replicate (bodyCost size) u) =
      s.put u (mulMatrix size a b s.globals t) (.body (s.globals.i + 1) (.next [])) := by
  rw [run_append, run_increment h, run_loops (put_self ..), mulMatrix_eq_foldl, put_put]
  rfl

/-- Threads that run one after the other leave the globals of `runThreads`. -/
theorem run_threads {k : ℕ} {order : List (Fin k)} (horder : order.Nodup) :
    (run size a b (begun PthreadNew.start)
      (order.flatMap fun u => [u, u] ++ List.replicate (bodyCost size) u)).globals =
        runThreads size a b (order.map Fin.val) := by
  have hserial : ∀ (order : List (Fin k)) (s : State (Fin k)), order.Nodup →
      (∀ u ∈ order, s.threads u = .begin) → (run size a b s
        (order.flatMap fun u => [u, u] ++ List.replicate (bodyCost size) u)).globals =
          (order.map Fin.val).foldl (mulMatrix size a b) s.globals := by
    intro order
    induction order with
    | nil => exact fun _ _ _ => rfl
    | cons u order ih =>
      intro s hnodup hbegin
      obtain ⟨hu, hnodup⟩ := List.nodup_cons.mp hnodup
      rw [List.flatMap_cons, run_append, run_thread (hbegin u List.mem_cons_self) u,
        ih _ hnodup fun v hv => ?_]
      · rfl
      · rw [put_of_ne s _ _ (ne_of_mem_of_not_mem hv hu)]
        exact hbegin v (List.mem_cons_of_mem u hv)
  exact hserial order _ horder fun _ _ => rfl

end Alone

section Increments

variable {size k : ℕ} {a b : IntGrid}

def incrementsFirst (size k : ℕ) : List (Fin k) :=
  (List.finRange k).flatMap (fun u => [u, u]) ++
    (List.finRange k).flatMap (List.replicate (bodyCost size))

theorem run_increments (size : ℕ) (a b : IntGrid) {l : List (Fin k)} (hl : l.Nodup)
    (s : State (Fin k)) (hbegin : ∀ u ∈ l, s.threads u = .begin) :
    let s' := run size a b s (l.flatMap fun u => [u, u])
    s'.globals = { s.globals with i := s.globals.i + l.length } ∧
      (∀ u ∈ l, ∃ n, s'.threads u = .body n (.next (assignments size))) ∧
      ∀ u ∉ l, s'.threads u = s.threads u := by
  induction l generalizing s with
  | nil => exact ⟨rfl, by simp, fun _ _ => rfl⟩
  | cons u l ih =>
    obtain ⟨hu, hl⟩ := List.nodup_cons.mp hl
    intro s'
    have hs' : s' = run size a b (s.put u { s.globals with i := s.globals.i + 1 }
        (.body (s.globals.i + 1) (.next (assignments size)))) (l.flatMap fun u => [u, u]) := by
      rw [← run_increment (a := a) (b := b) (hbegin u List.mem_cons_self)]
      exact run_append a b s _ _
    obtain ⟨hglobals, hbody, hrest⟩ := ih hl (s.put u { s.globals with i := s.globals.i + 1 }
        (.body (s.globals.i + 1) (.next (assignments size)))) fun v hv => by
      rw [put_of_ne s _ _ (ne_of_mem_of_not_mem hv hu)]
      exact hbegin v (List.mem_cons_of_mem u hv)
    rw [← hs'] at hglobals hbody hrest
    refine ⟨?_, fun v hv => ?_, fun v hv => ?_⟩
    · rw [hglobals, List.length_cons]
      simp only [State.put]
      congr 1
      omega
    · rcases List.mem_cons.mp hv with rfl | hv
      · exact ⟨_, (hrest v hu).trans (put_self ..)⟩
      · exact hbody v hv
    · rw [List.mem_cons, not_or] at hv
      rw [hrest v hv.2, put_of_ne s _ _ hv.1]

/-- What `m` threads leave that all work on row `k`. -/
structure AfterLoops (size : ℕ) (a b : IntGrid) (k m : ℕ) (g : Globals) : Prop where
  i : g.i = k
  written : ∀ r, r ∈ g.written ↔ r = k ∧ 1 ≤ m
  cell : 1 ≤ m → ∀ c < size, g.matC.get k c = ∑ j ∈ range size, a.get k j * b.get j c

theorem AfterLoops.loops {m : ℕ} {g : Globals} (h : AfterLoops size a b k m g) (hpos : 1 ≤ size)
    (hsize : size ≤ maxSize) (hk : 1 ≤ k) :
    AfterLoops size a b k (m + 1) ((assignments size).foldl (Assignment.apply a b) g) := by
  have hloops : (assignments size).foldl (Assignment.apply a b) g =
      mulMatrix size a b { g with i := k - 1 } 0 := by
    obtain ⟨i, c, w⟩ := g
    obtain rfl : i = k := h.i
    simp only [mulMatrix_eq_foldl, Nat.sub_add_cancel hk]
  have hstores : size * (size + 1) ≠ 0 := Nat.mul_ne_zero (by omega) (by omega)
  rw [hloops, mulMatrix_eq, Nat.sub_add_cancel hk]
  refine ⟨rfl, fun r => ?_, fun _ c hc => ?_⟩
  · rw [List.mem_append, List.mem_replicate, h.written]
    omega
  · exact rowLoop_self a b g.matC hsize k hc

theorem run_all_loops {l : List (Fin k)} (hl : l.Nodup) (hpos : 1 ≤ size) (hsize : size ≤ maxSize)
    (hk : 1 ≤ k) {m : ℕ} (s : State (Fin k)) (hafter : AfterLoops size a b k m s.globals)
    (hbody : ∀ u ∈ l, ∃ n, s.threads u = .body n (.next (assignments size))) :
    let s' := run size a b s (l.flatMap (List.replicate (bodyCost size)))
    AfterLoops size a b k (m + l.length) s'.globals ∧ (∀ u ∈ l, (s'.threads u).Finished) ∧
      ∀ u ∉ l, s'.threads u = s.threads u := by
  induction l generalizing s m with
  | nil => exact ⟨hafter, by simp, fun _ _ => rfl⟩
  | cons u l ih =>
    obtain ⟨hu, hl⟩ := List.nodup_cons.mp hl
    obtain ⟨n, hn⟩ := hbody u List.mem_cons_self
    intro s'
    let next : State (Fin k) := s.put u ((assignments size).foldl (Assignment.apply a b) s.globals)
      (.body n (.next []))
    have hs' : s' = run size a b next (l.flatMap (List.replicate (bodyCost size))) := by
      show _ = run size a b (s.put u _ _) _
      rw [← run_loops (a := a) (b := b) hn]
      exact run_append a b s _ _
    obtain ⟨hend, hdone, hrest⟩ := ih hl (m := m + 1) next (hafter.loops hpos hsize hk)
      fun v hv => by
        obtain ⟨n', hn'⟩ := hbody v (List.mem_cons_of_mem u hv)
        exact ⟨n', (put_of_ne s _ _ (ne_of_mem_of_not_mem hv hu)).trans hn'⟩
    rw [← hs'] at hend hdone hrest
    have hself : s'.threads u = .body n (.next []) := (hrest u hu).trans (put_self ..)
    refine ⟨?_, fun v hv => ?_, fun v hv => ?_⟩
    · rwa [List.length_cons, Nat.add_comm l.length 1, ← Nat.add_assoc]
    · rcases List.mem_cons.mp hv with rfl | hv
      · rw [hself]
        trivial
      · exact hdone v hv
    · rw [List.mem_cons, not_or] at hv
      rw [hrest v hv.2]
      exact put_of_ne s _ _ hv.1

end Increments

/-- When every thread has added 1 to `i` before the loops begin, all of them compute row `k`,
and no other row is written to. -/
theorem mul_matrix_one_row {size k : ℕ} (hpos : 1 ≤ size) (hsize : size ≤ maxSize) (hk : 1 ≤ k)
    (hmax : k < maxSize) (a b : IntGrid) :
    let s := run size a b (begun PthreadNew.start) (incrementsFirst size k)
    s.globals.i < maxSize ∧ (∀ u, (s.threads u).Finished) ∧ (∀ r, r ∈ s.globals.written ↔ r = k) ∧
      ∀ c < size, s.globals.matC.get k c = ∑ j ∈ range size, a.get k j * b.get j c := by
  intro s
  obtain ⟨hglobals, hbody, -⟩ := run_increments size a b (List.nodup_finRange k)
    (begun PthreadNew.start) fun _ _ => rfl
  have hafter : AfterLoops size a b k 0 (run size a b (begun PthreadNew.start)
      ((List.finRange k).flatMap fun u => [u, u])).globals := by
    rw [hglobals]
    refine ⟨?_, fun r => ?_, fun h => absurd h (by decide)⟩
    · simp [begun, PthreadNew.start]
    · simp [begun, PthreadNew.start]
  obtain ⟨hend, hdone, -⟩ := run_all_loops (List.nodup_finRange k) hpos hsize hk _ hafter hbody
  have hs : s = run size a b (run size a b (begun PthreadNew.start)
      ((List.finRange k).flatMap fun u => [u, u]))
        ((List.finRange k).flatMap (List.replicate (bodyCost size))) := run_append a b _ _ _
  rw [← hs, List.length_finRange, Nat.zero_add] at hend
  rw [← hs] at hdone
  refine ⟨lt_of_eq_of_lt hend.i hmax, fun u => hdone u (List.mem_finRange u), fun r => ?_,
    hend.cell hk⟩
  rw [hend.written]
  exact and_iff_left hk

theorem mul_matrix_one_row_six :
    let s := run 6 ones ones (begun PthreadNew.start) (incrementsFirst 6 5)
    s.globals.i < maxSize ∧ (∀ u, (s.threads u).Finished) ∧
      (∀ r, r ∈ s.globals.written ↔ r = 5) ∧
      ∀ c < 6, s.globals.matC.get 5 c = ∑ j ∈ range 6, ones.get 5 j * ones.get j c :=
  mul_matrix_one_row (by decide) (by decide) (by decide) (by decide) ones ones

end ParallelPrograms.MatrixMultiply.PthreadNew.Races
