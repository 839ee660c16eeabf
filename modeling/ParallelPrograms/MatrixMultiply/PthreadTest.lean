import Mathlib.Algebra.Order.BigOperators.Group.List
import ParallelPrograms.Mpi.Blocks
import ParallelPrograms.UnlockedCounter

namespace ParallelPrograms.MatrixMultiply.PthreadTest
open Mpi

/-- What a thread of `multi` does next: read `step_i`, store it plus one, or go on with the
assignments to `matC[i][j]` for the remaining pairs of `j` and `k`.  The programs
`matrixMultiply_pthread_test.cpp` and `matrixMultiply_pthread_test_2.cpp` differ in `MAX` only. -/
inductive Thread (D : Type*) where
  | begin
  | loaded (i : ℕ)
  | adding (i : ℕ) (rest : List (ℕ × ℕ))
  | storing (i j : ℕ) (sum : D) (rest : List (ℕ × ℕ))

structure State (D : Type*) (max : ℕ) (ι : Type*) where
  stepI : ℕ
  matC : Grid D max
  threads : ι → Thread D

def passes (max : ℕ) : List (ℕ × ℕ) :=
  (List.range max).flatMap fun j => (List.range max).map fun k => (j, k)

section Program

variable {D ι : Type*} {max : ℕ} [Add D] [Mul D] [DecidableEq ι]

def State.put (s : State D max ι) (u : ι) (t : Thread D) : State D max ι :=
  { s with threads := Function.update s.threads u t }

omit [Add D] [Mul D] in
@[simp] theorem put_self (s : State D max ι) (u : ι) (t : Thread D) :
    (s.put u t).threads u = t := Function.update_self ..

omit [Add D] [Mul D] in
theorem put_of_ne (s : State D max ι) {u v : ι} (t : Thread D) (h : v ≠ u) :
    (s.put u t).threads v = s.threads v := Function.update_of_ne h ..

def step (matA matB : Grid D max) (s : State D max ι) (u : ι) : State D max ι :=
  match s.threads u with
  | .begin => s.put u (.loaded s.stepI)
  | .loaded i => { s.put u (.adding i (passes max)) with stepI := i + 1 }
  | .adding i ((j, k) :: rest) =>
    s.put u (.storing i j (s.matC.get i j + matA.get i k * matB.get k j) rest)
  | .storing i j sum rest => { s.put u (.adding i rest) with matC := s.matC.set i j sum }
  | .adding _ [] => s

def run (matA matB : Grid D max) (s : State D max ι) (schedule : List ι) : State D max ι :=
  schedule.foldl (step matA matB) s

def start [Zero D] : State D max ι := ⟨0, ⟨fun _ => 0⟩, fun _ => .begin⟩

def Thread.Finished : Thread D → Prop
  | .adding _ [] => True
  | _ => False

def Thread.row : Thread D → Option ℕ
  | .begin | .loaded _ => none
  | .adding i _ | .storing i _ _ _ => some i

end Program

/-- No thread goes past the end of the arrays. -/
def State.RowsInside {D ι : Type*} {max : ℕ} (s : State D max ι) : Prop :=
  ∀ u r, (s.threads u).row = some r → r < max

section Rows

variable {D ι : Type*} {max : ℕ}

def Thread.draw : Thread D → Draw
  | .begin => .waiting
  | .loaded i => .loaded i
  | .adding i _ | .storing i _ _ _ => .drawn i

def State.counter (s : State D max ι) : Counter ι := ⟨s.stepI, fun u => (s.threads u).draw⟩

theorem Thread.row_eq_some {t : Thread D} {r : ℕ} : t.row = some r ↔ t.draw = .drawn r := by
  cases t <;> simp [Thread.row, Thread.draw]

variable [Add D] [Mul D] [DecidableEq ι]

omit [Add D] [Mul D] in
theorem put_counter (s : State D max ι) (u : ι) (t : Thread D) :
    (s.put u t).counter = ⟨s.stepI, Function.update s.counter.draw u t.draw⟩ := by
  rw [State.counter]
  congr 1
  funext v
  by_cases h : v = u
  · rw [h, put_self, Function.update_self]
  · rw [put_of_ne s t h, Function.update_of_ne h]
    rfl

theorem step_counter (a b : Grid D max) (s : State D max ι) (u : ι) :
    (step a b s u).counter = s.counter.step u := by
  have hdraw : s.counter.draw u = (s.threads u).draw := rfl
  have hsame : ∀ t : Thread D, t.draw = (s.threads u).draw → (s.put u t).counter = s.counter := by
    intro t ht
    rw [put_counter, ht, ← hdraw, Function.update_eq_self]
    rfl
  cases hu : s.threads u with
  | begin =>
    rw [Counter.step_waiting (by rw [hdraw, hu]; rfl)]
    simp only [step, hu]
    exact put_counter s u _
  | loaded i =>
    rw [Counter.step_loaded (by rw [hdraw, hu]; rfl)]
    simp only [step, hu]
    exact congrArg (Counter.mk (i + 1)) (congrArg Counter.draw (put_counter s u _))
  | adding i rest =>
    rw [Counter.step_drawn (by rw [hdraw, hu]; rfl)]
    cases rest with
    | nil => simp only [step, hu]
    | cons x rest =>
      simp only [step, hu]
      exact hsame _ (by rw [hu]; rfl)
  | storing i j sum rest =>
    rw [Counter.step_drawn (by rw [hdraw, hu]; rfl)]
    simp only [step, hu]
    exact hsame (.adding i rest) (by rw [hu]; rfl)

theorem run_counter (a b : Grid D max) (s : State D max ι) (schedule : List ι) :
    (run a b s schedule).counter = s.counter.run schedule := by
  induction schedule generalizing s with
  | nil => rfl
  | cons u schedule ih =>
    rw [run, List.foldl_cons, ← run, ih, step_counter]
    rfl

end Rows

section Owned

variable {D ι : Type*} {max : ℕ} [Add D] [Mul D] [Zero D]

/-- Row `r` of the product, after the assignments of the loops that have been made. -/
def partialRow (a b : Grid D max) (r : ℕ) (done : List (ℕ × ℕ)) : ℕ → D :=
  done.foldl (fun f x => Function.update f x.1 (f x.1 + a.get r x.2 * b.get x.2 x.1)) fun _ => 0

theorem partialRow_concat (a b : Grid D max) (r : ℕ) (done : List (ℕ × ℕ)) (x : ℕ × ℕ) :
    partialRow a b r (done ++ [x]) = Function.update (partialRow a b r done) x.1
      (partialRow a b r done x.1 + a.get r x.2 * b.get x.2 x.1) := by
  rw [partialRow, List.foldl_concat]
  rfl

/-- All assignments together make the row of the product. -/
theorem partialRow_passes (a b : Grid D max) (r : ℕ) {c : ℕ} (hc : c < max) :
    partialRow a b r (passes max) c = entry max a.get b.get r c := by
  have hcolumn : ∀ (j : ℕ) (l : List ℕ) (f : ℕ → D),
      (l.map fun k => (j, k)).foldl (fun f x =>
        Function.update f x.1 (f x.1 + a.get r x.2 * b.get x.2 x.1)) f =
          Function.update f j (l.foldl (fun s k => s + a.get r k * b.get k j) (f j)) := by
    intro j l
    induction l with
    | nil => exact fun f => (Function.update_eq_self j f).symm
    | cons k l ih =>
      intro f
      rw [List.map_cons, List.foldl_cons, ih, Function.update_self, Function.update_idem,
        List.foldl_cons]
  rw [partialRow, passes, List.foldl_flatMap]
  simp only [hcolumn]
  have hown := foldl_own (fun f : ℕ → D => f c)
    (f := fun f j => Function.update f j
      ((List.range max).foldl (fun s k => s + a.get r k * b.get k j) (f j)))
    (g := fun v => (List.range max).foldl (fun s k => s + a.get r k * b.get k c) v)
    List.nodup_range (fun _ => 0) (List.mem_range.mpr hc)
    (fun f => Function.update_self _ _ _)
    (fun f j _ hj => Function.update_of_ne hj.symm _ _)
  exact hown

def Thread.Inside (max : ℕ) : Thread D → Prop
  | .begin | .loaded _ => True
  | .adding _ rest => ∀ x ∈ rest, x.1 < max
  | .storing _ j _ rest => j < max ∧ ∀ x ∈ rest, x.1 < max

/-- Row `r` of `matC` is as its thread has left it so far. -/
def Thread.Progress (a b : Grid D max) (r : ℕ) (c : Grid D max) : Thread D → Prop
  | .begin | .loaded _ => True
  | .adding _ rest => ∃ done, done ++ rest = passes max ∧
      ∀ j < max, c.get r j = partialRow a b r done j
  | .storing _ j sum rest => ∃ done k, done ++ (j, k) :: rest = passes max ∧
      (∀ j < max, c.get r j = partialRow a b r done j) ∧
      sum = partialRow a b r done j + a.get r k * b.get k j

structure Inv (a b : Grid D max) (s : State D max ι) : Prop where
  inside : ∀ u, (s.threads u).Inside max
  untaken : ∀ r, (∀ u, (s.threads u).row ≠ some r) → ∀ j < max, s.matC.get r j = 0
  owned : ∀ u r, (s.threads u).row = some r → (∀ v, (s.threads v).row = some r → v = u) →
    (s.threads u).Progress a b r s.matC

omit [Add D] [Mul D] [Zero D] in
theorem passes_inside : ∀ x ∈ passes max, x.1 < max := by
  intro x hx
  obtain ⟨j, hj, hx⟩ := List.mem_flatMap.mp hx
  obtain ⟨k, -, rfl⟩ := List.mem_map.mp hx
  exact List.mem_range.mp hj

theorem Thread.Progress.congr {a b c c' : Grid D max} {r : ℕ} {t : Thread D}
    (h : t.Progress a b r c) (hc : ∀ j < max, c'.get r j = c.get r j) : t.Progress a b r c' := by
  cases t with
  | begin | loaded => trivial
  | adding i rest =>
    obtain ⟨done, hdone, hrow⟩ := h
    exact ⟨done, hdone, fun j hj => (hc j hj).trans (hrow j hj)⟩
  | storing i j sum rest =>
    obtain ⟨done, k, hdone, hrow, hsum⟩ := h
    exact ⟨done, k, hdone, fun j hj => (hc j hj).trans (hrow j hj), hsum⟩

theorem start_inv (a b : Grid D max) : Inv a b (start : State D max ι) where
  inside _ := trivial
  untaken _ _ _ _ := rfl
  owned u r hu := by simp [start, Thread.row] at hu

variable [DecidableEq ι]

/-- A step of a thread that keeps its row and changes no other row of `matC`. -/
theorem Inv.put {a b : Grid D max} {s : State D max ι} (h : Inv a b s) {u : ι} {t : Thread D}
    {c : Grid D max} {i : ℕ} (hu : (s.threads u).row = some i) (ht : t.row = some i)
    (hinside : t.Inside max) (hc : ∀ r, r ≠ i → ∀ j < max, c.get r j = s.matC.get r j)
    (hprogress : (s.threads u).Progress a b i s.matC → t.Progress a b i c) :
    Inv a b { s.put u t with matC := c } := by
  have hrow : ∀ v, ((s.put u t).threads v).row = (s.threads v).row := by
    intro v
    by_cases hv : v = u
    · rw [hv, put_self, ht, hu]
    · rw [put_of_ne s t hv]
  refine ⟨fun v => ?_, fun r hr j hj => ?_, fun v r hv hsole => ?_⟩
  · by_cases hv : v = u
    · subst hv
      simpa using hinside
    · rw [put_of_ne s t hv]
      exact h.inside v
  · have hri : r ≠ i := by
      rintro rfl
      exact hr u ((hrow u).trans hu)
    rw [hc r hri j hj]
    exact h.untaken r (fun v hv => hr v ((hrow v).trans hv)) j hj
  · have hv' := (hrow v).symm.trans hv
    have hsole' : ∀ w, (s.threads w).row = some r → w = v :=
      fun w hw => hsole w ((hrow w).trans hw)
    have hold := h.owned v r hv' hsole'
    by_cases hvu : v = u
    · subst hvu
      obtain rfl : r = i := Option.some.inj (hv'.symm.trans hu)
      simpa using hprogress hold
    · have hri : r ≠ i := by
        rintro rfl
        exact hvu (hsole' u hu).symm
      simp only [put_of_ne s t hvu]
      exact hold.congr (hc r hri)

theorem Inv.read {a b : Grid D max} {s : State D max ι} (h : Inv a b s) {u : ι}
    (hu : s.threads u = .begin) : Inv a b (s.put u (.loaded s.stepI)) := by
  have hother : ∀ v, v ≠ u → (s.put u (.loaded s.stepI)).threads v = s.threads v :=
    fun v hv => put_of_ne s _ hv
  refine ⟨fun v => ?_, fun r hr => ?_, fun v r hv hsole => ?_⟩
  · by_cases hv : v = u
    · subst hv
      simp [Thread.Inside]
    · rw [hother v hv]
      exact h.inside v
  · refine h.untaken r fun v hv => ?_
    have hne : v ≠ u := fun he => by simp [he, hu, Thread.row] at hv
    exact hr v (by rwa [hother v hne])
  · have hne : v ≠ u := fun he => by simp [he, Thread.row] at hv
    rw [hother v hne] at hv ⊢
    refine h.owned v r hv fun w hw => hsole w ?_
    have hwu : w ≠ u := fun he => by simp [he, hu, Thread.row] at hw
    rwa [hother w hwu]

/-- A row that is taken for the first time has its zeros. -/
theorem Inv.take {a b : Grid D max} {s : State D max ι} (h : Inv a b s) {u : ι} {i : ℕ}
    (hu : s.threads u = .loaded i) :
    Inv a b { s.put u (.adding i (passes max)) with stepI := i + 1 } := by
  have hother : ∀ v, v ≠ u → (s.put u (.adding i (passes max))).threads v = s.threads v :=
    fun v hv => put_of_ne s _ hv
  refine ⟨fun v => ?_, fun r hr => ?_, fun v r hv hsole => ?_⟩
  · by_cases hv : v = u
    · subst hv
      simpa [Thread.Inside] using passes_inside
    · rw [hother v hv]
      exact h.inside v
  · refine h.untaken r fun v hv => ?_
    have hne : v ≠ u := fun he => by simp [he, hu, Thread.row] at hv
    exact hr v (by rwa [hother v hne])
  · have hkept : ∀ w, (s.threads w).row = some r → w = v := by
      intro w hw
      have hwu : w ≠ u := fun he => by simp [he, hu, Thread.row] at hw
      exact hsole w (by rwa [hother w hwu])
    by_cases hvu : v = u
    · -- nobody has written to a row that is taken now
      subst hvu
      have hzero : ∀ j < max, s.matC.get r j = 0 := by
        refine h.untaken r fun w hw => ?_
        rw [hkept w hw, hu] at hw
        simp [Thread.row] at hw
      show Thread.Progress a b r s.matC ((s.put v (.adding i (passes max))).threads v)
      rw [put_self]
      exact ⟨[], rfl, hzero⟩
    · rw [hother v hvu] at hv ⊢
      exact h.owned v r hv hkept

theorem Inv.step {a b : Grid D max} {s : State D max ι} (h : Inv a b s) (u : ι) :
    Inv a b (step a b s u) := by
  cases hu : s.threads u with
  | begin =>
    simp only [PthreadTest.step, hu]
    exact h.read hu
  | loaded i =>
    simp only [PthreadTest.step, hu]
    exact h.take hu
  | adding i rest =>
    cases rest with
    | nil => simpa only [PthreadTest.step, hu] using h
    | cons x rest =>
      obtain ⟨j, k⟩ := x
      have hinside := h.inside u
      simp only [PthreadTest.step, hu] at hinside ⊢
      refine h.put (c := s.matC) (by rw [hu]; rfl) rfl
        ⟨hinside _ List.mem_cons_self, fun x hx => hinside x (List.mem_cons_of_mem _ hx)⟩
        (fun _ _ _ _ => rfl) fun hold => ?_
      rw [hu] at hold
      obtain ⟨done, hdone, hrow⟩ := hold
      refine ⟨done, k, hdone, hrow, ?_⟩
      rw [hrow j (hinside _ List.mem_cons_self)]
  | storing i j sum rest =>
    have hinside := h.inside u
    simp only [PthreadTest.step, hu] at hinside ⊢
    refine h.put (by rw [hu]; rfl) rfl hinside.2 (fun r hr j' hj' => ?_) fun hold => ?_
    · exact Grid.get_set_ne _ _ hinside.1 hj' fun he => hr he.1
    · rw [hu] at hold
      obtain ⟨done, k, hdone, hrow, rfl⟩ := hold
      refine ⟨done ++ [(j, k)], by simpa using hdone, fun j' hj' => ?_⟩
      rw [partialRow_concat]
      by_cases hjj : j' = j
      · rw [hjj, Grid.get_set_self, Function.update_self]
      · rw [Grid.get_set_ne _ _ hinside.1 hj' fun he => hjj he.2, Function.update_of_ne hjj]
        exact hrow j' hj'

theorem run_inv {a b : Grid D max} {s : State D max ι} (h : Inv a b s) (schedule : List ι) :
    Inv a b (run a b s schedule) := by
  induction schedule generalizing s with
  | nil => exact h
  | cons u schedule ih => exact ih (h.step u)

end Owned

section Remaining

variable {D ι : Type*} {max : ℕ}

def Thread.remaining (max : ℕ) : Thread D → ℕ
  | .begin => 2 * (max * max) + 2
  | .loaded _ => 2 * (max * max) + 1
  | .adding _ rest => 2 * rest.length
  | .storing _ _ _ rest => 2 * rest.length + 1

theorem passes_length (max : ℕ) : (passes max).length = max * max := by
  simp [passes, List.length_flatMap]

theorem Thread.finished_iff (max : ℕ) {t : Thread D} : t.Finished ↔ t.remaining max = 0 := by
  cases t with
  | begin | loaded i | storing i j sum rest => simp [Thread.Finished, Thread.remaining]
  | adding i rest => cases rest <;> simp [Thread.Finished, Thread.remaining]

variable [Add D] [Mul D] [DecidableEq ι]

theorem step_of_ne (a b : Grid D max) (s : State D max ι) {u v : ι} (h : v ≠ u) :
    (step a b s u).threads v = s.threads v := by
  unfold step
  split
  case h_5 => rfl
  all_goals exact put_of_ne s _ h

theorem step_self_remaining (a b : Grid D max) (s : State D max ι) (u : ι) :
    ((step a b s u).threads u).remaining max = (s.threads u).remaining max - 1 := by
  cases hu : s.threads u with
  | begin => simp [step, hu, Thread.remaining]
  | loaded i => simp [step, hu, Thread.remaining, passes_length]
  | adding i rest =>
    cases rest with
    | nil => simp [step, hu, Thread.remaining]
    | cons x rest => simp [step, hu, Thread.remaining, Nat.mul_add]
  | storing i j sum rest => simp [step, hu, Thread.remaining]

theorem run_remaining (a b : Grid D max) (s : State D max ι) (schedule : List ι) (u : ι) :
    ((run a b s schedule).threads u).remaining max =
      (s.threads u).remaining max - schedule.count u := by
  induction schedule generalizing s with
  | nil => rfl
  | cons v schedule ih =>
    rw [run, List.foldl_cons, ← run, ih, List.count_cons]
    by_cases hv : v = u
    · subst hv
      rw [step_self_remaining]
      simp
      omega
    · rw [step_of_ne a b s (Ne.symm hv)]
      simp [hv]

variable [Zero D]

/-- The schedules that let every thread come to its end. -/
theorem run_finished_iff (a b : Grid D max) (schedule : List ι) (u : ι) :
    ((run a b start schedule).threads u).Finished ↔ 2 * (max * max) + 2 ≤ schedule.count u := by
  rw [Thread.finished_iff max, run_remaining]
  exact Nat.sub_eq_zero_iff_le

end Remaining

section Schedules

variable {D : Type*} {max k : ℕ} [Add D] [Mul D] [Zero D]

omit [Add D] [Mul D] in
theorem start_counter :
    (start : State D max (Fin k)).counter = Counter.initial := rfl

omit [Add D] [Mul D] [Zero D] in
theorem exists_row_iff (s : State D max (Fin k)) (r : ℕ) :
    (∃ u, (s.threads u).row = some r) ↔ ∃ u, s.counter.draw u = .drawn r :=
  exists_congr fun _ => Thread.row_eq_some

/-- The threads take the first `m` rows for some `m`, and no more than there are threads. -/
theorem exists_rows (a b : Grid D max) (schedule : List (Fin k)) :
    ∃ m ≤ k, ∀ r, (∃ u, ((run a b start schedule).threads u).row = some r) ↔ r < m := by
  obtain ⟨m, hmk, hm⟩ := (Counter.dense_run schedule).exists_drawn_iff
  rw [Fintype.card_fin] at hmk
  refine ⟨m, hmk, fun r => ?_⟩
  rw [exists_row_iff, run_counter, start_counter]
  exact hm r

theorem run_rowsInside (hk : k ≤ max) (a b : Grid D max) (schedule : List (Fin k)) :
    (run a b start schedule).RowsInside := by
  obtain ⟨m, hmk, hrows⟩ := exists_rows a b schedule
  intro u r hu
  have hr : r < m := (hrows r).mp ⟨u, hu⟩
  omega

/-- In whatever order the reads and writes of `k` threads are made, they take the first `m`
rows for some `m` up to `k`.  All other rows keep their zeros, and a row that one thread alone
has taken is the row of the product when that thread is done. -/
theorem multi_rows (hk : k ≤ max) (a b : Grid D max) (schedule : List (Fin k)) :
    let s := run a b start schedule
    s.RowsInside ∧
    (∃ m ≤ k, (∀ r, (∃ u, (s.threads u).row = some r) ↔ r < m) ∧
      ∀ r ≥ m, ∀ c < max, s.matC.get r c = 0) ∧
    ∀ u r, (s.threads u).Finished → (s.threads u).row = some r →
      (∀ v, (s.threads v).row = some r → v = u) →
        ∀ c < max, s.matC.get r c = entry max a.get b.get r c := by
  intro s
  have hinv : Inv a b s := run_inv (start_inv a b) schedule
  obtain ⟨m, hmk, hrows⟩ := exists_rows a b schedule
  refine ⟨run_rowsInside hk a b schedule,
    ⟨m, hmk, hrows, fun r hr => hinv.untaken r fun u hu => ?_⟩, fun u r hdone hu hsole => ?_⟩
  · exact absurd ((hrows r).mp ⟨u, hu⟩) (not_lt.mpr hr)
  · intro c hc
    have hprogress := hinv.owned u r hu hsole
    cases ht : s.threads u with
    | begin | loaded i | storing i j sum rest => simp [ht, Thread.Finished] at hdone
    | adding i rest =>
      cases rest with
      | cons x rest => simp [ht, Thread.Finished] at hdone
      | nil =>
        rw [ht] at hprogress
        obtain ⟨done, hpasses, hrow⟩ := hprogress
        rw [List.append_nil] at hpasses
        rw [hrow c hc, hpasses, partialRow_passes a b r hc]

def ones : Grid ℤ 100 := ⟨fun _ => 1⟩

/-- Threads 0 and 1 read `step_i` before either stores it; thread 2 is about to. -/
theorem multi_rows_five :
    let s := run ones ones start ([0, 1, 0, 1, 2] : List (Fin 5))
    s.RowsInside ∧
    (∃ m ≤ 5, (∀ r, (∃ u, (s.threads u).row = some r) ↔ r < m) ∧
      ∀ r ≥ m, ∀ c < 100, s.matC.get r c = 0) ∧
    ∀ u r, (s.threads u).Finished → (s.threads u).row = some r →
      (∀ v, (s.threads v).row = some r → v = u) →
        ∀ c < 100, s.matC.get r c = entry 100 ones.get ones.get r c :=
  multi_rows (by decide) ones ones [0, 1, 0, 1, 2]

/-- Every `m` from 1 to `k` is possible: the threads may all come to their ends and have
computed no more than one row. -/
theorem multi_rows_possible (hk : k ≤ max) (a b : Grid D max) {m : ℕ} (hm : 1 ≤ m)
    (hmk : m ≤ k) : ∃ schedule : List (Fin k),
      (∀ u, ((run a b start schedule).threads u).Finished) ∧
      (run a b start schedule).RowsInside ∧
      (∀ r, (∃ u, ((run a b start schedule).threads u).row = some r) ↔ r < m) ∧
      ∀ r ≥ m, ∀ c < max, (run a b start schedule).matC.get r c = 0 := by
  obtain ⟨draws, hall, hdraws⟩ := Counter.exists_schedule hm hmk
  let rest : List (Fin k) := (List.finRange k).flatMap (List.replicate (2 * (max * max) + 2))
  have hcounter : (run a b (start : State D max (Fin k)) (draws ++ rest)).counter =
      (Counter.initial.run draws).run rest := by
    rw [run_counter, start_counter]
    exact List.foldl_append
  have hrows : ∀ r, (∃ u, ((run a b start (draws ++ rest)).threads u).row = some r) ↔ r < m := by
    intro r
    rw [exists_row_iff, hcounter, ← hdraws r]
    constructor
    · rintro ⟨u, hu⟩
      obtain ⟨t, ht⟩ := hall u
      have hkept := Counter.draw_run ht rest
      exact ⟨u, ht.trans (hkept.symm.trans hu)⟩
    · rintro ⟨u, hu⟩
      exact ⟨u, Counter.draw_run hu rest⟩
  refine ⟨draws ++ rest, fun u => ?_, run_rowsInside hk a b _, hrows, fun r hr => ?_⟩
  · rw [run_finished_iff, List.count_append, List.count_flatMap]
    have hmem : 2 * (max * max) + 2 ∈
        (List.finRange k).map (List.count u ∘ List.replicate (2 * (max * max) + 2)) :=
      List.mem_map.mpr ⟨u, List.mem_finRange u, List.count_replicate_self⟩
    exact (List.single_le_sum (by simp) _ hmem).trans (Nat.le_add_left _ _)
  · have hinv := run_inv (start_inv a b) (draws ++ rest)
    exact hinv.untaken r fun u hu => absurd ((hrows r).mp ⟨u, hu⟩) (not_lt.mpr hr)

/-- Five threads may compute row 0 and nothing else. -/
theorem multi_rows_possible_one : ∃ schedule : List (Fin 5),
    (∀ u, ((run ones ones start schedule).threads u).Finished) ∧
      (run ones ones start schedule).RowsInside ∧
      (∀ r, (∃ u, ((run ones ones start schedule).threads u).row = some r) ↔ r < 1) ∧
      ∀ r ≥ 1, ∀ c < 100, (run ones ones start schedule).matC.get r c = 0 :=
  multi_rows_possible (by decide) ones ones le_rfl (by decide)

end Schedules

end ParallelPrograms.MatrixMultiply.PthreadTest
