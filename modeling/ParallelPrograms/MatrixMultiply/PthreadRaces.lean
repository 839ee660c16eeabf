import ParallelPrograms.MatrixMultiply.Pthread
import ParallelPrograms.UnlockedSum

namespace ParallelPrograms.MatrixMultiply.Pthread.Races

variable {n : ℕ}

/-- A thread of `matMultiply`: the values of `i`, `j` and `k` that are left, and the sum it is
about to store for the first of them. -/
structure Thread (n : ℕ) where
  rest : List (Fin n × Fin n × Fin n)
  sum : Option (BitVec 32)

structure State (n : ℕ) (ι : Type*) where
  matZ : IntMatrix n
  threads : ι → Thread n

def innerPasses (n : ℕ) (i j : Fin n) : List (Fin n × Fin n × Fin n) :=
  (List.finRange n).map fun k => (i, j, k)

def passes (n : ℕ) : List (Fin n × Fin n × Fin n) :=
  (List.finRange n).flatMap fun i => (List.finRange n).flatMap fun j => innerPasses n i j

section Program

variable {ι : Type*} [DecidableEq ι]

def step (x y : IntMatrix n) (s : State n ι) (u : ι) : State n ι :=
  match s.threads u with
  | ⟨[], _⟩ => s
  | ⟨(i, j, k) :: rest, none⟩ =>
    ⟨s.matZ, Function.update s.threads u
      ⟨(i, j, k) :: rest, some (s.matZ i j + x i k * y k j)⟩⟩
  | ⟨(i, j, _) :: rest, some sum⟩ =>
    ⟨store s.matZ i j sum, Function.update s.threads u ⟨rest, none⟩⟩

def run (x y : IntMatrix n) (s : State n ι) (schedule : List ι) : State n ι :=
  schedule.foldl (step x y) s

def start (z : IntMatrix n) : State n ι := ⟨z, fun _ => ⟨passes n, none⟩⟩

def State.Finished (s : State n ι) : Prop := ∀ u, (s.threads u).rest = []

variable {x y : IntMatrix n} {s : State n ι} {u : ι} {i j k : Fin n}
  {rest : List (Fin n × Fin n × Fin n)}

theorem step_finished (h : (s.threads u).rest = []) : step x y s u = s := by
  cases ht : s.threads u with
  | mk rest sum =>
    rw [ht] at h
    dsimp only at h
    subst h
    rw [step, ht]

theorem step_read (h : s.threads u = ⟨(i, j, k) :: rest, none⟩) : step x y s u =
    ⟨s.matZ, Function.update s.threads u
      ⟨(i, j, k) :: rest, some (s.matZ i j + x i k * y k j)⟩⟩ := by
  rw [step, h]

theorem step_store {sum : BitVec 32} (h : s.threads u = ⟨(i, j, k) :: rest, some sum⟩) :
    step x y s u =
      ⟨store s.matZ i j sum, Function.update s.threads u ⟨rest, none⟩⟩ := by
  rw [step, h]

end Program

def At (i j : Fin n) (p : Fin n × Fin n × Fin n) : Bool := p.1 = i ∧ p.2.1 = j

theorem at_iff {i j : Fin n} {p : Fin n × Fin n × Fin n} : At i j p ↔ p.1 = i ∧ p.2.1 = j := by
  rw [At, decide_eq_true_eq]

theorem filter_passes (i j : Fin n) : (passes n).filter (At i j) = innerPasses n i j := by
  have hinner : ∀ i' j', (innerPasses n i' j').filter (At i j) =
      if i' = i ∧ j' = j then innerPasses n i' j' else [] := by
    intro i' j'
    split_ifs with h
    · refine List.filter_eq_self.mpr fun p hp => ?_
      obtain ⟨k, -, rfl⟩ := List.mem_map.mp hp
      exact at_iff.mpr h
    · refine List.filter_eq_nil_iff.mpr fun p hp => ?_
      obtain ⟨k, -, rfl⟩ := List.mem_map.mp hp
      exact fun hat => h (at_iff.mp hat)
  rw [passes, List.filter_flatMap]
  refine (Shared.flatMap_single (List.nodup_finRange n) (List.mem_finRange i)
    fun i' hi => ?_).trans ?_
  · rw [List.filter_flatMap]
    refine List.flatMap_eq_nil_iff.mpr fun j' _ => ?_
    rw [hinner, if_neg fun h => hi h.1]
  · rw [List.filter_flatMap]
    refine (Shared.flatMap_single (List.nodup_finRange n) (List.mem_finRange j)
      fun j' hj => ?_).trans ?_
    · rw [hinner, if_neg fun h => hj h.2]
    · rw [hinner, if_pos ⟨rfl, rfl⟩]

theorem passes_visits (i j : Fin n) :
    Shared.Visits (passes n) (At i j) fun k => (i, j, k) where
  filter := filter_passes i j
  injective _ _ h := congrArg (fun p : Fin n × Fin n × Fin n => p.2.2) h

section View

variable {ι : Type*} [DecidableEq ι] {x y : IntMatrix n} {s : State n ι}

def term (x y : IntMatrix n) (i j : Fin n) (k : ℕ) : BitVec 32 :=
  if h : k < n then x i ⟨k, h⟩ * y ⟨k, h⟩ j else 0

def State.element (s : State n ι) (i j : Fin n) : Shared (BitVec 32) ι :=
  ⟨s.matZ i j, fun u => Shared.loopAdder n (At i j) (s.threads u).rest (s.threads u).sum⟩

def State.Regular (s : State n ι) : Prop := ∀ u, (s.threads u).rest <:+ passes n

omit [DecidableEq ι] in
theorem start_regular (z : IntMatrix n) : (start z : State n ι).Regular :=
  fun _ => List.suffix_rfl

theorem State.Regular.step (h : s.Regular) (u : ι) : (step x y s u).Regular := by
  have hupdate : ∀ (z : IntMatrix n) (t : Thread n), t.rest <:+ (s.threads u).rest →
      State.Regular ⟨z, Function.update s.threads u t⟩ := by
    intro z t ht v
    by_cases hv : v = u
    · subst hv
      dsimp only
      rw [Function.update_self]
      exact ht.trans (h v)
    · dsimp only
      rw [Function.update_of_ne hv]
      exact h v
  cases ht : s.threads u with
  | mk rest sum =>
    match rest, sum with
    | [], sum => rwa [step_finished (by rw [ht])]
    | (i, j, k) :: rest, none =>
      rw [step_read ht]
      exact hupdate _ _ (by rw [ht])
    | (i, j, k) :: rest, some sum =>
      rw [step_store ht]
      exact hupdate _ _ (by rw [ht]; exact List.suffix_cons _ _)

theorem element_update (z : IntMatrix n) (u : ι) (t : Thread n) (i j : Fin n) :
    (State.mk z (Function.update s.threads u t)).element i j =
      ⟨z i j, Function.update (s.element i j).adder u
        (Shared.loopAdder n (At i j) t.rest t.sum)⟩ := by
  refine congrArg (Shared.mk _) (funext fun v => ?_)
  dsimp only
  by_cases hv : v = u
  · subst hv
    rw [Function.update_self, Function.update_self]
  · rw [Function.update_of_ne hv, Function.update_of_ne hv]
    rfl

/-- A step is one for the element of its assignment, and none for the others. -/
theorem step_element (h : s.Regular) (u : ι) (i j : Fin n) : ∃ schedule : List ι,
    (step x y s u).element i j = (s.element i j).run (term x y i j) n schedule := by
  cases ht : s.threads u with
  | mk rest sum =>
    have hsuffix : rest <:+ passes n := by
      have hu := h u
      rwa [ht] at hu
    have hadder : (s.element i j).adder u = Shared.loopAdder n (At i j) rest sum := by
      dsimp only [State.element]
      rw [ht]
    match rest, sum with
    | [], sum => exact ⟨[], by rw [step_finished (by rw [ht])]; rfl⟩
    | (i', j', k) :: rest, none =>
      rw [step_read ht, element_update]
      dsimp only
      by_cases hat : At i j (i', j', k) = true
      · obtain ⟨rfl, rfl⟩ := at_iff.mp hat
        rw [(passes_visits i' j').adder hsuffix] at hadder ⊢
        have hread := Shared.step_read (f := term x y i' j') hadder k.isLt
        rw [term, dif_pos k.isLt] at hread
        exact ⟨[u], hread.symm⟩
      · rw [Shared.loopAdder_elsewhere n (Bool.eq_false_iff.mpr hat)] at hadder ⊢
        rw [← hadder, Function.update_eq_self]
        exact ⟨[], rfl⟩
    | (i', j', k) :: rest, some sum =>
      rw [step_store ht, element_update]
      dsimp only
      by_cases hat : At i j (i', j', k) = true
      · obtain ⟨rfl, rfl⟩ := at_iff.mp hat
        rw [(passes_visits i' j').adder hsuffix] at hadder
        rw [(passes_visits i' j').adder_rest hsuffix, store_self]
        exact ⟨[u], (Shared.step_store hadder).symm⟩
      · rw [Shared.loopAdder_elsewhere n (Bool.eq_false_iff.mpr hat)] at hadder
        rw [← hadder, Function.update_eq_self,
          store_ne _ _ fun hi => hat (at_iff.mpr ⟨hi.1.symm, hi.2.symm⟩)]
        exact ⟨[], rfl⟩

theorem run_element (h : s.Regular) (schedule : List ι) (i j : Fin n) :
    ∃ schedule' : List ι, (run x y s schedule).element i j =
      (s.element i j).run (term x y i j) n schedule' := by
  induction schedule generalizing s with
  | nil => exact ⟨[], rfl⟩
  | cons u schedule ih =>
    obtain ⟨first, hfirst⟩ := step_element (x := x) (y := y) h u i j
    obtain ⟨rest, hrest⟩ := ih (h.step u)
    refine ⟨first ++ rest, ?_⟩
    rw [Shared.run_append, ← hfirst]
    exact hrest

omit [DecidableEq ι] in
theorem element_start (z : IntMatrix n) (i j : Fin n) :
    (start z : State n ι).element i j = Shared.start (z i j) :=
  congrArg (Shared.mk _) (funext fun _ => (passes_visits i j).start)

omit [DecidableEq ι] in
theorem State.Finished.done (h : s.Finished) (i j : Fin n) (u : ι) :
    (s.element i j).done u = n := by
  rw [Shared.done, State.element]
  dsimp only
  rw [h u, Shared.loopAdder_nil]

end View

section Arrived

variable {ι : Type*} [Fintype ι] [Nonempty ι] [DecidableEq ι]

theorem sum_term (x y : IntMatrix n) (i j : Fin n) {ks : Finset ℕ} (h : ∀ k ∈ ks, k < n) :
    ∑ k ∈ ks, term x y i j k = ∑ k ∈ ks.attachFin h, x i k * y k j := by
  calc ∑ k ∈ ks, term x y i j k
      = ∑ k ∈ (ks.attachFin h).map Fin.valEmbedding, term x y i j k := by
        rw [Finset.map_valEmbedding_attachFin]
    _ = ∑ k ∈ ks.attachFin h, term x y i j k := Finset.sum_map ..
    _ = ∑ k ∈ ks.attachFin h, x i k * y k j :=
        Finset.sum_congr rfl fun k _ => dif_pos k.isLt

/-- The products that have arrived in an element when all threads have finished. -/
theorem exists_arrived (hn : 1 ≤ n) {x y z : IntMatrix n} {schedule : List ι}
    (hdone : (run x y (start z) schedule).Finished) (i j : Fin n) :
    ∃ arrived : ι → Finset ℕ, (run x y (start z) schedule).matZ i j =
        z i j + ∑ u, ∑ k ∈ arrived u, term x y i j k ∧
      (∀ u, arrived u ⊆ Finset.range n) ∧ (∃ u, 0 ∈ arrived u) ∧ ∃ u, n - 1 ∈ arrived u := by
  obtain ⟨schedule', hrun⟩ := run_element (x := x) (y := y) (start_regular z) schedule i j
  rw [element_start] at hrun
  have hinv := Shared.run_inv (Shared.start_inv (ι := ι) (term x y i j) n (z i j)) schedule'
  rw [← hrun] at hinv
  have hall := hdone.done i j
  obtain ⟨w⟩ := ‹Nonempty ι›
  obtain ⟨arrived, hvalue, hsub, hfirst, hlast⟩ := hinv.arrived (fun u => .inr (hall u))
    ⟨w, by rw [hall]; exact hn⟩
  simp only [hall] at hsub
  exact ⟨arrived, hvalue, hsub, hfirst, hlast⟩

/-- Whatever the threads do to each other, every element is what it was, and some products of
each thread: no product is there more than once for a thread, a first and a last one are there. -/
theorem matMultiply_arrived (hn : 1 ≤ n) (x y z : IntMatrix n) (schedule : List ι)
    (hdone : (run x y (start z) schedule).Finished) (i j : Fin n) :
    ∃ arrived : ι → Finset (Fin n), (∃ u, ⟨0, hn⟩ ∈ arrived u) ∧
      (∃ u, ⟨n - 1, Nat.sub_one_lt_of_lt hn⟩ ∈ arrived u) ∧
      (run x y (start z) schedule).matZ i j =
        z i j + ∑ u, ∑ k ∈ arrived u, x i k * y k j := by
  obtain ⟨arrived, hvalue, hsub, ⟨u, hu⟩, v, hv⟩ := exists_arrived hn hdone i j
  have hlt : ∀ u, ∀ k ∈ arrived u, k < n := fun u k hk => Finset.mem_range.mp (hsub u hk)
  refine ⟨fun u => (arrived u).attachFin (hlt u), ⟨u, (Finset.mem_attachFin _).mpr hu⟩,
    ⟨v, (Finset.mem_attachFin _).mpr hv⟩, ?_⟩
  rw [← Finset.sum_congr rfl fun u _ => sum_term x y i j (hlt u)]
  exact hvalue

/-- Two threads, one step each in turn: both read before they store, so that one of two products
is lost. -/
def inTurn : List (Fin 2) := (List.replicate 16 (List.finRange 2)).flatten

def twoByTwo : IntMatrix 2 := fun i j => BitVec.ofNat 32 (i + j + 1)

theorem matMultiply_arrived_two :
    let s := run twoByTwo twoByTwo (start 0) inTurn
    ∃ arrived : Fin 2 → Finset (Fin 2), (∃ u, 0 ∈ arrived u) ∧ (∃ u, 1 ∈ arrived u) ∧
      s.matZ 0 1 = 0 + ∑ u, ∑ k ∈ arrived u, twoByTwo 0 k * twoByTwo k 1 :=
  matMultiply_arrived (by decide) twoByTwo twoByTwo 0 inTurn
    (fun u => by fin_cases u <;> rfl) 0 1

end Arrived

section Follows

variable {ι : Type*} [DecidableEq ι] {x y : IntMatrix n} {s : State n ι} {i j : Fin n}
  {later : List (Fin n × Fin n × Fin n)} {z : IntMatrix n} {c : Shared (BitVec 32) ι}

/-- The threads are at the innermost loop for `z[i][j]`, where `c` is. -/
structure Follows (i j : Fin n) (later : List (Fin n × Fin n × Fin n)) (z : IntMatrix n)
    (s : State n ι) (c : Shared (BitVec 32) ι) : Prop where
  value : s.matZ i j = c.value
  others : ∀ i' j', ¬ (i' = i ∧ j' = j) → s.matZ i' j' = z i' j'
  threads : ∀ u, s.threads u =
    ⟨(innerPasses n i j).drop (c.done u) ++ later, (c.adder u).sum⟩

theorem drop_innerPasses {d : ℕ} (hd : d < n) : (innerPasses n i j).drop d =
    (i, j, ⟨d, hd⟩) :: (innerPasses n i j).drop (d + 1) := by
  have hlength : d < (innerPasses n i j).length := by
    rwa [innerPasses, List.length_map, List.length_finRange]
  rw [List.drop_eq_getElem_cons hlength]
  congr 1
  simp [innerPasses]

/-- As long as a thread is not behind the loop, its step is that of the shared sum. -/
theorem Follows.step (h : Follows i j later z s c) {u : ι}
    (hu : Shared.steps (c.adder u) < 2 * n) :
    Follows i j later z (step x y s u) (c.step (term x y i j) n u) := by
  have hthread := h.threads u
  cases hc : c.adder u with
  | mk d sum =>
    rw [hc] at hu
    have hdone : c.done u = d := by rw [Shared.done, hc]
    cases sum with
    | none =>
      have hd : 2 * d + 0 < 2 * n := hu
      have hd : d < n := by omega
      rw [hdone, hc, drop_innerPasses hd, List.cons_append] at hthread
      rw [step_read hthread, Shared.step_read hc hd]
      refine ⟨h.value, h.others, fun v => ?_⟩
      by_cases hv : v = u
      · subst hv
        rw [Shared.done]
        dsimp only
        rw [Function.update_self, Function.update_self, drop_innerPasses hd, h.value, term,
          dif_pos hd, List.cons_append]
      · rw [Shared.done]
        dsimp only
        rw [Function.update_of_ne hv, Function.update_of_ne hv, h.threads v, Shared.done]
    | some sum =>
      have hd : 2 * d + 1 < 2 * n := hu
      have hd : d < n := by omega
      rw [hdone, hc, drop_innerPasses hd, List.cons_append] at hthread
      rw [step_store hthread, Shared.step_store hc]
      refine ⟨store_self .., fun i' j' hne => ?_, fun v => ?_⟩
      · dsimp only
        rw [store_ne _ _ hne, h.others i' j' hne]
      · by_cases hv : v = u
        · subst hv
          rw [Shared.done]
          dsimp only
          rw [Function.update_self, Function.update_self]
        · rw [Shared.done]
          dsimp only
          rw [Function.update_of_ne hv, Function.update_of_ne hv, h.threads v, Shared.done]

theorem Follows.run (h : Follows i j later z s c) {schedule : List ι}
    (hsteps : ∀ u, Shared.steps (c.adder u) + schedule.count u ≤ 2 * n) :
    Follows i j later z (run x y s schedule) (c.run (term x y i j) n schedule) := by
  induction schedule generalizing s c with
  | nil => exact h
  | cons u schedule ih =>
    have hu := hsteps u
    rw [List.count_cons_self] at hu
    refine ih (h.step (by omega)) fun v => ?_
    by_cases hv : v = u
    · subst hv
      rw [Shared.steps_step (by omega)]
      omega
    · have hv' := hsteps v
      rw [List.count_cons_of_ne (Ne.symm hv)] at hv'
      rwa [Shared.step_adder_ne hv]

/-- A complete schedule takes the threads through the loop for `z[i][j]`. -/
theorem run_innerPasses (hs : ∀ u, s.threads u = ⟨innerPasses n i j ++ later, none⟩)
    {schedule : List ι} (hcount : ∀ u, schedule.count u = 2 * n) :
    (∀ u, (run x y s schedule).threads u = ⟨later, none⟩) ∧
      (run x y s schedule).matZ i j =
        ((Shared.start (s.matZ i j)).run (term x y i j) n schedule).value ∧
      ∀ i' j', ¬ (i' = i ∧ j' = j) → (run x y s schedule).matZ i' j' = s.matZ i' j' := by
  have hstart : Follows i j later s.matZ s (Shared.start (s.matZ i j)) :=
    ⟨rfl, fun _ _ _ => rfl, fun u => hs u⟩
  have hsteps : ∀ u : ι, Shared.steps ((Shared.start (s.matZ i j) : Shared (BitVec 32) ι).adder u)
      + schedule.count u ≤ 2 * n := fun u => by
    rw [hcount]
    exact (Nat.zero_add _).le
  have hend := hstart.run (x := x) (y := y) hsteps
  refine ⟨fun u => ?_, hend.value, hend.others⟩
  have hadder := Shared.eq_of_steps
    ((Shared.steps_run (f := term x y i j) hsteps u).trans (by rw [hcount]; exact Nat.zero_add _))
  rw [hend.threads u, Shared.done, hadder]
  dsimp only
  rw [List.drop_of_length_le (by simp [innerPasses]), List.nil_append]

theorem run_cells {schedule : List ι} (hcount : ∀ u, schedule.count u = 2 * n)
    {cells : List (Fin n × Fin n)} (hcells : cells.Nodup)
    (hs : ∀ u, s.threads u = ⟨cells.flatMap fun p => innerPasses n p.1 p.2, none⟩) :
    (run x y s (cells.flatMap fun _ => schedule)).Finished ∧
      ∀ i j, (run x y s (cells.flatMap fun _ => schedule)).matZ i j =
        if (i, j) ∈ cells then
          ((Shared.start (s.matZ i j)).run (term x y i j) n schedule).value
        else s.matZ i j := by
  induction cells generalizing s with
  | nil => exact ⟨fun u => by rw [List.flatMap_nil, run, List.foldl_nil, hs]; rfl, fun i j => rfl⟩
  | cons p cells ih =>
    obtain ⟨hp, hcells⟩ := List.nodup_cons.mp hcells
    obtain ⟨hthreads, hself, hother⟩ := run_innerPasses (x := x) (y := y) hs hcount
    obtain ⟨hfinished, hvalues⟩ := ih hcells hthreads
    have hsplit : run x y s ((p :: cells).flatMap fun _ => schedule) =
        run x y (run x y s schedule) (cells.flatMap fun _ => schedule) := List.foldl_append
    rw [hsplit]
    refine ⟨hfinished, fun i j => ?_⟩
    rw [hvalues]
    by_cases hij : i = p.1 ∧ j = p.2
    · obtain ⟨rfl, rfl⟩ := hij
      rw [if_neg hp, if_pos List.mem_cons_self, hself]
    · have hne : (i, j) ≠ p := fun heq => hij ⟨congrArg Prod.fst heq, congrArg Prod.snd heq⟩
      rw [hother i j hij]
      simp only [List.mem_cons, hne, false_or]

end Follows

section Serial

variable {ι : Type*} [DecidableEq ι]

def assign (x y : IntMatrix n) (z : IntMatrix n) (p : Fin n × Fin n × Fin n) : IntMatrix n :=
  store z p.1 p.2.1 (z p.1 p.2.1 + x p.1 p.2.2 * y p.2.2 p.2.1)

theorem foldl_passes (x y z : IntMatrix n) :
    (passes n).foldl (assign x y) z = accumulate x y z := by
  simp only [passes, innerPasses, List.foldl_flatMap, List.foldl_map, accumulate, assign]

theorem run_alone (x y : IntMatrix n) {s : State n ι} {u : ι}
    {rest : List (Fin n × Fin n × Fin n)} (hu : s.threads u = ⟨rest, none⟩) :
    run x y s (List.replicate (2 * rest.length) u) =
      ⟨rest.foldl (assign x y) s.matZ, Function.update s.threads u ⟨[], none⟩⟩ := by
  induction rest generalizing s with
  | nil =>
    rw [← hu, Function.update_eq_self]
    rfl
  | cons p rest ih =>
    obtain ⟨i, j, k⟩ := p
    have hread := step_read (x := x) (y := y) hu
    have hstore : step x y (step x y s u) u =
        ⟨assign x y s.matZ (i, j, k), Function.update s.threads u ⟨rest, none⟩⟩ := by
      rw [hread, step_store (Function.update_self ..)]
      dsimp only
      rw [Function.update_idem]
      rfl
    have hsplit : run x y s (List.replicate (2 * (rest.length + 1)) u) =
        run x y (step x y (step x y s u) u) (List.replicate (2 * rest.length) u) := rfl
    rw [List.length_cons, hsplit, hstore, ih (Function.update_self ..), Function.update_idem]
    rfl

/-- Threads that do not overlap do what `runThreads` does. -/
theorem run_serial (x y z : IntMatrix n) {order : List ι} (horder : order.Nodup) :
    (run x y (start z) (order.flatMap fun u => List.replicate (2 * (passes n).length) u)).matZ =
      (runThreads (List.range order.length) ⟨x, y, z⟩).matZ := by
  have hserial : ∀ (order : List ι) (s : State n ι), order.Nodup →
      (∀ u ∈ order, s.threads u = ⟨passes n, none⟩) →
        (run x y s (order.flatMap fun u => List.replicate (2 * (passes n).length) u)).matZ =
          s.matZ + order.length • (x * y) := by
    intro order
    induction order with
    | nil =>
      intro s _ _
      rw [List.length_nil, zero_nsmul, add_zero]
      rfl
    | cons u order ih =>
      intro s hnodup hs
      obtain ⟨hu, hnodup⟩ := List.nodup_cons.mp hnodup
      have hfirst := run_alone x y (hs u List.mem_cons_self)
      have hsplit : run x y s
          ((u :: order).flatMap fun u => List.replicate (2 * (passes n).length) u) =
          run x y (run x y s (List.replicate (2 * (passes n).length) u))
            (order.flatMap fun u => List.replicate (2 * (passes n).length) u) :=
        List.foldl_append
      rw [hsplit, ih _ hnodup fun v hv => ?_, hfirst]
      · dsimp only
        rw [foldl_passes, accumulate_eq, List.length_cons, succ_nsmul', add_assoc]
      · rw [hfirst]
        dsimp only
        rw [Function.update_of_ne (ne_of_mem_of_not_mem hv hu)]
        exact hs v (List.mem_cons_of_mem u hv)
  rw [runThreads_eq, List.length_range]
  exact hserial order (start z) horder fun _ _ => rfl

end Serial

section Outcomes

variable {ι : Type*} [Fintype ι] [DecidableEq ι]

def cells (n : ℕ) : List (Fin n × Fin n) := (List.finRange n).product (List.finRange n)

theorem passes_eq (n : ℕ) :
    passes n = (cells n).flatMap fun p => innerPasses n p.1 p.2 := by
  simp only [passes, cells, List.product, List.flatMap_assoc, List.flatMap_map]

omit [Fintype ι] in
theorem run_all {schedule : List ι} (hcount : ∀ u, schedule.count u = 2 * n)
    (x y z : IntMatrix n) :
    (run x y (start z) ((cells n).flatMap fun _ => schedule)).Finished ∧
      ∀ i j, (run x y (start z) ((cells n).flatMap fun _ => schedule)).matZ i j =
        ((Shared.start (z i j)).run (term x y i j) n schedule).value := by
  have hnodup : (cells n).Nodup :=
    (List.nodup_finRange n).product (List.nodup_finRange n)
  obtain ⟨hfinished, hvalues⟩ := run_cells (x := x) (y := y) (s := start z) hcount hnodup
    fun u => by rw [start, passes_eq]
  refine ⟨hfinished, fun i j => ?_⟩
  have hmem : (i, j) ∈ cells n :=
    List.mem_product.mpr ⟨List.mem_finRange i, List.mem_finRange j⟩
  rw [hvalues, if_pos hmem]
  rfl

omit [Fintype ι] [DecidableEq ι] in
theorem sum_range_term (x y : IntMatrix n) (i j : Fin n) :
    ∑ k ∈ Finset.range n, term x y i j k = (x * y) i j := by
  rw [Matrix.mul_apply, Finset.sum_range]
  exact Finset.sum_congr rfl fun k _ => dif_pos k.isLt

/-- The products that are lost may be exactly those that are too many, or nearly all of them. -/
theorem matMultiply_outcomes (hn : 2 ≤ n) (hthreads : 2 ≤ Fintype.card ι) :
    (∃ schedule : List ι, ∀ x y z : IntMatrix n, (run x y (start z) schedule).Finished ∧
      (run x y (start z) schedule).matZ = z + x * y) ∧
    ∃ schedule : List ι, ∀ x y z : IntMatrix n, (run x y (start z) schedule).Finished ∧
      ∀ i j, (run x y (start z) schedule).matZ i j = z i j + x i ⟨0, by omega⟩ * y ⟨0, by omega⟩ j +
        x i ⟨n - 1, by omega⟩ * y ⟨n - 1, by omega⟩ j := by
  obtain ⟨u, w, hne⟩ := Fintype.one_lt_card_iff.mp hthreads
  constructor
  · obtain ⟨schedule, hcount, hvalue⟩ := Shared.exists_late (D := BitVec 32) (n := n) (by omega) u
      (m := fun _ => 0) fun _ => Nat.zero_le n
    refine ⟨_, fun x y z => ⟨(run_all hcount x y z).1, Matrix.ext fun i j => ?_⟩⟩
    rw [(run_all hcount x y z).2, hvalue, sum_range_term]
    simp only [Finset.sum_range_zero, Finset.sum_const_zero, add_zero, Matrix.add_apply]
  · obtain ⟨schedule, hcount, hvalue⟩ :=
      Shared.exists_lossy (D := BitVec 32) hn hne.symm (Nat.zero_le (n - 1))
    refine ⟨_, fun x y z => ⟨(run_all hcount x y z).1, fun i j => ?_⟩⟩
    rw [(run_all hcount x y z).2, hvalue, Finset.sum_range_zero, add_zero, term, term,
      dif_pos (by omega), dif_pos (by omega)]

/-- Two threads on a product of two by two. -/
theorem matMultiply_outcomes_two :
    (∃ schedule : List (Fin 2), ∀ x y z : IntMatrix 2, (run x y (start z) schedule).Finished ∧
      (run x y (start z) schedule).matZ = z + x * y) ∧
    ∃ schedule : List (Fin 2), ∀ x y z : IntMatrix 2, (run x y (start z) schedule).Finished ∧
      ∀ i j, (run x y (start z) schedule).matZ i j = z i j + x i 0 * y 0 j + x i 1 * y 1 j :=
  matMultiply_outcomes le_rfl (by decide)

def allOnes (n : ℕ) : IntMatrix n := fun _ _ => 1

omit [Fintype ι] [DecidableEq ι] in
theorem term_allOnes (i j : Fin n) {k : ℕ} (hk : k < n) :
    term (allOnes n) (allOnes n) i j k = 1 := by
  rw [term, dif_pos hk]
  rfl

theorem nsmul_one_eq (c : ℕ) : c • (1 : BitVec 32) = BitVec.ofNat 32 c := by
  rw [nsmul_one]
  rfl

/-- The numbers of products that the elements of a product of ones may end up with are those
from 2 to all of them. -/
theorem matMultiply_counts (hn : 2 ≤ n) (hthreads : 2 ≤ Fintype.card ι)
    (hfits : n * Fintype.card ι < 2 ^ 32) (z : IntMatrix n) {c : ℕ} (hc : c < 2 ^ 32) :
    (∃ schedule : List ι, (run (allOnes n) (allOnes n) (start z) schedule).Finished ∧
      ∀ i j, (run (allOnes n) (allOnes n) (start z) schedule).matZ i j =
        z i j + BitVec.ofNat 32 c) ↔ 2 ≤ c ∧ c ≤ n * Fintype.card ι := by
  constructor
  · rintro ⟨schedule, hdone, hvalues⟩
    have : Nonempty ι := Fintype.card_pos_iff.mp (by omega)
    obtain ⟨arrived, hvalue, hsub, hfirst, hlast⟩ :=
      exists_arrived (by omega) hdone ⟨0, by omega⟩ ⟨0, by omega⟩
    obtain ⟨htwo, hle⟩ := Shared.arrived_card hn hsub hfirst hlast
    have hsum : ∑ u, ∑ k ∈ arrived u, term (allOnes n) (allOnes n) ⟨0, by omega⟩ ⟨0, by omega⟩ k =
        BitVec.ofNat 32 (∑ u, (arrived u).card) := by
      rw [← nsmul_one_eq, ← Finset.sum_nsmul_assoc]
      refine Finset.sum_congr rfl fun u _ => ?_
      rw [← Finset.sum_const]
      exact Finset.sum_congr rfl fun k hk => term_allOnes _ _ (Finset.mem_range.mp (hsub u hk))
    have hequal : BitVec.ofNat 32 c = BitVec.ofNat 32 (∑ u, (arrived u).card) := by
      rw [← hsum]
      exact add_left_cancel ((hvalues _ _).symm.trans hvalue)
    have hnat := congrArg BitVec.toNat hequal
    rw [BitVec.toNat_ofNat, BitVec.toNat_ofNat, Nat.mod_eq_of_lt hc,
      Nat.mod_eq_of_lt (hle.trans_lt hfits)] at hnat
    rw [hnat]
    exact ⟨htwo, hle⟩
  · rintro ⟨htwo, hle⟩
    obtain ⟨schedule, hcount, hvalue⟩ := Shared.exists_terms (D := BitVec 32) hn hthreads htwo hle
    refine ⟨_, (run_all hcount _ _ z).1, fun i j => ?_⟩
    rw [(run_all hcount _ _ z).2, ← nsmul_one_eq, ← hvalue,
      Shared.run_congr fun k hk => term_allOnes i j hk]

theorem matMultiply_counts_two :
    (∃ schedule : List (Fin 2), (run (allOnes 2) (allOnes 2) (start 0) schedule).Finished ∧
      ∀ i j, (run (allOnes 2) (allOnes 2) (start 0) schedule).matZ i j = 0 + BitVec.ofNat 32 3) ∧
    ¬ ∃ schedule : List (Fin 2), (run (allOnes 2) (allOnes 2) (start 0) schedule).Finished ∧
      ∀ i j, (run (allOnes 2) (allOnes 2) (start 0) schedule).matZ i j = 0 + BitVec.ofNat 32 1 :=
  ⟨(matMultiply_counts le_rfl (by decide) (by decide) 0 (by decide)).mpr (by decide), fun h =>
    absurd ((matMultiply_counts le_rfl (by decide) (by decide) 0 (by decide)).mp h) (by decide)⟩

end Outcomes

end ParallelPrograms.MatrixMultiply.Pthread.Races
