import ParallelPrograms.MatrixMultiply.PthreadTest
import ParallelPrograms.UnlockedSum

namespace ParallelPrograms.MatrixMultiply.PthreadTest
open Mpi

section View

variable {D ι : Type*} {max : ℕ}

def InColumn (c : ℕ) (x : ℕ × ℕ) : Bool := x.1 = c

theorem inColumn_iff {c : ℕ} {x : ℕ × ℕ} : InColumn c x ↔ x.1 = c := by
  rw [InColumn, decide_eq_true_eq]

theorem passes_visits {c : ℕ} (hc : c < max) :
    Shared.Visits (passes max) (InColumn c) fun k : Fin max => (c, (k : ℕ)) where
  filter := by
    have hinner : ∀ j, j ≠ c → ((List.range max).map fun k => (j, k)).filter (InColumn c) = [] := by
      intro j hj
      refine List.filter_eq_nil_iff.mpr fun x hx => ?_
      obtain ⟨k, -, rfl⟩ := List.mem_map.mp hx
      exact fun hin => hj (inColumn_iff.mp hin)
    have hcolumn : ((List.range max).map fun k => (c, k)).filter (InColumn c) =
        (List.range max).map fun k => (c, k) := by
      refine List.filter_eq_self.mpr fun x hx => ?_
      obtain ⟨k, -, rfl⟩ := List.mem_map.mp hx
      exact inColumn_iff.mpr rfl
    rw [passes, List.filter_flatMap,
      Shared.flatMap_single List.nodup_range (List.mem_range.mpr hc) hinner, hcolumn,
      ← List.map_coe_finRange_eq_range, List.map_map]
    rfl
  injective k k' h := Fin.ext (congrArg Prod.snd h)

def Thread.adder (max r c : ℕ) : Thread D → Adder D
  | .begin | .loaded _ => ⟨0, none⟩
  | .adding i rest => if i = r then Shared.loopAdder max (InColumn c) rest none else ⟨0, none⟩
  | .storing i j sum rest =>
    if i = r then Shared.loopAdder max (InColumn c) ((j, 0) :: rest) (some sum) else ⟨0, none⟩

def State.element (s : State D max ι) (r c : ℕ) : Shared D ι :=
  ⟨s.matC.get r c, fun u => (s.threads u).adder max r c⟩

/-- The passes a thread has yet to make end the loops. -/
def Thread.Regular (max : ℕ) : Thread D → Prop
  | .begin | .loaded _ => True
  | .adding _ rest => rest <:+ passes max
  | .storing _ j _ rest => ∃ k < max, (j, k) :: rest <:+ passes max

theorem loopAdder_storing {c j k : ℕ} (rest : List (ℕ × ℕ)) (sum : Option D) :
    Shared.loopAdder max (InColumn c) ((j, 0) :: rest) sum =
      Shared.loopAdder max (InColumn c) ((j, k) :: rest) sum := by
  have hin : InColumn c (j, 0) = InColumn c (j, k) := rfl
  rw [Shared.loopAdder, Shared.loopAdder, List.filter_cons, List.filter_cons, List.head?_cons,
    List.head?_cons, Option.any_some, Option.any_some, hin]
  split_ifs
  · rw [List.length_cons, List.length_cons]
  · rfl

variable [DecidableEq ι]

theorem element_put (s : State D max ι) (u : ι) (t : Thread D) (stepI : ℕ) (matC : Grid D max)
    (r c : ℕ) : (State.mk stepI matC (s.put u t).threads).element r c =
      ⟨matC.get r c, Function.update (s.element r c).adder u (t.adder max r c)⟩ := by
  refine congrArg (Shared.mk _) (funext fun v => ?_)
  by_cases hv : v = u
  · subst hv
    rw [put_self, Function.update_self]
  · rw [put_of_ne s t hv, Function.update_of_ne hv]
    rfl

variable [AddCommMonoid D] [Mul D] {a b : Grid D max} {s : State D max ι}

theorem passes_bounds {j k : ℕ} {rest : List (ℕ × ℕ)} (h : (j, k) :: rest <:+ passes max) :
    j < max ∧ k < max := by
  have hmem : (j, k) ∈ passes max := h.subset List.mem_cons_self
  obtain ⟨j', hj, hx⟩ := List.mem_flatMap.mp hmem
  obtain ⟨k', hk, heq⟩ := List.mem_map.mp hx
  obtain ⟨rfl, rfl⟩ := Prod.mk.inj heq
  exact ⟨List.mem_range.mp hj, List.mem_range.mp hk⟩

theorem regular_step (h : ∀ u, (s.threads u).Regular max) (u v : ι) :
    ((step a b s u).threads v).Regular max := by
  by_cases hv : v = u
  · subst hv
    have hthread := h v
    cases ht : s.threads v with
    | begin => simp only [step, ht, put_self, Thread.Regular]
    | loaded i => simp only [step, ht, put_self, Thread.Regular, List.suffix_rfl]
    | adding i rest =>
      rw [ht] at hthread
      cases rest with
      | nil => simpa only [step, ht] using hthread
      | cons x rest =>
        obtain ⟨j, k⟩ := x
        simp only [step, ht, put_self]
        exact ⟨k, (passes_bounds hthread).2, hthread⟩
    | storing i j sum rest =>
      rw [ht] at hthread
      obtain ⟨k, -, hk⟩ := hthread
      simp only [step, ht, put_self]
      exact (List.suffix_cons _ _).trans hk
  · rw [step_of_ne a b s hv]
    exact h v

/-- A step is one for the element of its assignment, and none for the others. -/
theorem step_element (h : ∀ u, (s.threads u).Regular max) (u : ι) (r : ℕ) {c : ℕ} (hc : c < max) :
    ∃ schedule : List ι, (step a b s u).element r c =
      (s.element r c).run (fun k => a.get r k * b.get k c) max schedule := by
  have hthread := h u
  have hsame : ∀ (t : Thread D) (stepI : ℕ) (matC : Grid D max),
      matC.get r c = s.matC.get r c → t.adder max r c = (s.threads u).adder max r c →
        (State.mk stepI matC (s.put u t).threads).element r c = s.element r c := by
    intro t stepI matC hvalue ht
    rw [element_put, ht, hvalue]
    exact congrArg (Shared.mk _) (Function.update_eq_self ..)
  cases ht : s.threads u with
  | begin =>
    simp only [step, ht]
    exact ⟨[], hsame _ _ _ rfl (by rw [ht]; rfl)⟩
  | loaded i =>
    simp only [step, ht]
    refine ⟨[], hsame _ _ _ rfl ?_⟩
    rw [ht, Thread.adder, Thread.adder, (passes_visits hc).start]
    exact ite_self _
  | adding i rest =>
    rw [ht] at hthread
    cases rest with
    | nil => exact ⟨[], by simp only [step, ht]; rfl⟩
    | cons x rest =>
      obtain ⟨j, k⟩ := x
      have hk := (passes_bounds hthread).2
      simp only [step, ht]
      by_cases hat : i = r ∧ j = c
      · obtain ⟨rfl, rfl⟩ := hat
        have hadder : (s.element i j).adder u = ⟨k, none⟩ := by
          dsimp only [State.element]
          rw [ht, Thread.adder, if_pos rfl]
          exact (passes_visits hc).adder (k := ⟨k, hk⟩) hthread none
        refine ⟨[u], (element_put ..).trans ?_⟩
        rw [Thread.adder, if_pos rfl, loopAdder_storing]
        refine Eq.trans ?_ (Shared.step_read hadder hk).symm
        rw [(passes_visits hc).adder (k := ⟨k, hk⟩) hthread]
        rfl
      · refine ⟨[], hsame _ _ _ rfl ?_⟩
        rw [ht, Thread.adder, Thread.adder]
        split_ifs with hi
        · have hj : InColumn c (j, k) = false :=
            Bool.eq_false_iff.mpr fun hin => hat ⟨hi, inColumn_iff.mp hin⟩
          rw [loopAdder_storing, Shared.loopAdder_elsewhere max hj,
            Shared.loopAdder_elsewhere max hj]
        · rfl
  | storing i j sum rest =>
    rw [ht] at hthread
    obtain ⟨k, hk, hsuffix⟩ := hthread
    have hj := (passes_bounds hsuffix).1
    simp only [step, ht]
    by_cases hat : i = r ∧ j = c
    · obtain ⟨rfl, rfl⟩ := hat
      have hadder : (s.element i j).adder u = ⟨k, some sum⟩ := by
        dsimp only [State.element]
        rw [ht, Thread.adder, if_pos rfl, loopAdder_storing]
        exact (passes_visits hc).adder (k := ⟨k, hk⟩) hsuffix (some sum)
      refine ⟨[u], (element_put ..).trans ?_⟩
      rw [Thread.adder, if_pos rfl, (passes_visits hc).adder_rest (k := ⟨k, hk⟩) hsuffix,
        Grid.get_set_self]
      exact (Shared.step_store hadder).symm
    · refine ⟨[], hsame _ _ _ ?_ ?_⟩
      · exact Grid.get_set_ne _ _ hj hc fun he => hat ⟨he.1.symm, he.2.symm⟩
      · rw [ht, Thread.adder, Thread.adder]
        split_ifs with hi
        · have hj : InColumn c (j, 0) = false :=
            Bool.eq_false_iff.mpr fun hin => hat ⟨hi, inColumn_iff.mp hin⟩
          rw [Shared.loopAdder_elsewhere max hj]
        · rfl

theorem run_element (h : ∀ u, (s.threads u).Regular max) (schedule : List ι) (r : ℕ) {c : ℕ}
    (hc : c < max) : ∃ schedule' : List ι, (run a b s schedule).element r c =
      (s.element r c).run (fun k => a.get r k * b.get k c) max schedule' := by
  induction schedule generalizing s with
  | nil => exact ⟨[], rfl⟩
  | cons u schedule ih =>
    obtain ⟨first, hfirst⟩ := step_element (a := a) (b := b) h u r hc
    obtain ⟨rest, hrest⟩ := ih (regular_step h u)
    refine ⟨first ++ rest, ?_⟩
    rw [Shared.run_append, ← hfirst]
    exact hrest

omit [AddCommMonoid D] [Mul D] in
/-- A thread at its end has made all assignments to the elements of its row and none to those of
the others. -/
theorem Thread.Finished.done {t : Thread D} (h : t.Finished) (max r c : ℕ) :
    (t.adder max r c).done = if t.row = some r then max else 0 := by
  cases t with
  | begin | loaded i | storing i j sum rest => exact absurd h id
  | adding i rest =>
    cases rest with
    | cons x rest => exact absurd h id
    | nil =>
      rw [Thread.adder, Thread.row]
      simp only [Option.some_inj]
      split_ifs
      · rfl
      · rfl

end View

section Schedules

variable {D : Type*} {max k : ℕ} [AddCommMonoid D] [Mul D]

/-- When all threads are done, an element of a row that has been taken is the sum of some of the
products of each thread that has taken the row; a first and a last product are there, and none
of the threads with other rows. -/
theorem multi_rows_shared (hk : k ≤ max) (a b : Grid D max) (schedule : List (Fin k))
    (hdone : ∀ u, ((run a b start schedule).threads u).Finished) {r c : ℕ}
    (hr : ∃ u, ((run a b start schedule).threads u).row = some r) (hc : c < max) :
    r < max ∧ ∃ arrived : Fin k → Finset ℕ,
      (∀ u, arrived u ⊆ if ((run a b start schedule).threads u).row = some r then
        Finset.range max else ∅) ∧
      (∃ u, 0 ∈ arrived u) ∧ (∃ u, max - 1 ∈ arrived u) ∧
      (run a b start schedule).matC.get r c =
        ∑ u, ∑ k ∈ arrived u, a.get r k * b.get k c := by
  obtain ⟨schedule', hrun⟩ := run_element (a := a) (b := b) (s := start)
    (fun _ => trivial) schedule r hc
  have hstart : (start : State D max (Fin k)).element r c = Shared.start 0 := rfl
  have hinv := Shared.run_inv (Shared.start_inv (ι := Fin k) (fun k => a.get r k * b.get k c)
    max 0) schedule'
  rw [← hstart, ← hrun] at hinv
  have hall : ∀ u, ((run a b start schedule).element r c).done u =
      if ((run a b start schedule).threads u).row = some r then max else 0 :=
    fun u => (hdone u).done max r c
  obtain ⟨w, hw⟩ := hr
  obtain ⟨arrived, hvalue, hsub, hfirst, hlast⟩ := hinv.arrived
    (fun u => by
      rw [hall]
      split_ifs
      · exact .inr rfl
      · exact .inl rfl)
    ⟨w, by rw [hall, if_pos hw]; omega⟩
  refine ⟨run_rowsInside hk a b schedule w r hw, arrived, fun u => ?_, hfirst, hlast,
    hvalue.trans (zero_add _)⟩
  have hu := hsub u
  rw [hall] at hu
  split_ifs at hu ⊢
  · exact hu
  · exact hu

def twoByTwo : Grid ℤ 2 := ⟨fun i => i % 2 + 1⟩

/-- Both threads read `step_i` before either stores it, and then add to row 0, one step each in
turn. -/
def inTurn : List (Fin 2) := (List.replicate 10 (List.finRange 2)).flatten

theorem multi_rows_shared_two :
    let s := run twoByTwo twoByTwo start inTurn
    0 < 2 ∧ ∃ arrived : Fin 2 → Finset ℕ,
      (∀ u, arrived u ⊆ if (s.threads u).row = some 0 then Finset.range 2 else ∅) ∧
      (∃ u, 0 ∈ arrived u) ∧ (∃ u, 2 - 1 ∈ arrived u) ∧
      s.matC.get 0 1 = ∑ u, ∑ k ∈ arrived u, twoByTwo.get 0 k * twoByTwo.get k 1 :=
  multi_rows_shared le_rfl twoByTwo twoByTwo inTurn
    (fun u => (run_finished_iff _ _ _ u).mpr (by revert u; decide)) ⟨0, rfl⟩ (by decide)

end Schedules

end ParallelPrograms.MatrixMultiply.PthreadTest
