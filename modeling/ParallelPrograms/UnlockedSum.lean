import Mathlib.Algebra.BigOperators.Group.Finset.Basic
import Mathlib.Algebra.Order.BigOperators.Group.Finset
import Mathlib.Data.Fintype.BigOperators
import Mathlib.Data.List.FinRange
import Mathlib.Tactic.Abel

namespace ParallelPrograms

/-- A thread: how many terms it has stored, and what it is about to store. -/
structure Adder (D : Type*) where
  done : ℕ
  sum : Option D

structure Shared (D ι : Type*) where
  value : D
  adder : ι → Adder D

namespace Shared

variable {D ι : Type*}

def start (value : D) : Shared D ι := ⟨value, fun _ => ⟨0, none⟩⟩

section Steps

variable [Add D] [DecidableEq ι]

def step (f : ℕ → D) (n : ℕ) (s : Shared D ι) (u : ι) : Shared D ι :=
  match s.adder u with
  | ⟨done, none⟩ =>
    if done < n then ⟨s.value, Function.update s.adder u ⟨done, some (s.value + f done)⟩⟩ else s
  | ⟨done, some sum⟩ => ⟨sum, Function.update s.adder u ⟨done + 1, none⟩⟩

def run (f : ℕ → D) (n : ℕ) (s : Shared D ι) (schedule : List ι) : Shared D ι :=
  schedule.foldl (step f n) s

variable {f : ℕ → D} {n : ℕ} {s : Shared D ι} {u : ι} {d : ℕ}

theorem step_read (h : s.adder u = ⟨d, none⟩) (hd : d < n) :
    s.step f n u = ⟨s.value, Function.update s.adder u ⟨d, some (s.value + f d)⟩⟩ := by
  rw [step, h]
  exact if_pos hd

theorem step_store {sum : D} (h : s.adder u = ⟨d, some sum⟩) :
    s.step f n u = ⟨sum, Function.update s.adder u ⟨d + 1, none⟩⟩ := by
  rw [step, h]

theorem step_finished (h : s.adder u = ⟨d, none⟩) (hd : n ≤ d) : s.step f n u = s := by
  rw [step, h]
  exact if_neg (Nat.not_lt.mpr hd)

theorem step_adder_ne {v : ι} (h : v ≠ u) : (s.step f n u).adder v = s.adder v := by
  unfold step
  split
  · split_ifs
    · exact Function.update_of_ne h _ _
    · rfl
  · exact Function.update_of_ne h _ _

theorem read_self (h : s.adder u = ⟨d, none⟩) (hd : d < n) :
    (s.step f n u).value = s.value ∧ (s.step f n u).adder u = ⟨d, some (s.value + f d)⟩ := by
  rw [step_read h hd]
  exact ⟨rfl, Function.update_self ..⟩

theorem store_self {sum : D} (h : s.adder u = ⟨d, some sum⟩) :
    (s.step f n u).value = sum ∧ (s.step f n u).adder u = ⟨d + 1, none⟩ := by
  rw [step_store h]
  exact ⟨rfl, Function.update_self ..⟩

theorem run_congr {g : ℕ → D} (h : ∀ k < n, f k = g k) (s : Shared D ι) (schedule : List ι) :
    s.run f n schedule = s.run g n schedule := by
  have hstep : ∀ (s : Shared D ι) u, s.step f n u = s.step g n u := by
    intro s u
    unfold step
    split
    · split_ifs with hd
      · rw [h _ hd]
      · rfl
    · rfl
  exact List.foldl_ext _ _ s fun s u _ => hstep s u

theorem run_append (s : Shared D ι) (schedule schedule' : List ι) :
    s.run f n (schedule ++ schedule') = (s.run f n schedule).run f n schedule' :=
  List.foldl_append

theorem run_cons (s : Shared D ι) (u : ι) (schedule : List ι) :
    s.run f n (u :: schedule) = (s.step f n u).run f n schedule := rfl

def steps (a : Adder D) : ℕ := 2 * a.done + if a.sum.isSome then 1 else 0

omit [Add D] [DecidableEq ι] in
theorem eq_of_steps {a : Adder D} (h : steps a = 2 * n) : a = ⟨n, none⟩ := by
  cases a with
  | mk d sum =>
    cases sum with
    | none =>
      have hd : 2 * d + 0 = 2 * n := h
      obtain rfl : d = n := by omega
      rfl
    | some sum =>
      have hd : 2 * d + 1 = 2 * n := h
      omega

theorem steps_step (h : steps (s.adder u) < 2 * n) :
    steps ((s.step f n u).adder u) = steps (s.adder u) + 1 := by
  cases hu : s.adder u with
  | mk d sum =>
    rw [hu] at h
    cases sum with
    | none =>
      have hd : 2 * d + 0 < 2 * n := h
      rw [(read_self hu (by omega)).2]
      rfl
    | some sum =>
      rw [(store_self hu).2]
      rfl

theorem steps_run {schedule : List ι} (h : ∀ u, steps (s.adder u) + schedule.count u ≤ 2 * n)
    (u : ι) : steps ((s.run f n schedule).adder u) = steps (s.adder u) + schedule.count u := by
  induction schedule generalizing s with
  | nil => rfl
  | cons v schedule ih =>
    have hv : steps ((s.step f n v).adder v) = steps (s.adder v) + 1 := by
      have hcount := h v
      rw [List.count_cons_self] at hcount
      exact steps_step (by omega)
    have hnext : ∀ w, steps ((s.step f n v).adder w) + schedule.count w =
        steps (s.adder w) + (v :: schedule).count w := by
      intro w
      by_cases hw : w = v
      · subst hw
        rw [hv, List.count_cons_self]
        omega
      · rw [step_adder_ne hw, List.count_cons_of_ne (Ne.symm hw)]
    rw [run_cons, ih fun w => (hnext w).trans_le (h w), hnext]

end Steps

section Arrived

variable [AddCommMonoid D] [Fintype ι] [DecidableEq ι]

/-- The value has arisen from `start` by the terms in `arrived u` of every thread `u`, which are
among its first `done u`. -/
structure Holds (f : ℕ → D) (start : D) (done : ι → ℕ) (arrived : ι → Finset ℕ) (value : D) :
    Prop where
  value : value = start + ∑ u, ∑ k ∈ arrived u, f k
  sub : ∀ u, arrived u ⊆ Finset.range (done u)

variable {f : ℕ → D} {n : ℕ} {begin : D}

omit [DecidableEq ι] in
theorem Holds.mono {done done' : ι → ℕ} {arrived : ι → Finset ℕ} {value : D}
    (h : Holds f begin done arrived value) (hle : ∀ u, done u ≤ done' u) :
    Holds f begin done' arrived value :=
  ⟨h.value, fun u => (h.sub u).trans (Finset.range_mono (hle u))⟩

/-- The next term of thread `u` has not arrived before. -/
theorem Holds.add {done : ι → ℕ} {arrived : ι → Finset ℕ} {value : D}
    (h : Holds f begin done arrived value) (u : ι) :
    Holds f begin (Function.update done u (done u + 1))
      (Function.update arrived u (insert (done u) (arrived u))) (value + f (done u)) := by
  have hnew : done u ∉ arrived u := fun hmem => by
    have hlt := Finset.mem_range.mp (h.sub u hmem)
    omega
  refine ⟨?_, fun v => ?_⟩
  · have hsum : ∀ v, ∑ k ∈ Function.update arrived u (insert (done u) (arrived u)) v, f k =
        ∑ k ∈ arrived v, f k + if v = u then f (done u) else 0 := by
      intro v
      by_cases hv : v = u
      · subst hv
        rw [Function.update_self, Finset.sum_insert hnew, if_pos rfl, add_comm]
      · rw [Function.update_of_ne hv, if_neg hv, add_zero]
    rw [Finset.sum_congr rfl fun v _ => hsum v, Finset.sum_add_distrib,
      Finset.sum_ite_eq' Finset.univ u, if_pos (Finset.mem_univ u), h.value, add_assoc]
  · by_cases hv : v = u
    · subst hv
      rw [Function.update_self, Function.update_self, Finset.insert_subset_iff]
      exact ⟨Finset.self_mem_range_succ _,
        (h.sub v).trans (Finset.range_mono (Nat.le_succ _))⟩
    · rw [Function.update_of_ne hv, Function.update_of_ne hv]
      exact h.sub v

def done (s : Shared D ι) (u : ι) : ℕ := (s.adder u).done

omit [AddCommMonoid D] [Fintype ι] in
theorem done_update (value : D) (adder : ι → Adder D) (u : ι) (a : Adder D) :
    (Shared.mk value (Function.update adder u a)).done =
      Function.update (fun v => (adder v).done) u a.done := by
  funext v
  by_cases hv : v = u
  · subst hv
    rw [done, Function.update_self]
    exact congrArg Adder.done (Function.update_self v a adder)
  · rw [done, Function.update_of_ne hv]
    exact congrArg Adder.done (Function.update_of_ne hv a adder)

/-- The variable holds a first and a last term, unless it is about to, and so will it after
each store. -/
structure Inv (f : ℕ → D) (n : ℕ) (begin : D) (s : Shared D ι) : Prop where
  value : ∃ arrived, Holds f begin s.done arrived s.value ∧
    ((∃ v, 0 ∈ arrived v) ∨ ∀ v, s.done v = 0) ∧
    ((∃ v, n - 1 ∈ arrived v) ∨ (∃ v, 0 < s.done v ∧ s.done v < n) ∨ ∀ v, s.done v = 0)
  pending : ∀ u sum, (s.adder u).sum = some sum → s.done u < n ∧
    ∃ arrived, Holds f begin (Function.update s.done u (s.done u + 1)) arrived sum ∧
      s.done u ∈ arrived u ∧ ∃ v, 0 ∈ arrived v
  le : ∀ u, s.done u ≤ n

theorem start_inv (f : ℕ → D) (n : ℕ) (begin : D) :
    Inv f n begin (start begin : Shared D ι) where
  value := ⟨fun _ => ∅, ⟨by simp [start], fun u => Finset.empty_subset _⟩,
    .inr fun _ => rfl, .inr (.inr fun _ => rfl)⟩
  pending u sum h := by cases h
  le u := Nat.zero_le n

/-- A read leaves the variable as it is. -/
theorem Inv.read {s : Shared D ι} (h : Inv f n begin s) {u : ι} {d : ℕ}
    (hu : s.adder u = ⟨d, none⟩) (hd : d < n) : Inv f n begin (s.step f n u) := by
  have hstep := step_read (f := f) hu hd
  have hud : s.done u = d := by rw [done, hu]
  have hdone : (s.step f n u).done = s.done := by
    rw [hstep, done_update, ← hud]
    exact Function.update_eq_self u s.done
  obtain ⟨arrived, hholds, hfirst, hlast⟩ := h.value
  refine ⟨?_, fun v sum hv => ?_, fun v => ?_⟩
  · rw [hdone]
    exact ⟨arrived, by rw [hstep]; exact hholds, hfirst, hlast⟩
  · rw [hdone]
    by_cases hvu : v = u
    · subst hvu
      rw [hstep] at hv
      dsimp only at hv
      rw [Function.update_self, Option.some_inj] at hv
      subst hv
      have hadd := hholds.add v
      rw [hud] at hadd ⊢
      refine ⟨hd, _, hadd, ?_, ?_⟩
      · rw [Function.update_self]
        exact Finset.mem_insert_self _ _
      · -- a thread that reads the start value adds its first term
        rcases hfirst with ⟨w, hw⟩ | hzero
        · refine ⟨w, ?_⟩
          by_cases hwv : w = v
          · subst hwv
            rw [Function.update_self]
            exact Finset.mem_insert_of_mem hw
          · rwa [Function.update_of_ne hwv]
        · refine ⟨v, ?_⟩
          rw [Function.update_self, ← hud, hzero v]
          exact Finset.mem_insert_self _ _
    · rw [hstep] at hv
      dsimp only at hv
      rw [Function.update_of_ne hvu] at hv
      exact h.pending v sum hv
  · rw [hdone]
    exact h.le v

theorem Inv.store {s : Shared D ι} (h : Inv f n begin s) {u : ι} {d : ℕ} {sum : D}
    (hu : s.adder u = ⟨d, some sum⟩) : Inv f n begin (s.step f n u) := by
  have hstep := step_store (f := f) (n := n) hu
  have hud : s.done u = d := by rw [done, hu]
  have hdone : (s.step f n u).done = Function.update s.done u (d + 1) := by
    rw [hstep, done_update]
    rfl
  have hmono : ∀ v, s.done v ≤ Function.update s.done u (d + 1) v := by
    intro v
    by_cases hv : v = u
    · subst hv
      rw [Function.update_self, hud]
      exact Nat.le_succ d
    · rw [Function.update_of_ne hv]
  obtain ⟨hd, arrived, hholds, hown, hfirst⟩ := h.pending u sum (by rw [hu])
  rw [hud] at hd hholds hown
  refine ⟨⟨arrived, ?_, .inl hfirst, ?_⟩, fun v sum' hv => ?_, fun v => ?_⟩
  · rw [hdone, hstep]
    exact hholds
  · rcases Nat.lt_or_ge (d + 1) n with hlt | hge
    · refine .inr (.inl ⟨u, ?_⟩)
      rw [hdone, Function.update_self]
      exact ⟨Nat.succ_pos d, hlt⟩
    · obtain rfl : d = n - 1 := by omega
      exact .inl ⟨u, hown⟩
  · rw [hdone]
    by_cases hvu : v = u
    · subst hvu
      rw [hstep] at hv
      dsimp only at hv
      rw [Function.update_self] at hv
      cases hv
    · rw [hstep] at hv
      dsimp only at hv
      rw [Function.update_of_ne hvu] at hv
      obtain ⟨hlt, arrived', hholds', hown', hfirst'⟩ := h.pending v sum' hv
      rw [Function.update_of_ne hvu]
      refine ⟨hlt, arrived', hholds'.mono fun w => ?_, hown', hfirst'⟩
      by_cases hwv : w = v
      · subst hwv
        rw [Function.update_self, Function.update_self]
      · rw [Function.update_of_ne hwv, Function.update_of_ne hwv]
        exact hmono w
  · rw [hdone]
    by_cases hvu : v = u
    · subst hvu
      rw [Function.update_self]
      exact hd
    · rw [Function.update_of_ne hvu]
      exact h.le v

theorem Inv.step {s : Shared D ι} (h : Inv f n begin s) (u : ι) : Inv f n begin (s.step f n u) := by
  cases hu : s.adder u with
  | mk d sum =>
    cases sum with
    | some sum => exact h.store hu
    | none =>
      rcases Nat.lt_or_ge d n with hd | hd
      · exact h.read hu hd
      · rwa [step_finished hu hd]

theorem run_inv {s : Shared D ι} (h : Inv f n begin s) (schedule : List ι) :
    Inv f n begin (s.run f n schedule) := by
  induction schedule generalizing s with
  | nil => exact h
  | cons u schedule ih => exact ih (h.step u)

/-- When every thread has finished or not begun, and one has finished, every thread that has
finished has some of its terms in the variable and no others have; a first and a last term are
there. -/
theorem Inv.arrived {s : Shared D ι} (h : Inv f n begin s)
    (hall : ∀ u, s.done u = 0 ∨ s.done u = n) (hsome : ∃ u, 0 < s.done u) :
    ∃ arrived : ι → Finset ℕ, s.value = begin + ∑ u, ∑ k ∈ arrived u, f k ∧
      (∀ u, arrived u ⊆ Finset.range (s.done u)) ∧ (∃ u, 0 ∈ arrived u) ∧
        ∃ u, n - 1 ∈ arrived u := by
  obtain ⟨arrived, hholds, hfirst, hlast⟩ := h.value
  obtain ⟨w, hw⟩ := hsome
  have hzero : ¬ ∀ v, s.done v = 0 := fun hzero => by
    rw [hzero w] at hw
    exact lt_irrefl 0 hw
  refine ⟨arrived, hholds.value, hholds.sub, hfirst.resolve_right hzero, ?_⟩
  rcases hlast with hlast | ⟨v, hpos, hlt⟩ | hnone
  · exact hlast
  · rcases hall v with hv | hv
    · omega
    · omega
  · exact absurd hnone hzero

end Arrived

section Schedules

variable [AddCommMonoid D] [Fintype ι] [DecidableEq ι]

def additions (order : List ι) : List ι := order.flatMap fun u => [u, u]

omit [Fintype ι] in
theorem count_additions (order : List ι) (u : ι) :
    (additions order).count u = 2 * order.count u := by
  induction order with
  | nil => rfl
  | cons v order ih =>
    have hsplit : additions (v :: order) = v :: v :: additions order := rfl
    rw [hsplit, List.count_cons, List.count_cons, List.count_cons, ih]
    split_ifs
    · omega
    · omega

theorem exists_count (m : ι → ℕ) : ∃ order : List ι, ∀ u, order.count u = m u := by
  refine ⟨(∑ u, Multiset.replicate (m u) u).toList, fun u => ?_⟩
  rw [← Multiset.coe_count, Multiset.coe_toList, Multiset.count_sum']
  simp only [Multiset.count_replicate, Finset.sum_ite_eq', Finset.mem_univ, if_true]

variable {f : ℕ → D} {n : ℕ}

/-- Every addition counts when none is interrupted. -/
theorem run_additions {s : Shared D ι} (order : List ι)
    (hnone : ∀ u ∈ order, (s.adder u).sum = none)
    (hle : ∀ u ∈ order, s.done u + order.count u ≤ n) :
    (s.run f n (additions order)).value =
        s.value + ∑ u, ∑ k ∈ Finset.range (order.count u), f (s.done u + k) ∧
      ∀ u, (s.run f n (additions order)).adder u =
        ⟨s.done u + order.count u, (s.adder u).sum⟩ := by
  induction order generalizing s with
  | nil => exact ⟨by simp [additions, run], fun _ => rfl⟩
  | cons u order ih =>
    have hu : s.adder u = ⟨s.done u, none⟩ := by
      rw [done, ← hnone u List.mem_cons_self]
    have hcount : (u :: order).count u = order.count u + 1 := List.count_cons_self
    have hd : s.done u < n := by
      have := hle u List.mem_cons_self
      omega
    obtain ⟨hread, hsum⟩ := read_self (f := f) hu hd
    obtain ⟨hvalue, hself⟩ := store_self (f := f) (n := n) hsum
    set next := (s.step f n u).step f n u
    have hother : ∀ v, v ≠ u → next.adder v = s.adder v := fun v hv => by
      rw [step_adder_ne hv, step_adder_ne hv]
    have hdone : ∀ v, next.done v = s.done v + if v = u then 1 else 0 := by
      intro v
      by_cases hv : v = u
      · subst hv
        rw [done, hself, if_pos rfl]
      · rw [done, hother v hv, if_neg hv, Nat.add_zero, done]
    have hcons : ∀ v, (u :: order).count v = order.count v + if v = u then 1 else 0 := by
      intro v
      by_cases hv : v = u
      · subst hv
        rw [hcount, if_pos rfl]
      · rw [List.count_cons_of_ne (Ne.symm hv), if_neg hv, Nat.add_zero]
    have hnone' : ∀ v ∈ order, (next.adder v).sum = none := by
      intro v hv
      by_cases hvu : v = u
      · subst hvu
        rw [hself]
      · rw [hother v hvu]
        exact hnone v (List.mem_cons_of_mem u hv)
    have hle' : ∀ v ∈ order, next.done v + order.count v ≤ n := by
      intro v hv
      have hv' := hle v (List.mem_cons_of_mem u hv)
      rw [hcons] at hv'
      rw [hdone]
      omega
    obtain ⟨hrun, hadder⟩ := ih hnone' hle'
    have hsplit : s.run f n (additions (u :: order)) = next.run f n (additions order) := rfl
    have hterm : ∀ v, ∑ k ∈ Finset.range ((u :: order).count v), f (s.done v + k) =
        (if v = u then f (s.done u) else 0) +
          ∑ k ∈ Finset.range (order.count v), f (next.done v + k) := by
      intro v
      by_cases hv : v = u
      · subst hv
        rw [hcount, Finset.sum_range_succ', add_comm, hdone, if_pos rfl, if_pos rfl, Nat.add_zero]
        simp only [Nat.add_assoc, Nat.add_comm 1]
      · rw [hcons, hdone, if_neg hv, if_neg hv, zero_add, Nat.add_zero, Nat.add_zero]
    rw [hsplit]
    refine ⟨?_, fun v => ?_⟩
    · rw [hrun, hvalue, Finset.sum_congr rfl fun v _ => hterm v, Finset.sum_add_distrib,
        Finset.sum_ite_eq' Finset.univ u, if_pos (Finset.mem_univ u), add_assoc]
    · rw [hadder, hdone, hcons]
      by_cases hv : v = u
      · subst hv
        rw [hself, hu, if_pos rfl]
        simp only [Nat.add_assoc, Nat.add_comm 1]
      · rw [hother v hv, if_neg hv, Nat.add_zero, Nat.add_zero]

theorem run_alone {s : Shared D ι} {u : ι} {d m : ℕ} (hu : s.adder u = ⟨d, none⟩)
    (hle : d + m ≤ n) :
    (s.run f n (additions (List.replicate m u))).value =
        s.value + ∑ k ∈ Finset.range m, f (d + k) ∧
      (s.run f n (additions (List.replicate m u))).adder u = ⟨d + m, none⟩ ∧
      ∀ v, v ≠ u → (s.run f n (additions (List.replicate m u))).adder v = s.adder v := by
  have hcount : ∀ v, (List.replicate m u).count v = if v = u then m else 0 := by
    intro v
    by_cases hv : v = u
    · subst hv
      rw [List.count_replicate_self, if_pos rfl]
    · rw [if_neg hv]
      exact List.count_eq_zero_of_not_mem fun hmem => hv (List.eq_of_mem_replicate hmem)
  have hd : s.done u = d := by rw [done, hu]
  obtain ⟨hvalue, hadder⟩ := run_additions (f := f) (n := n) (s := s)
    (List.replicate m u)
    (fun v hv => by rw [List.eq_of_mem_replicate hv, hu])
    (fun v hv => by rw [hcount, List.eq_of_mem_replicate hv, if_pos rfl, hd]; exact hle)
  refine ⟨?_, ?_, fun v hv => ?_⟩
  · have hterm : ∀ v, ∑ k ∈ Finset.range ((List.replicate m u).count v), f (s.done v + k) =
        if v = u then ∑ k ∈ Finset.range m, f (d + k) else 0 := by
      intro v
      rw [hcount]
      by_cases hv : v = u
      · subst hv
        rw [if_pos rfl, if_pos rfl, hd]
      · rw [if_neg hv, if_neg hv, Finset.sum_range_zero]
    rw [hvalue, Finset.sum_congr rfl fun v _ => hterm v, Finset.sum_ite_eq' Finset.univ u,
      if_pos (Finset.mem_univ u)]
  · rw [hadder, hcount, if_pos rfl, hd, hu]
  · rw [hadder, hcount, if_neg hv, Nat.add_zero, done]

/-- What the others add between the read and the store of a thread is lost. -/
theorem run_late {s : Shared D ι} {u : ι} {d : ℕ} (hu : s.adder u = ⟨d, none⟩) (hd : d < n)
    (order : List ι) (hnot : u ∉ order) (hnone : ∀ v ∈ order, (s.adder v).sum = none)
    (hle : ∀ v ∈ order, s.done v + order.count v ≤ n) :
    (s.run f n (u :: (additions order ++ [u]))).value = s.value + f d ∧
      (s.run f n (u :: (additions order ++ [u]))).adder u = ⟨d + 1, none⟩ ∧
      ∀ v, v ≠ u → (s.run f n (u :: (additions order ++ [u]))).adder v =
        ⟨s.done v + order.count v, (s.adder v).sum⟩ := by
  obtain ⟨-, hread⟩ := read_self (f := f) hu hd
  have hsame : ∀ v, v ≠ u → (s.step f n u).adder v = s.adder v := fun v hv => step_adder_ne hv
  have hne : ∀ v ∈ order, v ≠ u := fun v hv => ne_of_mem_of_not_mem hv hnot
  obtain ⟨-, hadder⟩ := run_additions (f := f) (n := n) (s := s.step f n u) order
    (fun v hv => by rw [hsame v (hne v hv)]; exact hnone v hv)
    (fun v hv => by rw [done, hsame v (hne v hv)]; exact hle v hv)
  have hpending : ((s.step f n u).run f n (additions order)).adder u =
      ⟨d, some (s.value + f d)⟩ := by
    rw [hadder, List.count_eq_zero_of_not_mem hnot, done, hread, Nat.add_zero]
  obtain ⟨hvalue, hself⟩ := store_self (f := f) (n := n) hpending
  rw [run_cons, run_append]
  refine ⟨hvalue, hself, fun v hv => ?_⟩
  calc _ = ((s.step f n u).run f n (additions order)).adder v := step_adder_ne hv
    _ = _ := by rw [hadder, done, hsame v hv, done]

/-- A thread reads the start value, and stores its first term when the others have stored all
but their last `m v`: the terms before are lost. -/
theorem exists_late (hn : 1 ≤ n) (u : ι) {m : ι → ℕ} (hm : ∀ v, m v ≤ n) :
    ∃ schedule : List ι, (∀ v, schedule.count v = 2 * n) ∧ ∀ (f : ℕ → D) (begin : D),
      ((start begin).run f n schedule).value = begin + ∑ k ∈ Finset.range n, f k +
        ∑ v ∈ Finset.univ.erase u, ∑ k ∈ Finset.range (m v), f (n - m v + k) := by
  obtain ⟨lost, hlost⟩ := exists_count fun v => if v = u then 0 else n - m v
  obtain ⟨kept, hkept⟩ := exists_count fun v => if v = u then 0 else m v
  have hnot : u ∉ lost := List.count_eq_zero.mp (by rw [hlost, if_pos rfl])
  have hnot' : u ∉ kept := List.count_eq_zero.mp (by rw [hkept, if_pos rfl])
  refine ⟨(u :: (additions lost ++ [u])) ++
    (additions kept ++ additions (List.replicate (n - 1) u)), fun v => ?_, fun f begin => ?_⟩
  · have hle := hm v
    simp only [List.count_append, List.count_cons, List.count_nil, count_additions,
      List.count_replicate, hlost, hkept, beq_iff_eq]
    by_cases hv : v = u
    · subst hv
      simp only [if_true]
      omega
    · simp only [if_neg hv, if_neg (Ne.symm hv)]
      omega
  · obtain ⟨hvalue, hself, hother⟩ := run_late (f := f) (s := start begin) (d := 0) rfl hn lost hnot
      (fun _ _ => rfl) (fun v hv => by
        rw [hlost, if_neg (ne_of_mem_of_not_mem hv hnot)]
        exact (Nat.zero_add _).trans_le (Nat.sub_le n (m v)))
    set s := (start begin).run f n (u :: (additions lost ++ [u]))
    have hdone : ∀ v, v ≠ u → s.done v = n - m v := fun v hv => by
      rw [done, hother v hv, hlost, if_neg hv]
      exact Nat.zero_add _
    obtain ⟨hvalue', hadder⟩ := run_additions (f := f) (n := n) (s := s) kept
      (fun v hv => by rw [hother v (ne_of_mem_of_not_mem hv hnot')]; rfl)
      (fun v hv => by
        have hv' := ne_of_mem_of_not_mem hv hnot'
        rw [hdone v hv', hkept, if_neg hv', Nat.sub_add_cancel (hm v)])
    have hself' : (s.run f n (additions kept)).adder u = ⟨1, none⟩ := by
      rw [hadder, hkept, if_pos rfl, done, hself]
    obtain ⟨hvalue'', -, -⟩ := run_alone (f := f) (n := n) hself' (by omega : 1 + (n - 1) ≤ n)
    have hkeptsum : ∑ v, ∑ k ∈ Finset.range (kept.count v), f (s.done v + k) =
        ∑ v ∈ Finset.univ.erase u, ∑ k ∈ Finset.range (m v), f (n - m v + k) := by
      rw [← Finset.add_sum_erase Finset.univ _ (Finset.mem_univ u), hkept, if_pos rfl,
        Finset.sum_range_zero, zero_add]
      refine Finset.sum_congr rfl fun v hv => ?_
      have hv' := Finset.ne_of_mem_erase hv
      rw [hkept, if_neg hv', hdone v hv']
    have hterms : ∑ k ∈ Finset.range n, f k = f 0 + ∑ k ∈ Finset.range (n - 1), f (1 + k) := by
      obtain ⟨p, rfl⟩ := Nat.exists_eq_succ_of_ne_zero (Nat.one_le_iff_ne_zero.mp hn)
      rw [Finset.sum_range_succ', add_comm]
      simp only [Nat.succ_eq_add_one, Nat.add_sub_cancel, Nat.add_comm 1]
    rw [run_append, run_append, hvalue'', hvalue', hvalue, hkeptsum, hterms]
    change begin + f 0 + _ + _ = _
    abel

/-- Two threads are enough to lose all but a first and a last term, and the last `r` terms of
one of them. -/
theorem exists_lossy (hn : 2 ≤ n) {u w : ι} (hne : w ≠ u) {r : ℕ} (hr : r ≤ n - 1) :
    ∃ schedule : List ι, (∀ v, schedule.count v = 2 * n) ∧ ∀ (f : ℕ → D) (begin : D),
      ((start begin).run f n schedule).value =
        begin + f 0 + f (n - 1) + ∑ k ∈ Finset.range r, f (n - r + k) := by
  obtain ⟨lost, hlost⟩ := exists_count fun v => if v = u then 0 else if v = w then n - 1 else n
  have hnot : u ∉ lost := List.count_eq_zero.mp (by rw [hlost, if_pos rfl])
  refine ⟨(u :: (additions lost ++ [u])) ++
    ((w :: (additions (List.replicate (n - 1 - r) u) ++ [w])) ++
      additions (List.replicate r u)), fun v => ?_, fun f begin => ?_⟩
  · simp only [List.count_append, List.count_cons, List.count_nil, count_additions,
      List.count_replicate, hlost, beq_iff_eq]
    by_cases hv : v = u
    · subst hv
      simp only [if_true, if_neg hne]
      omega
    · by_cases hw : v = w
      · subst hw
        simp only [if_true, if_neg hv, if_neg (Ne.symm hv)]
        omega
      · simp only [if_neg hv, if_neg hw, if_neg (Ne.symm hv), if_neg (Ne.symm hw)]
        omega
  · obtain ⟨hvalue, hself, hother⟩ := run_late (f := f) (n := n) (s := start begin) (d := 0) rfl
      (by omega) lost hnot (fun _ _ => rfl) (fun v hv => by
        rw [hlost, if_neg (ne_of_mem_of_not_mem hv hnot)]
        change 0 + _ ≤ n
        split_ifs
        · omega
        · omega)
    set s := (start begin).run f n (u :: (additions lost ++ [u]))
    have hw : s.adder w = ⟨n - 1, none⟩ := by
      rw [hother w hne, hlost, if_neg hne, if_pos rfl]
      exact congrArg (Adder.mk · none) (Nat.zero_add _)
    have hu : s.done u = 1 := by rw [done, hself]
    have hmem : ∀ v ∈ List.replicate (n - 1 - r) u, v = u := fun v hv =>
      List.eq_of_mem_replicate hv
    obtain ⟨hvalue', -, hother'⟩ := run_late (f := f) (n := n) hw (by omega)
      (List.replicate (n - 1 - r) u) (fun h => hne (hmem w h))
      (fun v hv => by rw [hmem v hv, hself])
      (fun v hv => by rw [hmem v hv, hu, List.count_replicate_self]; omega)
    have hself' : (s.run f n (w :: (additions (List.replicate (n - 1 - r) u) ++ [w]))).adder u =
        ⟨n - r, none⟩ := by
      rw [hother' u hne.symm, hu, List.count_replicate_self, hself]
      exact congrArg (Adder.mk · none) (by omega)
    obtain ⟨hvalue'', -, -⟩ := run_alone (f := f) (n := n) hself' (by omega : n - r + r ≤ n)
    rw [run_append, run_append, hvalue'', hvalue', hvalue]
    rfl

omit [AddCommMonoid D] [Fintype ι] in
/-- A number up to `n` for each element of a set, with a given sum. -/
theorem exists_distribution (n : ℕ) (s : Finset ι) {q : ℕ} (hq : q ≤ n * s.card) :
    ∃ m : ι → ℕ, (∀ v, m v ≤ n) ∧ ∑ v ∈ s, m v = q := by
  induction s using Finset.induction_on generalizing q with
  | empty =>
    rw [Finset.card_empty, Nat.mul_zero, Nat.le_zero] at hq
    exact ⟨fun _ => 0, fun _ => Nat.zero_le n, hq.symm⟩
  | insert a s ha ih =>
    rw [Finset.card_insert_of_notMem ha, Nat.mul_succ] at hq
    obtain ⟨m, hm, hsum⟩ := ih (q := q - min q n) (by omega)
    refine ⟨Function.update m a (min q n), fun v => ?_, ?_⟩
    · by_cases hv : v = a
      · subst hv
        rw [Function.update_self]
        exact Nat.min_le_right q n
      · rw [Function.update_of_ne hv]
        exact hm v
    · rw [Finset.sum_insert ha, Function.update_self, Finset.sum_congr rfl fun v hv =>
        Function.update_of_ne (ne_of_mem_of_not_mem hv ha) _ _, hsum]
      omega

/-- Of equal terms any number from two up to all of them may arrive. -/
theorem exists_terms (hn : 2 ≤ n) (hthreads : 2 ≤ Fintype.card ι) {c : ℕ} (hc : 2 ≤ c)
    (hle : c ≤ n * Fintype.card ι) :
    ∃ schedule : List ι, (∀ v, schedule.count v = 2 * n) ∧ ∀ x begin : D,
      ((start begin).run (fun _ => x) n schedule).value = begin + c • x := by
  obtain ⟨u, w, hne⟩ := Fintype.one_lt_card_iff.mp hthreads
  rcases Nat.le_total c n with hcn | hnc
  · obtain ⟨schedule, hcount, hvalue⟩ :=
      exists_lossy (D := D) hn hne.symm (r := c - 2) (by omega)
    refine ⟨schedule, hcount, fun x begin => ?_⟩
    have hsplit : c • x = x + x + (c - 2) • x := by
      rw [← two_nsmul, ← add_nsmul, Nat.add_sub_cancel' hc]
    rw [hvalue, Finset.sum_const, Finset.card_range, hsplit]
    abel
  · have hcard : (Finset.univ.erase u).card = Fintype.card ι - 1 :=
      Finset.card_erase_of_mem (Finset.mem_univ u)
    obtain ⟨m, hm, hsum⟩ := exists_distribution n (Finset.univ.erase u) (q := c - n) (by
      rw [hcard, Nat.mul_sub_one]
      omega)
    obtain ⟨schedule, hcount, hvalue⟩ := exists_late (D := D) (n := n) (by omega) u hm
    refine ⟨schedule, hcount, fun x begin => ?_⟩
    rw [hvalue, Finset.sum_const, Finset.card_range]
    simp only [Finset.sum_const, Finset.card_range]
    rw [Finset.sum_nsmul_assoc, hsum, add_assoc, ← add_nsmul, Nat.add_sub_cancel' hnc]

omit [AddCommMonoid D] [DecidableEq ι] in
/-- A first and a last term are two terms, and no thread has more than `n`. -/
theorem arrived_card (hn : 2 ≤ n) {arrived : ι → Finset ℕ} (hsub : ∀ u, arrived u ⊆ Finset.range n)
    (hfirst : ∃ u, 0 ∈ arrived u) (hlast : ∃ u, n - 1 ∈ arrived u) :
    2 ≤ ∑ u, (arrived u).card ∧ ∑ u, (arrived u).card ≤ n * Fintype.card ι := by
  constructor
  · obtain ⟨u, hu⟩ := hfirst
    obtain ⟨w, hw⟩ := hlast
    rw [← Finset.card_sigma]
    refine Finset.one_lt_card.mpr ⟨⟨u, 0⟩, Finset.mem_sigma.mpr ⟨Finset.mem_univ u, hu⟩,
      ⟨w, n - 1⟩, Finset.mem_sigma.mpr ⟨Finset.mem_univ w, hw⟩, fun heq => ?_⟩
    have hzero : 0 = n - 1 := congrArg Sigma.snd heq
    omega
  · calc ∑ u, (arrived u).card ≤ ∑ _u : ι, n :=
          Finset.sum_le_sum fun u _ => (Finset.card_le_card (hsub u)).trans_eq (Finset.card_range n)
      _ = n * Fintype.card ι := by
          rw [Finset.sum_const, Finset.card_univ, nsmul_eq_mul, Nat.cast_id, Nat.mul_comm]

end Schedules

section Loops

variable {β : Type*} {n : ℕ} {p : β → Bool} {loop rest : List β} {g : Fin n → β}

theorem flatMap_single {α β : Type*} {l : List α} (hl : l.Nodup) {a : α} (ha : a ∈ l)
    {g : α → List β} (hg : ∀ b, b ≠ a → g b = []) : l.flatMap g = g a := by
  induction l with
  | nil => cases ha
  | cons b l ih =>
    obtain ⟨hb, hl⟩ := List.nodup_cons.mp hl
    rw [List.flatMap_cons]
    rcases List.mem_cons.mp ha with rfl | ha
    · have hrest : l.flatMap g = [] :=
        List.flatMap_eq_nil_iff.mpr fun c hc => hg c (ne_of_mem_of_not_mem hc hb)
      rw [hrest, List.append_nil]
    · rw [hg b (ne_of_mem_of_not_mem ha hb).symm, List.nil_append, ih hl ha]

structure Visits (loop : List β) (p : β → Bool) (g : Fin n → β) : Prop where
  filter : loop.filter p = (List.finRange n).map g
  injective : Function.Injective g

theorem Visits.mem (h : Visits loop p g) (k : Fin n) : p (g k) = true := by
  have hmem : g k ∈ loop.filter p := by
    rw [h.filter]
    exact List.mem_map_of_mem (List.mem_finRange k)
  exact (List.mem_filter.mp hmem).2

theorem Visits.left (h : Visits loop p g) {k : Fin n} (hsuffix : g k :: rest <:+ loop) :
    (rest.filter p).length + 1 = n - k := by
  have hfilter := hsuffix.filter p
  rw [h.filter, List.filter_cons_of_pos (h.mem k)] at hfilter
  have hdrop := List.suffix_iff_eq_drop.mp hfilter
  have hlength := hfilter.length_le
  rw [List.length_map, List.length_finRange, List.length_cons] at hlength hdrop
  have hlt : n - ((rest.filter p).length + 1) < (List.finRange n).length := by
    rw [List.length_finRange]
    omega
  have hhead := congrArg List.head? hdrop
  rw [List.head?_cons, List.head?_drop, List.getElem?_map, List.getElem?_eq_getElem hlt,
    Option.map_some, Option.some_inj] at hhead
  have hk : (k : ℕ) = n - ((rest.filter p).length + 1) := by
    rw [h.injective hhead, List.getElem_finRange]
    rfl
  omega

/-- What a thread has done to the variable when `rest` is left of its loop and `sum` is to be
stored for the first assignment of it. -/
def loopAdder (n : ℕ) (p : β → Bool) (rest : List β) (sum : Option D) : Adder D :=
  ⟨n - (rest.filter p).length, if rest.head?.any p then sum else none⟩

theorem Visits.adder (h : Visits loop p g) {k : Fin n} (hsuffix : g k :: rest <:+ loop)
    (sum : Option D) : loopAdder n p (g k :: rest) sum = ⟨k, sum⟩ := by
  rw [loopAdder, List.filter_cons_of_pos (h.mem k), List.length_cons, h.left hsuffix,
    Nat.sub_sub_self k.isLt.le]
  exact congrArg (Adder.mk _) (if_pos (h.mem k))

theorem loopAdder_none (n : ℕ) (p : β → Bool) (rest : List β) :
    (loopAdder n p rest none : Adder D) = ⟨n - (rest.filter p).length, none⟩ :=
  congrArg (Adder.mk _) (ite_self none)

theorem Visits.adder_rest (h : Visits loop p g) {k : Fin n} (hsuffix : g k :: rest <:+ loop) :
    (loopAdder n p rest none : Adder D) = ⟨k + 1, none⟩ := by
  have hleft := h.left hsuffix
  have hdone : n - (rest.filter p).length = k + 1 := by omega
  rw [loopAdder_none, hdone]

theorem loopAdder_elsewhere (n : ℕ) {x : β} (hx : p x = false) (rest : List β) (sum : Option D) :
    loopAdder n p (x :: rest) sum = loopAdder n p rest none := by
  have hneg : ¬ p x = true := by rw [hx]; decide
  rw [loopAdder_none, loopAdder, List.filter_cons_of_neg hneg]
  exact congrArg (Adder.mk _) (if_neg hneg)

theorem Visits.start (h : Visits loop p g) : (loopAdder n p loop none : Adder D) = ⟨0, none⟩ := by
  rw [loopAdder_none, h.filter, List.length_map, List.length_finRange, Nat.sub_self]

theorem loopAdder_nil (n : ℕ) (p : β → Bool) (sum : Option D) :
    loopAdder n p [] sum = ⟨n, none⟩ := rfl

end Loops

end Shared

end ParallelPrograms
