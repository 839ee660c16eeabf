import Mathlib.Data.List.Basic

namespace ParallelPrograms

variable {α : Type*} {P : α → Bool}

/-- The maximal runs of elements that satisfy `P`: the pieces between the others. -/
def maximalRuns (P : α → Bool) (l : List α) : List (List α) :=
  (l.splitOnP fun x => !P x).filter fun t => !t.isEmpty

theorem maximalRuns_append_cons (l r : List α) {x : α} (hx : P x = false) :
    maximalRuns P (l ++ x :: r) = maximalRuns P l ++ maximalRuns P r := by
  have hsep : (!P x) = true := by rw [hx]; rfl
  rw [maximalRuns, List.splitOnP_append_cons l r hsep, List.filter_append]
  rfl

theorem maximalRuns_singleton {l : List α} (hl : ∀ x ∈ l, P x) (hne : l ≠ []) :
    maximalRuns P l = [l] := by
  have hnone : ∀ x ∈ l, (!P x) = false := fun x hx => by rw [hl x hx]; rfl
  rw [maximalRuns, List.splitOnP_eq_singleton hnone, List.filter_singleton]
  cases l with
  | nil => exact absurd rfl hne
  | cons x l => rfl

theorem maximalRuns_flatMap {x : α} (hx : P x = false) {ts : List (List α)}
    (hts : ∀ t ∈ ts, t ≠ [] ∧ ∀ y ∈ t, P y) :
    maximalRuns P (ts.flatMap fun t => t ++ [x]) = ts := by
  induction ts with
  | nil => rfl
  | cons t ts ih =>
    obtain ⟨hne, ht⟩ := hts t List.mem_cons_self
    rw [List.flatMap_cons, List.append_assoc, List.singleton_append,
      maximalRuns_append_cons t _ hx, maximalRuns_singleton ht hne,
      ih fun t ht => hts t (List.mem_cons_of_mem _ ht), List.singleton_append]

end ParallelPrograms
