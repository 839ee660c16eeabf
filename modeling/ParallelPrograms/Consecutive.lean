import Mathlib.Order.Interval.Finset.Nat

namespace ParallelPrograms

def interval (s : ℕ × ℕ) : Finset ℕ := Finset.Ico s.1 (s.1 + s.2)

theorem mem_interval {s : ℕ × ℕ} {i : ℕ} : i ∈ interval s ↔ s.1 ≤ i ∧ i < s.1 + s.2 :=
  Finset.mem_Ico

/-- The intervals follow one another from `a` up to `b`. -/
inductive Consecutive : ℕ → List (ℕ × ℕ) → ℕ → Prop
  | nil (a : ℕ) : Consecutive a [] a
  | cons {a count b : ℕ} {l : List (ℕ × ℕ)} :
      Consecutive (a + count) l b → Consecutive a ((a, count) :: l) b

namespace Consecutive

variable {a b : ℕ} {l : List (ℕ × ℕ)}

theorem append_singleton (h : Consecutive a l b) (count : ℕ) :
    Consecutive a (l ++ [(b, count)]) (b + count) := by
  induction h with
  | nil a => exact .cons (.nil _)
  | cons _ ih => exact .cons ih

theorem le (h : Consecutive a l b) : a ≤ b := by
  induction h with
  | nil a => exact le_rfl
  | cons _ ih => omega

theorem bounds (h : Consecutive a l b) : ∀ s ∈ l, a ≤ s.1 ∧ s.1 + s.2 ≤ b := by
  induction h with
  | nil a => simp
  | cons htail ih =>
    intro s hs
    rcases List.mem_cons.mp hs with rfl | hs
    · exact ⟨le_rfl, htail.le⟩
    · have hrest := ih s hs
      omega

theorem pairwise_disjoint (h : Consecutive a l b) :
    l.Pairwise fun s t => Disjoint (interval s) (interval t) := by
  induction h with
  | nil a => exact .nil
  | cons htail ih =>
    refine List.pairwise_cons.mpr ⟨fun t ht => ?_, ih⟩
    have hstart := (htail.bounds t ht).1
    rw [Finset.disjoint_left]
    intro i hi hit
    rw [mem_interval] at hi hit
    omega

theorem mem_iff (h : Consecutive a l b) {i : ℕ} :
    (a ≤ i ∧ i < b) ↔ ∃ s ∈ l, i ∈ interval s := by
  constructor
  · intro hi
    induction h with
    | nil a => omega
    | @cons a count b l _ ih =>
      by_cases hfirst : i < a + count
      · exact ⟨_, List.mem_cons_self, mem_interval.mpr ⟨hi.1, hfirst⟩⟩
      · obtain ⟨s, hs, his⟩ := ih (by omega)
        exact ⟨s, List.mem_cons_of_mem _ hs, his⟩
  · rintro ⟨s, hs, his⟩
    have hbounds := h.bounds s hs
    rw [mem_interval] at his
    omega

end Consecutive

end ParallelPrograms
