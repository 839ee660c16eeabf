import Mathlib.Algebra.Order.Chebyshev
import Mathlib.Data.Finset.Dedup
import Mathlib.Data.Nat.Choose.Basic
import Mathlib.Tactic.Ring

namespace ParallelPrograms

variable {α : Type*} [DecidableEq α]

def equalPairs : List α → ℕ
  | [] => 0
  | x :: l => l.count x + equalPairs l

theorem equalPairs_perm {l l' : List α} (h : l.Perm l') : equalPairs l = equalPairs l' := by
  induction h with
  | nil => rfl
  | cons x h ih => rw [equalPairs, equalPairs, h.count_eq, ih]
  | swap x y l =>
    simp only [equalPairs, List.count_cons]
    rw [show (x == y) = (y == x) from Bool.beq_comm]
    omega
  | trans _ _ ih ih' => exact ih.trans ih'

theorem equalPairs_append {l l' : List α} (h : ∀ x ∈ l, x ∉ l') :
    equalPairs (l ++ l') = equalPairs l + equalPairs l' := by
  induction l with
  | nil => exact (Nat.zero_add _).symm
  | cons x l ih =>
    have hcount : l'.count x = 0 := List.count_eq_zero_of_not_mem (h x List.mem_cons_self)
    rw [List.cons_append, equalPairs, equalPairs, List.count_append, hcount,
      ih fun y hy => h y (List.mem_cons_of_mem x hy)]
    omega

theorem choose_two_succ (n : ℕ) : (n + 1).choose 2 = n + n.choose 2 := by
  rw [Nat.choose_succ_succ' n 1, Nat.choose_one_right]

theorem sum_sq_count {l : List α} {s : Finset α} (hs : ∀ x ∈ l, x ∈ s) :
    ∑ x ∈ s, l.count x ^ 2 = 2 * equalPairs l + l.length := by
  induction l with
  | nil => simp [equalPairs]
  | cons y l ih =>
    have hy : y ∈ s := hs y List.mem_cons_self
    have hsum : ∑ x ∈ s, (y :: l).count x ^ 2 = ∑ x ∈ s, l.count x ^ 2 + (2 * l.count y + 1) := by
      rw [← Finset.add_sum_erase s _ hy, ← Finset.add_sum_erase s (fun x => l.count x ^ 2) hy]
      have hrest : ∑ x ∈ s.erase y, (y :: l).count x ^ 2 = ∑ x ∈ s.erase y, l.count x ^ 2 := by
        refine Finset.sum_congr rfl fun x hx => ?_
        rw [List.count_cons_of_ne (Finset.ne_of_mem_erase hx).symm]
      rw [hrest, List.count_cons_self]
      ring
    rw [hsum, ih fun x hx => hs x (List.mem_cons_of_mem y hx), equalPairs, List.length_cons]
    ring

theorem sum_count {l : List α} {s : Finset α} (hs : ∀ x ∈ l, x ∈ s) :
    ∑ x ∈ s, l.count x = l.length := by
  have hmulti := Multiset.sum_count_eq_card (s := s) (m := (l : Multiset α)) hs
  simpa only [Multiset.coe_count, Multiset.coe_card] using hmulti

/-- The pairs that the number of values forces. -/
theorem sq_length_le {l : List α} {s : Finset α} (hs : ∀ x ∈ l, x ∈ s) :
    l.length ^ 2 ≤ s.card * (2 * equalPairs l + l.length) := by
  rw [← sum_sq_count hs, ← sum_count hs]
  exact sq_sum_le_card_mul_sum_sq

end ParallelPrograms
