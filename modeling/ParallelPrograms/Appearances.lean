import Mathlib.Data.List.Infix
import Mathlib.Data.Set.Card
import Mathlib.Data.Set.Finite.Lattice

namespace ParallelPrograms

variable {α : Type*} [DecidableEq α] {v : ℕ → α} {s t k : ℕ}

/-- The different values among `v 0, .., v (t - 1)`, in the order of their first appearance. -/
def appearances (v : ℕ → α) : ℕ → List α
  | 0 => []
  | t + 1 => if v t ∈ appearances v t then appearances v t else appearances v t ++ [v t]

theorem appearances_of_mem (h : v t ∈ appearances v t) :
    appearances v (t + 1) = appearances v t := if_pos h

theorem appearances_of_not_mem (h : v t ∉ appearances v t) :
    appearances v (t + 1) = appearances v t ++ [v t] := if_neg h

theorem mem_appearances {x : α} : x ∈ appearances v t ↔ ∃ s < t, v s = x := by
  induction t with
  | zero => simp [appearances]
  | succ t ih =>
    have hsucc : (∃ s < t + 1, v s = x) ↔ (∃ s < t, v s = x) ∨ v t = x := by
      simp only [Nat.lt_succ_iff_lt_or_eq, or_and_right, exists_or, exists_eq_left]
    rw [hsucc, ← ih]
    by_cases h : v t ∈ appearances v t
    · rw [appearances_of_mem h]
      exact ⟨.inl, Or.rec id fun hx => hx ▸ h⟩
    · rw [appearances_of_not_mem h, List.mem_append, List.mem_singleton, eq_comm (a := x)]

theorem nodup_appearances (v : ℕ → α) (t : ℕ) : (appearances v t).Nodup := by
  induction t with
  | zero => exact List.nodup_nil
  | succ t ih =>
    by_cases h : v t ∈ appearances v t
    · rwa [appearances_of_mem h]
    · rw [appearances_of_not_mem h]
      exact ih.append (List.nodup_singleton _) (by simpa using h)

theorem appearances_mono (v : ℕ → α) (h : s ≤ t) : appearances v s <+: appearances v t := by
  induction h with
  | refl => exact List.prefix_rfl
  | @step t _ ih =>
    refine ih.trans ?_
    by_cases h : v t ∈ appearances v t
    · rw [appearances_of_mem h]
    · rw [appearances_of_not_mem h]
      exact List.prefix_append _ _

theorem length_appearances_mono (v : ℕ → α) (h : s ≤ t) :
    (appearances v s).length ≤ (appearances v t).length := (appearances_mono v h).length_le

theorem length_appearances_le {S : Finset α} (h : ∀ t, v t ∈ S) (t : ℕ) :
    (appearances v t).length ≤ S.card := by
  rw [← List.toFinset_card_of_nodup (nodup_appearances v t)]
  apply Finset.card_le_card
  intro x hx
  obtain ⟨s, -, rfl⟩ := mem_appearances.mp (List.mem_toFinset.mp hx)
  exact h s

/-- Some list has `k` values exactly when the stream takes as many. -/
theorem exists_le_length_iff (v : ℕ → α) (k : ℕ) :
    (∃ t, k ≤ (appearances v t).length) ↔ (k : ℕ∞) ≤ (Set.range v).encard := by
  constructor
  · rintro ⟨t, ht⟩
    have hsub : ((appearances v t).toFinset : Set α) ⊆ Set.range v := by
      intro x hx
      obtain ⟨s, -, rfl⟩ := mem_appearances.mp (List.mem_toFinset.mp hx)
      exact ⟨s, rfl⟩
    calc (k : ℕ∞) ≤ (appearances v t).length := by exact_mod_cast ht
      _ = ((appearances v t).toFinset : Set α).encard := by
        rw [Set.encard_coe_eq_coe_finsetCard, List.toFinset_card_of_nodup (nodup_appearances v t)]
      _ ≤ (Set.range v).encard := Set.encard_le_encard hsub
  · intro h
    obtain ⟨S, hS, hcard⟩ := Set.exists_subset_encard_eq h
    have hfinite : S.Finite := Set.finite_of_encard_eq_coe hcard
    -- all of these values have appeared by some time
    choose! time htime using fun x (hx : x ∈ S) => hS hx
    obtain ⟨last, hlast⟩ := (hfinite.image time).bddAbove
    have ht : ∀ x ∈ S, x ∈ appearances v (last + 1) := fun x hx =>
      mem_appearances.mpr
        ⟨time x, Nat.lt_succ_of_le (hlast (Set.mem_image_of_mem time hx)), htime x hx⟩
    refine ⟨last + 1, ?_⟩
    have hsub : S ⊆ ((appearances v (last + 1)).toFinset : Set α) := fun x hx =>
      List.mem_toFinset.mpr (ht x hx)
    have hle := Set.encard_le_encard hsub
    rw [hcard, Set.encard_coe_eq_coe_finsetCard,
      List.toFinset_card_of_nodup (nodup_appearances v _)] at hle
    exact_mod_cast hle

end ParallelPrograms
