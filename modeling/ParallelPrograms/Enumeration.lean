import Mathlib.Data.List.Lex
import Mathlib.Data.List.Nodup
import Mathlib.Order.Lattice

namespace ParallelPrograms

variable {α : Type*} [LinearOrder α]

/-- The elements with property `P`, each once and in increasing order. -/
structure Enumerates (L : List α) (P : α → Prop) : Prop where
  increasing : L.Pairwise (· < ·)
  mem_iff : ∀ x, x ∈ L ↔ P x

namespace Enumerates

variable {L L' : List α} {P Q : α → Prop}

theorem singleton (x : α) : Enumerates [x] (· = x) := ⟨List.pairwise_singleton _ x, by simp⟩

theorem congr (h : Enumerates L P) (hPQ : ∀ x, P x ↔ Q x) : Enumerates L Q :=
  ⟨h.increasing, fun x => (h.mem_iff x).trans (hPQ x)⟩

theorem filter (h : Enumerates L P) (Q : α → Prop) [DecidablePred Q] :
    Enumerates (L.filter fun x => Q x) fun x => P x ∧ Q x :=
  ⟨h.increasing.filter _, fun x => by simp [h.mem_iff x]⟩

theorem unique (h : Enumerates L P) (h' : Enumerates L' P) : L = L' := by
  have hnodup := h.increasing.imp fun hlt => ne_of_lt hlt
  have hnodup' := h'.increasing.imp fun hlt => ne_of_lt hlt
  have hperm : L.Perm L' := (List.perm_ext_iff_of_nodup hnodup hnodup').mpr fun x =>
    (h.mem_iff x).trans (h'.mem_iff x).symm
  exact hperm.eq_of_pairwise (fun x y _ _ hxy hyx => absurd hxy hyx.not_gt) h.increasing
    h'.increasing

/-- The lists that begin with `j` and go on as `P j` says, for each `j` of an increasing list. -/
theorem flatMap_cons {js : List α} (hjs : js.Pairwise (· < ·)) {L : α → List (List α)}
    {P : α → List α → Prop} (h : ∀ j ∈ js, Enumerates (L j) (P j)) :
    Enumerates (js.flatMap fun j => (L j).map (j :: ·)) fun l =>
      ∃ j ∈ js, ∃ t, l = j :: t ∧ P j t where
  increasing := by
    rw [List.pairwise_flatMap]
    constructor
    · intro j hj
      rw [List.pairwise_map]
      exact (h j hj).increasing.imp fun hlt => List.cons_lt_cons_iff.mpr (.inr ⟨rfl, hlt⟩)
    · refine hjs.imp fun hlt x hx y hy => ?_
      obtain ⟨s, -, rfl⟩ := List.mem_map.mp hx
      obtain ⟨t, -, rfl⟩ := List.mem_map.mp hy
      exact List.cons_lt_cons_iff.mpr (.inl hlt)
  mem_iff l := by
    rw [List.mem_flatMap]
    constructor
    · rintro ⟨j, hj, hl⟩
      obtain ⟨t, ht, rfl⟩ := List.mem_map.mp hl
      exact ⟨j, hj, t, rfl, ((h j hj).mem_iff t).mp ht⟩
    · rintro ⟨j, hj, t, rfl, ht⟩
      exact ⟨j, hj, List.mem_map_of_mem (((h j hj).mem_iff t).mpr ht)⟩

end Enumerates
end ParallelPrograms
