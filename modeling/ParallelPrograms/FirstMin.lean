import Mathlib.Order.WithBot

namespace ParallelPrograms

variable {F : Type} [LinearOrder F]

/-- Among the indices below `k`, `b` is the first one with the smallest value. -/
structure FirstMin (f : ℕ → F) (k b : ℕ) : Prop where
  lt : b < k
  before : ∀ j < b, f b < f j
  le : ∀ j < k, f b ≤ f j

theorem FirstMin.unique {f : ℕ → F} {k a b : ℕ} (ha : FirstMin f k a) (hb : FirstMin f k b) :
    a = b := by
  rcases lt_trichotomy a b with hlt | heq | hgt
  · exact absurd (ha.le b hb.lt) (not_le.mpr (hb.before a hlt))
  · exact heq
  · exact absurd (hb.le a ha.lt) (not_le.mpr (ha.before b hgt))

/-- One comparison: the smallest value so far, `⊤` in front of the first one, and its index. -/
def smaller (f : ℕ → F) (v : WithTop F × ℕ) (j : ℕ) : WithTop F × ℕ :=
  if (f j : WithTop F) < v.1 then (f j, j) else v

theorem foldl_smaller (f : ℕ → F) (start k : ℕ) : ∃ b,
    (List.range (k + 1)).foldl (smaller f) (⊤, start) = ((f b : WithTop F), b) ∧
      FirstMin f (k + 1) b := by
  induction k with
  | zero =>
    have hfirst : smaller f (⊤, start) 0 = ((f 0 : WithTop F), 0) :=
      if_pos (WithTop.coe_lt_top (f 0))
    refine ⟨0, hfirst, Nat.one_pos, fun j hj => absurd hj (by omega), fun j hj => ?_⟩
    obtain rfl : j = 0 := by omega
    exact le_rfl
  | succ k ih =>
    obtain ⟨b, hb, hmin⟩ := ih
    rw [List.range_succ, List.foldl_append, hb, List.foldl_cons, List.foldl_nil]
    by_cases hlt : f (k + 1) < f b
    · refine ⟨k + 1, if_pos (WithTop.coe_lt_coe.mpr hlt), Nat.lt_succ_self _, fun j hj => ?_,
        fun j hj => ?_⟩
      · exact hlt.trans_le (hmin.le j hj)
      · rcases Nat.lt_succ_iff_lt_or_eq.mp hj with hj | rfl
        · exact (hlt.trans_le (hmin.le j hj)).le
        · exact le_rfl
    · refine ⟨b, if_neg fun h => hlt (WithTop.coe_lt_coe.mp h), hmin.lt.trans (Nat.lt_succ_self _),
        hmin.before, fun j hj => ?_⟩
      rcases Nat.lt_succ_iff_lt_or_eq.mp hj with hj | rfl
      · exact hmin.le j hj
      · exact not_lt.mp hlt

def searchMin (f : ℕ → F) (k : ℕ) : ℕ := ((List.range k).foldl (smaller f) (⊤, 0)).2

theorem searchMin_firstMin (f : ℕ → F) {k : ℕ} (hk : 0 < k) : FirstMin f k (searchMin f k) := by
  obtain ⟨k, rfl⟩ := Nat.exists_eq_succ_of_ne_zero hk.ne'
  obtain ⟨b, hb, hmin⟩ := foldl_smaller f 0 k
  rw [searchMin, hb]
  exact hmin

theorem foldl_smaller_snd (f : ℕ → F) (start : ℕ) {k : ℕ} (hk : 0 < k) :
    ((List.range k).foldl (smaller f) (⊤, start)).2 = searchMin f k := by
  have hmin := searchMin_firstMin f hk
  obtain ⟨k, rfl⟩ := Nat.exists_eq_succ_of_ne_zero hk.ne'
  obtain ⟨b, hb, hmin'⟩ := foldl_smaller f start k
  rw [hb]
  exact hmin'.unique hmin

end ParallelPrograms
