import Mathlib.Algebra.BigOperators.Field
import Mathlib.Algebra.BigOperators.Fin
import Mathlib.Algebra.Order.BigOperators.Group.Finset
import Mathlib.Algebra.Order.BigOperators.Group.List
import Mathlib.Algebra.Order.Field.Basic
import Mathlib.Tactic.Linarith
import Mathlib.Tactic.Ring

namespace ParallelPrograms.Centres

variable {ι κ γ F : Type*} [Fintype ι] [Fintype κ] [LinearOrder γ] [Field F] [LinearOrder F]

def sqDist (u v : κ → F) : F := ∑ j, (u j - v j) ^ 2

def cost (x : ι → κ → F) (m : γ → κ → F) (L : ι → γ) : F := ∑ i, sqDist (m (L i)) (x i)

/-- Every label is the first of the nearest centres in `S`. -/
structure Nearest (S : Set γ) (x : ι → κ → F) (m : γ → κ → F) (L : ι → γ) : Prop where
  mem : ∀ i, L i ∈ S
  le : ∀ i, ∀ g ∈ S, sqDist (m (L i)) (x i) ≤ sqDist (m g) (x i)
  lt : ∀ i, ∀ g ∈ S, g < L i → sqDist (m (L i)) (x i) < sqDist (m g) (x i)

/-- Every centre balances the points that carry its label. -/
def Centered (x : ι → κ → F) (m : γ → κ → F) (L : ι → γ) : Prop :=
  ∀ g j, ∑ i with L i = g, (m g j - x i j) = 0

/-- One round from the centres `m` to the labels `L` and the centres `m'`: a centre without points
stays where it is. -/
structure Round (S : Set γ) (x : ι → κ → F) (m : γ → κ → F) (L : ι → γ) (m' : γ → κ → F) :
    Prop where
  nearest : Nearest S x m L
  centered : Centered x m' L
  stale : ∀ g ∈ S, (∀ i, L i ≠ g) → m' g = m g

variable {S : Set γ} {x : ι → κ → F} {m m' : γ → κ → F} {L L' : ι → γ}

section Labels

omit [Fintype ι]

/-- The first nearest centre is unique. -/
theorem Nearest.unique (h : Nearest S x m L) (h' : Nearest S x m L') : L = L' := by
  funext i
  rcases lt_trichotomy (L i) (L' i) with hlt | heq | hgt
  · exact absurd (h'.lt i _ (h.mem i) hlt) (h.le i _ (h'.mem i)).not_gt
  · exact heq
  · exact absurd (h.lt i _ (h'.mem i) hgt) (h'.le i _ (h.mem i)).not_gt

theorem Nearest.congr (h : Nearest S x m L) (hm : ∀ g ∈ S, m' g = m g) : Nearest S x m' L where
  mem := h.mem
  le i g hg := by
    rw [hm g hg, hm _ (h.mem i)]
    exact h.le i g hg
  lt i g hg hlt := by
    rw [hm g hg, hm _ (h.mem i)]
    exact h.lt i g hg hlt

end Labels

variable [IsStrictOrderedRing F]

theorem sqDist_nonneg (u v : κ → F) : 0 ≤ sqDist u v :=
  Finset.sum_nonneg fun j _ => sq_nonneg (u j - v j)

theorem sqDist_eq_zero {u v : κ → F} (h : sqDist u v = 0) : u = v := by
  funext j
  have hj : (u j - v j) ^ 2 = 0 :=
    (Finset.sum_eq_zero_iff_of_nonneg fun j _ => sq_nonneg (u j - v j)).mp h j (Finset.mem_univ j)
  exact sub_eq_zero.mp (pow_eq_zero_iff two_ne_zero |>.mp hj)

theorem Nearest.cost_le (h : Nearest S x m L) (hL : ∀ i, L' i ∈ S) : cost x m L ≤ cost x m L' :=
  Finset.sum_le_sum fun i _ => h.le i _ (hL i)

omit [LinearOrder F] [IsStrictOrderedRing F] in
theorem sum_filter_getElem {α : Type*} (l : List α) (P : α → Prop) [DecidablePred P] (f : α → F) :
    ∑ i : Fin l.length with P (l.get i), f (l.get i) =
      ((l.filter fun x => P x).map f).sum := by
  calc ∑ i : Fin l.length with P (l.get i), f (l.get i)
      = ∑ i : Fin l.length, (fun x => if P x then f x else 0) l[(i : ℕ)] := Finset.sum_filter _ _
    _ = (l.map fun x => if P x then f x else 0).sum :=
        Fin.sum_univ_fun_getElem l fun x => if P x then f x else 0
    _ = ((l.filter fun x => P x).map f).sum := by
        rw [List.sum_map_ite]
        simp

omit [LinearOrder F] [IsStrictOrderedRing F] in
theorem sum_const_sub {α : Type*} (c : F) (f : α → F) (l : List α) :
    (l.map fun p => c - f p).sum = l.length * c - (l.map f).sum := by
  induction l with
  | nil => simp
  | cons p l ih =>
    rw [List.map_cons, List.sum_cons, ih, List.map_cons, List.sum_cons, List.length_cons]
    push_cast
    ring

theorem exists_le_mean {α : Type*} {l : List α} (hne : l ≠ []) (f : α → F) :
    (∃ a ∈ l, f a ≤ (l.map f).sum / l.length) ∧ ∃ a ∈ l, (l.map f).sum / l.length ≤ f a := by
  have hlen : (l.length : F) ≠ 0 := by
    rw [Nat.cast_ne_zero]
    exact (List.length_pos_iff.mpr hne).ne'
  have hsum : (l.map fun _ => (l.map f).sum / (l.length : F)).sum = (l.map f).sum := by
    rw [List.map_const', List.sum_replicate, nsmul_eq_mul, mul_div_cancel₀ _ hlen]
  constructor
  · exact List.exists_le_of_sum_le hne f _ hsum.ge
  · exact List.exists_le_of_sum_le hne _ f hsum.le

omit [Fintype κ] [LinearOrder F] [IsStrictOrderedRing F] in
/-- A weight that depends on the label only cancels against balanced centres. -/
theorem Centered.sum_mul (h : Centered x m L) (w : γ → F) (j : κ) :
    ∑ i, w (L i) * (m (L i) j - x i j) = 0 := by
  rw [← Finset.sum_fiberwise_of_maps_to (t := Finset.univ.image L) (g := L)
    fun i _ => Finset.mem_image_of_mem L (Finset.mem_univ i)]
  apply Finset.sum_eq_zero
  intro g _
  have hfiber : ∑ i with L i = g, w (L i) * (m (L i) j - x i j) =
      w g * ∑ i with L i = g, (m g j - x i j) := by
    rw [Finset.mul_sum]
    apply Finset.sum_congr rfl
    intro i hi
    rw [(Finset.mem_filter.mp hi).2]
  rw [hfiber, h g j, mul_zero]

omit [LinearOrder F] [IsStrictOrderedRing F] in
/-- Away from the means the cost is larger by the squared distances to the means. -/
theorem Centered.cost_eq (h : Centered x m L) (m' : γ → κ → F) :
    cost x m' L = cost x m L + ∑ i, sqDist (m' (L i)) (m (L i)) := by
  -- the mixed terms cancel, coordinate by coordinate
  have hcross : ∑ i, ∑ j, (m' (L i) j - m (L i) j) * (m (L i) j - x i j) = 0 := by
    rw [Finset.sum_comm]
    exact Finset.sum_eq_zero fun j _ => h.sum_mul (fun g => m' g j - m g j) j
  calc cost x m' L
      = ∑ i, (sqDist (m (L i)) (x i) + sqDist (m' (L i)) (m (L i)) +
          2 * ∑ j, (m' (L i) j - m (L i) j) * (m (L i) j - x i j)) := by
        apply Finset.sum_congr rfl
        intro i _
        simp only [sqDist]
        rw [Finset.mul_sum, ← Finset.sum_add_distrib, ← Finset.sum_add_distrib]
        apply Finset.sum_congr rfl
        intro j _
        ring
    _ = cost x m L + ∑ i, sqDist (m' (L i)) (m (L i)) +
          2 * ∑ i, ∑ j, (m' (L i) j - m (L i) j) * (m (L i) j - x i j) := by
        rw [Finset.sum_add_distrib, Finset.sum_add_distrib, ← Finset.mul_sum]
        rfl
    _ = cost x m L + ∑ i, sqDist (m' (L i)) (m (L i)) := by rw [hcross, mul_zero, add_zero]

theorem Centered.cost_le (h : Centered x m L) (m' : γ → κ → F) : cost x m L ≤ cost x m' L := by
  rw [h.cost_eq m']
  exact le_add_of_nonneg_right (Finset.sum_nonneg fun i _ => sqDist_nonneg _ _)

/-- Centres of the least cost are the means, wherever there are points. -/
theorem Centered.eq_of_cost_le (h : Centered x m L) (hcost : cost x m' L ≤ cost x m L) (i : ι) :
    m' (L i) = m (L i) := by
  rw [h.cost_eq m'] at hcost
  have hsum : ∑ i, sqDist (m' (L i)) (m (L i)) = 0 :=
    le_antisymm (by linarith) (Finset.sum_nonneg fun i _ => sqDist_nonneg _ _)
  exact sqDist_eq_zero ((Finset.sum_eq_zero_iff_of_nonneg fun i _ => sqDist_nonneg _ _).mp hsum i
    (Finset.mem_univ i))

/-- The cost of a labelling at its own means does not depend on the other centres. -/
theorem Centered.cost_congr (h : Centered x m L) (h' : Centered x m' L) :
    cost x m L = cost x m' L :=
  le_antisymm (h.cost_le m') (h'.cost_le m)

theorem Round.cost_le (h : Round S x m L' m') (hL : ∀ i, L i ∈ S) :
    cost x m' L' ≤ cost x m L :=
  (h.centered.cost_le m).trans (h.nearest.cost_le hL)

/-- A round that does not lower the cost moves no centre. -/
theorem Round.eq_of_cost_eq (h : Round S x m L' m') (hL : ∀ i, L i ∈ S)
    (hcost : cost x m L ≤ cost x m' L') : ∀ g ∈ S, m' g = m g := by
  intro g hg
  by_cases hempty : ∀ i, L' i ≠ g
  · exact h.stale g hg hempty
  · -- the old centres cost no more than the new ones, which are the means
    obtain ⟨i, rfl⟩ : ∃ i, L' i = g := by simpa using hempty
    exact (h.centered.eq_of_cost_le ((h.nearest.cost_le hL).trans hcost) i).symm

section Runs

variable {m : ℕ → γ → κ → F} {L : ℕ → ι → γ} {s e : ℕ}

theorem cost_anti (hround : ∀ t, s ≤ t → t < e → Round S x (m t) (L (t + 1)) (m (t + 1)))
    (hmem : ∀ t, s ≤ t → t ≤ e → ∀ i, L t i ∈ S) {t k : ℕ} (hst : s ≤ t) (hte : t + k ≤ e) :
    cost x (m (t + k)) (L (t + k)) ≤ cost x (m t) (L t) := by
  induction k with
  | zero => exact le_rfl
  | succ k ih =>
    have hdown := (hround (t + k) (by omega) (by omega)).cost_le
      (hmem (t + k) (by omega) (by omega))
    exact hdown.trans (ih (by omega))

/-- Where the cost ends as it began, no centre has moved. -/
theorem stay_of_cost_eq (hround : ∀ t, s ≤ t → t < e → Round S x (m t) (L (t + 1)) (m (t + 1)))
    (hmem : ∀ t, s ≤ t → t ≤ e → ∀ i, L t i ∈ S)
    (hends : cost x (m s) (L s) = cost x (m e) (L e)) {k : ℕ} (hk : s + k ≤ e) :
    ∀ g ∈ S, m (s + k) g = m s g := by
  induction k with
  | zero => exact fun _ _ => rfl
  | succ k ih =>
    intro g hg
    obtain ⟨j, rfl⟩ := Nat.exists_eq_add_of_le hk
    -- the costs in front of this round and behind it are between those at the ends
    have hstart : cost x (m (s + k)) (L (s + k)) ≤ cost x (m s) (L s) :=
      cost_anti hround hmem le_rfl (by omega)
    have hrest : cost x (m (s + (k + 1) + j)) (L (s + (k + 1) + j)) ≤
        cost x (m (s + k + 1)) (L (s + k + 1)) := cost_anti hround hmem (by omega) le_rfl
    have hfix := (hround (s + k) (by omega) (by omega)).eq_of_cost_eq
      (hmem (s + k) (by omega) (by omega)) ((hstart.trans hends.le).trans hrest)
    exact (hfix g hg).trans (ih (by omega) g hg)

/-- A labelling that comes back after one or more rounds has stayed all along. -/
theorem no_cycle (hse : s < e)
    (hround : ∀ t, s ≤ t → t < e → Round S x (m t) (L (t + 1)) (m (t + 1)))
    (hstart : ∀ i, L s i ∈ S) (hcentered : Centered x (m s) (L s)) (hback : L e = L s) :
    L (s + 1) = L s := by
  have hmem : ∀ t, s ≤ t → t ≤ e → ∀ i, L t i ∈ S := by
    intro t hst hte
    rcases hst.eq_or_lt with rfl | hlt
    · exact hstart
    · obtain ⟨t, rfl⟩ := Nat.exists_eq_add_of_lt hlt
      exact (hround (s + t) (by omega) (by omega)).nearest.mem
  obtain ⟨k, rfl⟩ := Nat.exists_eq_add_of_lt hse
  have hlast := hround (s + k) (by omega) (by omega)
  -- a labelling has one cost at its means
  have hends : cost x (m s) (L s) = cost x (m (s + k + 1)) (L (s + k + 1)) := by
    have hcentered' := hlast.centered
    rw [hback] at hcentered' ⊢
    exact hcentered.cost_congr hcentered'
  have hstay := stay_of_cost_eq hround hmem hends (k := k) (by omega)
  have hnearest : Nearest S x (m s) (L (s + k + 1)) :=
    hlast.nearest.congr fun g hg => (hstay g hg).symm
  exact ((hround s le_rfl (by omega)).nearest.unique hnearest).trans hback

end Runs

end ParallelPrograms.Centres
