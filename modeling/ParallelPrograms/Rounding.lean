import Mathlib.Algebra.Order.Field.Rat
import Mathlib.Tactic.Linarith
import Mathlib.Tactic.Ring

namespace ParallelPrograms

/-- Rounding between `lo` and `hi` with the unit roundoff `u`. -/
structure Rounding (u lo hi : ℚ) (fl : ℚ → ℚ) : Prop where
  zero : fl 0 = 0
  near : ∀ x, lo ≤ x → x ≤ hi → |fl x - x| ≤ u * x
  fixed : ∀ z k : ℕ, u * z ≤ 1 → lo ≤ z / 2 ^ k → (z : ℚ) / 2 ^ k ≤ hi →
    fl (z / 2 ^ k) = z / 2 ^ k

/-- `y` is `x` up to a factor between `l` and `h`. -/
structure Within (l h x y : ℚ) : Prop where
  le : l * x ≤ y
  ge : y ≤ h * x

namespace Within

variable {l h x y u lo hi : ℚ} {fl : ℚ → ℚ}

theorem refl (x : ℚ) : Within 1 1 x x := ⟨(one_mul x).le, (one_mul x).ge⟩

theorem mul (hw : Within l h x y) {c : ℚ} (hc : 0 ≤ c) : Within l h (c * x) (c * y) where
  le := calc
    l * (c * x) = c * (l * x) := mul_left_comm l c x
    _ ≤ c * y := mul_le_mul_of_nonneg_left hw.le hc
  ge := calc
    c * y ≤ c * (h * x) := mul_le_mul_of_nonneg_left hw.ge hc
    _ = h * (c * x) := mul_left_comm c h x

theorem pos (hw : Within l h x y) (hl : 0 < l) (hx : 0 < x) : 0 < y :=
  (mul_pos hl hx).trans_le hw.le

theorem div (hw : Within l h x y) (hl : 0 < l) (hx : 0 < x) {c : ℚ} (hc : 0 ≤ c) :
    Within h⁻¹ l⁻¹ (c / x) (c / y) where
  le := calc
    h⁻¹ * (c / x) = c / (h * x) := by rw [div_eq_mul_inv, div_eq_mul_inv, mul_inv]; ring
    _ ≤ c / y := div_le_div_of_nonneg_left hc (hw.pos hl hx) hw.ge
  ge := calc
    c / y ≤ c / (l * x) := div_le_div_of_nonneg_left hc (mul_pos hl hx) hw.le
    _ = l⁻¹ * (c / x) := by rw [div_eq_mul_inv, div_eq_mul_inv, mul_inv]; ring

theorem round (hw : Within l h x y) (hfl : Rounding u lo hi fl) (hu : 0 ≤ u) (hu1 : u ≤ 1)
    (hlo : lo ≤ y) (hhi : y ≤ hi) : Within (l * (1 - u)) (h * (1 + u)) x (fl y) := by
  obtain ⟨hge, hle⟩ := abs_le.mp (hfl.near y hlo hhi)
  constructor
  · calc l * (1 - u) * x = (1 - u) * (l * x) := by ring
      _ ≤ (1 - u) * y := mul_le_mul_of_nonneg_left hw.le (sub_nonneg.mpr hu1)
      _ ≤ fl y := by linarith
  · calc fl y ≤ (1 + u) * y := by linarith
      _ ≤ (1 + u) * (h * x) := mul_le_mul_of_nonneg_left hw.ge (by linarith)
      _ = h * (1 + u) * x := by ring

end Within

end ParallelPrograms
