import Mathlib.Algebra.Order.Ring.Nat
import Mathlib.Data.Int.Basic

namespace ParallelPrograms

theorem toInt_of_lt {m : ℕ} (h : m < 2 ^ 31) : (BitVec.ofNat 32 m).toInt = m := by
  rw [BitVec.toInt_ofNat', Int.bmod_def]
  omega

theorem lt_of_toInt_nonneg {m : ℕ} (hle : m ≤ 2 ^ 31) (h : 0 ≤ (BitVec.ofNat 32 m).toInt) :
    m < 2 ^ 31 := by
  rw [BitVec.toInt_ofNat', Int.bmod_def] at h
  omega

theorem toInt_le (m : ℕ) : (BitVec.ofNat 32 m).toInt ≤ m := by
  rw [BitVec.toInt_ofNat', Int.bmod_def]
  omega

end ParallelPrograms
