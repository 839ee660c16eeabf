import Mathlib.Data.Nat.ModEq
import Mathlib.Tactic.Common

namespace ParallelPrograms.CompareTimer

@[ext]
structure Registers where
  tccr1a : BitVec 8
  tccr1b : BitVec 8
  timsk1 : BitVec 8
  tcnt1 : BitVec 16
  ocr1a : BitVec 16
  deriving DecidableEq

/-- `WGM13:0` is 4: clear on compare match with `OCR1A`. -/
def Registers.ctc (t : Registers) : Bool :=
  !t.tccr1b.getLsbD 4 && t.tccr1b.getLsbD 3 && !t.tccr1a.getLsbD 1 && !t.tccr1a.getLsbD 0

/-- `CS12:0` is 5: the system clock divided by 1024. -/
def Registers.clock1024 (t : Registers) : Bool :=
  t.tccr1b.getLsbD 2 && !t.tccr1b.getLsbD 1 && t.tccr1b.getLsbD 0

def Registers.ocie1a (t : Registers) : Bool := t.timsk1.getLsbD 1

/-- One edge of the divided clock, and whether it raises the compare interrupt.  Other modes
and clocks are not described. -/
def tick (t : Registers) : Registers × Bool :=
  if t.ctc && t.clock1024 then
    if t.tcnt1 = t.ocr1a then ({ t with tcnt1 := 0 }, t.ocie1a)
    else ({ t with tcnt1 := t.tcnt1 + 1 }, false)
  else (t, false)

structure Counting (period count : ℕ) (t : Registers) : Prop where
  ctc : t.ctc = true
  clock1024 : t.clock1024 = true
  ocie1a : t.ocie1a = true
  ocr1a : t.ocr1a.toNat + 1 = period
  tcnt1 : t.tcnt1.toNat = count
  lt : count < period

theorem Counting.tick_eq {period count : ℕ} {t : Registers} (h : Counting period count t) :
    tick t = if count + 1 = period then ({ t with tcnt1 := 0 }, true)
      else ({ t with tcnt1 := t.tcnt1 + 1 }, false) := by
  have hmatch : t.tcnt1 = t.ocr1a ↔ count + 1 = period := by
    rw [← BitVec.toNat_inj, h.tcnt1, ← h.ocr1a, Nat.add_right_cancel_iff]
  rw [tick, if_pos (by rw [h.ctc, h.clock1024]; rfl), h.ocie1a]
  by_cases hcount : count + 1 = period
  · rw [if_pos (hmatch.mpr hcount), if_pos hcount]
  · rw [if_neg (hmatch.not.mpr hcount), if_neg hcount]

/-- The last edge of a period raises the interrupt, and the others do not. -/
theorem Counting.tick {period count : ℕ} {t : Registers} (h : Counting period count t) :
    Counting period ((count + 1) % period) (tick t).1 ∧
      (CompareTimer.tick t).2 = decide (count + 1 = period) := by
  rw [h.tick_eq]
  by_cases hcount : count + 1 = period
  · rw [if_pos hcount, hcount, Nat.mod_self]
    exact ⟨⟨h.ctc, h.clock1024, h.ocie1a, h.ocr1a, rfl, Nat.zero_lt_of_lt h.lt⟩,
      (decide_eq_true rfl).symm⟩
  · have hlt : count + 1 < period := Nat.lt_of_le_of_ne h.lt hcount
    have htcnt1 : (t.tcnt1 + 1).toNat = count + 1 := by
      have hocr1a := t.ocr1a.isLt
      have hperiod := h.ocr1a
      rw [BitVec.toNat_add, h.tcnt1]
      exact Nat.mod_eq_of_lt (by omega : count + 1 < 2 ^ 16)
    rw [if_neg hcount, Nat.mod_eq_of_lt hlt, decide_eq_false hcount]
    exact ⟨⟨h.ctc, h.clock1024, h.ocie1a, h.ocr1a, htcnt1, hlt⟩, rfl⟩

end ParallelPrograms.CompareTimer
