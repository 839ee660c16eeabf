import Mathlib.Algebra.BigOperators.Group.List.Basic
import Mathlib.Data.Nat.Cast.Field
import Mathlib.Data.Rat.Floor
import Mathlib.Tactic.NormNum
import Mathlib.Tactic.FieldSimp
import Mathlib.Tactic.Positivity
import ParallelPrograms.CompareTimer
import ParallelPrograms.Rounding
import ParallelPrograms.Toggle

namespace ParallelPrograms.BlinkTimer

open CompareTimer

/-- Rounding to normal numbers of single precision, or better: every operation on a `double` rounds,
and on the board it has the precision of a `float`. -/
def Single (fl : ℚ → ℚ) : Prop := Rounding (1 / 2 ^ 24) (1 / 2 ^ 126) (2 ^ 127) fl

structure Board where
  timer : Registers
  led : Bool
  deriving DecidableEq

variable (fl : ℚ → ℚ)

/-- `startTimer(timerFrequency)`: undefined if the compare value does not fit 16 bits. -/
def startTimer (timerFrequency : ℚ) (b : Board) : Option Board :=
  let divisor := fl (1024 * timerFrequency)
  let top := fl (fl (16000000 / divisor) - 1)
  if divisor ≠ 0 ∧ -1 < top ∧ top < 65536 then
    some { b with timer :=
      { tccr1a := 0
        tccr1b := 0#8 ||| 1#8 <<< 3 ||| (1#8 <<< 2 ||| 1#8 <<< 0)
        timsk1 := b.timer.timsk1 ||| 1#8 <<< 1
        tcnt1 := 0
        ocr1a := BitVec.ofNat 16 ⌊top⌋₊ } }
  else none

def setup (b : Board) : Option Board := startTimer fl 0.5 b

/-- `loop()` of `Activity_3.3_Code.cpp` with the result of `analogRead`, ten bits -/
def loop (reading : Fin 1024) (b : Board) : Option Board := startTimer fl (fl (reading / 100)) b

/-- `ISR(TIMER1_COMPA_vect)` -/
def timer1 (b : Board) : Board := { b with led := b.led ^^ true }

inductive Event where
  | edge
  | pass (reading : Fin 1024)
  deriving DecidableEq

def step (b : Board) : Event → Option Board
  | .edge =>
    let (timer, interrupt) := tick b.timer
    some (if interrupt then timer1 { b with timer := timer } else { b with timer := timer })
  | .pass reading => loop fl reading b

def run (boot : Board) (es : List Event) : Option Board :=
  (setup fl boot).bind (es.foldlM (step fl))

variable {fl}

def period (reading : Fin 1024) : ℕ := 1562500 / reading

theorem divisor_within (hfl : Single fl) {reading : ℕ} (hpos : 0 < reading) (hle : reading < 1024) :
    Within ((1 - 1 / 2 ^ 24) ^ 2) ((1 + 1 / 2 ^ 24) ^ 2) (1024 * (reading / 100))
      (fl (1024 * fl (reading / 100))) := by
  have hone : (1 : ℚ) ≤ reading := by exact_mod_cast hpos
  have hmax : (reading : ℚ) ≤ 1024 := by exact_mod_cast hle.le
  have hval := (Within.refl ((reading : ℚ) / 100)).round hfl (by norm_num) (by norm_num)
    (by linarith) (by linarith)
  have hmul := hval.mul (c := 1024) (by norm_num)
  have hdivisor := hmul.round hfl (by norm_num) (by norm_num) (by linarith [hmul.le])
    (by linarith [hmul.ge])
  convert hdivisor using 1 <;> ring

/-- The rounded value is nearer to the exact one than two quotients by `reading` are to each
other. -/
theorem top_near (hfl : Single fl) {reading : ℕ} (hpos : 0 < reading) (hlt : reading < 1024) :
    |fl (fl (16000000 / fl (1024 * fl (reading / 100))) - 1) - (1562500 / reading - 1)| <
      1 / reading := by
  have hone : (1 : ℚ) ≤ reading := by exact_mod_cast hpos
  have hmax : (reading : ℚ) ≤ 1024 := by exact_mod_cast hlt.le
  have hquot : (16000000 : ℚ) / (1024 * (reading / 100)) = 1562500 / reading := by
    field_simp
    norm_num
  obtain ⟨exact, hexact⟩ : ∃ exact : ℚ, exact = 1562500 / reading := ⟨_, rfl⟩
  have hexact_le : exact ≤ 1562500 := hexact ▸ div_le_self (by norm_num) hone
  have hexact_ge : 1500 ≤ exact := by
    rw [hexact, le_div_iff₀ (by linarith)]
    linarith
  have hdiv := (divisor_within hfl hpos hlt).div (c := 16000000) (by norm_num) (by positivity)
    (by norm_num)
  rw [hquot, ← hexact] at hdiv
  have hl : (1 - 2 / 2 ^ 24 : ℚ) ≤ ((1 + 1 / 2 ^ 24) ^ 2)⁻¹ := by norm_num
  have hh : (((1 - 1 / 2 ^ 24) ^ 2)⁻¹ : ℚ) ≤ 1 + 3 / 2 ^ 24 := by norm_num
  have hlow := (mul_le_mul_of_nonneg_right hl (by linarith : 0 ≤ exact)).trans hdiv.le
  have hhigh := hdiv.ge.trans (mul_le_mul_of_nonneg_right hh (by linarith : 0 ≤ exact))
  have hnear : 6 / 2 ^ 24 * exact < 1 / reading := by
    rw [hexact, ← mul_div_assoc]
    exact div_lt_div_of_pos_right (by norm_num) (by linarith)
  obtain ⟨hq, hq'⟩ := abs_le.mp (hfl.near (16000000 / fl (1024 * fl (reading / 100)))
    (by linarith) (by linarith))
  obtain ⟨ht, ht'⟩ := abs_le.mp (hfl.near (fl (16000000 / fl (1024 * fl (reading / 100))) - 1)
    (by linarith) (by linarith))
  rw [← hexact, abs_lt]
  constructor <;> linarith

/-- A reading with a whole quotient is a multiple of 25, so that its frequency is a multiple of
a quarter and nothing rounds. -/
theorem reading_of_dvd : ∀ reading < 1024, 24 ≤ reading → reading ∣ 1562500 → 25 ∣ reading := by
  decide +kernel

theorem Single.natCast (hfl : Single fl) {n : ℕ} (hpos : 0 < n) (hle : n ≤ 2 ^ 24) :
    fl n = n := by
  have hone : (1 : ℚ) ≤ n := by exact_mod_cast hpos
  have hmax : (n : ℚ) ≤ 2 ^ 24 := by exact_mod_cast hle
  have hfixed := hfl.fixed n 0 (by linarith) (by rw [pow_zero, div_one]; linarith)
    (by rw [pow_zero, div_one]; linarith)
  rwa [pow_zero, div_one] at hfixed

theorem top_exact (hfl : Single fl) {reading : ℕ} (hge : 24 ≤ reading) (hlt : reading < 1024)
    (hdvd : reading ∣ 1562500) :
    fl (fl (16000000 / fl (1024 * fl (reading / 100))) - 1) = 1562500 / reading - 1 := by
  obtain ⟨z, rfl⟩ := reading_of_dvd reading hlt hge hdvd
  obtain ⟨m, hm⟩ : z ∣ 62500 :=
    Nat.dvd_of_mul_dvd_mul_left (by decide : 0 < 25) (hdvd : 25 * z ∣ 25 * 62500)
  have hz : 0 < z := by omega
  have hm1 : 1 < m := by
    by_contra! h
    have : z * m ≤ z * 1 := Nat.mul_le_mul_left z h
    omega
  have hmle : m ≤ 62500 := Nat.le_of_dvd (by norm_num) ⟨z, by rw [hm, Nat.mul_comm]⟩
  have hone : (1 : ℚ) ≤ z := by exact_mod_cast hz
  have hmax : (z : ℚ) ≤ 40 := by exact_mod_cast (by omega : z ≤ 40)
  have hprod : (z : ℚ) * m = 62500 := by exact_mod_cast hm.symm
  have hval : fl ((25 * z : ℕ) / 100) = z / 4 := by
    have hfixed := hfl.fixed z 2 (by linarith) (by linarith) (by linarith)
    rw [show ((25 * z : ℕ) : ℚ) / 100 = z / 2 ^ 2 by push_cast; ring, hfixed]
    norm_num
  have hdivisor : fl (1024 * (z / 4)) = 256 * z := by
    have hnat := hfl.natCast (n := 256 * z) (by omega) (by omega)
    rw [show (1024 : ℚ) * (z / 4) = (256 * z : ℕ) by push_cast; ring, hnat]
    push_cast
    rfl
  have hquot : (16000000 : ℚ) / (256 * z) = m := by
    rw [div_eq_iff (by positivity)]
    linarith
  have hsub : (m : ℚ) - 1 = (m - 1 : ℕ) := by
    rw [Nat.cast_sub hm1.le, Nat.cast_one]
  rw [hval, hdivisor, hquot, hfl.natCast (by omega) (by omega), hsub,
    hfl.natCast (by omega) (by omega), ← hsub, sub_left_inj, eq_div_iff (by positivity)]
  push_cast
  linarith

/-- The compare value of a reading is the exact quotient less one, however the arithmetic
rounds. -/
theorem floor_top (hfl : Single fl) {reading : ℕ} (hge : 24 ≤ reading) (hlt : reading < 1024) :
    ⌊fl (fl (16000000 / fl (1024 * fl (reading / 100))) - 1)⌋₊ = 1562500 / reading - 1 := by
  have hpos : (0 : ℚ) < reading := by exact_mod_cast (by omega : 0 < reading)
  have hquot : 1 ≤ 1562500 / reading := (Nat.one_le_div_iff (by omega)).mpr (by omega)
  have hcast : ((1562500 / reading - 1 : ℕ) : ℚ) = (1562500 / reading : ℕ) - 1 := by
    rw [Nat.cast_sub hquot, Nat.cast_one]
  by_cases hdvd : reading ∣ 1562500
  · have hdiv : (1562500 : ℚ) / reading = (1562500 / reading : ℕ) := by
      rw [Nat.cast_div hdvd hpos.ne', Nat.cast_ofNat]
    rw [top_exact hfl hge hlt hdvd, hdiv, ← hcast, Nat.floor_natCast]
  · -- the fraction is at least one part in `reading` away from the whole numbers around it
    have hrem : 0 < 1562500 % reading := Nat.pos_of_ne_zero fun h => hdvd (Nat.dvd_of_mod_eq_zero h)
    have hrem' := Nat.mod_lt 1562500 (by omega : 0 < reading)
    have hdivmod := Nat.div_add_mod 1562500 reading
    have hlow : ((1562500 / reading : ℕ) : ℚ) ≤ 1562500 / reading - 1 / reading := by
      rw [← sub_div, le_div_iff₀ hpos]
      have : ((reading * (1562500 / reading) + 1 : ℕ) : ℚ) ≤ (1562500 : ℕ) :=
        Nat.cast_le.mpr (by omega)
      push_cast at this ⊢
      linarith
    have hhigh : (1562500 : ℚ) / reading + 1 / reading ≤ (1562500 / reading : ℕ) + 1 := by
      rw [← add_div, div_le_iff₀ hpos]
      have : ((1562500 + 1 : ℕ) : ℚ) ≤ (reading * (1562500 / reading) + reading : ℕ) :=
        Nat.cast_le.mpr (by omega)
      push_cast at this ⊢
      linarith
    obtain ⟨hge', hle'⟩ := abs_lt.mp (top_near hfl (by omega) hlt)
    have hone : (1 : ℚ) ≤ (1562500 / reading : ℕ) := by exact_mod_cast hquot
    rw [Nat.floor_eq_iff (by linarith), hcast]
    constructor <;> linarith

theorem top_fits_iff (hfl : Single fl) {reading : ℕ} (hpos : 0 < reading) (hlt : reading < 1024) :
    (-1 < fl (fl (16000000 / fl (1024 * fl (reading / 100))) - 1) ∧
      fl (fl (16000000 / fl (1024 * fl (reading / 100))) - 1) < 65536) ↔ 24 ≤ reading := by
  have hpos' : (0 : ℚ) < reading := by exact_mod_cast hpos
  obtain ⟨hge, hle⟩ := abs_lt.mp (top_near hfl hpos hlt)
  constructor
  · rintro ⟨-, hfits⟩
    by_contra! h
    have hmax : (reading : ℚ) ≤ 23 := by exact_mod_cast (by omega : reading ≤ 23)
    have hlarge : (65537 : ℚ) ≤ 1562500 / reading - 1 / reading := by
      rw [← sub_div, le_div_iff₀ hpos']
      linarith
    linarith
  · intro h
    have hmin : (24 : ℚ) ≤ reading := by exact_mod_cast h
    have hsmall : (1562500 : ℚ) / reading + 1 / reading ≤ 65537 := by
      rw [← add_div, div_le_iff₀ hpos']
      linarith
    have hnonneg : (0 : ℚ) ≤ 1562500 / reading - 1 / reading := by
      rw [← sub_div]
      exact div_nonneg (by norm_num) hpos'.le
    constructor <;> linarith

/-- The period is set and no edge has passed; the LED is left alone. -/
theorem startTimer_spec {timerFrequency : ℚ} {b b' : Board}
    (h : startTimer fl timerFrequency b = some b') :
    b'.led = b.led ∧
      Counting (⌊fl (fl (16000000 / fl (1024 * timerFrequency)) - 1)⌋₊ + 1) 0 b'.timer := by
  simp only [startTimer, Option.ite_none_right_eq_some, Option.some.injEq] at h
  obtain ⟨⟨-, -, hmax⟩, rfl⟩ := h
  have hlt : ⌊fl (fl (16000000 / fl (1024 * timerFrequency)) - 1)⌋₊ < 2 ^ 16 := by
    rw [Nat.floor_lt' (by norm_num)]
    exact hmax.trans_eq (by norm_num)
  refine ⟨rfl, ?_, ?_, ?_, ?_, rfl, Nat.succ_pos _⟩
  · simp [Registers.ctc]
  · simp [Registers.clock1024]
  · simp [Registers.ocie1a]
  · rw [BitVec.toNat_ofNat, Nat.mod_eq_of_lt hlt]

theorem loop_isSome_iff (hfl : Single fl) (reading : Fin 1024) (b : Board) :
    (loop fl reading b).isSome ↔ 24 ≤ reading.val := by
  rw [loop, startTimer, Option.isSome_ite]
  rcases Nat.eq_zero_or_pos reading.val with hzero | hpos
  · simp [hzero, hfl.zero]
  · have hdivisor := (divisor_within hfl hpos reading.isLt).pos (by norm_num)
      (by have : (0 : ℚ) < (reading : ℕ) := Nat.cast_pos.mpr hpos
          positivity)
    rw [← top_fits_iff hfl hpos reading.isLt]
    exact and_iff_right hdivisor.ne'

theorem loop_spec (hfl : Single fl) {reading : Fin 1024} (hreading : 24 ≤ reading.val) (b : Board) :
    ∃ b', loop fl reading b = some b' ∧ b'.led = b.led ∧
      Counting (period reading) 0 b'.timer := by
  obtain ⟨b', hsome⟩ := Option.isSome_iff_exists.mp ((loop_isSome_iff hfl reading b).mpr hreading)
  obtain ⟨hled, hcounting⟩ := startTimer_spec hsome
  have hquot : 1 ≤ 1562500 / reading.val := (Nat.one_le_div_iff (by omega)).mpr (by omega)
  rw [floor_top hfl hreading reading.isLt, Nat.sub_add_cancel hquot] at hcounting
  exact ⟨b', hsome, hled, hcounting⟩

def next (clock : ℕ × ℕ) : Event → ℕ × ℕ
  | .edge => (clock.1, (clock.2 + 1) % clock.1)
  | .pass reading => (period reading, 0)

def Event.Fits : Event → Prop
  | .edge => True
  | .pass reading => 24 ≤ reading.val

/-- So many edges behind `setup()`, and then the passes of `loop()`, each with the edges
behind it. -/
def events (edges : ℕ) (passes : List (Fin 1024 × ℕ)) : List Event :=
  List.replicate edges .edge ++
    passes.flatMap fun p => .pass p.1 :: List.replicate p.2 .edge

end ParallelPrograms.BlinkTimer
