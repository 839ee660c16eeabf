import ParallelPrograms.Toggle

namespace ParallelPrograms.MotionSensors

/-- The globals, the levels at the two pins and the registers that enable the interrupts;
`true` is `HIGH`. -/
structure Board where
  pcicr : BitVec 8
  pcmsk0 : BitVec 8
  ocie1a : Bool
  pirPin1 : Bool
  pirPin2 : Bool
  ledRedState : Bool
  ledGreenState : Bool
  pirStateRed : Bool
  pirStateGreen : Bool

def setup (level1 level2 : Bool) : Board where
  pcicr := 0 ||| 0b00000001
  pcmsk0 := 0 ||| 0b00000101
  ocie1a := true
  pirPin1 := level1
  pirPin2 := level2
  ledRedState := false
  ledGreenState := false
  pirStateRed := false
  pirStateGreen := false

/-- `ISR(PCINT0_vect)` of `task1.4D.cpp`: `pirStateRed` and `pirStateGreen` are never assigned. -/
def pcint0 (b : Board) : Board :=
  if b.pirPin1 ≠ b.pirStateGreen then { b with ledGreenState := !b.ledGreenState }
  else if b.pirPin2 ≠ b.pirStateRed then { b with ledRedState := !b.ledRedState }
  else b

def timer1 (b : Board) : Board :=
  { b with ledRedState := !b.ledRedState, ledGreenState := !b.ledGreenState }

inductive Event where
  | pin8
  | pin10
  | timer
  deriving DecidableEq

/-- The pin change interrupt for one bit of port B, if it is enabled. -/
def pinChange (bit : ℕ) (b : Board) : Board :=
  if b.pcicr.getLsbD 0 && b.pcmsk0.getLsbD bit then pcint0 b else b

def step (b : Board) : Event → Board
  | .pin8 => pinChange 0 { b with pirPin1 := !b.pirPin1 }
  | .pin10 => pinChange 2 { b with pirPin2 := !b.pirPin2 }
  | .timer => if b.ocie1a then timer1 b else b

def run (b : Board) (events : List Event) : Board := events.foldl step b

def change (level : Bool × Bool) : Event → Bool × Bool
  | .pin8 => (!level.1, level.2)
  | .pin10 => (level.1, !level.2)
  | .timer => level

/-- The events that reach the red LED across the pins: pin 8 falls while pin 10 is `HIGH`,
or pin 10 rises while pin 8 is `HIGH`. -/
def crossesRed (level : Bool × Bool) : Event → Bool
  | .pin8 => level.1 && level.2
  | .pin10 => level.1 && !level.2
  | .timer => false

/-- The events that reach the green LED across the pins: pin 10 changes while pin 8 is
`HIGH`. -/
def crossesGreen (level : Bool × Bool) : Event → Bool
  | .pin10 => level.1
  | _ => false

/-- What an event does to an LED that looks at one pin only: a rise of the pin toggles it, and
so does the timer. -/
def alone (pin : Event) (level : Bool) (e : Event) : Bool :=
  if e = pin then !level else decide (e = .timer)

structure Ready (level : Bool × Bool) (b : Board) : Prop where
  pcicr : b.pcicr = 0b00000001
  pcmsk0 : b.pcmsk0 = 0b00000101
  ocie1a : b.ocie1a = true
  pirPin1 : b.pirPin1 = level.1
  pirPin2 : b.pirPin2 = level.2
  pirStateRed : b.pirStateRed = false
  pirStateGreen : b.pirStateGreen = false

theorem setup_ready (level1 level2 : Bool) : Ready (level1, level2) (setup level1 level2) := by
  constructor <;> rfl

def togglesRed (level : Bool × Bool) (e : Event) : Bool :=
  alone .pin10 level.2 e ^^ crossesRed level e

def togglesGreen (level : Bool × Bool) (e : Event) : Bool :=
  alone .pin8 level.1 e ^^ crossesGreen level e

theorem pinChange_ready {level : Bool × Bool} {b : Board} (h : Ready level b) {bit : ℕ}
    (hbit : bit = 0 ∨ bit = 2) : Ready level (pinChange bit b) ∧
      (pinChange bit b).ledGreenState = (b.ledGreenState ^^ level.1) ∧
      (pinChange bit b).ledRedState = (b.ledRedState ^^ (!level.1 && level.2)) := by
  have henabled : (b.pcicr.getLsbD 0 && b.pcmsk0.getLsbD bit) = true := by
    rw [h.pcicr, h.pcmsk0]
    rcases hbit with rfl | rfl <;> rfl
  have hgreen : b.pirPin1 ≠ b.pirStateGreen ↔ level.1 = true := by
    rw [h.pirPin1, h.pirStateGreen, Ne, Bool.not_eq_false]
  have hred : b.pirPin2 ≠ b.pirStateRed ↔ level.2 = true := by
    rw [h.pirPin2, h.pirStateRed, Ne, Bool.not_eq_false]
  rw [pinChange, if_pos henabled, pcint0]
  by_cases h1 : level.1 = true
  · rw [if_pos (hgreen.mpr h1)]
    exact ⟨⟨h.1, h.2, h.3, h.4, h.5, h.6, h.7⟩, by simp [h1]⟩
  · rw [if_neg (hgreen.not.mpr h1)]
    by_cases h2 : level.2 = true
    · rw [if_pos (hred.mpr h2)]
      exact ⟨⟨h.1, h.2, h.3, h.4, h.5, h.6, h.7⟩, by simp [h1, h2]⟩
    · rw [if_neg (hred.not.mpr h2)]
      exact ⟨h, by simp [h1, h2]⟩

theorem step_ready {level : Bool × Bool} {b : Board} (h : Ready level b) (e : Event) :
    Ready (change level e) (step b e) ∧
      (step b e).ledRedState = (b.ledRedState ^^ togglesRed level e) ∧
      (step b e).ledGreenState = (b.ledGreenState ^^ togglesGreen level e) := by
  cases e with
  | pin8 =>
    have hlevel : Ready (!level.1, level.2) { b with pirPin1 := !b.pirPin1 } :=
      ⟨h.1, h.2, h.3, by simp [h.pirPin1], h.5, h.6, h.7⟩
    obtain ⟨hready, hgreen, hred⟩ := pinChange_ready hlevel (.inl rfl)
    refine ⟨hready, hred.trans ?_, hgreen.trans ?_⟩
    · simp [togglesRed, alone, crossesRed]
    · simp [togglesGreen, alone, crossesGreen]
  | pin10 =>
    have hlevel : Ready (level.1, !level.2) { b with pirPin2 := !b.pirPin2 } :=
      ⟨h.1, h.2, h.3, h.4, by simp [h.pirPin2], h.6, h.7⟩
    obtain ⟨hready, hgreen, hred⟩ := pinChange_ready hlevel (.inr rfl)
    refine ⟨hready, hred.trans ?_, hgreen.trans ?_⟩
    · simp only [togglesRed, alone, crossesRed, if_true]
      cases level.1 <;> cases level.2 <;> rfl
    · simp [togglesGreen, alone, crossesGreen]
  | timer =>
    rw [step, if_pos h.ocie1a, timer1]
    exact ⟨⟨h.1, h.2, h.3, h.4, h.5, h.6, h.7⟩, by simp [togglesRed, alone, crossesRed],
      by simp [togglesGreen, alone, crossesGreen]⟩

theorem view_red : Toggle.View change (fun level => alone .pin10 level.2)
    (fun e => decide (e ≠ .pin8)) Prod.snd (fun level e => if e = .pin10 then !level else level)
    (alone .pin10) where
  see_next level e := by cases e <;> rfl
  own_eq level e := by cases e <;> rfl

theorem view_green : Toggle.View change (fun level => alone .pin8 level.1)
    (fun e => decide (e ≠ .pin10)) Prod.fst (fun level e => if e = .pin8 then !level else level)
    (alone .pin8) where
  see_next level e := by cases e <;> rfl
  own_eq level e := by cases e <;> rfl

variable (level1 level2 : Bool) (es : List Event)

theorem run_ledRedState : (run (setup level1 level2) es).ledRedState =
    Toggle.parity change togglesRed (level1, level2) es := by
  have hstep : ∀ level b e, Ready level b → Ready (change level e) (step b e) ∧
      (step b e).ledRedState = (b.ledRedState ^^ togglesRed level e) :=
    fun _ _ e h => ⟨(step_ready h e).1, (step_ready h e).2.1⟩
  exact (Toggle.foldl_eq hstep (setup_ready level1 level2) es).trans (Bool.false_xor _)

theorem run_ledGreenState : (run (setup level1 level2) es).ledGreenState =
    Toggle.parity change togglesGreen (level1, level2) es := by
  have hstep : ∀ level b e, Ready level b → Ready (change level e) (step b e) ∧
      (step b e).ledGreenState = (b.ledGreenState ^^ togglesGreen level e) :=
    fun _ _ e h => ⟨(step_ready h e).1, (step_ready h e).2.2⟩
  exact (Toggle.foldl_eq hstep (setup_ready level1 level2) es).trans (Bool.false_xor _)

/-- Two runs that differ in the events of one pin leave the LED of the other pin in the same
state if and only if the numbers of events that reach it across the pins are both even or both
odd, in particular when there are none. -/
theorem run_agree_iff (level1 level2 : Bool) (es es' : List Event) :
    (es.filter (fun e => e ≠ .pin8) = es'.filter (fun e => e ≠ .pin8) →
      ((run (setup level1 level2) es).ledRedState = (run (setup level1 level2) es').ledRedState ↔
        Toggle.count change crossesRed (level1, level2) es % 2 =
          Toggle.count change crossesRed (level1, level2) es' % 2)) ∧
    (es.filter (fun e => e ≠ .pin10) = es'.filter (fun e => e ≠ .pin10) →
      ((run (setup level1 level2) es).ledGreenState =
          (run (setup level1 level2) es').ledGreenState ↔
        Toggle.count change crossesGreen (level1, level2) es % 2 =
          Toggle.count change crossesGreen (level1, level2) es' % 2)) := by
  refine ⟨fun hes => ?_, fun hes => ?_⟩
  · rw [run_ledRedState, run_ledRedState]
    exact view_red.agree_iff (fun _ _ => rfl) _ hes
  · rw [run_ledGreenState, run_ledGreenState]
    exact view_green.agree_iff (fun _ _ => rfl) _ hes

theorem run_agree_iff_rise :
    (run (setup false false) [.pin8]).ledRedState = (run (setup false false) []).ledRedState :=
  ((run_agree_iff false false [.pin8] []).1 rfl).mpr rfl

/-- Pin 8 falls while pin 10 is `HIGH`, and the red LED is toggled. -/
theorem run_pin8_falls : ¬∀ (level1 level2 : Bool) (es es' : List Event),
    (es.filter (fun e => e ≠ .pin8) = es'.filter (fun e => e ≠ .pin8) →
      (run (setup level1 level2) es).ledRedState = (run (setup level1 level2) es').ledRedState) ∧
    (es.filter (fun e => e ≠ .pin10) = es'.filter (fun e => e ≠ .pin10) →
      (run (setup level1 level2) es).ledGreenState =
        (run (setup level1 level2) es').ledGreenState) := by
  intro h
  have hred := (h true true [.pin8] []).1 rfl
  revert hred
  decide

end ParallelPrograms.MotionSensors
