import ParallelPrograms.CompareTimer
import ParallelPrograms.MotionSensors

namespace ParallelPrograms.MotionTimer

open CompareTimer MotionSensors

def bitSet (value : BitVec 8) (bit : ℕ) : BitVec 8 := value ||| 1#8 <<< bit

def bitClear (value : BitVec 8) (bit : ℕ) : BitVec 8 := value &&& ~~~(1#8 <<< bit)

def startTimer (t : Registers) : Registers where
  tccr1a := 0
  tccr1b := bitSet (bitClear (bitSet (bitSet (bitClear t.tccr1b 4) 3) 2) 1) 0
  tcnt1 := 0
  ocr1a := BitVec.ofNat 16 (2 * 16000000 / 1024)
  timsk1 := bitSet t.timsk1 1

/-- The globals with the pins they are read from, the timer and the two pins that drive the
LEDs. -/
structure Sketch where
  board : Board
  timer : Registers
  ledRedPin : Bool
  ledGreenPin : Bool

/-- `setup()` on any contents of the registers -/
def setup (boot : Registers) (level1 level2 : Bool) : Sketch where
  board := MotionSensors.setup level1 level2
  timer := startTimer boot
  ledRedPin := false
  ledGreenPin := false

def loop (s : Sketch) : Sketch :=
  { s with ledRedPin := s.board.ledRedState, ledGreenPin := s.board.ledGreenState }

inductive Event where
  | pin8
  | pin10
  | edge
  | pass
  deriving DecidableEq

def step (s : Sketch) : Event → Sketch
  | .pin8 => { s with board := MotionSensors.step s.board .pin8 }
  | .pin10 => { s with board := MotionSensors.step s.board .pin10 }
  | .edge =>
    let (timer, interrupt) := tick s.timer
    { s with timer := timer, board := if interrupt then timer1 s.board else s.board }
  | .pass => loop s

def run (s : Sketch) (es : List Event) : Sketch := es.foldl step s

variable (boot : Registers) (level1 level2 : Bool)

end ParallelPrograms.MotionTimer
