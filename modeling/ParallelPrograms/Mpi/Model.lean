import ParallelPrograms.Grid
import ParallelPrograms.Int32
import ParallelPrograms.MessagePassing

namespace ParallelPrograms.Mpi

inductive MType where
  | fromMaster
  | fromWorker
  deriving DecidableEq

inductive Item where
  | offset
  | rows
  | matrixA
  | matrixB
  | matrixC
  deriving DecidableEq

inductive Data (D : Type*) where
  | int (value : ℕ)
  | double (values : List D)

/-- A message, with a note of the variable it was sent from.  No receive reads the note. -/
structure Message (D : Type*) where
  item : Item
  data : Data D

/-- A record of one completed receive: the variable it names and its posted count, the
variable the message was sent from and its length, and the row it was stored at. -/
structure Receipt where
  item : Item
  posted : ℕ
  sent : Item
  length : ℕ
  row : ℕ
  deriving DecidableEq

inductive Statement where
  | initialise
  | sendOffset | sendRows | sendA | sendB
  | gatherOffset | gatherRows | gatherC
  | takeOffset | takeRows | takeA | takeB
  | multiply
  | returnOffset | returnRows | returnC
  | finalize
  /-- An access outside an array, a negative count, or a message that does not fit its receive. -/
  | fault
  deriving DecidableEq

/-- The variables of `main` on one rank, whose arrays are declared with the size `dim`.  `source` is
also the loop counter `i` of the master's receive loop. -/
structure Task (D : Type*) (dim : ℕ) where
  pc : Statement
  matrixSize : ℕ
  dest : ℕ
  source : ℕ
  offset : ℕ
  rows : ℕ
  matrixA : Grid D dim
  matrixB : Grid D dim
  matrixC : Grid D dim
  receipts : List Receipt

/-- What is fixed for one run: the number of workers, the size rank 0 reads, if any, and the values
its initialising loops store.  No law of addition or multiplication is assumed of the elements. -/
structure Program (D : Type*) where
  numworkers : ℕ
  entered : Option ℕ
  inputA : ℕ → ℕ → D
  inputB : ℕ → ℕ → D

/-- The count `a * b` of a send or receive, a product of two ints as it is built: with 32 bits
and wrap-around. -/
def count (a b : ℕ) : ℤ := (BitVec.ofNat 32 a * BitVec.ofNat 32 b).toInt

/-- `(dest <= reRow) ? avgRow + 1 : avgRow` -/
def rowsFor (matrixSize numworkers dest : ℕ) : ℕ :=
  if dest ≤ matrixSize % numworkers then matrixSize / numworkers + 1 else matrixSize / numworkers

namespace Task

variable {D : Type*} {dim : ℕ}

def faulted (t : Task D dim) : Task D dim := { t with pc := .fault }

def gatherLoop (numworkers : ℕ) (t : Task D dim) : Task D dim :=
  if t.source ≤ numworkers then { t with pc := .gatherOffset } else { t with pc := .finalize }

def sendLoop (numworkers : ℕ) (t : Task D dim) : Task D dim :=
  if t.dest ≤ numworkers then
    { t with rows := rowsFor t.matrixSize numworkers t.dest, pc := .sendOffset }
  else { t with source := 1 }.gatherLoop numworkers

def fill (n : ℕ) (inputA inputB : ℕ → ℕ → D) (a b : Grid D dim) : Grid D dim × Grid D dim :=
  (List.range n).foldl (fun s i => (List.range n).foldl (fun s j =>
    (s.1.set i j (inputA i j), s.2.set i j (inputB i j))) s) (a, b)

/-- Lines 49 to 72 of the master: read the size, fill the matrices, enter the send loop. -/
def initialise (p : Program D) (t : Task D dim) : Task D dim :=
  let n := p.entered.getD t.matrixSize
  -- the loops go up to `[n - 1][n - 1]`
  if n ≤ dim then
    let s := fill n p.inputA p.inputB t.matrixA t.matrixB
    { t with matrixSize := n, matrixA := s.1, matrixB := s.2, offset := 0, dest := 1 }.sendLoop
      p.numworkers
  else t.faulted

def product [Add D] [Mul D] [Zero D] (n : ℕ) (a b c : Grid D dim) : Grid D dim :=
  (List.range n).foldl (fun c k => (List.range n).foldl (fun c i => (List.range n).foldl
    (fun c j => c.set i k (c.get i k + a.get i j * b.get j k)) (c.set i k 0)) c) c

def multiply [Add D] [Mul D] [Zero D] (t : Task D dim) : Task D dim :=
  if t.matrixSize ≤ dim then
    { t with matrixC := product t.matrixSize t.matrixA t.matrixB t.matrixC, pc := .returnOffset }
  else t.faulted

/-- `MPI_Recv(&offset or &rows, 1, MPI_INT, ..)`: `assign` continues with the value. -/
def receiveInt (t : Task D dim) (item : Item) (assign : ℕ → Task D dim → Task D dim)
    (m : Message D) : Task D dim :=
  match m.data with
  | .int v => assign v { t with receipts := t.receipts ++ [⟨item, 1, m.item, 1, 0⟩] }
  | .double _ => t.faulted

/-- The matching of a message with a receive of `posted` elements at `target[row][0]`: a longer
message is an error, a shorter one sets only its own elements.  `assign` continues with the new
array. -/
def receiveBlock (t : Task D dim) (item : Item) (posted row : ℕ) (target : Grid D dim)
    (assign : Grid D dim → Task D dim → Task D dim) (m : Message D) : Task D dim :=
  match m.data with
  | .int _ => t.faulted
  | .double xs =>
    -- more elements than posted: `MPI_ERR_TRUNCATE`
    if xs.length ≤ posted then
      match target.store row xs with
      | some g => assign g
          { t with receipts := t.receipts ++ [⟨item, posted, m.item, xs.length, row⟩] }
      | none => t.faulted
    else t.faulted

def sendBlock (t : Task D dim) (dest : ℕ) (mtype : MType) (item : Item) (row : ℕ) (count : ℤ)
    (source : Grid D dim) (next : Task D dim) : Action ℕ MType (Message D) (Task D dim) :=
  -- `MPI_ERR_COUNT`
  if count < 0 then .compute {t.faulted}
  else match source.block row count.toNat with
    | some xs => .send dest mtype ⟨item, .double xs⟩ next
    | none => .compute {t.faulted}

def recvBlock (t : Task D dim) (source : ℕ) (mtype : MType) (item : Item) (count : ℤ) (row : ℕ)
    (target : Grid D dim) (assign : Grid D dim → Task D dim → Task D dim) :
    Action ℕ MType (Message D) (Task D dim) :=
  -- `MPI_ERR_COUNT`
  if count < 0 then .compute {t.faulted}
  else .recv source mtype (t.receiveBlock item count.toNat row target assign)

theorem sendBlock_compute {t : Task D dim} {dest : ℕ} {mtype : MType} {item : Item}
    {row : ℕ} {count : ℤ} {source : Grid D dim} {next : Task D dim} {outcome : Set (Task D dim)}
    (h : t.sendBlock dest mtype item row count source next = .compute outcome) :
    outcome = {t.faulted} := by
  unfold sendBlock at h
  split_ifs at h
  · exact (Action.compute.inj h).symm
  · split at h
    · cases h
    · exact (Action.compute.inj h).symm

theorem recvBlock_compute {t : Task D dim} {source : ℕ} {mtype : MType} {item : Item} {count : ℤ}
    {row : ℕ} {target : Grid D dim} {assign : Grid D dim → Task D dim → Task D dim}
    {outcome : Set (Task D dim)}
    (h : t.recvBlock source mtype item count row target assign = .compute outcome) :
    outcome = {t.faulted} := by
  unfold recvBlock at h
  split_ifs at h
  exact (Action.compute.inj h).symm

def action [Add D] [Mul D] [Zero D] (p : Program D) (t : Task D dim) :
    Action ℕ MType (Message D) (Task D dim) :=
  match t.pc with
  | .initialise => .compute {t.initialise p}
  -- the master's two loops
  | .sendOffset => .send t.dest .fromMaster ⟨.offset, .int t.offset⟩ { t with pc := .sendRows }
  | .sendRows => .send t.dest .fromMaster ⟨.rows, .int t.rows⟩ { t with pc := .sendA }
  | .sendA => t.sendBlock t.dest .fromMaster .matrixA t.offset (count t.rows t.matrixSize) t.matrixA
      { t with pc := .sendB }
  | .sendB => t.sendBlock t.dest .fromMaster .matrixB 0 (count t.matrixSize t.matrixSize) t.matrixB
      ({ t with offset := t.offset + t.rows, dest := t.dest + 1 }.sendLoop p.numworkers)
  | .gatherOffset => .recv t.source .fromWorker
      (t.receiveInt .offset fun v t => { t with offset := v, pc := .gatherRows })
  | .gatherRows => .recv t.source .fromWorker
      (t.receiveInt .rows fun v t => { t with rows := v, pc := .gatherC })
  | .gatherC => t.recvBlock t.source .fromWorker .matrixC (count t.rows t.matrixSize) t.offset
      t.matrixC fun g t =>
        { t with matrixC := g, source := t.source + 1 }.gatherLoop p.numworkers
  -- a worker
  | .takeOffset => .recv 0 .fromMaster
      (t.receiveInt .offset fun v t => { t with offset := v, pc := .takeRows })
  | .takeRows => .recv 0 .fromMaster
      (t.receiveInt .rows fun v t => { t with rows := v, pc := .takeA })
  | .takeA => t.recvBlock 0 .fromMaster .matrixA (count t.rows t.matrixSize) 0 t.matrixA
      fun g t => { t with matrixA := g, pc := .takeB }
  | .takeB => t.recvBlock 0 .fromMaster .matrixB (count t.matrixSize t.matrixSize) 0 t.matrixB
      fun g t => { t with matrixB := g, pc := .multiply }
  | .multiply => .compute {t.multiply}
  | .returnOffset => .send 0 .fromWorker ⟨.offset, .int t.offset⟩ { t with pc := .returnRows }
  | .returnRows => .send 0 .fromWorker ⟨.rows, .int t.rows⟩ { t with pc := .returnC }
  | .returnC => t.sendBlock 0 .fromWorker .matrixC 0 (count t.rows t.matrixSize) t.matrixC
      { t with pc := .finalize }
  | .finalize => .stop
  | .fault => .stop

end Task

section Network

variable {D : Type*} {dim : ℕ} [Add D] [Mul D] [Zero D]

theorem Task.action_compute {p : Program D} {t : Task D dim} {outcome : Set (Task D dim)}
    (h : t.action p = .compute outcome) : ∃ t', outcome = {t'} := by
  unfold Task.action at h
  split at h <;> first
    | exact ⟨_, (Action.compute.inj h).symm⟩
    | exact ⟨_, Task.sendBlock_compute h⟩
    | exact ⟨_, Task.recvBlock_compute h⟩
    | cases h

def network (p : Program D) (dim : ℕ) : Network ℕ MType (Message D) (Task D dim) where
  action _ t := t.action p
  compute_join h hx hy := by
    obtain ⟨t', rfl⟩ := Task.action_compute h
    exact .inl (hx.trans hy.symm)

/-- Where a rank stands before its first statement.  There are `numworkers + 1` ranks;
a number above names no rank and stands at the end. -/
def firstStatement (p : Program D) (rank : ℕ) : Statement :=
  if rank = 0 then .initialise else if rank ≤ p.numworkers then .takeOffset else .finalize

structure Memory (D : Type*) (dim : ℕ) where
  dest : ℕ
  source : ℕ
  offset : ℕ
  rows : ℕ
  matrixA : Grid D dim
  matrixB : Grid D dim
  matrixC : Grid D dim

/-- A rank at the start: `matrixSize` is the declared size, all else is arbitrary. -/
def startTask (p : Program D) (mem : ℕ → Memory D dim) (rank : ℕ) : Task D dim where
  pc := firstStatement p rank
  matrixSize := dim
  dest := (mem rank).dest
  source := (mem rank).source
  offset := (mem rank).offset
  rows := (mem rank).rows
  matrixA := (mem rank).matrixA
  matrixB := (mem rank).matrixB
  matrixC := (mem rank).matrixC
  receipts := []

def start (p : Program D) (mem : ℕ → Memory D dim) : Config ℕ MType (Message D) (Task D dim) :=
  ⟨startTask p mem, fun _ => []⟩

/-- `mm_mpi.cpp`: the declared size is the one in use. -/
def mmMpi (numworkers : ℕ) (inputA inputB : ℕ → ℕ → D) : Program D :=
  ⟨numworkers, none, inputA, inputB⟩

/-- `MatMult_MPI.cpp`: rank 0 reads a size `n` after the arrays have been declared. -/
def matMultMpi (n numworkers : ℕ) (inputA inputB : ℕ → ℕ → D) : Program D :=
  ⟨numworkers, some n, inputA, inputB⟩

end Network
end ParallelPrograms.Mpi
