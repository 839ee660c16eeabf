import ParallelPrograms.Mpi.Blocks
import ParallelPrograms.Simulation

namespace ParallelPrograms.Mpi
open Relation

variable {D : Type*} {dim : ℕ}

namespace Task

def afterSend (w : ℕ) (t : Task D dim) : Task D dim :=
  { t with
    rows := rowsFor t.matrixSize w t.dest
    offset := t.offset + rowsFor t.matrixSize w t.dest
    dest := t.dest + 1 }

/-- The master in front of the blocks of a pass. -/
def offered (w : ℕ) (t : Task D dim) : Task D dim :=
  { t with rows := rowsFor t.matrixSize w t.dest, pc := .sendA }

/-- Worker `v` after its receives of `offset` and `rows` from the pass of master `t`. -/
def informed (w : ℕ) (t v : Task D dim) : Task D dim :=
  { v with
    pc := .takeA
    offset := t.offset
    rows := rowsFor t.matrixSize w t.dest
    receipts := v.receipts ++ [⟨.offset, 1, .offset, 1, 0⟩, ⟨.rows, 1, .rows, 1, 0⟩] }

def supplied (w : ℕ) (t v : Task D dim) : Task D dim :=
  let rows := rowsFor t.matrixSize w t.dest
  { t.informed w v with
    pc := .takeB
    matrixA := v.matrixA.overwrite 0 (t.matrixA.slice t.offset (count rows t.matrixSize).toNat)
    receipts := v.receipts ++
      [⟨.offset, 1, .offset, 1, 0⟩, ⟨.rows, 1, .rows, 1, 0⟩,
       ⟨.matrixA, (count rows v.matrixSize).toNat, .matrixA, (count rows t.matrixSize).toNat, 0⟩] }

/-- Worker `v` after its four receives from the pass of master `t`. -/
def taken (w : ℕ) (t v : Task D dim) : Task D dim :=
  let rows := rowsFor t.matrixSize w t.dest
  { v with
    pc := .multiply
    offset := t.offset
    rows := rows
    matrixA := v.matrixA.overwrite 0 (t.matrixA.slice t.offset (count rows t.matrixSize).toNat)
    matrixB := v.matrixB.overwrite 0 (t.matrixB.slice 0 (count t.matrixSize t.matrixSize).toNat)
    receipts := v.receipts ++
      [⟨.offset, 1, .offset, 1, 0⟩, ⟨.rows, 1, .rows, 1, 0⟩,
       ⟨.matrixA, (count rows v.matrixSize).toNat, .matrixA, (count rows t.matrixSize).toNat, 0⟩,
       ⟨.matrixB, (count v.matrixSize v.matrixSize).toNat, .matrixB,
         (count t.matrixSize t.matrixSize).toNat, 0⟩] }

def gathered (t v : Task D dim) : Task D dim :=
  { t with
    offset := v.offset
    rows := v.rows
    matrixC := t.matrixC.overwrite v.offset
      (v.matrixC.slice 0 (count v.rows v.matrixSize).toNat)
    source := t.source + 1
    receipts := t.receipts ++
      [⟨.offset, 1, .offset, 1, 0⟩, ⟨.rows, 1, .rows, 1, 0⟩,
       ⟨.matrixC, (count v.rows t.matrixSize).toNat, .matrixC,
         (count v.rows v.matrixSize).toNat, v.offset⟩] }

theorem sendBlock_eq {t next : Task D dim} {dest : ℕ} {mtype : MType} {item : Item}
    {row : ℕ} {count : ℤ} {source : Grid D dim} (hcount : 0 ≤ count)
    (h : row * dim + count.toNat ≤ dim * dim) :
    t.sendBlock dest mtype item row count source next =
      .send dest mtype ⟨item, .double (source.slice row count.toNat)⟩ next := by
  rw [sendBlock, if_neg (not_lt.mpr hcount), Grid.block_eq_some h]

theorem sendBlock_of_neg {t next : Task D dim} {dest : ℕ} {mtype : MType} {item : Item}
    {row : ℕ} {count : ℤ} {source : Grid D dim} (hcount : count < 0) :
    t.sendBlock dest mtype item row count source next = .compute {t.faulted} := if_pos hcount

theorem recvBlock_eq {t : Task D dim} {source : ℕ} {mtype : MType} {item : Item} {count : ℤ}
    {row : ℕ} {target : Grid D dim} {assign : Grid D dim → Task D dim → Task D dim}
    (hcount : 0 ≤ count) : t.recvBlock source mtype item count row target assign =
      .recv source mtype (t.receiveBlock item count.toNat row target assign) :=
  if_neg (not_lt.mpr hcount)

theorem receiveBlock_eq {t : Task D dim} {item sent : Item} {posted row : ℕ} {target : Grid D dim}
    {assign : Grid D dim → Task D dim → Task D dim} {xs : List D} (hlen : xs.length ≤ posted)
    (h : row * dim + xs.length ≤ dim * dim) :
    t.receiveBlock item posted row target assign ⟨sent, .double xs⟩ =
      assign (target.overwrite row xs)
        { t with receipts := t.receipts ++ [⟨item, posted, sent, xs.length, row⟩] } := by
  simp [receiveBlock, hlen, Grid.store_eq_some h]

theorem receiveBlock_truncated {t : Task D dim} {item sent : Item} {posted row : ℕ}
    {target : Grid D dim} {assign : Grid D dim → Task D dim → Task D dim} {xs : List D}
    (hlen : posted < xs.length) :
    t.receiveBlock item posted row target assign ⟨sent, .double xs⟩ = t.faulted := by
  simp [receiveBlock, not_le.mpr hlen]

/-- Whole rows of an array can be sent, however their count wraps around. -/
theorem sendRows_eq {t next : Task D dim} {dest : ℕ} {mtype : MType} {item : Item}
    {row rows size : ℕ} {source : Grid D dim} (hsize : size ≤ dim) (hrows : row + rows ≤ dim)
    (hcount : 0 ≤ count rows size) :
    t.sendBlock dest mtype item row (count rows size) source next =
      .send dest mtype ⟨item, .double (source.slice row (count rows size).toNat)⟩ next :=
  sendBlock_eq hcount
    ((Nat.add_le_add_left (count_toNat_le rows size) _).trans (Grid.rows_fit hsize hrows))

theorem receiveRows_eq {t : Task D dim} {item sent : Item} {posted : ℤ} {row start rows size : ℕ}
    {source target : Grid D dim} {assign : Grid D dim → Task D dim → Task D dim}
    (hsize : size ≤ dim) (hrows : row + rows ≤ dim) (hposted : count rows size ≤ posted) :
    t.receiveBlock item posted.toNat row target assign
        ⟨sent, .double (source.slice start (count rows size).toNat)⟩ =
      assign (target.overwrite row (source.slice start (count rows size).toNat))
        { t with receipts := t.receipts ++
          [⟨item, posted.toNat, sent, (count rows size).toNat, row⟩] } := by
  have hfits := Grid.rows_fit hsize hrows
  have hle := Nat.add_le_add_left (count_toNat_le rows size) (row * dim)
  rw [receiveBlock_eq, Grid.slice_length]
  · rw [Grid.slice_length]
    exact Int.toNat_le_toNat hposted
  · rw [Grid.slice_length]
    exact hle.trans hfits

theorem sendLoop_of_le {w : ℕ} {t : Task D dim} (h : t.dest ≤ w) :
    t.sendLoop w = { t with rows := rowsFor t.matrixSize w t.dest, pc := .sendOffset } := if_pos h

theorem gatherLoop_of_le {w : ℕ} {t : Task D dim} (h : t.source ≤ w) :
    t.gatherLoop w = { t with pc := .gatherOffset } := if_pos h

end Task

section Follows

variable [Add D] [Mul D] [Zero D] {p : Program D} {σ : Type*}
  {net : Network ℕ MType (Message D) σ} {f : Task D dim → σ}

theorem Task.action_multiply {t : Task D dim} (h : t.pc = .multiply) :
    t.action p = .compute {t.multiply} := by
  simp only [Task.action, h]

theorem Task.pc_ne_multiply {t : Task D dim} {a : Action ℕ MType (Message D) (Task D dim)}
    (h : t.action p = a) (hne : ∀ outcome, a ≠ .compute outcome) : t.pc ≠ .multiply := by
  intro hpc
  exact hne _ (h.symm.trans (Task.action_multiply hpc))

/-- Outside the loops of a worker the ranks of `net` do what those of the program do. -/
def Follows (net : Network ℕ MType (Message D) σ) (p : Program D) (f : Task D dim → σ) : Prop :=
  ∀ r t, t.pc ≠ .multiply → net.action r (f t) = (t.action p).map f

theorem Follows.compute (h : Follows net p f) {r : ℕ} {t t' : Task D dim} (hpc : t.pc ≠ .multiply)
    (ha : t.action p = .compute {t'}) : net.action r (f t) = .compute {f t'} := by
  rw [h r t hpc, ha, Action.map, Set.image_singleton]

theorem Follows.speaks (h : Follows net p f) : net.Speaks (network p dim) f where
  send ha := (h _ _ (Task.pc_ne_multiply ha nofun)).trans (congrArg (Action.map f) ha)
  recv ha := (h _ _ (Task.pc_ne_multiply ha nofun)).trans (congrArg (Action.map f) ha)

theorem follows_self : Follows (network p dim) p id := by
  intro r t _
  show t.action p = (t.action p).map id
  cases t.action p <;> simp [Action.map]

end Follows

section Sessions

variable [Add D] [Mul D] [Zero D] {p : Program D}

theorem header_session {t v : Task D dim} (hdest : t.dest ≤ p.numworkers)
    (hv : v.pc = .takeOffset) :
    ReflTransGen (Session (network p dim) 0 t.dest) (t.sendLoop p.numworkers, v)
      (t.offered p.numworkers, t.informed p.numworkers v) := by
  obtain ⟨pc, size, dest, source, offset, rows, A, B, C, receipts⟩ := v
  obtain rfl : pc = .takeOffset := hv
  rw [Task.sendLoop_of_le hdest]
  refine .head (.forth rfl rfl rfl) (.single (.forth rfl rfl ?_))
  simp [Task.receiveInt, Task.informed]

theorem matrixA_session {t v : Task D dim} (hn : t.matrixSize ≤ dim)
    (hrows : t.offset + rowsFor t.matrixSize p.numworkers t.dest ≤ dim)
    (hcount : 0 ≤ count (rowsFor t.matrixSize p.numworkers t.dest) t.matrixSize)
    (hposted : count (rowsFor t.matrixSize p.numworkers t.dest) t.matrixSize ≤
      count (rowsFor t.matrixSize p.numworkers t.dest) v.matrixSize) :
    Session (network p dim) 0 t.dest (t.offered p.numworkers, t.informed p.numworkers v)
      ({ t.offered p.numworkers with pc := .sendB }, t.supplied p.numworkers v) := by
  have hown : 0 + rowsFor t.matrixSize p.numworkers t.dest ≤ dim := by omega
  refine .forth (Task.sendRows_eq hn hrows hcount) (Task.recvBlock_eq (hcount.trans hposted))
    ((Task.receiveRows_eq hn hown hposted).trans ?_)
  simp [Task.informed, Task.supplied, Task.offered]

/-- One pass of the send loop against the worker it serves. -/
theorem send_session {t v : Task D dim} (hdest : t.dest ≤ p.numworkers) (hv : v.pc = .takeOffset)
    (hn : t.matrixSize ≤ dim)
    (hrows : t.offset + rowsFor t.matrixSize p.numworkers t.dest ≤ dim)
    (hA : 0 ≤ count (rowsFor t.matrixSize p.numworkers t.dest) t.matrixSize)
    (hpostedA : count (rowsFor t.matrixSize p.numworkers t.dest) t.matrixSize ≤
      count (rowsFor t.matrixSize p.numworkers t.dest) v.matrixSize)
    (hB : 0 ≤ count t.matrixSize t.matrixSize)
    (hpostedB : count t.matrixSize t.matrixSize ≤ count v.matrixSize v.matrixSize) :
    ReflTransGen (Session (network p dim) 0 t.dest) (t.sendLoop p.numworkers, v)
      ((t.afterSend p.numworkers).sendLoop p.numworkers, t.taken p.numworkers v) := by
  have hwhole : 0 + t.matrixSize ≤ dim := (Nat.zero_add _).le.trans hn
  refine ((header_session hdest hv).tail (matrixA_session hn hrows hA hpostedA)).tail
    (.forth (Task.sendRows_eq hn hwhole hB) (Task.recvBlock_eq (hB.trans hpostedB))
      ((Task.receiveRows_eq hn hwhole hpostedB).trans ?_))
  simp [Task.informed, Task.supplied, Task.taken, Task.offered]

/-- One pass of the receive loop against the worker whose result it takes. -/
theorem gather_session {t v : Task D dim} (hsource : t.source ≤ p.numworkers)
    (hv : v.pc = .returnOffset) (hdim : v.matrixSize ≤ dim) (hrows : v.offset + v.rows ≤ dim)
    (hcount : 0 ≤ count v.rows v.matrixSize)
    (hposted : count v.rows v.matrixSize ≤ count v.rows t.matrixSize) :
    ReflTransGen (Session (network p dim) 0 t.source) (t.gatherLoop p.numworkers, v)
      ((t.gathered v).gatherLoop p.numworkers, { v with pc := .finalize }) := by
  obtain ⟨pc, size, dest, source, offset, rows, A, B, C, receipts⟩ := v
  obtain rfl : pc = .returnOffset := hv
  have hown : 0 + rows ≤ dim := (Nat.zero_add rows).le.trans (le_of_add_le_right hrows)
  rw [Task.gatherLoop_of_le hsource]
  refine .head (.back rfl rfl rfl) (.head (.back rfl rfl rfl) (.single (.back
    (Task.sendRows_eq hdim hown hcount) (Task.recvBlock_eq (hcount.trans hposted))
    ((Task.receiveRows_eq hdim hrows hposted).trans ?_))))
  simp only [Task.receiveInt, Task.gathered, List.append_assoc]
  rfl

/-- When the worker returns longer rows than the master counts with, the block does not
fit the posted receive. -/
theorem gather_session_fault {t v : Task D dim} (hsource : t.source ≤ p.numworkers)
    (hv : v.pc = .returnOffset) (hdim : v.matrixSize ≤ dim) (hrows : v.offset + v.rows ≤ dim)
    (hcount : 0 ≤ count v.rows t.matrixSize)
    (hposted : count v.rows t.matrixSize < count v.rows v.matrixSize) :
    ∃ t' : Task D dim, t'.pc = .fault ∧
      ReflTransGen (Session (network p dim) 0 t.source) (t.gatherLoop p.numworkers, v)
        (t', { v with pc := .finalize }) := by
  obtain ⟨pc, size, dest, source, offset, rows, A, B, C, receipts⟩ := v
  obtain rfl : pc = .returnOffset := hv
  have hown : 0 + rows ≤ dim := (Nat.zero_add rows).le.trans (le_of_add_le_right hrows)
  rw [Task.gatherLoop_of_le hsource]
  refine ⟨_, ?_, .head (.back rfl rfl rfl) (.head (.back rfl rfl rfl) (.single (.back
    (Task.sendRows_eq hdim hown (hcount.trans hposted.le)) (Task.recvBlock_eq hcount)
    (Task.receiveBlock_truncated ?_))))⟩
  · rfl
  · rw [Grid.slice_length]
    exact (Int.toNat_lt_toNat (hcount.trans_lt hposted)).mpr hposted

end Sessions

section Run

variable (p : Program D) (mem : ℕ → Memory D dim)

def Program.size (p : Program D) (dim : ℕ) : ℕ := p.entered.getD dim

/-- The counts of the passes up to `d` are not negative, and rank 0 sends no more than the workers
have posted. -/
structure Program.Counts (p : Program D) (dim d : ℕ) : Prop where
  rows : ∀ e < d, 0 ≤ count (rowsFor (p.size dim) p.numworkers (e + 1)) (p.size dim) ∧
    count (rowsFor (p.size dim) p.numworkers (e + 1)) (p.size dim) ≤
      count (rowsFor (p.size dim) p.numworkers (e + 1)) dim
  whole : 0 ≤ count (p.size dim) (p.size dim) ∧ count (p.size dim) (p.size dim) ≤ count dim dim

theorem Program.Counts.mono {p : Program D} {d e : ℕ} (h : p.Counts dim d) (hle : e ≤ d) :
    p.Counts dim e :=
  ⟨fun e' he' => h.rows e' (he'.trans_le hle), h.whole⟩

/-- Matrices whose elements can be counted with an int are counted right. -/
theorem Program.counts_of_lt {p : Program D} (hn : p.size dim ≤ dim) (hint : dim * dim < 2 ^ 31)
    (d : ℕ) : p.Counts dim d where
  rows e _ := by
    have hrows := rowsFor_le (p.size dim) p.numworkers (Nat.le_add_left 1 e)
    have hle := Nat.mul_le_mul (hrows.trans hn) (le_refl dim)
    have hsize := Nat.mul_le_mul_left (rowsFor (p.size dim) p.numworkers (e + 1)) hn
    rw [count_eq (hle.trans_lt hint), count_eq ((hsize.trans hle).trans_lt hint)]
    exact ⟨Int.natCast_nonneg _, Int.ofNat_le.mpr hsize⟩
  whole := by
    have hsize := Nat.mul_le_mul hn hn
    rw [count_eq hint, count_eq (hsize.trans_lt hint)]
    exact ⟨Int.natCast_nonneg _, Int.ofNat_le.mpr hsize⟩

def masterFilled : Task D dim :=
  let s := Task.fill (p.size dim) p.inputA p.inputB (mem 0).matrixA (mem 0).matrixB
  { startTask p mem 0 with
    matrixSize := p.size dim, matrixA := s.1, matrixB := s.2, offset := 0, dest := 1 }

def masterSent : ℕ → Task D dim
  | 0 => masterFilled p mem
  | d + 1 => (masterSent d).afterSend p.numworkers

def workerTaken (e : ℕ) : Task D dim := (masterSent p mem e).taken p.numworkers
  (startTask p mem (e + 1))

/-- All ranks when workers `1, .., d` have been served. -/
def served (d : ℕ) (rank : ℕ) : Task D dim :=
  if rank = 0 then (masterSent p mem d).sendLoop p.numworkers
  else if rank ≤ d then workerTaken p mem (rank - 1) else startTask p mem rank

def workerDone [Add D] [Mul D] [Zero D] (e : ℕ) : Task D dim := (workerTaken p mem e).multiply

def masterGathered [Add D] [Mul D] [Zero D] : ℕ → Task D dim
  | 0 => { masterSent p mem p.numworkers with source := 1 }
  | i + 1 => (masterGathered i).gathered (workerDone p mem i)

/-- All ranks when the results of workers `1, .., i` have been taken. -/
def settled [Add D] [Mul D] [Zero D] (i : ℕ) (rank : ℕ) : Task D dim :=
  if rank = 0 then (masterGathered p mem i).gatherLoop p.numworkers
  else if rank ≤ i then { workerDone p mem (rank - 1) with pc := .finalize }
  else if rank ≤ p.numworkers then workerTaken p mem (rank - 1) else startTask p mem rank

@[simp] theorem masterSent_dest (d : ℕ) : (masterSent p mem d).dest = d + 1 := by
  induction d with
  | zero => rfl
  | succ d ih => simp [masterSent, Task.afterSend, ih]

@[simp] theorem masterSent_matrixSize (d : ℕ) :
    (masterSent p mem d).matrixSize = p.size dim := by
  induction d with
  | zero => rfl
  | succ d ih => simpa [masterSent, Task.afterSend] using ih

@[simp] theorem masterSent_offset (d : ℕ) :
    (masterSent p mem d).offset = offsetAfter (p.size dim) p.numworkers d := by
  induction d with
  | zero => rfl
  | succ d ih => simp [masterSent, Task.afterSend, offsetAfter, ih]

/-- The master of the protocol sends the pairs of the loop: in front of pass `e + 1` its
variables hold the pair of that pass. -/
theorem sentPairs_masterSent {e : ℕ} (he : e < p.numworkers) :
    (sentPairs (p.size dim) p.numworkers)[e]? =
      some (((masterSent p mem e).sendLoop p.numworkers).offset,
        ((masterSent p mem e).sendLoop p.numworkers).rows) := by
  have hdest : (masterSent p mem e).dest ≤ p.numworkers := by
    rw [masterSent_dest]
    exact he
  rw [Task.sendLoop_of_le hdest, sentPairs_eq]
  simp [he]

@[simp] theorem masterSent_matrixA (d : ℕ) :
    (masterSent p mem d).matrixA = (masterFilled p mem).matrixA := by
  induction d with
  | zero => rfl
  | succ d ih => simpa [masterSent, Task.afterSend] using ih

@[simp] theorem masterSent_matrixB (d : ℕ) :
    (masterSent p mem d).matrixB = (masterFilled p mem).matrixB := by
  induction d with
  | zero => rfl
  | succ d ih => simpa [masterSent, Task.afterSend] using ih

@[simp] theorem masterSent_receipts (d : ℕ) : (masterSent p mem d).receipts = [] := by
  induction d with
  | zero => rfl
  | succ d ih => simpa [masterSent, Task.afterSend] using ih

variable {p mem}

theorem workerTaken_offset (e : ℕ) :
    (workerTaken p mem e).offset = offsetAfter (p.size dim) p.numworkers e := by
  simp [workerTaken, Task.taken]

theorem workerTaken_rows (e : ℕ) :
    (workerTaken p mem e).rows = rowsFor (p.size dim) p.numworkers (e + 1) := by
  simp [workerTaken, Task.taken]

/-- The rows of `matrixA` a worker owns are the rows of the input from its offset on. -/
theorem workerTaken_matrixA (hn : p.size dim = dim) (hint : dim * dim < 2 ^ 31) (e : ℕ) {i j : ℕ}
    (hi : i < rowsFor dim p.numworkers (e + 1)) (hj : j < dim)
    (hfits : offsetAfter dim p.numworkers e + i < dim) :
    (workerTaken p mem e).matrixA.get i j =
      p.inputA (offsetAfter dim p.numworkers e + i) j := by
  have hcopy := Grid.overwrite_slice_get (startTask p mem (e + 1)).matrixA
    (masterFilled p mem).matrixA (i := 0) (r := offsetAfter dim p.numworkers e) hi hj
  simp only [workerTaken, Task.taken, masterSent_matrixSize, masterSent_dest, masterSent_offset,
    masterSent_matrixA, hn, count_rows hint _ (Nat.le_add_left 1 e)]
  rw [Nat.zero_add] at hcopy
  rw [hcopy]
  exact fill_fst_get _ _ _ _ hn.le (by omega) (by omega)

theorem workerTaken_matrixB (hn : p.size dim = dim) (hint : dim * dim < 2 ^ 31) (e : ℕ) {i j : ℕ}
    (hi : i < dim) (hj : j < dim) : (workerTaken p mem e).matrixB.get i j = p.inputB i j := by
  have hcopy := Grid.overwrite_slice_get (startTask p mem (e + 1)).matrixB
    (masterFilled p mem).matrixB (i := 0) (r := 0) hi hj
  simp only [workerTaken, Task.taken, masterSent_matrixSize, masterSent_matrixB, hn,
    count_toNat hint]
  rw [Nat.zero_add] at hcopy
  rw [hcopy]
  exact fill_snd_get _ _ _ _ hn.le (by omega) (by omega)

variable [Add D] [Mul D] [Zero D]

section Served

variable {σ : Type*} {net : Network ℕ MType (Message D) σ} {f : Task D dim → σ}

theorem reach_served_zero (hnet : Follows net p f) (hn : p.size dim ≤ dim) :
    Reach net .rendezvous (quiet (f ∘ startTask p mem)) (quiet (f ∘ served p mem 0)) := by
  have hfilled : (startTask p mem 0).initialise p = (masterSent p mem 0).sendLoop p.numworkers := by
    simp only [Task.initialise, masterSent, masterFilled]
    exact if_pos hn
  have hserved : f ∘ served p mem 0 = Function.update (f ∘ startTask p mem) 0
      (f ((startTask p mem 0).initialise p)) := by
    funext rank
    by_cases h : rank = 0
    · subst h
      simp [served, hfilled]
    · simp [served, h]
  rw [hserved]
  refine .single (quiet_compute (hnet.compute ?_ rfl))
  simp [startTask, firstStatement]

/-- The part of the run up to the loops of the workers is a run of every network that follows the
program. -/
theorem reach_served_map (hnet : Follows net p f) (hn : p.size dim ≤ dim) {d : ℕ}
    (hcounts : p.Counts dim d) (hd : d ≤ p.numworkers) :
    Reach net .rendezvous (quiet (f ∘ startTask p mem)) (quiet (f ∘ served p mem d)) := by
  induction d with
  | zero => exact reach_served_zero hnet hn
  | succ d ih =>
    refine (ih (hcounts.mono (Nat.le_succ d)) (by omega)).trans ?_
    have hfits := offsetAfter_le (p.size dim) (w := p.numworkers) (d := d + 1) (by omega) hd
    obtain ⟨hA, hpostedA⟩ := hcounts.rows d (Nat.lt_succ_self d)
    have hsess := send_session (p := p) (t := masterSent p mem d) (v := startTask p mem (d + 1))
      (by simpa using hd) (by simp [startTask, firstStatement, hd]) (by simpa using hn)
      (by simpa [offsetAfter] using hfits.trans hn) (by simpa using hA)
      (by simpa [startTask] using hpostedA) (by simpa using hcounts.whole.1)
      (by simpa [startTask] using hcounts.whole.2)
    rw [masterSent_dest] at hsess
    have hreach := reach_of_session (Nat.succ_ne_zero d).symm (f ∘ served p mem d)
      (hsess.lift _ fun _ _ hs => hs.map hnet.speaks)
    have hbefore : Function.update (Function.update (f ∘ served p mem d) 0
        (f ((masterSent p mem d).sendLoop p.numworkers))) (d + 1)
          (f (startTask p mem (d + 1))) = f ∘ served p mem d :=
      update_pair_eq (by simp [served]) (by simp [served]) fun _ _ _ => rfl
    have hafter : Function.update (Function.update (f ∘ served p mem d) 0
        (f ((masterSent p mem (d + 1)).sendLoop p.numworkers))) (d + 1)
          (f (workerTaken p mem d)) = f ∘ served p mem (d + 1) := by
      apply update_pair_eq (by simp [served]) (by simp [served])
      intro rank h0 h
      have hle : rank ≤ d + 1 ↔ rank ≤ d := by omega
      simp [served, h0, hle]
    simp only [Prod.map] at hreach
    rw [hbefore] at hreach
    rw [← hafter]
    exact hreach

theorem reach_served (hn : p.size dim ≤ dim) {d : ℕ} (hcounts : p.Counts dim d)
    (hd : d ≤ p.numworkers) :
    Reach (network p dim) .rendezvous (start p mem) (quiet (served p mem d)) :=
  reach_served_map (f := id) follows_self hn hcounts hd

end Served

theorem workerDone_eq (e : ℕ) : workerDone p mem e =
    { workerTaken p mem e with
      matrixC := Task.product dim (workerTaken p mem e).matrixA (workerTaken p mem e).matrixB
        (workerTaken p mem e).matrixC
      pc := .returnOffset } := if_pos le_rfl

theorem workerDone_matrixSize (e : ℕ) : (workerDone p mem e).matrixSize = dim := by
  simp [workerDone_eq, workerTaken, Task.taken, startTask]

theorem workerDone_rows (e : ℕ) :
    (workerDone p mem e).rows = rowsFor (p.size dim) p.numworkers (e + 1) := by
  simp [workerDone_eq, workerTaken_rows]

@[simp] theorem masterGathered_source (i : ℕ) : (masterGathered p mem i).source = i + 1 := by
  induction i with
  | zero => rfl
  | succ i ih => simp [masterGathered, Task.gathered, ih]

@[simp] theorem masterGathered_matrixSize (i : ℕ) :
    (masterGathered p mem i).matrixSize = p.size dim := by
  induction i with
  | zero => simp [masterGathered]
  | succ i ih => simpa [masterGathered, Task.gathered] using ih

theorem served_numworkers : served p mem p.numworkers = settled p mem 0 := by
  funext rank
  by_cases h0 : rank = 0
  · subst h0
    simp [served, settled, masterGathered, Task.sendLoop]
  · simp [served, settled, h0]

theorem reach_computed {i : ℕ} (hi : i < p.numworkers) :
    Reach (network p dim) .rendezvous (quiet (settled p mem i))
      (quiet (Function.update (settled p mem i) (i + 1) (workerDone p mem i))) := by
  refine .single (quiet_compute ?_)
  have hs : settled p mem i (i + 1) = workerTaken p mem i := by
    simp [settled, Nat.succ_le_of_lt hi]
  rw [hs]
  rfl

theorem reach_settled (hn : p.size dim = dim) (hcounts : p.Counts dim p.numworkers) {i : ℕ}
    (hi : i ≤ p.numworkers) :
    Reach (network p dim) .rendezvous (start p mem) (quiet (settled p mem i)) := by
  induction i with
  | zero =>
    rw [← served_numworkers]
    exact reach_served hn.le hcounts le_rfl
  | succ i ih =>
    have hfits := offsetAfter_le (p.size dim) (w := p.numworkers) (d := i + 1) (by omega) hi
    have hA : 0 ≤ count (rowsFor dim p.numworkers (i + 1)) dim := by
      simpa [hn] using (hcounts.rows i hi).1
    have hsess := gather_session (p := p) (t := masterGathered p mem i) (v := workerDone p mem i)
      (by simpa using hi) (by rw [workerDone_eq]) (workerDone_matrixSize i).le
      (by simpa [workerDone_eq, workerTaken_offset, workerTaken_rows, offsetAfter, hn] using hfits)
      (by simpa [workerDone_rows, workerDone_matrixSize, hn] using hA)
      (by simp [workerDone_matrixSize, hn])
    rw [masterGathered_source] at hsess
    have hreach := reach_of_session (Nat.succ_ne_zero i).symm (settled p mem i) hsess
    have hbefore : Function.update (Function.update (settled p mem i) 0
        ((masterGathered p mem i).gatherLoop p.numworkers)) (i + 1) (workerDone p mem i) =
          Function.update (settled p mem i) (i + 1) (workerDone p mem i) := by
      apply update_pair_eq (by simp [settled]) (by simp)
      intro rank _ h
      rw [Function.update_of_ne h]
    have hafter : Function.update (Function.update (settled p mem i) 0
        ((masterGathered p mem (i + 1)).gatherLoop p.numworkers)) (i + 1)
          { workerDone p mem i with pc := .finalize } = settled p mem (i + 1) := by
      apply update_pair_eq (by simp [settled]) (by simp [settled])
      intro rank h0 h
      have hle : rank ≤ i + 1 ↔ rank ≤ i := by omega
      simp [settled, h0, hle]
    -- the worker's triple loop, then its three messages
    refine ((ih (by omega)).trans (reach_computed hi)).trans ?_
    rw [hbefore] at hreach
    rw [← hafter]
    exact hreach

theorem settled_finalize {rank : ℕ} : (settled p mem p.numworkers rank).pc = .finalize := by
  by_cases h0 : rank = 0
  · subst h0
    simp [settled, Task.gatherLoop]
  · by_cases h : rank ≤ p.numworkers
    · simp [settled, h0, h]
    · simp [settled, h0, h, startTask, firstStatement]

theorem settled_stopped : (quiet (settled p mem p.numworkers)).Stopped (network p dim) := by
  intro rank
  show Task.action p (settled p mem p.numworkers rank) = .stop
  simp [Task.action, settled_finalize]

/-- Row `i` of a worker's result is row `offset + i` of the product. -/
theorem workerDone_matrixC (hn : p.size dim = dim) (hint : dim * dim < 2 ^ 31) (e : ℕ) {i k : ℕ}
    (hi : i < rowsFor dim p.numworkers (e + 1)) (hk : k < dim)
    (hfits : offsetAfter dim p.numworkers e + i < dim) :
    (workerDone p mem e).matrixC.get i k =
      entry dim p.inputA p.inputB (offsetAfter dim p.numworkers e + i) k := by
  rw [workerDone_eq, product_get _ _ _ le_rfl (by omega) hk]
  unfold entry
  apply List.foldl_ext
  intro s j hj
  have hjn := List.mem_range.mp hj
  rw [workerTaken_matrixA hn hint e hi hjn hfits, workerTaken_matrixB hn hint e hjn hk]

/-- The rows in front of the next offset are final. -/
theorem masterGathered_matrixC (hn : p.size dim = dim) (hint : dim * dim < 2 ^ 31) {i : ℕ}
    (hi : i ≤ p.numworkers) {r k : ℕ} (hr : r < offsetAfter dim p.numworkers i) (hk : k < dim) :
    (masterGathered p mem i).matrixC.get r k = entry dim p.inputA p.inputB r k := by
  induction i with
  | zero => simp [offsetAfter] at hr
  | succ i ih =>
    have hfits := offsetAfter_le dim (w := p.numworkers) (d := i + 1) (by omega) hi
    have hC : (masterGathered p mem (i + 1)).matrixC =
        (masterGathered p mem i).matrixC.overwrite (offsetAfter dim p.numworkers i)
          ((workerDone p mem i).matrixC.slice 0 (rowsFor dim p.numworkers (i + 1) * dim)) := by
      simp [masterGathered, Task.gathered, workerDone_eq, workerTaken, Task.taken, startTask, hn,
        count_rows hint _ (Nat.le_add_left 1 i)]
    rw [hC]
    -- rows of earlier workers are left alone, the others are those of worker `i + 1`
    by_cases hlt : r < offsetAfter dim p.numworkers i
    · rw [Grid.overwrite_get_lt _ _ hk hlt]
      exact ih (by omega) hlt
    · obtain ⟨r', rfl⟩ := Nat.exists_eq_add_of_le (not_lt.mp hlt)
      have hr' : r' < rowsFor dim p.numworkers (i + 1) := by
        rw [offsetAfter] at hr
        omega
      rw [Grid.overwrite_slice_get _ _ hr' hk, Nat.zero_add]
      exact workerDone_matrixC hn hint i hr' hk (by omega)

theorem masterGathered_receipts (i : ℕ) : (masterGathered p mem i).receipts =
    (List.range i).flatMap fun e =>
      [⟨.offset, 1, .offset, 1, 0⟩, ⟨.rows, 1, .rows, 1, 0⟩,
       ⟨.matrixC, (count (rowsFor (p.size dim) p.numworkers (e + 1)) (p.size dim)).toNat, .matrixC,
         (count (rowsFor (p.size dim) p.numworkers (e + 1)) dim).toNat,
         offsetAfter (p.size dim) p.numworkers e⟩] := by
  induction i with
  | zero => simp [masterGathered]
  | succ i ih =>
    rw [List.range_succ, List.flatMap_append, ← ih, List.flatMap_singleton]
    simp [masterGathered, Task.gathered, workerDone_eq, workerTaken, Task.taken, startTask]

theorem workerDone_receipts (e : ℕ) : (workerDone p mem e).receipts =
    [⟨.offset, 1, .offset, 1, 0⟩, ⟨.rows, 1, .rows, 1, 0⟩,
     ⟨.matrixA, (count (rowsFor (p.size dim) p.numworkers (e + 1)) dim).toNat, .matrixA,
       (count (rowsFor (p.size dim) p.numworkers (e + 1)) (p.size dim)).toNat, 0⟩,
     ⟨.matrixB, (count dim dim).toNat, .matrixB, (count (p.size dim) (p.size dim)).toNat, 0⟩] := by
  simp [workerDone_eq, workerTaken, Task.taken, startTask]

end Run

end ParallelPrograms.Mpi
