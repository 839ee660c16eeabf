import Mathlib.Algebra.Order.Group.Nat
import Mathlib.Data.Nat.Notation
import Mathlib.Logic.Function.Basic
import Mathlib.Tactic.SplitIfs
import ParallelPrograms.Grid

namespace ParallelPrograms.VectorAdd

structure Buffer where
  capacity : ℕ
  contents : ℕ → BitVec 32

namespace Buffer

def read (b : Buffer) (i : ℕ) : Option (BitVec 32) :=
  if i < b.capacity then some (b.contents i) else none

def write (b : Buffer) (i : ℕ) (x : BitVec 32) : Option Buffer :=
  if i < b.capacity then some ⟨b.capacity, Function.update b.contents i x⟩ else none

def overwrite (b : Buffer) (n : ℕ) (values : ℕ → BitVec 32) : Buffer :=
  ⟨b.capacity, fun i => if i < n then values i else b.contents i⟩

end Buffer

/-- `(int *)malloc(count * sizeof(int *))`, where a pointer has 8 bytes and the product may wrap
around -/
def malloc (count : BitVec 64) (stale : ℕ → BitVec 32) : Buffer :=
  ⟨(count * 8).toNat / 4, stale⟩

def randomVector (vector : Buffer) (size : BitVec 32) (random : ℕ → BitVec 32) : Option Buffer :=
  (List.range size.toInt.toNat).foldlM (fun vector i => vector.write i (random i)) vector

def quotient (size : BitVec 64) (numtasks : BitVec 32) : Option (BitVec 64) :=
  if numtasks = 0 then none else some (size / numtasks.signExtend 64)

def everyRank {β : Type} (numtasks : ℕ) (result : ℕ → Option β) (otherwise : ℕ → β) :
    Option (ℕ → β) :=
  if ∀ r < numtasks, (result r).isSome then some fun r => (result r).getD (otherwise r) else none

/-- The counts that the ranks pass are the same and not negative. -/
def Agree (numtasks : ℕ) (count : ℕ → BitVec 32) : Prop :=
  (∀ r < numtasks, count r = count 0) ∧ 0 ≤ (count 0).toInt

instance (numtasks : ℕ) (count : ℕ → BitVec 32) : Decidable (Agree numtasks count) :=
  inferInstanceAs (Decidable (_ ∧ _))

/-- `MPI_Scatter` from rank 0: rank `r` gets the elements from `r * count` on. -/
def scatter (numtasks : ℕ) (count : ℕ → BitVec 32) (root : Buffer) (recv : ℕ → Buffer) :
    Option (ℕ → Buffer) :=
  let n := (count 0).toNat
  if Agree numtasks count ∧ numtasks * n ≤ root.capacity ∧ ∀ r < numtasks, n ≤ (recv r).capacity
  then some fun r => (recv r).overwrite n fun i => root.contents (r * n + i)
  else none

def gather (numtasks : ℕ) (count : ℕ → BitVec 32) (send : ℕ → Buffer) (root : Buffer) :
    Option Buffer :=
  let n := (count 0).toNat
  if Agree numtasks count ∧ numtasks * n ≤ root.capacity ∧ ∀ r < numtasks, n ≤ (send r).capacity
  then some (root.overwrite (numtasks * n) fun i => (send (i / n)).contents (i % n))
  else none

/-- What one rank uses as the number of its elements: the `int` it passes to the collective
calls, and the bound of the loop over its block. -/
structure Block where
  count : BitVec 32
  bound : ℕ

def add (bound : ℕ) (v1 v2 v3 : Buffer) : Option Buffer :=
  if bound < 2 ^ 31 then
    (List.range bound).foldlM (fun v3 i => do
      let x ← v1.read i
      let y ← v2.read i
      v3.write i (x + y)) v3
  else none

structure Memory where
  v1 : ℕ → ℕ → BitVec 32
  v2 : ℕ → ℕ → BitVec 32
  v3 : ℕ → ℕ → BitVec 32
  root1 : ℕ → BitVec 32
  root2 : ℕ → BitVec 32
  root3 : ℕ → BitVec 32
  random1 : ℕ → BitVec 32
  random2 : ℕ → BitVec 32
  deriving Inhabited

structure Roots where
  v1 : Buffer
  v2 : Buffer
  v3 : Buffer

/-- `main` on all ranks, with the block of every rank.  There is no result for an access outside a
buffer, a division by zero, an overflow of the loop counter, or a collective call whose counts are
negative or different. -/
def main (block : ℕ → Option Block) (size : BitVec 64) (numtasks : BitVec 32) (mem : Memory) :
    Option Roots := do
  let p := numtasks.toNat
  let blocks ← everyRank p block fun _ => ⟨0, 0⟩
  let count := fun r => (blocks r).count
  let length ← quotient size numtasks
  let v1Root ← randomVector (malloc size mem.root1) (size.setWidth 32) mem.random1
  let v2Root ← randomVector (malloc size mem.root2) (size.setWidth 32) mem.random2
  let v1 ← scatter p count v1Root fun r => malloc length (mem.v1 r)
  let v2 ← scatter p count v2Root fun r => malloc length (mem.v2 r)
  let v3 ← everyRank p (fun r => add (blocks r).bound (v1 r) (v2 r) (malloc length (mem.v3 r)))
    fun r => malloc length (mem.v3 r)
  let v3Root ← gather p count v3 (malloc size mem.root3)
  return ⟨v1Root, v2Root, v3Root⟩

/-- `M3.S3P/VectorAdd.cpp`: `int len = size / numtasks` with what `numtasks` holds before it
is assigned. -/
def vectorAdd (unset : ℕ → BitVec 32) (size : BitVec 64) : BitVec 32 → Memory → Option Roots :=
  main (fun r => (quotient size (unset r)).map fun q =>
    ⟨q.setWidth 32, (q.setWidth 32).toInt.toNat⟩) size

/-- `M3.S2P/resources/VectorAdd.cpp`: `size / numtasks` is an `int` in the calls and an
`unsigned long` in the loop. -/
def vectorAddResources (size : BitVec 64) (numtasks : BitVec 32) : Memory → Option Roots :=
  main (fun _ => (quotient size numtasks).map fun q => ⟨q.setWidth 32, q.toNat⟩) size numtasks

/-- The run stays in its buffers and rank 0 ends with the whole sum. -/
def Covers (size : BitVec 64) (run : Option Roots) : Prop :=
  ∃ roots, run = some roots ∧ ∀ i < size.toNat,
    roots.v3.contents i = roots.v1.contents i + roots.v2.contents i

theorem writes_eq {f : ℕ → Option (BitVec 32)} {g : ℕ → BitVec 32} {b : Buffer} {n : ℕ}
    (hf : ∀ i < n, f i = some (g i)) (hn : n ≤ b.capacity) :
    (List.range n).foldlM (fun b i => do
      let x ← f i
      b.write i x) b = some (b.overwrite n g) := by
  induction n with
  | zero => rfl
  | succ n ih =>
    rw [List.range_succ, List.foldlM_append, ih (fun i hi => hf i (by omega)) (by omega)]
    have hcap : n < (b.overwrite n g).capacity := hn
    have hlast : (b.overwrite n g).write n (g n) = some (b.overwrite (n + 1) g) := by
      rw [Buffer.write, if_pos hcap, Buffer.overwrite, Buffer.overwrite]
      congr 2
      funext i
      rw [Function.update_apply]
      by_cases hi : i = n
      · rw [if_pos hi, if_pos (by omega), hi]
      · have hlt : i < n ↔ i < n + 1 := by omega
        rw [if_neg hi]
        exact if_congr hlt rfl rfl
    simp [hf n (by omega), hlast]

theorem randomVector_eq {vector : Buffer} {size : BitVec 32} (random : ℕ → BitVec 32)
    (h : size.toInt.toNat ≤ vector.capacity) :
    randomVector vector size random = some (vector.overwrite size.toInt.toNat random) :=
  writes_eq (fun _ _ => rfl) h

theorem add_eq {bound : ℕ} {v1 v2 v3 : Buffer} (hlt : bound < 2 ^ 31) (h1 : bound ≤ v1.capacity)
    (h2 : bound ≤ v2.capacity) (h3 : bound ≤ v3.capacity) :
    add bound v1 v2 v3 = some (v3.overwrite bound fun i => v1.contents i + v2.contents i) := by
  have hread : ∀ i < bound, (do
      let x ← v1.read i
      let y ← v2.read i
      pure (x + y)) = some (v1.contents i + v2.contents i) := by
    intro i hi
    simp [Buffer.read, Nat.lt_of_lt_of_le hi h1, Nat.lt_of_lt_of_le hi h2]
  rw [add, if_pos hlt]
  refine Eq.trans ?_ (writes_eq hread h3)
  simp only [bind_assoc, pure_bind]

variable {block : ℕ → Option Block} {size : BitVec 64} {numtasks : BitVec 32} {mem : Memory}

theorem everyRank_eq_some {β : Type} {n : ℕ} {result : ℕ → Option β} {otherwise f : ℕ → β}
    (h : everyRank n result otherwise = some f) : ∀ r < n, result r = some (f r) := by
  rw [everyRank] at h
  split_ifs at h with hall
  obtain rfl := Option.some.inj h
  intro r hr
  obtain ⟨x, hx⟩ := Option.isSome_iff_exists.mp (hall r hr)
  simp [hx]

theorem everyRank_eq {β : Type} {n : ℕ} {result : ℕ → Option β} {f : ℕ → β}
    (otherwise : ℕ → β) (h : ∀ r < n, result r = some (f r)) :
    ∃ g, everyRank n result otherwise = some g ∧ ∀ r < n, g r = f r := by
  have hall : ∀ r < n, (result r).isSome := fun r hr => by rw [h r hr]; rfl
  refine ⟨_, if_pos hall, fun r hr => ?_⟩
  rw [h r hr]
  rfl

/-- What a run that stays in its buffers has gone through. -/
theorem main_cases {roots : Roots} (h : main block size numtasks mem = some roots) :
    ∃ blocks length, everyRank numtasks.toNat block (fun _ => ⟨0, 0⟩) = some blocks ∧
      quotient size numtasks = some length ∧
      randomVector (malloc size mem.root1) (size.setWidth 32) mem.random1 = some roots.v1 ∧
      randomVector (malloc size mem.root2) (size.setWidth 32) mem.random2 = some roots.v2 ∧
      Agree numtasks.toNat (fun r => (blocks r).count) ∧
      numtasks.toNat * (blocks 0).count.toNat ≤ (malloc size mem.root3).capacity ∧
      (∀ r < numtasks.toNat, (blocks 0).count.toNat ≤ (malloc length (mem.v1 r)).capacity) ∧
      ∀ i, numtasks.toNat * (blocks 0).count.toNat ≤ i → roots.v3.contents i = mem.root3 i := by
  simp only [main, Option.bind_eq_bind, Option.bind_eq_some_iff, Option.pure_def,
    Option.some.injEq] at h
  obtain ⟨blocks, hblocks, length, hlength, v1Root, h1, v2Root, h2, v1, hv1, v2, hv2, v3, hv3,
    v3Root, hv3Root, rfl⟩ := h
  simp only [scatter, gather, Option.ite_none_right_eq_some, Option.some.injEq] at hv1 hv3Root
  obtain ⟨⟨hagree, hroot, hcapacity⟩, -⟩ := hv1
  obtain ⟨⟨-, hroot3, -⟩, rfl⟩ := hv3Root
  refine ⟨blocks, length, hblocks, hlength, h1, h2, hagree, hroot3, hcapacity, fun i hi => ?_⟩
  exact if_neg (by omega)

structure Fits (size : BitVec 64) (numtasks : BitVec 32) (n : ℕ) : Prop where
  covers : size.toNat ≤ numtasks.toNat * n
  root : numtasks.toNat * n ≤ (size * 8).toNat / 4
  block : n ≤ (size / numtasks.signExtend 64 * 8).toNat / 4

/-- Whatever the memory holds: an element that is not gathered keeps what was there. -/
theorem fits_of_covers (hp : 1 ≤ numtasks.toNat)
    (h : ∀ mem, Covers size (main block size numtasks mem)) :
    ∃ len : BitVec 32, 0 ≤ len.toInt ∧ Fits size numtasks len.toNat ∧
      ∀ r < numtasks.toNat, ∃ b, block r = some b ∧ b.count = len := by
  obtain ⟨roots, hroots, -⟩ := h default
  obtain ⟨blocks, length, hblocks, hlength, h1, h2, hagree, hroot, hcapacity, -⟩ :=
    main_cases hroots
  have hcovers : size.toNat ≤ numtasks.toNat * (blocks 0).count.toNat := by
    by_contra hlt
    rw [Nat.not_le] at hlt
    -- `v3_root` holds a wrong sum where the last block ends
    obtain ⟨roots', hroots', hsum⟩ := h { (default : Memory) with
      root3 := fun i => roots.v1.contents i + roots.v2.contents i + 1 }
    obtain ⟨blocks', length', hblocks', -, h1', h2', -, -, -, hrest⟩ := main_cases hroots'
    obtain rfl : blocks = blocks' := Option.some.inj (hblocks.symm.trans hblocks')
    have hv1 : roots.v1 = roots'.v1 := Option.some.inj (h1.symm.trans h1')
    have hv2 : roots.v2 = roots'.v2 := Option.some.inj (h2.symm.trans h2')
    have hwrong := hsum _ hlt
    rw [hrest _ le_rfl, hv1, hv2] at hwrong
    bv_omega
  refine ⟨(blocks 0).count, hagree.2, ⟨hcovers, hroot, ?_⟩, fun r hr => ?_⟩
  · rw [quotient] at hlength
    split_ifs at hlength
    obtain rfl := Option.some.inj hlength
    exact hcapacity 0 hp
  · exact ⟨blocks r, everyRank_eq_some hblocks r hr, hagree.1 r hr⟩

theorem scatter_spec {p : ℕ} {count : ℕ → BitVec 32} {len : BitVec 32} {root : Buffer}
    {recv : ℕ → Buffer} (hagree : Agree p count) (h0 : count 0 = len)
    (hroot : p * len.toNat ≤ root.capacity) (hrecv : ∀ r < p, len.toNat ≤ (recv r).capacity) :
    ∃ blocks, scatter p count root recv = some blocks ∧
      ∀ r, (blocks r).capacity = (recv r).capacity ∧
        ∀ i < len.toNat, (blocks r).contents i = root.contents (r * len.toNat + i) := by
  subst h0
  exact ⟨_, if_pos ⟨hagree, hroot, hrecv⟩, fun r => ⟨rfl, fun i hi => if_pos hi⟩⟩

theorem gather_spec {p : ℕ} {count : ℕ → BitVec 32} {len : BitVec 32} {root : Buffer}
    {send : ℕ → Buffer} (hagree : Agree p count) (h0 : count 0 = len)
    (hroot : p * len.toNat ≤ root.capacity) (hsend : ∀ r < p, len.toNat ≤ (send r).capacity) :
    ∃ whole, gather p count send root = some whole ∧ ∀ i < p * len.toNat,
      whole.contents i = (send (i / len.toNat)).contents (i % len.toNat) := by
  subst h0
  exact ⟨_, if_pos ⟨hagree, hroot, hsend⟩, fun i hi => if_pos hi⟩

theorem toNat_lt_of_nonneg {len : BitVec 32} (h : 0 ≤ len.toInt) : len.toNat < 2 ^ 31 := by
  rw [BitVec.toInt_eq_toNat_cond] at h
  split_ifs at h <;> omega

theorem toInt_setWidth_le (size : BitVec 64) :
    ((size.setWidth 32).toInt.toNat : ℕ) ≤ size.toNat := by
  rw [BitVec.toInt_eq_toNat_cond, BitVec.toNat_setWidth]
  split_ifs <;> omega

theorem covers_of_fits {len : BitVec 32} (hp : 1 ≤ numtasks.toNat) (hlen : 0 ≤ len.toInt)
    (hfits : Fits size numtasks len.toNat)
    (hblock : ∀ r < numtasks.toNat, block r = some ⟨len, len.toNat⟩) (mem : Memory) :
    Covers size (main block size numtasks mem) := by
  obtain ⟨hcovers, hroot, hcapacity⟩ := hfits
  have hpositive : numtasks ≠ 0 := by
    rintro rfl
    simp at hp
  have hquotient : quotient size numtasks = some (size / numtasks.signExtend 64) :=
    if_neg hpositive
  obtain ⟨blocks, hblocks, hcount⟩ := everyRank_eq (fun _ => ⟨0, 0⟩) hblock
  have h0 : (blocks 0).count = len := by rw [hcount 0 hp]
  have hagree : Agree numtasks.toNat fun r => (blocks r).count := by
    refine ⟨fun r hr => ?_, ?_⟩
    · simp only [hcount r hr, h0]
    · simpa only [h0]
  have hint := toInt_setWidth_le size
  -- the vectors of rank 0, and the blocks that are added
  have hvector : ∀ stale random, ∃ root : Buffer, root.capacity = (size * 8).toNat / 4 ∧
      randomVector (malloc size stale) (size.setWidth 32) random = some root := by
    intro stale random
    exact ⟨_, rfl, randomVector_eq random (hint.trans (hcovers.trans hroot))⟩
  obtain ⟨v1Root, hcap1, h1⟩ := hvector mem.root1 mem.random1
  obtain ⟨v2Root, hcap2, h2⟩ := hvector mem.root2 mem.random2
  have hblocks' : ∀ (stale : ℕ → ℕ → BitVec 32), ∀ r < numtasks.toNat,
      len.toNat ≤ (malloc (size / numtasks.signExtend 64) (stale r)).capacity :=
    fun _ _ _ => hcapacity
  obtain ⟨v1, hv1, hv1eq⟩ := scatter_spec hagree h0 (hcap1 ▸ hroot) (hblocks' mem.v1)
  obtain ⟨v2, hv2, hv2eq⟩ := scatter_spec hagree h0 (hcap2 ▸ hroot) (hblocks' mem.v2)
  have hadd : ∀ r < numtasks.toNat, add (blocks r).bound (v1 r) (v2 r)
      (malloc (size / numtasks.signExtend 64) (mem.v3 r)) =
        some ((malloc (size / numtasks.signExtend 64) (mem.v3 r)).overwrite len.toNat
          fun i => (v1 r).contents i + (v2 r).contents i) := by
    intro r hr
    rw [hcount r hr]
    exact add_eq (toNat_lt_of_nonneg hlen) ((hv1eq r).1 ▸ hcapacity) ((hv2eq r).1 ▸ hcapacity)
      hcapacity
  obtain ⟨v3, hv3, hv3eq⟩ := everyRank_eq
    (fun r => malloc (size / numtasks.signExtend 64) (mem.v3 r)) hadd
  have hcap3 : ∀ r < numtasks.toNat, len.toNat ≤ (v3 r).capacity := by
    intro r hr
    rw [hv3eq r hr]
    exact hcapacity
  have hroot3 : numtasks.toNat * len.toNat ≤ (malloc size mem.root3).capacity := hroot
  obtain ⟨v3Root, hgather, hsum⟩ := gather_spec hagree h0 hroot3 hcap3
  refine ⟨⟨v1Root, v2Root, v3Root⟩, ?_, fun i hi => ?_⟩
  · simp only [main, hblocks, hquotient, h1, h2, hv1, hv2, hv3, hgather, Option.bind_eq_bind,
      Option.bind_some, Option.pure_def]
  · -- element `i` is in the block of rank `i / len`
    have hlt : i < numtasks.toNat * len.toNat := hi.trans_le hcovers
    obtain ⟨hrank, hmod, hplace⟩ := row_and_column hlt
    simp only [hsum i hlt, hv3eq _ hrank, Buffer.overwrite, if_pos hmod, (hv1eq _).2 _ hmod,
      (hv2eq _).2 _ hmod, hplace]

theorem toNat_quotient (size : BitVec 64) (hp : 1 ≤ numtasks.toInt) :
    1 ≤ numtasks.toNat ∧ (size / numtasks.signExtend 64).toNat = size.toNat / numtasks.toNat := by
  have hmsb : numtasks.msb = false := by
    rw [BitVec.msb_eq_false_iff_two_mul_lt]
    rw [BitVec.toInt_eq_toNat_cond] at hp
    split_ifs at hp <;> omega
  have hle : numtasks.toNat < 2 ^ 64 := numtasks.isLt.trans (by decide)
  rw [BitVec.toInt_eq_toNat_of_msb hmsb] at hp
  refine ⟨by omega, ?_⟩
  rw [BitVec.toNat_udiv, BitVec.signExtend_eq_setWidth_of_msb_false hmsb, BitVec.toNat_setWidth,
    Nat.mod_eq_of_lt hle]

/-- The quotient covers the vector when the ranks divide it evenly. -/
theorem fits_quotient_iff (hp : 1 ≤ numtasks.toInt) :
    (0 ≤ ((size / numtasks.signExtend 64).setWidth 32).toInt ∧
      Fits size numtasks ((size / numtasks.signExtend 64).setWidth 32).toNat) ↔
    numtasks.toNat ∣ size.toNat ∧ size.toNat / numtasks.toNat < 2 ^ 31 ∧
      size.toNat < 2 ^ 61 := by
  obtain ⟨hpos, hq⟩ := toNat_quotient size hp
  have hsize := size.isLt
  have hroot : (size * 8).toNat = size.toNat * 8 % 2 ^ 64 := BitVec.toNat_mul size 8
  have hblock : (size / numtasks.signExtend 64 * 8).toNat =
      size.toNat / numtasks.toNat * 8 % 2 ^ 64 := by
    rw [← hq]
    exact BitVec.toNat_mul _ 8
  have hint : ((size / numtasks.signExtend 64).setWidth 32).toNat =
      size.toNat / numtasks.toNat % 2 ^ 32 := by rw [BitVec.toNat_setWidth, hq]
  have hmul : numtasks.toNat * (size.toNat / numtasks.toNat) ≤ size.toNat :=
    Nat.mul_div_le _ _
  constructor
  · rintro ⟨hlen, hcovers, hfits, -⟩
    have hlt := toNat_lt_of_nonneg hlen
    rw [hint] at hlt hcovers hfits
    -- a smaller count would leave elements out
    have hcount : size.toNat / numtasks.toNat % 2 ^ 32 = size.toNat / numtasks.toNat := by
      apply le_antisymm (Nat.mod_le _ _)
      exact Nat.le_of_mul_le_mul_left (hmul.trans hcovers) hpos
    rw [hcount] at hlt hcovers hfits
    have hdvd : numtasks.toNat * (size.toNat / numtasks.toNat) = size.toNat :=
      le_antisymm hmul hcovers
    refine ⟨⟨_, hdvd.symm⟩, hlt, ?_⟩
    rw [hdvd, hroot] at hfits
    omega
  · rintro ⟨hdvd, hlt, hsmall⟩
    have hcount : size.toNat / numtasks.toNat % 2 ^ 32 = size.toNat / numtasks.toNat :=
      Nat.mod_eq_of_lt (by omega)
    have hexact : numtasks.toNat * (size.toNat / numtasks.toNat) = size.toNat :=
      Nat.mul_div_cancel' hdvd
    refine ⟨?_, ?_, ?_, ?_⟩
    · rw [BitVec.toInt_eq_toNat_cond, hint]
      split_ifs <;> omega
    · rw [hint, hcount, hexact]
    · rw [hint, hcount, hexact, hroot]
      omega
    · rw [hint, hcount, hblock]
      omega

theorem resources_covers_iff (size : BitVec 64) (hp : 1 ≤ numtasks.toInt) :
    (∀ mem, Covers size (vectorAddResources size numtasks mem)) ↔
      numtasks.toNat ∣ size.toNat ∧ size.toNat / numtasks.toNat < 2 ^ 31 ∧
        size.toNat < 2 ^ 61 := by
  obtain ⟨hpos, hq⟩ := toNat_quotient size hp
  have hquotient : quotient size numtasks = some (size / numtasks.signExtend 64) := by
    apply if_neg
    rintro rfl
    simp at hpos
  rw [← fits_quotient_iff hp]
  constructor
  · intro h
    obtain ⟨len, hlen, hfits, hblock⟩ := fits_of_covers hpos h
    obtain ⟨b, hb, rfl⟩ := hblock 0 hpos
    rw [hquotient] at hb
    obtain rfl := Option.some.inj hb
    exact ⟨hlen, hfits⟩
  · rintro ⟨hlen, hfits⟩ mem
    refine covers_of_fits hpos hlen hfits (fun r _ => ?_) mem
    -- the loop runs over as many elements as are exchanged
    have hbound := ((fits_quotient_iff hp).mp ⟨hlen, hfits⟩).2.1
    have hcount : ((size / numtasks.signExtend 64).setWidth 32).toNat =
        (size / numtasks.signExtend 64).toNat := by
      rw [BitVec.toNat_setWidth, hq]
      omega
    rw [hquotient, hcount]
    rfl

theorem unset_covers_iff (size : BitVec 64) (hp : 1 ≤ numtasks.toInt) (unset : ℕ → BitVec 32) :
    (∀ mem, Covers size (vectorAdd unset size numtasks mem)) ↔
      ∃ len : BitVec 32, 0 ≤ len.toInt ∧ Fits size numtasks len.toNat ∧
        ∀ r < numtasks.toNat, unset r ≠ 0 ∧
          (size / (unset r).signExtend 64).setWidth 32 = len := by
  obtain ⟨hpos, -⟩ := toNat_quotient size hp
  constructor
  · intro h
    obtain ⟨len, hlen, hfits, hblock⟩ := fits_of_covers hpos h
    refine ⟨len, hlen, hfits, fun r hr => ?_⟩
    obtain ⟨b, hb, rfl⟩ := hblock r hr
    obtain ⟨q, hq, rfl⟩ := Option.map_eq_some_iff.mp hb
    rw [quotient] at hq
    split_ifs at hq with hzero
    obtain rfl := Option.some.inj hq
    exact ⟨hzero, rfl⟩
  · rintro ⟨len, hlen, hfits, hunset⟩ mem
    refine covers_of_fits hpos hlen hfits (fun r hr => ?_) mem
    obtain ⟨hzero, hr⟩ := hunset r hr
    have hint : len.toInt.toNat = len.toNat := by
      rw [BitVec.toInt_eq_toNat_cond, if_pos (by have := toNat_lt_of_nonneg hlen; omega)]
      rfl
    rw [quotient, if_neg hzero, Option.map_some, hr, hint]

/-- The quotient where it is used covers the whole vector exactly when the ranks divide it
evenly (and no count or byte size overflows).  The quotient by the unset `numtasks` does so
exactly when every rank happens to get the same count, large enough for the whole vector and
small enough for the buffers. -/
theorem covers_iff (size : BitVec 64) (numtasks : BitVec 32) (hp : 1 ≤ numtasks.toInt) :
    ((∀ mem, Covers size (vectorAddResources size numtasks mem)) ↔
      numtasks.toNat ∣ size.toNat ∧ size.toNat / numtasks.toNat < 2 ^ 31 ∧
        size.toNat < 2 ^ 61) ∧
    ∀ unset : ℕ → BitVec 32, (∀ mem, Covers size (vectorAdd unset size numtasks mem)) ↔
      ∃ len : BitVec 32, 0 ≤ len.toInt ∧ Fits size numtasks len.toNat ∧
        ∀ r < numtasks.toNat, unset r ≠ 0 ∧
          (size / (unset r).signExtend 64).setWidth 32 = len :=
  ⟨resources_covers_iff size hp, unset_covers_iff size hp⟩

/-- Four elements on two ranks. -/
theorem covers_iff_four : Covers 4 (vectorAddResources 4 2 default) :=
  (covers_iff 4 2 (by decide)).1.mpr (by decide) default

/-- Three elements on two ranks, and one element whose length is divided by zero. -/
theorem not_covers : ¬ ((∀ size numtasks mem, 1 ≤ numtasks.toInt →
      Covers size (vectorAddResources size numtasks mem)) ∨
    ∀ unset size numtasks mem, 1 ≤ numtasks.toInt →
      Covers size (vectorAdd unset size numtasks mem)) := by
  have htwo : 1 ≤ (2 : BitVec 32).toInt := by decide
  have hone : 1 ≤ (1 : BitVec 32).toInt := by decide
  rintro (h | h)
  · have hcover := (resources_covers_iff 3 htwo).mp fun mem => h 3 2 mem htwo
    revert hcover
    decide
  · obtain ⟨len, -, -, hzero⟩ :=
      (unset_covers_iff 1 hone fun _ => 0).mp fun mem => h _ 1 1 mem hone
    exact (hzero 0 (by decide)).1 rfl

end ParallelPrograms.VectorAdd
