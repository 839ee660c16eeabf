import Mathlib.Algebra.BigOperators.Ring.Finset
import Mathlib.Tactic.NormNum
import ParallelPrograms.Grid
import ParallelPrograms.ParallelFor

namespace ParallelPrograms.VectorAdd.OpenMP

structure Overflow where
  deriving DecidableEq

/-- `x + y` for two `int`s.  Here a sum that does not fit is the failure in question: the language
gives it no value, and it is not taken to wrap around. -/
def addInt (x y : ℤ) : Except Overflow ℤ :=
  if -2147483648 ≤ x + y ∧ x + y ≤ 2147483647 then .ok (x + y) else .error ⟨⟩

def addResults (x y : Except Overflow ℤ) : Except Overflow ℤ := do
  let x ← x
  let y ← y
  addInt x y

def size : ℕ := 100000000

def randomPass (rand : ℕ → ℕ) (vector : ℕ → ℤ) (_ : Unit) (i : ℕ) :
    Except Overflow ((ℕ → ℤ) × Unit) :=
  .ok (Function.update vector i (rand i % 100 : ℕ), ())

def randomVector (rand : ℕ → ℕ) (vector : ℕ → ℤ) (loop : Schedule) : Except Overflow (ℕ → ℤ) := do
  let v ← parallelFor (randomPass rand) (fun _ _ => ()) () loop vector ()
  return v.1

def addPass (v1 v2 : ℕ → ℤ) (v3 : ℕ → ℤ) (_ : Unit) (i : ℕ) :
    Except Overflow ((ℕ → ℤ) × Unit) := do
  let x ← addInt (v1 i) (v2 i)
  return (Function.update v3 i x, ())

/-- `total += v3[i]` on a thread's own copy, on which the directive `atomic` has no effect; the
loop overflows if any sum on the way does. -/
def totalPass (v3 : ℕ → ℤ) (_ : Unit) (total : Except Overflow ℤ) (i : ℕ) :
    Except Overflow (Unit × Except Overflow ℤ) :=
  .ok ((), addResults total (.ok (v3 i)))

/-- `v3` and `total` at the end of `main`; `stale` is what `v3` holds before. -/
def main (v1 v2 stale : ℕ → ℤ) (addLoop totalLoop : Schedule) : Except Overflow ((ℕ → ℤ) × ℤ) := do
  let v ← parallelFor (addPass v1 v2) (fun _ _ => ()) () addLoop stale ()
  let w ← parallelFor (totalPass v.1) addResults (.ok 0) totalLoop () (.ok 0)
  let total ← w.2
  return (v.1, total)

/-- Nothing overflows, `v3` is the sum of the vectors and `total` is the sum of `v3`. -/
def Exact (n : ℕ) (v1 v2 : ℕ → ℤ) (result : Except Overflow ((ℕ → ℤ) × ℤ)) : Prop :=
  ∃ v3 total, result = .ok (v3, total) ∧ (∀ i < n, v3 i = v1 i + v2 i) ∧
    total = ∑ i ∈ Finset.range n, v3 i

section Writes

variable {n : ℕ} {f : ℕ → ℤ} {loop : Schedule}

/-- Whatever the schedule, the vector has the written elements in front of the old ones. -/
theorem parallelFor_writes (body : (ℕ → ℤ) → Unit → ℕ → Except Overflow ((ℕ → ℤ) × Unit))
    (stale : ℕ → ℤ) (hbody : ∀ v i, i < n → body v () i = .ok (Function.update v i (f i), ()))
    (hvalid : loop.Valid n) : ∃ v, parallelFor body (fun _ _ => ()) () loop stale () = .ok (v, ()) ∧
      ∀ i < n, v i = f i := by
  have : Std.Associative fun _ _ : Unit => () := ⟨fun _ _ _ => rfl⟩
  have : Std.Commutative fun _ _ : Unit => () := ⟨fun _ _ => rfl⟩
  have : Std.LawfulIdentity (fun _ _ : Unit => ()) () :=
    { left_id := fun _ => rfl, right_id := fun _ => rfl }
  have hindependent : Independent body (fun _ _ => ()) n (fun _ => True)
      (fun v i => Function.update v i (f i)) fun _ _ => () :=
    { body_eq := fun _ hi => hbody _ _ hi
      inv_next := fun _ _ => trivial
      next_comm := fun v i j hij => Function.update_comm hij _ _ v
      value_next := fun _ _ _ _ => rfl }
  refine ⟨(List.range n).foldl (fun v i => Function.update v i (f i)) stale, ?_, fun i hi => ?_⟩
  · rw [hindependent.parallelFor_eq trivial hvalid, sequentialFor,
      hindependent.foldlM_eq trivial List.nodup_range fun i hi => List.mem_range.mp hi]
  · apply foldl_written (fun v : ℕ → ℤ => v i) stale (List.mem_range.mpr hi)
    · exact fun v => Function.update_self i (f i) v
    · exact fun v j _ hji => Function.update_of_ne (Ne.symm hji) (f j) v

theorem randomVector_bounds (rand : ℕ → ℕ) (stale : ℕ → ℤ) (hvalid : loop.Valid n) :
    ∃ v, randomVector rand stale loop = .ok v ∧ ∀ i < n, 0 ≤ v i ∧ v i ≤ 99 := by
  obtain ⟨v, hv, hvi⟩ := parallelFor_writes (f := fun i => (rand i % 100 : ℕ)) (randomPass rand)
    stale (fun _ _ _ => rfl) hvalid
  refine ⟨v, by rw [randomVector, hv]; rfl, fun i hi => ?_⟩
  rw [hvi i hi]
  omega

end Writes

def fits (total : ℕ) : Except Overflow ℤ :=
  if total ≤ 2147483647 then .ok total else .error ⟨⟩

theorem addResults_fits (x y : ℕ) : addResults (fits x) (fits y) = fits (x + y) := by
  by_cases hx : x ≤ 2147483647
  · by_cases hy : y ≤ 2147483647
    · have hadd : addResults (fits x) (fits y) = addInt x y := by
        rw [fits, fits, if_pos hx, if_pos hy]
        rfl
      rw [hadd, addInt, fits]
      exact if_congr (by omega) (by rw [Nat.cast_add]) rfl
    · have hxy : ¬ x + y ≤ 2147483647 := by omega
      rw [fits, fits, fits, if_pos hx, if_neg hy, if_neg hxy]
      rfl
  · have hxy : ¬ x + y ≤ 2147483647 := by omega
    rw [fits, fits, fits, if_neg hx, if_neg hxy]
    rfl

variable {n : ℕ} {v1 v2 v3 : ℕ → ℤ}

/-- A pass of the loop that adds up `v3`, without a bound on the total. -/
def exactPass (v3 : ℕ → ℤ) (_ : Unit) (total i : ℕ) : Except Overflow (Unit × ℕ) :=
  .ok ((), total + (v3 i).toNat)

theorem exactPass_independent : Independent (exactPass v3) (· + ·) n (fun _ => True)
    (fun _ _ => ()) fun _ i => (v3 i).toNat where
  body_eq := fun _ _ => rfl
  inv_next := fun _ _ => trivial
  next_comm := fun _ _ _ _ => rfl
  value_next := fun _ _ _ _ => rfl

theorem foldl_exactPass (m : ℕ) : (List.range m).foldl (fun total i => total + (v3 i).toNat) 0 =
    ∑ i ∈ Finset.range m, (v3 i).toNat := by
  induction m with
  | zero => rfl
  | succ m ih =>
    rw [List.range_succ, List.foldl_append, ih, Finset.sum_range_succ]
    rfl

theorem exactLoop_eq {loop : Schedule} (hvalid : loop.Valid n) :
    parallelFor (exactPass v3) (· + ·) 0 loop () 0 =
      .ok ((), ∑ i ∈ Finset.range n, (v3 i).toNat) := by
  rw [exactPass_independent.parallelFor_eq trivial hvalid, sequentialFor,
    exactPass_independent.foldlM_eq trivial List.nodup_range fun i hi => List.mem_range.mp hi,
    foldl_exactPass]

/-- A pass on a total that fits does what it does on the exact total. -/
theorem totalPass_fits {i : ℕ} (hi : 0 ≤ v3 i ∧ v3 i ≤ 198) (total : ℕ) :
    totalPass v3 () (fits total) i = (exactPass v3 () total i).map (Prod.map id fits) := by
  have hvalue : fits (v3 i).toNat = .ok (v3 i) := by
    rw [fits, if_pos (by omega), Int.toNat_of_nonneg hi.1]
  rw [totalPass, ← hvalue, addResults_fits]
  rfl

/-- The total is the same under every schedule, and it overflows on some way to it only if it
does not fit itself. -/
theorem totalLoop_eq {loop : Schedule} (hv3 : ∀ i < n, 0 ≤ v3 i ∧ v3 i ≤ 198)
    (hvalid : loop.Valid n) : parallelFor (totalPass v3) addResults (.ok 0) loop () (.ok 0) =
      .ok ((), fits (∑ i ∈ Finset.range n, (v3 i).toNat)) := by
  have hbody : ∀ x ∈ loop.order, ∀ s r, totalPass v3 s (fits r) x.2 =
      (exactPass v3 s r x.2).map (Prod.map id fits) := by
    intro x hx s r
    have hi : x.2 < n := List.mem_range.mp (hvalid.order_perm.subset (List.mem_map_of_mem hx))
    exact totalPass_fits (hv3 x.2 hi) r
  have hmap := parallelFor_map (e := 0) addResults_fits hbody () 0
  rw [exactLoop_eq hvalid] at hmap
  exact hmap

theorem main_eq (hv1 : ∀ i < n, 0 ≤ v1 i ∧ v1 i ≤ 99) (hv2 : ∀ i < n, 0 ≤ v2 i ∧ v2 i ≤ 99)
    {addLoop totalLoop : Schedule} (hadd : addLoop.Valid n) (htotal : totalLoop.Valid n)
    (stale : ℕ → ℤ) : ∃ v3 : ℕ → ℤ, (∀ i < n, v3 i = v1 i + v2 i) ∧
      main v1 v2 stale addLoop totalLoop =
        (fits (∑ i ∈ Finset.range n, (v3 i).toNat)).map fun total => (v3, total) := by
  have hbody : ∀ v i, i < n →
      addPass v1 v2 v () i = .ok (Function.update v i (v1 i + v2 i), ()) := by
    intro v i hi
    have h1 := hv1 i hi
    have h2 := hv2 i hi
    rw [addPass, addInt, if_pos (by omega)]
    rfl
  obtain ⟨v3, hloop, hv3⟩ := parallelFor_writes (addPass v1 v2) stale hbody hadd
  have hbounds : ∀ i < n, 0 ≤ v3 i ∧ v3 i ≤ 198 := by
    intro i hi
    have h1 := hv1 i hi
    have h2 := hv2 i hi
    rw [hv3 i hi]
    omega
  refine ⟨v3, hv3, ?_⟩
  rw [main, hloop]
  simp only [bind, Except.bind, totalLoop_eq hbounds htotal]
  cases fits (∑ i ∈ Finset.range n, (v3 i).toNat) <;> rfl

theorem sum_toNat (hv1 : ∀ i < n, 0 ≤ v1 i ∧ v1 i ≤ 99) (hv2 : ∀ i < n, 0 ≤ v2 i ∧ v2 i ≤ 99)
    (hv3 : ∀ i < n, v3 i = v1 i + v2 i) : ((∑ i ∈ Finset.range n, (v3 i).toNat : ℕ) : ℤ) =
      ∑ i ∈ Finset.range n, (v1 i + v2 i) := by
  rw [Nat.cast_sum]
  apply Finset.sum_congr rfl
  intro i hi
  have h1 := hv1 i (Finset.mem_range.mp hi)
  have h2 := hv2 i (Finset.mem_range.mp hi)
  rw [← hv3 i (Finset.mem_range.mp hi)]
  exact Int.toNat_of_nonneg (by rw [hv3 i (Finset.mem_range.mp hi)]; omega)

theorem exact_iff_sum_le (hv1 : ∀ i < n, 0 ≤ v1 i ∧ v1 i ≤ 99)
    (hv2 : ∀ i < n, 0 ≤ v2 i ∧ v2 i ≤ 99) {addLoop totalLoop : Schedule}
    (hadd : addLoop.Valid n) (htotal : totalLoop.Valid n) (stale : ℕ → ℤ) :
    Exact n v1 v2 (main v1 v2 stale addLoop totalLoop) ↔
      ∑ i ∈ Finset.range n, (v1 i + v2 i) ≤ 2147483647 := by
  obtain ⟨v3, hv3, hmain⟩ := main_eq hv1 hv2 hadd htotal stale
  have hsum := sum_toNat hv1 hv2 hv3
  have hsame : ∑ i ∈ Finset.range n, v3 i = ∑ i ∈ Finset.range n, (v1 i + v2 i) :=
    Finset.sum_congr rfl fun i hi => hv3 i (Finset.mem_range.mp hi)
  by_cases hle : ∑ i ∈ Finset.range n, (v3 i).toNat ≤ 2147483647
  · refine iff_of_true ⟨v3, (∑ i ∈ Finset.range n, (v3 i).toNat : ℕ), ?_, hv3, ?_⟩ (by omega)
    · rw [hmain, fits, if_pos hle]
      rfl
    · rw [hsum, hsame]
  · refine iff_of_false ?_ (by omega)
    rintro ⟨w, total, hok, -⟩
    rw [hmain, fits, if_neg hle] at hok
    exact absurd hok (by simp [Except.map])

/-- For the vectors of `main`, whatever `randomVector` wrote into them and however the loops
are split: the result is exact if and only if it fits an `int`. -/
theorem main_exact_iff (v1 v2 stale : ℕ → ℤ) (hv1 : ∀ i < size, 0 ≤ v1 i ∧ v1 i ≤ 99)
    (hv2 : ∀ i < size, 0 ≤ v2 i ∧ v2 i ≤ 99) (addLoop totalLoop : Schedule)
    (hadd : addLoop.Valid size) (htotal : totalLoop.Valid size) :
    Exact size v1 v2 (main v1 v2 stale addLoop totalLoop) ↔
      ∑ i ∈ Finset.range size, (v1 i + v2 i) ≤ 2147483647 :=
  exact_iff_sum_le hv1 hv2 hadd htotal stale

theorem main_exact_iff_zero : Exact size (fun _ => 0) (fun _ => 0)
    (main (fun _ => 0) (fun _ => 0) (fun _ => 0) (.cyclic 5 size) (.cyclic 5 size)) :=
  (main_exact_iff _ _ _ (by simp) (by simp) _ _ (Schedule.cyclic_valid (by decide) size)
    (Schedule.cyclic_valid (by decide) size)).mpr (by simp)

/-- Vectors whose elements are all 99 overflow the total. -/
theorem not_exact : ¬ ∀ (v1 v2 stale : ℕ → ℤ) (addLoop totalLoop : Schedule),
    (∀ i < size, 0 ≤ v1 i ∧ v1 i ≤ 99) → (∀ i < size, 0 ≤ v2 i ∧ v2 i ≤ 99) →
    addLoop.Valid size → totalLoop.Valid size →
    Exact size v1 v2 (main v1 v2 stale addLoop totalLoop) := by
  intro h
  have hvalid := Schedule.cyclic_valid (by decide : 0 < 5) size
  have hentries : ∀ i < size, (0 : ℤ) ≤ 99 ∧ (99 : ℤ) ≤ 99 := fun _ _ => by decide
  have hsum := (exact_iff_sum_le hentries hentries hvalid hvalid fun _ => 0).mp
    (h _ _ _ _ _ hentries hentries hvalid hvalid)
  rw [Finset.sum_const, Finset.card_range, size] at hsum
  norm_num at hsum

end ParallelPrograms.VectorAdd.OpenMP
