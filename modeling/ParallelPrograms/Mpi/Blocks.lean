import Mathlib.Data.List.Range
import Mathlib.Tactic.Linarith
import ParallelPrograms.Consecutive
import ParallelPrograms.Mpi.Model

namespace ParallelPrograms.Mpi

def offsetAfter (n w : ℕ) : ℕ → ℕ
  | 0 => 0
  | d + 1 => offsetAfter n w d + rowsFor n w (d + 1)

theorem offsetAfter_eq (n w d : ℕ) :
    offsetAfter n w d = d * (n / w) + min d (n % w) := by
  induction d with
  | zero => simp [offsetAfter]
  | succ d ih =>
    simp only [offsetAfter, ih, rowsFor, Nat.succ_mul]
    split_ifs <;> omega

theorem offsetAfter_mono (n w : ℕ) {d e : ℕ} (h : d ≤ e) :
    offsetAfter n w d ≤ offsetAfter n w e := by
  simp only [offsetAfter_eq]
  have := Nat.mul_le_mul_right (n / w) h
  omega

/-- The last pass ends exactly at the last row. -/
theorem offsetAfter_numworkers (n : ℕ) {w : ℕ} (hw : 1 ≤ w) : offsetAfter n w w = n := by
  have hlt := Nat.mod_lt n hw
  rw [offsetAfter_eq, Nat.min_eq_right hlt.le, Nat.div_add_mod]

theorem offsetAfter_le (n : ℕ) {w d : ℕ} (hw : 1 ≤ w) (hd : d ≤ w) : offsetAfter n w d ≤ n :=
  (offsetAfter_mono n w hd).trans (offsetAfter_numworkers n hw).le

/-- The first worker always has a row to compute. -/
theorem rowsFor_one_pos {n w : ℕ} (hn : 1 ≤ n) : 1 ≤ rowsFor n w 1 := by
  unfold rowsFor
  split_ifs with h
  · exact Nat.le_add_left 1 _
  · have hdiv := Nat.div_add_mod n w
    rw [Nat.one_le_iff_ne_zero]
    intro h0
    rw [h0, Nat.mul_zero] at hdiv
    omega

/-- The rows handed out in the passes `1, .., d` are the rows below the offset, in order. -/
theorem rows_flatMap (n w d : ℕ) :
    (List.range d).flatMap (fun e => List.range' (offsetAfter n w e) (rowsFor n w (e + 1))) =
      List.range (offsetAfter n w d) := by
  induction d with
  | zero => simp [offsetAfter]
  | succ d ih =>
    rw [List.range_succ, List.flatMap_append, ih, offsetAfter, List.range_eq_range',
      List.range_eq_range', List.flatMap_singleton]
    simpa using List.range'_append_1 (s := 0) (m := offsetAfter n w d) (n := rowsFor n w (d + 1))

theorem rowsFor_le (n w : ℕ) {d : ℕ} (hd : 1 ≤ d) : rowsFor n w d ≤ n := by
  have hdiv := Nat.div_add_mod n w
  unfold rowsFor
  split_ifs with h
  · rcases Nat.eq_zero_or_pos w with rfl | hw
    · rw [Nat.mod_zero] at h
      rw [Nat.div_zero]
      omega
    · have hle := Nat.le_mul_of_pos_left (n / w) hw
      omega
  · exact Nat.div_le_self n w

theorem rowsFor_single (n : ℕ) : rowsFor n 1 1 = n := by
  simp [rowsFor, Nat.mod_one]

theorem count_eq {a b : ℕ} (h : a * b < 2 ^ 31) : count a b = (a * b : ℕ) := by
  rw [count, ← BitVec.ofNat_mul, toInt_of_lt h]

theorem count_toNat {a b : ℕ} (h : a * b < 2 ^ 31) : (count a b).toNat = a * b := by
  rw [count_eq h, Int.toNat_natCast]

theorem count_rows {n : ℕ} (hint : n * n < 2 ^ 31) (w : ℕ) {d : ℕ} (hd : 1 ≤ d) :
    (count (rowsFor n w d) n).toNat = rowsFor n w d * n :=
  count_toNat ((Nat.mul_le_mul_right n (rowsFor_le n w hd)).trans_lt hint)

theorem count_toNat_le (a b : ℕ) : (count a b).toNat ≤ a * b := by
  have h := toInt_le (a * b)
  rw [count, ← BitVec.ofNat_mul]
  omega

def sendPass (matrixSize numworkers : ℕ) (s : List (ℕ × ℕ) × ℕ) (dest : ℕ) :
    List (ℕ × ℕ) × ℕ :=
  let rows := rowsFor matrixSize numworkers dest
  (s.1 ++ [(s.2, rows)], s.2 + rows)

/-- The pairs `(offset, rows)` that the send loop sends to the workers `1, .., numworkers`. -/
def sentPairs (matrixSize numworkers : ℕ) : List (ℕ × ℕ) :=
  ((List.range' 1 numworkers).foldl (sendPass matrixSize numworkers) ([], 0)).1

theorem foldl_sendPass (n w d : ℕ) : (List.range' 1 d).foldl (sendPass n w) ([], 0) =
    ((List.range d).map fun e => (offsetAfter n w e, rowsFor n w (e + 1)), offsetAfter n w d) := by
  induction d with
  | zero => rfl
  | succ d ih =>
    rw [List.range'_1_concat, List.foldl_append, ih, List.range_succ, List.map_append,
      Nat.add_comm 1 d]
    rfl

theorem sentPairs_eq (n w : ℕ) : sentPairs n w =
    (List.range w).map fun e => (offsetAfter n w e, rowsFor n w (e + 1)) :=
  congrArg Prod.fst (foldl_sendPass n w w)

theorem consecutive_foldl (n w d : ℕ) : Consecutive 0
    ((List.range' 1 d).foldl (sendPass n w) ([], 0)).1
    ((List.range' 1 d).foldl (sendPass n w) ([], 0)).2 := by
  induction d with
  | zero => exact .nil 0
  | succ d ih =>
    rw [List.range'_1_concat, List.foldl_append]
    exact ih.append_singleton _

theorem rowsFor_antitone (n w : ℕ) {d e : ℕ} (h : d ≤ e) : rowsFor n w e ≤ rowsFor n w d := by
  unfold rowsFor
  split_ifs <;> omega

theorem rowsFor_le_succ (n w d e : ℕ) : rowsFor n w d ≤ rowsFor n w e + 1 := by
  unfold rowsFor
  split_ifs <;> omega

/-- The send loop cuts the rows into one interval for each worker, of almost equal sizes
and with the larger ones first; no block that it sends reaches past the matrix. -/
theorem sentPairs_balanced (n : ℕ) {w : ℕ} (hw : 1 ≤ w) :
    (sentPairs n w).length = w ∧ Consecutive 0 (sentPairs n w) n ∧
    ((sentPairs n w).Pairwise fun s t => Disjoint (interval s) (interval t)) ∧
    (∀ row, row < n ↔ ∃ s ∈ sentPairs n w, row ∈ interval s) ∧
    (∀ s ∈ sentPairs n w, ∀ t ∈ sentPairs n w, s.2 ≤ t.2 + 1) ∧
    ((sentPairs n w).Pairwise fun s t => t.2 ≤ s.2) ∧
    ∀ s ∈ sentPairs n w, s.1 ≤ n ∧ s.1 * n + s.2 * n ≤ n * n := by
  have hconsecutive : Consecutive 0 (sentPairs n w) n := by
    have h := consecutive_foldl n w w
    rwa [foldl_sendPass, offsetAfter_numworkers n hw, ← sentPairs_eq] at h
  refine ⟨by simp [sentPairs_eq], hconsecutive, hconsecutive.pairwise_disjoint, fun row => ?_,
    fun s hs t ht => ?_, ?_, fun s hs => ?_⟩
  · rw [← hconsecutive.mem_iff]
    omega
  · rw [sentPairs_eq, List.mem_map] at hs ht
    obtain ⟨d, -, rfl⟩ := hs
    obtain ⟨e, -, rfl⟩ := ht
    exact rowsFor_le_succ n w (d + 1) (e + 1)
  · rw [sentPairs_eq, List.pairwise_map]
    exact List.pairwise_lt_range.imp fun h => rowsFor_antitone n w (by omega)
  · have hend := (hconsecutive.bounds s hs).2
    have hcells := Nat.mul_le_mul_right n hend
    rw [Nat.add_mul] at hcells
    exact ⟨by omega, hcells⟩

theorem sentPairs_balanced_seven : sentPairs 7 3 = [(0, 3), (3, 2), (5, 2)] ∧
    Consecutive 0 (sentPairs 7 3) 7 :=
  ⟨by decide, (sentPairs_balanced 7 (by decide : 1 ≤ 3)).2.1⟩

section Loops

variable {D : Type*} {dim n : ℕ}

theorem fill_get (inputA inputB : ℕ → ℕ → D) (a b : Grid D dim) (hn : n ≤ dim) {i j : ℕ}
    (hi : i < n) (hj : j < n) :
    ((Task.fill n inputA inputB a b).1.get i j, (Task.fill n inputA inputB a b).2.get i j) =
      (inputA i j, inputB i j) := by
  let cell : Grid D dim × Grid D dim → D × D := fun s => (s.1.get i j, s.2.get i j)
  -- a pass for another cell leaves this one alone in both matrices
  have hother : ∀ s : Grid D dim × Grid D dim, ∀ i' j', j' < n → ¬ (i = i' ∧ j = j') →
      cell (s.1.set i' j' (inputA i' j'), s.2.set i' j' (inputB i' j')) = cell s := by
    intro s i' j' hj' hne
    exact Prod.ext (Grid.get_set_ne _ _ (by omega) (by omega) hne)
      (Grid.get_set_ne _ _ (by omega) (by omega) hne)
  unfold Task.fill
  refine foldl_written cell _ (List.mem_range.mpr hi) (fun s => ?_) (fun s i' hi' hne => ?_)
  · refine foldl_written cell _ (List.mem_range.mpr hj) (fun s => ?_) (fun s j' hj' hne => ?_)
    · exact Prod.ext (Grid.get_set_self _ _ _ _) (Grid.get_set_self _ _ _ _)
    · exact hother s i j' (List.mem_range.mp hj') (by omega)
  · exact foldl_frame cell _ _ fun s j' hj' => hother s i' j' (List.mem_range.mp hj') (by omega)

theorem fill_fst_get (inputA inputB : ℕ → ℕ → D) (a b : Grid D dim) (hn : n ≤ dim) {i j : ℕ}
    (hi : i < n) (hj : j < n) : (Task.fill n inputA inputB a b).1.get i j = inputA i j :=
  congrArg Prod.fst (fill_get inputA inputB a b hn hi hj)

theorem fill_snd_get (inputA inputB : ℕ → ℕ → D) (a b : Grid D dim) (hn : n ≤ dim) {i j : ℕ}
    (hi : i < n) (hj : j < n) : (Task.fill n inputA inputB a b).2.get i j = inputB i j :=
  congrArg Prod.snd (fill_get inputA inputB a b hn hi hj)

variable [Add D] [Mul D]

/-- The innermost loop runs on one cell only. -/
theorem inner_loop_get (a b c : Grid D dim) (i k : ℕ) (l : List ℕ) :
    (l.foldl (fun c j => c.set i k (c.get i k + a.get i j * b.get j k)) c).get i k =
      l.foldl (fun s j => s + a.get i j * b.get j k) (c.get i k) := by
  induction l generalizing c with
  | nil => rfl
  | cons j l ih => rw [List.foldl_cons, ih, Grid.get_set_self, List.foldl_cons]

variable [Zero D]

/-- The entry of the product, added up from zero in the order `j = 0, .., n - 1`. -/
def entry (n : ℕ) (a b : ℕ → ℕ → D) (i k : ℕ) : D :=
  (List.range n).foldl (fun s j => s + a i j * b j k) 0

theorem inner_loop_frame (a b c : Grid D dim) {i k i' k' : ℕ} (l : List ℕ)
    (hk : k < dim) (hk' : k' < dim) (hne : ¬ (i' = i ∧ k' = k)) :
    (l.foldl (fun c j => c.set i k (c.get i k + a.get i j * b.get j k)) (c.set i k 0)).get i' k' =
      c.get i' k' := by
  have hframe : ∀ (c : Grid D dim) x, (c.set i k x).get i' k' = c.get i' k' :=
    fun c x => Grid.get_set_ne c x hk hk' hne
  rw [← hframe c 0]
  exact foldl_frame (fun c : Grid D dim => c.get i' k') _ _ fun c j _ => hframe c _

/-- The triple loop sets every cell to its entry, whatever the array held before. -/
theorem product_get (a b c : Grid D dim) (hn : n ≤ dim) {i k : ℕ} (hi : i < n) (hk : k < n) :
    (Task.product n a b c).get i k = entry n a.get b.get i k := by
  unfold Task.product
  refine foldl_written (fun c : Grid D dim => c.get i k) _ (List.mem_range.mpr hk)
    (fun c => ?_) (fun c k' hk' hne => ?_)
  · refine foldl_written (fun c : Grid D dim => c.get i k) _ (List.mem_range.mpr hi)
      (fun c => ?_) (fun c i' hi' hne => ?_)
    · rw [inner_loop_get, Grid.get_set_self]
      rfl
    · exact inner_loop_frame a b c _ (by omega) (by omega) (by omega)
  · have hk'n := List.mem_range.mp hk'
    exact foldl_frame (fun c : Grid D dim => c.get i k) _ _
      fun c i' _ => inner_loop_frame a b c _ (by omega) (by omega) (by omega)

theorem entry_congr {a b a' b' : ℕ → ℕ → D} {i k : ℕ} (ha : ∀ j < n, a i j = a' i j)
    (hb : ∀ j < n, b j k = b' j k) : entry n a b i k = entry n a' b' i k := by
  unfold entry
  apply List.foldl_ext
  intro s j hj
  have hjn := List.mem_range.mp hj
  rw [ha j hjn, hb j hjn]

end Loops

end ParallelPrograms.Mpi
