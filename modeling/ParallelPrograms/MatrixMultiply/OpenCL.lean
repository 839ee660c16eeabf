import Mathlib.Data.List.Nodup
import Mathlib.Data.List.ProdSigma
import ParallelPrograms.Int32
import ParallelPrograms.Mpi.Blocks
import ParallelPrograms.StdVector

namespace ParallelPrograms.MatrixMultiply.OpenCL
open Mpi

section Kernel

variable {D : Type} [Zero D] [Add D] [Mul D]

/-- The kernel `matrix_mul` of `vector_mult.cl` for the work-item with the global ids `id.1` and
`id.2` of dimension 0 and 1.  Its indices are `int`s of 32 bits. -/
def matrixMul (a b c : List D) (n : BitVec 32) (id : ℕ × ℕ) : Except Stop (List D) :=
  let i := BitVec.ofNat 32 id.2
  let j := BitVec.ofNat 32 id.1
  if n.slt i then return c
  else if n.slt j then return c
  else do
    let sum ← (List.range n.toInt.toNat).foldlM (fun sum k => do
      let x ← nth a (i * n + BitVec.ofNat 32 k).toInt
      let y ← nth b (BitVec.ofNat 32 k * n + j).toInt
      return sum + x * y) 0
    update c (i * n + j).toInt fun _ => return sum

def workItems (size0 size1 : ℕ) : List (ℕ × ℕ) := List.range size0 ×ˢ List.range size1

def launch (a b : List D) (n : BitVec 32) (order : List (ℕ × ℕ)) (c : List D) :
    Except Stop (List D) :=
  order.foldlM (fun c id => matrixMul a b c n id) c

def element (n : ℕ) (a b : List D) (i j : ℕ) : D :=
  entry n (fun i k => a.getD (i * n + k) 0) (fun k j => b.getD (k * n + j) 0) i j

/-- No index is outside its buffer, and `c` is the product at the end. -/
def Correct (n : ℕ) (a b : List D) (order : List (ℕ × ℕ)) (c : List D) : Prop :=
  ∃ c', launch a b (BitVec.ofNat 32 n) order c = .ok c' ∧
    ∀ i < n, ∀ j < n, c'[i * n + j]? = some (element n a b i j)

end Kernel

theorem nth_ofNat {D : Type} [Zero D] {v : List D} {m : ℕ} (h : m < v.length) (hint : m < 2 ^ 31) :
    nth v (BitVec.ofNat 32 m).toInt = .ok (v.getD m 0) := by
  rw [toInt_of_lt hint, nth_of_lt h, List.getD_eq_getElem v 0 h]

/-- An index up to `2 ^ 31` is read only in the buffer. -/
theorem lt_of_nth_ofNat {D : Type} {v : List D} {m : ℕ} {x : D} (hle : m ≤ 2 ^ 31)
    (h : nth v (BitVec.ofNat 32 m).toInt = .ok x) : m < v.length ∧ m < 2 ^ 31 := by
  obtain ⟨hnonneg, hlt⟩ := range_of_nth_ok h
  have hint := lt_of_toInt_nonneg hle hnonneg
  rw [toInt_of_lt hint] at hlt
  exact ⟨by exact_mod_cast hlt, hint⟩

theorem index_eq (i n k : ℕ) : BitVec.ofNat 32 i * BitVec.ofNat 32 n + BitVec.ofNat 32 k =
    BitVec.ofNat 32 (i * n + k) := by
  rw [BitVec.ofNat_add, BitVec.ofNat_mul]

theorem not_slt {n i : ℕ} (hn : n < 2 ^ 31) (hi : i ≤ n) :
    (BitVec.ofNat 32 n).slt (BitVec.ofNat 32 i) = false := by
  rw [BitVec.slt_eq_decide, toInt_of_lt hn, toInt_of_lt (by omega)]
  simpa using hi

section Items

variable {D : Type} [Zero D] [Add D] [Mul D] {n : ℕ} {a b : List D}

theorem matrixMul_eq (c : List D) {i j : ℕ} (hn : n < 2 ^ 31) (hi : i ≤ n) (hj : j ≤ n) :
    matrixMul a b c (BitVec.ofNat 32 n) (j, i) = ((List.range n).foldlM (fun sum k => do
      let x ← nth a (BitVec.ofNat 32 (i * n + k)).toInt
      let y ← nth b (BitVec.ofNat 32 (k * n + j)).toInt
      return sum + x * y) 0 >>= fun sum =>
        update c (BitVec.ofNat 32 (i * n + j)).toInt fun _ => return sum) := by
  unfold matrixMul
  simp only [not_slt hn hi, not_slt hn hj, index_eq, toInt_of_lt hn, Int.toNat_natCast,
    Bool.false_eq_true, if_false]

theorem matrixMul_ok (ha : a.length = n * n) (hb : b.length = n * n) {c : List D}
    (hc : c.length = n * n) (hint : n * n ≤ 2 ^ 31) (hn : n < 2 ^ 31) {i j : ℕ} (hi : i < n)
    (hj : j < n) : matrixMul a b c (BitVec.ofNat 32 n) (j, i) =
      .ok (c.set (i * n + j) (element n a b i j)) := by
  have hsum : ∀ sum : D, ∀ k ∈ List.range n, (do
      let x ← nth a (BitVec.ofNat 32 (i * n + k)).toInt
      let y ← nth b (BitVec.ofNat 32 (k * n + j)).toInt
      return sum + x * y : Except Stop D) =
        .ok (sum + a.getD (i * n + k) 0 * b.getD (k * n + j) 0) := by
    intro sum k hk
    have hx := position_lt hi (List.mem_range.mp hk)
    have hy := position_lt (List.mem_range.mp hk) hj
    rw [nth_ofNat (by omega) (by omega), nth_ofNat (by omega) (by omega)]
    rfl
  have hcell := position_lt hi hj
  rw [matrixMul_eq c hn hi.le hj.le, foldlM_of_forall hsum, ok_bind, toInt_of_lt (by omega), update,
    nth_of_lt (by omega)]
  rfl

theorem launch_ok (ha : a.length = n * n) (hb : b.length = n * n) {c : List D}
    (hc : c.length = n * n) (hint : n * n ≤ 2 ^ 31) (hn : n < 2 ^ 31) {order : List (ℕ × ℕ)}
    (horder : order.Perm (workItems n n)) : Correct n a b order c := by
  have hmem : ∀ id ∈ order, id.2 < n ∧ id.1 < n := by
    intro id hid
    have h := List.mem_product.mp (horder.mem_iff.mp hid)
    exact ⟨List.mem_range.mp h.2, List.mem_range.mp h.1⟩
  have hitems : ∀ c : List D, c.length = n * n → ∀ id ∈ order,
      matrixMul a b c (BitVec.ofNat 32 n) id =
        .ok (c.set (id.2 * n + id.1) (element n a b id.2 id.1)) ∧
          (c.set (id.2 * n + id.1) (element n a b id.2 id.1)).length = n * n := by
    intro c hc id hid
    obtain ⟨hi, hj⟩ := hmem id hid
    exact ⟨matrixMul_ok ha hb hc hint hn hi hj, by rwa [List.length_set]⟩
  refine ⟨_, (foldlM_ok hitems hc).1, fun i hi j hj => ?_⟩
  have hnodup : order.Nodup :=
    horder.nodup_iff.mpr (List.Nodup.product List.nodup_range List.nodup_range)
  have hid : (j, i) ∈ order :=
    horder.mem_iff.mpr (List.mem_product.mpr ⟨List.mem_range.mpr hj, List.mem_range.mpr hi⟩)
  have hown := foldl_own (fun v : List D => v[i * n + j]?) hnodup c hid
    (f := fun c id => c.set (id.2 * n + id.1) (element n a b id.2 id.1))
    (g := Option.map fun _ => element n a b i j) (fun c => List.getElem?_set_self')
    (fun c id hid' hne => List.getElem?_set_ne fun heq => ?_)
  · have hcell : i * n + j < c.length := by rw [hc]; exact position_lt hi hj
    rw [hown, List.getElem?_eq_getElem hcell]
    rfl
  · obtain ⟨hi', hj'⟩ := Grid.position_injective (hmem id hid').2 hj heq
    exact hne (Prod.ext hj' hi')

/-- A work-item that the guard lets pass and that comes to its end has read inside the
buffers. -/
theorem reads_of_ok (hn : n < 2 ^ 31) {c c' : List D} {i j k : ℕ} (hi : i ≤ n) (hj : j ≤ n)
    (hk : k < n) (h : matrixMul a b c (BitVec.ofNat 32 n) (j, i) = .ok c') :
    (∃ x, nth a (BitVec.ofNat 32 (i * n + k)).toInt = .ok x) ∧
      ∃ y, nth b (BitVec.ofNat 32 (k * n + j)).toInt = .ok y := by
  rw [matrixMul_eq c hn hi hj] at h
  obtain ⟨sum, hsum, -⟩ := exists_of_bind_ok h
  obtain ⟨s, t, -, hpass⟩ := exists_of_foldlM_ok (fun _ => True) (fun _ _ _ _ _ => trivial)
    trivial hsum k (List.mem_range.mpr hk)
  obtain ⟨x, hx, hrest⟩ := exists_of_bind_ok hpass
  obtain ⟨y, hy, -⟩ := exists_of_bind_ok hrest
  exact ⟨⟨x, hx⟩, y, hy⟩

end Items

/-- The guards let the ids equal to `n` pass, which are outside the matrices, so that the range
must not be padded.  The indices are of type `int`, so that `n * n` is at most `2 ^ 31`. -/
theorem correct_iff {D : Type} [Zero D] [Add D] [Mul D] {n size0 size1 : ℕ} (hpos : 1 ≤ n)
    (hn : n < 2 ^ 31) (h0 : n ≤ size0) (h1 : n ≤ size1) {a b c : List D}
    (ha : a.length = n * n) (hb : b.length = n * n) (hc : c.length = n * n)
    {order : List (ℕ × ℕ)} (horder : order.Perm (workItems size0 size1)) :
    Correct n a b order c ↔ size0 = n ∧ size1 = n ∧ n * n ≤ 2 ^ 31 := by
  constructor
  · rintro ⟨c', hlaunch, -⟩
    have hends : ∀ i < size1, ∀ j < size0,
        ∃ c c', matrixMul a b c (BitVec.ofNat 32 n) (j, i) = .ok c' := by
      intro i hi j hj
      have hid : (j, i) ∈ order := horder.mem_iff.mpr
        (List.mem_product.mpr ⟨List.mem_range.mpr hj, List.mem_range.mpr hi⟩)
      obtain ⟨c, c', -, hend⟩ := exists_of_foldlM_ok (fun _ => True) (fun _ _ _ _ _ => trivial)
        trivial hlaunch (j, i) hid
      exact ⟨c, c', hend⟩
    -- the element of `A` with the index `2 ^ 31` is behind the largest `int`
    have hint : n * n ≤ 2 ^ 31 := by
      by_contra hlarge
      have hrow : 2 ^ 31 / n < n := Nat.div_lt_of_lt_mul (by omega)
      obtain ⟨c, c', hend⟩ := hends (2 ^ 31 / n) (by omega) 0 (by omega)
      obtain ⟨⟨x, hx⟩, -⟩ := reads_of_ok hn hrow.le (Nat.zero_le n) (Nat.mod_lt _ hpos) hend
      rw [Nat.div_add_mod'] at hx
      exact absurd (lt_of_nth_ofNat le_rfl hx).2 (lt_irrefl _)
    refine ⟨?_, ?_, hint⟩
    · by_contra hne
      obtain ⟨c, c', hend⟩ := hends 0 (by omega) n (by omega)
      obtain ⟨-, y, hy⟩ := reads_of_ok hn (Nat.zero_le n) le_rfl (Nat.sub_one_lt_of_lt hpos) hend
      rw [← Nat.succ_mul, Nat.succ_eq_add_one, Nat.sub_add_cancel hpos] at hy
      exact absurd (lt_of_nth_ofNat hint hy).1 (by omega)
    · by_contra hne
      obtain ⟨c, c', hend⟩ := hends n (by omega) 0 (by omega)
      obtain ⟨⟨x, hx⟩, -⟩ := reads_of_ok hn le_rfl (Nat.zero_le n) hpos hend
      rw [Nat.add_zero] at hx
      exact absurd (lt_of_nth_ofNat hint hx).1 (by omega)
  · rintro ⟨rfl, rfl, hint⟩
    exact launch_ok ha hb hc hint hn horder

theorem correct_iff_two : Correct 2 [1, 2, 3, 4] [5, 6, 7, 8] (workItems 2 2) [0, 0, 0, (0 : ℤ)] ↔
    2 = 2 ∧ 2 = 2 ∧ 2 * 2 ≤ 2 ^ 31 :=
  correct_iff (by decide) (by decide) le_rfl le_rfl rfl rfl rfl (.refl _)

/-- One row, and a range padded to two columns. -/
theorem not_correct_padded : ¬ ∀ (D : Type) [Zero D] [Add D] [Mul D] (n size0 size1 : ℕ)
    (a b c : List D) (order : List (ℕ × ℕ)), 1 ≤ n → n < 2 ^ 31 → n ≤ size0 → n ≤ size1 →
      a.length = n * n → b.length = n * n → c.length = n * n →
        order.Perm (workItems size0 size1) → Correct n a b order c := by
  intro h
  obtain ⟨c', hlaunch, -⟩ := h ℤ 1 2 1 [1] [1] [0] _ (by decide) (by decide) (by decide)
    (by decide) rfl rfl rfl (.refl _)
  have hstop : launch [1] [1] (BitVec.ofNat 32 1) (workItems 2 1) [(0 : ℤ)] =
      .error .outOfRange := by rfl
  cases hstop.symm.trans hlaunch

end ParallelPrograms.MatrixMultiply.OpenCL
