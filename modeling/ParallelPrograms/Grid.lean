import Mathlib.Algebra.Order.Ring.Nat
import Mathlib.Data.List.GetD
import Mathlib.Tactic.GCongr
import Mathlib.Tactic.Ring

namespace ParallelPrograms

section Loops

variable {σ ι α : Type*} {f : σ → ι → σ} (view : σ → α)

theorem foldl_frame (l : List ι) (s : σ) (h : ∀ s, ∀ x ∈ l, view (f s x) = view s) :
    view (l.foldl f s) = view s := by
  induction l generalizing s with
  | nil => rfl
  | cons x l ih =>
    rw [List.foldl_cons, ih _ fun s y hy => h s y (List.mem_cons_of_mem x hy)]
    exact h s x List.mem_cons_self

/-- A part that pass `x` alone changes, and that the loop makes only once. -/
theorem foldl_own {l : List ι} {x : ι} {g : α → α} (hl : l.Nodup) (s : σ) (hx : x ∈ l)
    (hself : ∀ s, view (f s x) = g (view s))
    (hother : ∀ s, ∀ y ∈ l, y ≠ x → view (f s y) = view s) :
    view (l.foldl f s) = g (view s) := by
  induction l generalizing s with
  | nil => cases hx
  | cons y l ih =>
    obtain ⟨hy, hl⟩ := List.nodup_cons.mp hl
    rw [List.foldl_cons]
    rcases List.mem_cons.mp hx with rfl | hx
    · have hframe : view (l.foldl f (f s x)) = view (f s x) := by
        apply foldl_frame view
        intro s z hz
        exact hother s z (List.mem_cons_of_mem x hz) (ne_of_mem_of_not_mem hz hy)
      rw [hframe, hself]
    · have hyx : y ≠ x := (ne_of_mem_of_not_mem hx hy).symm
      rw [ih hl _ hx fun s z hz => hother s z (List.mem_cons_of_mem y hz),
        hother s y List.mem_cons_self hyx]

/-- A part that pass `x` alone sets has, after the loop, the value pass `x` gave it. -/
theorem foldl_written {l : List ι} {x : ι} {value : α} (s : σ) (hx : x ∈ l)
    (hself : ∀ s, view (f s x) = value)
    (hother : ∀ s, ∀ y ∈ l, y ≠ x → view (f s y) = view s) : view (l.foldl f s) = value := by
  induction l generalizing s with
  | nil => simp at hx
  | cons y l ih =>
    rw [List.foldl_cons]
    by_cases hl : x ∈ l
    · exact ih _ hl fun s z hz => hother s z (List.mem_cons_of_mem y hz)
    · obtain rfl : x = y := by simpa [hl] using hx
      have hframe : view (l.foldl f (f s x)) = view (f s x) := by
        apply foldl_frame view
        intro s z hz
        exact hother s z (List.mem_cons_of_mem x hz) (by rintro rfl; exact hl hz)
      rw [hframe, hself]

end Loops

theorem row_and_column {rows n x : ℕ} (h : x < rows * n) :
    x / n < rows ∧ x % n < n ∧ x / n * n + x % n = x := by
  have hn : 0 < n := Nat.pos_of_mul_pos_left (Nat.zero_lt_of_lt h)
  exact ⟨Nat.div_lt_of_lt_mul (by rwa [Nat.mul_comm]), Nat.mod_lt x hn, Nat.div_add_mod' x n⟩

theorem position_lt {i rows n j : ℕ} (hi : i < rows) (hj : j < n) : i * n + j < rows * n := by
  calc i * n + j < i * n + n := by omega
    _ = (i + 1) * n := by ring
    _ ≤ rows * n := Nat.mul_le_mul_right _ hi

/-- `D a[dim][dim]` by flat position; positions from `dim * dim` on do not exist. -/
structure Grid (D : Type*) (dim : ℕ) where
  cell : ℕ → D

namespace Grid

variable {D : Type*} {dim : ℕ}

def get (a : Grid D dim) (i j : ℕ) : D := a.cell (i * dim + j)

def set (a : Grid D dim) (i j : ℕ) (x : D) : Grid D dim :=
  ⟨Function.update a.cell (i * dim + j) x⟩

/-- The `count` cells from `&a[i][0]` on. -/
def slice (a : Grid D dim) (i count : ℕ) : List D :=
  (List.range count).map fun p => a.cell (i * dim + p)

def block (a : Grid D dim) (i count : ℕ) : Option (List D) :=
  if i * dim + count ≤ dim * dim then some (a.slice i count) else none

/-- The elements `xs` in place of the cells from `&a[i][0]` on. -/
def overwrite (a : Grid D dim) (i : ℕ) (xs : List D) : Grid D dim :=
  ⟨fun p => if i * dim ≤ p then xs.getD (p - i * dim) (a.cell p) else a.cell p⟩

def store (a : Grid D dim) (i : ℕ) (xs : List D) : Option (Grid D dim) :=
  if i * dim + xs.length ≤ dim * dim then some (a.overwrite i xs) else none

theorem position_injective {i j i' j' : ℕ} (hj : j < dim) (hj' : j' < dim)
    (h : i * dim + j = i' * dim + j') : i = i' ∧ j = j' := by
  have hd := congrArg (· / dim) h
  have hpos : 0 < dim := by omega
  simp only [Nat.add_comm _ j, Nat.add_comm _ j', Nat.add_mul_div_right _ _ hpos,
    Nat.div_eq_of_lt hj, Nat.div_eq_of_lt hj', Nat.zero_add] at hd
  subst hd
  exact ⟨rfl, by omega⟩

@[simp] theorem get_set_self (a : Grid D dim) (i j : ℕ) (x : D) : (a.set i j x).get i j = x := by
  simp [get, set]

theorem get_set_ne (a : Grid D dim) {i j i' j' : ℕ} (x : D) (hj : j < dim) (hj' : j' < dim)
    (h : ¬ (i' = i ∧ j' = j)) : (a.set i j x).get i' j' = a.get i' j' := by
  have hne : i' * dim + j' ≠ i * dim + j := fun he => h (position_injective hj' hj he)
  simp [get, set, hne]

theorem set_comm (a : Grid D dim) {i j i' j' : ℕ} (x y : D) (hj : j < dim) (hj' : j' < dim)
    (h : ¬ (i' = i ∧ j' = j)) : (a.set i j x).set i' j' y = (a.set i' j' y).set i j x := by
  have hne : i' * dim + j' ≠ i * dim + j := fun he => h (position_injective hj' hj he)
  rw [set, set, set, set, Function.update_comm hne.symm]

@[simp] theorem slice_length (a : Grid D dim) (i count : ℕ) : (a.slice i count).length = count := by
  simp [slice]

theorem block_eq_some {a : Grid D dim} {i count : ℕ} (h : i * dim + count ≤ dim * dim) :
    a.block i count = some (a.slice i count) := if_pos h

theorem store_eq_some {a : Grid D dim} {i : ℕ} {xs : List D}
    (h : i * dim + xs.length ≤ dim * dim) : a.store i xs = some (a.overwrite i xs) := if_pos h

@[simp] theorem overwrite_nil (a : Grid D dim) (i : ℕ) : a.overwrite i [] = a := by
  simp [overwrite]

/-- Cells in front of the target keep their value. -/
theorem overwrite_get_lt (a : Grid D dim) {i i' j : ℕ} (xs : List D) (hj : j < dim) (h : i' < i) :
    (a.overwrite i xs).get i' j = a.get i' j := by
  simp [overwrite, get, not_le.mpr (position_lt h hj)]

/-- Rows copied whole arrive as rows: row `i'` of the copy is row `i + i'` of the target. -/
theorem overwrite_slice_get (a b : Grid D dim) {i r rows i' j : ℕ} (hi : i' < rows) (hj : j < dim) :
    (a.overwrite i (b.slice r (rows * dim))).get (i + i') j = b.get (r + i') j := by
  have hle : i * dim ≤ (i + i') * dim + j := by rw [Nat.add_mul]; omega
  have hsub : (i + i') * dim + j - i * dim = i' * dim + j := by rw [Nat.add_mul]; omega
  have hlt := position_lt hi hj
  have hpos : r * dim + (i' * dim + j) = (r + i') * dim + j := by rw [Nat.add_mul]; omega
  simp [overwrite, get, slice, hle, hsub, hlt, hpos]

/-- Whole rows, counted with the declared row length, are never out of range. -/
theorem rows_fit {i rows n : ℕ} (hn : n ≤ dim) (h : i + rows ≤ dim) :
    i * dim + rows * n ≤ dim * dim := by
  calc i * dim + rows * n ≤ i * dim + rows * dim := by gcongr
    _ = (i + rows) * dim := by ring
    _ ≤ dim * dim := by gcongr

end Grid
end ParallelPrograms
