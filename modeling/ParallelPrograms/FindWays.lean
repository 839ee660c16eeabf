import Mathlib.Algebra.BigOperators.Group.List.Basic
import Mathlib.Algebra.Order.Group.Int
import Mathlib.Algebra.Order.BigOperators.Group.List
import Mathlib.Algebra.Ring.Int.Defs
import Mathlib.Data.Int.Range
import ParallelPrograms.Enumeration
import ParallelPrograms.StdVector

namespace ParallelPrograms.FindWays

structure State where
  arr : List ℤ
  printed : List (List ℤ)
  deriving DecidableEq

/-- `printVector(arr)`: a line with the elements in turn, unless there is exactly one. -/
def printVector (s : State) : State :=
  if s.arr.length ≠ 1 then
    { s with printed := s.printed ++
        [(List.range s.arr.length).foldl (fun line i => line ++ s.arr[i]?.toList) []] }
  else s

def append (s : State) (j : ℤ) : State := { s with arr := s.arr ++ [j] }

/-- `del arr[-1]`, which fails for an empty list. -/
def delLast (s : State) : Option State :=
  if s.arr = [] then none else some { s with arr := s.arr.dropLast }

/-- `findWays(arr, i, n)` of `python_rec.py` with at most so many calls on the stack: there is no
result when they do not suffice. -/
def findWays : ℕ → ℤ → ℤ → State → Option State
  | 0, _, _, _ => none
  | depth + 1, i, n, s =>
    (Int.range i (n + 1)).foldlM (fun s j =>
      if j > 3 then some s
      else do
        let s ← findWays depth j (n - j) (append s j)
        delLast s) (if n = 0 then printVector s else s)

def ways : ℕ → ℤ → ℤ → List (List ℤ)
  | 0, _, _ => []
  | depth + 1, i, n => (if n = 0 then [[]] else []) ++
      ((Int.range i (n + 1)).filter (· ≤ 3)).flatMap fun j =>
        (ways depth j (n - j)).map (j :: ·)

def lines (arr : List ℤ) (ls : List (List ℤ)) : List (List ℤ) :=
  (ls.map (arr ++ ·)).filter fun l => l.length ≠ 1

theorem lines_append (arr : List ℤ) (ls ls' : List (List ℤ)) :
    lines arr (ls ++ ls') = lines arr ls ++ lines arr ls' := by
  rw [lines, List.map_append, List.filter_append]
  rfl

theorem lines_map_cons (arr : List ℤ) (j : ℤ) (ls : List (List ℤ)) :
    lines arr (ls.map (j :: ·)) = lines (arr ++ [j]) ls := by
  rw [lines, lines, List.map_map]
  congr 2
  funext l
  rw [Function.comp_apply, List.append_assoc, List.singleton_append]

theorem printVector_eq (s : State) :
    printVector s = { s with printed := s.printed ++ lines s.arr [[]] } := by
  have hloop : (List.range s.arr.length).foldl (fun line i => line ++ s.arr[i]?.toList) [] =
      s.arr := by
    rw [foldl_range_eq (g := fun line x => line ++ [x]), foldl_push fun x => x]
    · simp
    · intro line i hi
      rw [List.getElem?_eq_getElem hi]
      rfl
  rw [printVector, hloop]
  by_cases hlen : s.arr.length = 1
  · simp [lines, hlen]
  · simp [lines, hlen]

theorem delLast_append (s : State) (j : ℤ) (printed : List (List ℤ)) :
    delLast { append s j with printed := printed } = some { s with printed := printed } := by
  simp [delLast, append]

/-- A call prints its lines and leaves `arr` as it was; `n + 1` calls on the stack are enough. -/
theorem findWays_eq {depth : ℕ} {i n : ℤ} (hi : 1 ≤ i) (hn : 0 ≤ n) (hdepth : n < depth)
    (s : State) : findWays depth i n s =
      some { s with printed := s.printed ++ lines s.arr (ways depth i n) } := by
  induction depth generalizing i n s with
  | zero => omega
  | succ depth ih =>
    have hstart : (if n = 0 then printVector s else s) =
        { s with printed := s.printed ++ lines s.arr (if n = 0 then [[]] else []) } := by
      split_ifs
      · exact printVector_eq s
      · simp [lines]
    -- the loop from any of its passes on
    have hloop : ∀ (js : List ℤ) (printed : List (List ℤ)), (∀ j ∈ js, i ≤ j ∧ j ≤ n) →
        js.foldlM (fun s j => if j > 3 then some s else do
          let s ← findWays depth j (n - j) (append s j)
          delLast s) ({ s with printed := printed } : State) =
        some { s with printed := printed ++ lines s.arr ((js.filter (· ≤ 3)).flatMap fun j =>
          (ways depth j (n - j)).map (j :: ·)) } := by
      intro js
      induction js with
      | nil => simp [lines]
      | cons j js ihjs =>
        intro printed hjs
        obtain ⟨hij, hjn⟩ := hjs j List.mem_cons_self
        have hrest := fun printed => ihjs printed fun j hj => hjs j (List.mem_cons_of_mem _ hj)
        rw [List.foldlM_cons]
        by_cases hj : j > 3
        · rw [if_pos hj, List.filter_cons_of_neg (by simpa using hj)]
          exact hrest printed
        · have hcall := ih (i := j) (n := n - j) (by omega) (by omega) (by omega)
            (append { s with printed := printed } j)
          rw [if_neg hj, hcall, List.filter_cons_of_pos (by simpa using hj), List.flatMap_cons,
            lines_append, lines_map_cons, ← List.append_assoc]
          simp only [Option.bind_eq_bind, Option.bind_some, delLast_append]
          exact hrest _
    rw [findWays, hstart, hloop, ways, lines_append, List.append_assoc]
    intro j hj
    have hrange := Int.mem_range_iff.mp hj
    omega

structure IsWay (i n : ℤ) (l : List ℤ) : Prop where
  nondecreasing : l.Pairwise (· ≤ ·)
  part_mem : ∀ x ∈ l, i ≤ x ∧ x ≤ 3
  sum_eq : l.sum = n

variable {i n : ℤ} {l : List ℤ}

theorem IsWay.length_le (h : IsWay i n l) (hi : 1 ≤ i) : (l.length : ℤ) ≤ n := by
  have hsum := List.card_nsmul_le_sum l 1 fun x hx => hi.trans (h.part_mem x hx).1
  simpa [h.sum_eq] using hsum

theorem isWay_zero (hi : 1 ≤ i) : IsWay i 0 l ↔ l = [] := by
  constructor
  · intro h
    have hlen := h.length_le hi
    exact List.length_eq_zero_iff.mp (by omega)
  · rintro rfl
    exact ⟨List.Pairwise.nil, by simp, rfl⟩

theorem isWay_cons {j : ℤ} {t : List ℤ} :
    IsWay i n (j :: t) ↔ (i ≤ j ∧ j ≤ 3) ∧ IsWay j (n - j) t := by
  constructor
  · rintro ⟨hpairwise, hpart, hsum⟩
    obtain ⟨hj, ht⟩ := List.pairwise_cons.mp hpairwise
    rw [List.sum_cons] at hsum
    exact ⟨hpart j List.mem_cons_self, ht,
      fun x hx => ⟨hj x hx, (hpart x (List.mem_cons_of_mem j hx)).2⟩, by omega⟩
  · rintro ⟨⟨hij, hj⟩, ht, hpart, hsum⟩
    refine ⟨List.pairwise_cons.mpr ⟨fun x hx => (hpart x hx).1, ht⟩, fun x hx => ?_, ?_⟩
    · rcases List.mem_cons.mp hx with rfl | hx
      · exact ⟨hij, hj⟩
      · exact ⟨hij.trans (hpart x hx).1, (hpart x hx).2⟩
    · rw [List.sum_cons, hsum]
      omega

theorem pairwise_range (m n : ℤ) : (Int.range m n).Pairwise (· < ·) := by
  rw [Int.range, List.pairwise_map]
  exact List.pairwise_lt_range.imp fun h => by omega

/-- The search finds the ways in lexicographic order. -/
theorem ways_enumerates {depth : ℕ} (hi : 1 ≤ i) (hn : 0 ≤ n) (hdepth : n < depth) :
    Enumerates (ways depth i n) (IsWay i n) := by
  induction depth generalizing i n with
  | zero => omega
  | succ depth ih =>
    rcases hn.eq_or_lt with rfl | hpos
    · -- no number is left to try
      have hnone : Int.range i (0 + 1) = [] := by
        rw [List.eq_nil_iff_forall_not_mem]
        intro j hj
        have hrange := Int.mem_range_iff.mp hj
        omega
      rw [ways, hnone, if_pos rfl]
      exact (Enumerates.singleton []).congr fun l => (isWay_zero hi).symm
    · rw [ways, if_neg hpos.ne', List.nil_append]
      have hstep : ∀ j ∈ (Int.range i (n + 1)).filter (· ≤ 3),
          Enumerates (ways depth j (n - j)) (IsWay j (n - j)) := by
        intro j hj
        have hrange := Int.mem_range_iff.mp (List.mem_filter.mp hj).1
        exact ih (by omega) (by omega) (by omega)
      apply (Enumerates.flatMap_cons ((pairwise_range i (n + 1)).filter _) hstep).congr
      intro l
      constructor
      · rintro ⟨j, hj, t, rfl, ht⟩
        obtain ⟨hj, hthree⟩ := List.mem_filter.mp hj
        have hrange := Int.mem_range_iff.mp hj
        exact isWay_cons.mpr ⟨⟨hrange.1, of_decide_eq_true hthree⟩, ht⟩
      · intro h
        cases l with
        | nil =>
          have hsum : (0 : ℤ) = n := h.sum_eq
          omega
        | cons j t =>
          obtain ⟨⟨hij, hj⟩, ht⟩ := isWay_cons.mp h
          -- the rest has no negative sum
          have hlen := ht.length_le (hi.trans hij)
          exact ⟨j, List.mem_filter.mpr ⟨Int.mem_range_iff.mpr (by omega), decide_eq_true hj⟩, t,
            rfl, ht⟩

/-- `findWays(arr, i, n)` prints `arr` with every way behind it, once each and in lexicographic
order, apart from lists of length one, and leaves `arr` as it was.  So `findWays([], 1, n)` prints
the ways with two or more parts. -/
theorem findWays_enumerates :
    (∀ (i n : ℤ), 1 ≤ i → 0 ≤ n → ∃ L, Enumerates L (IsWay i n) ∧
      ∀ (arr : List ℤ) (printed : List (List ℤ)) (depth : ℕ), n < depth →
        findWays depth i n ⟨arr, printed⟩ =
          some ⟨arr, printed ++ (L.map (arr ++ ·)).filter fun l => l.length ≠ 1⟩) ∧
    ∀ n : ℤ, 1 ≤ n → ∃ L, Enumerates L (fun l => IsWay 1 n l ∧ 2 ≤ l.length) ∧
      ∀ depth : ℕ, n < depth → findWays depth 1 n ⟨[], []⟩ = some ⟨[], L⟩ := by
  have hgeneral : ∀ (i n : ℤ), 1 ≤ i → 0 ≤ n → ∃ L, Enumerates L (IsWay i n) ∧
      ∀ (arr : List ℤ) (printed : List (List ℤ)) (depth : ℕ), n < depth →
        findWays depth i n ⟨arr, printed⟩ = some ⟨arr, printed ++ lines arr L⟩ := by
    intro i n hi hn
    have hways : Enumerates (ways (n.toNat + 1) i n) (IsWay i n) :=
      ways_enumerates hi hn (by omega)
    refine ⟨_, hways, fun arr printed depth hdepth => ?_⟩
    rw [hways.unique (ways_enumerates hi hn hdepth)]
    exact findWays_eq hi hn hdepth ⟨arr, printed⟩
  refine ⟨hgeneral, fun n hn => ?_⟩
  obtain ⟨L, hL, hrun⟩ := hgeneral 1 n le_rfl (by omega)
  have hlines : lines [] L = L.filter fun l => l.length ≠ 1 := by
    rw [lines]
    simp
  refine ⟨lines [] L, ?_, fun depth hdepth => hrun [] [] depth hdepth⟩
  rw [hlines]
  apply (hL.filter fun l => l.length ≠ 1).congr
  intro l
  refine and_congr_right fun h => ?_
  -- the empty list has no positive sum
  have hne : l.length ≠ 0 := by
    intro hzero
    rw [List.length_eq_zero_iff.mp hzero] at h
    have hsum : (0 : ℤ) = n := h.sum_eq
    omega
  omega

theorem findWays_enumerates_four : ∃ L, Enumerates L (fun l => IsWay 1 4 l ∧ 2 ≤ l.length) ∧
    findWays 5 1 4 ⟨[], []⟩ = some ⟨[], L⟩ := by
  obtain ⟨L, hL, hrun⟩ := findWays_enumerates.2 4 (by decide)
  exact ⟨L, hL, hrun 5 (by decide)⟩

example : findWays 5 1 4 ⟨[], []⟩ = some ⟨[], [[1, 1, 1, 1], [1, 1, 2], [1, 3], [2, 2]]⟩ := by
  decide

end ParallelPrograms.FindWays
