import Mathlib.Algebra.Group.End
import Mathlib.Data.List.Sort
import Mathlib.Order.Basic

namespace ParallelPrograms

/-- The positions `low, .., high`; none when `high < low`.  They are integers, as the programs
compute with `low - 1`. -/
@[ext]
structure Segment where
  low : ℤ
  high : ℤ

namespace Segment

instance : Membership ℤ Segment where
  mem s i := s.low ≤ i ∧ i ≤ s.high

theorem mem_iff {s : Segment} {i : ℤ} : i ∈ s ↔ s.low ≤ i ∧ i ≤ s.high := Iff.rfl

@[simp] theorem mem_mk {low high i : ℤ} : i ∈ Segment.mk low high ↔ low ≤ i ∧ i ≤ high := Iff.rfl

instance (s : Segment) (i : ℤ) : Decidable (i ∈ s) := decidable_of_iff _ mem_iff.symm

def Disjoint (s t : Segment) : Prop := ∀ i, i ∈ s → i ∉ t

theorem Disjoint.symm {s t : Segment} (h : s.Disjoint t) : t.Disjoint s :=
  fun i ht hs => h i hs ht

def length (s : Segment) : ℕ := (s.high + 1 - s.low).toNat

def positions (s : Segment) : List ℤ := (List.range s.length).map fun k : ℕ => s.low + k

theorem mem_positions {s : Segment} {i : ℤ} : i ∈ s.positions ↔ i ∈ s := by
  simp only [positions, length, List.mem_map, List.mem_range, mem_iff]
  constructor
  · rintro ⟨k, hk, rfl⟩
    omega
  · intro h
    exact ⟨(i - s.low).toNat, by omega, by omega⟩

theorem positions_pairwise (s : Segment) : s.positions.Pairwise (· < ·) := by
  refine List.Pairwise.map _ ?_ List.pairwise_lt_range
  intro a b hab
  omega

theorem positions_cons {low high : ℤ} (h : low ≤ high) :
    (Segment.mk low high).positions = low :: (Segment.mk (low + 1) high).positions := by
  have hlength : (Segment.mk low high).length = (Segment.mk (low + 1) high).length + 1 := by
    simp only [length]
    omega
  rw [positions, hlength, List.range_succ_eq_map, List.map_cons, List.map_map, positions]
  refine congrArg₂ List.cons (by simp) (List.map_congr_left fun k _ => ?_)
  simp only [Function.comp_apply]
  omega

theorem positions_nil {low high : ℤ} (h : high < low) : (Segment.mk low high).positions = [] := by
  have hlength : (Segment.mk low high).length = 0 := by
    simp only [length]
    omega
  simp [positions, hlength]

theorem positions_concat {low high : ℤ} (h : low ≤ high) :
    (Segment.mk low high).positions = (Segment.mk low (high - 1)).positions ++ [high] := by
  have hlength : (Segment.mk low high).length = (Segment.mk low (high - 1)).length + 1 := by
    simp only [length]
    omega
  rw [positions, hlength, List.range_succ, List.map_append, positions, List.map_singleton]
  congr 2
  simp only [length]
  omega

theorem positions_append {low mid high : ℤ} (hlow : low ≤ mid + 1) (hhigh : mid ≤ high) :
    (Segment.mk low high).positions =
      (Segment.mk low mid).positions ++ (Segment.mk (mid + 1) high).positions := by
  obtain ⟨n, hn⟩ : ∃ n, (high - mid).toNat = n := ⟨_, rfl⟩
  induction n generalizing high with
  | zero =>
    obtain rfl : mid = high := by omega
    rw [positions_nil (show mid < mid + 1 by omega), List.append_nil]
  | succ n ih =>
    rw [positions_concat (show low ≤ high by omega), ih (by omega) (by omega),
      positions_concat (show mid + 1 ≤ high by omega), List.append_assoc]

end Segment

variable {α : Type*}

def cell (a : Array α) (i : ℤ) : Option α := if 0 ≤ i then a[i.toNat]? else none

/-- Reading `a[i]` by code that is given the segment `s`: there is no result outside it. -/
def read (s : Segment) (a : Array α) (i : ℤ) : Option α := if i ∈ s then cell a i else none

def write (s : Segment) (a : Array α) (i : ℤ) (x : α) : Option (Array α) :=
  if i ∈ s ∧ 0 ≤ i ∧ i < a.size then some (a.setIfInBounds i.toNat x) else none

def Segment.Fits (s : Segment) (a : Array α) : Prop := 0 ≤ s.low ∧ s.high < a.size

theorem cell_eq_none {a : Array α} {i : ℤ} : cell a i = none ↔ i < 0 ∨ (a.size : ℤ) ≤ i := by
  unfold cell
  split_ifs with h
  · rw [Array.getElem?_eq_none_iff]
    omega
  · simp only [true_iff]
    omega

theorem exists_cell {s : Segment} {a : Array α} (hs : s.Fits a) {i : ℤ} (hi : i ∈ s) :
    ∃ x, cell a i = some x := by
  rw [← Option.isSome_iff_exists, Option.isSome_iff_ne_none, ne_eq, cell_eq_none]
  have := Segment.mem_iff.mp hi
  have := hs
  unfold Segment.Fits at this
  omega

theorem read_eq {s : Segment} (a : Array α) {i : ℤ} (hi : i ∈ s) : read s a i = cell a i :=
  if_pos hi

theorem write_eq {s : Segment} {a : Array α} (hs : s.Fits a) {i : ℤ} (hi : i ∈ s) (x : α) :
    write s a i x = some (a.setIfInBounds i.toNat x) :=
  if_pos ⟨hi, hs.1.trans hi.1, hi.2.trans_lt hs.2⟩

theorem cell_set {a : Array α} {i : ℤ} (h0 : 0 ≤ i) (h : i < a.size) (x : α) (k : ℤ) :
    cell (a.setIfInBounds i.toNat x) k = if k = i then some x else cell a k := by
  unfold cell
  by_cases hk : 0 ≤ k
  · simp only [hk, if_true, Array.getElem?_setIfInBounds]
    by_cases hki : k = i
    · subst hki
      have hlt : k.toNat < a.size := by omega
      simp [hlt]
    · have hne : i.toNat ≠ k.toNat := by omega
      simp [hki, hne]
  · have hki : k ≠ i := by omega
    simp [hk, hki]

theorem ext_cell {a b : Array α} (h : ∀ i, cell a i = cell b i) : a = b := by
  apply Array.ext_getElem?
  intro i
  simpa [cell] using h i

section Elsewhere

variable {s t : Segment} {a b c : Array α} {i : ℤ} {x : α}

theorem read_mono (hst : ∀ k ∈ s, k ∈ t) (h : read s a i = some x) : read t a i = some x := by
  rw [read, Option.ite_none_right_eq_some] at h
  exact (read_eq a (hst i h.1)).trans h.2

theorem write_mono (hst : ∀ k ∈ s, k ∈ t) (h : write s a i x = some c) :
    write t a i x = some c := by
  rw [write, Option.ite_none_right_eq_some] at h
  exact (if_pos ⟨hst i h.1.1, h.1.2⟩).trans h.2

theorem read_congr (h : ∀ k ∈ s, cell b k = cell a k) (i : ℤ) : read s b i = read s a i := by
  by_cases hi : i ∈ s
  · rw [read_eq b hi, read_eq a hi, h i hi]
  · rw [read, read, if_neg hi, if_neg hi]

theorem write_congr (hb : s.Fits b) (h : ∀ k ∈ s, cell b k = cell a k)
    (hwrite : write s a i x = some c) :
    ∃ d, write s b i x = some d ∧ s.Fits d ∧ ∀ k ∈ s, cell d k = cell c k := by
  rw [write, Option.ite_none_right_eq_some] at hwrite
  obtain ⟨⟨his, hi0, hi⟩, hc⟩ := hwrite
  obtain rfl := Option.some.inj hc
  have hi' : i < b.size := his.2.trans_lt hb.2
  refine ⟨_, write_eq hb his x, ?_, fun k hk => ?_⟩
  · exact ⟨hb.1, by rw [Array.size_setIfInBounds]; exact hb.2⟩
  · rw [cell_set hi0 hi', cell_set hi0 hi, h k hk]

end Elsewhere

/-- `b` has the elements of `a`, moved about inside the segment only. -/
def Rearranges (s : Segment) (a b : Array α) : Prop :=
  b.size = a.size ∧ ∃ σ : Equiv.Perm ℤ, (∀ i ∉ s, σ i = i) ∧ ∀ i, cell b i = cell a (σ i)

namespace Rearranges

variable {s t : Segment} {a b c : Array α}

theorem refl (s : Segment) (a : Array α) : Rearranges s a a :=
  ⟨rfl, 1, fun _ _ => rfl, fun _ => rfl⟩

theorem trans (hab : Rearranges s a b) (hbc : Rearranges s b c) : Rearranges s a c := by
  obtain ⟨hb, σ, hσ, hcell⟩ := hab
  obtain ⟨hc, τ, hτ, hcell'⟩ := hbc
  refine ⟨hc.trans hb, σ * τ, fun i hi => ?_, fun i => ?_⟩
  · rw [Equiv.Perm.mul_apply, hτ i hi, hσ i hi]
  · rw [hcell', hcell, Equiv.Perm.mul_apply]

theorem mono (h : Rearranges s a b) (hst : ∀ i ∈ s, i ∈ t) : Rearranges t a b := by
  obtain ⟨hb, σ, hσ, hcell⟩ := h
  exact ⟨hb, σ, fun i hi => hσ i fun his => hi (hst i his), hcell⟩

theorem size_eq (h : Rearranges s a b) : b.size = a.size := h.1

theorem fits (h : Rearranges s a b) (ht : t.Fits a) : t.Fits b := by
  unfold Segment.Fits
  rw [h.size_eq]
  exact ht

theorem frame (h : Rearranges s a b) {i : ℤ} (hi : i ∉ s) : cell b i = cell a i := by
  obtain ⟨-, σ, hσ, hcell⟩ := h
  rw [hcell, hσ i hi]

theorem source (h : Rearranges s a b) : ∃ σ : Equiv.Perm ℤ, (∀ i, σ i ∈ s ↔ i ∈ s) ∧
    (∀ i ∉ s, σ i = i) ∧ ∀ i, cell b i = cell a (σ i) := by
  obtain ⟨-, σ, hσ, hcell⟩ := h
  refine ⟨σ, fun i => ⟨fun h => ?_, fun h => ?_⟩, hσ, hcell⟩
  · by_contra hi
    rw [hσ i hi] at h
    exact hi h
  · by_contra hi
    have hfix := σ.injective (hσ _ hi)
    rw [hfix] at hi
    exact hi h

/-- Two positions that are not both in the segment keep their order. -/
theorem lt_of_lt {σ : Equiv.Perm ℤ} (hmem : ∀ i, σ i ∈ s ↔ i ∈ s) (hfix : ∀ i ∉ s, σ i = i)
    {i j : ℤ} (hij : i < j) (h : i ∉ s ∨ j ∉ s) : σ i < σ j := by
  by_cases hi : i ∈ s
  · have hj : j ∉ s := h.resolve_left (not_not_intro hi)
    have hσi := Segment.mem_iff.mp ((hmem i).mpr hi)
    rw [hfix j hj]
    rw [Segment.mem_iff] at hi hj
    omega
  · rw [hfix i hi]
    by_cases hj : j ∈ s
    · have hσj := Segment.mem_iff.mp ((hmem j).mpr hj)
      rw [Segment.mem_iff] at hi hj
      omega
    · rwa [hfix j hj]

theorem forall_mem (h : Rearranges s a b) {P : α → Prop} (ha : ∀ k ∈ s, ∀ x ∈ cell a k, P x) :
    ∀ k ∈ s, ∀ x ∈ cell b k, P x := by
  obtain ⟨σ, hmem, -, hcell⟩ := h.source
  intro k hk x hx
  rw [hcell] at hx
  exact ha _ ((hmem k).mpr hk) x hx

end Rearranges

def contents (s : Segment) (a : Array α) : List α := s.positions.filterMap (cell a)

theorem Rearranges.contents_perm {s : Segment} {a b : Array α} (h : Rearranges s a b) :
    (contents s b).Perm (contents s a) := by
  obtain ⟨σ, hmem, -, hcell⟩ := h.source
  have hb : contents s b = (s.positions.map σ).filterMap (cell a) := by
    rw [List.filterMap_map]
    apply List.filterMap_congr
    intro i _
    exact hcell i
  -- `σ` maps the positions of the segment to themselves
  have hnodup : s.positions.Nodup := s.positions_pairwise.imp fun h => ne_of_lt h
  have hσ : (s.positions.map σ).Perm s.positions := by
    rw [List.perm_ext_iff_of_nodup (hnodup.map σ.injective) hnodup]
    intro i
    rw [List.mem_map, Segment.mem_positions]
    constructor
    · rintro ⟨k, hk, rfl⟩
      exact (hmem k).mpr (Segment.mem_positions.mp hk)
    · intro hi
      refine ⟨σ.symm i, Segment.mem_positions.mpr ?_, σ.apply_symm_apply i⟩
      rwa [← hmem, σ.apply_symm_apply]
  rw [hb]
  exact hσ.filterMap _

theorem contents_nil (a : Array α) {low high : ℤ} (h : high < low) :
    contents ⟨low, high⟩ a = [] := by
  rw [contents, Segment.positions_nil h, List.filterMap_nil]

theorem contents_concat {a : Array α} {low high : ℤ} (h : low ≤ high) {x : α}
    (hx : cell a high = some x) : contents ⟨low, high⟩ a = contents ⟨low, high - 1⟩ a ++ [x] := by
  rw [contents, Segment.positions_concat h, List.filterMap_append, List.filterMap_cons_some hx,
    List.filterMap_nil, contents]

theorem contents_append (a : Array α) {low mid high : ℤ} (hlow : low ≤ mid + 1)
    (hhigh : mid ≤ high) :
    contents ⟨low, high⟩ a = contents ⟨low, mid⟩ a ++ contents ⟨mid + 1, high⟩ a := by
  rw [contents, Segment.positions_append hlow hhigh, List.filterMap_append, contents, contents]

theorem contents_congr {s : Segment} {a b : Array α} (h : ∀ k ∈ s, cell b k = cell a k) :
    contents s b = contents s a :=
  List.filterMap_congr fun k hk => h k (Segment.mem_positions.mp hk)

theorem mem_contents {s : Segment} {a : Array α} {x : α} :
    x ∈ contents s a ↔ ∃ k ∈ s, cell a k = some x := by
  simp only [contents, List.mem_filterMap, Segment.mem_positions]

theorem contents_length {s : Segment} {a : Array α} (hs : s.Fits a) :
    (contents s a).length = s.length := by
  have hall : ∀ k ∈ s.positions, (cell a k).isSome := by
    intro k hk
    obtain ⟨x, hx⟩ := exists_cell hs (Segment.mem_positions.mp hk)
    rw [hx, Option.isSome_some]
  rw [contents, List.length_filterMap_eq_countP, List.countP_eq_length.mpr hall,
    Segment.positions, List.length_map, List.length_range]

theorem cell_eq_of_contents_eq {s : Segment} {a b : Array α} (ha : s.Fits a) (hb : s.Fits b)
    (h : contents s a = contents s b) : ∀ i ∈ s, cell a i = cell b i := by
  have hlist : ∀ l : List ℤ, (∀ i ∈ l, i ∈ s) → l.filterMap (cell a) = l.filterMap (cell b) →
      ∀ i ∈ l, cell a i = cell b i := by
    intro l hl heq
    induction l with
    | nil => simp
    | cons k l ih =>
      obtain ⟨x, hx⟩ := exists_cell ha (hl k List.mem_cons_self)
      obtain ⟨y, hy⟩ := exists_cell hb (hl k List.mem_cons_self)
      rw [List.filterMap_cons_some hx, List.filterMap_cons_some hy, List.cons.injEq] at heq
      intro i hi
      rcases List.mem_cons.mp hi with rfl | hi
      · rw [hx, hy, heq.1]
      · exact ih (fun i hi => hl i (List.mem_cons_of_mem k hi)) heq.2 i hi
  intro i hi
  exact hlist s.positions (fun k hk => Segment.mem_positions.mp hk) h i
    (Segment.mem_positions.mpr hi)

def whole (a : Array α) : Segment := ⟨0, a.size - 1⟩

theorem whole_fits (a : Array α) : (whole a).Fits a := ⟨le_rfl, Int.sub_one_lt_of_le le_rfl⟩

theorem contents_whole (a : Array α) : contents (whole a) a = a.toList := by
  have hlist : ∀ l : List α, (List.range l.length).filterMap (fun k => l[k]?) = l := by
    intro l
    induction l with
    | nil => rfl
    | cons x l ih =>
      have hhead : (x :: l)[0]? = some x := rfl
      rw [List.length_cons, List.range_succ_eq_map, List.filterMap_cons_some hhead,
        List.filterMap_map]
      exact congrArg (x :: ·) ih
  have hlength : (whole a).length = a.toList.length := by simp [Segment.length, whole]
  rw [contents, Segment.positions, List.filterMap_map, hlength]
  refine Eq.trans (List.filterMap_congr fun k _ => ?_) (hlist a.toList)
  simp [cell, whole]

section Order

variable [LinearOrder α] {s : Segment} {a b c : Array α}

def InOrder (a : Array α) (i j : ℤ) : Prop := ∀ x ∈ cell a i, ∀ y ∈ cell a j, x ≤ y

def Sorted (s : Segment) (a : Array α) : Prop := ∀ i ∈ s, ∀ j ∈ s, i < j → InOrder a i j

/-- Position `m` holds an element with nothing greater on its left in the segment and
nothing smaller on its right. -/
def Splits (s : Segment) (a : Array α) (m : ℤ) : Prop :=
  m ∈ s ∧ ∃ pivot ∈ cell a m, (∀ k ∈ s, k < m → ∀ x ∈ cell a k, x ≤ pivot) ∧
    ∀ k ∈ s, m < k → ∀ x ∈ cell a k, pivot ≤ x

theorem Sorted.pairwise (h : Sorted s a) : (contents s a).Pairwise (· ≤ ·) := by
  rw [contents, List.pairwise_filterMap]
  apply s.positions_pairwise.imp_of_mem
  intro i j hi hj hij
  exact h i (Segment.mem_positions.mp hi) j (Segment.mem_positions.mp hj) hij

theorem Splits.inOrder {m : ℤ} (h : Splits s a m) {i j : ℤ} (hi : i ∈ s) (hj : j ∈ s)
    (him : i ≤ m) (hmj : m ≤ j) (hij : i < j) : InOrder a i j := by
  obtain ⟨-, pivot, hpivot, hleft, hright⟩ := h
  intro x hx y hy
  rcases him.lt_or_eq with hlt | rfl
  · have hxp := hleft i hi hlt x hx
    rcases hmj.lt_or_eq with hgt | rfl
    · exact hxp.trans (hright j hj hgt y hy)
    · obtain rfl : pivot = y := Option.mem_unique hpivot hy
      exact hxp
  · obtain rfl : pivot = x := Option.mem_unique hpivot hx
    exact hright j hj hij y hy

/-- A split survives what happens on one of its sides. -/
theorem Splits.rearranges {t : Segment} {m : ℤ} (h : Splits s a m) (hr : Rearranges t a b)
    (ht : (∀ i ∈ t, i ∈ s ∧ i < m) ∨ ∀ i ∈ t, i ∈ s ∧ m < i) : Splits s b m := by
  obtain ⟨hm, pivot, hpivot, hleft, hright⟩ := h
  have hmt : m ∉ t := by
    intro hmt
    rcases ht with ht | ht
    · exact lt_irrefl m (ht m hmt).2
    · exact lt_irrefl m (ht m hmt).2
  refine ⟨hm, pivot, by rwa [hr.frame hmt], fun k hk hkm => ?_, fun k hk hmk => ?_⟩
  · by_cases hkt : k ∈ t
    · rcases ht with ht | ht
      · exact hr.forall_mem (fun i hi => hleft i (ht i hi).1 (ht i hi).2) k hkt
      · exact absurd (ht k hkt).2 hkm.not_gt
    · rw [hr.frame hkt]
      exact hleft k hk hkm
  · by_cases hkt : k ∈ t
    · rcases ht with ht | ht
      · exact absurd (ht k hkt).2 hmk.not_gt
      · exact hr.forall_mem (fun i hi => hright i (ht i hi).1 (ht i hi).2) k hkt
    · rw [hr.frame hkt]
      exact hright k hk hmk

/-- There is only one way to put a segment in order. -/
theorem Rearranges.eq_of_sorted (hs : s.Fits a) (hb : Rearranges s a b) (hc : Rearranges s a c)
    (hbs : Sorted s b) (hcs : Sorted s c) : b = c := by
  have hcontents : contents s b = contents s c :=
    (hb.contents_perm.trans hc.contents_perm.symm).eq_of_pairwise
      (fun x y _ _ => le_antisymm) hbs.pairwise hcs.pairwise
  apply ext_cell
  intro i
  by_cases hi : i ∈ s
  · exact cell_eq_of_contents_eq (hb.fits hs) (hc.fits hs) hcontents i hi
  · rw [hb.frame hi, hc.frame hi]

end Order

end ParallelPrograms
