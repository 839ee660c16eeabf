import ParallelPrograms.EqualPairs
import ParallelPrograms.Quicksort.Locality

namespace ParallelPrograms.Quicksort

open Scheme Scheme.Correct

variable {α : Type*} [LinearOrder α]

section Bounds

variable {V : Type*} {scheme : Scheme α V} {price : Call V → ℕ} {s : Segment} {a b : Array α}
  {pivot : α} {index : ℤ}

/-- A call costs one comparison for every element but the pivot, and then what its two parts
do. -/
structure Compares (scheme : Scheme α V) (price : Call V → ℕ) : Prop where
  call : ∀ {s : Segment} {a : Array α}, s.Fits a → s.low < s.high → ∃ b pivot index,
    Rearranges s a b ∧ PartitionedAt s b pivot index ∧
      ∀ n, scheme.Work price b [⟨s, .fork index⟩] n →
        scheme.Work price a [⟨s, .enter⟩] ((s.high - s.low).toNat + n)
  enter : ∀ s, price ⟨s, .enter⟩ = 0
  fork : ∀ s index, price ⟨s, .fork index⟩ = 0

theorem PartitionedAt.contents_eq (h : PartitionedAt s b pivot index) : contents s b =
    contents ⟨s.low, index - 1⟩ b ++ pivot :: contents ⟨index + 1, s.high⟩ b := by
  obtain ⟨low, high⟩ := s
  have hmem := Segment.mem_mk.mp h.mem
  rw [contents_append b (show low ≤ index + 1 by omega) hmem.2, contents_concat hmem.1 h.pivot_mem,
    List.append_assoc, List.singleton_append]

theorem PartitionedAt.equalPairs_le (h : PartitionedAt s b pivot index) (hs : s.Fits b) :
    equalPairs (contents s b) ≤ (s.high - s.low).toNat +
      equalPairs (contents ⟨s.low, index - 1⟩ b) +
      equalPairs (contents ⟨index + 1, s.high⟩ b) := by
  have hmem := h.mem
  have hright : (Segment.mk (index + 1) s.high).Fits b :=
    ⟨by have := hs.1.trans hmem.1; simp only; omega, hs.2⟩
  have hlength := contents_length hright
  have hcount := List.count_le_length (a := pivot) (l := contents ⟨index + 1, s.high⟩ b)
  have hdisjoint : ∀ x ∈ contents ⟨s.low, index - 1⟩ b,
      x ∉ pivot :: contents ⟨index + 1, s.high⟩ b := by
    intro x hx hx'
    have hlt := h.lt_of_mem_contents x hx
    rcases List.mem_cons.mp hx' with rfl | hx'
    · exact lt_irrefl x hlt
    · exact (h.le_of_mem_contents x hx').not_gt hlt
  rw [h.contents_eq, equalPairs_append hdisjoint, equalPairs]
  have hlow := hmem.1
  simp only [Segment.length] at hlength
  omega

/-- A split costs the most when one of its parts is empty. -/
theorem choose_two_add (l r : ℕ) : l + r + l.choose 2 + r.choose 2 ≤ (l + r + 1).choose 2 := by
  induction l with
  | zero => rw [Nat.zero_add, Nat.choose_zero_succ, choose_two_succ, Nat.add_zero]
  | succ l ih =>
    rw [Nat.add_right_comm l 1 r, choose_two_succ, choose_two_succ]
    omega

theorem Compares.fork_cases (h : Compares scheme price) {k : ℕ}
    (hwork : scheme.Work price b [⟨s, .fork index⟩] k) :
    ∃ m m', scheme.Work price b [⟨⟨s.low, index - 1⟩, .enter⟩] m ∧
      scheme.Work price b [⟨⟨index + 1, s.high⟩, .enter⟩] m' ∧ k = m + m' := by
  obtain _ | ⟨hadvance, hparts, hnil⟩ := hwork
  obtain ⟨rfl, rfl⟩ := Prod.mk.inj (Option.some.inj hadvance)
  obtain ⟨m, m', hleft, hright, rfl⟩ := Work.split (l := [_]) hparts
  obtain rfl := hnil.unique .nil
  exact ⟨m, m', hleft, hright, by rw [h.fork, Nat.zero_add, Nat.add_zero]⟩

/-- A call for at most one position compares nothing. -/
theorem Compares.work_done (h : Compares scheme price) (hlt : ¬ s.low < s.high) {n : ℕ}
    (hwork : scheme.Work price a [⟨s, .enter⟩] n) : n = 0 := by
  obtain _ | ⟨hadvance, hparts, hnil⟩ := hwork
  rw [advance, if_neg hlt] at hadvance
  obtain ⟨rfl, rfl⟩ := Prod.mk.inj (Option.some.inj hadvance)
  obtain rfl := hparts.unique .nil
  obtain rfl := hnil.unique .nil
  rw [h.enter]

theorem Compares.work_parts (h : Compares scheme price) (correct : scheme.Correct) (hs : s.Fits a)
    (hlt : s.low < s.high) {n : ℕ} (hwork : scheme.Work price a [⟨s, .enter⟩] n) :
    ∃ b pivot index m m', Rearranges s a b ∧ PartitionedAt s b pivot index ∧
      scheme.Work price b [⟨⟨s.low, index - 1⟩, .enter⟩] m ∧
      scheme.Work price b [⟨⟨index + 1, s.high⟩, .enter⟩] m' ∧
      n = (s.high - s.low).toNat + m + m' := by
  obtain ⟨b, pivot, index, hrearr, hparted, hcall⟩ := h.call hs hlt
  obtain ⟨k, hk⟩ := exists_work price (fork_live correct (hrearr.fits hs) hparted.splits)
  obtain rfl := hwork.unique (hcall k hk)
  obtain ⟨m, m', hleft, hright, rfl⟩ := h.fork_cases hk
  exact ⟨b, pivot, index, m, m', hrearr, hparted, hleft, hright, (Nat.add_assoc _ m m').symm⟩

/-- Every pair of equal elements is compared, and no pair twice. -/
theorem Compares.bounds (h : Compares scheme price) (correct : scheme.Correct) (hs : s.Fits a)
    {n : ℕ} (hwork : scheme.Work price a [⟨s, .enter⟩] n) :
    equalPairs (contents s a) ≤ n ∧ n ≤ s.length.choose 2 := by
  obtain ⟨len, hlen⟩ : ∃ len, s.length = len := ⟨_, rfl⟩
  induction len using Nat.strong_induction_on generalizing s a n with
  | _ len ih =>
  by_cases hlt : ¬ s.low < s.high
  · obtain rfl := h.work_done hlt hwork
    have hlength := contents_length hs
    have hnone : equalPairs (contents s a) = 0 := by
      match contents s a, hlength with
      | [], _ => rfl
      | [x], _ => rfl
      | _ :: _ :: _, hlength =>
        simp only [List.length_cons, Segment.length] at hlength
        omega
    exact ⟨hnone.le, Nat.zero_le _⟩
  · obtain ⟨b, pivot, index, m, m', hrearr, hparted, hleft, hright, rfl⟩ :=
      h.work_parts correct hs (not_not.mp hlt) hwork
    obtain ⟨hmem_low, hmem_high⟩ := hparted.mem
    have hb := hrearr.fits hs
    have hfits : (Segment.mk s.low (index - 1)).Fits b ∧
        (Segment.mk (index + 1) s.high).Fits b := by
      have hb1 := hb.1
      have hb2 := hb.2
      refine ⟨⟨hb1, ?_⟩, ⟨?_, hb2⟩⟩
      all_goals
        simp only
        omega
    have hparts : s.length = (Segment.mk s.low (index - 1)).length +
        (Segment.mk (index + 1) s.high).length + 1 := by
      simp only [Segment.length]
      omega
    obtain ⟨hlow, hhigh⟩ := ih _ (by omega) hfits.1 hleft rfl
    obtain ⟨hlow', hhigh'⟩ := ih _ (by omega) hfits.2 hright rfl
    have hpairs := hparted.equalPairs_le hb
    rw [equalPairs_perm hrearr.contents_perm] at hpairs
    have hsplit := choose_two_add (Segment.mk s.low (index - 1)).length
      (Segment.mk (index + 1) s.high).length
    have hlength : s.length = (s.high - s.low).toNat + 1 := by
      simp only [Segment.length]
      omega
    rw [← hparts] at hsplit
    constructor <;> omega

/-- With few values there are many equal pairs to compare. -/
theorem Compares.forced (h : Compares scheme price) (correct : scheme.Correct) (hs : s.Fits a)
    {n : ℕ} (hwork : scheme.Work price a [⟨s, .enter⟩] n) {values : Finset α}
    (hvalues : ∀ x ∈ contents s a, x ∈ values) :
    s.length ^ 2 ≤ values.card * (2 * n + s.length) := by
  have hpairs := (h.bounds correct hs hwork).1
  have hforced := sq_length_le hvalues
  rw [contents_length hs] at hforced
  exact hforced.trans (Nat.mul_le_mul_left _ (by omega))

end Bounds

/-- `quicksort(array, low, high)` and how often it compares `array[j] < pivot`: once in each pass
of `partition`. -/
def quicksortCounted (s : Segment) (a : Array α) (low high : ℤ) : Option (Array α × ℕ) :=
  if hlt : low < high then
    match h : partition s a low high with
    | none => none
    | some (b, index) => do
      have := partition_index hlt h
      let left ← quicksortCounted s b low (index - 1)
      let right ← quicksortCounted s left.1 (index + 1) high
      return (right.1, (Segment.mk low (high - 1)).length + left.2 + right.2)
  else some (a, 0)
termination_by (high + 1 - low).toNat
decreasing_by all_goals omega

def compares (c : Call (Vars α)) : ℕ :=
  match c.stage with
  | .enter => 0
  | .loop v => if v.j ≤ c.range.high - 1 then 1 else 0
  | .fork _ => 0

variable {s t : Segment} {a b : Array α} {pivot : α} {i j index low high : ℤ} {n : ℕ}

theorem loop_work {w : Array α × ℤ}
    (hw : (Segment.mk j (s.high - 1)).positions.foldlM (partitionPass s pivot) (a, i) = some w)
    (hb : swapElements s w.1 (w.2 + 1) s.high = some b)
    (hn : partitionScheme.Work compares b [⟨s, .fork (w.2 + 1)⟩] n) :
    partitionScheme.Work compares a [⟨s, .loop ⟨pivot, i, j⟩⟩] ((s.high - j).toNat + n) := by
  -- induction on the passes that are left
  obtain ⟨passes, hpasses⟩ : ∃ passes, (s.high - j).toNat = passes := ⟨_, rfl⟩
  induction passes generalizing a i j with
  | zero =>
    have hj : ¬ j ≤ s.high - 1 := by omega
    rw [Segment.positions_nil (by omega)] at hw
    obtain rfl := Option.some.inj hw
    have hadvance : partitionScheme.advance a ⟨s, .loop ⟨pivot, i, j⟩⟩ =
        some (b, [⟨s, .fork (i + 1)⟩]) := by
      simp only [advance, partitionScheme, if_neg hj, hb]
      rfl
    have hwork := Work.single hadvance hn
    simpa only [compares, if_neg hj, Nat.zero_add, Nat.add_zero, hpasses] using hwork
  | succ passes ih =>
    have hj : j ≤ s.high - 1 := by omega
    rw [Segment.positions_cons hj, List.foldlM_cons, Option.bind_eq_bind,
      Option.bind_eq_some_iff] at hw
    obtain ⟨⟨c, i'⟩, hc, hw⟩ := hw
    have hadvance : partitionScheme.advance a ⟨s, .loop ⟨pivot, i, j⟩⟩ =
        some (c, [⟨s, .loop ⟨pivot, i', j + 1⟩⟩]) := by
      simp only [advance, partitionScheme, if_pos hj, hc]
      rfl
    have hwork := Work.single hadvance (ih hw (by omega))
    simp only [compares, if_pos hj] at hwork
    convert hwork using 1
    omega

theorem call_work (h : partition s a s.low s.high = some (b, index)) (hlt : s.low < s.high)
    (hn : partitionScheme.Work compares b [⟨s, .fork index⟩] n) :
    partitionScheme.Work compares a [⟨s, .enter⟩] ((s.high - s.low).toNat + n) := by
  simp only [partition, Option.bind_eq_bind, Option.bind_eq_some_iff, Option.pure_def,
    Option.some.injEq, Prod.mk.injEq] at h
  obtain ⟨pivot, hpivot, w, hw, c, hc, rfl, rfl⟩ := h
  have hadvance : partitionScheme.advance a ⟨s, .enter⟩ =
      some (a, [⟨s, .loop ⟨pivot, s.low - 1, s.low⟩⟩]) := by
    simp only [advance, partitionScheme, if_pos hlt, hpivot]
    rfl
  have hwork := Work.single hadvance (loop_work hw hc hn)
  simpa only [compares, Nat.zero_add, Nat.add_zero] using hwork

theorem partitionScheme_compares : Compares (partitionScheme : Scheme α (Vars α)) compares where
  call {s a} hs hlt := by
    obtain ⟨b, index, pivot, -, hcall, hrearr, hparted, -⟩ :=
      partition_spec (fun k hk => hk) hs hlt.le
    exact ⟨b, pivot, index, hrearr, hparted, fun n hn => call_work hcall hlt hn⟩
  enter _ := rfl
  fork _ _ := rfl

/-- On a strictly increasing segment every pivot is the greatest element. -/
theorem work_of_increasing (hs : s.Fits a) (h : (contents s a).Pairwise (· < ·))
    (hwork : partitionScheme.Work compares a [⟨s, .enter⟩] n) : n = s.length.choose 2 := by
  obtain ⟨len, hlen⟩ : ∃ len, s.length = len := ⟨_, rfl⟩
  induction len using Nat.strong_induction_on generalizing s a n with
  | _ len ih =>
  obtain ⟨low, high⟩ := s
  by_cases hlt : low < high
  · obtain ⟨b, m, pivot, hpivot, hcall, hrearr, hparted, hm, hcontents⟩ :=
      partition_spec (s := ⟨low, high⟩) (fun k hk => hk) hs hlt.le
    obtain ⟨k, hk⟩ := exists_work compares
      (fork_live partitionSchemeCorrect (hrearr.fits hs) hparted.splits)
    obtain rfl := hwork.unique (call_work hcall hlt hk)
    obtain ⟨left, right, hleft, hright, rfl⟩ := partitionScheme_compares.fork_cases hk
    rw [contents_concat hlt.le hpivot, List.pairwise_append] at h
    obtain ⟨hinit, -, hlast⟩ := h
    have hsmall : ∀ x ∈ contents ⟨low, high - 1⟩ a, decide (x < pivot) = true :=
      fun x hx => decide_eq_true (hlast x hx pivot List.mem_cons_self)
    have hfits : (Segment.mk low (high - 1)).Fits a := ⟨hs.1, (sub_one_lt high).trans hs.2⟩
    have hlength := contents_length hfits
    simp only [Segment.length] at hlength hlen
    simp only [List.countP_eq_length.mpr hsmall, hlength] at hm
    obtain rfl : m = high := by omega
    simp only [List.filter_eq_self.mpr hsmall] at hcontents
    have hb := hrearr.fits hs
    have hfitsb : (Segment.mk low (m - 1)).Fits b := ⟨hb.1, (sub_one_lt m).trans hb.2⟩
    have hleft' := ih (Segment.mk low (m - 1)).length (by simp only [Segment.length]; omega)
      hfitsb (hcontents ▸ hinit) hleft rfl
    have hright' : right = 0 := by
      refine partitionScheme_compares.work_done ?_ hright
      simp only
      omega
    have hone : (Segment.mk low m).length = (m - low).toNat + 1 := by
      simp only [Segment.length]
      omega
    rw [hleft', hright', hone, choose_two_succ]
    simp only [Segment.length, sub_add_cancel]
    omega
  · obtain rfl := partitionScheme_compares.work_done hlt hwork
    have hle : (Segment.mk low high).length ≤ 1 := by
      simp only [Segment.length]
      omega
    exact (Nat.choose_eq_zero_of_lt (by omega)).symm

/-- The two calls behind a `partition`, and what they return together. -/
theorem quicksort_step (hlt : low < high) (h : partition t a low high = some (b, index))
    {c d : Array α} {left right : ℕ}
    (hc : quicksortCounted t b low (index - 1) = some (c, left))
    (hd : quicksortCounted t c (index + 1) high = some (d, right))
    (hc' : quicksort t b low (index - 1) = some c)
    (hd' : quicksort t c (index + 1) high = some d) :
    quicksortCounted t a low high = some (d, (high - low).toNat + left + right) ∧
      quicksort t a low high = some d := by
  have hlength : (Segment.mk low (high - 1)).length = (high - low).toNat := by
    simp only [Segment.length]
    omega
  constructor
  · rw [quicksortCounted, dif_pos hlt]
    split
    · simp_all
    · next b' m' h' =>
      obtain ⟨rfl, rfl⟩ : b = b' ∧ index = m' := by simpa using h.symm.trans h'
      simp [hc, hd, hlength]
  · rw [quicksort, dif_pos hlt]
    split
    · simp_all
    · next b' m' h' =>
      obtain ⟨rfl, rfl⟩ : b = b' ∧ index = m' := by simpa using h.symm.trans h'
      simp [hc', hd']

theorem work_beside {u : Segment} (hb : u.Fits a) (hab : Rearranges s a b)
    (hbeside : ∀ k ∈ u, k ∉ s) (hwork : partitionScheme.Work compares a [⟨u, .enter⟩] n) :
    partitionScheme.Work compares b [⟨u, .enter⟩] n := by
  refine work_congr partitionScheme_local hwork (enter_live partitionSchemeCorrect hb) ?_ ?_
  · intro d hd
    obtain rfl := List.mem_singleton.mp hd
    exact hab.fits hb
  · intro d hd k hk
    obtain rfl := List.mem_singleton.mp hd
    exact hab.frame (hbeside k hk)

/-- A call that makes so many steps compares as often in the program. -/
theorem quicksortCounted_eq (hst : ∀ k ∈ Segment.mk low high, k ∈ t) (ht : t.Fits a)
    (hwork : partitionScheme.Work compares a [⟨⟨low, high⟩, .enter⟩] n) :
    ∃ b, quicksortCounted t a low high = some (b, n) ∧ quicksort t a low high = some b := by
  obtain ⟨len, hlen⟩ : ∃ len, (high + 1 - low).toNat = len := ⟨_, rfl⟩
  induction len using Nat.strong_induction_on generalizing a low high n with
  | _ len ih =>
  by_cases hlt : low < high
  · have hs : (Segment.mk low high).Fits a := by
      have hlow := hst low ⟨le_rfl, hlt.le⟩
      have hhigh := hst high ⟨hlt.le, le_rfl⟩
      exact ⟨ht.1.trans hlow.1, hhigh.2.trans_lt ht.2⟩
    obtain ⟨b, m, pivot, -, hcall, hrearr, hparted, -⟩ :=
      partition_spec (s := ⟨low, high⟩) (fun k hk => hk) hs hlt.le
    have hm := Segment.mem_mk.mp hparted.mem
    obtain ⟨k, hk⟩ := exists_work compares
      (fork_live partitionSchemeCorrect (hrearr.fits hs) hparted.splits)
    obtain rfl := hwork.unique (call_work hcall hlt hk)
    obtain ⟨left, right, hleft, hright, rfl⟩ := partitionScheme_compares.fork_cases hk
    have hsub : ∀ k ∈ Segment.mk low (m - 1), k ∈ t := by
      intro k hk
      apply hst
      rw [Segment.mem_mk] at hk ⊢
      omega
    have hsub' : ∀ k ∈ Segment.mk (m + 1) high, k ∈ t := by
      intro k hk
      apply hst
      rw [Segment.mem_mk] at hk ⊢
      omega
    have htb := (hrearr.mono hst).fits ht
    obtain ⟨c, hcounted, hc⟩ := ih _ (by omega) hsub htb hleft rfl
    obtain ⟨c', hc', hbc, -⟩ := quicksort_spec hsub htb
    obtain rfl := Option.some.inj (hc.symm.trans hc')
    -- the first call leaves the other part alone
    have hfits := (hbc.mono hsub).fits htb
    have hfitsb : (Segment.mk (m + 1) high).Fits b := by
      have hb := hrearr.fits hs
      exact ⟨hb.1.trans (by simp only; omega), hb.2⟩
    have hbeside : ∀ k ∈ Segment.mk (m + 1) high, k ∉ Segment.mk low (m - 1) := by
      intro k hk
      rw [Segment.mem_mk] at hk ⊢
      omega
    obtain ⟨d, hcounted', hd⟩ :=
      ih _ (by omega) hsub' hfits (work_beside hfitsb hbc hbeside hright) rfl
    obtain ⟨hall, hsorts⟩ :=
      quicksort_step hlt (partition_mono hst hcall) hcounted hcounted' hc hd
    exact ⟨d, by rw [hall, Nat.add_assoc], hsorts⟩
  · obtain rfl := partitionScheme_compares.work_done (s := ⟨low, high⟩) hlt hwork
    exact ⟨a, by rw [quicksortCounted, dif_neg hlt], by rw [quicksort, dif_neg hlt]⟩

/-- `quicksort(array, low, high)` compares at least every pair of equal elements and at most every
pair.  With few values among many elements the former are many, and on a strictly increasing
range it is all of them. -/
theorem quicksort_comparisons (a : Array α) (low high : ℤ) (hlow : 0 ≤ low)
    (hhigh : high < a.size) : ∃ b n, quicksortCounted ⟨low, high⟩ a low high = some (b, n) ∧
      quicksort ⟨low, high⟩ a low high = some b ∧
      equalPairs (contents ⟨low, high⟩ a) ≤ n ∧ n ≤ (Segment.mk low high).length.choose 2 ∧
      (∀ values : Finset α, (∀ x ∈ contents ⟨low, high⟩ a, x ∈ values) →
        (Segment.mk low high).length ^ 2 ≤
          values.card * (2 * n + (Segment.mk low high).length)) ∧
      ((contents ⟨low, high⟩ a).Pairwise (· < ·) →
        n = (Segment.mk low high).length.choose 2) := by
  have hs : (Segment.mk low high).Fits a := ⟨hlow, hhigh⟩
  obtain ⟨n, hn⟩ := exists_work compares (enter_live partitionSchemeCorrect hs)
  obtain ⟨b, hcounted, hb⟩ := quicksortCounted_eq (fun k hk => hk) hs hn
  obtain ⟨hpairs, hall⟩ := partitionScheme_compares.bounds partitionSchemeCorrect hs hn
  exact ⟨b, n, hcounted, hb, hpairs, hall,
    fun values => partitionScheme_compares.forced partitionSchemeCorrect hs hn,
    fun hincreasing => work_of_increasing hs hincreasing hn⟩

theorem quicksort_comparisons_three : ∃ b n,
    quicksortCounted ⟨0, 2⟩ #[(2 : ℤ), 2, 1] 0 2 = some (b, n) ∧ 1 ≤ n ∧ n ≤ 3 := by
  obtain ⟨b, n, hcounted, -, hpairs, hall, -⟩ :=
    quicksort_comparisons #[(2 : ℤ), 2, 1] 0 2 (by decide) (by decide)
  exact ⟨b, n, hcounted, hpairs, hall⟩

/-- Every schedule of `quicksort_parallel(array, low, high)` compares as often as `quicksort`
does: the sections share the comparisons out and add none. -/
theorem quicksort_parallel_comparisons (a : Array α) (low high : ℤ) (hlow : 0 ≤ low)
    (hhigh : high < a.size) {p : Pool α (Vars α)} {n : ℕ}
    (hrun : partitionScheme.Run compares (launch a ⟨low, high⟩) n p) (hdone : p.calls = []) :
    quicksortCounted ⟨low, high⟩ a low high = some (p.array, n) := by
  have hs : (Segment.mk low high).Fits a := ⟨hlow, hhigh⟩
  have hwork := work_launch partitionScheme_local partitionSchemeCorrect hs hrun hdone
  obtain ⟨b, hcounted, hb⟩ := quicksortCounted_eq (fun k hk => hk) hs hwork
  have hsound := (partitionSchemeCorrect.sound_launch hs).reach hrun.reach
  obtain ⟨c, hc, hac, hsorted⟩ := quicksort_spec (fun k hk => hk) hs
  obtain rfl := Option.some.inj (hb.symm.trans hc)
  rw [hcounted, hac.eq_of_sorted hs hsound.rearranges hsorted (hsound.sorted hdone)]

theorem quicksort_parallel_comparisons_two :
    ∃ b n, quicksortCounted ⟨0, 1⟩ #[(2 : ℤ), 1] 0 1 = some (b, n) := by
  have hs : (Segment.mk 0 1).Fits #[(2 : ℤ), 1] := ⟨by decide, by decide⟩
  obtain ⟨p, hreach, hdone⟩ := (partitionSchemeCorrect.sound_launch hs).exists_done
  obtain ⟨n, hrun⟩ := exists_run compares hreach
  exact ⟨p.array, n, quicksort_parallel_comparisons _ 0 1 (by decide) (by decide) hrun hdone⟩

/-- In every run of `quicksort_parallel` on `n` elements at most `n + 1` calls are live at a time
and at most `2 * n + 1` are made, however unlucky the pivots. -/
theorem quicksort_parallel_calls (a : Array α) (low high : ℤ) (hlow : 0 ≤ low)
    (hhigh : high < a.size) {p : Pool α (Vars α)} {n : ℕ}
    (hrun : partitionScheme.Run entered (launch a ⟨low, high⟩) n p) :
    p.calls.length ≤ (Segment.mk low high).length + 1 ∧
      n ≤ 2 * (Segment.mk low high).length + 1 :=
  calls_le partitionSchemeCorrect (s := ⟨low, high⟩) ⟨hlow, hhigh⟩ hrun

theorem quicksort_parallel_calls_two : ∃ p n,
    partitionScheme.Run entered (launch #[(2 : ℤ), 1] ⟨0, 1⟩) n p ∧ p.calls = [] ∧ n ≤ 5 := by
  have hs : (Segment.mk 0 1).Fits #[(2 : ℤ), 1] := ⟨by decide, by decide⟩
  obtain ⟨p, hreach, hdone⟩ := (partitionSchemeCorrect.sound_launch hs).exists_done
  obtain ⟨n, hrun⟩ := exists_run entered hreach
  exact ⟨p, n, hrun, hdone, (quicksort_parallel_calls _ 0 1 (by decide) (by decide) hrun).2⟩

/-- `array[i] = rand() % 100` for 100000 elements, whatever `rand` returns. -/
def mainArray (rand : ℕ → ℕ) : Array ℤ :=
  Array.ofFn fun i : Fin 100000 => ((rand i % 100 : ℕ) : ℤ)

theorem mainArray_size (rand : ℕ → ℕ) : (mainArray rand).size = 100000 := Array.size_ofFn

theorem getElem_mainArray (rand : ℕ → ℕ) {k : ℕ} (hk : k < (mainArray rand).size) :
    (mainArray rand)[k] = ((rand k % 100 : ℕ) : ℤ) := Array.getElem_ofFn _

theorem mainArray_values (rand : ℕ → ℕ) {s : Segment} {x : ℤ}
    (hx : x ∈ contents s (mainArray rand)) : x ∈ (Finset.range 100).image Int.ofNat := by
  obtain ⟨k, -, hk⟩ := mem_contents.mp hx
  rw [cell, Option.ite_none_right_eq_some, Array.getElem?_eq_some_iff] at hk
  obtain ⟨-, hlt, rfl⟩ := hk
  rw [getElem_mainArray]
  exact Finset.mem_image_of_mem _ (Finset.mem_range.mpr (Nat.mod_lt _ (by decide)))

/-- Only 100 values fill the arrays, so that about 50 million comparisons cannot be avoided,
and every schedule of `quicksort_parallel` makes as many as `quicksort`. -/
theorem main_comparisons (rand : ℕ → ℕ) : ∃ b n,
    quicksortCounted ⟨0, 100000 - 1⟩ (mainArray rand) 0 (100000 - 1) = some (b, n) ∧
      49950000 ≤ n ∧ n ≤ 4999950000 ∧
      ∀ p m, partitionScheme.Run compares (launch (mainArray rand) ⟨0, 100000 - 1⟩) m p →
        p.calls = [] → m = n := by
  have hs : (Segment.mk 0 (100000 - 1)).Fits (mainArray rand) := by
    rw [Segment.Fits, mainArray_size]
    norm_num
  have hlength : (Segment.mk 0 (100000 - 1)).length = 100000 := by
    simp only [Segment.length]
    omega
  obtain ⟨n, hn⟩ := exists_work compares (enter_live partitionSchemeCorrect hs)
  obtain ⟨b, hcounted, -⟩ := quicksortCounted_eq (fun k hk => hk) hs hn
  have hmost := (partitionScheme_compares.bounds partitionSchemeCorrect hs hn).2
  have hleast := partitionScheme_compares.forced partitionSchemeCorrect hs hn
    fun x => mainArray_values rand
  rw [hlength, Nat.choose_two_right] at hmost
  have hcard : ((Finset.range 100).image Int.ofNat).card ≤ 100 :=
    Finset.card_image_le.trans_eq (Finset.card_range 100)
  have hmany := hleast.trans (Nat.mul_le_mul_right _ hcard)
  rw [hlength] at hmany
  refine ⟨b, n, hcounted, by omega, hmost, fun p m hrun hdone => ?_⟩
  exact (work_launch partitionScheme_local partitionSchemeCorrect hs hrun hdone).unique hn

end ParallelPrograms.Quicksort
