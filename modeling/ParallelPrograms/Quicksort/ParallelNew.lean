import ParallelPrograms.Quicksort.Sequential

namespace ParallelPrograms.Quicksort.Qs

variable {α : Type*}

def swap (s : Segment) (nos : Array α) (i j : ℤ) : Option (Array α) := swapElements s nos i j

structure Vars (α : Type*) where
  key : α
  i : ℤ
  j : ℤ

variable [LinearOrder α]

def partitionPass (s : Segment) (key : α) (nos : Array α) (i j : ℤ) : Option (Array α × ℤ) := do
  let x ← read s nos i
  if x < key then
    let nos ← swap s nos i (j + 1)
    return (nos, j + 1)
  else return (nos, j)

/-- `qs::partition(l, h)` of `quicksort_parallel_new.cpp` one pass at a time -/
def partition : Scheme α (Vars α) where
  start s nos := (read s nos s.low).map fun key => ⟨key, s.low + 1, s.low⟩
  pass s nos v :=
    if v.i ≤ s.high then
      (partitionPass s v.key nos v.i v.j).map fun r => (r.1, .inl ⟨v.key, v.i + 1, r.2⟩)
    else (swap s nos v.j s.low).map fun nos => (nos, .inr v.j)

/-- `nos.size() - 1`, a `size_t`, as an `int`. -/
def lastIndex (size : ℕ) : ℤ := ((BitVec.ofNat 64 size - 1).setWidth 32).toInt

/-- The call of `sort(0, nos.size() - 1)` that `sort()` makes. -/
def sort (nos : Array α) : Pool α (Vars α) := launch nos ⟨0, lastIndex nos.size⟩

variable {s : Segment} {a b : Array α} {key : α} {i j : ℤ}

structure LoopInv (s : Segment) (a : Array α) (key : α) (i j : ℤ) : Prop where
  low_le : s.low ≤ j
  lt : j < i
  le_high : i ≤ s.high + 1
  key_mem : key ∈ cell a s.low
  small : ∀ k, s.low < k → k ≤ j → ∀ x ∈ cell a k, x < key
  large : ∀ k, j < k → k < i → ∀ x ∈ cell a k, key ≤ x

theorem loopInv_local (h : LoopInv s a key i j) (hcell : ∀ k ∈ s, cell b k = cell a k) :
    LoopInv s b key i j := by
  obtain ⟨hj, hlt, hhigh, hkey, hsmall, hlarge⟩ := h
  refine ⟨hj, hlt, hhigh, ?_, fun k hk hkj => ?_, fun k hk hki => ?_⟩
  · rwa [hcell s.low ⟨le_rfl, by omega⟩]
  · rw [hcell k ⟨hk.le, by omega⟩]
    exact hsmall k hk hkj
  · rw [hcell k ⟨by omega, by omega⟩]
    exact hlarge k hk hki

theorem partitionPass_spec (hs : s.Fits a) (h : LoopInv s a key i j) (hi : i ≤ s.high) :
    ∃ b j', partitionPass s key a i j = some (b, j') ∧ Rearranges s a b ∧
      LoopInv s b key (i + 1) j' ∧ ∀ original, Gathered (s.low + 1) original a key j i →
        Gathered (s.low + 1) original b key j' (i + 1) := by
  have hlow := h.low_le
  have hlt := h.lt
  have his : i ∈ s := ⟨by omega, hi⟩
  have hjs : j + 1 ∈ s := ⟨by omega, by omega⟩
  have hblocks : Blocks (s.low + 1) a key j i := ⟨fun k hk => h.small k (by omega), h.large⟩
  obtain ⟨x, hx⟩ := exists_cell hs his
  by_cases hxk : x < key
  · obtain ⟨b, hb, hsize, hcell⟩ := swapElements_spec hs his hjs
    have hcell' : ∀ k, cell b k = cell a (Equiv.swap (j + 1) i k) := by
      intro k
      rw [Equiv.swap_comm]
      exact hcell k
    have hkey : key ∈ cell b s.low := by
      rw [hcell, Equiv.swap_apply_of_ne_of_ne (by omega) (by omega)]
      exact h.key_mem
    -- the smaller element goes to the end of its part
    have hnext := hblocks.gather hlt hx hxk hcell'
    exact ⟨b, j + 1, by simp [partitionPass, read_eq, his, hx, hxk, swap, hb],
      swap_rearranges his hjs hsize hcell,
      ⟨by omega, by omega, by omega, hkey, fun k hk => hnext.small k (by omega), hnext.large⟩,
      fun original hg => hg.gather (by omega) hlt hx hxk hcell'⟩
  · have hnext := hblocks.keep hx (not_lt.mp hxk)
    exact ⟨a, j, by simp [partitionPass, read_eq, his, hx, hxk], .refl s a,
      ⟨hlow, by omega, by omega, h.key_mem, fun k hk => hnext.small k (by omega), hnext.large⟩,
      fun original hg => hg.keep (by omega) hx (not_lt.mp hxk)⟩

theorem finalSwap_spec (hs : s.Fits a) (h : LoopInv s a key (s.high + 1) j) :
    ∃ b, swap s a j s.low = some b ∧ Rearranges s a b ∧ PartitionedAt s b key j := by
  have hlow := h.low_le
  have hlt := h.lt
  have hjs : j ∈ s := ⟨hlow, by omega⟩
  have hls : s.low ∈ s := ⟨le_rfl, by omega⟩
  obtain ⟨b, hb, hsize, hcell⟩ := swapElements_spec hs hjs hls
  refine ⟨b, hb, swap_rearranges hjs hls hsize hcell, hjs, ?_, ?_, ?_⟩
  · rw [hcell, Equiv.swap_apply_left]
    exact h.key_mem
  · intro k hk hkj x hx
    by_cases hk' : k = s.low
    · rw [hk', hcell, Equiv.swap_apply_right] at hx
      exact h.small j (by omega) le_rfl x hx
    · have hkl := hk.1
      rw [hcell, Equiv.swap_apply_of_ne_of_ne (by omega) hk'] at hx
      exact h.small k (by omega) (by omega) x hx
  · intro k hk hjk x hx
    have hkh := hk.2
    rw [hcell, Equiv.swap_apply_of_ne_of_ne (by omega) (by omega)] at hx
    exact h.large k hjk (by omega) x hx

def passesLeft (s : Segment) (v : Vars α) : ℕ := (s.high + 1 - v.i).toNat

theorem partition_start (hs : s.Fits a) (hle : s.low ≤ s.high) : ∃ v,
    partition.start s a = some v ∧ LoopInv s a v.key v.i v.j ∧ passesLeft s v < s.length ∧
      v.key ∈ cell a s.low ∧ Gathered (s.low + 1) a a v.key v.j v.i := by
  have hls : s.low ∈ s := ⟨le_rfl, hle⟩
  obtain ⟨key, hkey⟩ := exists_cell hs hls
  have hstart : partition.start s a = some ⟨key, s.low + 1, s.low⟩ := by
    show (read s a s.low).map _ = _
    rw [read_eq a hls, hkey]
    rfl
  have hgathered := Gathered.start (s.low + 1) a key
  rw [add_sub_cancel_right] at hgathered
  refine ⟨_, hstart, ⟨le_rfl, by simp, by simp only; omega, hkey, ?_, ?_⟩, ?_, hkey, hgathered⟩
  · intro k hk hkj
    simp only at hkj
    omega
  · intro k hk hki
    simp only at hk hki
    omega
  · simp only [passesLeft, Segment.length]
    omega

theorem partition_pass {v : Vars α} (hs : s.Fits a) (h : LoopInv s a v.key v.i v.j) :
    ∃ b r, partition.pass s a v = some (b, r) ∧ Rearranges s a b ∧
      ((∃ w, r = .inl w ∧ LoopInv s b w.key w.i w.j ∧ passesLeft s w < passesLeft s v ∧
        w.key = v.key ∧ ∀ original, Gathered (s.low + 1) original a v.key v.j v.i →
          Gathered (s.low + 1) original b w.key w.j w.i) ∨
        ∃ index, r = .inr index ∧ PartitionedAt s b v.key index ∧
          ∀ original, Gathered (s.low + 1) original a v.key v.j v.i →
            index = s.low + (contents ⟨s.low + 1, s.high⟩ original).countP (· < v.key)) := by
  by_cases hi : v.i ≤ s.high
  · obtain ⟨b, j', hpass, hrearr, hinv, hgather⟩ := partitionPass_spec hs h hi
    have hnext : partition.pass s a v = some (b, .inl ⟨v.key, v.i + 1, j'⟩) := by
      show (if v.i ≤ s.high then _ else _) = _
      rw [if_pos hi, hpass]
      rfl
    refine ⟨b, .inl ⟨v.key, v.i + 1, j'⟩, hnext, hrearr, .inl ⟨_, rfl, hinv, ?_, rfl, hgather⟩⟩
    simp only [passesLeft]
    omega
  · have hend : v.i = s.high + 1 := le_antisymm h.le_high (by omega)
    obtain ⟨b, hswap, hrearr, hparted⟩ := finalSwap_spec hs (hend ▸ h)
    have hlast : partition.pass s a v = some (b, .inr v.j) := by
      show (if v.i ≤ s.high then _ else _) = _
      rw [if_neg hi, hswap]
      rfl
    refine ⟨b, .inr v.j, hlast, hrearr, .inr ⟨_, rfl, hparted, fun original hg => ?_⟩⟩
    have hfits : (Segment.mk (s.low + 1) v.j).Fits a := by
      have hlow := hs.1
      have hhigh := hs.2
      have hlt := h.lt
      constructor
      all_goals
        simp only
        omega
    have hindex := hg.index_eq hfits (by have := h.low_le; omega)
    rw [hend, add_sub_cancel_right] at hindex
    omega

def partitionCorrect : (partition : Scheme α (Vars α)).Correct where
  Inv s a v := LoopInv s a v.key v.i v.j
  remaining := passesLeft
  inv_local := loopInv_local
  start_spec hs hlt := by
    obtain ⟨v, hv, hinv, hpasses, -⟩ := partition_start hs hlt.le
    exact ⟨v, hv, hinv, hpasses⟩
  pass_spec hs h := by
    obtain ⟨b, r, hpass, hrearr, ⟨w, hw, hinv, hpasses, -⟩ | ⟨index, hindex, hparted, -⟩⟩ :=
      partition_pass hs h
    · exact ⟨b, r, hpass, hrearr, .inl ⟨w, hw, hinv, hpasses⟩⟩
    · exact ⟨b, r, hpass, hrearr, .inr ⟨index, hindex, hparted.splits⟩⟩

theorem finish_spec {original : Array α} {v : Vars α} {passes : ℕ} (hs : s.Fits a)
    (h : LoopInv s a v.key v.i v.j) (hg : Gathered (s.low + 1) original a v.key v.j v.i)
    (hpasses : passesLeft s v < passes) :
    ∃ b j, partition.finish s passes a v = some (b, j) ∧ Rearranges s a b ∧
      PartitionedAt s b v.key j ∧
      j = s.low + (contents ⟨s.low + 1, s.high⟩ original).countP (· < v.key) := by
  induction passes generalizing a v with
  | zero => omega
  | succ passes ih =>
    obtain ⟨b, r, hpass, hrearr, hnext⟩ := partition_pass hs h
    rw [Scheme.finish, hpass, Option.bind_some]
    rcases hnext with ⟨w, rfl, hinv, hless, hkey, hgather⟩ | ⟨j, rfl, hparted, hindex⟩
    · obtain ⟨c, j, hfinish, hrearr', hparted, hindex⟩ :=
        ih (hrearr.fits hs) hinv (hgather original hg) (by omega)
      rw [hkey] at hparted hindex
      exact ⟨c, j, hfinish, hrearr.trans hrearr', hparted, hindex⟩
    · exact ⟨b, j, rfl, hrearr, hparted, hindex original hg⟩

/-- A call of `qs::partition` returns after one pass for each position, the last one with the
trailing swap, and the index it returns counts the smaller elements. -/
theorem call_spec (hs : s.Fits a) (hle : s.low ≤ s.high) : ∃ b j, ∃ key ∈ cell a s.low,
    (∀ passes ≥ s.length, partition.call s passes a = some (b, j)) ∧ Rearranges s a b ∧
      PartitionedAt s b key j ∧
      j = s.low + (contents ⟨s.low + 1, s.high⟩ a).countP (· < key) := by
  obtain ⟨v, hv, hinv, hpasses, hkey, hg⟩ := partition_start hs hle
  obtain ⟨b, j, hfinish, hrearr, hparted, hindex⟩ := finish_spec hs hinv hg hpasses
  refine ⟨b, j, v.key, hkey, fun passes hmore => ?_, hrearr, hparted, hindex⟩
  rw [Scheme.call, hv, Option.bind_some]
  exact Scheme.finish_mono hfinish hmore

/-- Both routines return the position that the pivot has in the sorted range, with the smaller
elements in front of it and the others behind; `partition` keeps the order of the smaller ones. -/
theorem partition_contracts :
    (∀ (array : Array α) (low high : ℤ), 0 ≤ low → low ≤ high → high < array.size →
      ∃ b p, ∃ pivot ∈ cell array high,
        Quicksort.partition ⟨low, high⟩ array low high = some (b, p) ∧
        p = low + (contents ⟨low, high - 1⟩ array).countP (· < pivot) ∧
        contents ⟨low, p - 1⟩ b = (contents ⟨low, high - 1⟩ array).filter (· < pivot) ∧
        cell b p = some pivot ∧ (∀ x ∈ contents ⟨p + 1, high⟩ b, pivot ≤ x) ∧
        (contents ⟨low, high⟩ b).Perm (contents ⟨low, high⟩ array) ∧ b.size = array.size ∧
        ∀ k ∉ Segment.mk low high, cell b k = cell array k) ∧
    ∀ (nos : Array α) (l h : ℤ), 0 ≤ l → l ≤ h → h < nos.size →
      ∃ b j, ∃ key ∈ cell nos l,
        (∀ passes ≥ (Segment.mk l h).length, partition.call ⟨l, h⟩ passes nos = some (b, j)) ∧
        j = l + (contents ⟨l + 1, h⟩ nos).countP (· < key) ∧
        (∀ x ∈ contents ⟨l, j - 1⟩ b, x < key) ∧ cell b j = some key ∧
        (∀ x ∈ contents ⟨j + 1, h⟩ b, key ≤ x) ∧
        (contents ⟨l, h⟩ b).Perm (contents ⟨l, h⟩ nos) ∧ b.size = nos.size ∧
        ∀ k ∉ Segment.mk l h, cell b k = cell nos k := by
  constructor
  · intro array low high h0 hle hsize
    obtain ⟨b, p, pivot, hpivot, hcall, hrearr, hparted, hindex, hblock⟩ :=
      partition_spec (s := ⟨low, high⟩) (fun k hk => hk) ⟨h0, hsize⟩ hle
    exact ⟨b, p, pivot, hpivot, hcall, hindex, hblock, hparted.pivot_mem,
      hparted.le_of_mem_contents, hrearr.contents_perm, hrearr.size_eq, fun k hk => hrearr.frame hk⟩
  · intro nos l h h0 hle hsize
    obtain ⟨b, j, key, hkey, hcall, hrearr, hparted, hindex⟩ :=
      call_spec (s := ⟨l, h⟩) ⟨h0, hsize⟩ hle
    exact ⟨b, j, key, hkey, hcall, hindex, hparted.lt_of_mem_contents, hparted.pivot_mem,
      hparted.le_of_mem_contents, hrearr.contents_perm, hrearr.size_eq, fun k hk => hrearr.frame hk⟩

theorem partition_contracts_four : ∃ b p, ∃ pivot ∈ cell #[(3 : ℤ), 1, 0, 2] 3,
    Quicksort.partition ⟨0, 3⟩ #[(3 : ℤ), 1, 0, 2] 0 3 = some (b, p) ∧
      p = 0 + (contents ⟨0, 2⟩ #[(3 : ℤ), 1, 0, 2]).countP (· < pivot) := by
  obtain ⟨b, p, pivot, hpivot, hcall, hindex, -⟩ :=
    partition_contracts.1 #[(3 : ℤ), 1, 0, 2] 0 3 (by decide) (by decide) (by decide)
  exact ⟨b, p, pivot, hpivot, hcall, hindex⟩

theorem lastIndex_toNat (size : ℕ) : ((BitVec.ofNat 64 size - 1).setWidth 32).toNat =
    (2 ^ 64 - 1 + size % 2 ^ 64) % 2 ^ 32 := by
  have hone : (1 : BitVec 64).toNat = 1 := rfl
  rw [BitVec.toNat_setWidth, BitVec.toNat_sub, BitVec.toNat_ofNat, hone]
  omega

theorem lastIndex_lt (size : ℕ) : lastIndex size < size := by
  rw [lastIndex, BitVec.toInt_eq_toNat_cond, lastIndex_toNat]
  split_ifs <;> omega

theorem lastIndex_eq {size : ℕ} (h : size ≤ 2 ^ 31) : lastIndex size = size - 1 := by
  rw [lastIndex, BitVec.toInt_eq_toNat_cond, lastIndex_toNat]
  split_ifs <;> omega

/-- Under every schedule of its sections `sort()` comes to an end, and then the vector holds
what `quicksort(array, 0, n - 1)` leaves in an array with the same contents. -/
theorem sort_agrees (nos : Array α) :
    (¬ ∃ run : ℕ → Pool α (Vars α), run 0 = sort nos ∧
      ∀ n, partition.Step (run n) (run (n + 1))) ∧
    (∀ p, Relation.ReflTransGen partition.Step (sort nos) p →
      (p.calls = [] ∨ ∃ q, partition.Step p q) ∧
      (p.calls = [] → quicksort ⟨0, lastIndex nos.size⟩ nos 0 (lastIndex nos.size) =
        some p.array)) ∧
    (nos.size ≤ 2 ^ 31 → lastIndex nos.size = nos.size - 1) := by
  have hfits : (Segment.mk 0 (lastIndex nos.size)).Fits nos := ⟨le_rfl, lastIndex_lt nos.size⟩
  have hstart := partitionCorrect.sound_launch hfits
  refine ⟨hstart.no_infinite_run, fun p hp => ?_, lastIndex_eq⟩
  have hsound := hstart.reach hp
  refine ⟨hsound.progress, fun hdone => ?_⟩
  -- both have sorted the same range of the same array
  obtain ⟨b, hb, hab, hsorted⟩ := quicksort_spec (fun k hk => hk) hfits
  rw [hb, hab.eq_of_sorted hfits hsound.rearranges hsorted (hsound.sorted hdone)]

theorem sort_agrees_two : ∃ q, partition.Step (sort #[(2 : ℤ), 1]) q := by
  have h := ((sort_agrees #[(2 : ℤ), 1]).2.1 _ .refl).1
  exact h.resolve_left (by simp [sort, launch])

end ParallelPrograms.Quicksort.Qs
