import Mathlib.Logic.Relation
import Mathlib.Tactic.Linarith
import ParallelPrograms.Confluence
import ParallelPrograms.Segment

namespace ParallelPrograms

/-- A partition routine: its variables after the start, and one pass, which either goes on
with new variables or returns the index. -/
structure Scheme (α V : Type*) where
  start : Segment → Array α → Option V
  pass : Segment → Array α → V → Option (Array α × (V ⊕ ℤ))

def Scheme.finish {α V : Type*} (scheme : Scheme α V) (s : Segment) :
    ℕ → Array α → V → Option (Array α × ℤ)
  | 0, _, _ => none
  | passes + 1, a, v => (scheme.pass s a v).bind fun r =>
    match r.2 with
    | .inl v => scheme.finish s passes r.1 v
    | .inr index => some (r.1, index)

theorem Scheme.finish_mono {α V : Type*} {scheme : Scheme α V} {s : Segment} {a : Array α} {v : V}
    {r : Array α × ℤ} {n m : ℕ} (h : scheme.finish s n a v = some r) (hnm : n ≤ m) :
    scheme.finish s m a v = some r := by
  induction n generalizing m a v with
  | zero => exact absurd h (by simp [finish])
  | succ n ih =>
    obtain ⟨m, rfl⟩ : ∃ k, m = k + 1 := ⟨m - 1, by omega⟩
    rw [finish, Option.bind_eq_some_iff] at h ⊢
    obtain ⟨⟨b, w | index⟩, hpass, hrest⟩ := h
    · exact ⟨_, hpass, ih hrest (by omega)⟩
    · exact ⟨_, hpass, hrest⟩

def Scheme.call {α V : Type*} (scheme : Scheme α V) (s : Segment) (passes : ℕ) (a : Array α) :
    Option (Array α × ℤ) :=
  (scheme.start s a).bind (scheme.finish s passes a)

inductive Stage (V : Type*) where
  | enter
  | loop (vars : V)
  | fork (index : ℤ)

structure Call (V : Type*) where
  range : Segment
  stage : Stage V

structure Pool (α V : Type*) where
  array : Array α
  calls : List (Call V)

variable {α V : Type*}

/-- The next step of a call on its own: the array after it and the calls that replace it.
There is none if the step would leave the segment of the call. -/
def Scheme.advance (scheme : Scheme α V) (a : Array α) (c : Call V) :
    Option (Array α × List (Call V)) :=
  match c.stage with
  | .enter =>
    if c.range.low < c.range.high then
      (scheme.start c.range a).map fun v => (a, [⟨c.range, .loop v⟩])
    else some (a, [])
  | .loop v => (scheme.pass c.range a v).map fun r =>
    match r.2 with
    | .inl v => (r.1, [⟨c.range, .loop v⟩])
    | .inr index => (r.1, [⟨c.range, .fork index⟩])
  | .fork index =>
    some (a, [⟨⟨c.range.low, index - 1⟩, .enter⟩, ⟨⟨index + 1, c.range.high⟩, .enter⟩])

inductive Scheme.Step (scheme : Scheme α V) : Pool α V → Pool α V → Prop
  | mk {a b front c back forked} : scheme.advance a c = some (b, forked) →
      Step scheme ⟨a, front ++ c :: back⟩ ⟨b, front ++ forked ++ back⟩

def launch (a : Array α) (s : Segment) : Pool α V := ⟨a, [⟨s, .enter⟩]⟩

variable [LinearOrder α]

/-- What a partition routine guarantees: a loop invariant that only looks at the own
segment, and a bound on the passes to come. -/
structure Scheme.Correct (scheme : Scheme α V) where
  Inv : Segment → Array α → V → Prop
  remaining : Segment → V → ℕ
  inv_local : ∀ {s a b v}, Inv s a v → (∀ k ∈ s, cell b k = cell a k) → Inv s b v
  start_spec : ∀ {s : Segment} {a}, s.Fits a → s.low < s.high →
    ∃ v, scheme.start s a = some v ∧ Inv s a v ∧ remaining s v < s.length
  pass_spec : ∀ {s : Segment} {a v}, s.Fits a → Inv s a v → ∃ b r,
    scheme.pass s a v = some (b, r) ∧ Rearranges s a b ∧
      ((∃ w, r = .inl w ∧ Inv s b w ∧ remaining s w < remaining s v) ∨
        ∃ index, r = .inr index ∧ Splits s b index)

namespace Scheme.Correct

variable {scheme : Scheme α V} (correct : scheme.Correct)

def StageOk (a : Array α) (c : Call V) : Prop :=
  match c.stage with
  | .enter => True
  | .loop v => correct.Inv c.range a v
  | .fork index => Splits c.range a index

def weight (c : Call V) : ℕ :=
  match c.stage with
  | .enter => (c.range.length + 1) ^ 2
  | .loop v => c.range.length ^ 2 + 3 + correct.remaining c.range v
  | .fork _ => c.range.length ^ 2 + 2

theorem stageOk_local {a b : Array α} {c : Call V} (h : correct.StageOk a c)
    (hcell : ∀ k ∈ c.range, cell b k = cell a k) : correct.StageOk b c := by
  obtain ⟨s, stage⟩ := c
  cases stage with
  | enter => trivial
  | loop v => exact correct.inv_local h hcell
  | fork index =>
    obtain ⟨hindex, pivot, hpivot, hleft, hright⟩ := h
    refine ⟨hindex, pivot, ?_, fun k hk => ?_, fun k hk => ?_⟩
    · rwa [hcell index hindex]
    · rw [hcell k hk]
      exact hleft k hk
    · rw [hcell k hk]
      exact hright k hk

structure Advanced (a : Array α) (c : Call V) (b : Array α) (forked : List (Call V)) : Prop where
  rearranges : Rearranges c.range a b
  inside : ∀ d ∈ forked, c.range.low ≤ d.range.low ∧ d.range.high ≤ c.range.high
  stageOk : ∀ d ∈ forked, correct.StageOk b d
  disjoint : forked.Pairwise fun d e => d.range.Disjoint e.range
  ordered : ∀ i ∈ c.range, ∀ j ∈ c.range, i < j →
    InOrder b i j ∨ ∃ d ∈ forked, i ∈ d.range ∧ j ∈ d.range
  lighter : (forked.map correct.weight).sum < correct.weight c

/-- A step that keeps the segment of the call together. -/
theorem advanced_same {a b : Array α} {s : Segment} {stage stage' : Stage V}
    (hrearr : Rearranges s a b) (hok : correct.StageOk b ⟨s, stage'⟩)
    (hweight : correct.weight ⟨s, stage'⟩ < correct.weight ⟨s, stage⟩) :
    correct.Advanced a ⟨s, stage⟩ b [⟨s, stage'⟩] where
  rearranges := hrearr
  inside d hd := by
    obtain rfl := List.mem_singleton.mp hd
    exact ⟨le_rfl, le_rfl⟩
  stageOk d hd := by
    obtain rfl := List.mem_singleton.mp hd
    exact hok
  disjoint := List.pairwise_singleton _ _
  ordered i hi j hj _ := .inr ⟨_, List.mem_singleton_self _, hi, hj⟩
  lighter := by simpa using hweight

theorem advanced_done {a : Array α} {s : Segment} (h : ¬ s.low < s.high) :
    correct.Advanced a ⟨s, .enter⟩ a [] where
  rearranges := .refl s a
  inside := by simp
  stageOk := by simp
  disjoint := .nil
  ordered i hi j hj hij := by
    simp only [Segment.mem_iff] at hi hj
    omega
  lighter := by simp [weight]

/-- The two parts beside a split do not meet, and what they separate is in order. -/
theorem advanced_fork {a : Array α} {s : Segment} {index : ℤ} (h : Splits s a index) :
    correct.Advanced a ⟨s, .fork index⟩ a
      [⟨⟨s.low, index - 1⟩, .enter⟩, ⟨⟨index + 1, s.high⟩, .enter⟩] where
  rearranges := .refl s a
  inside d hd := by
    have hindex := Segment.mem_iff.mp h.1
    simp only [List.mem_cons, List.not_mem_nil, or_false] at hd
    rcases hd with rfl | rfl
    · exact ⟨le_rfl, by simp only; omega⟩
    · exact ⟨by simp only; omega, le_rfl⟩
  stageOk d hd := by
    simp only [List.mem_cons, List.not_mem_nil, or_false] at hd
    rcases hd with rfl | rfl <;> trivial
  disjoint := by
    refine List.pairwise_pair.mpr fun i hi hi' => ?_
    simp only [Segment.mem_iff] at hi hi'
    omega
  ordered i hi j hj hij := by
    simp only [List.exists_mem_cons_iff, Segment.mem_iff] at hi hj ⊢
    by_cases hleft : j < index
    · exact .inr (.inl ⟨by omega, by omega⟩)
    · by_cases hright : index < i
      · exact .inr (.inr (.inl ⟨by omega, by omega⟩))
      · exact .inl (h.inOrder hi hj (by omega) (by omega) hij)
  lighter := by
    have hindex := Segment.mem_iff.mp h.1
    obtain ⟨m, n, hm, hn, hs⟩ : ∃ m n, (⟨s.low, index - 1⟩ : Segment).length = m ∧
        (⟨index + 1, s.high⟩ : Segment).length = n ∧ s.length = m + n + 1 := by
      refine ⟨_, _, rfl, rfl, ?_⟩
      simp only [Segment.length]
      omega
    simp only [List.map_cons, List.map_nil, List.sum_cons, List.sum_nil, weight, hm, hn, hs]
    nlinarith

/-- A call whose segment lies in the array always has a next step. -/
theorem advance_spec {a : Array α} {c : Call V} (hfits : c.range.Fits a)
    (hok : correct.StageOk a c) :
    ∃ b forked, scheme.advance a c = some (b, forked) ∧ correct.Advanced a c b forked := by
  obtain ⟨s, stage⟩ := c
  cases stage with
  | enter =>
    by_cases hlt : s.low < s.high
    · obtain ⟨v, hv, hinv, hrem⟩ := correct.start_spec hfits hlt
      refine ⟨a, [⟨s, .loop v⟩], by simp [Scheme.advance, hlt, hv], ?_⟩
      have hloop : correct.StageOk a ⟨s, .loop v⟩ := hinv
      apply correct.advanced_same (.refl s a) hloop
      have hlength : 2 ≤ s.length := by
        unfold Segment.length
        omega
      simp only [weight]
      nlinarith
    · exact ⟨a, [], by simp [Scheme.advance, hlt], correct.advanced_done hlt⟩
  | loop v =>
    obtain ⟨b, r, hpass, hrearr, ⟨w, rfl, hinv, hrem⟩ | ⟨index, rfl, hsplit⟩⟩ :=
      correct.pass_spec hfits hok
    · refine ⟨b, [⟨s, .loop w⟩], by simp [Scheme.advance, hpass], ?_⟩
      have hloop : correct.StageOk b ⟨s, .loop w⟩ := hinv
      apply correct.advanced_same hrearr hloop
      simpa [weight] using hrem
    · refine ⟨b, [⟨s, .fork index⟩], by simp [Scheme.advance, hpass], ?_⟩
      have hfork : correct.StageOk b ⟨s, .fork index⟩ := hsplit
      apply correct.advanced_same hrearr hfork
      simp only [weight]
      omega
  | fork index => exact ⟨a, _, rfl, correct.advanced_fork hok⟩

structure Sound (s : Segment) (a₀ : Array α) (p : Pool α V) : Prop where
  fits : s.Fits a₀
  rearranges : Rearranges s a₀ p.array
  inside : ∀ c ∈ p.calls, s.low ≤ c.range.low ∧ c.range.high ≤ s.high
  stageOk : ∀ c ∈ p.calls, correct.StageOk p.array c
  disjoint : p.calls.Pairwise fun c d => c.range.Disjoint d.range
  ordered : ∀ i ∈ s, ∀ j ∈ s, i < j →
    InOrder p.array i j ∨ ∃ c ∈ p.calls, i ∈ c.range ∧ j ∈ c.range

theorem sound_launch {s : Segment} {a : Array α} (hs : s.Fits a) :
    correct.Sound s a (launch a s) where
  fits := hs
  rearranges := .refl s a
  inside c hc := by
    obtain rfl := List.mem_singleton.mp hc
    exact ⟨le_rfl, le_rfl⟩
  stageOk c hc := by
    obtain rfl := List.mem_singleton.mp hc
    trivial
  disjoint := List.pairwise_singleton _ _
  ordered i hi j hj _ := .inr ⟨_, List.mem_singleton_self _, hi, hj⟩

section Invariant

variable {correct} {s : Segment} {a₀ : Array α} {p q : Pool α V}

theorem Sound.advance (h : correct.Sound s a₀ p) {c : Call V} (hc : c ∈ p.calls) :
    ∃ b forked, scheme.advance p.array c = some (b, forked) ∧
      correct.Advanced p.array c b forked := by
  apply correct.advance_spec _ (h.stageOk c hc)
  have hfits := h.rearranges.fits h.fits
  have hinside := h.inside c hc
  exact ⟨hfits.1.trans hinside.1, hinside.2.trans_lt hfits.2⟩

theorem Sound.step_cases (h : correct.Sound s a₀ p) (hstep : scheme.Step p q) :
    ∃ a b front c back forked, p = ⟨a, front ++ c :: back⟩ ∧
      q = ⟨b, front ++ forked ++ back⟩ ∧ correct.Advanced a c b forked := by
  obtain @⟨a, b, front, c, back, forked, hadvance⟩ := hstep
  obtain ⟨b', forked', hadvance', hadv⟩ := h.advance (c := c) (by simp)
  obtain ⟨rfl, rfl⟩ : b' = b ∧ forked' = forked := by
    simpa using hadvance'.symm.trans hadvance
  exact ⟨a, b', front, c, back, forked', rfl, rfl, hadv⟩

/-- A step of one call is not noticed by the others. -/
theorem Sound.frame {a b : Array α} {front back forked : List (Call V)} {c d : Call V}
    (h : correct.Sound s a₀ ⟨a, front ++ c :: back⟩) (hadv : correct.Advanced a c b forked)
    (hd : d ∈ front ∨ d ∈ back) :
    d.range.Disjoint c.range ∧ ∀ k ∈ d.range, cell b k = cell a k := by
  have hdisjoint : d.range.Disjoint c.range := by
    obtain ⟨-, hback, hfront⟩ := List.pairwise_append.mp h.disjoint
    rcases hd with hd | hd
    · exact hfront d hd c List.mem_cons_self
    · exact ((List.pairwise_cons.mp hback).1 d hd).symm
  exact ⟨hdisjoint, fun k hk => hadv.rearranges.frame (hdisjoint k hk)⟩

/-- Positions that no live call holds together stay in order: the one that moves stays on
its side of the other. -/
theorem Sound.ordered_step {a b : Array α} {front back forked : List (Call V)} {c : Call V}
    (h : correct.Sound s a₀ ⟨a, front ++ c :: back⟩) (hadv : correct.Advanced a c b forked)
    {i j : ℤ} (hi : i ∈ s) (hj : j ∈ s) (hij : i < j) :
    InOrder b i j ∨ ∃ d ∈ front ++ forked ++ back, i ∈ d.range ∧ j ∈ d.range := by
  by_cases hboth : i ∈ c.range ∧ j ∈ c.range
  · rcases hadv.ordered i hboth.1 j hboth.2 hij with hord | ⟨d, hd, hid, hjd⟩
    · exact .inl hord
    · exact .inr ⟨d, by simp [hd], hid, hjd⟩
  · -- one of the positions is outside the segment of `c` and its element has not moved
    have hinside := h.inside c (by simp)
    have hsub : ∀ k ∈ c.range, k ∈ s := by
      intro k hk
      rw [Segment.mem_iff] at hk ⊢
      omega
    obtain ⟨σ, hmem, hfix, hcell⟩ := hadv.rearranges.source
    have hσs : ∀ k ∈ s, σ k ∈ s := by
      intro k hk
      by_cases hkc : k ∈ c.range
      · exact hsub _ ((hmem k).mpr hkc)
      · rwa [hfix k hkc]
    have hlt : σ i < σ j := Rearranges.lt_of_lt hmem hfix hij (not_and_or.mp hboth)
    rcases h.ordered _ (hσs i hi) _ (hσs j hj) hlt with hord | ⟨d, hd, hid, hjd⟩
    · left
      intro x hx y hy
      rw [hcell] at hx hy
      exact hord x hx y hy
    · right
      -- the call that held both sources is another one, and `c` has moved nothing there
      simp only [List.mem_append, List.mem_cons] at hd
      rcases hd with hd | rfl | hd
      · have hdisjoint := (h.frame hadv (.inl hd)).1
        rw [hfix i ((hmem i).not.mp (hdisjoint _ hid))] at hid
        rw [hfix j ((hmem j).not.mp (hdisjoint _ hjd))] at hjd
        exact ⟨d, by simp [hd], hid, hjd⟩
      · exact absurd ⟨(hmem i).mp hid, (hmem j).mp hjd⟩ hboth
      · have hdisjoint := (h.frame hadv (.inr hd)).1
        rw [hfix i ((hmem i).not.mp (hdisjoint _ hid))] at hid
        rw [hfix j ((hmem j).not.mp (hdisjoint _ hjd))] at hjd
        exact ⟨d, by simp [hd], hid, hjd⟩

theorem Sound.disjoint_step {a b : Array α} {front back forked : List (Call V)} {c : Call V}
    (h : correct.Sound s a₀ ⟨a, front ++ c :: back⟩) (hadv : correct.Advanced a c b forked) :
    (front ++ forked ++ back).Pairwise fun c d => c.range.Disjoint d.range := by
  obtain ⟨hfront, hback, hcross⟩ := List.pairwise_append.mp h.disjoint
  have hsub : ∀ d ∈ forked, ∀ k ∈ d.range, k ∈ c.range := by
    intro d hd k hk
    have hinside := hadv.inside d hd
    rw [Segment.mem_iff] at hk ⊢
    omega
  rw [List.append_assoc, List.pairwise_append, List.pairwise_append]
  refine ⟨hfront, ⟨hadv.disjoint, (List.pairwise_cons.mp hback).2, ?_⟩, ?_⟩
  · intro d hd e he k hk
    exact (List.pairwise_cons.mp hback).1 e he k (hsub d hd k hk)
  · intro d hd e he k hk hke
    rcases List.mem_append.mp he with he | he
    · exact hcross d hd c List.mem_cons_self k hk (hsub e he k hke)
    · exact hcross d hd e (List.mem_cons_of_mem c he) k hk hke

theorem Sound.step (h : correct.Sound s a₀ p) (hstep : scheme.Step p q) :
    correct.Sound s a₀ q := by
  obtain ⟨a, b, front, c, back, forked, rfl, rfl, hadv⟩ := h.step_cases hstep
  have hinside := h.inside c (by simp)
  refine ⟨h.fits, h.rearranges.trans (hadv.rearranges.mono fun k hk => ?_), fun d hd => ?_,
    fun d hd => ?_, h.disjoint_step hadv, fun i hi j hj hij => h.ordered_step hadv hi hj hij⟩
  · rw [Segment.mem_iff] at hk ⊢
    omega
  · simp only [List.mem_append] at hd
    rcases hd with (hd | hd) | hd
    · exact h.inside d (by simp [hd])
    · have := hadv.inside d hd
      omega
    · exact h.inside d (by simp [hd])
  · simp only [List.mem_append] at hd
    rcases hd with (hd | hd) | hd
    · exact correct.stageOk_local (h.stageOk d (by simp [hd])) (h.frame hadv (.inl hd)).2
    · exact hadv.stageOk d hd
    · exact correct.stageOk_local (h.stageOk d (by simp [hd])) (h.frame hadv (.inr hd)).2

theorem Sound.reach (h : correct.Sound s a₀ p) (hreach : Relation.ReflTransGen scheme.Step p q) :
    correct.Sound s a₀ q :=
  invariant_of_reach h (fun _ _ hsound hstep => hsound.step hstep) hreach

theorem Sound.weight_lt (h : correct.Sound s a₀ p) (hstep : scheme.Step p q) :
    (q.calls.map correct.weight).sum < (p.calls.map correct.weight).sum := by
  obtain ⟨a, b, front, c, back, forked, rfl, rfl, hadv⟩ := h.step_cases hstep
  have hlt := hadv.lighter
  simp only [List.map_append, List.map_cons, List.sum_append, List.sum_cons]
  omega

theorem Sound.no_infinite_run (h : correct.Sound s a₀ p) :
    ¬ ∃ run : ℕ → Pool α V, run 0 = p ∧ ∀ n, scheme.Step (run n) (run (n + 1)) := by
  rintro ⟨run, rfl, hrun⟩
  have hsound : ∀ n, correct.Sound s a₀ (run n) := by
    intro n
    induction n with
    | zero => exact h
    | succ n ih => exact ih.step (hrun n)
  -- every step uses up at least one unit of the weight at the start
  have hbound : ∀ n, ((run n).calls.map correct.weight).sum + n ≤
      ((run 0).calls.map correct.weight).sum := by
    intro n
    induction n with
    | zero => exact le_rfl
    | succ n ih =>
      have := (hsound n).weight_lt (hrun n)
      omega
  have := hbound (((run 0).calls.map correct.weight).sum + 1)
  omega

/-- Without live calls the segment is sorted. -/
theorem Sound.sorted (h : correct.Sound s a₀ p) (hdone : p.calls = []) : Sorted s p.array := by
  intro i hi j hj hij
  rcases h.ordered i hi j hj hij with hord | ⟨c, hc, -⟩
  · exact hord
  · simp [hdone] at hc

/-- A run comes to a stop only when no call is live. -/
theorem Sound.progress (h : correct.Sound s a₀ p) : p.calls = [] ∨ ∃ q, scheme.Step p q := by
  obtain ⟨a, calls⟩ := p
  cases calls with
  | nil => exact .inl rfl
  | cons c back =>
    obtain ⟨b, forked, hadvance, -⟩ := h.advance (c := c) List.mem_cons_self
    have hstep : scheme.Step ⟨a, [] ++ c :: back⟩ ⟨b, [] ++ forked ++ back⟩ := .mk hadvance
    exact .inr ⟨_, hstep⟩

end Invariant

end Scheme.Correct

end ParallelPrograms
