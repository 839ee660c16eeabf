import Mathlib.Algebra.BigOperators.Group.List.Basic
import ParallelPrograms.ForkSort

namespace ParallelPrograms

variable {α V : Type*}

/-- A routine that only sees its own segment: on arrays that agree there it does the same. -/
structure Scheme.Local (scheme : Scheme α V) : Prop where
  start_eq : ∀ {s : Segment} {a b : Array α}, (∀ k ∈ s, cell b k = cell a k) →
    scheme.start s b = scheme.start s a
  pass_eq : ∀ {s : Segment} {a b a' : Array α} {v : V} {r : V ⊕ ℤ}, s.Fits a → s.Fits b →
    (∀ k ∈ s, cell b k = cell a k) → scheme.pass s a v = some (a', r) →
      ∃ b', scheme.pass s b v = some (b', r) ∧ ∀ k ∈ s, cell b' k = cell a' k

inductive Scheme.Run (scheme : Scheme α V) (price : Call V → ℕ) (p : Pool α V) :
    ℕ → Pool α V → Prop
  | refl : Run scheme price p 0 p
  | step {n a front c back b forked} : Run scheme price p n ⟨a, front ++ c :: back⟩ →
      scheme.advance a c = some (b, forked) →
      Run scheme price p (n + price c) ⟨b, front ++ forked ++ back⟩

inductive Scheme.Work (scheme : Scheme α V) (price : Call V → ℕ) :
    Array α → List (Call V) → ℕ → Prop
  | nil {a} : Work scheme price a [] 0
  | cons {a b c forked calls m n} : scheme.advance a c = some (b, forked) →
      Work scheme price b forked m → Work scheme price a calls n →
      Work scheme price a (c :: calls) (price c + m + n)

variable {scheme : Scheme α V} {price : Call V → ℕ}

def entered (c : Call V) : ℕ :=
  match c.stage with
  | .enter => 1
  | .loop _ => 0
  | .fork _ => 0

theorem Scheme.Run.reach {p q : Pool α V} {n : ℕ} (h : scheme.Run price p n q) :
    Relation.ReflTransGen scheme.Step p q := by
  induction h with
  | refl => exact .refl
  | step _ hadvance ih => exact ih.tail (.mk hadvance)

theorem Scheme.exists_run (price : Call V → ℕ) {p q : Pool α V}
    (h : Relation.ReflTransGen scheme.Step p q) :
    ∃ n, scheme.Run price p n q := by
  induction h with
  | refl => exact ⟨0, .refl⟩
  | tail _ hstep ih =>
    obtain ⟨n, hrun⟩ := ih
    obtain ⟨hadvance⟩ := hstep
    exact ⟨_, .step hrun hadvance⟩

namespace Scheme.Work

variable {a : Array α} {l l' : List (Call V)} {m n : ℕ}

theorem single {b : Array α} {c : Call V} (hadvance : scheme.advance a c = some (b, l))
    (h : scheme.Work price b l n) : scheme.Work price a [c] (price c + n) := .cons hadvance h .nil

theorem append (h : scheme.Work price a l m) (h' : scheme.Work price a l' n) :
    scheme.Work price a (l ++ l') (m + n) := by
  induction h with
  | nil => rwa [Nat.zero_add]
  | cons hadvance hforked _ _ ih =>
    rw [List.cons_append, Nat.add_assoc]
    exact .cons hadvance hforked (ih h')

theorem split (h : scheme.Work price a (l ++ l') n) :
    ∃ k k', scheme.Work price a l k ∧ scheme.Work price a l' k' ∧ n = k + k' := by
  induction l generalizing n with
  | nil => exact ⟨0, n, .nil, h, (Nat.zero_add n).symm⟩
  | cons c l ih =>
    rw [List.cons_append] at h
    obtain _ | ⟨hadvance, hforked, hrest⟩ := h
    obtain ⟨k, k', hl, hl', rfl⟩ := ih hrest
    exact ⟨_, k', .cons hadvance hforked hl, hl', (Nat.add_assoc _ k k').symm⟩

theorem unique (h : scheme.Work price a l m) (h' : scheme.Work price a l n) : m = n := by
  induction h generalizing n with
  | nil =>
    obtain _ | _ := h'
    rfl
  | cons hadvance _ _ ihforked ih =>
    obtain _ | ⟨hadvance', hforked', hrest'⟩ := h'
    obtain ⟨rfl, rfl⟩ := Prod.mk.inj (Option.some.inj (hadvance.symm.trans hadvance'))
    rw [ihforked hforked', ih hrest']

end Scheme.Work

theorem Scheme.Local.advance_eq (hlocal : scheme.Local) {a b a' : Array α} {c : Call V}
    {forked : List (Call V)} (ha : c.range.Fits a) (hb : c.range.Fits b)
    (hcell : ∀ k ∈ c.range, cell b k = cell a k) (h : scheme.advance a c = some (a', forked)) :
    ∃ b', scheme.advance b c = some (b', forked) ∧ ∀ k ∈ c.range, cell b' k = cell a' k := by
  obtain ⟨s, stage⟩ := c
  cases stage with
  | enter =>
    by_cases hlt : s.low < s.high
    · simp only [Scheme.advance, if_pos hlt, Option.map_eq_some_iff, Prod.mk.injEq] at h ⊢
      obtain ⟨v, hv, rfl, rfl⟩ := h
      exact ⟨b, ⟨v, (hlocal.start_eq hcell).trans hv, rfl, rfl⟩, hcell⟩
    · simp only [Scheme.advance, if_neg hlt, Option.some.injEq, Prod.mk.injEq] at h ⊢
      obtain ⟨rfl, rfl⟩ := h
      exact ⟨b, ⟨rfl, rfl⟩, hcell⟩
  | loop v =>
    simp only [Scheme.advance, Option.map_eq_some_iff] at h ⊢
    obtain ⟨⟨a₁, r⟩, hpass, hr⟩ := h
    obtain ⟨b₁, hpass', hcell'⟩ := hlocal.pass_eq ha hb hcell hpass
    cases r with
    | inl w =>
      obtain ⟨rfl, rfl⟩ := Prod.mk.inj hr
      exact ⟨b₁, ⟨_, hpass', rfl⟩, hcell'⟩
    | inr index =>
      obtain ⟨rfl, rfl⟩ := Prod.mk.inj hr
      exact ⟨b₁, ⟨_, hpass', rfl⟩, hcell'⟩
  | fork index =>
    obtain ⟨rfl, rfl⟩ := Prod.mk.inj (Option.some.inj h)
    exact ⟨b, rfl, hcell⟩

namespace Scheme.Correct

variable [LinearOrder α] {correct : scheme.Correct} {a b : Array α} {s : Segment}
  {l : List (Call V)}

def Live (correct : scheme.Correct) (a : Array α) (l : List (Call V)) : Prop :=
  ∀ c ∈ l, c.range.Fits a ∧ correct.StageOk a c

theorem fork_live (correct : scheme.Correct) (hs : s.Fits a) {index : ℤ} (h : Splits s a index) :
    correct.Live a [⟨s, .fork index⟩] := by
  intro c hc
  obtain rfl := List.mem_singleton.mp hc
  exact ⟨hs, h⟩

theorem enter_live (correct : scheme.Correct) (hs : s.Fits a) : correct.Live a [⟨s, .enter⟩] := by
  intro c hc
  obtain rfl := List.mem_singleton.mp hc
  exact ⟨hs, trivial⟩

theorem Advanced.live {c : Call V} {forked : List (Call V)} (h : correct.Advanced a c b forked)
    (hfits : c.range.Fits a) : correct.Live b forked := by
  intro d hd
  have hb := h.rearranges.fits hfits
  have hinside := h.inside d hd
  exact ⟨⟨hb.1.trans hinside.1, hinside.2.trans_lt hb.2⟩, h.stageOk d hd⟩

/-- The work of a call does not depend on the rest of the array. -/
theorem work_congr (hlocal : scheme.Local) {n : ℕ} (h : scheme.Work price a l n)
    (hlive : correct.Live a l) (hfits : ∀ c ∈ l, c.range.Fits b)
    (hcell : ∀ c ∈ l, ∀ k ∈ c.range, cell b k = cell a k) : scheme.Work price b l n := by
  induction h generalizing b with
  | nil => exact .nil
  | @cons a a' c forked l m n hadvance hforked hrest ihforked ih =>
    simp only [Live, List.forall_mem_cons] at hlive hfits hcell
    obtain ⟨⟨hfitsa, hok⟩, hlive⟩ := hlive
    obtain ⟨hfitsb, hfits⟩ := hfits
    obtain ⟨hcellc, hcell⟩ := hcell
    obtain ⟨b', hadvance', hcell'⟩ := hlocal.advance_eq hfitsa hfitsb hcellc hadvance
    -- what one step does on either array
    obtain ⟨a₁, forked₁, ha₁, hadva⟩ := correct.advance_spec hfitsa hok
    obtain ⟨rfl, rfl⟩ := Prod.mk.inj (Option.some.inj (ha₁.symm.trans hadvance))
    obtain ⟨b₁, forked₂, hb₁, hadvb⟩ :=
      correct.advance_spec hfitsb (correct.stageOk_local hok hcellc)
    obtain ⟨rfl, rfl⟩ := Prod.mk.inj (Option.some.inj (hb₁.symm.trans hadvance'))
    refine .cons hadvance' (ihforked (hadva.live hfitsa)
      (fun d hd => (hadvb.live hfitsb d hd).1) fun d hd k hk => hcell' k ?_) (ih hlive hfits hcell)
    have hinside := hadva.inside d hd
    rw [Segment.mem_iff] at hk ⊢
    omega

theorem exists_work (price : Call V → ℕ) (hlive : correct.Live a l) :
    ∃ n, scheme.Work price a l n := by
  -- the offspring of the first call is lighter than the call
  obtain ⟨w, hw⟩ : ∃ w, (l.map correct.weight).sum = w := ⟨_, rfl⟩
  induction w using Nat.strong_induction_on generalizing a l with
  | _ w ih =>
  cases l with
  | nil => exact ⟨0, .nil⟩
  | cons c l =>
    obtain ⟨⟨hfits, hok⟩, hrest⟩ := List.forall_mem_cons.mp hlive
    obtain ⟨b, forked, hadvance, hadv⟩ := correct.advance_spec hfits hok
    have hlighter := hadv.lighter
    rw [List.map_cons, List.sum_cons] at hw
    obtain ⟨m, hm⟩ := ih _ (by omega) (hadv.live hfits) rfl
    obtain ⟨n, hn⟩ := ih _ (by omega) hrest rfl
    exact ⟨_, .cons hadvance hm hn⟩

theorem Sound.live {a₀ : Array α} {p : Pool α V} (h : correct.Sound s a₀ p) :
    correct.Live p.array p.calls := by
  intro c hc
  have hfits := h.rearranges.fits h.fits
  have hinside := h.inside c hc
  exact ⟨⟨hfits.1.trans hinside.1, hinside.2.trans_lt hfits.2⟩, h.stageOk c hc⟩

/-- A step takes its price off the work to be done. -/
theorem Sound.work_step (hlocal : scheme.Local) {a₀ : Array α} {front back forked : List (Call V)}
    {c : Call V} {n : ℕ} (h : correct.Sound s a₀ ⟨a, front ++ c :: back⟩)
    (hadvance : scheme.advance a c = some (b, forked))
    (hwork : scheme.Work price a (front ++ c :: back) n) :
    ∃ k, scheme.Work price b (front ++ forked ++ back) k ∧ n = price c + k := by
  obtain ⟨a₁, forked₁, hadvance₁, hadv⟩ := h.advance (c := c) (by simp)
  obtain ⟨rfl, rfl⟩ := Prod.mk.inj (Option.some.inj (hadvance₁.symm.trans hadvance))
  have hlive := h.live
  have hsound := h.step (.mk hadvance)
  have hlive' := hsound.live
  have hkept : ∀ l' : List (Call V), (∀ d ∈ l', d ∈ front ∨ d ∈ back) → ∀ k,
      scheme.Work price a l' k → scheme.Work price a₁ l' k := by
    intro l' hl' k hk
    refine work_congr hlocal hk (fun d hd => hlive d ?_) (fun d hd => (hlive' d ?_).1)
      fun d hd => (h.frame hadv (hl' d hd)).2
    · rcases hl' d hd with hd | hd <;> simp [hd]
    · rcases hl' d hd with hd | hd <;> simp [hd]
  obtain ⟨m, m', hfront, hrest, rfl⟩ := hwork.split
  obtain _ | ⟨hadvance', hforked, hback⟩ := hrest
  obtain ⟨rfl, rfl⟩ := Prod.mk.inj (Option.some.inj (hadvance'.symm.trans hadvance))
  have hfront' := hkept front (fun d hd => .inl hd) _ hfront
  have hback' := hkept back (fun d hd => .inr hd) _ hback
  exact ⟨_, (hfront'.append hforked).append hback', by omega⟩

/-- What a run has cost and what is left to do add up to the work at its start. -/
theorem Sound.work_run (hlocal : scheme.Local) {a₀ : Array α} {p q : Pool α V} {m n : ℕ}
    (h : correct.Sound s a₀ p) (hwork : scheme.Work price p.array p.calls n)
    (hrun : scheme.Run price p m q) :
    ∃ k, scheme.Work price q.array q.calls k ∧ n = m + k := by
  induction hrun with
  | refl => exact ⟨n, hwork, (Nat.zero_add n).symm⟩
  | step hrun hadvance ih =>
    obtain ⟨k, hk, rfl⟩ := ih
    obtain ⟨k', hk', rfl⟩ := (h.reach hrun.reach).work_step hlocal hadvance hk
    exact ⟨k', hk', (Nat.add_assoc _ _ k').symm⟩

/-- A step shares the segment of its call out, and the index of the partition goes to nobody. -/
theorem advance_length {c : Call V} {forked : List (Call V)} (hok : correct.StageOk a c)
    (h : scheme.advance a c = some (b, forked)) :
    (forked.map fun d => d.range.length + 1).sum ≤ c.range.length + 1 ∧
      (forked.map fun d => 2 * d.range.length + entered d).sum ≤ 2 * c.range.length := by
  obtain ⟨s, stage⟩ := c
  cases stage with
  | enter =>
    rw [Scheme.advance] at h
    split_ifs at h with hlt
    · obtain ⟨v, -, hv⟩ := Option.map_eq_some_iff.mp h
      obtain ⟨rfl, rfl⟩ := Prod.mk.inj hv
      exact ⟨le_rfl, le_rfl⟩
    · obtain ⟨rfl, rfl⟩ := Prod.mk.inj (Option.some.inj h)
      exact ⟨Nat.zero_le _, Nat.zero_le _⟩
  | loop v =>
    obtain ⟨⟨b', r⟩, -, hr⟩ := Option.map_eq_some_iff.mp h
    cases r with
    | inl w =>
      obtain ⟨rfl, rfl⟩ := Prod.mk.inj hr
      exact ⟨le_rfl, le_rfl⟩
    | inr index =>
      obtain ⟨rfl, rfl⟩ := Prod.mk.inj hr
      exact ⟨le_rfl, le_rfl⟩
  | fork index =>
    obtain ⟨rfl, rfl⟩ := Prod.mk.inj (Option.some.inj h)
    have hindex : s.low ≤ index ∧ index ≤ s.high := hok.1
    simp only [List.map_cons, List.map_nil, List.sum_cons, List.sum_nil, entered, Segment.length]
    omega

/-- In a run with one call for each position and one more, that many calls are live at most,
and never more than twice as many have been made. -/
theorem calls_le (correct : scheme.Correct) (hs : s.Fits a) {p : Pool α V} {n : ℕ}
    (hrun : scheme.Run entered (launch a s) n p) :
    p.calls.length ≤ s.length + 1 ∧ n ≤ 2 * s.length + 1 := by
  have hbounds : (p.calls.map fun c => c.range.length + 1).sum ≤ s.length + 1 ∧
      n + (p.calls.map fun c => 2 * c.range.length + entered c).sum ≤ 2 * s.length + 1 := by
    induction hrun with
    | refl => exact ⟨le_rfl, by simp [launch, entered]⟩
    | step hrun hadvance ih =>
      have hsound := (correct.sound_launch hs).reach hrun.reach
      obtain ⟨hlive, hmade⟩ := advance_length (hsound.stageOk _ (by simp)) hadvance
      simp only [List.map_append, List.map_cons, List.sum_append, List.sum_cons] at ih ⊢
      omega
  have hlength : p.calls.length ≤ (p.calls.map fun c => c.range.length + 1).sum := by
    have hsum := List.length_le_sum_of_one_le (p.calls.map fun c => c.range.length + 1)
    rw [List.length_map] at hsum
    refine hsum fun m hm => ?_
    obtain ⟨c, -, rfl⟩ := List.mem_map.mp hm
    exact Nat.le_add_left 1 _
  omega

/-- Every run can be completed. -/
theorem Sound.exists_done {a₀ : Array α} {p : Pool α V} (h : correct.Sound s a₀ p) :
    ∃ q, Relation.ReflTransGen scheme.Step p q ∧ q.calls = [] := by
  obtain ⟨w, hw⟩ : ∃ w, (p.calls.map correct.weight).sum = w := ⟨_, rfl⟩
  induction w using Nat.strong_induction_on generalizing p with
  | _ w ih =>
  rcases h.progress with hdone | ⟨q, hstep⟩
  · exact ⟨p, .refl, hdone⟩
  · obtain ⟨q', hreach, hdone⟩ := ih _ (hw ▸ h.weight_lt hstep) (h.step hstep) rfl
    exact ⟨q', .head hstep hreach, hdone⟩

/-- A complete run costs the work of the call it starts with. -/
theorem work_launch (hlocal : scheme.Local) (correct : scheme.Correct) (hs : s.Fits a)
    {p : Pool α V} {n : ℕ} (hrun : scheme.Run price (launch a s) n p) (hdone : p.calls = []) :
    scheme.Work price a [⟨s, .enter⟩] n := by
  have hstart := correct.sound_launch hs
  obtain ⟨m, hm⟩ := exists_work price hstart.live
  obtain ⟨k, hk, rfl⟩ := hstart.work_run hlocal hm hrun
  rw [hdone] at hk
  obtain rfl := hk.unique .nil
  exact hm

end Scheme.Correct

end ParallelPrograms
