import Mathlib.Data.Bool.Basic
import Mathlib.Data.Nat.Bits

namespace ParallelPrograms.Toggle

variable {ε τ υ : Type*}

def count (next : τ → ε → τ) (mark : τ → ε → Bool) : τ → List ε → ℕ
  | _, [] => 0
  | t, e :: es => (mark t e).toNat + count next mark (next t e) es

def parity (next : τ → ε → τ) (mark : τ → ε → Bool) (t : τ) (es : List ε) : Bool :=
  (count next mark t es).bodd

variable {next : τ → ε → τ} {mark own cross : τ → ε → Bool}

theorem parity_nil (t : τ) : parity next mark t [] = false := Nat.bodd_zero

theorem parity_cons (t : τ) (e : ε) (es : List ε) :
    parity next mark t (e :: es) = (mark t e ^^ parity next mark (next t e) es) := by
  rw [parity, count, Nat.bodd_add, parity]
  cases mark t e <;> rfl

theorem parity_eq_iff {t : τ} {es es' : List ε} :
    parity next mark t es = parity next mark t es' ↔
      count next mark t es % 2 = count next mark t es' % 2 := by
  rw [parity, parity, Nat.mod_two_of_bodd, Nat.mod_two_of_bodd]
  cases (count next mark t es).bodd <;> cases (count next mark t es').bodd <;> decide

theorem parity_xor (h : ∀ t e, mark t e = (own t e ^^ cross t e)) (t : τ) (es : List ε) :
    parity next mark t es = (parity next own t es ^^ parity next cross t es) := by
  induction es generalizing t with
  | nil => rw [parity_nil, parity_nil, parity_nil, Bool.xor_false]
  | cons e es ih =>
    rw [parity_cons, parity_cons, parity_cons, ih, h, Bool.xor_assoc, Bool.xor_assoc,
      Bool.xor_left_comm (cross t e)]

theorem foldl_eq {σ : Type*} {step : σ → ε → σ} {out : σ → Bool} {P : τ → σ → Prop}
    (hstep : ∀ t s e, P t s → P (next t e) (step s e) ∧ out (step s e) = (out s ^^ mark t e))
    {t : τ} {s : σ} (hs : P t s) (es : List ε) :
    out (es.foldl step s) = (out s ^^ parity next mark t es) := by
  induction es generalizing t s with
  | nil => rw [parity_nil, Bool.xor_false, List.foldl_nil]
  | cons e es ih =>
    obtain ⟨hnext, hout⟩ := hstep t s e hs
    rw [List.foldl_cons, ih hnext, hout, parity_cons, Bool.xor_assoc]

/-- The same for steps that may be undefined, on events for which they are not. -/
theorem foldlM_eq {σ : Type*} {step : σ → ε → Option σ} {out : σ → Bool} {P : τ → σ → Prop}
    {good : ε → Prop}
    (hstep : ∀ t s e, P t s → good e →
      ∃ s', step s e = some s' ∧ P (next t e) s' ∧ out s' = (out s ^^ mark t e))
    {t : τ} {s : σ} (hs : P t s) {es : List ε} (hgood : ∀ e ∈ es, good e) :
    ∃ s', es.foldlM step s = some s' ∧ out s' = (out s ^^ parity next mark t es) := by
  induction es generalizing t s with
  | nil => exact ⟨s, rfl, by rw [parity_nil, Bool.xor_false]⟩
  | cons e es ih =>
    obtain ⟨s₁, hsome, hnext, hout⟩ := hstep t s e hs (hgood e List.mem_cons_self)
    obtain ⟨s₂, hrest, hout'⟩ := ih hnext fun e' he' => hgood e' (List.mem_cons_of_mem e he')
    refine ⟨s₂, ?_, ?_⟩
    · rw [List.foldlM_cons, hsome]
      exact hrest
    · rw [hout', hout, parity_cons, Bool.xor_assoc]

theorem count_append (t : τ) (es es' : List ε) : count next mark t (es ++ es') =
    count next mark t es + count next mark (es.foldl next t) es' := by
  induction es generalizing t with
  | nil => exact (Nat.zero_add _).symm
  | cons e es ih => rw [List.cons_append, count, ih, List.foldl_cons, count, Nat.add_assoc]

/-- What the observer knows of the environment, and what the events visible to it do. -/
structure View (next : τ → ε → τ) (own : τ → ε → Bool) (visible : ε → Bool) (see : τ → υ)
    (next' : υ → ε → υ) (own' : υ → ε → Bool) : Prop where
  see_next : ∀ t e, see (next t e) = if visible e then next' (see t) e else see t
  own_eq : ∀ t e, own t e = if visible e then own' (see t) e else false

variable {visible : ε → Bool} {see : τ → υ} {next' : υ → ε → υ} {own' : υ → ε → Bool}

theorem View.parity_filter (h : View next own visible see next' own') (t : τ) (es : List ε) :
    parity next own t es = parity next' own' (see t) (es.filter visible) := by
  induction es generalizing t with
  | nil => rw [parity_nil, List.filter_nil, parity_nil]
  | cons e es ih =>
    rw [parity_cons, ih, h.own_eq, h.see_next]
    by_cases he : visible e = true
    · rw [List.filter_cons_of_pos he, parity_cons, if_pos he, if_pos he]
    · rw [List.filter_cons_of_neg he, if_neg he, if_neg he, Bool.false_xor]

/-- Two runs with the same visible events. -/
theorem View.agree_iff (h : View next own visible see next' own')
    (hmark : ∀ t e, mark t e = (own t e ^^ cross t e)) (t : τ) {es es' : List ε}
    (hvisible : es.filter visible = es'.filter visible) :
    parity next mark t es = parity next mark t es' ↔
      count next cross t es % 2 = count next cross t es' % 2 := by
  rw [parity_xor hmark, parity_xor hmark, h.parity_filter, h.parity_filter, hvisible,
    Bool.xor_right_inj, parity_eq_iff]

end ParallelPrograms.Toggle
