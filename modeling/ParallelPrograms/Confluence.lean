import Mathlib.Data.Nat.Notation
import Mathlib.Logic.Relation

namespace ParallelPrograms
open Relation

variable {α : Type*} {step : α → α → Prop} {a b c f : α}

def Final (step : α → α → Prop) (a : α) : Prop := ∀ b, ¬ step a b

/-- Two steps from one state are rejoined by at most one further step on each side. -/
def Diamond (step : α → α → Prop) : Prop :=
  ∀ a b c, step a b → step a c → Join (ReflGen step) b c

def Meet (step : α → α → Prop) (b c : α) : Prop := b = c ∨ ∃ d, step b d ∧ step c d

def StrictDiamond (step : α → α → Prop) : Prop := ∀ a b c, step a b → step a c → Meet step b c

theorem Meet.symm (h : Meet step b c) : Meet step c b := by
  rcases h with rfl | ⟨d, hb, hc⟩
  · exact .inl rfl
  · exact .inr ⟨d, hc, hb⟩

theorem Meet.join (h : Meet step b c) : Join (ReflGen step) b c := by
  rcases h with rfl | ⟨d, hb, hc⟩
  · exact ⟨b, .refl, .refl⟩
  · exact ⟨d, .single hb, .single hc⟩

theorem join_symm (h : Join (ReflGen step) b c) : Join (ReflGen step) c b := by
  obtain ⟨d, hb, hc⟩ := h
  exact ⟨d, hc, hb⟩

/-- What holds at the start and survives every step holds in every state reached. -/
theorem invariant_of_reach {P : α → Prop} (ha : P a)
    (hstep : ∀ b c, P b → step b c → P c) (h : ReflTransGen step a b) : P b := by
  induction h with
  | refl => exact ha
  | tail _ hbc ih => exact hstep _ _ ih hbc

theorem Final.eq_of_reach (hf : Final step f) (h : ReflTransGen step f c) : c = f := by
  rcases h.cases_head with rfl | ⟨d, hd, -⟩
  · rfl
  · exact absurd hd (hf d)

theorem Diamond.confluent (hd : Diamond step) (hb : ReflTransGen step a b)
    (hc : ReflTransGen step a c) : Join (ReflTransGen step) b c := by
  refine church_rosser (fun x y z hy hz => ?_) hb hc
  obtain ⟨d, hyd, hzd⟩ := hd x y z hy hz
  exact ⟨d, hyd, hzd.to_reflTransGen⟩

/-- Once one run ends, every run can still be completed to that same end. -/
theorem Diamond.reach_final (hd : Diamond step) (hf : Final step f)
    (haf : ReflTransGen step a f) (hac : ReflTransGen step a c) : ReflTransGen step c f := by
  obtain ⟨d, hfd, hcd⟩ := hd.confluent haf hac
  rwa [hf.eq_of_reach hfd] at hcd

theorem Diamond.progress (hd : Diamond step) (hf : Final step f)
    (haf : ReflTransGen step a f) (hac : ReflTransGen step a c) : c = f ∨ ∃ d, step c d := by
  rcases (hd.reach_final hf haf hac).cases_head with h | ⟨d, hcd, -⟩
  · exact .inl h
  · exact .inr ⟨d, hcd⟩

/-- If no run from behind one step goes on for ever, none goes on for ever from before it. -/
theorem StrictDiamond.acc_of_step (hd : StrictDiamond step) (hb : Acc (fun x y => step y x) b)
    (hab : step a b) : Acc (fun x y => step y x) a := by
  induction hb generalizing a with
  | intro b hb ih =>
    refine .intro a fun c hac => ?_
    rcases hd a b c hab hac with rfl | ⟨d, hbd, hcd⟩
    · exact .intro b hb
    · exact ih d hbd hcd

/-- Once one run ends, every run does. -/
theorem StrictDiamond.acc_of_reach (hd : StrictDiamond step) (hf : Final step f)
    (haf : ReflTransGen step a f) : Acc (fun x y => step y x) a := by
  induction haf using ReflTransGen.head_induction_on with
  | refl => exact .intro f fun c hc => absurd hc (hf c)
  | head hab _ ih => exact hd.acc_of_step ih hab

theorem no_infinite_run (ha : Acc (fun x y => step y x) a) :
    ¬ ∃ run : ℕ → α, run 0 = a ∧ ∀ n, step (run n) (run (n + 1)) := by
  induction ha with
  | intro a _ ih =>
    rintro ⟨run, rfl, hrun⟩
    exact ih (run 1) (hrun 0) ⟨fun n => run (n + 1), rfl, fun n => hrun (n + 1)⟩

end ParallelPrograms
