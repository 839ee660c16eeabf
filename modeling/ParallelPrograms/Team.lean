import Mathlib.Algebra.Order.Group.Nat
import ParallelPrograms.Confluence

namespace ParallelPrograms
open Relation

section Commute

variable {υ σ : Type*} {apply : σ → υ → σ}

theorem foldl_apply_comm {u : υ} {vs : List υ}
    (h : ∀ s, ∀ v ∈ vs, apply (apply s u) v = apply (apply s v) u) (s : σ) :
    vs.foldl apply (apply s u) = apply (vs.foldl apply s) u := by
  induction vs generalizing s with
  | nil => rfl
  | cons v vs ih =>
    rw [List.foldl_cons, List.foldl_cons, h s v List.mem_cons_self]
    exact ih (fun s w hw => h s w (List.mem_cons_of_mem v hw)) (apply s v)

theorem foldl_comm {us vs : List υ}
    (h : ∀ s, ∀ u ∈ us, ∀ v ∈ vs, apply (apply s u) v = apply (apply s v) u) (s : σ) :
    vs.foldl apply (us.foldl apply s) = us.foldl apply (vs.foldl apply s) := by
  induction us generalizing s with
  | nil => rfl
  | cons u us ih =>
    have hu := foldl_apply_comm (fun s v hv => h s u List.mem_cons_self v hv) s
    rw [List.foldl_cons, List.foldl_cons,
      ih (fun s w hw => h s w (List.mem_cons_of_mem u hw)), hu]

end Commute

/-- What every thread of a team has yet to do. -/
@[ext]
structure Team (υ : Type*) (Free : υ → υ → Prop) where
  threads : List (List υ)
  free : threads.Pairwise fun us vs => ∀ u ∈ us, ∀ v ∈ vs, Free u v

namespace Team

variable {υ σ : Type*} {Free : υ → υ → Prop} {apply : σ → υ → σ}

theorem pairwise_modify_tail {R : υ → υ → Prop} {threads : List (List υ)}
    (h : threads.Pairwise fun us vs => ∀ u ∈ us, ∀ v ∈ vs, R u v) (t : ℕ) :
    (threads.modify t List.tail).Pairwise fun us vs => ∀ u ∈ us, ∀ v ∈ vs, R u v := by
  rw [List.pairwise_iff_getElem] at h ⊢
  intro i j hi hj hij u hu v hv
  rw [List.length_modify] at hi hj
  rw [List.getElem_modify] at hu hv
  refine h i j hi hj hij u ?_ v ?_
  · split_ifs at hu
    · exact List.mem_of_mem_tail hu
    · exact hu
  · split_ifs at hv
    · exact List.mem_of_mem_tail hv
    · exact hv

def advance (p : Team υ Free) (t : ℕ) : Team υ Free :=
  ⟨p.threads.modify t List.tail, pairwise_modify_tail p.free t⟩

/-- The shared state and the team behind one update of one thread. -/
inductive Moves (apply : σ → υ → σ) : σ × Team υ Free → σ × Team υ Free → Prop
  | update {s : σ} {p : Team υ Free} {t : ℕ} {u : υ} {us : List υ} :
      p.threads[t]? = some (u :: us) → Moves apply (s, p) (apply s u, p.advance t)

def Finished (p : Team υ Free) : Prop := ∀ us ∈ p.threads, us = []

instance (p : Team υ Free) : Decidable p.Finished :=
  decidable_of_iff (p.threads.all List.isEmpty = true) (by simp [Finished])

theorem advance_getElem? (p : Team υ Free) {t t' : ℕ} (h : t ≠ t') :
    (p.advance t).threads[t']? = p.threads[t']? := by
  rw [advance, List.getElem?_modify_ne _ _ h]

theorem advance_comm (p : Team υ Free) (t t' : ℕ) :
    (p.advance t).advance t' = (p.advance t').advance t := by
  by_cases h : t = t'
  · rw [h]
  · exact Team.ext (List.modify_modify_ne _ _ _ h)

theorem free_of_ne (p : Team υ Free) {t t' : ℕ} {us vs : List υ} (ht : p.threads[t]? = some us)
    (ht' : p.threads[t']? = some vs) (h : t < t') : ∀ u ∈ us, ∀ v ∈ vs, Free u v := by
  obtain ⟨hlt, rfl⟩ := List.getElem?_eq_some_iff.mp ht
  obtain ⟨hlt', rfl⟩ := List.getElem?_eq_some_iff.mp ht'
  exact List.pairwise_iff_getElem.mp p.free t t' hlt hlt' h

theorem moves_join (hcomm : ∀ s u v, Free u v → apply (apply s u) v = apply (apply s v) u)
    {x y z : σ × Team υ Free} (hy : Moves apply x y) (hz : Moves apply x z) :
    y = z ∨ ∃ w, Moves apply y w ∧ Moves apply z w := by
  cases hy with
  | @update s p t u us ht =>
    cases hz with
    | @update _ _ t' v vs ht' =>
      by_cases heq : t = t'
      · subst heq
        obtain ⟨rfl, rfl⟩ := List.cons.inj (Option.some.inj (ht.symm.trans ht'))
        exact .inl rfl
      · have hswap : apply (apply s u) v = apply (apply s v) u := by
          rcases lt_or_gt_of_ne heq with hlt | hlt
          · exact hcomm s u v (p.free_of_ne ht ht' hlt u List.mem_cons_self v List.mem_cons_self)
          · exact (hcomm s v u
              (p.free_of_ne ht' ht hlt v List.mem_cons_self u List.mem_cons_self)).symm
        have hv : (p.advance t).threads[t']? = some (v :: vs) := by rwa [advance_getElem? p heq]
        have hu : (p.advance t').threads[t]? = some (u :: us) := by
          rwa [advance_getElem? p (Ne.symm heq)]
        refine .inr ⟨(apply (apply s u) v, (p.advance t).advance t'), .update hv, ?_⟩
        rw [hswap, advance_comm]
        exact .update hu

theorem Finished.not_moves {s : σ} {p : Team υ Free} (h : p.Finished) {y : σ × Team υ Free} :
    ¬ Moves apply (s, p) y := by
  intro hy
  cases hy with
  | update ht => exact absurd (h _ (List.mem_of_getElem? ht)) (List.cons_ne_nil _ _)

theorem exists_next {threads : List (List υ)} {u : υ} {rest : List υ}
    (h : threads.flatten = u :: rest) : ∃ t us, threads[t]? = some (u :: us) ∧
      (threads.modify t List.tail).flatten = rest := by
  induction threads with
  | nil => cases h
  | cons vs threads ih =>
    cases vs with
    | nil =>
      rw [List.flatten_cons, List.nil_append] at h
      obtain ⟨t, us, ht, hrest⟩ := ih h
      exact ⟨t + 1, us, ht, hrest⟩
    | cons v vs =>
      rw [List.flatten_cons, List.cons_append] at h
      obtain ⟨rfl, rfl⟩ := List.cons.inj h
      exact ⟨0, vs, rfl, rfl⟩

/-- The threads can run to their ends one after the other. -/
theorem reach_finished (apply : σ → υ → σ) (s : σ) (p : Team υ Free) :
    ∃ p' : Team υ Free, p'.Finished ∧
      ReflTransGen (Moves apply) (s, p) (p.threads.flatten.foldl apply s, p') := by
  obtain ⟨rest, hrest⟩ : ∃ rest, p.threads.flatten = rest := ⟨_, rfl⟩
  induction rest generalizing s p with
  | nil =>
    rw [hrest]
    exact ⟨p, List.flatten_eq_nil_iff.mp hrest, .refl⟩
  | cons u rest ih =>
    obtain ⟨t, us, ht, hadvance⟩ := exists_next hrest
    obtain ⟨p', hfinished, hreach⟩ := ih (apply s u) (p.advance t) hadvance
    have hfirst : (p.advance t).threads.flatten = rest := hadvance
    rw [hfirst] at hreach
    rw [hrest, List.foldl_cons]
    exact ⟨p', hfinished, .head (.update ht) hreach⟩

section Passes

variable {ι : Type*} {R : υ → υ → Prop} {threads : List (List ι)} {body : ι → List υ}

theorem pairwise_flatMap
    (h : threads.Pairwise fun ks ks' =>
      ∀ k ∈ ks, ∀ k' ∈ ks', ∀ u ∈ body k, ∀ v ∈ body k', R u v) :
    (threads.map fun ks => ks.flatMap body).Pairwise
      fun us vs => ∀ u ∈ us, ∀ v ∈ vs, R u v := by
  rw [List.pairwise_map]
  refine h.imp fun hbody u hu v hv => ?_
  obtain ⟨k, hk, hu⟩ := List.mem_flatMap.mp hu
  obtain ⟨k', hk', hv⟩ := List.mem_flatMap.mp hv
  exact hbody k hk k' hk' u hu v hv

/-- Thread after thread is pass after pass. -/
theorem foldl_flatten_passes (s : σ) :
    (threads.map fun ks => ks.flatMap body).flatten.foldl apply s =
      threads.flatten.foldl (fun s k => (body k).foldl apply s) s := by
  rw [← List.foldl_flatMap, List.flatten_eq_flatMap (L := threads), List.flatMap_assoc]
  rfl

end Passes

section Runs

variable (hcomm : ∀ s u v, Free u v → apply (apply s u) v = apply (apply s v) u)
include hcomm

theorem moves_strictDiamond :
    StrictDiamond fun a b : σ × Team υ Free => Moves apply a b :=
  fun _ _ _ hb hc => moves_join hcomm hb hc

/-- No order of the steps goes on for ever. -/
theorem no_infinite_moves (s : σ) (p : Team υ Free) :
    ¬ ∃ run : ℕ → σ × Team υ Free, run 0 = (s, p) ∧ ∀ m, Moves apply (run m) (run (m + 1)) := by
  obtain ⟨p', hfinished, hreach⟩ := reach_finished apply s p
  have hfinal : Final (Moves apply) (p.threads.flatten.foldl apply s, p') :=
    fun _ => hfinished.not_moves
  exact no_infinite_run ((moves_strictDiamond hcomm).acc_of_reach hfinal hreach)

/-- Wherever a run stops, the state is the one the threads leave one after the other. -/
theorem final_eq {s : σ} {p : Team υ Free} {e : σ × Team υ Free}
    (hreach : ReflTransGen (Moves apply) (s, p) e) (he : Final (Moves apply) e) :
    e.1 = p.threads.flatten.foldl apply s := by
  obtain ⟨p', hfinished, hend⟩ := reach_finished apply s p
  have hfinal : Final (Moves apply) (p.threads.flatten.foldl apply s, p') :=
    fun _ => hfinished.not_moves
  have hdiamond : Diamond fun a b : σ × Team υ Free => Moves apply a b :=
    fun a b c hb hc => (moves_strictDiamond hcomm a b c hb hc).join
  have hrest := hdiamond.reach_final hfinal hend hreach
  rw [← he.eq_of_reach hrest]

end Runs

end Team
end ParallelPrograms
