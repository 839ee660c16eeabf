import Mathlib.Data.List.Nodup
import Mathlib.Data.List.Perm.Basic
import Mathlib.Data.List.Range
import Mathlib.Logic.Function.Basic

namespace ParallelPrograms

inductive Grouping (ι : Type*) where
  | operand (i : ι)
  | combine (left right : Grouping ι)

namespace Grouping

variable {ι R : Type*}

def operands : Grouping ι → List ι
  | operand i => [i]
  | combine left right => left.operands ++ right.operands

def eval (op : R → R → R) (value : ι → R) : Grouping ι → R
  | operand i => value i
  | combine left right => op (left.eval op value) (right.eval op value)

end Grouping

/-- How one loop is executed: the passes in the order they run, each with the thread it
runs in, and the expression of the reduction, in which `none` is the original variable. -/
structure Schedule where
  team : ℕ
  order : List (ℕ × ℕ)
  grouping : Grouping (Option ℕ)

/-- Every pass runs once, in a thread of the team, and every copy is combined once. -/
structure Schedule.Valid (schedule : Schedule) (n : ℕ) : Prop where
  order_perm : (schedule.order.map Prod.snd).Perm (List.range n)
  thread_lt : ∀ x ∈ schedule.order, x.1 < schedule.team
  operands_perm : schedule.grouping.operands.Perm
    (none :: (List.range schedule.team).map some)

/-- Pass `i` in thread `i % team`, and the private copies combined one after the other. -/
def Schedule.cyclic (team n : ℕ) : Schedule where
  team := team
  order := (List.range n).map fun i => (i % team, i)
  grouping := (List.range team).foldl (fun g t => .combine g (.operand (some t))) (.operand none)

theorem Grouping.operands_foldl {ι κ : Type*} (f : κ → ι) (l : List κ) (g : Grouping ι) :
    (l.foldl (fun g t => .combine g (.operand (f t))) g).operands = g.operands ++ l.map f := by
  induction l generalizing g with
  | nil => simp
  | cons t l ih =>
    rw [List.foldl_cons, ih, operands, operands, List.append_assoc, List.map_cons]
    rfl

theorem Schedule.cyclic_valid {team : ℕ} (hteam : 0 < team) (n : ℕ) :
    (cyclic team n).Valid n where
  order_perm := by
    rw [cyclic, List.map_map]
    simp [Function.comp_def]
  thread_lt x hx := by
    obtain ⟨i, -, rfl⟩ := List.mem_map.mp hx
    exact Nat.mod_lt i hteam
  operands_perm := by
    rw [cyclic, Grouping.operands_foldl]
    exact List.Perm.refl _

section Loops

variable {ε σ R : Type*}

def sequentialFor (body : σ → R → ℕ → Except ε (σ × R)) (n : ℕ) (s : σ) (r : R) :
    Except ε (σ × R) :=
  (List.range n).foldlM (fun v i => body v.1 v.2 i) (s, r)

def copies (r : R) (privates : ℕ → R) : Option ℕ → R
  | none => r
  | some t => privates t

def threadPass (body : σ → R → ℕ → Except ε (σ × R)) (v : σ × (ℕ → R)) (x : ℕ × ℕ) :
    Except ε (σ × (ℕ → R)) := do
  let w ← body v.1 (v.2 x.1) x.2
  return (w.1, Function.update v.2 x.1 w.2)

/-- The loop with the directive `reduction(op: r)`, where `e` is neutral for `op`: every thread adds
up its passes in a copy that starts at `e`. -/
def parallelFor (body : σ → R → ℕ → Except ε (σ × R)) (op : R → R → R) (e : R)
    (schedule : Schedule) (s : σ) (r : R) : Except ε (σ × R) := do
  let v ← schedule.order.foldlM (threadPass body) (s, fun _ => e)
  return (v.1, schedule.grouping.eval op (copies r v.2))

end Loops

section Map

variable {ι ε σ R R' : Type*} {op : R → R → R} {op' : R' → R' → R'} {f : R → R'}

theorem Grouping.eval_map (hop : ∀ x y, op' (f x) (f y) = f (op x y)) (value : ι → R)
    (g : Grouping ι) : g.eval op' (fun i => f (value i)) = f (g.eval op value) := by
  induction g with
  | operand i => rfl
  | combine left right ihl ihr => rw [eval, eval, ihl, ihr, hop]

variable {body : σ → R → ℕ → Except ε (σ × R)} {body' : σ → R' → ℕ → Except ε (σ × R')}

theorem foldlM_threadPass_map {order : List (ℕ × ℕ)}
    (hbody : ∀ x ∈ order, ∀ s r, body' s (f r) x.2 = (body s r x.2).map (Prod.map id f))
    (s : σ) (privates : ℕ → R) :
    order.foldlM (threadPass body') (s, fun t => f (privates t)) =
      (order.foldlM (threadPass body) (s, privates)).map
        (Prod.map id fun privates t => f (privates t)) := by
  induction order generalizing s privates with
  | nil => rfl
  | cons x order ih =>
    have hx := hbody x List.mem_cons_self s (privates x.1)
    rw [List.foldlM_cons, List.foldlM_cons, threadPass, threadPass, hx]
    cases body s (privates x.1) x.2 with
    | error e => rfl
    | ok w =>
      have hupdate : Function.update (fun t => f (privates t)) x.1 (f w.2) =
          fun t => f (Function.update privates x.1 w.2 t) := by
        funext t
        exact (Function.apply_update (fun _ => f) privates x.1 w.2 t).symm
      refine Eq.trans ?_ (ih (fun y hy => hbody y (List.mem_cons_of_mem x hy)) w.1
        (Function.update privates x.1 w.2))
      rw [← hupdate]
      rfl

/-- A map that respects the operation and every pass carries one loop over to the other. -/
theorem parallelFor_map {e : R} {schedule : Schedule}
    (hop : ∀ x y, op' (f x) (f y) = f (op x y))
    (hbody : ∀ x ∈ schedule.order, ∀ s r, body' s (f r) x.2 = (body s r x.2).map (Prod.map id f))
    (s : σ) (r : R) : parallelFor body' op' (f e) schedule s (f r) =
      (parallelFor body op e schedule s r).map (Prod.map id f) := by
  rw [parallelFor, parallelFor, foldlM_threadPass_map hbody s fun _ => e]
  cases schedule.order.foldlM (threadPass body) (s, fun _ => e) with
  | error e => rfl
  | ok v =>
    have hcopies : copies (f r) (fun t => f (v.2 t)) = fun i => f (copies r v.2 i) := by
      funext i
      cases i <;> rfl
    have heval := Grouping.eval_map hop (copies r v.2) schedule.grouping
    rw [← hcopies] at heval
    exact congrArg (fun x => Except.ok (v.1, x)) heval

end Map

section Reduction

variable {ι R : Type*} {op : R → R → R} {e : R}

theorem foldr_neutral [Std.LawfulIdentity op e] (l : List ι) :
    (l.map fun _ => e).foldr op e = e := by
  induction l with
  | nil => rfl
  | cons i l ih =>
    rw [List.map_cons, List.foldr_cons, ih]
    exact Std.LawfulLeftIdentity.left_id _

variable [Std.Associative op]

theorem foldr_update [DecidableEq ι] [Std.Commutative op] (value : ι → R) (v : R) {i : ι}
    {l : List ι} (hl : l.Nodup) (hi : i ∈ l) :
    (l.map (Function.update value i (op (value i) v))).foldr op e =
      op ((l.map value).foldr op e) v := by
  have hassoc : ∀ x y z, op (op x y) z = op x (op y z) := Std.Associative.assoc
  have hcomm : ∀ x y, op x y = op y x := Std.Commutative.comm
  induction l with
  | nil => simp at hi
  | cons j l ih =>
    obtain ⟨hj, hl⟩ := List.nodup_cons.mp hl
    simp only [List.map_cons, List.foldr_cons]
    by_cases hij : i = j
    · subst hij
      have hrest : l.map (Function.update value i (op (value i) v)) = l.map value := by
        apply List.map_congr_left
        intro k hk
        apply Function.update_of_ne
        exact ne_of_mem_of_not_mem hk hj
      rw [Function.update_self, hrest, hassoc, hassoc, hcomm v]
    · rw [Function.update_of_ne (Ne.symm hij),
        ih hl ((List.mem_cons.mp hi).resolve_left hij), hassoc]

variable [Std.LawfulIdentity op e]

theorem foldr_append_op (l l' : List R) :
    (l ++ l').foldr op e = op (l.foldr op e) (l'.foldr op e) := by
  induction l with
  | nil => exact (Std.LawfulLeftIdentity.left_id _).symm
  | cons x l ih =>
    rw [List.cons_append, List.foldr_cons, ih, List.foldr_cons]
    exact (Std.Associative.assoc _ _ _).symm

/-- The grouping does not matter. -/
theorem Grouping.eval_eq (value : ι → R) (g : Grouping ι) :
    g.eval op value = (g.operands.map value).foldr op e := by
  induction g with
  | operand i => exact (Std.LawfulRightIdentity.right_id _).symm
  | combine left right ihl ihr =>
    rw [eval, ihl, ihr, operands, List.map_append, foldr_append_op]

end Reduction

/-- The passes of a loop do not depend on each other: pass `i` turns the shared state `s`
into `next s i` and contributes `value s i` to the reduction, and neither is affected by
another pass. -/
structure Independent {ε σ R : Type*} (body : σ → R → ℕ → Except ε (σ × R)) (op : R → R → R)
    (n : ℕ) (Inv : σ → Prop) (next : σ → ℕ → σ) (value : σ → ℕ → R) : Prop where
  body_eq : ∀ {s r i}, Inv s → i < n → body s r i = .ok (next s i, op r (value s i))
  inv_next : ∀ {s i}, Inv s → i < n → Inv (next s i)
  next_comm : ∀ s {i j}, i ≠ j → next (next s i) j = next (next s j) i
  value_next : ∀ s {i j}, i ≠ j → value (next s i) j = value s j

section Independence

variable {ε σ R : Type*} {body : σ → R → ℕ → Except ε (σ × R)} {op : R → R → R} {e : R} {n : ℕ}
  {Inv : σ → Prop} {next : σ → ℕ → σ} {value : σ → ℕ → R}

theorem Independent.foldl_value (h : Independent body op n Inv next value) (s : σ) {i : ℕ}
    {l : List ℕ} (hi : i ∉ l) (r : R) :
    l.foldl (fun r j => op r (value (next s i) j)) r = l.foldl (fun r j => op r (value s j)) r := by
  apply List.foldl_ext
  intro r j hj
  rw [h.value_next s (ne_of_mem_of_not_mem hj hi).symm]

theorem Independent.foldlM_eq (h : Independent body op n Inv next value) {s : σ} (hs : Inv s)
    {l : List ℕ} (hl : l.Nodup) (hlt : ∀ i ∈ l, i < n) (r : R) :
    l.foldlM (fun v i => body v.1 v.2 i) (s, r) =
      .ok (l.foldl next s, l.foldl (fun r i => op r (value s i)) r) := by
  induction l generalizing s r with
  | nil => rfl
  | cons i l ih =>
    obtain ⟨hi, hl⟩ := List.nodup_cons.mp hl
    have hin := hlt i List.mem_cons_self
    rw [List.foldlM_cons, h.body_eq hs hin]
    refine (ih (h.inv_next hs hin) hl (fun j hj => hlt j (List.mem_cons_of_mem i hj)) _).trans ?_
    rw [h.foldl_value s hi]
    rfl

theorem copies_update (r : R) (privates : ℕ → R) (t : ℕ) (v : R) :
    copies r (Function.update privates t v) = Function.update (copies r privates) (some t) v := by
  funext x
  cases x with
  | none => rfl
  | some t' =>
    by_cases ht : t' = t
    · subst ht
      simp [copies]
    · simp [copies, ht]

variable [Std.Associative op] [Std.Commutative op]

/-- Whatever thread a pass runs in, its contribution reaches the reduction. -/
theorem Independent.threads_eq (h : Independent body op n Inv next value) {s : σ} (hs : Inv s)
    {order : List (ℕ × ℕ)} (horder : (order.map Prod.snd).Nodup)
    (hlt : ∀ x ∈ order, x.2 < n) {operands : List (Option ℕ)} (hoperands : operands.Nodup)
    (hthread : ∀ x ∈ order, some x.1 ∈ operands) (r : R) (privates : ℕ → R) :
    ∃ privates', order.foldlM (threadPass body) (s, privates) =
        .ok ((order.map Prod.snd).foldl next s, privates') ∧
      (operands.map (copies r privates')).foldr op e =
        (order.map Prod.snd).foldl (fun r i => op r (value s i))
          ((operands.map (copies r privates)).foldr op e) := by
  induction order generalizing s privates with
  | nil => exact ⟨privates, rfl, rfl⟩
  | cons x order ih =>
    obtain ⟨t, i⟩ := x
    obtain ⟨hi, horder⟩ := List.nodup_cons.mp horder
    have hin : i < n := hlt (t, i) List.mem_cons_self
    have hpass : threadPass body (s, privates) (t, i) =
        .ok (next s i, Function.update privates t (op (privates t) (value s i))) := by
      simp [threadPass, h.body_eq hs hin]
    obtain ⟨privates', hrun, hsum⟩ := ih (h.inv_next hs hin) horder
      (fun y hy => hlt y (List.mem_cons_of_mem _ hy))
      (fun y hy => hthread y (List.mem_cons_of_mem _ hy))
      (Function.update privates t (op (privates t) (value s i)))
    -- the pass adds to one copy, hence to the sum of all copies
    refine ⟨privates', ?_, ?_⟩
    · rw [List.foldlM_cons, hpass]
      exact hrun
    · have ht : some t ∈ operands := hthread (t, i) List.mem_cons_self
      have hupdate : (operands.map (Function.update (copies r privates) (some t)
          (op (privates t) (value s i)))).foldr op e =
            op ((operands.map (copies r privates)).foldr op e) (value s i) :=
        foldr_update (copies r privates) (value s i) hoperands ht
      rw [hsum, h.foldl_value s hi, copies_update, hupdate]
      rfl

/-- Before the first pass only the original variable counts. -/
theorem foldr_copies_start [Std.LawfulIdentity op e] {operands : List (Option ℕ)} {team : ℕ}
    (hperm : operands.Perm (none :: (List.range team).map some)) (r : R) :
    (operands.map (copies r fun _ => e)).foldr op e = r := by
  have hrest : ((List.range team).map some).map (copies r fun _ => e) =
      (List.range team).map fun _ => e := by
    rw [List.map_map]
    rfl
  rw [(hperm.map _).foldr_eq, List.map_cons, List.foldr_cons, hrest, foldr_neutral]
  exact Std.LawfulRightIdentity.right_id _

omit [Std.Associative op] [Std.Commutative op] in
theorem Independent.foldl_next_perm (h : Independent body op n Inv next value) {l l' : List ℕ}
    (hl : l.Perm l') (s : σ) : l.foldl next s = l'.foldl next s := by
  apply hl.foldl_eq'
  intro i _ j _ z
  by_cases hij : i = j
  · rw [hij]
  · exact h.next_comm z hij

theorem foldl_op_perm (f : ℕ → R) {l l' : List ℕ} (hl : l.Perm l') (r : R) :
    l.foldl (fun r i => op r (f i)) r = l'.foldl (fun r i => op r (f i)) r := by
  apply hl.foldl_eq'
  intro i _ j _ z
  have hassoc : ∀ x y z, op (op x y) z = op x (op y z) := Std.Associative.assoc
  rw [hassoc, hassoc]
  exact congrArg (op z) (Std.Commutative.comm _ _)

/-- A valid schedule gives what the loop gives without the directive. -/
theorem Independent.parallelFor_eq [Std.LawfulIdentity op e]
    (h : Independent body op n Inv next value) {s : σ} (hs : Inv s) {schedule : Schedule}
    (hvalid : schedule.Valid n) (r : R) :
    parallelFor body op e schedule s r = sequentialFor body n s r := by
  have hnone : (none : Option ℕ) ∉ (List.range schedule.team).map some := by simp
  have hoperands : schedule.grouping.operands.Nodup :=
    hvalid.operands_perm.nodup_iff.mpr (List.nodup_cons.mpr
      ⟨hnone, List.Nodup.map (fun _ _ => Option.some.inj) List.nodup_range⟩)
  have horder : (schedule.order.map Prod.snd).Nodup :=
    hvalid.order_perm.nodup_iff.mpr List.nodup_range
  obtain ⟨privates, hrun, hsum⟩ := h.threads_eq (e := e) hs horder
    (fun x hx => List.mem_range.mp (hvalid.order_perm.subset (List.mem_map_of_mem hx)))
    hoperands (fun x hx => hvalid.operands_perm.symm.subset
      (by simpa using hvalid.thread_lt x hx)) r fun _ => e
  have hresult : schedule.grouping.eval op (copies r privates) =
      (List.range n).foldl (fun r i => op r (value s i)) r := by
    rw [Grouping.eval_eq (e := e), hsum, foldr_copies_start hvalid.operands_perm,
      foldl_op_perm (value s) hvalid.order_perm]
  rw [sequentialFor, h.foldlM_eq hs List.nodup_range (fun i hi => List.mem_range.mp hi),
    ← h.foldl_next_perm hvalid.order_perm, ← hresult, parallelFor, hrun]
  rfl

end Independence

end ParallelPrograms
