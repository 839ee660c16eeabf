import Mathlib.Data.List.Nodup
import ParallelPrograms.Team

namespace ParallelPrograms

section Retype

variable {υ σ : Type*} {apply : σ → υ → σ} {Free Free' : υ → υ → Prop}

theorem Team.Moves.retype {s s' : σ} {p q : Team υ Free} {p' : Team υ Free'}
    (hp : p'.threads = p.threads) (h : Team.Moves apply (s, p) (s', q)) :
    ∃ q' : Team υ Free', q'.threads = q.threads ∧ Team.Moves apply (s, p') (s', q') := by
  cases h with
  | @update _ _ t u us ht =>
    have ht' : p'.threads[t]? = some (u :: us) := by rwa [hp]
    exact ⟨p'.advance t, by simp [Team.advance, hp], .update ht'⟩

theorem Team.reach_retype {s : σ} {p : Team υ Free} {p' : Team υ Free'}
    (hp : p'.threads = p.threads) {e : σ × Team υ Free}
    (h : Relation.ReflTransGen (Team.Moves apply) (s, p) e) :
    ∃ q' : Team υ Free', q'.threads = e.2.threads ∧
      Relation.ReflTransGen (Team.Moves apply) (s, p') (e.1, q') := by
  induction h with
  | refl => exact ⟨p', hp, .refl⟩
  | @tail b c _ hbc ih =>
    obtain ⟨q', hq', hreach⟩ := ih
    obtain ⟨r', hr', hmoves⟩ := hbc.retype hq'
    exact ⟨r', hr', hreach.tail hmoves⟩

theorem Team.no_infinite_steps (apply : σ → υ → σ) (s : σ) (p : Team υ Free) :
    ¬ ∃ run : ℕ → σ × Team υ Free, run 0 = (s, p) ∧ ∀ m, Moves apply (run m) (run (m + 1)) := by
  rintro ⟨run, hzero, hmoves⟩
  -- the same steps on a state that holds nothing, where all of them commute
  let blank : Unit → υ → Unit := fun _ _ => ()
  have hcomm : ∀ s u v, Free u v → blank (blank s u) v = blank (blank s v) u :=
    fun _ _ _ _ => rfl
  have hblank : ∀ x y : σ × Team υ Free, Moves apply x y → Moves blank ((), x.2) ((), y.2) := by
    rintro _ _ ⟨ht⟩
    exact .update ht
  refine Team.no_infinite_moves hcomm () p
    ⟨fun m => ((), (run m).2), ?_, fun m => hblank _ _ (hmoves m)⟩
  exact congrArg (fun x : σ × Team υ Free => ((), x.2)) hzero

end Retype

namespace WorkItems
open Relation

/-- A load from the memory into the registers, or a store from them. -/
inductive Instruction (α D ρ : Type*) where
  | load (address : α) (f : D → ρ → ρ)
  | store (address : α) (f : ρ → D)

@[ext]
structure Machine (ι α D ρ : Type*) where
  memory : α → D
  registers : ι → ρ

section Definitions

variable {ι α D ρ : Type*}

namespace Instruction

def address : Instruction α D ρ → α
  | .load a _ | .store a _ => a

def IsStore : Instruction α D ρ → Prop
  | .load _ _ => False
  | .store _ _ => True

end Instruction

variable [DecidableEq ι] [DecidableEq α]

def exec (m : Machine ι α D ρ) (x : ι × Instruction α D ρ) : Machine ι α D ρ :=
  match x.2 with
  | .load a f =>
    { m with registers := Function.update m.registers x.1 (f (m.memory a) (m.registers x.1)) }
  | .store a f => { m with memory := Function.update m.memory a (f (m.registers x.1)) }

def alone (i : ι) (program : List (Instruction α D ρ)) (m : Machine ι α D ρ) : Machine ι α D ρ :=
  program.foldl (fun m x => exec m (i, x)) m

omit [DecidableEq ι] [DecidableEq α] in
def enqueue (items : List ι) (program : ι → List (Instruction α D ρ)) :
    Team (ι × Instruction α D ρ) fun _ _ => True where
  threads := items.map fun i => (program i).map (Prod.mk i)
  free := by simp [List.pairwise_iff_getElem]

end Definitions

section Races

variable {ι α D ρ : Type*}

structure RaceFree (x y : ι × Instruction α D ρ) : Prop where
  item : x.1 ≠ y.1
  address : x.2.IsStore ∨ y.2.IsStore → x.2.address ≠ y.2.address

/-- No item stores where another one loads or stores. -/
structure ConflictFree (items : List ι) (program : ι → List (Instruction α D ρ)) : Prop where
  nodup : items.Nodup
  address : ∀ i ∈ items, ∀ j ∈ items, i ≠ j → ∀ x ∈ program i, ∀ y ∈ program j,
    x.IsStore → x.address ≠ y.address

/-- Every address belongs to one item. -/
theorem ConflictFree.of_owner {items : List ι} {program : ι → List (Instruction α D ρ)}
    (owner : α → ι) (hnodup : items.Nodup) (h : ∀ i, ∀ x ∈ program i, owner x.address = i) :
    ConflictFree items program where
  nodup := hnodup
  address := by
    intro i _ j _ hij x hx y hy _ heq
    exact hij ((h i x hx).symm.trans ((congrArg owner heq).trans (h j y hy)))

variable [DecidableEq ι] [DecidableEq α]

theorem exec_comm (m : Machine ι α D ρ) (x y : ι × Instruction α D ρ) (h : RaceFree x y) :
    exec (exec m x) y = exec (exec m y) x := by
  obtain ⟨i, x⟩ := x
  obtain ⟨j, y⟩ := y
  obtain ⟨hij, haddress⟩ := h
  simp only at hij haddress
  cases x with
  | load a f =>
    cases y with
    | load b g =>
      apply Machine.ext
      · rfl
      · simp only [exec, Function.update_of_ne hij, Function.update_of_ne hij.symm]
        exact Function.update_comm hij _ _ _
    | store b g =>
      have hab : a ≠ b := haddress (.inr trivial)
      simp only [exec, Function.update_of_ne hij.symm, Function.update_of_ne hab]
  | store a f =>
    cases y with
    | load b g =>
      have hab : a ≠ b := haddress (.inl trivial)
      simp only [exec, Function.update_of_ne hij, Function.update_of_ne hab.symm]
    | store b g =>
      have hab : a ≠ b := haddress (.inl trivial)
      apply Machine.ext
      · exact Function.update_comm hab _ _ _
      · rfl

variable {items : List ι} {program : ι → List (Instruction α D ρ)}

/-- A launch without conflicts, as a team whose instructions commute. -/
def ConflictFree.team (h : ConflictFree items program) :
    Team (ι × Instruction α D ρ) RaceFree where
  threads := items.map fun i => (program i).map (Prod.mk i)
  free := by
    rw [List.pairwise_map]
    refine List.Nodup.pairwise_of_forall_ne h.nodup fun i hi j hj hij x hx y hy => ?_
    obtain ⟨x, hxi, rfl⟩ := List.mem_map.mp hx
    obtain ⟨y, hyj, rfl⟩ := List.mem_map.mp hy
    refine ⟨hij, fun hstore => ?_⟩
    rcases hstore with hstore | hstore
    · exact h.address i hi j hj hij x hxi y hyj hstore
    · exact (h.address j hj i hi hij.symm y hyj x hxi hstore).symm

def serial (items : List ι) (program : ι → List (Instruction α D ρ)) (m : Machine ι α D ρ) :
    Machine ι α D ρ :=
  items.foldl (fun m i => alone i (program i) m) m

/-- What a program leaves at an address it does not store to, and in other registers. -/
theorem alone_frame {i : ι} {l : List (Instruction α D ρ)} (m : Machine ι α D ρ) :
    (∀ a, (∀ x ∈ l, x.IsStore → x.address ≠ a) → (alone i l m).memory a = m.memory a) ∧
      ∀ j, j ≠ i → (alone i l m).registers j = m.registers j := by
  induction l generalizing m with
  | nil => exact ⟨fun _ _ => rfl, fun _ _ => rfl⟩
  | cons x l ih =>
    obtain ⟨hmemory, hregisters⟩ := ih (exec m (i, x))
    constructor
    · intro a ha
      refine (hmemory a fun y hy => ha y (List.mem_cons_of_mem x hy)).trans ?_
      cases x with
      | load b f => rfl
      | store b f =>
        have hab : a ≠ b := (ha _ List.mem_cons_self trivial).symm
        exact Function.update_of_ne hab _ _
    · intro j hj
      refine (hregisters j hj).trans ?_
      cases x with
      | load b f => exact Function.update_of_ne hj _ _
      | store b f => rfl

/-- A program depends on the addresses it names and on its registers only. -/
theorem alone_congr {i : ι} {l : List (Instruction α D ρ)} {S : Set α}
    (hl : ∀ x ∈ l, x.address ∈ S) {m m' : Machine ι α D ρ}
    (hmemory : ∀ a ∈ S, m.memory a = m'.memory a) (hregisters : m.registers i = m'.registers i) :
    ∀ a ∈ S, (alone i l m).memory a = (alone i l m').memory a := by
  induction l generalizing m m' with
  | nil => exact hmemory
  | cons x l ih =>
    have hx := hl x List.mem_cons_self
    apply ih (fun y hy => hl y (List.mem_cons_of_mem x hy))
    · intro a ha
      cases x with
      | load b f => exact hmemory a ha
      | store b f =>
        simp only [exec, hregisters]
        by_cases hab : a = b
        · rw [hab, Function.update_self, Function.update_self]
        · rw [Function.update_of_ne hab, Function.update_of_ne hab, hmemory a ha]
    · cases x with
      | load b f =>
        simp only [exec, Function.update_self]
        rw [hmemory b hx, hregisters]
      | store b f => exact hregisters

theorem serial_frame (m : Machine ι α D ρ) {a : α}
    (h : ∀ i ∈ items, ∀ x ∈ program i, x.IsStore → x.address ≠ a) :
    (serial items program m).memory a = m.memory a := by
  induction items generalizing m with
  | nil => rfl
  | cons j items ih =>
    refine (ih (alone j (program j) m) fun i hi => h i (List.mem_cons_of_mem j hi)).trans ?_
    exact (alone_frame m).1 a (h j List.mem_cons_self)

/-- An address an item names holds what the item leaves there by itself. -/
theorem ConflictFree.serial_memory (h : ConflictFree items program) (m : Machine ι α D ρ) {i : ι}
    (hi : i ∈ items) {x : Instruction α D ρ} (hx : x ∈ program i) :
    (serial items program m).memory x.address = (alone i (program i) m).memory x.address := by
  obtain ⟨hnodup, haddress⟩ := h
  induction items generalizing m with
  | nil => cases hi
  | cons j items ih =>
    obtain ⟨hj, hnodup⟩ := List.nodup_cons.mp hnodup
    rcases List.mem_cons.mp hi with rfl | hi
    · -- the items behind it do not store there
      have hbehind : ∀ i' ∈ items, ∀ y ∈ program i', y.IsStore → y.address ≠ x.address :=
        fun i' hi' y hy hstore => haddress i' (List.mem_cons_of_mem i hi') i List.mem_cons_self
          (ne_of_mem_of_not_mem hi' hj) y hy x hx hstore
      exact serial_frame _ hbehind
    · -- nor does the item in front of it
      have hij : i ≠ j := ne_of_mem_of_not_mem hi hj
      have hbefore : ∀ a ∈ {a | ∃ x ∈ program i, x.address = a},
          (alone j (program j) m).memory a = m.memory a := by
        rintro _ ⟨z, hz, rfl⟩
        refine (alone_frame m).1 _ fun y hy hstore => ?_
        exact haddress j List.mem_cons_self i (List.mem_cons_of_mem j hi) hij.symm y hy z hz hstore
      have hnamed : ∀ y ∈ program i, y.address ∈ {a | ∃ x ∈ program i, x.address = a} :=
        fun y hy => ⟨y, hy, rfl⟩
      refine (ih (alone j (program j) m) hi hnodup fun i hi i' hi' =>
        haddress i (List.mem_cons_of_mem j hi) i' (List.mem_cons_of_mem j hi')).trans ?_
      exact alone_congr hnamed hbefore ((alone_frame m).2 i hij) _ ⟨x, hx, rfl⟩

abbrev Reached (items : List ι) (program : ι → List (Instruction α D ρ)) (m : Machine ι α D ρ)
    (e : Machine ι α D ρ × Team (ι × Instruction α D ρ) fun _ _ => True) : Prop :=
  ReflTransGen (Team.Moves exec) (m, enqueue items program) e

theorem foldl_enqueue (m : Machine ι α D ρ) :
    (enqueue items program).threads.flatten.foldl exec m = serial items program m := by
  show (items.map fun i => (program i).map (Prod.mk i)).flatten.foldl exec m = _
  induction items generalizing m with
  | nil => rfl
  | cons i items ih =>
    rw [List.map_cons, List.flatten_cons, List.foldl_append, ih, List.foldl_map]
    rfl

theorem exists_final (items : List ι) (program : ι → List (Instruction α D ρ))
    (m : Machine ι α D ρ) :
    ∃ e, Reached items program m e ∧ Final (Team.Moves exec) e ∧
      e.1 = serial items program m := by
  obtain ⟨p', hfinished, hreach⟩ := Team.reach_finished exec m (enqueue items program)
  exact ⟨_, hreach, fun _ => hfinished.not_moves, foldl_enqueue m⟩

theorem no_infinite_run (m : Machine ι α D ρ) :
    ¬ ∃ run : ℕ → Machine ι α D ρ × Team (ι × Instruction α D ρ) fun _ _ => True,
      run 0 = (m, enqueue items program) ∧ ∀ k, Team.Moves exec (run k) (run (k + 1)) :=
  Team.no_infinite_steps exec m (enqueue items program)

/-- Wherever a run of a launch without conflicts stops, the items have left what they leave one
after the other. -/
theorem ConflictFree.final_eq (h : ConflictFree items program) {m : Machine ι α D ρ}
    {e : Machine ι α D ρ × Team (ι × Instruction α D ρ) fun _ _ => True}
    (hreach : Reached items program m e) (he : Final (Team.Moves exec) e) :
    e.1 = serial items program m := by
  have hthreads : h.team.threads = (enqueue items program).threads := rfl
  obtain ⟨q, hq, hrun⟩ := Team.reach_retype hthreads hreach
  rw [← foldl_enqueue]
  refine Team.final_eq exec_comm hrun fun y hy => ?_
  obtain ⟨s', q'⟩ := y
  obtain ⟨r, -, hr⟩ := hy.retype hq.symm
  exact he _ hr

end Races

end WorkItems
end ParallelPrograms
