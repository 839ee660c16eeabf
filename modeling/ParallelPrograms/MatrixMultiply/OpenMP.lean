import ParallelPrograms.MatrixMultiply.Model
import ParallelPrograms.Team

namespace ParallelPrograms.MatrixMultiply.OpenMP
open Relation

variable {n : ℕ}

inductive Statement (n : ℕ) where
  /-- `z[i][j] = 0` -/
  | clear
  /-- `total = x[i][k] * y[k][j]` -/
  | multiply (k : Fin n)
  /-- `z[i][j] += total` -/
  | add

/-- A statement and the thread that executes it, with its `i` and `j`. -/
structure Update (n : ℕ) where
  thread : ℕ
  i : Fin n
  j : Fin n
  statement : Statement n

/-- `z` and the copies of `total`, which the threads use as temporaries: nothing reads their sum. -/
structure Shared (n : ℕ) where
  z : IntMatrix n
  total : ℕ → BitVec 32

namespace Update

def apply (x y : IntMatrix n) (s : Shared n) (u : Update n) : Shared n :=
  match u.statement with
  | .clear => { s with z := store s.z u.i u.j 0 }
  | .multiply k => { s with total := Function.update s.total u.thread (x u.i k * y k u.j) }
  | .add => { s with z := store s.z u.i u.j (s.z u.i u.j + s.total u.thread) }

def Free (u v : Update n) : Prop := u.thread ≠ v.thread ∧ u.i ≠ v.i

end Update

def column (t : ℕ) (i j : Fin n) : List (Update n) :=
  ⟨t, i, j, .clear⟩ :: (List.finRange n).flatMap fun k => [⟨t, i, j, .multiply k⟩, ⟨t, i, j, .add⟩]

def pass (t : ℕ) (i : Fin n) : List (Update n) := (List.finRange n).flatMap (column t i)

/-- The passes each thread of the team gets, in the order it makes them. -/
structure Assignment (n : ℕ) where
  threads : List (List (Fin n))
  perm : threads.flatten.Perm (List.finRange n)

def Assignment.passes (a : Assignment n) : List (List (ℕ × Fin n)) :=
  a.threads.zipIdx.map fun p => p.1.map fun i => (p.2, i)

theorem of_mem_column {t : ℕ} {i j : Fin n} :
    ∀ u ∈ column t i j, u.thread = t ∧ u.i = i ∧ u.j = j := by
  intro u hu
  rcases List.mem_cons.mp hu with rfl | hu
  · exact ⟨rfl, rfl, rfl⟩
  · obtain ⟨k, -, hu⟩ := List.mem_flatMap.mp hu
    rcases List.mem_pair.mp hu with rfl | rfl
    · exact ⟨rfl, rfl, rfl⟩
    · exact ⟨rfl, rfl, rfl⟩

theorem of_mem_pass {t : ℕ} {i : Fin n} : ∀ u ∈ pass t i, u.thread = t ∧ u.i = i := by
  intro u hu
  obtain ⟨j, -, hu⟩ := List.mem_flatMap.mp hu
  obtain ⟨ht, hi, -⟩ := of_mem_column u hu
  exact ⟨ht, hi⟩

theorem Assignment.free (a : Assignment n) :
    (a.passes.map fun ps => ps.flatMap fun p => pass p.1 p.2).Pairwise
      fun us vs => ∀ u ∈ us, ∀ v ∈ vs, Update.Free u v := by
  have hnodup : a.threads.flatten.Nodup := a.perm.nodup_iff.mpr (List.nodup_finRange n)
  have hrows := (List.pairwise_flatten.mp hnodup).2
  rw [← List.zipIdx_map_fst 0 a.threads, List.pairwise_map] at hrows
  have hthreads : a.threads.zipIdx.Pairwise fun p q => p.2 ≠ q.2 := by
    rw [← List.pairwise_map (f := Prod.snd), List.zipIdx_map_snd]
    exact List.nodup_range'
  apply Team.pairwise_flatMap
  rw [passes, List.pairwise_map]
  refine (hthreads.and hrows).imp fun {p q} hne r hr r' hr' u hu v hv => ?_
  obtain ⟨i, hi, rfl⟩ := List.mem_map.mp hr
  obtain ⟨i', hi', rfl⟩ := List.mem_map.mp hr'
  obtain ⟨hut, hui⟩ := of_mem_pass u hu
  obtain ⟨hvt, hvi⟩ := of_mem_pass v hv
  rw [Update.Free, hut, hvt, hui, hvi]
  exact ⟨hne.1, hne.2 i hi i' hi'⟩

def Assignment.fork (a : Assignment n) : Team (Update n) Update.Free :=
  ⟨a.passes.map fun ps => ps.flatMap fun p => pass p.1 p.2, a.free⟩

def start (z : IntMatrix n) : Shared n := ⟨z, fun _ => 0⟩

theorem Update.apply_eq (x y : IntMatrix n) (u : Update n) :
    ∃ f : (Fin n → BitVec 32) → BitVec 32 → (Fin n → BitVec 32) × BitVec 32, ∀ s : Shared n,
      u.apply x y s = ⟨s.z.updateRow u.i (f (s.z u.i) (s.total u.thread)).1,
        Function.update s.total u.thread (f (s.z u.i) (s.total u.thread)).2⟩ := by
  obtain ⟨t, i, j, statement⟩ := u
  cases statement with
  | clear =>
    refine ⟨fun row total => (Function.update row j 0, total), fun s => ?_⟩
    rw [Function.update_eq_self]
    rfl
  | multiply k =>
    refine ⟨fun row _ => (row, x i k * y k j), fun s => ?_⟩
    rw [Matrix.updateRow_eq_self]
    rfl
  | add =>
    refine ⟨fun row total => (Function.update row j (row j + total), total), fun s => ?_⟩
    rw [Function.update_eq_self]
    rfl

theorem Update.apply_comm (x y : IntMatrix n) (s : Shared n) (u v : Update n) (h : Free u v) :
    (v.apply x y (u.apply x y s)) = u.apply x y (v.apply x y s) := by
  obtain ⟨f, hf⟩ := u.apply_eq x y
  obtain ⟨g, hg⟩ := v.apply_eq x y
  obtain ⟨hthread, hrow⟩ := h
  rw [hg, hf, hf, hg]
  simp only [Matrix.updateRow_ne hrow.symm, Matrix.updateRow_ne hrow,
    Function.update_of_ne hthread.symm, Function.update_of_ne hthread]
  rw [Matrix.updateRow_comm _ hrow, Function.update_comm hthread]

section Loops

variable (x y : IntMatrix n)

theorem apply_ne (s : Shared n) (u : Update n) {i j : Fin n} (h : ¬ (i = u.i ∧ j = u.j)) :
    (u.apply x y s).z i j = s.z i j := by
  obtain ⟨t, i', j', statement⟩ := u
  cases statement with
  | clear => exact store_ne s.z 0 h
  | multiply k => rfl
  | add => exact store_ne s.z _ h

theorem column_ne (s : Shared n) (t : ℕ) {i j i' j' : Fin n} (h : ¬ (i = i' ∧ j = j')) :
    ((column t i' j').foldl (Update.apply x y) s).z i j = s.z i j := by
  refine foldl_frame (fun s : Shared n => s.z i j) _ s fun s u hu => apply_ne x y s u ?_
  obtain ⟨-, hi, hj⟩ := of_mem_column u hu
  rwa [hi, hj]

/-- A pass of the innermost loop adds its product by way of `total`. -/
theorem inner_pass_self (s : Shared n) (t : ℕ) (i j k : Fin n) :
    ([⟨t, i, j, .multiply k⟩, ⟨t, i, j, .add⟩].foldl (Update.apply x y) s).z i j =
      s.z i j + x i k * y k j := by
  simp only [List.foldl_cons, List.foldl_nil, Update.apply, store_self, Function.update_self]

/-- The body of the loop over `j` sets its element, whatever `z` and `total` hold. -/
theorem column_self (s : Shared n) (t : ℕ) (i j : Fin n) :
    ((column t i j).foldl (Update.apply x y) s).z i j = (x * y) i j := by
  have hloop : ∀ (l : List (Fin n)) (s : Shared n),
      ((l.flatMap fun k => [⟨t, i, j, .multiply k⟩, ⟨t, i, j, .add⟩]).foldl
        (Update.apply x y) s).z i j = s.z i j + (l.map fun k => x i k * y k j).sum := by
    intro l
    induction l with
    | nil => simp
    | cons k l ih =>
      intro s
      rw [List.flatMap_cons, List.foldl_append, ih, inner_pass_self, List.map_cons, List.sum_cons,
        add_assoc]
  have hclear : (Update.apply x y s ⟨t, i, j, .clear⟩).z i j = 0 := store_self s.z i j 0
  rw [column, List.foldl_cons, hloop, hclear, zero_add, Matrix.mul_apply, Fin.sum_univ_def]

theorem pass_self (s : Shared n) (t : ℕ) (i j : Fin n) :
    ((pass t i).foldl (Update.apply x y) s).z i j = (x * y) i j := by
  rw [pass, List.foldl_flatMap]
  refine foldl_written (fun s : Shared n => s.z i j) s (List.mem_finRange j)
    (fun s => column_self x y s t i j) (fun s j' _ hj => ?_)
  exact column_ne x y s t fun h => hj h.2.symm

theorem pass_ne (s : Shared n) (t : ℕ) {i i' : Fin n} (j : Fin n) (h : i ≠ i') :
    ((pass t i').foldl (Update.apply x y) s).z i j = s.z i j := by
  rw [pass, List.foldl_flatMap]
  exact foldl_frame (fun s : Shared n => s.z i j) _ s
    fun s j' _ => column_ne x y s t fun h' => h h'.1

theorem Assignment.passes_perm (a : Assignment n) :
    (a.passes.flatten.map Prod.snd).Perm (List.finRange n) := by
  have hrows : a.passes.flatten.map Prod.snd = a.threads.flatten := by
    calc a.passes.flatten.map Prod.snd = (a.threads.zipIdx.map Prod.fst).flatten := by
          rw [passes, List.map_flatten, List.map_map]
          simp [Function.comp_def]
      _ = a.threads.flatten := by rw [List.zipIdx_map_fst]
  rw [hrows]
  exact a.perm

/-- The threads leave the product, whatever `z` held before. -/
theorem Assignment.foldl_fork (a : Assignment n) (s : Shared n) :
    (a.fork.threads.flatten.foldl (Update.apply x y) s).z = x * y := by
  ext i j : 1
  have hnodup : (a.passes.flatten.map Prod.snd).Nodup :=
    a.passes_perm.nodup_iff.mpr (List.nodup_finRange n)
  obtain ⟨⟨t, i⟩, hp, rfl⟩ :=
    List.mem_map.mp (a.passes_perm.mem_iff.mpr (List.mem_finRange i))
  rw [fork, Team.foldl_flatten_passes]
  refine foldl_written (fun s : Shared n => s.z i j) s hp (fun s => pass_self x y s t i j)
    (fun s p hp' hne => ?_)
  exact pass_ne x y s p.1 j fun h => hne (List.inj_on_of_nodup_map hnodup hp' hp h.symm)

end Loops

abbrev Step (x y : IntMatrix n) :
    Shared n × Team (Update n) Update.Free → Shared n × Team (Update n) Update.Free → Prop :=
  Team.Moves (Update.apply x y)

/-- Both programs end with the product, the parallel one in every run. -/
structure Agree (a : Assignment n) (x y z : IntMatrix n) : Prop where
  sequential : main x y z = x * y
  terminates : ¬ ∃ run : ℕ → Shared n × Team (Update n) Update.Free,
    run 0 = (start z, a.fork) ∧ ∀ m, Step x y (run m) (run (m + 1))
  parallel : ∀ e, ReflTransGen (Step x y) (start z, a.fork) e → Final (Step x y) e → e.1.z = x * y

theorem final_z (a : Assignment n) (x y z : IntMatrix n)
    {e : Shared n × Team (Update n) Update.Free}
    (hreach : ReflTransGen (Step x y) (start z, a.fork) e) (he : Final (Step x y) e) :
    e.1.z = x * y := by
  rw [Team.final_eq (Update.apply_comm x y) hreach he]
  exact a.foldl_fork x y (start z)

/-- The parallel program clears `z` and the sequential one does not, so that they agree where
`z` is all 0 in front of the loops. -/
theorem products_agree_iff (a : Assignment n) (x y z : IntMatrix n) :
    Agree a x y z ↔ ∀ i j, z i j = 0 := by
  constructor
  · intro h i j
    have hsum : z + x * y = x * y := (accumulate_eq x y z).symm.trans h.sequential
    have hz : z = 0 := add_eq_right.mp hsum
    rw [hz, Matrix.zero_apply]
  · intro hz
    obtain rfl : z = 0 := Matrix.ext hz
    refine ⟨?_, Team.no_infinite_moves (Update.apply_comm x y) _ _, fun e => final_z a x y 0⟩
    rw [main, accumulate_eq, zero_add]

def oneRow : Assignment 1 := ⟨[[0]], .refl _⟩

/-- 1 times 1, added to a 7 that is already there. -/
theorem not_agree_stale : ¬ ∀ (n : ℕ) (a : Assignment n) (x y z : IntMatrix n), Agree a x y z := by
  intro h
  have hseven := (h 1 oneRow (fun _ _ => 1) (fun _ _ => 1) (fun _ _ => 7)).sequential
  have hcell := congrFun (congrFun hseven 0) 0
  revert hcell
  decide

end ParallelPrograms.MatrixMultiply.OpenMP
