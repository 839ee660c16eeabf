import ParallelPrograms.KMeans.Flat

namespace ParallelPrograms.KMeans.OpenMP.Flat

open Barriers (Event)

variable {F : Type} [Field F] [CMath F] [LinearOrder F] (p : Barriers.Input F) (a : Input F)
  (found : ℕ → ℕ → Found F)

/-- The accesses that come with one step: a thread that passes the test of the loop makes those of
the iteration.  Of what it finds there, `found u t` for thread `u` in iteration `t`, nothing is
assumed. -/
def stepAccesses (s : Barriers.State F) : Event → List ℤ
  | .thread u =>
    let t := s.threads u
    if t.pc = .test ∧ Barriers.threshold < s.deltaGlobal ∧
        t.iterationCount < Barriers.maxIterations then
      accesses a (found u t.iterationCount) t.iterationCount u
    else []
  | .barrier => []

def run (v : Barriers.State F × List ℤ) : List Event → Option (Barriers.State F × List ℤ)
  | [] => some v
  | e :: events => (Barriers.step p v.1 e).bind fun s =>
    run (s, v.2 ++ stepAccesses a found v.1 e) events

def launch (delta : F) : Barriers.State F × List ℤ := (Barriers.start delta, [])

/-- The accesses so far are in the array, and those of the copy are when all threads have
left. -/
def Safe (v : Barriers.State F × List ℤ) : Prop :=
  InBounds a.numCluster v.2 ∧ ((∀ u < p.numThreads, (v.1.threads u).pc = .left) →
    InBounds a.numCluster (copyReads a.numCluster v.1.iteration))

variable {p a found}

theorem run_mono {v w : Barriers.State F × List ℤ} {events : List Event}
    (h : run p a found v events = some w) : ∀ x ∈ v.2, x ∈ w.2 := by
  induction events generalizing v with
  | nil =>
    obtain rfl := Option.some.inj h
    exact fun x hx => hx
  | cons e events ih =>
    obtain ⟨s, -, hrest⟩ := Option.bind_eq_some_iff.mp h
    exact fun x hx => ih hrest x (List.mem_append_left _ hx)

omit [CMath F] in
theorem launch_step {delta : F} {e : Event} {s : Barriers.State F}
    (h : Barriers.step p (launch delta).1 e = some s) : ∃ u, e = .thread u := by
  cases e with
  | thread u => exact ⟨u, rfl⟩
  | barrier =>
    simp only [Barriers.step] at h
    split_ifs at h with hwaiting
    exact absurd (hwaiting 0 p.pos) (by simp [launch, Barriers.start, Barriers.Pc.waiting])

/-- The first thread that enters an iteration reads in front of the array. -/
theorem not_inBounds_of_lt (hpos : 1 ≤ a.numCluster) {delta : F}
    (hdelta : Barriers.threshold < delta) {e : Event} {events : List Event}
    {w : Barriers.State F × List ℤ} (h : run p a found (launch delta) (e :: events) = some w) :
    ¬ InBounds a.numCluster w.2 := by
  obtain ⟨s, hstep, hrest⟩ := Option.bind_eq_some_iff.mp h
  obtain ⟨u, rfl⟩ := launch_step hstep
  have hgoes : (launch delta).2 ++ stepAccesses a found (launch delta).1 (.thread u) =
      accesses a (found u 0) 0 u :=
    if_pos ⟨rfl, hdelta, (by decide : 0 < Barriers.maxIterations)⟩
  rw [hgoes] at hrest
  intro hin
  have hfirst := (inBounds_accesses a hpos (found u 0) (by decide : 0 < 200) u).mp
    fun x hx => hin x (run_mono hrest x hx)
  exact absurd hfirst.1 (by decide)

structure Idle (delta : F) (v : Barriers.State F × List ℤ) : Prop where
  accessed : v.2 = []
  deltaGlobal : v.1.deltaGlobal = delta
  iteration : v.1.iteration = 0
  thread : ∀ u, (v.1.threads u).pc = .test ∨ (v.1.threads u).pc = .left

theorem Idle.step {delta : F} (hdelta : ¬ Barriers.threshold < delta)
    {v : Barriers.State F × List ℤ} (h : Idle delta v) {e : Event} {s : Barriers.State F}
    (hstep : Barriers.step p v.1 e = some s) :
    Idle delta (s, v.2 ++ stepAccesses a found v.1 e) := by
  have hstays : ¬ Barriers.threshold < v.1.deltaGlobal := by rwa [h.deltaGlobal]
  cases e with
  | barrier =>
    simp only [Barriers.step] at hstep
    split_ifs at hstep with hwaiting
    have hzero := hwaiting 0 p.pos
    rcases h.thread 0 with hpc | hpc <;> simp [hpc, Barriers.Pc.waiting] at hzero
  | thread u =>
    simp only [Barriers.step] at hstep
    split_ifs at hstep
    rcases h.thread u with hpc | hpc
    · simp only [Barriers.act, hpc, Option.some.injEq, hstays, false_and, if_false] at hstep
      subst hstep
      refine ⟨?_, h.deltaGlobal, h.iteration, fun w => ?_⟩
      · rw [h.accessed]
        exact if_neg fun hgoes => hstays hgoes.2.1
      · by_cases hwu : w = u
        · subst hwu
          rw [Barriers.State.put_self]
          exact .inr rfl
        · rw [Barriers.State.put_of_ne _ _ hwu]
          exact h.thread w
    · simp [Barriers.act, hpc] at hstep

theorem Idle.run {delta : F} (hdelta : ¬ Barriers.threshold < delta)
    {v w : Barriers.State F × List ℤ} (h : Idle delta v) {events : List Event}
    (hrun : run p a found v events = some w) : Idle delta w := by
  induction events generalizing v with
  | nil =>
    obtain rfl := Option.some.inj hrun
    exact h
  | cons e events ih =>
    obtain ⟨s, hstep, hrest⟩ := Option.bind_eq_some_iff.mp hrun
    exact ih (h.step hdelta hstep) hrest

/-- A run stays in the array only when it makes no iteration at all.  Otherwise the delta of the
first iteration reads in front of the array; the update of the last one that is permitted
writes behind it, unless the thread has no points; and so does the copy after as many. -/
theorem safe_iff (hpos : 1 ≤ a.numCluster) :
    (∀ (delta : F) (e : Event) (events : List Event) (w : Barriers.State F × List ℤ),
      run p a found (launch delta) (e :: events) = some w →
      (Safe p a w ↔ delta ≤ Barriers.threshold)) ∧
    (∀ t < 200, ∀ u, InBounds a.numCluster (assign a (found u t) t u).2 ∧
      (InBounds a.numCluster (critical a.numCluster t (assign a (found u t) t u).1
        (found u t).atCritical).2 ↔ t + 1 < 200 ∨ a.block u = []) ∧
      (InBounds a.numCluster (deltaReads a.numCluster t) ↔ 1 ≤ t)) ∧
    ∀ iteration, InBounds a.numCluster (copyReads a.numCluster iteration) ↔ iteration < 200 := by
  refine ⟨fun delta e events w h => ?_, fun t ht u => ⟨inBounds_assign a _ ht u, ?_,
    inBounds_deltaReads hpos ht⟩, inBounds_copyReads hpos⟩
  · constructor
    · intro hsafe
      by_contra hlt
      exact not_inBounds_of_lt hpos (not_le.mp hlt) h hsafe.1
    · intro hle
      have hstart : Idle delta (launch delta) := ⟨rfl, rfl, rfl, fun _ => .inl rfl⟩
      have hidle := hstart.run (not_lt.mpr hle) h
      constructor
      · rw [hidle.accessed]
        exact fun x hx => absurd hx List.not_mem_nil
      · intro _
        rw [hidle.iteration, inBounds_copyReads hpos]
        decide
  · rw [inBounds_critical, clusterCount_eq_zero_iff a hpos]

noncomputable def onePoint : Input ℝ := ⟨1, 1, 1, fun _ => 0⟩

noncomputable def oneThread : Barriers.Input ℝ :=
  ⟨1, Nat.one_pos, fun _ _ => 0, fun _ _ => le_rfl, Barriers.nearest⟩

theorem threshold_lt_declared : Barriers.threshold < oneThread.declared := by
  have hfloor :=
    Int.sub_one_lt_floor ((Barriers.threshold + 1 : ℝ) * 8388608 + ((2 : ℕ) : ℝ)⁻¹)
  have hhalf : (0 : ℝ) < ((2 : ℕ) : ℝ)⁻¹ := by positivity
  have hthreshold : (Barriers.threshold : ℝ) = 1 / 10000 := rfl
  show (Barriers.threshold : ℝ) <
    ⌊(Barriers.threshold + 1 : ℝ) * 8388608 + ((2 : ℕ) : ℝ)⁻¹⌋ / 8388608
  rw [lt_div_iff₀ (by norm_num)]
  linarith

noncomputable def zeros : ℕ → ℕ → Found ℝ := fun _ _ => ⟨fun _ _ => 0, fun _ => 0, fun _ => 0⟩

theorem onePoint_run (delta : ℝ) :
    ∃ w, run oneThread onePoint zeros (launch delta) [.thread 0] = some w := by
  have hstep : Barriers.step oneThread (launch delta).1 (.thread 0) =
      Barriers.act oneThread 0 (launch delta).1 := by
    simp [Barriers.step, oneThread]
  rw [run, hstep]
  exact ⟨_, rfl⟩

/-- With `delta_global` as declared the thread leaves the array at once; a thread that finds no
delta above the threshold does not enter it. -/
theorem safe_iff_onePoint :
    (∃ w, run oneThread onePoint zeros (launch oneThread.declared) [.thread 0] = some w ∧
      ¬ Safe oneThread onePoint w) ∧
    ∃ w, run oneThread onePoint zeros (launch 0) [.thread 0] = some w ∧
      Safe oneThread onePoint w := by
  obtain ⟨v, hv⟩ := onePoint_run oneThread.declared
  obtain ⟨w, hw⟩ := onePoint_run 0
  have hthreshold : (0 : ℝ) ≤ Barriers.threshold := by
    rw [Barriers.threshold]
    norm_num
  refine ⟨⟨v, hv, fun hsafe => ?_⟩, w, hw, ((safe_iff le_rfl).1 _ _ _ w hw).mpr hthreshold⟩
  exact absurd (((safe_iff le_rfl).1 _ _ _ v hv).mp hsafe) (not_le.mpr threshold_lt_declared)

/-- The declared value of `delta_global` lets the first thread in. -/
theorem not_safe : ¬ ∀ (p : Barriers.Input ℝ) (a : Input ℝ) (found : ℕ → ℕ → Found ℝ)
    (events : List Event) (w : Barriers.State ℝ × List ℤ), 1 ≤ a.numCluster →
    p.numThreads = a.numThreads →
    run p a found (launch p.declared) events = some w → Safe p a w := by
  intro h
  obtain ⟨w, hw⟩ := onePoint_run oneThread.declared
  exact not_inBounds_of_lt le_rfl threshold_lt_declared hw
    (h oneThread onePoint zeros _ w le_rfl rfl hw).1

end ParallelPrograms.KMeans.OpenMP.Flat
