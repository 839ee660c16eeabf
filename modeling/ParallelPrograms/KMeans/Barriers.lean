import Mathlib.Algebra.Field.Rat
import Mathlib.Algebra.Order.Field.Basic
import Mathlib.Algebra.Order.Group.Nat
import Mathlib.Data.Rat.Floor
import Mathlib.Algebra.Order.Ring.Unbundled.Rat
import Mathlib.Logic.Relation
import Mathlib.Order.Bounds.Basic

namespace ParallelPrograms.KMeans.Barriers

variable {F : Type} [Field F] [LinearOrder F]

/-- What a thread does next.  `masterWrite` holds the value it has read. -/
inductive Pc (F : Type) where
  | test
  | barrier1
  | compare
  | store
  | barrier2
  | count
  | masterRead
  | masterWrite (v : F)
  | masterReset
  | left
  deriving DecidableEq

structure Thread (F : Type) where
  pc : Pc F
  iterationCount : ℕ
  tested : List F

/-- `delta_global` is a float, `current_itr_delta_global` a double. -/
structure State (F : Type) where
  threads : ℕ → Thread F
  deltaGlobal : F
  currentItrDeltaGlobal : F
  iteration : ℕ

/-- The number of threads, the value of `current_delta` in every thread and iteration, a sum of
distances, and the conversion of a double to a float, of which nothing is assumed. -/
structure Input (F : Type) [Field F] [LinearOrder F] where
  numThreads : ℕ
  pos : 0 < numThreads
  currentDelta : ℕ → ℕ → F
  nonneg : ∀ threadId iterationCount, 0 ≤ currentDelta threadId iterationCount
  toFloat : F → F

def maxIterations : ℕ := 200

def threshold : F := 1 / 10000

def start (deltaGlobal : F) : State F := ⟨fun _ => ⟨.test, 0, []⟩, deltaGlobal, 0, 0⟩

def Input.declared (p : Input F) : F := p.toFloat (threshold + 1)

namespace Pc

def waiting : Pc F → Bool
  | barrier1 | barrier2 => true
  | _ => false

def release : Pc F → Pc F
  | barrier1 => compare
  | barrier2 => count
  | pc => pc

def pending : Pc F → Bool
  | count | masterRead | masterWrite _ => true
  | _ => false

end Pc

def State.put (s : State F) (u : ℕ) (t : Thread F) : State F :=
  { s with threads := Function.update s.threads u t }

omit [Field F] [LinearOrder F] in
@[simp] theorem State.put_self (s : State F) (u : ℕ) (t : Thread F) :
    (s.put u t).threads u = t := Function.update_self ..

omit [Field F] [LinearOrder F] in
theorem State.put_of_ne (s : State F) {u v : ℕ} (t : Thread F) (h : v ≠ u) :
    (s.put u t).threads v = s.threads v := Function.update_of_ne h ..

variable (p : Input F)

/-- The next step of a thread that is not at a barrier.  Thread 0 is the master. -/
def act (u : ℕ) (s : State F) : Option (State F) :=
  let t := s.threads u
  match t.pc with
  | .test => some (s.put u { t with
      pc := if threshold < s.deltaGlobal ∧ t.iterationCount < maxIterations then .barrier1
        else .left
      tested := t.tested ++ [s.deltaGlobal] })
  | .compare => some (s.put u { t with
      pc := if s.currentItrDeltaGlobal < p.currentDelta u t.iterationCount then .store
        else .barrier2 })
  | .store => some { s.put u { t with pc := .barrier2 } with
      currentItrDeltaGlobal := p.currentDelta u t.iterationCount }
  | .count => some (s.put u { t with
      pc := if u = 0 then .masterRead else .test
      iterationCount := t.iterationCount + 1 })
  | .masterRead => some (s.put u { t with pc := .masterWrite s.currentItrDeltaGlobal })
  | .masterWrite v => some
      { s.put u { t with pc := .masterReset } with deltaGlobal := p.toFloat v }
  | .masterReset => some { s.put u { t with pc := .test } with
      currentItrDeltaGlobal := 0
      iteration := s.iteration + 1 }
  | .barrier1 | .barrier2 | .left => none

inductive Event where
  | thread (u : ℕ)
  | barrier

/-- A barrier is passed when every thread is at one. -/
def step (s : State F) : Event → Option (State F)
  | .thread u => if u < p.numThreads then act p u s else none
  | .barrier =>
    if ∀ u < p.numThreads, (s.threads u).pc.waiting = true then
      some { s with threads := fun u => { s.threads u with pc := (s.threads u).pc.release } }
    else none

def run (s : State F) : List Event → Option (State F)
  | [] => some s
  | e :: events => (step p s e).bind fun s => run s events

def deltas (iterationCount : ℕ) : Set F :=
  {x | ∃ u < p.numThreads, x = p.currentDelta u iterationCount}

/-- No thread waits for one that has left, all leave after the same iteration, and the value
tested behind an iteration is what `stored` makes of the largest delta of it. -/
structure Lockstep (stored : F → F) (s : State F) : Prop where
  waiting : ∀ u < p.numThreads, (s.threads u).pc.waiting = true →
    ∀ v < p.numThreads, (s.threads v).pc ≠ .left
  left : ∀ u < p.numThreads, (s.threads u).pc = .left → ∀ v < p.numThreads,
    (s.threads v).pc = .left → (s.threads u).iterationCount = (s.threads v).iterationCount
  tested : ∀ u < p.numThreads, ∀ k v, (s.threads u).tested[k + 1]? = some v →
    ∃ m, IsGreatest (deltas p k) m ∧ stored m = v

/-- The steps that do not race: no thread tests `delta_global` while the master has yet to
write it, and none lowers `current_itr_delta_global`. -/
def Careful (s : State F) : Event → Prop
  | .thread u =>
    ((s.threads u).pc = .test → (s.threads 0).pc.pending = false) ∧
      ((s.threads u).pc = .store →
        s.currentItrDeltaGlobal ≤ p.currentDelta u (s.threads u).iterationCount)
  | .barrier => True

instance (s : State F) : (e : Event) → Decidable (Careful p s e)
  | .thread _ => inferInstanceAs (Decidable (_ ∧ _))
  | .barrier => inferInstanceAs (Decidable True)

def CarefulStep (s s' : State F) : Prop := ∃ e, Careful p s e ∧ step p s e = some s'

def Maximum : ℕ → F → Prop
  | 0, _ => True
  | k + 1, v => IsGreatest (deltas p k) v

def Narrowed (k : ℕ) (v : F) : Prop := ∃ m, Maximum p k m ∧ p.toFloat m = v

def Goes (k : ℕ) (s : State F) : Prop := threshold < s.deltaGlobal ∧ k < maxIterations

/-- Where a thread can be between the second barrier and the first one of iteration `k`. -/
def Tests (k : ℕ) (s : State F) (u : ℕ) (t : Thread F) : Prop :=
  match t.pc with
  | .count => t.iterationCount + 1 = k ∧ t.tested.length = k
  | .masterRead | .masterWrite _ | .masterReset =>
    u = 0 ∧ t.iterationCount = k ∧ t.tested.length = k
  | .test => t.iterationCount = k ∧ t.tested.length = k
  | .barrier1 => t.iterationCount = k ∧ t.tested.length = k + 1 ∧
    (s.threads 0).pc.pending = false ∧ Goes k s
  | .left => t.iterationCount = k ∧ t.tested.length = k + 1 ∧
    (s.threads 0).pc.pending = false ∧ ¬ Goes k s
  | .compare | .store | .barrier2 => False

/-- What the globals hold meanwhile: the master hands the maximum over. -/
def Handover (k : ℕ) (s : State F) : Pc F → Prop
  | .count | .masterRead => Maximum p k s.currentItrDeltaGlobal
  | .masterWrite v => Maximum p k v
  | .masterReset => Narrowed p k s.deltaGlobal
  | _ => Narrowed p k s.deltaGlobal ∧ s.currentItrDeltaGlobal = 0

structure Testing (k : ℕ) (s : State F) : Prop where
  thread : ∀ u < p.numThreads, Tests k s u (s.threads u)
  master : Handover p k s (s.threads 0).pc

/-- Where a thread can be between the two barriers of iteration `k`. -/
def Compares (k : ℕ) (s : State F) (u : ℕ) (t : Thread F) : Prop :=
  t.iterationCount = k ∧ t.tested.length = k + 1 ∧
    match t.pc with
    | .compare | .store => True
    | .barrier2 => p.currentDelta u k ≤ s.currentItrDeltaGlobal
    | _ => False

structure Comparing (k : ℕ) (s : State F) : Prop where
  thread : ∀ u < p.numThreads, Compares p k s u (s.threads u)
  value : s.currentItrDeltaGlobal = 0 ∨ s.currentItrDeltaGlobal ∈ deltas p k

def Tested (s : State F) : Prop :=
  ∀ u < p.numThreads, ∀ k v, (s.threads u).tested[k]? = some v → Narrowed p k v

structure Inv (s : State F) : Prop where
  phase : ∃ k, Testing p k s ∨ Comparing p k s
  tested : Tested p s

variable {p} {k u : ℕ} {s s' : State F}

/-- A thread that does not move does not notice, unless the master writes `delta_global`. -/
theorem Tests.mono {t : Thread F} (h : Tests k s u t)
    (hready : (s.threads 0).pc.pending = false →
      (s'.threads 0).pc.pending = false ∧ (Goes k s ↔ Goes k s')) : Tests k s' u t := by
  unfold Tests at h ⊢
  cases hpc : t.pc with
  | barrier1 =>
    rw [hpc] at h
    obtain ⟨hcount, hlen, hpending, hgoes⟩ := h
    obtain ⟨hpending', hiff⟩ := hready hpending
    exact ⟨hcount, hlen, hpending', hiff.mp hgoes⟩
  | left =>
    rw [hpc] at h
    obtain ⟨hcount, hlen, hpending, hgoes⟩ := h
    obtain ⟨hpending', hiff⟩ := hready hpending
    exact ⟨hcount, hlen, hpending', fun hg => hgoes (hiff.mpr hg)⟩
  | _ =>
    rw [hpc] at h
    exact h

theorem Testing.put (h : Testing p k s) {t : Thread F}
    (hthreads : s'.threads = Function.update s.threads u t)
    (hready : (s.threads 0).pc.pending = false →
      (s'.threads 0).pc.pending = false ∧ (Goes k s ↔ Goes k s'))
    (ht : Tests k s' u t) (hmaster : Handover p k s' (s'.threads 0).pc) : Testing p k s' where
  thread v hv := by
    rw [hthreads]
    by_cases hvu : v = u
    · subst hvu
      rwa [Function.update_self]
    · rw [Function.update_of_ne hvu]
      exact (h.thread v hv).mono hready
  master := hmaster

theorem Tested.put (h : Tested p s) {t : Thread F}
    (hthreads : s'.threads = Function.update s.threads u t)
    (ht : t.tested = (s.threads u).tested) : Tested p s' := by
  intro v hv j x hx
  rw [hthreads] at hx
  by_cases hvu : v = u
  · subst hvu
    rw [Function.update_self, ht] at hx
    exact h v hv j x hx
  · rw [Function.update_of_ne hvu] at hx
    exact h v hv j x hx

/-- A thread other than the master changes nothing the others look at. -/
theorem Testing.put_other (h : Testing p k s) {t : Thread F} (hu : u ≠ 0)
    (ht : Tests k (s.put u t) u t) : Testing p k (s.put u t) := by
  have hzero : (s.put u t).threads 0 = s.threads 0 := s.put_of_ne t (Ne.symm hu)
  refine h.put rfl (fun hpending => ⟨by rwa [hzero], Iff.rfl⟩) ht ?_
  rw [hzero]
  exact h.master

theorem Testing.put_master (h : Testing p k s) {t : Thread F}
    (hthreads : s'.threads = Function.update s.threads 0 t)
    (hready : (s.threads 0).pc.pending = false →
      t.pc.pending = false ∧ (Goes k s ↔ Goes k s'))
    (ht : Tests k s' 0 t) (hmaster : Handover p k s' t.pc) : Testing p k s' := by
  have hzero : s'.threads 0 = t := by rw [hthreads, Function.update_self]
  refine h.put hthreads ?_ ht ?_
  · rwa [hzero]
  · rwa [hzero]

/-- A step of the master in front of its write, of which the threads that have tested know
nothing because there are none. -/
theorem Testing.put_pending (h : Testing p k s) (hpending : (s.threads 0).pc.pending = true)
    {t : Thread F} (hthreads : s'.threads = Function.update s.threads 0 t)
    (ht : Tests k s' 0 t) (hmaster : Handover p k s' t.pc) : Testing p k s' := by
  refine h.put_master hthreads (fun hready => ?_) ht hmaster
  rw [hpending] at hready
  cases hready

theorem Tested.record (h : Tested p s) {x : F} (hx : Narrowed p k x) {t : Thread F}
    (hlen : (s.threads u).tested.length = k)
    (hthreads : s'.threads = Function.update s.threads u t)
    (ht : t.tested = (s.threads u).tested ++ [x]) : Tested p s' := by
  intro v hv j y hy
  rw [hthreads] at hy
  by_cases hvu : v = u
  · subst hvu
    rw [Function.update_self, ht, List.getElem?_append] at hy
    split_ifs at hy with hj
    · exact h v hv j y hy
    · obtain ⟨hj0, rfl⟩ : j - (s.threads v).tested.length = 0 ∧ x = y := by
        simpa [List.getElem?_singleton] using hy
      obtain rfl : j = k := by omega
      exact hx
  · rw [Function.update_of_ne hvu] at hy
    exact h v hv j y hy

theorem Testing.maximum (h : Testing p k s) (hpending : (s.threads 0).pc.pending = false) :
    Narrowed p k s.deltaGlobal := by
  have hmaster := h.master
  cases h0 : (s.threads 0).pc with
  | count | masterRead | masterWrite => simp [h0, Pc.pending] at hpending
  | masterReset =>
    rw [h0] at hmaster
    exact hmaster
  | _ =>
    rw [h0] at hmaster
    exact hmaster.1

theorem Testing.test (h : Testing p k s) (htested : Tested p s) (hu : u < p.numThreads)
    (hpc : (s.threads u).pc = .test) (hpending : (s.threads 0).pc.pending = false)
    (hact : act p u s = some s') : Testing p k s' ∧ Tested p s' := by
  have ht := h.thread u hu
  simp only [Tests, hpc] at ht
  obtain ⟨hcount, hlen⟩ := ht
  have hmax := h.maximum hpending
  simp only [act, hpc, Option.some.injEq] at hact
  rw [hcount] at hact
  constructor
  · -- whichever way the test ends
    obtain ⟨pc, hnext⟩ : ∃ pc : Pc F, pc = if threshold < s.deltaGlobal ∧ k < maxIterations then
        .barrier1 else .left := ⟨_, rfl⟩
    rw [← hnext] at hact
    have hready : pc.pending = false := by
      rw [hnext]
      split_ifs <;> rfl
    have hpending' : (s'.threads 0).pc.pending = false := by
      rw [← hact]
      by_cases h0 : u = 0
      · subst h0
        rwa [State.put_self]
      · rwa [State.put_of_ne _ _ (Ne.symm h0)]
    have hplace : Tests k s' u ⟨pc, k, (s.threads u).tested ++ [s.deltaGlobal]⟩ := by
      subst hact
      split_ifs at hnext with hgoes
      · subst hnext
        exact ⟨rfl, by simp [hlen], hpending', hgoes⟩
      · subst hnext
        exact ⟨rfl, by simp [hlen], hpending', hgoes⟩
    subst hact
    by_cases h0 : u = 0
    · subst h0
      have hmaster := h.master
      rw [hpc] at hmaster
      refine h.put_master rfl (fun _ => ⟨hready, Iff.rfl⟩) hplace ?_
      split_ifs at hnext
      · subst hnext
        exact hmaster
      · subst hnext
        exact hmaster
    · exact h.put_other h0 hplace
  · subst hact
    exact htested.record hmax hlen rfl rfl

theorem Testing.count (h : Testing p k s) (hu : u < p.numThreads)
    (hpc : (s.threads u).pc = .count) (hact : act p u s = some s') : Testing p k s' := by
  have ht := h.thread u hu
  simp only [Tests, hpc] at ht
  obtain ⟨hcount, hlen⟩ := ht
  simp only [act, hpc, Option.some.injEq] at hact
  subst hact
  by_cases h0 : u = 0
  · subst h0
    have hmaster := h.master
    rw [hpc] at hmaster
    exact h.put_pending (by rw [hpc]; rfl) rfl ⟨rfl, hcount, hlen⟩ hmaster
  · rw [if_neg h0]
    exact h.put_other h0 ⟨hcount, hlen⟩

theorem Testing.masterStep (h : Testing p k s) (hu : u < p.numThreads)
    (hpc : (s.threads u).pc = .masterRead ∨ (∃ v, (s.threads u).pc = .masterWrite v) ∨
      (s.threads u).pc = .masterReset) (hact : act p u s = some s') : Testing p k s' := by
  obtain ⟨rfl, hcount, hlen⟩ : u = 0 ∧ (s.threads u).iterationCount = k ∧
      (s.threads u).tested.length = k := by
    have ht := h.thread u hu
    rcases hpc with hpc | ⟨v, hpc⟩ | hpc <;> simpa only [Tests, hpc] using ht
  have hmaster := h.master
  rcases hpc with hpc | ⟨v, hpc⟩ | hpc
  · simp only [act, hpc, Option.some.injEq] at hact
    subst hact
    rw [hpc] at hmaster
    exact h.put_pending (by rw [hpc]; rfl) rfl ⟨rfl, hcount, hlen⟩ hmaster
  · simp only [act, hpc, Option.some.injEq] at hact
    subst hact
    rw [hpc] at hmaster
    exact h.put_pending (by rw [hpc]; rfl) rfl ⟨rfl, hcount, hlen⟩ ⟨v, hmaster, rfl⟩
  · simp only [act, hpc, Option.some.injEq] at hact
    subst hact
    rw [hpc] at hmaster
    exact h.put_master rfl (fun _ => ⟨rfl, Iff.rfl⟩) ⟨hcount, hlen⟩ ⟨hmaster, rfl⟩

/-- A value that only grows stays above the deltas it has been compared with. -/
theorem Comparing.put (h : Comparing p k s) {t : Thread F}
    (hthreads : s'.threads = Function.update s.threads u t)
    (hle : s.currentItrDeltaGlobal ≤ s'.currentItrDeltaGlobal) (ht : Compares p k s' u t)
    (hvalue : s'.currentItrDeltaGlobal = 0 ∨ s'.currentItrDeltaGlobal ∈ deltas p k) :
    Comparing p k s' where
  thread v hv := by
    rw [hthreads]
    by_cases hvu : v = u
    · subst hvu
      rwa [Function.update_self]
    · rw [Function.update_of_ne hvu]
      have hv' := h.thread v hv
      unfold Compares at hv' ⊢
      refine ⟨hv'.1, hv'.2.1, ?_⟩
      cases hpc : (s.threads v).pc with
      | barrier2 =>
        simp only [hpc] at hv'
        exact hv'.2.2.trans hle
      | _ =>
        simp only [hpc] at hv'
        exact hv'.2.2
  value := hvalue

theorem Comparing.compare (h : Comparing p k s) (hu : u < p.numThreads)
    (hpc : (s.threads u).pc = .compare) (hact : act p u s = some s') : Comparing p k s' := by
  have ht := h.thread u hu
  simp only [Compares, hpc] at ht
  obtain ⟨hcount, hlen, -⟩ := ht
  simp only [act, hpc, Option.some.injEq] at hact
  rw [hcount] at hact
  split_ifs at hact with hlt
  · subst hact
    exact h.put rfl le_rfl ⟨rfl, hlen, trivial⟩ h.value
  · subst hact
    exact h.put rfl le_rfl ⟨rfl, hlen, not_lt.mp hlt⟩ h.value

theorem Comparing.store (h : Comparing p k s) (hu : u < p.numThreads)
    (hpc : (s.threads u).pc = .store)
    (hle : s.currentItrDeltaGlobal ≤ p.currentDelta u (s.threads u).iterationCount)
    (hact : act p u s = some s') : Comparing p k s' := by
  have ht := h.thread u hu
  simp only [Compares, hpc] at ht
  obtain ⟨hcount, hlen, -⟩ := ht
  simp only [act, hpc, Option.some.injEq] at hact
  rw [hcount] at hact hle
  subst hact
  exact h.put rfl hle ⟨rfl, hlen, le_rfl⟩ (.inr ⟨u, hu, rfl⟩)

/-- All threads in front of the first barrier have passed the same test. -/
theorem Testing.barrier (h : Testing p k s)
    (hwaiting : ∀ u < p.numThreads, (s.threads u).pc.waiting = true) :
    Comparing p k { s with threads := fun u =>
      { s.threads u with pc := (s.threads u).pc.release } } where
  thread u hu := by
    have ht := h.thread u hu
    have hu' := hwaiting u hu
    cases hpc : (s.threads u).pc with
    | barrier1 =>
      simp only [Tests, hpc] at ht
      simp only [Compares, hpc, Pc.release]
      exact ⟨ht.1, ht.2.1, trivial⟩
    | barrier2 =>
      simp only [Tests, hpc] at ht
    | _ => simp [hpc, Pc.waiting] at hu'
  value := by
    have hmaster := h.master
    have ht := h.thread 0 p.pos
    have h0 := hwaiting 0 p.pos
    cases hpc : (s.threads 0).pc with
    | barrier1 =>
      rw [hpc] at hmaster
      exact .inl hmaster.2
    | barrier2 => simp only [Tests, hpc] at ht
    | _ => simp [hpc, Pc.waiting] at h0

theorem Comparing.barrier (h : Comparing p k s)
    (hwaiting : ∀ u < p.numThreads, (s.threads u).pc.waiting = true) :
    Testing p (k + 1) { s with threads := fun u =>
      { s.threads u with pc := (s.threads u).pc.release } } := by
  have hbarrier : ∀ u < p.numThreads, (s.threads u).pc = .barrier2 ∧
      (s.threads u).iterationCount = k ∧ (s.threads u).tested.length = k + 1 ∧
        p.currentDelta u k ≤ s.currentItrDeltaGlobal := by
    intro u hu
    have ht := h.thread u hu
    have hu' := hwaiting u hu
    cases hpc : (s.threads u).pc with
    | barrier2 =>
      simp only [Compares, hpc] at ht
      exact ⟨rfl, ht⟩
    | barrier1 => simp [Compares, hpc] at ht
    | _ => simp [hpc, Pc.waiting] at hu'
  have hmax : IsGreatest (deltas p k) s.currentItrDeltaGlobal := by
    constructor
    · rcases h.value with hzero | hmem
      · obtain ⟨-, -, -, hle⟩ := hbarrier 0 p.pos
        rw [hzero] at hle ⊢
        exact ⟨0, p.pos, (le_antisymm hle (p.nonneg 0 k)).symm⟩
      · exact hmem
    · rintro x ⟨u, hu, rfl⟩
      exact (hbarrier u hu).2.2.2
  refine ⟨fun u hu => ?_, ?_⟩
  · obtain ⟨hpc, hcount, hlen, -⟩ := hbarrier u hu
    simp only [Tests, hpc, Pc.release]
    exact ⟨congrArg (· + 1) hcount, hlen⟩
  · simp only [(hbarrier 0 p.pos).1, Pc.release]
    exact hmax

theorem start_inv : Inv p (start p.declared) where
  phase := ⟨0, .inl ⟨fun _ _ => ⟨rfl, rfl⟩, ⟨threshold + 1, trivial, rfl⟩, rfl⟩⟩
  tested u _ j x hx := by simp [start] at hx

theorem act_tested (hpc : (s.threads u).pc ≠ .test) (hact : act p u s = some s') :
    ∃ t, s'.threads = Function.update s.threads u t ∧ t.tested = (s.threads u).tested := by
  cases h : (s.threads u).pc with
  | test => exact absurd h hpc
  | barrier1 | barrier2 | left => simp [act, h] at hact
  | _ =>
    simp only [act, h, Option.some.injEq] at hact
    subst hact
    exact ⟨_, rfl, rfl⟩

theorem Testing.step (h : Testing p k s) (htested : Tested p s) (hu : u < p.numThreads)
    (hcareful : Careful p s (.thread u)) (hact : act p u s = some s') :
    Testing p k s' ∧ Tested p s' := by
  by_cases htest : (s.threads u).pc = .test
  · exact h.test htested hu htest (hcareful.1 htest) hact
  · obtain ⟨t, hthreads, ht⟩ := act_tested htest hact
    refine ⟨?_, htested.put hthreads ht⟩
    have hplace := h.thread u hu
    cases hpc : (s.threads u).pc with
    | test => exact absurd hpc htest
    | count => exact h.count hu hpc hact
    | masterRead => exact h.masterStep hu (.inl hpc) hact
    | masterWrite v => exact h.masterStep hu (.inr (.inl ⟨v, hpc⟩)) hact
    | masterReset => exact h.masterStep hu (.inr (.inr hpc)) hact
    | barrier1 | left => simp [act, hpc] at hact
    | compare | store | barrier2 => simp only [Tests, hpc] at hplace

theorem Comparing.step (h : Comparing p k s) (htested : Tested p s) (hu : u < p.numThreads)
    (hcareful : Careful p s (.thread u)) (hact : act p u s = some s') :
    Comparing p k s' ∧ Tested p s' := by
  have hplace := h.thread u hu
  have htest : (s.threads u).pc ≠ .test := by
    intro hpc
    simp [Compares, hpc] at hplace
  obtain ⟨t, hthreads, ht⟩ := act_tested htest hact
  refine ⟨?_, htested.put hthreads ht⟩
  cases hpc : (s.threads u).pc with
  | compare => exact h.compare hu hpc hact
  | store => exact h.store hu hpc (hcareful.2 hpc) hact
  | barrier2 => simp [act, hpc] at hact
  | _ => simp [Compares, hpc] at hplace

theorem Inv.step {e : Event} (h : Inv p s) (hcareful : Careful p s e)
    (hstep : step p s e = some s') : Inv p s' := by
  obtain ⟨⟨k, hphase⟩, htested⟩ := h
  cases e with
  | thread u =>
    simp only [Barriers.step] at hstep
    split_ifs at hstep with hu
    rcases hphase with hphase | hphase
    · obtain ⟨hphase', htested'⟩ := hphase.step htested hu hcareful hstep
      exact ⟨⟨k, .inl hphase'⟩, htested'⟩
    · obtain ⟨hphase', htested'⟩ := hphase.step htested hu hcareful hstep
      exact ⟨⟨k, .inr hphase'⟩, htested'⟩
  | barrier =>
    simp only [Barriers.step] at hstep
    split_ifs at hstep with hwaiting
    obtain rfl := Option.some.inj hstep
    rcases hphase with hphase | hphase
    · exact ⟨⟨k, .inr (hphase.barrier hwaiting)⟩, htested⟩
    · exact ⟨⟨k + 1, .inl (hphase.barrier hwaiting)⟩, htested⟩

theorem Inv.lockstep (h : Inv p s) : Lockstep p p.toFloat s := by
  obtain ⟨⟨k, hphase⟩, htested⟩ := h
  have hleft : ∀ v < p.numThreads, (s.threads v).pc = .left →
      (s.threads v).iterationCount = k ∧ Testing p k s ∧ ¬ Goes k s := by
    intro v hv hpc
    rcases hphase with hphase | hphase
    · have ht := hphase.thread v hv
      simp only [Tests, hpc] at ht
      exact ⟨ht.1, hphase, ht.2.2.2⟩
    · have ht := hphase.thread v hv
      simp [Compares, hpc] at ht
  refine ⟨fun u hu hwaiting v hv hpc => ?_, fun u hu hpcu v hv hpcv => ?_,
    fun u hu j x hx => htested u hu (j + 1) x hx⟩
  · obtain ⟨-, htesting, hnot⟩ := hleft v hv hpc
    have ht := htesting.thread u hu
    cases hpcu : (s.threads u).pc with
    | barrier1 =>
      simp only [Tests, hpcu] at ht
      exact hnot ht.2.2.2
    | barrier2 => simp only [Tests, hpcu] at ht
    | _ => simp [hpcu, Pc.waiting] at hwaiting
  · rw [(hleft u hu hpcu).1, (hleft v hv hpcv).1]

/-- Where narrowing changes no maximum, the maximum itself is tested. -/
theorem Lockstep.exact (h : Lockstep p p.toFloat s)
    (hexact : ∀ k m, IsGreatest (deltas p k) m → p.toFloat m = m) : Lockstep p id s where
  waiting := h.waiting
  left := h.left
  tested u hu k v hv := by
    obtain ⟨m, hm, rfl⟩ := h.tested u hu k v hv
    exact ⟨m, hm, (hexact k m hm).symm⟩

/-- In a run without a race the threads stay in lockstep and test the largest delta as a float:
the largest delta, if that is one. -/
theorem careful_lockstep {s : State F}
    (h : Relation.ReflTransGen (CarefulStep p) (start p.declared) s) :
    Lockstep p p.toFloat s ∧
      ((∀ k m, IsGreatest (deltas p k) m → p.toFloat m = m) → Lockstep p id s) := by
  have hinv : Inv p s := by
    induction h with
    | refl => exact start_inv
    | tail _ hstep ih =>
      obtain ⟨e, hcareful, he⟩ := hstep
      exact ih.step hcareful he
  exact ⟨hinv.lockstep, hinv.lockstep.exact⟩

def carefulRun (p : Input F) (s : State F) : List Event → Option (State F)
  | [] => some s
  | e :: events =>
    if Careful p s e then (step p s e).bind fun s => carefulRun p s events else none

theorem carefulRun_steps {s s' : State F} {events : List Event}
    (h : carefulRun p s events = some s') : Relation.ReflTransGen (CarefulStep p) s s' := by
  induction events generalizing s with
  | nil =>
    obtain rfl := Option.some.inj h
    exact .refl
  | cons e events ih =>
    rw [carefulRun] at h
    split_ifs at h with hcareful
    obtain ⟨t, hstep, hrest⟩ := Option.bind_eq_some_iff.mp h
    exact .head ⟨e, hcareful, hstep⟩ (ih hrest)

/-- The nearest multiple of `2 ^ -23`: a narrowing as between 1 and 2. -/
def nearest {F : Type} [Field F] [LinearOrder F] [FloorRing F] (x : F) : F :=
  ⌊x * 8388608 + ((2 : ℕ) : F)⁻¹⌋ / 8388608

def twoThreads : Input ℚ where
  numThreads := 2
  pos := Nat.two_pos
  currentDelta u k := if k = 0 then (u + 1) / 4 else 0
  nonneg u k := by
    split_ifs
    · exact div_nonneg (by exact_mod_cast Nat.zero_le (u + 1)) (by norm_num)
    · exact le_rfl
  toFloat := nearest

theorem careful_lockstep_two : ∃ s, ((s.threads 0).pc, (s.threads 1).pc) = (.left, .left) ∧
    (s.threads 1).tested = [twoThreads.declared, 1 / 2, 0] ∧ Lockstep twoThreads id s := by
  let events : List Event := [.thread 0, .thread 1, .barrier,
    .thread 0, .thread 0, .thread 1, .thread 1, .barrier,
    .thread 1, .thread 0, .thread 0, .thread 0, .thread 1, .thread 0, .thread 0, .barrier,
    .thread 1, .thread 0, .barrier,
    .thread 1, .thread 0, .thread 0, .thread 0, .thread 1, .thread 0, .thread 0]
  have hrun : (carefulRun twoThreads (start twoThreads.declared) events).map (fun s =>
      ((s.threads 0).pc, (s.threads 1).pc, (s.threads 1).tested)) =
        some (.left, .left, [twoThreads.declared, 1 / 2, 0]) := by decide +kernel
  have hexact : ∀ k m, IsGreatest (deltas twoThreads k) m → twoThreads.toFloat m = m := by
    rintro k m ⟨⟨u, hu, rfl⟩, -⟩
    match k, u, hu with
    | 0, 0, _ => decide +kernel
    | 0, 1, _ => decide +kernel
    | k + 1, u, _ => exact (by decide +kernel : (nearest 0 : ℚ) = 0)
  obtain ⟨s, hs, heq⟩ := Option.map_eq_some_iff.mp hrun
  obtain ⟨hpc0, hpc1, htested⟩ : (s.threads 0).pc = .left ∧ (s.threads 1).pc = .left ∧
      (s.threads 1).tested = [twoThreads.declared, 1 / 2, 0] := by simpa using heq
  exact ⟨s, by rw [hpc0, hpc1], htested, (careful_lockstep (carefulRun_steps hs)).2 hexact⟩

def still : Input ℚ := ⟨2, Nat.two_pos, fun _ _ => 0, fun _ _ => le_rfl, nearest⟩

/-- Thread 1 tests the old value, and waits for thread 0, which tests the new one. -/
theorem run_not_lockstep : ¬ ∀ p : Input ℚ, 2 ≤ p.numThreads → ∀ events s,
    run p (start p.declared) events = some s → Lockstep p id s := by
  intro h
  let events : List Event := [.thread 0, .thread 1, .barrier, .thread 0, .thread 1, .barrier,
    .thread 0, .thread 1, .thread 1, .thread 0, .thread 0, .thread 0, .thread 0]
  have hrun : (run still (start still.declared) events).map (fun s =>
      ((s.threads 1).pc, (s.threads 0).pc)) = some (.barrier1, .left) := by decide +kernel
  obtain ⟨s, hs, hpc⟩ := Option.map_eq_some_iff.mp hrun
  obtain ⟨hpc1, hpc0⟩ := Prod.mk.inj hpc
  have hwaiting : (s.threads 1).pc.waiting = true := by
    rw [hpc1]
    rfl
  exact (h still le_rfl events s hs).waiting 1 (by decide) hwaiting 0 (by decide) hpc0

end ParallelPrograms.KMeans.Barriers
