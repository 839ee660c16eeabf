import Mathlib.Data.Fintype.Card
import Mathlib.Data.Fintype.Fin
import Mathlib.Data.List.FinRange

namespace ParallelPrograms

inductive Draw where
  | waiting
  | loaded (number : ℕ)
  | drawn (number : ℕ)
  deriving DecidableEq

def Draw.number : Draw → Option ℕ
  | .waiting => none
  | .loaded t | .drawn t => some t

/-- The counter and the draw of every thread, which reads the counter and later stores the number it
has read plus one. -/
structure Counter (ι : Type*) where
  value : ℕ
  draw : ι → Draw

namespace Counter

variable {ι : Type*}

def initial : Counter ι := ⟨0, fun _ => .waiting⟩

/-- Below the counter and below every number read, each number has been drawn. -/
structure Dense (c : Counter ι) : Prop where
  value : ∀ t, c.value = t + 1 → ∃ j, c.draw j = .drawn t
  number : ∀ i t, (c.draw i).number = some (t + 1) → ∃ j, c.draw j = .drawn t

theorem initial_dense : (initial : Counter ι).Dense where
  value t h := by simp [initial] at h
  number i t h := by simp [initial, Draw.number] at h

section Steps

variable [DecidableEq ι]

def step (c : Counter ι) (i : ι) : Counter ι :=
  match c.draw i with
  | .waiting => ⟨c.value, Function.update c.draw i (.loaded c.value)⟩
  | .loaded t => ⟨t + 1, Function.update c.draw i (.drawn t)⟩
  | .drawn _ => c

def run (c : Counter ι) (schedule : List ι) : Counter ι := schedule.foldl step c

variable {c : Counter ι} {i j : ι} {t : ℕ}

theorem step_waiting (h : c.draw i = .waiting) :
    c.step i = ⟨c.value, Function.update c.draw i (.loaded c.value)⟩ := by
  rw [step, h]

theorem step_loaded (h : c.draw i = .loaded t) :
    c.step i = ⟨t + 1, Function.update c.draw i (.drawn t)⟩ := by
  rw [step, h]

theorem step_drawn (h : c.draw i = .drawn t) : c.step i = c := by
  rw [step, h]

theorem step_draw_ne (h : j ≠ i) : (c.step i).draw j = c.draw j := by
  unfold step
  split
  · exact Function.update_of_ne h _ _
  · exact Function.update_of_ne h _ _
  · rfl

/-- A number once drawn stays drawn. -/
theorem draw_step (h : c.draw j = .drawn t) : (c.step i).draw j = .drawn t := by
  by_cases hji : j = i
  · subst hji
    rwa [step_drawn h]
  · rwa [step_draw_ne hji]

theorem draw_run (h : c.draw j = .drawn t) (schedule : List ι) :
    (c.run schedule).draw j = .drawn t := by
  induction schedule generalizing c with
  | nil => exact h
  | cons i schedule ih => exact ih (draw_step h)

theorem Dense.step (h : c.Dense) (i : ι) : (c.step i).Dense := by
  have hkept : ∀ t, (∃ j, c.draw j = .drawn t) → ∃ j, (c.step i).draw j = .drawn t :=
    fun t ⟨j, hj⟩ => ⟨j, draw_step hj⟩
  cases hi : c.draw i with
  | waiting =>
    have hstep := step_waiting hi
    refine ⟨fun t ht => hkept t ?_, fun j t hj => hkept t ?_⟩
    · rw [hstep] at ht
      exact h.value t ht
    · by_cases hji : j = i
      · -- the number read is the counter
        subst hji
        simp only [hstep, Function.update_self, Draw.number, Option.some.injEq] at hj
        exact h.value t hj
      · rw [step_draw_ne hji] at hj
        exact h.number j t hj
  | loaded u =>
    have hstep := step_loaded hi
    refine ⟨fun t ht => ⟨i, ?_⟩, fun j t hj => hkept t ?_⟩
    · rw [hstep] at ht ⊢
      obtain rfl : u = t := Nat.succ_injective ht
      exact Function.update_self _ _ _
    · by_cases hji : j = i
      · subst hji
        simp only [hstep, Function.update_self] at hj
        exact h.number j t (by rw [hi]; exact hj)
      · rw [step_draw_ne hji] at hj
        exact h.number j t hj
  | drawn u => rwa [step_drawn hi]

theorem dense_run (schedule : List ι) : ((initial : Counter ι).run schedule).Dense := by
  induction schedule using List.reverseRecOn with
  | nil => exact initial_dense
  | append_singleton schedule i ih =>
    rw [run, List.foldl_concat]
    exact ih.step i

end Steps

namespace Dense

variable {c : Counter ι} (h : c.Dense)
include h

/-- Every number below one that has been read has been drawn. -/
theorem exists_drawn {i : ι} {t s : ℕ} (hi : (c.draw i).number = some t) (hs : s < t) :
    ∃ j, c.draw j = .drawn s := by
  induction t generalizing i with
  | zero => exact absurd hs (Nat.not_lt_zero s)
  | succ t ih =>
    obtain ⟨j, hj⟩ := h.number i t hi
    rcases Nat.lt_succ_iff_lt_or_eq.mp hs with hlt | rfl
    · exact ih (i := j) (by rw [hj, Draw.number]) hlt
    · exact ⟨j, hj⟩

/-- There are as many threads as numbers up to one that has been read. -/
theorem number_lt_card [Fintype ι] {i : ι} {t : ℕ} (hi : (c.draw i).number = some t) :
    t < Fintype.card ι := by
  have hall : ∀ s : Fin (t + 1), ∃ j, (c.draw j).number = some (s : ℕ) := by
    intro s
    rcases Nat.lt_succ_iff_lt_or_eq.mp s.isLt with hlt | heq
    · obtain ⟨j, hj⟩ := h.exists_drawn hi hlt
      exact ⟨j, by rw [hj, Draw.number]⟩
    · exact ⟨i, by rw [hi, heq]⟩
  choose thread hthread using hall
  have hinj : Function.Injective thread := by
    intro s s' hs
    apply Fin.ext
    apply Option.some.inj
    rw [← hthread s, ← hthread s', hs]
  have hcard := Fintype.card_le_of_injective thread hinj
  rwa [Fintype.card_fin, Nat.succ_le_iff] at hcard

theorem value_le_card [Fintype ι] : c.value ≤ Fintype.card ι := by
  rcases Nat.eq_zero_or_eq_succ_pred c.value with hzero | hsucc
  · omega
  · obtain ⟨j, hj⟩ := h.value _ hsucc
    have hlt := h.number_lt_card (i := j) (by rw [hj, Draw.number])
    omega

/-- The numbers drawn are the first `m`, for some `m` up to the number of threads. -/
theorem exists_drawn_iff [Fintype ι] :
    ∃ m ≤ Fintype.card ι, ∀ t, (∃ j, c.draw j = .drawn t) ↔ t < m := by
  classical
  have hbound : ∀ t, (∃ j, c.draw j = .drawn t) → t < Fintype.card ι := by
    rintro t ⟨j, hj⟩
    exact h.number_lt_card (i := j) (by rw [hj, Draw.number])
  have hfree : ∃ t, ¬ ∃ j, c.draw j = .drawn t :=
    ⟨Fintype.card ι, fun hc => lt_irrefl _ (hbound _ hc)⟩
  refine ⟨Nat.find hfree, Nat.find_min' hfree fun hc => lt_irrefl _ (hbound _ hc), fun t => ?_⟩
  constructor
  · rintro ⟨j, hj⟩
    by_contra hle
    apply Nat.find_spec hfree
    rcases (not_lt.mp hle).eq_or_lt with heq | hlt
    · exact ⟨j, by rw [hj, heq]⟩
    · exact h.exists_drawn (i := j) (by rw [hj, Draw.number]) hlt
  · exact fun hlt => not_not.mp (Nat.find_min hfree hlt)

end Dense

section Schedules

variable [DecidableEq ι]

theorem run_serial (c : Counter ι) {l : List ι} (hl : l.Nodup) (h : ∀ i ∈ l, c.draw i = .waiting) :
    (c.run (l.flatMap fun i => [i, i])).value = c.value + l.length ∧
      (∀ i ∈ l, ∃ t, (c.run (l.flatMap fun i => [i, i])).draw i = .drawn t) ∧
      (∀ t, (∃ i ∈ l, (c.run (l.flatMap fun i => [i, i])).draw i = .drawn t) ↔
        c.value ≤ t ∧ t < c.value + l.length) ∧
      ∀ j ∉ l, (c.run (l.flatMap fun i => [i, i])).draw j = c.draw j := by
  induction l generalizing c with
  | nil => exact ⟨rfl, by simp, by simp, fun _ _ => rfl⟩
  | cons i l ih =>
    obtain ⟨hi, hl⟩ := List.nodup_cons.mp hl
    let next : Counter ι := (c.step i).step i
    have hload := step_waiting (h i List.mem_cons_self)
    have hstore : next = ⟨c.value + 1,
        Function.update (Function.update c.draw i (.loaded c.value)) i (.drawn c.value)⟩ := by
      apply (step_loaded _).trans
      · rw [hload]
      · rw [hload]
        exact Function.update_self _ _ _
    have hself : next.draw i = .drawn c.value := by
      rw [hstore]
      exact Function.update_self _ _ _
    have hother : ∀ j, j ≠ i → next.draw j = c.draw j := fun j hj => by
      rw [step_draw_ne hj, step_draw_ne hj]
    have hvalue : next.value = c.value + 1 := by rw [hstore]
    have hrun : c.run ((i :: l).flatMap fun i => [i, i]) = next.run (l.flatMap fun i => [i, i]) :=
      rfl
    obtain ⟨hend, hall, hdrawn, hrest⟩ := ih next hl fun j hj => by
      rw [hother j (ne_of_mem_of_not_mem hj hi)]
      exact h j (List.mem_cons_of_mem i hj)
    have hfirst := draw_run hself (l.flatMap fun i => [i, i])
    rw [hrun, List.length_cons]
    refine ⟨by omega, fun j hj => ?_, fun t => ?_, fun j hj => ?_⟩
    · rcases List.mem_cons.mp hj with rfl | hj
      · exact ⟨_, hfirst⟩
      · exact hall j hj
    · simp only [List.mem_cons, exists_eq_or_imp, hdrawn, hfirst, Draw.drawn.injEq]
      omega
    · rw [List.mem_cons, not_or] at hj
      rw [hrest j hj.2, hother j hj.1]

/-- Threads that all read before any of them stores draw the same number. -/
theorem run_together (c : Counter ι) {l : List ι} (hl : l.Nodup)
    (h : ∀ i ∈ l, c.draw i = .waiting) : (∀ i ∈ l, (c.run (l ++ l)).draw i = .drawn c.value) ∧
      ∀ j ∉ l, (c.run (l ++ l)).draw j = c.draw j := by
  have hloads : ∀ (l : List ι) (c : Counter ι), l.Nodup → (∀ i ∈ l, c.draw i = .waiting) →
      (c.run l).value = c.value ∧ (∀ i ∈ l, (c.run l).draw i = .loaded c.value) ∧
        ∀ j ∉ l, (c.run l).draw j = c.draw j := by
    intro l
    induction l with
    | nil => exact fun c _ _ => ⟨rfl, by simp, fun _ _ => rfl⟩
    | cons i l ih =>
      intro c hl h
      obtain ⟨hi, hl⟩ := List.nodup_cons.mp hl
      have hload := step_waiting (h i List.mem_cons_self)
      obtain ⟨hvalue, hloaded, hrest⟩ := ih (c.step i) hl fun j hj => by
        rw [step_draw_ne (ne_of_mem_of_not_mem hj hi)]
        exact h j (List.mem_cons_of_mem i hj)
      have hfirst : (c.step i).value = c.value := by rw [hload]
      refine ⟨hvalue.trans hfirst, fun j hj => ?_, fun j hj => ?_⟩
      · rcases List.mem_cons.mp hj with rfl | hj
        · refine (hrest j hi).trans ?_
          rw [hload]
          exact Function.update_self _ _ _
        · exact (hloaded j hj).trans (by rw [hfirst])
      · rw [List.mem_cons, not_or] at hj
        exact (hrest j hj.2).trans (step_draw_ne hj.1)
  have hstores : ∀ (l : List ι) (c : Counter ι) (t : ℕ), l.Nodup →
      (∀ i ∈ l, c.draw i = .loaded t) → (∀ i ∈ l, (c.run l).draw i = .drawn t) ∧
        ∀ j ∉ l, (c.run l).draw j = c.draw j := by
    intro l
    induction l with
    | nil => exact fun c t _ _ => ⟨by simp, fun _ _ => rfl⟩
    | cons i l ih =>
      intro c t hl h
      obtain ⟨hi, hl⟩ := List.nodup_cons.mp hl
      have hstore := step_loaded (h i List.mem_cons_self)
      obtain ⟨hdrawn, hrest⟩ := ih (c.step i) t hl fun j hj => by
        rw [step_draw_ne (ne_of_mem_of_not_mem hj hi)]
        exact h j (List.mem_cons_of_mem i hj)
      refine ⟨fun j hj => ?_, fun j hj => ?_⟩
      · rcases List.mem_cons.mp hj with rfl | hj
        · refine (hrest j hi).trans ?_
          rw [hstore]
          exact Function.update_self _ _ _
        · exact hdrawn j hj
      · rw [List.mem_cons, not_or] at hj
        exact (hrest j hj.2).trans (step_draw_ne hj.1)
  obtain ⟨-, hloaded, hrest⟩ := hloads l c hl h
  obtain ⟨hdrawn, hrest'⟩ := hstores l (c.run l) c.value hl hloaded
  have hsplit : c.run (l ++ l) = (c.run l).run l := List.foldl_append
  rw [hsplit]
  exact ⟨hdrawn, fun j hj => (hrest' j hj).trans (hrest j hj)⟩

/-- Of `k` threads some schedule lets the draws be any number `m` of different ones. -/
theorem exists_schedule {k m : ℕ} (hm : 1 ≤ m) (hmk : m ≤ k) : ∃ schedule : List (Fin k),
    (∀ i, ∃ t, ((initial : Counter (Fin k)).run schedule).draw i = .drawn t) ∧
      ∀ t, (∃ i, ((initial : Counter (Fin k)).run schedule).draw i = .drawn t) ↔ t < m := by
  -- `m - 1` threads draw in turn, and all others together
  let serial : List (Fin k) := (List.finRange (m - 1)).map (Fin.castLE (by omega))
  let together : List (Fin k) := (List.finRange k).filter fun i => i ∉ serial
  have hserial : serial.Nodup :=
    (List.nodup_finRange (m - 1)).map (Fin.castLE_injective (by omega))
  have htogether : together.Nodup := (List.nodup_finRange k).filter _
  have hmem : ∀ i, i ∈ together ↔ i ∉ serial := fun i => by simp [together]
  have hlast : (⟨m - 1, by omega⟩ : Fin k) ∈ together := by
    rw [hmem, List.mem_map]
    rintro ⟨i, -, hi⟩
    have hlt := i.isLt
    have hval : (i : ℕ) = m - 1 := congrArg Fin.val hi
    omega
  let c : Counter (Fin k) := initial.run (serial.flatMap fun i => [i, i])
  obtain ⟨hvalue, hall, hdrawn, hrest⟩ :=
    run_serial (initial : Counter (Fin k)) hserial fun _ _ => rfl
  have hlength : (initial : Counter (Fin k)).value + serial.length = m - 1 := by
    simp [serial, initial]
  have hcvalue : c.value = m - 1 := hvalue.trans hlength
  rw [hlength] at hdrawn
  obtain ⟨hsame, hkept⟩ := run_together c htogether fun i hi => hrest i ((hmem i).mp hi)
  have hsplit : (initial : Counter (Fin k)).run
      ((serial.flatMap fun i => [i, i]) ++ (together ++ together)) =
        c.run (together ++ together) := List.foldl_append
  have hserialdraw : ∀ i ∈ serial, (c.run (together ++ together)).draw i = c.draw i :=
    fun i hi => hkept i fun htog => (hmem i).mp htog hi
  refine ⟨(serial.flatMap fun i => [i, i]) ++ (together ++ together), ?_⟩
  rw [hsplit]
  refine ⟨fun i => ?_, fun t => ⟨?_, fun ht => ?_⟩⟩
  · by_cases hi : i ∈ serial
    · obtain ⟨t, ht⟩ := hall i hi
      exact ⟨t, (hserialdraw i hi).trans ht⟩
    · exact ⟨_, hsame i ((hmem i).mpr hi)⟩
  · rintro ⟨i, hit⟩
    by_cases hi : i ∈ serial
    · have hlt := (hdrawn t).mp ⟨i, hi, (hserialdraw i hi).symm.trans hit⟩
      omega
    · have heq := Draw.drawn.inj ((hsame i ((hmem i).mpr hi)).symm.trans hit)
      omega
  · rcases Nat.lt_or_ge t (m - 1) with hlt | hge
    · obtain ⟨i, hi, hit⟩ := (hdrawn t).mpr ⟨Nat.zero_le t, hlt⟩
      exact ⟨i, (hserialdraw i hi).trans hit⟩
    · obtain rfl : t = m - 1 := by omega
      exact ⟨_, (hsame _ hlast).trans (by rw [hcvalue])⟩

end Schedules

end Counter
end ParallelPrograms
