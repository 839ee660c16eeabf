import Mathlib.Data.List.Forall2
import ParallelPrograms.KMeans.Model
import ParallelPrograms.Tokens

namespace ParallelPrograms.KMeans

variable {F : Type}

def tokens (line : List Char) : List String :=
  (maximalRuns Point.isNumberChar line).map String.ofList

theorem tokens_pending {tmp : String} (htmp : ∀ c ∈ tmp.toList, Point.isNumberChar c) :
    tokens tmp.toList = if 0 < tmp.length then [tmp] else [] := by
  rw [← String.length_toList]
  by_cases hempty : tmp.toList = []
  · rw [hempty]
    rfl
  · rw [if_pos (List.length_pos_iff.mpr hempty), tokens, maximalRuns_singleton htmp hempty,
      List.map_singleton, String.ofList_toList]

theorem tokens_append_cons (front rest : List Char) {c : Char} (hc : Point.isNumberChar c = false) :
    tokens (front ++ c :: rest) = tokens front ++ tokens rest := by
  rw [tokens, maximalRuns_append_cons front rest hc, List.map_append]
  rfl

namespace Point

def flush (stod : String → Option F) (v : List F × String) : Option (List F) :=
  if 0 < v.2.length then do
    let x ← stod v.2
    return v.1 ++ [x]
  else return v.1

/-- `tmp` is the beginning of the next run. -/
theorem lineToVecLoop_eq (stod : String → Option F) (line : List Char) (values : List F)
    (tmp : String) (htmp : ∀ c ∈ tmp.toList, isNumberChar c) :
    (line.foldlM (lineToVecPass stod) (values, tmp) >>= flush stod) =
      ((tokens (tmp.toList ++ line)).mapM stod).map (values ++ ·) := by
  induction line generalizing values tmp with
  | nil =>
    rw [List.append_nil, tokens_pending htmp, List.foldlM_nil, pure_bind, flush]
    split_ifs
    · cases hx : stod tmp <;> simp [hx]
    · simp
  | cons c line ih =>
    rw [List.foldlM_cons, lineToVecPass]
    by_cases hc : isNumberChar c = true
    · have hpush : tmp.toList ++ c :: line = (tmp.push c).toList ++ line := by
        rw [String.toList_push, List.append_assoc, List.singleton_append]
      rw [if_pos hc, hpush]
      apply ih
      intro e he
      rw [String.toList_push, List.mem_append, List.mem_singleton] at he
      rcases he with he | rfl
      · exact htmp e he
      · exact hc
    · -- a separator ends the run, if there is one
      have hc' := Bool.not_eq_true _ ▸ hc
      rw [if_neg hc, tokens_append_cons _ _ hc', tokens_pending htmp]
      dsimp only
      split_ifs with hrun
      · rw [List.singleton_append, List.mapM_cons]
        cases hx : stod tmp with
        | none => rfl
        | some x =>
          have hrest := ih (values ++ [x]) "" (by simp)
          rw [String.toList_empty, List.nil_append] at hrest
          refine hrest.trans ?_
          cases (tokens line).mapM stod <;> simp
      · have hempty : tmp.toList = [] := by
          rw [← List.length_eq_zero_iff, String.length_toList]
          omega
        have hrest := ih values tmp htmp
        rw [hempty, List.nil_append] at hrest
        exact hrest

/-- `stod` of one run after the other; there is no result when it refuses one. -/
theorem lineToVec_eq (stod : String → Option F) (line : String) :
    lineToVec stod line = (tokens line.toList).mapM stod := by
  have hloop := lineToVecLoop_eq stod line.toList [] "" (by simp)
  rw [String.toList_empty, List.nil_append] at hloop
  refine hloop.trans ?_
  simp

end Point

def writeCentroidText (print : F → String) (km : Parameters) (c : Cluster F) :
    Except Stop String :=
  (List.range km.dimensions).foldlM (fun line j => do
    let x ← c.getCentroidByPos j
    return line ++ print x ++ " ") ""

/-- What is relied on for a finite value: it is printed as a non-empty text of number characters,
which `stod` parses. -/
structure Readable (print : F → String) (stod : String → Option F) (x : F) : Prop where
  ne_empty : print x ≠ ""
  chars : ∀ c ∈ (print x).toList, Point.isNumberChar c
  parses : (stod (print x)).isSome

variable {print : F → String} {stod : String → Option F}

theorem writeCentroidText_eq (print : F → String) {km : Parameters} {c : Cluster F}
    (hc : c.centroid.length = km.dimensions) :
    ∃ text, writeCentroidText print km c = .ok text ∧
      text.toList = c.centroid.flatMap fun x => (print x).toList ++ [' '] := by
  have hloop : ∀ (values : List F) (line : String),
      ∃ text, values.foldlM (fun line x => (do return line ++ print x ++ " ")) line =
        (Except.ok text : Except Stop String) ∧
        text.toList = line.toList ++ values.flatMap fun x => (print x).toList ++ [' '] := by
    intro values
    induction values with
    | nil => exact fun line => ⟨line, rfl, by simp⟩
    | cons x values ih =>
      intro line
      obtain ⟨text, htext, hchars⟩ := ih (line ++ print x ++ " ")
      refine ⟨text, htext, ?_⟩
      rw [hchars]
      simp
  obtain ⟨text, htext, hchars⟩ := hloop c.centroid ""
  refine ⟨text, ?_, hchars⟩
  rw [writeCentroidText, ← hc]
  exact (foldlM_nth_range _ c.centroid "").trans htext

/-- The runs of a line of printed values are the printed values. -/
theorem tokens_printed {values : List F} (h : ∀ x ∈ values, Readable print stod x) :
    tokens (values.flatMap fun x => (print x).toList ++ [' ']) = values.map print := by
  have hruns : maximalRuns Point.isNumberChar ((values.map fun x => (print x).toList).flatMap
      fun t => t ++ [' ']) = values.map fun x => (print x).toList := by
    apply maximalRuns_flatMap (by decide)
    intro t ht
    obtain ⟨x, hx, rfl⟩ := List.mem_map.mp ht
    exact ⟨fun hnil => (h x hx).ne_empty (String.toList_eq_nil_iff.mp hnil), (h x hx).chars⟩
  rw [List.flatMap_map] at hruns
  rw [tokens, hruns, List.map_map]
  apply List.map_congr_left
  intro x _
  exact String.ofList_toList

theorem mapM_printed {values : List F} (h : ∀ x ∈ values, Readable print stod x) :
    ∃ ys, (values.map print).mapM stod = some ys ∧
      List.Forall₂ (fun x y => stod (print x) = some y) values ys := by
  induction values with
  | nil => exact ⟨[], rfl, .nil⟩
  | cons x values ih =>
    obtain ⟨y, hy⟩ := Option.isSome_iff_exists.mp (h x List.mem_cons_self).parses
    obtain ⟨ys, hys, hall⟩ := ih fun x hx => h x (List.mem_cons_of_mem _ hx)
    refine ⟨y :: ys, ?_, .cons hy hall⟩
    rw [List.map_cons, List.mapM_cons, hy, hys]
    rfl

/-- Every line is split into the maximal runs of number characters, and `stod` is applied to
them in order.  So the line written for a centroid of `d` values is read back as `d` values,
each the one `stod` makes of the text written. -/
theorem lineToVec_runs (stod : String → Option F) (print : F → String) :
    (∀ line : String, Point.lineToVec stod line =
      ((maximalRuns Point.isNumberChar line.toList).map String.ofList).mapM stod) ∧
    ∀ (km : Parameters) (c : Cluster F) (id : ℕ), c.centroid.length = km.dimensions →
      (∀ x ∈ c.centroid, Readable print stod x) →
        ∃ text p, writeCentroidText print km c = .ok text ∧
          Point.ofLine stod id text = some p ∧ p.getDimensions = km.dimensions ∧
          List.Forall₂ (fun x y => stod (print x) = some y) c.centroid p.values := by
  refine ⟨Point.lineToVec_eq stod, fun km c id hc hreadable => ?_⟩
  obtain ⟨text, htext, hchars⟩ := writeCentroidText_eq print hc
  obtain ⟨ys, hys, hall⟩ := mapM_printed hreadable
  have hread : Point.lineToVec stod text = some ys := by
    rw [Point.lineToVec_eq, hchars, tokens_printed hreadable, hys]
  refine ⟨text, ⟨id, 0, ys⟩, htext, ?_, hall.length_eq.symm.trans hc, hall⟩
  rw [Point.ofLine, hread]
  rfl

def printTwo (x : ℤ) : String := if x = -1 then "-1" else "2e+06"

def parseTwo (text : String) : Option ℤ :=
  if text = "-1" then some (-1) else if text = "2e+06" then some 2000000 else none

theorem lineToVec_runs_two : ∃ text p, writeCentroidText printTwo ⟨1, 1, 1, 2⟩
      ⟨1, [-1, 2000000], []⟩ = .ok text ∧ Point.ofLine parseTwo 1 text = some p ∧
        p.getDimensions = 2 ∧
        List.Forall₂ (fun x y => parseTwo (printTwo x) = some y) [-1, 2000000] p.values := by
  apply (lineToVec_runs parseTwo printTwo).2 ⟨1, 1, 1, 2⟩ ⟨1, [-1, 2000000], []⟩ 1 rfl
  intro x hx
  simp only [List.mem_cons, List.not_mem_nil, or_false] at hx
  rcases hx with rfl | rfl
  · exact ⟨by decide, List.all_eq_true.mp (by decide), by decide⟩
  · exact ⟨by decide, List.all_eq_true.mp (by decide), by decide⟩

end ParallelPrograms.KMeans
