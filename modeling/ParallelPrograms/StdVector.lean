import Mathlib.Data.List.Basic
import Mathlib.Data.List.Range

namespace ParallelPrograms

/-- Why a run has no result.  `operator[]` checks nothing: a run that stops at an index is one whose
behaviour is undefined. -/
inductive Stop where
  | outOfRange
  | divByZero
  /-- The results of `rand()` that are given are used up. -/
  | exhausted
  deriving DecidableEq

variable {α σ ε : Type}

@[simp] theorem ok_bind (x : α) (f : α → Except ε σ) : (Except.ok x >>= f) = f x := rfl

@[simp] theorem error_bind (e : ε) (f : α → Except ε σ) : (Except.error e >>= f) = .error e := rfl

@[simp] theorem pure_eq_ok (x : α) : (pure x : Except ε α) = .ok x := rfl

def nth (v : List α) (i : ℤ) : Except Stop α :=
  if 0 ≤ i then
    match v[i.toNat]? with
    | some x => .ok x
    | none => .error .outOfRange
  else .error .outOfRange

def update (v : List α) (i : ℤ) (f : α → Except Stop α) : Except Stop (List α) := do
  let x ← nth v i
  let y ← f x
  return v.set i.toNat y

theorem nth_eq {v : List α} {i : ℕ} {x : α} (h : v[i]? = some x) : nth v i = .ok x := by
  simp [nth, h]

theorem nth_of_lt {v : List α} {i : ℕ} (h : i < v.length) : nth v i = .ok v[i] :=
  nth_eq (List.getElem?_eq_getElem h)

theorem nth_of_not_lt {v : List α} {i : ℤ} (h : ¬ (0 ≤ i ∧ i < v.length)) :
    nth v i = .error .outOfRange := by
  unfold nth
  split_ifs with h0
  · rw [List.getElem?_eq_none (by omega)]
  · rfl

theorem update_eq {v : List α} {i : ℕ} {f : α → Except Stop α} {g : α → α} (h : i < v.length)
    (hf : f v[i] = .ok (g v[i])) : update v i f = .ok (v.modify i g) := by
  have hset : v.set i (g v[i]) = v.modify i g := by
    apply List.ext_getElem?
    intro j
    rw [List.getElem?_set, List.getElem?_modify]
    by_cases hij : i = j
    · subst hij
      simp [h]
    · simp [hij]
  simp [update, nth_of_lt h, hf, hset]

theorem forall_mem_modify {P : α → Prop} {g : α → α} {v : List α} (hg : ∀ x, P x → P (g x))
    (hv : ∀ x ∈ v, P x) (i : ℕ) : ∀ x ∈ v.modify i g, P x := by
  intro x hx
  obtain ⟨j, hj⟩ := List.mem_iff_getElem?.mp hx
  rw [List.getElem?_modify, Option.map_eq_map, Option.map_eq_some_iff] at hj
  obtain ⟨y, hy, rfl⟩ := hj
  have hPy := hv y (List.mem_of_getElem? hy)
  split_ifs
  · exact hg y hPy
  · exact hPy

theorem map_modify_eq {β : Type} {f : α → β} {g : α → α} (h : ∀ x, f (g x) = f x) (v : List α)
    (i : ℕ) : (v.modify i g).map f = v.map f := by
  apply List.ext_getElem?
  intro j
  rw [List.getElem?_map, List.getElem?_modify, List.getElem?_map, Option.map_eq_map,
    Option.map_map]
  congr 1
  funext x
  by_cases hij : i = j
  · simp [hij, h]
  · simp [hij]

theorem modify_eq_self_of {g : α → α} {v : List α} {i : ℕ} (h : i < v.length)
    (hg : g v[i] = v[i]) : v.modify i g = v := by
  apply List.ext_getElem?
  intro j
  rw [List.getElem?_modify]
  by_cases hij : i = j
  · subst hij
    simp [h, hg]
  · simp [hij]

section Map

variable {β τ : Type} {g : α → β}

theorem map_bind {h : σ → τ} (x : Except ε α) (f : α → Except ε σ) :
    (x >>= f).map h = x >>= fun y => (f y).map h := by
  cases x <;> rfl

theorem bind_map (x : Except ε α) (f : β → Except ε σ) :
    (x.map g >>= f) = x >>= fun y => f (g y) := by
  cases x <;> rfl

theorem nth_map (g : α → β) (v : List α) (i : ℤ) : nth (v.map g) i = (nth v i).map g := by
  unfold nth
  rw [List.getElem?_map]
  split_ifs
  · cases v[i.toNat]? <;> rfl
  · rfl

theorem update_map {f : α → Except Stop α} {f' : β → Except Stop β}
    (h : ∀ x, f' (g x) = (f x).map g) (v : List α) (i : ℤ) :
    update (v.map g) i f' = (update v i f).map (List.map g) := by
  rw [update, update, nth_map, bind_map, map_bind]
  congr 1
  funext x
  rw [h, bind_map, map_bind]
  congr 1
  funext y
  exact congrArg Except.ok List.map_set.symm

theorem foldlM_map {ι : Type} {h : σ → τ} {body : σ → ι → Except ε σ} {body' : τ → ι → Except ε τ}
    (hbody : ∀ s x, body' (h s) x = (body s x).map h) (l : List ι) (s : σ) :
    l.foldlM body' (h s) = (l.foldlM body s).map h := by
  induction l generalizing s with
  | nil => rfl
  | cons x l ih =>
    rw [List.foldlM_cons, List.foldlM_cons, hbody, bind_map, map_bind]
    congr 1
    funext t
    exact ih t

end Map

theorem foldlM_ok {ι : Type} {Inv : σ → Prop} {body : σ → ι → Except ε σ} {next : σ → ι → σ}
    {l : List ι} (h : ∀ s, Inv s → ∀ x ∈ l, body s x = .ok (next s x) ∧ Inv (next s x)) {s : σ}
    (hs : Inv s) : l.foldlM body s = .ok (l.foldl next s) ∧ Inv (l.foldl next s) := by
  induction l generalizing s with
  | nil => exact ⟨rfl, hs⟩
  | cons x l ih =>
    obtain ⟨hx, hinv⟩ := h s hs x List.mem_cons_self
    rw [List.foldlM_cons, hx]
    exact ih (fun s hs y hy => h s hs y (List.mem_cons_of_mem x hy)) hinv

theorem foldlM_of_forall {ι : Type} {body : σ → ι → Except ε σ} {next : σ → ι → σ} {l : List ι}
    (h : ∀ s, ∀ x ∈ l, body s x = .ok (next s x)) (s : σ) :
    l.foldlM body s = .ok (l.foldl next s) := by
  have htrivial : ∀ s, True → ∀ x ∈ l, body s x = .ok (next s x) ∧ True :=
    fun s _ x hx => ⟨h s x hx, trivial⟩
  exact (foldlM_ok htrivial trivial).1

/-- A loop over the indices of `l` in `front ++ l` that only reads the elements. -/
theorem foldlM_nth (body : σ → α → Except Stop σ) (front l : List α) (s : σ) :
    (List.range' front.length l.length).foldlM (fun s (i : ℕ) => do
      let x ← nth (front ++ l) i
      body s x) s = l.foldlM body s := by
  induction l generalizing front s with
  | nil => rfl
  | cons x l ih =>
    have hx : nth (front ++ x :: l) front.length = .ok x := nth_eq (by simp)
    have hrest := ih (front ++ [x])
    rw [List.length_append, List.length_singleton, List.append_assoc,
      List.singleton_append] at hrest
    rw [List.length_cons, List.range'_succ, List.foldlM_cons, List.foldlM_cons]
    simp only [hx, ok_bind, hrest]

theorem foldlM_nth_range (body : σ → α → Except Stop σ) (l : List α) (s : σ) :
    (List.range l.length).foldlM (fun s (i : ℕ) => do
      let x ← nth l i
      body s x) s = l.foldlM body s := by
  rw [List.range_eq_range']
  exact foldlM_nth body [] l s

theorem foldl_push {ι : Type} (g : ι → α) (l : List ι) (v : List α) :
    l.foldl (fun v x => v ++ [g x]) v = v ++ l.map g := by
  induction l generalizing v with
  | nil => simp
  | cons x l ih => rw [List.foldl_cons, ih, List.append_assoc, List.map_cons, List.singleton_append]

theorem foldl_range_eq {f : σ → ℕ → σ} {g : σ → α → σ} {l : List α}
    (h : ∀ s i, (hi : i < l.length) → f s i = g s l[i]) (s : σ) :
    (List.range l.length).foldl f s = l.foldl g s := by
  induction l generalizing f s with
  | nil => rfl
  | cons x l ih =>
    have hhead : f s 0 = g s x := h s 0 (Nat.succ_pos _)
    rw [List.length_cons, List.range_succ_eq_map, List.foldl_cons, List.foldl_map,
      List.foldl_cons, hhead]
    apply ih
    intro s i hi
    exact h s (i + 1) (Nat.succ_lt_succ hi)

theorem getElem?_foldl_modify (g : α → α) (is : List ℕ) (his : is.Nodup) (v : List α) (j : ℕ) :
    (is.foldl (fun v i => v.modify i g) v)[j]? = if j ∈ is then v[j]?.map g else v[j]? := by
  induction is generalizing v with
  | nil => simp
  | cons i is ih =>
    obtain ⟨hi, his⟩ := List.nodup_cons.mp his
    simp only [List.foldl_cons, ih his, List.getElem?_modify, List.mem_cons]
    by_cases hij : j = i
    · subst hij
      simp [hi]
    · simp [hij, Ne.symm hij]

theorem foldl_modify_range (g : α → α) (v : List α) :
    (List.range v.length).foldl (fun v i => v.modify i g) v = v.map g := by
  apply List.ext_getElem?
  intro j
  simp only [getElem?_foldl_modify g _ List.nodup_range, List.getElem?_map, List.mem_range]
  split_ifs with hj
  · rfl
  · rw [List.getElem?_eq_none (not_lt.mp hj)]
    rfl

theorem foldl_set_range (g : ℕ → α) (v : List α) {d : ℕ} (hd : d ≤ v.length) :
    (List.range d).foldl (fun v i => v.set i (g i)) v = (List.range d).map g ++ v.drop d := by
  induction d with
  | zero => rfl
  | succ d ih =>
    have hlen : ((List.range d).map g).length = d := by simp
    rw [List.range_succ, List.foldl_append, ih (by omega), List.foldl_cons, List.foldl_nil,
      List.set_append_right _ _ hlen.le, hlen, Nat.sub_self,
      List.drop_eq_getElem_cons (Nat.lt_of_succ_le hd), List.set_cons_zero, List.map_append,
      List.append_assoc]
    rfl

/-- A loop that treats the elements one after the other in place. -/
theorem foldlM_update {P : α → Prop} {f : ℕ → α → Except Stop α} {g : α → α} {v : List α}
    (h : ∀ i x, P x → f i x = .ok (g x) ∧ P (g x)) (hv : ∀ x ∈ v, P x) :
    (List.range v.length).foldlM (fun v (i : ℕ) => update v i (f i)) v = .ok (v.map g) := by
  have hpass : ∀ w : List α, (w.length = v.length ∧ ∀ x ∈ w, P x) → ∀ i ∈ List.range v.length,
      update w (i : ℕ) (f i) = .ok (w.modify i g) ∧
        (w.modify i g).length = v.length ∧ ∀ x ∈ w.modify i g, P x := by
    intro w ⟨hlen, hw⟩ i hi
    have hi' : i < w.length := by rwa [hlen, ← List.mem_range]
    exact ⟨update_eq hi' (h i _ (hw _ (List.getElem_mem hi'))).1, by simpa using hlen,
      forall_mem_modify (fun x hx => (h i x hx).2) hw i⟩
  rw [(foldlM_ok hpass ⟨rfl, hv⟩).1, foldl_modify_range]

theorem exists_of_bind_ok {x : Except ε α} {f : α → Except ε σ} {y : σ} (h : (x >>= f) = .ok y) :
    ∃ z, x = .ok z ∧ f z = .ok y := by
  cases x with
  | error e => cases h
  | ok z => exact ⟨z, rfl, h⟩

theorem range_of_nth_ok {v : List α} {i : ℤ} {x : α} (h : nth v i = .ok x) :
    0 ≤ i ∧ i < v.length := by
  by_contra hi
  rw [nth_of_not_lt hi] at h
  cases h

theorem lt_of_nth_ok {v : List α} {i : ℤ} {x : α} (h : nth v i = .ok x) : i < v.length :=
  (range_of_nth_ok h).2

/-- What every pass of a loop preserves; `s` is the state in front of the pass for `x`. -/
theorem exists_of_foldlM_ok {ι : Type} (Inv : σ → Prop) {body : σ → ι → Except ε σ} {l : List ι}
    (hbody : ∀ s x t, Inv s → body s x = .ok t → Inv t) {s t : σ} (hs : Inv s)
    (h : l.foldlM body s = .ok t) : ∀ x ∈ l, ∃ s t, Inv s ∧ body s x = .ok t := by
  induction l generalizing s with
  | nil => simp
  | cons x l ih =>
    rw [List.foldlM_cons] at h
    obtain ⟨u, hu, hrest⟩ := exists_of_bind_ok h
    intro y hy
    rcases List.mem_cons.mp hy with rfl | hy
    · exact ⟨s, u, hs, hu⟩
    · exact ih (hbody s x u hs hu) hrest y hy

/-- The computation can fail by an index only. -/
def OnlyRange (x : Except Stop α) : Prop := ∀ e, x = .error e → e = .outOfRange

namespace OnlyRange

theorem ok (x : α) : OnlyRange (.ok x) := by
  intro e h
  cases h

theorem nth (v : List α) (i : ℤ) : OnlyRange (nth v i) := by
  intro e h
  by_cases hi : 0 ≤ i ∧ i < v.length
  · obtain ⟨k, rfl⟩ := Int.eq_ofNat_of_zero_le hi.1
    rw [nth_of_lt (by omega)] at h
    cases h
  · rw [nth_of_not_lt hi] at h
    cases h
    rfl

theorem bind {x : Except Stop α} {f : α → Except Stop σ} (hx : OnlyRange x)
    (hf : ∀ y, OnlyRange (f y)) : OnlyRange (x >>= f) := by
  intro e h
  cases x with
  | error e' => exact hx e (by simpa using h)
  | ok y => exact hf y e h

theorem update (v : List α) (i : ℤ) {f : α → Except Stop α} (hf : ∀ x, OnlyRange (f x)) :
    OnlyRange (update v i f) :=
  (OnlyRange.nth v i).bind fun x => (hf x).bind fun _ => ok _

theorem foldlM {ι : Type} {body : σ → ι → Except Stop σ} (h : ∀ s x, OnlyRange (body s x))
    (l : List ι) (s : σ) : OnlyRange (l.foldlM body s) := by
  induction l generalizing s with
  | nil => exact ok s
  | cons x l ih =>
    rw [List.foldlM_cons]
    exact (h s x).bind ih

/-- One that cannot succeed stops at an index. -/
theorem eq_error {x : Except Stop α} (hx : OnlyRange x) (h : ∀ y, x ≠ .ok y) :
    x = .error .outOfRange := by
  cases x with
  | error e => rw [hx e rfl]
  | ok y => exact absurd rfl (h y)

end OnlyRange

end ParallelPrograms
