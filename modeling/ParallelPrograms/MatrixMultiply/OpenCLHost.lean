import ParallelPrograms.MatrixMultiply.OpenCL
import ParallelPrograms.WorkItems

namespace ParallelPrograms.MatrixMultiply.OpenCLHost
open WorkItems
open Mpi (entry)
open OpenCL (workItems)

inductive Buffer where
  | memobjA
  | memobjB
  | memobjC
  deriving DecidableEq

structure Registers (D : Type*) where
  a : D
  value : D

section Kernel

variable {D : Type*} [Add D] [Mul D]

def pass (widthA widthB i j k : ℕ) : List (Instruction (Buffer × ℕ) D (Registers D)) :=
  [.load (.memobjA, k + j * widthA) fun x r => { r with a := x },
   .load (.memobjB, k * widthB + i) fun y r => { r with value := r.value + r.a * y }]

/-- The work-item of `matrixMultiplication` with the global ids `id.1` and `id.2` of dimension 0
and 1.  Indices are natural numbers, in buffers in which no `int` overflows.  The device and the
host have the same `+` and `*`: neither contracts a product and a sum into one operation. -/
def matrixMultiplication (widthA widthB : ℕ) (id : ℕ × ℕ) :
    List (Instruction (Buffer × ℕ) D (Registers D)) :=
  (List.range widthA).flatMap (pass widthA widthB id.1 id.2) ++
    [.store (.memobjC, id.1 + widthA * id.2) Registers.value]

def enqueued [Zero D] (a b c : ℕ → D) (rest : ℕ × ℕ → D) :
    Machine (ℕ × ℕ) (Buffer × ℕ) D (Registers D) where
  memory
    | (.memobjA, p) => a p
    | (.memobjB, p) => b p
    | (.memobjC, p) => c p
  registers id := ⟨rest id, 0⟩

/-- The three loops of the host program that set `D`. -/
def hostProduct [Zero D] (width : ℕ) (a b d : ℕ → D) : ℕ → D :=
  (List.range width).foldl (fun d i => (List.range width).foldl (fun d j =>
    Function.update d (i * width + j)
      ((List.range width).foldl (fun sum k => sum + a (i * width + k) * b (k * width + j)) 0)) d) d

variable {widthA widthB : ℕ} {id : ℕ × ℕ}

theorem mem_matrixMultiplication {x : Instruction (Buffer × ℕ) D (Registers D)}
    (hx : x ∈ matrixMultiplication widthA widthB id) :
    (∃ k < widthA, x.address = (.memobjA, k + id.2 * widthA) ∧ ¬ x.IsStore) ∨
      (∃ k < widthA, x.address = (.memobjB, k * widthB + id.1) ∧ ¬ x.IsStore) ∨
        x = .store (.memobjC, id.1 + widthA * id.2) Registers.value := by
  rcases List.mem_append.mp hx with hx | hx
  · obtain ⟨k, hk, hx⟩ := List.mem_flatMap.mp hx
    have hk' := List.mem_range.mp hk
    rcases List.mem_cons.mp hx with rfl | hx
    · exact .inl ⟨k, hk', rfl, not_false⟩
    · obtain rfl := List.mem_singleton.mp hx
      exact .inr (.inl ⟨k, hk', rfl, not_false⟩)
  · exact .inr (.inr (List.mem_singleton.mp hx))

theorem store_mem : (.store (.memobjC, id.1 + widthA * id.2) Registers.value :
    Instruction (Buffer × ℕ) D (Registers D)) ∈ matrixMultiplication widthA widthB id :=
  List.mem_append_right _ List.mem_cons_self

theorem alone_passes (m : Machine (ℕ × ℕ) (Buffer × ℕ) D (Registers D)) (l : List ℕ) :
    (alone id (l.flatMap (pass widthA widthB id.1 id.2)) m).memory = m.memory ∧
      ((alone id (l.flatMap (pass widthA widthB id.1 id.2)) m).registers id).value =
        l.foldl (fun s k => s + m.memory (.memobjA, k + id.2 * widthA) *
          m.memory (.memobjB, k * widthB + id.1)) (m.registers id).value := by
  induction l generalizing m with
  | nil => exact ⟨rfl, rfl⟩
  | cons k l ih =>
    let next := alone id (pass widthA widthB id.1 id.2 k) m
    have hnext : alone id ((k :: l).flatMap (pass widthA widthB id.1 id.2)) m =
        alone id (l.flatMap (pass widthA widthB id.1 id.2)) next := List.foldl_append
    have hmemory : next.memory = m.memory := rfl
    have hvalue : (next.registers id).value = (m.registers id).value +
        m.memory (.memobjA, k + id.2 * widthA) * m.memory (.memobjB, k * widthB + id.1) := by
      simp [next, alone, pass, exec]
    obtain ⟨hrest, hsum⟩ := ih next
    rw [hnext, hrest, hsum, hmemory, hvalue]
    exact ⟨rfl, rfl⟩

/-- A work-item by itself stores its element of the product. -/
theorem alone_matrixMultiplication (m : Machine (ℕ × ℕ) (Buffer × ℕ) D (Registers D)) :
    (alone id (matrixMultiplication widthA widthB id) m).memory
        (.memobjC, id.1 + widthA * id.2) =
      (List.range widthA).foldl (fun s k => s + m.memory (.memobjA, k + id.2 * widthA) *
        m.memory (.memobjB, k * widthB + id.1)) (m.registers id).value := by
  rw [← (alone_passes m (List.range widthA)).2]
  have hsplit : alone id (matrixMultiplication widthA widthB id) m = exec
      (alone id ((List.range widthA).flatMap (pass widthA widthB id.1 id.2)) m)
        (id, .store (.memobjC, id.1 + widthA * id.2) Registers.value) := by
    rw [matrixMultiplication, alone, List.foldl_append]
    rfl
  rw [hsplit]
  exact Function.update_self _ _ _

end Kernel

section Launch

variable {D : Type} [Zero D] [Add D] [Mul D]

def size (height widthA widthB : ℕ) : Buffer → ℕ
  | .memobjA => height * widthA
  | .memobjB => widthA * widthB
  | .memobjC => height * widthB

def element (widthA widthB : ℕ) (a b : ℕ → D) (i j : ℕ) : D :=
  entry widthA (fun i k => a (i * widthA + k)) (fun k j => b (k * widthB + j)) i j

def InBounds (D : Type) [Add D] [Mul D] (height widthA widthB : ℕ) : Prop :=
  ∀ id ∈ workItems widthB height, ∀ x ∈ matrixMultiplication (D := D) widthA widthB id,
    x.address.2 < size height widthA widthB x.address.1

/-- Every run of the launch leaves the product in `C`, whatever the buffers hold. -/
def Correct (D : Type) [Zero D] [Add D] [Mul D] (height widthA widthB : ℕ) : Prop :=
  InBounds D height widthA widthB ∧
    ∀ (a b c : ℕ → D) rest e, Final (Team.Moves exec) e →
      Reached (workItems widthB height) (matrixMultiplication widthA widthB)
        (enqueued a b c rest) e →
      ∀ i < height, ∀ j < widthB,
        e.1.memory (.memobjC, i * widthB + j) = element widthA widthB a b i j

variable {height widthA widthB : ℕ}

theorem mem_workItems {id : ℕ × ℕ} :
    id ∈ workItems widthB height ↔ id.1 < widthB ∧ id.2 < height := by
  rw [workItems, List.mem_product, List.mem_range, List.mem_range]

omit [Zero D] in
/-- Equal widths, or a single row: no two work-items store to one element. -/
theorem conflictFree (h : widthA = widthB ∨ height ≤ 1) :
    ConflictFree (workItems widthB height) (matrixMultiplication (D := D) widthA widthB) where
  nodup := List.Nodup.product List.nodup_range List.nodup_range
  address := by
    intro id hid id' hid' hne x hx y hy hstore heq
    obtain ⟨hcolumn, hrow⟩ := mem_workItems.mp hid
    obtain ⟨hcolumn', hrow'⟩ := mem_workItems.mp hid'
    obtain ⟨-, -, -, hload⟩ | ⟨-, -, -, hload⟩ | rfl := mem_matrixMultiplication hx
    · exact hload hstore
    · exact hload hstore
    obtain ⟨k, -, hy, -⟩ | ⟨k, -, hy, -⟩ | rfl := mem_matrixMultiplication hy
    · exact Buffer.noConfusion (congrArg Prod.fst (heq.trans hy))
    · exact Buffer.noConfusion (congrArg Prod.fst (heq.trans hy))
    have hcell : id.1 + widthA * id.2 = id'.1 + widthA * id'.2 := congrArg Prod.snd heq
    rcases h with rfl | h
    · rw [Nat.add_comm, Nat.mul_comm, Nat.add_comm id'.1, Nat.mul_comm widthA] at hcell
      obtain ⟨hi, hj⟩ := Grid.position_injective hcolumn hcolumn' hcell
      exact hne (Prod.ext hj hi)
    · obtain ⟨hzero, hzero'⟩ : id.2 = 0 ∧ id'.2 = 0 := by omega
      rw [hzero, hzero', Nat.add_right_cancel_iff] at hcell
      exact hne (Prod.ext hcell (hzero.trans hzero'.symm))

theorem final_memory (h : widthA = widthB ∨ height ≤ 1) {a b c : ℕ → D} {rest : ℕ × ℕ → D}
    {e : Machine (ℕ × ℕ) (Buffer × ℕ) D (Registers D) ×
      Team ((ℕ × ℕ) × Instruction (Buffer × ℕ) D (Registers D)) fun _ _ => True}
    (he : Final (Team.Moves exec) e)
    (hreach : Reached (workItems widthB height) (matrixMultiplication widthA widthB)
      (enqueued a b c rest) e) {i j : ℕ} (hi : i < height) (hj : j < widthB) :
    e.1.memory (.memobjC, j + widthA * i) = element widthA widthB a b i j := by
  have hid : (j, i) ∈ workItems widthB height := mem_workItems.mpr ⟨hj, hi⟩
  rw [(conflictFree h).final_eq hreach he]
  refine ((conflictFree h).serial_memory _ hid store_mem).trans ?_
  refine (alone_matrixMultiplication _).trans ?_
  simp only [enqueued, element, entry, Nat.add_comm _ (i * widthA)]

omit [Zero D] in
theorem inBounds_of (h : widthA = widthB ∨ height ≤ 1) : InBounds D height widthA widthB := by
  intro id hid x hx
  obtain ⟨hcolumn, hrow⟩ := mem_workItems.mp hid
  obtain ⟨k, hk, hx, -⟩ | ⟨k, hk, hx, -⟩ | rfl := mem_matrixMultiplication hx
  · rw [hx, Nat.add_comm]
    exact position_lt hrow hk
  · rw [hx]
    exact position_lt hk hcolumn
  · show id.1 + widthA * id.2 < height * widthB
    rcases h with rfl | h
    · rw [Nat.add_comm, Nat.mul_comm]
      exact position_lt hrow hcolumn
    · obtain ⟨rfl, hzero⟩ : height = 1 ∧ id.2 = 0 := by omega
      simpa [hzero] using hcolumn

omit [Zero D] in
/-- Wider rows of `A` lead the last work-item out of `C`. -/
theorem not_inBounds (hwidth : widthB < widthA) (hheight : 1 < height) (hB : 0 < widthB) :
    ¬ InBounds D height widthA widthB := by
  intro h
  obtain ⟨m, rfl⟩ : ∃ m, height = m + 2 := ⟨height - 2, by omega⟩
  obtain ⟨w, rfl⟩ : ∃ w, widthB = w + 1 := ⟨widthB - 1, by omega⟩
  have hlast : (w, m + 1) ∈ workItems (w + 1) (m + 2) :=
    mem_workItems.mpr ⟨Nat.lt_succ_self w, Nat.lt_succ_self _⟩
  have hlt : w + widthA * (m + 1) < (m + 2) * (w + 1) := h _ hlast _ store_mem
  have hle : (w + 2) * (m + 1) ≤ widthA * (m + 1) := Nat.mul_le_mul_right _ hwidth
  have hsum : (w + 2) * (m + 1) + w = (m + 2) * (w + 1) + m := by ring
  omega

/-- Wider rows of `B` leave the last element of `C` as it is. -/
theorem last_untouched (hwidth : widthA < widthB) (hheight : 1 < height) (a b c : ℕ → D)
    (rest : ℕ × ℕ → D) :
    (serial (workItems widthB height) (matrixMultiplication widthA widthB)
      (enqueued a b c rest)).memory (.memobjC, (height - 1) * widthB + (widthB - 1)) =
        c ((height - 1) * widthB + (widthB - 1)) := by
  refine serial_frame _ fun id hid x hx hstore heq => ?_
  obtain ⟨hcolumn, hrow⟩ := mem_workItems.mp hid
  obtain ⟨-, -, -, hload⟩ | ⟨-, -, -, hload⟩ | rfl := mem_matrixMultiplication hx
  · exact hload hstore
  · exact hload hstore
  have hcell : id.1 + widthA * id.2 = (height - 1) * widthB + (widthB - 1) :=
    congrArg Prod.snd heq
  have hrows : widthA * id.2 ≤ widthA * (height - 1) := Nat.mul_le_mul_left _ (by omega)
  have hlt : widthA * (height - 1) < (height - 1) * widthB := by
    rw [Nat.mul_comm]
    exact Nat.mul_lt_mul_of_pos_left hwidth (by omega)
  omega

omit [Zero D] in
/-- In buffers of fewer than 2³¹ elements no index of type `int` overflows. -/
theorem address_lt (hA : height * widthA < 2 ^ 31) (hB : widthA * widthB < 2 ^ 31)
    (hC : height * widthB < 2 ^ 31) : ∀ id ∈ workItems widthB height,
      ∀ x ∈ matrixMultiplication (D := D) widthA widthB id, x.address.2 < 2 ^ 31 := by
  intro id hid x hx
  obtain ⟨hcolumn, hrow⟩ := mem_workItems.mp hid
  obtain ⟨k, hk, hx, -⟩ | ⟨k, hk, hx, -⟩ | rfl := mem_matrixMultiplication hx
  · rw [hx, Nat.add_comm]
    exact (position_lt hrow hk).trans hA
  · rw [hx]
    exact (position_lt hk hcolumn).trans hB
  · show id.1 + widthA * id.2 < 2 ^ 31
    rw [Nat.add_comm, Nat.mul_comm]
    rcases Nat.le_total widthA widthB with hwidth | hwidth
    · have hstart := Nat.mul_le_mul_left id.2 hwidth
      have hlt := position_lt hrow hcolumn
      omega
    · exact (position_lt hrow (hcolumn.trans_le hwidth)).trans hA

theorem launch_correct_iff [Nontrivial D] :
    Correct D height widthA widthB ↔ widthA = widthB ∨ height ≤ 1 ∨ widthB = 0 := by
  constructor
  · rintro ⟨hbounds, hproduct⟩
    by_contra hnot
    obtain ⟨hne, hheight, hB⟩ : widthA ≠ widthB ∧ 1 < height ∧ 0 < widthB := by omega
    rcases Nat.lt_or_gt_of_ne hne with hwidth | hwidth
    · -- the last element may hold something else than the product
      let zero : ℕ → D := fun _ => 0
      obtain ⟨x, hx⟩ := exists_ne (element widthA widthB zero zero (height - 1) (widthB - 1))
      obtain ⟨e, hreach, he, heq⟩ := exists_final (workItems widthB height)
        (matrixMultiplication widthA widthB) (enqueued zero zero (fun _ => x) fun _ => x)
      have hlast := hproduct _ _ _ _ e he hreach (height - 1) (by omega) (widthB - 1) (by omega)
      rw [heq, last_untouched hwidth hheight] at hlast
      exact hx hlast
    · exact not_inBounds hwidth hheight hB hbounds
  · intro h
    by_cases hB : widthB = 0
    · subst hB
      exact ⟨fun id hid => absurd (mem_workItems.mp hid).1 (Nat.not_lt_zero _),
        fun _ _ _ _ _ _ _ _ _ j hj => absurd hj (Nat.not_lt_zero j)⟩
    · have h : widthA = widthB ∨ height ≤ 1 := by omega
      refine ⟨inBounds_of h, fun a b c rest e he hreach i hi j hj => ?_⟩
      rw [← final_memory h he hreach hi hj]
      rcases h with rfl | h
      · rw [Nat.add_comm j, Nat.mul_comm]
      · obtain rfl : i = 0 := by omega
        simp

/-- The kernel computes the product for equal widths, a single row, or no column at all. -/
theorem matrixMultiplication_correct_iff [Nontrivial D] (hA : height * widthA < 2 ^ 31)
    (hB : widthA * widthB < 2 ^ 31) (hC : height * widthB < 2 ^ 31) :
    (∀ id ∈ workItems widthB height, ∀ x ∈ matrixMultiplication (D := D) widthA widthB id,
      x.address.2 < 2 ^ 31) ∧
    (Correct D height widthA widthB ↔ widthA = widthB ∨ height ≤ 1 ∨ widthB = 0) :=
  ⟨address_lt hA hB hC, launch_correct_iff⟩

theorem matrixMultiplication_correct_iff_two : ¬ Correct ℤ 2 1 2 := fun h =>
  absurd ((matrixMultiplication_correct_iff (by decide) (by decide) (by decide)).2.mp h) (by decide)

theorem hostProduct_eq {width : ℕ} (a b d : ℕ → D) {i j : ℕ} (hi : i < width) (hj : j < width) :
    hostProduct width a b d (i * width + j) = element width width a b i j := by
  refine foldl_written (fun d : ℕ → D => d (i * width + j)) d (List.mem_range.mpr hi)
    (fun d => ?_) fun d i' hi' hne => ?_
  · refine foldl_written (fun d : ℕ → D => d (i * width + j)) d (List.mem_range.mpr hj)
      (fun d => Function.update_self _ _ _) fun d j' hj' hne => ?_
    refine Function.update_of_ne (fun heq => hne ?_) _ _
    exact (Grid.position_injective (List.mem_range.mp hj') hj heq.symm).2
  · refine foldl_frame (fun d : ℕ → D => d (i * width + j)) _ d fun d j' hj' => ?_
    refine Function.update_of_ne (fun heq => hne ?_) _ _
    exact (Grid.position_injective (List.mem_range.mp hj') hj heq.symm).1

/-- The launch of the host program stays in its buffers and ends, and wherever it stops `memobjC`
holds the numbers that the host computes itself. -/
theorem main_agrees (width : ℕ) (a b c d : ℕ → D) (rest : ℕ × ℕ → D) :
    InBounds D width width width ∧
      (¬ ∃ run : ℕ → Machine (ℕ × ℕ) (Buffer × ℕ) D (Registers D) ×
          Team ((ℕ × ℕ) × Instruction (Buffer × ℕ) D (Registers D)) fun _ _ => True,
        run 0 = (enqueued a b c rest,
          enqueue (workItems width width) (matrixMultiplication width width)) ∧
        ∀ k, Team.Moves exec (run k) (run (k + 1))) ∧
      ∀ e, Final (Team.Moves exec) e →
        Reached (workItems width width) (matrixMultiplication width width) (enqueued a b c rest) e →
        ∀ p < width * width, e.1.memory (.memobjC, p) = hostProduct width a b d p := by
  refine ⟨inBounds_of (.inl rfl), WorkItems.no_infinite_run _, fun e he hreach p hp => ?_⟩
  obtain ⟨hrow, hcolumn, hcell⟩ := row_and_column hp
  have hcell' : p % width + width * (p / width) = p := Nat.mod_add_div p width
  rw [← hcell, hostProduct_eq a b d hrow hcolumn,
    ← final_memory (.inl rfl) he hreach hrow hcolumn, hcell, hcell']

end Launch

end ParallelPrograms.MatrixMultiply.OpenCLHost
