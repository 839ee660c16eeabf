import Mathlib.Data.List.Basic
import Mathlib.Data.List.TakeWhile

namespace ParallelPrograms.KMeans.OpenMP.Dataset

variable {F : Type*}

def isSpace (c : Char) : Bool := c.toNat ∈ [9, 10, 11, 12, 13, 32]

def scanSign : List Char → ℤ × List Char
  | [] => (1, [])
  | c :: rest => if c = '-' then (-1, rest) else if c = '+' then (1, rest) else (1, c :: rest)

def value (digits : List Char) : ℕ := digits.foldl (fun v c => 10 * v + (c.toNat - '0'.toNat)) 0

def Fits (z : ℤ) : Prop := -2147483648 ≤ z ∧ z ≤ 2147483647

instance (z : ℤ) : Decidable (Fits z) := inferInstanceAs (Decidable (_ ∧ _))

/-- The number that is read and the text behind it; none if there is no number, or one that is
not an `int`. -/
def scanInt (text : List Char) : Option (ℤ × List Char) :=
  let signed := scanSign (text.dropWhile isSpace)
  let digits := signed.2.takeWhile Char.isDigit
  let z := signed.1 * value digits
  if digits ≠ [] ∧ Fits z then some (z, signed.2.dropWhile Char.isDigit) else none

def scanInts : ℕ → List Char → Option (List ℤ)
  | 0, _ => some []
  | count + 1, text =>
    (scanInt text).bind fun temp => (scanInts count temp.2).map fun temps => temp.1 :: temps

/-- `readDataset(filename, &N, &data_points)` for the text of the file.  The program does not look
at what `fscanf` returns, so there is no result without a number: the variable held nothing yet.
The product `(*N) * 3` is an `int` too, and `toFloat` is the conversion of an `int`. -/
def readDataset (toFloat : ℤ → F) (file : List Char) : Option (ℤ × List F) :=
  (scanInt file).bind fun first =>
    if Fits (first.1 * 3) then
      (scanInts (first.1 * 3).toNat first.2).map fun temps => (first.1, temps.map toFloat)
    else none

/-- The sign of a number and the factor that it stands for. -/
inductive Sign : List Char → ℤ → Prop
  | none : Sign [] 1
  | plus : Sign ['+'] 1
  | minus : Sign ['-'] (-1)

/-- White space, a sign and digits, as many as there are. -/
structure Spelled (z : ℤ) (text rest : List Char) : Prop where
  parts : ∃ gap sign factor digits, text = gap ++ (sign ++ (digits ++ rest)) ∧
    (∀ c ∈ gap, isSpace c) ∧ Sign sign factor ∧ digits ≠ [] ∧ (∀ c ∈ digits, c.isDigit) ∧
    z = factor * value digits
  fits : Fits z
  ends : ∀ c ∈ rest.head?, ¬ c.isDigit

def Lists : List ℤ → List Char → Prop
  | [], _ => True
  | z :: zs, text => ∃ rest, Spelled z text rest ∧ Lists zs rest

theorem digit_bounds {c : Char} (h : c.isDigit) : 48 ≤ c.toNat ∧ c.toNat ≤ 57 := by
  simp only [Char.isDigit, Bool.and_eq_true, decide_eq_true_eq, ge_iff_le, UInt32.le_iff_toNat_le]
    at h
  exact h

theorem not_isSpace_of_isDigit {c : Char} (h : c.isDigit) : ¬ isSpace c := by
  have := digit_bounds h
  simp only [isSpace, List.mem_cons, List.not_mem_nil, or_false, decide_eq_true_eq]
  omega

theorem ne_minus_of_isDigit {c : Char} (h : c.isDigit) : c ≠ '-' := by
  rintro rfl
  exact absurd h (by decide)

theorem ne_plus_of_isDigit {c : Char} (h : c.isDigit) : c ≠ '+' := by
  rintro rfl
  exact absurd h (by decide)

theorem scanSign_spec (text : List Char) :
    ∃ sign, text = sign ++ (scanSign text).2 ∧ Sign sign (scanSign text).1 := by
  cases text with
  | nil => exact ⟨[], rfl, Sign.none⟩
  | cons c rest =>
    rw [scanSign]
    split_ifs with hminus hplus
    · exact ⟨['-'], by rw [hminus]; rfl, Sign.minus⟩
    · exact ⟨['+'], by rw [hplus]; rfl, Sign.plus⟩
    · exact ⟨[], rfl, Sign.none⟩

theorem scanSign_eq {sign : List Char} {factor : ℤ} (hsign : Sign sign factor)
    {c : Char} (hc : c.isDigit) (rest : List Char) :
    scanSign (sign ++ c :: rest) = (factor, c :: rest) := by
  cases hsign with
  | none =>
    rw [List.nil_append, scanSign, if_neg (ne_minus_of_isDigit hc),
      if_neg (ne_plus_of_isDigit hc)]
  | plus => rfl
  | minus => rfl

theorem dropWhile_isSpace {gap sign : List Char} {factor : ℤ} (hgap : ∀ c ∈ gap, isSpace c)
    (hsign : Sign sign factor) {c : Char} (hc : c.isDigit) (rest : List Char) :
    (gap ++ (sign ++ c :: rest)).dropWhile isSpace = sign ++ c :: rest := by
  rw [List.dropWhile_append_of_pos hgap]
  cases hsign with
  | none => exact List.dropWhile_cons_of_neg (not_isSpace_of_isDigit hc)
  | plus => rfl
  | minus => rfl

theorem takeWhile_digits {digits rest : List Char} (hdigits : ∀ c ∈ digits, c.isDigit)
    (hends : ∀ c ∈ rest.head?, ¬ c.isDigit) :
    (digits ++ rest).takeWhile Char.isDigit = digits ∧
      (digits ++ rest).dropWhile Char.isDigit = rest := by
  rw [List.takeWhile_append_of_pos hdigits, List.dropWhile_append_of_pos hdigits]
  cases rest with
  | nil => exact ⟨List.append_nil digits, rfl⟩
  | cons c rest =>
    have hc : ¬ c.isDigit := hends c rfl
    exact ⟨by rw [List.takeWhile_cons_of_neg hc, List.append_nil],
      List.dropWhile_cons_of_neg hc⟩

theorem scanInt_of_spelled {z : ℤ} {text rest : List Char} (h : Spelled z text rest) :
    scanInt text = some (z, rest) := by
  obtain ⟨gap, sign, factor, digits, rfl, hgap, hsign, hne, hdigits, rfl⟩ := h.parts
  obtain ⟨htake, hdrop⟩ := takeWhile_digits hdigits h.ends
  obtain ⟨c, tail, rfl⟩ := List.exists_cons_of_ne_nil hne
  have hc : c.isDigit := hdigits c List.mem_cons_self
  have hsigned : scanSign ((gap ++ (sign ++ (c :: tail ++ rest))).dropWhile isSpace) =
      (factor, c :: tail ++ rest) := by
    rw [List.cons_append, dropWhile_isSpace hgap hsign hc, scanSign_eq hsign hc]
  unfold scanInt
  dsimp only
  rw [hsigned, htake, hdrop, if_pos ⟨hne, h.fits⟩]

theorem spelled_of_scanInt {z : ℤ} {text rest : List Char} (h : scanInt text = some (z, rest)) :
    Spelled z text rest := by
  unfold scanInt at h
  dsimp only at h
  split_ifs at h with hnumber
  obtain ⟨sign, htext, hsign⟩ := scanSign_spec (text.dropWhile isSpace)
  set signed := scanSign (text.dropWhile isSpace)
  obtain ⟨rfl, rfl⟩ := Prod.mk.inj (Option.some.inj h)
  refine ⟨⟨text.takeWhile isSpace, sign, signed.1, signed.2.takeWhile Char.isDigit, ?_,
    fun c hc => List.mem_takeWhile_imp hc, hsign, hnumber.1,
    fun c hc => List.mem_takeWhile_imp hc, rfl⟩, hnumber.2, fun c hc => ?_⟩
  · rw [List.takeWhile_append_dropWhile, ← htext, List.takeWhile_append_dropWhile]
  · have hhead := List.head?_dropWhile_not Char.isDigit signed.2
    rw [Option.mem_def] at hc
    rw [hc] at hhead
    exact Bool.eq_false_iff.mp hhead

theorem scanInt_eq_some_iff {z : ℤ} {text rest : List Char} :
    scanInt text = some (z, rest) ↔ Spelled z text rest :=
  ⟨spelled_of_scanInt, scanInt_of_spelled⟩

theorem scanInts_eq_some_iff {count : ℕ} {text : List Char} {zs : List ℤ} :
    scanInts count text = some zs ↔ zs.length = count ∧ Lists zs text := by
  induction count generalizing text zs with
  | zero =>
    rw [scanInts, Option.some_inj, List.length_eq_zero_iff]
    exact ⟨by rintro rfl; exact ⟨rfl, trivial⟩, fun h => h.1.symm⟩
  | succ count ih =>
    simp only [scanInts, Option.bind_eq_some_iff, Option.map_eq_some_iff, Prod.exists]
    constructor
    · rintro ⟨z, rest, hscan, temps, htemps, rfl⟩
      obtain ⟨hlength, hlists⟩ := ih.mp htemps
      exact ⟨congrArg (· + 1) hlength, rest, scanInt_eq_some_iff.mp hscan, hlists⟩
    · rintro ⟨hlength, hlists⟩
      cases zs with
      | nil => cases hlength
      | cons z zs =>
        obtain ⟨rest, hspelled, hlists⟩ := hlists
        exact ⟨z, rest, scanInt_eq_some_iff.mpr hspelled, zs,
          ih.mpr ⟨Nat.succ.inj hlength, hlists⟩, rfl⟩

theorem lists_of_readDataset {toFloat : ℤ → F} {file : List Char} {n : ℤ} {points : List F}
    (h : readDataset toFloat file = some (n, points)) :
    ∃ zs, Lists (n :: zs) file ∧ Fits (n * 3) ∧ zs.length = (n * 3).toNat ∧
      points = zs.map toFloat := by
  simp only [readDataset, Option.bind_eq_some_iff, Prod.exists] at h
  obtain ⟨z, rest, hscan, h⟩ := h
  split_ifs at h with hfits
  obtain ⟨zs, hzs, h⟩ := Option.map_eq_some_iff.mp h
  obtain ⟨rfl, rfl⟩ := Prod.mk.inj h
  obtain ⟨hlength, hlists⟩ := scanInts_eq_some_iff.mp hzs
  exact ⟨zs, ⟨rest, scanInt_eq_some_iff.mp hscan, hlists⟩, hfits, hlength, rfl⟩

theorem readDataset_of_lists (toFloat : ℤ → F) {file : List Char} {n : ℤ} {zs : List ℤ}
    (hlists : Lists (n :: zs) file) (hfits : Fits (n * 3)) (hlength : zs.length = (n * 3).toNat) :
    readDataset toFloat file = some (n, zs.map toFloat) := by
  obtain ⟨rest, hspelled, hlists⟩ := hlists
  simp only [readDataset, Option.bind_eq_some_iff, Prod.exists]
  refine ⟨n, rest, scanInt_eq_some_iff.mpr hspelled, ?_⟩
  rw [if_pos hfits, scanInts_eq_some_iff.mpr ⟨hlength, hlists⟩]
  rfl

/-- The files that can be read are those that begin with `N` and `3 * N` more numbers.  What
stands behind them is not looked at, and a negative `N` stands for no points. -/
theorem readDataset_eq_some_iff (toFloat : ℤ → F) (file : List Char) (n : ℤ) (points : List F) :
    readDataset toFloat file = some (n, points) ↔
      ∃ zs, Lists (n :: zs) file ∧ Fits (n * 3) ∧ zs.length = (n * 3).toNat ∧
        points = zs.map toFloat := by
  constructor
  · exact lists_of_readDataset
  · rintro ⟨zs, hlists, hfits, hlength, rfl⟩
    exact readDataset_of_lists toFloat hlists hfits hlength

example : readDataset id "1\n 10 -20\t+30 x".toList = some (1, [10, -20, 30]) := by decide

end ParallelPrograms.KMeans.OpenMP.Dataset
