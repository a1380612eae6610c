import Computantis.Schemes.Radix
import Mathlib.Data.List.DropRight
import Mathlib.Data.Rat.Floor
import Mathlib.Tactic.Linarith

/-! @scheme decimal | name:Decimal numerals | family:encoding

    A natural number is written with its shortest row of digits, and a decimal fraction as two rows with a
    point between them. The reader takes a text apart at its first point; it accepts digits only, at least
    one on each side. Zeros in front of the whole part and at the end of the fraction do not matter to it.

        whole . fraction   =   whole + fraction / 10 ^ length of fraction

    A number with a fixed count of decimals is rounded to the nearest, a tie to the even neighbour. -/

namespace Schemes

theorem horner_append_zeros (b k : ℕ) (ds : List ℕ) : horner b (ds ++ List.replicate k 0) = horner b ds * b ^ k := by
  have hzeros : horner b (List.replicate k 0) = 0 := by
    simpa using horner_zeros (b := b) k []
  rw [horner_append, List.length_replicate, hzeros, Nat.add_zero]

namespace Decimal

/-! ### Characters -/

def point : UInt8 := 46

/-- The character of a digit. -/
def char (d : ℕ) : UInt8 := UInt8.ofNat (48 + d)

/-- The digit of a character. -/
def digit (c : UInt8) : Option ℕ := if 48 ≤ c.toNat ∧ c.toNat ≤ 57 then some (c.toNat - 48) else none

def text (ds : List ℕ) : List UInt8 := ds.map char

variable {d : ℕ}

theorem char_toNat (h : d < 10) : (char d).toNat = 48 + d := by
  rw [char, UInt8.toNat_ofNat_of_lt' (by simp only [UInt8.size]; omega)]

theorem digit_char (h : d < 10) : digit (char d) = some d := by
  rw [digit, char_toNat h, if_pos (by omega), Nat.add_sub_cancel_left]

theorem char_ne_point (h : d < 10) : char d ≠ point := by
  intro heq
  have hnat := congrArg UInt8.toNat heq
  rw [char_toNat h] at hnat
  have hpoint : point.toNat = 46 := rfl
  omega

theorem char_eq_zero (h : d < 10) : char d = 48 ↔ d = 0 := by
  rw [← UInt8.toNat_inj, char_toNat h]
  have hzero : (48 : UInt8).toNat = 48 := rfl
  omega

/-! ### Reading and writing numbers -/

/-- The number that the characters spell; an empty text spells none. -/
def read (s : List UInt8) : Option ℕ := if s = [] then none else (s.mapM digit).map (horner 10)

/-- The digits of a number, at least one. -/
def row (n : ℕ) : List ℕ := if n = 0 then [0] else shortest 10 n

/-- The number in decimal, as a formatter writes it. -/
def numeral (n : ℕ) : List UInt8 := text (row n)

section Rows

variable {ds : List ℕ}

theorem mapM_digit_text (h : ∀ d ∈ ds, d < 10) : (text ds).mapM digit = some ds := by
  induction ds with
  | nil => rfl
  | cons d ds ih =>
    have htail := ih fun e he => h e (List.mem_cons_of_mem d he)
    rw [text, List.map_cons, List.mapM_cons, digit_char (h d (List.mem_cons_self ..)), ← text, htail]
    rfl

theorem read_text (h : ∀ d ∈ ds, d < 10) (hne : ds ≠ []) : read (text ds) = some (horner 10 ds) := by
  rw [read, if_neg (by simpa [text] using hne), mapM_digit_text h, Option.map_some]

end Rows

theorem row_lt {n : ℕ} (h : d ∈ row n) : d < 10 := by
  rw [row] at h
  split at h
  · simp_all
  · exact shortest_lt (by decide) h

theorem horner_row (n : ℕ) : horner 10 (row n) = n := by
  rw [row]
  split
  next h => rw [h]; rfl
  next => exact horner_shortest 10 n

theorem row_ne_nil (n : ℕ) : row n ≠ [] := by
  rw [row]
  split
  · simp
  next h =>
    intro hnil
    have hval := horner_shortest 10 n
    rw [hnil] at hval
    exact h hval.symm

theorem numeral_horner {ds : List ℕ} (hd : 0 < d) (h : ∀ e ∈ d :: ds, e < 10) :
    numeral (horner 10 (d :: ds)) = text (d :: ds) := by
  have hpos : 0 < horner 10 (d :: ds) := by
    rw [horner_cons]
    exact Nat.add_pos_left (Nat.mul_pos hd (Nat.pow_pos (by decide))) _
  have hrow := eq_padded (by decide) h
  rw [padded_eq] at hrow
  rw [numeral, row, if_neg hpos.ne']
  cases hzeros : (d :: ds).length - (shortest 10 (horner 10 (d :: ds))).length with
  | zero =>
    rw [hzeros, List.replicate_zero, List.nil_append] at hrow
    rw [← hrow]
  | succ k =>
    rw [hzeros, List.replicate_succ, List.cons_append] at hrow
    exact absurd (List.cons.inj hrow).1 hd.ne'

theorem row_pos {n : ℕ} (hn : 0 < n) : ∃ d ds, row n = d :: ds ∧ 0 < d := by
  cases hrow : row n with
  | nil => exact absurd hrow (row_ne_nil n)
  | cons d ds =>
    refine ⟨d, ds, rfl, Nat.pos_of_ne_zero ?_⟩
    rintro rfl
    rw [row, if_neg hn.ne'] at hrow
    exact shortest_head hrow

/-! ### Fractions -/

/-- What stands in front of the first point. -/
def wholePart (s : List UInt8) : List UInt8 := s.takeWhile (· ≠ point)

/-- What stands behind the first point. -/
def fraction (s : List UInt8) : List UInt8 := (s.dropWhile (· ≠ point)).tail

/-- The exact value of a decimal numeral. -/
def value (s : List UInt8) : Option ℚ :=
  match read (wholePart s), read (fraction s) with
  | some n, some f => some (n + f / 10 ^ (fraction s).length)
  | _, _ => none

/-- The fraction is a single zero, or does not end in one. -/
def Trimmed (s : List UInt8) : Prop := fraction s = [48] ∨ (fraction s).getLast? ≠ some 48

section Fractions

variable {ws : List ℕ} (hw : ∀ d ∈ ws, d < 10) (s : List UInt8)
include hw

theorem wholePart_text : wholePart (text ws ++ point :: s) = text ws := by
  rw [wholePart, List.takeWhile_append_of_pos, List.takeWhile_cons_of_neg (by simp), List.append_nil]
  intro c hc
  obtain ⟨d, hd, rfl⟩ := List.mem_map.mp hc
  simpa using char_ne_point (hw d hd)

theorem fraction_text : fraction (text ws ++ point :: s) = s := by
  rw [fraction, List.dropWhile_append_of_pos, List.dropWhile_cons_of_neg (by simp), List.tail_cons]
  intro c hc
  obtain ⟨d, hd, rfl⟩ := List.mem_map.mp hc
  simpa using char_ne_point (hw d hd)

theorem value_text (hne : ws ≠ []) {fs : List ℕ} (hf : ∀ d ∈ fs, d < 10) (hfne : fs ≠ []) :
    value (text ws ++ point :: text fs) = some (horner 10 ws + horner 10 fs / 10 ^ fs.length : ℚ) := by
  rw [value, wholePart_text hw, fraction_text hw, read_text hw hne, read_text hf hfne, text, List.length_map]

end Fractions

/-! ### A fixed count of decimals -/

/-- The nearest integer, and of two the even one. -/
def roundEven (x : ℚ) : ℤ :=
  if x - ⌊x⌋ < 1 / 2 then ⌊x⌋
  else if 1 / 2 < x - ⌊x⌋ then ⌊x⌋ + 1
  else if ⌊x⌋ % 2 = 0 then ⌊x⌋ else ⌊x⌋ + 1

/-- `x ≥ 0` with `n` decimals. -/
def fixed (n : ℕ) (x : ℚ) : List UInt8 :=
  let r := (roundEven (x * 10 ^ n)).toNat
  numeral (r / 10 ^ n) ++ point :: text (padded 10 n (r % 10 ^ n))

theorem fraction_fixed (n : ℕ) (x : ℚ) :
    fraction (fixed n x) = text (padded 10 n ((roundEven (x * 10 ^ n)).toNat % 10 ^ n)) :=
  fraction_text (fun _ => row_lt) _

theorem roundEven_cases (x : ℚ) :
    (roundEven x = ⌊x⌋ ∧ x - ⌊x⌋ ≤ 1 / 2) ∨ (roundEven x = ⌊x⌋ + 1 ∧ 1 / 2 ≤ x - ⌊x⌋) := by
  rw [roundEven]
  split
  next h => exact .inl ⟨rfl, h.le⟩
  next h =>
    split
    next h' => exact .inr ⟨rfl, h'.le⟩
    next h' =>
      split
      · exact .inl ⟨rfl, not_lt.mp h'⟩
      · exact .inr ⟨rfl, not_lt.mp h⟩

theorem roundEven_up {x : ℚ} (h : 1 / 2 ≤ x - ⌊x⌋) (hodd : ⌊x⌋ % 2 ≠ 0) : roundEven x = ⌊x⌋ + 1 := by
  rw [roundEven, if_neg (not_lt.mpr h), if_neg hodd, ite_self]

theorem abs_roundEven_sub (x : ℚ) : |(roundEven x : ℚ) - x| ≤ 1 / 2 := by
  have hle := Int.floor_le x
  have hlt := Int.lt_floor_add_one x
  rw [abs_le]
  rcases roundEven_cases x with ⟨heq, h⟩ | ⟨heq, h⟩ <;> rw [heq] <;> push_cast <;> constructor <;> linarith

end Decimal

end Schemes
