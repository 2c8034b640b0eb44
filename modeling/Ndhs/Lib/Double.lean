import Mathlib.Data.List.TakeWhile
import Ndhs.Lib.Text

/-!
# Doubles in texts

`atof` gives the `double` next to the number that a text begins with. A `double` is a `Float`, whose arithmetic rounds
as IEEE 754 has it.

`atof_fixed`: a number in the format of `%f` is read up to the blank behind it. `atof_fixed_eq` is the number that the
text stands for.
-/

namespace Double

open Text

/-- The exponent at the start of the text -/
def exponent : Str → Int
  | c :: s =>
    if c = 'e' ∨ c = 'E' then
      match s with
      | '-' :: s => -readDigits s
      | '+' :: s => readDigits s
      | s => readDigits s
    else 0
  | [] => 0

/-- `m * 10 ^ e`, rounded -/
def scientific (m : Nat) (e : Int) : Float := Float.ofScientific m (decide (e < 0)) e.natAbs

/-- An unsigned number with an optional fraction and exponent -/
def read (s : Str) : Float :=
  let whole := readDigits s
  match s.dropWhile Char.isDigit with
  | '.' :: s =>
    let places := (s.takeWhile Char.isDigit).length
    scientific (whole * 10 ^ places + readDigits s) (exponent (s.dropWhile Char.isDigit) - places)
  | s => scientific whole (exponent s)

/-- `atof` of a decimal number -/
def atof (s : Str) : Float :=
  match s.dropWhile isSpace with
  | '-' :: s => -read s
  | '+' :: s => read s
  | s => read s

/-- A number in the format of `%f` -/
def fixed (neg : Bool) (whole frac : Str) : Str := (if neg then ['-'] else []) ++ (whole ++ '.' :: frac)

variable {whole frac : Str}

/-- The digits on both sides of the point -/
theorem read_digits (hw : ∀ c ∈ whole, c.isDigit = true) (hf : ∀ c ∈ frac, c.isDigit = true) {rest : Str}
    (hr : ∀ c ∈ rest.head?, c.isDigit = false) :
    read (whole ++ '.' :: (frac ++ rest)) =
      scientific (Nat.ofDigitChars 10 whole 0 * 10 ^ frac.length + Nat.ofDigitChars 10 frac 0)
        (exponent rest - frac.length) := by
  have hrest : rest.takeWhile Char.isDigit = [] ∧ rest.dropWhile Char.isDigit = rest := by
    cases rest with
    | nil => exact ⟨rfl, rfl⟩
    | cons c rest => simp [hr c rfl]
  have hdrop : (whole ++ '.' :: (frac ++ rest)).dropWhile Char.isDigit = '.' :: (frac ++ rest) := by
    rw [List.dropWhile_append_of_pos hw]
    rfl
  have hplaces : (frac ++ rest).takeWhile Char.isDigit = frac := by
    rw [List.takeWhile_append_of_pos hf, hrest.1, List.append_nil]
  have hexp : (frac ++ rest).dropWhile Char.isDigit = rest := by
    rw [List.dropWhile_append_of_pos hf, hrest.2]
  rw [read, hdrop, readDigits_append _ hw (by simp)]
  change scientific (_ * 10 ^ ((frac ++ rest).takeWhile Char.isDigit).length + readDigits (frac ++ rest))
    (exponent ((frac ++ rest).dropWhile Char.isDigit) - ((frac ++ rest).takeWhile Char.isDigit).length) = _
  rw [readDigits_append _ hf hr, hplaces, hexp]

/-- A text that starts with a digit -/
theorem atof_of_isDigit {c : Char} {s : Str} (h : c.isDigit = true) : atof (c :: s) = read (c :: s) := by
  unfold atof
  rw [List.dropWhile_cons_of_neg (by simp [not_isSpace_of_isDigit h])]
  split
  · rename_i heq
    cases heq
    cases h
  · rename_i heq
    cases heq
    cases h
  · rfl

/-- A number is read up to the blank behind it. -/
theorem atof_fixed (neg : Bool) (hne : whole ≠ []) (hw : ∀ c ∈ whole, c.isDigit = true)
    (hf : ∀ c ∈ frac, c.isDigit = true) (rest : Str) :
    atof (fixed neg whole frac ++ ' ' :: rest) = atof (fixed neg whole frac) := by
  have hread : read (whole ++ '.' :: (frac ++ ' ' :: rest)) = read (whole ++ '.' :: frac) := by
    have hend := read_digits hw hf (show ∀ c ∈ ([] : Str).head?, c.isDigit = false by simp)
    rw [List.append_nil] at hend
    rw [read_digits hw hf (by simp), hend]
    rfl
  have hfixed : fixed neg whole frac ++ ' ' :: rest =
      (if neg then ['-'] else []) ++ (whole ++ '.' :: (frac ++ ' ' :: rest)) := by
    simp [fixed]
  rw [hfixed]
  cases neg with
  | true => exact congrArg (-·) hread
  | false =>
    obtain ⟨c, ds, rfl⟩ := List.exists_cons_of_ne_nil hne
    have hc := hw c List.mem_cons_self
    exact (atof_of_isDigit hc).trans (hread.trans (atof_of_isDigit hc).symm)

/-- The digits on both sides of the point, as a decimal number -/
theorem readDecimal_digits (hw : ∀ c ∈ whole, c.isDigit = true) (hf : ∀ c ∈ frac, c.isDigit = true) :
    readDecimal (whole ++ '.' :: frac) =
      Nat.ofDigitChars 10 whole 0 + Nat.ofDigitChars 10 frac 0 / 10 ^ frac.length := by
  have hdrop : (whole ++ '.' :: frac).dropWhile Char.isDigit = '.' :: frac := by
    rw [List.dropWhile_append_of_pos hw]
    rfl
  have hall : frac.takeWhile Char.isDigit = frac := List.takeWhile_eq_self_iff.mpr hf
  have hnone : frac.dropWhile Char.isDigit = [] := List.dropWhile_eq_nil_iff.mpr hf
  rw [readDecimal, hdrop, readDigits_append _ hw (by simp)]
  change (_ + (readDigits frac : Rat) / 10 ^ (frac.takeWhile Char.isDigit).length) *
    scale (frac.dropWhile Char.isDigit) = _
  rw [readDigits, hall, hnone, scale, mul_one]

/-- The number that a text in the format of `%f` stands for. -/
theorem atof_fixed_eq (neg : Bool) (hne : whole ≠ []) (hw : ∀ c ∈ whole, c.isDigit = true)
    (hf : ∀ c ∈ frac, c.isDigit = true) :
    Text.atof (fixed neg whole frac) =
      (if neg then -1 else 1) * (Nat.ofDigitChars 10 whole 0 + Nat.ofDigitChars 10 frac 0 / 10 ^ frac.length) := by
  rw [← readDecimal_digits hw hf]
  cases neg with
  | true => exact (neg_one_mul _).symm
  | false =>
    obtain ⟨c, ds, rfl⟩ := List.exists_cons_of_ne_nil hne
    have hc := hw c List.mem_cons_self
    rw [if_neg Bool.false_ne_true, one_mul]
    show Text.atof (c :: (ds ++ '.' :: frac)) = readDecimal (c :: (ds ++ '.' :: frac))
    unfold Text.atof
    rw [List.dropWhile_cons_of_neg (by simp [not_isSpace_of_isDigit hc])]
    split
    · rename_i heq
      cases heq
      cases hc
    · rename_i heq
      cases heq
      cases hc
    · rfl

/-- Two numbers that are less than a millionth apart as doubles -/
example : atof "1.000001".toList - atof "1.000000".toList < atof "0.000001".toList := by decide +kernel

end Double
