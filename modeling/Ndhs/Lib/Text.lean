import Mathlib.Algebra.Order.Field.Rat
import Mathlib.Data.List.Basic
import Mathlib.Tactic.Common

/-!
# C strings

A C string is the list of its characters, without the terminating null. `printInt v` is the text of
`sprintf ("%d", v)`, and `atoi` and `atof` read a number from the start of a text.

* `atoi_printInt`: a printed number is read back, whatever follows it other than a digit.
* `atoi_printInt_tail`: without its first character only the number zero is read back.
-/

/-- A C string. -/
abbrev Str := List Char

namespace Text

-- without it a search through all characters may be found first
instance (priority := high) decidableForallMem (s : Str) (p : Char → Prop) [DecidablePred p] :
    Decidable (∀ c ∈ s, p c) := List.decidableBAll p s

/-- The characters of a string. Irreducible, since unfolding a literal is slow. -/
@[irreducible] def chars (s : String) : Str := s.toList

/-- A literal, letter by letter -/
theorem chars_ofList (l : List Char) : chars (String.ofList l) = l := by
  unfold chars
  exact String.toList_ofList

/-- `strncmp (s, t, n) == 0` -/
def strncmpEq (s t : Str) (n : Nat) : Bool := s.take n == t.take n

/-- The comparison of two texts that ignores the letter case. -/
def streq (s t : Str) : Bool := s.map Char.toLower == t.map Char.toLower

/-! ## Numbers -/

/-- `isspace`, in the C locale. -/
def isSpace (c : Char) : Bool :=
  c == ' ' || c == '\t' || c == '\n' || c == '\x0b' || c == '\x0c' || c == '\r'

/-- `sprintf ("%d", v)` -/
def printInt : Int → List Char
  | .ofNat n => Nat.toDigits 10 n
  | .negSucc n => '-' :: Nat.toDigits 10 (n + 1)

/-- The value of the digits at the start of the text. -/
def readDigits (s : List Char) : Nat := Nat.ofDigitChars 10 (s.takeWhile Char.isDigit) 0

/-- `atoi` -/
def atoi (s : List Char) : Int :=
  match s.dropWhile isSpace with
  | '-' :: s => -readDigits s
  | '+' :: s => readDigits s
  | s => readDigits s

/-- The text behind a sign -/
def skipSign : Str → Str
  | '-' :: s => s
  | '+' :: s => s
  | s => s

/-- The scale that an exponent stands for, at the start of the text. -/
def scale : Str → Rat
  | c :: s => if c = 'e' ∨ c = 'E' then 10 ^ atoi s else 1
  | [] => 1

/-- An unsigned number with an optional fraction and exponent. -/
def readDecimal (s : Str) : Rat :=
  let whole := readDigits s
  match s.dropWhile Char.isDigit with
  | '.' :: s =>
    let places := (s.takeWhile Char.isDigit).length
    (whole + readDigits s / 10 ^ places) * scale (s.dropWhile Char.isDigit)
  | s => whole * scale s

/-- `atof` of a decimal number -/
def atof (s : Str) : Rat :=
  match s.dropWhile isSpace with
  | '-' :: s => -readDecimal s
  | '+' :: s => readDecimal s
  | s => readDecimal s

theorem isDigit_toDigits {n : Nat} {c : Char} (h : c ∈ Nat.toDigits 10 n) : c.isDigit = true :=
  Nat.isDigit_of_mem_toDigits (by decide) (by decide) h

theorem readDigits_append {ds : List Char} (rest : List Char) (hd : ∀ c ∈ ds, c.isDigit = true)
    (hr : ∀ c ∈ rest.head?, c.isDigit = false) :
    readDigits (ds ++ rest) = Nat.ofDigitChars 10 ds 0 := by
  have hrest : rest.takeWhile Char.isDigit = [] := by
    cases rest with
    | nil => rfl
    | cons c rest => simp [hr c rfl]
  rw [readDigits, List.takeWhile_append_of_pos hd, hrest, List.append_nil]

theorem not_isSpace_of_isDigit {c : Char} (h : c.isDigit = true) : isSpace c = false := by
  have hne : ∀ d : Char, d.isDigit = false → (c == d) = false := by
    intro d hd
    rw [beq_eq_false_iff_ne]
    rintro rfl
    rw [h] at hd
    cases hd
  simp [isSpace, hne]

/-- A text that starts with neither a blank nor a sign. -/
theorem atoi_of_plain {c : Char} {s : List Char} (hspace : isSpace c = false) (hm : c ≠ '-') (hp : c ≠ '+') :
    atoi (c :: s) = readDigits (c :: s) := by
  unfold atoi
  rw [List.dropWhile_cons_of_neg (by simp [hspace])]
  split
  · rename_i heq
    cases heq
    exact absurd rfl hm
  · rename_i heq
    cases heq
    exact absurd rfl hp
  · rfl

/-- A text that starts with a digit. -/
theorem atoi_of_isDigit {c : Char} {s : List Char} (h : c.isDigit = true) :
    atoi (c :: s) = readDigits (c :: s) := by
  have hm : c ≠ '-' := by
    rintro rfl
    cases h
  have hp : c ≠ '+' := by
    rintro rfl
    cases h
  exact atoi_of_plain (not_isSpace_of_isDigit h) hm hp

@[simp] theorem atoi_space (s : List Char) : atoi (' ' :: s) = atoi s := rfl

@[simp] theorem atoi_nil : atoi [] = 0 := rfl

/-- The digits of a number have no digit in front of them that could be left out. -/
theorem toDigits_eq_cons (n : Nat) :
    ∃ c ds, Nat.toDigits 10 n = c :: ds ∧ c.isDigit = true ∧ (∀ d ∈ ds, d.isDigit = true) := by
  cases h : Nat.toDigits 10 n with
  | nil => exact absurd h Nat.toDigits_ne_nil
  | cons c ds =>
    exact ⟨c, ds, rfl, isDigit_toDigits (h ▸ List.mem_cons_self),
      fun d hd => isDigit_toDigits (h ▸ List.mem_cons_of_mem c hd)⟩

/-- A printed number is read back. -/
theorem atoi_printInt (v : Int) (rest : List Char) (hr : ∀ c ∈ rest.head?, c.isDigit = false) :
    atoi (printInt v ++ rest) = v := by
  cases v with
  | ofNat n =>
    obtain ⟨c, ds, h, hc, -⟩ := toDigits_eq_cons n
    rw [printInt, h, List.cons_append, atoi_of_isDigit hc, ← List.cons_append, ← h,
      readDigits_append rest (fun _ => isDigit_toDigits) hr, Nat.ofDigitChars_ten_toDigits]
    rfl
  | negSucc n =>
    have hread := readDigits_append rest (fun _ => isDigit_toDigits (n := n + 1)) hr
    rw [Nat.ofDigitChars_ten_toDigits] at hread
    show -(readDigits (Nat.toDigits 10 (n + 1) ++ rest) : Int) = _
    rw [hread]
    rfl

theorem ofDigitChars_lt {ds : List Char} (h : ∀ c ∈ ds, c.isDigit = true) :
    Nat.ofDigitChars 10 ds 0 < 10 ^ ds.length := by
  induction ds with
  | nil => simp
  | cons c ds ih =>
    have hc : c.toNat - '0'.toNat ≤ 9 := by
      have hdigit := h c List.mem_cons_self
      rw [Char.isDigit, Bool.and_eq_true, decide_eq_true_eq, decide_eq_true_eq] at hdigit
      have h9 : c.toNat ≤ '9'.toNat := hdigit.2
      exact Nat.sub_le_sub_right h9 _
    have hds := ih fun d hd => h d (List.mem_cons_of_mem c hd)
    rw [Nat.ofDigitChars_cons, Nat.ofDigitChars_eq_ofDigitChars_zero, List.length_cons, Nat.pow_succ,
      Nat.mul_zero, Nat.zero_add]
    have hmul : 10 ^ ds.length * (c.toNat - '0'.toNat) ≤ 10 ^ ds.length * 9 := Nat.mul_le_mul_left _ hc
    omega

/-- Without its first character only zero is read back: a number has no leading zeros, and a negative
one loses its sign. -/
theorem atoi_printInt_tail (v : Int) : atoi ((printInt v).drop 1) = v ↔ v = 0 := by
  cases v with
  | ofNat n =>
    obtain ⟨c, ds, h, -, hds⟩ := toDigits_eq_cons n
    rw [printInt, h, List.drop_succ_cons, List.drop_zero]
    cases ds with
    | nil =>
      rw [atoi_nil]
      exact ⟨Eq.symm, Eq.symm⟩
    | cons d ds =>
      rw [atoi_of_isDigit (hds d List.mem_cons_self), ← List.append_nil (d :: ds),
        readDigits_append [] hds (by simp)]
      have hlen : ¬ (Nat.toDigits 10 n).length ≤ (d :: ds).length := by
        rw [h]
        simp
      have hiff : (Nat.toDigits 10 n).length ≤ (d :: ds).length ↔ n < 10 ^ (d :: ds).length :=
        Nat.length_toDigits_le_iff (by decide) (Nat.succ_pos _)
      rw [hiff] at hlen
      have hlt := ofDigitChars_lt hds
      constructor
      · intro he
        have he : Nat.ofDigitChars 10 (d :: ds) 0 = n := Int.ofNat.inj he
        omega
      · intro he
        obtain rfl : n = 0 := Int.ofNat.inj he
        have : 0 < 10 ^ (d :: ds).length := Nat.pow_pos (by decide)
        omega
  | negSucc n =>
    have hread : atoi (Nat.toDigits 10 (n + 1)) = (n + 1 : Nat) := by
      have := atoi_printInt (Int.ofNat (n + 1)) [] (by simp)
      rwa [List.append_nil] at this
    show atoi (Nat.toDigits 10 (n + 1)) = _ ↔ _
    rw [hread]
    omega

end Text
