import Mathlib.Data.Rat.Floor
import Mathlib.Algebra.Order.Ring.Rat
import Mathlib.Tactic.Linarith
import Mathlib.Tactic.Ring
import Ndhs.Lib.Double

/-!
# Exposure ids

An exposure id is a `double`, modelled by the rational number it stands for. Programs compare ids
with `smcEqualExpID` (`lib/smc/smCache.c`), which allows a small difference, and send them over
the message bus as text: `sprintf (buf, "… %.6lf", expID)` on one side and `atof` on the other.
`fmt6 e` is the number such a text stands for.

* `smcEqualExpID_self`: the comparison is reflexive. It is not transitive.
* `fmt6_fmt6`: an id that was read from a message is sent on unchanged.
* `smcEqualExpID_fmt6`: an id and its text compare equal.
* `atof_printf6`: the text of an id stands for `fmt6` of it.
-/

namespace Ndhs

open Text

/-- An exposure id. -/
abbrev ExpID := Rat

/-- The local `tol` of `smcEqualExpID`. -/
def expTol : Rat := 1 / 1000000

/-- `smcEqualExpID`: test two ids for equality within some precision. -/
def smcEqualExpID (a b : ExpID) : Bool :=
  if a < b then decide (b - a < expTol) else decide (a - b < expTol)

theorem smcEqualExpID_iff {a b : ExpID} :
    smcEqualExpID a b = true ↔ b - a < expTol ∧ a - b < expTol := by
  unfold smcEqualExpID
  have hpos : (0 : Rat) < expTol := by decide +kernel
  split
  · rename_i h
    rw [decide_eq_true_iff]
    exact ⟨fun hd => ⟨hd, by linarith⟩, fun hd => hd.1⟩
  · rename_i h
    rw [decide_eq_true_iff]
    exact ⟨fun hd => ⟨by linarith, hd⟩, fun hd => hd.2⟩

@[simp] theorem smcEqualExpID_self (a : ExpID) : smcEqualExpID a a = true := by
  rw [smcEqualExpID_iff, sub_self]
  exact ⟨by decide +kernel, by decide +kernel⟩

/-! ## Ids in messages -/

/-- Round to an integer, a tie to the even neighbour: the rounding of `printf`. -/
def roundHalfEven (x : Rat) : Int :=
  if x - ⌊x⌋ < 1 / 2 then ⌊x⌋
  else if 1 / 2 < x - ⌊x⌋ then ⌊x⌋ + 1
  else if ⌊x⌋ % 2 = 0 then ⌊x⌋ else ⌊x⌋ + 1

/-- The number that the text of `e` in the format `%.6lf` stands for. -/
def fmt6 (e : ExpID) : ExpID := roundHalfEven (e * 1000000) / 1000000

@[simp] theorem roundHalfEven_intCast (z : Int) : roundHalfEven (z : Rat) = z := by
  simp [roundHalfEven]

/-- The rounding moves a number by at most one half. -/
theorem roundHalfEven_near (x : Rat) :
    (roundHalfEven x : Rat) - x ≤ 1 / 2 ∧ x - roundHalfEven x ≤ 1 / 2 := by
  have h1 := Int.floor_le x
  have h2 := Int.lt_floor_add_one x
  unfold roundHalfEven
  split
  · rename_i h
    constructor <;> linarith
  · split
    · push_cast
      constructor <;> linarith
    · rename_i h h'
      split <;> push_cast <;> constructor <;> linarith

theorem fmt6_mul (e : ExpID) : fmt6 e * 1000000 = (roundHalfEven (e * 1000000) : Rat) :=
  div_mul_cancel₀ _ (by decide +kernel)

@[simp] theorem fmt6_fmt6 (e : ExpID) : fmt6 (fmt6 e) = fmt6 e := by
  show (roundHalfEven (fmt6 e * 1000000) : Rat) / 1000000 = fmt6 e
  rw [fmt6_mul, roundHalfEven_intCast]
  rfl

theorem smcEqualExpID_fmt6 (e : ExpID) : smcEqualExpID e (fmt6 e) = true := by
  obtain ⟨h1, h2⟩ := roundHalfEven_near (e * 1000000)
  rw [← fmt6_mul] at h1 h2
  rw [smcEqualExpID_iff]
  unfold expTol
  constructor <;> linarith

/-! ## The text of an id -/

/-- `sprintf ("%.6lf", e)` -/
def printf6 (e : ExpID) : Str :=
  let m := (roundHalfEven (e * 1000000)).natAbs
  let frac := Nat.toDigits 10 (m % 1000000)
  Double.fixed (e < 0) (Nat.toDigits 10 (m / 1000000)) (List.replicate (6 - frac.length) '0' ++ frac)

/-- The rounding keeps the sign. -/
theorem natAbs_roundHalfEven (x : Rat) :
    (roundHalfEven x : Rat) = (if decide (x < 0) then -1 else 1) * ((roundHalfEven x).natAbs : Rat) := by
  obtain ⟨h1, h2⟩ := roundHalfEven_near x
  rw [Nat.cast_natAbs]
  split
  · rename_i hx
    have hx := of_decide_eq_true hx
    have hlt : (roundHalfEven x : Rat) < 1 := by linarith
    have hle : roundHalfEven x < 1 := by exact_mod_cast hlt
    rw [abs_of_nonpos (by omega)]
    push_cast
    linarith
  · rename_i hx
    have hx : ¬ x < 0 := fun h => hx (decide_eq_true h)
    have hlt : (-1 : Rat) < roundHalfEven x := by linarith
    have hle : -1 < roundHalfEven x := by exact_mod_cast hlt
    rw [abs_of_nonneg (by omega), one_mul]

theorem millions (m : Nat) : ((m / 1000000 : Nat) : Rat) + (m % 1000000 : Nat) / 10 ^ 6 = m / 1000000 := by
  have h : (m : Rat) = 1000000 * (m / 1000000 : Nat) + (m % 1000000 : Nat) := by
    exact_mod_cast (Nat.div_add_mod m 1000000).symm
  rw [h]
  ring

/-- `atof` reads the text of an id. -/
theorem atof_printf6 (e : ExpID) : Text.atof (printf6 e) = fmt6 e := by
  have hlen : (Nat.toDigits 10 ((roundHalfEven (e * 1000000)).natAbs % 1000000)).length ≤ 6 :=
    (Nat.length_toDigits_le_iff (by decide) (by decide)).mpr (Nat.mod_lt _ (by decide))
  have hfrac : ∀ c ∈ List.replicate (6 - (Nat.toDigits 10 ((roundHalfEven (e * 1000000)).natAbs % 1000000)).length) '0' ++
      Nat.toDigits 10 ((roundHalfEven (e * 1000000)).natAbs % 1000000), c.isDigit = true := by
    intro c hc
    rcases List.mem_append.mp hc with hc | hc
    · rw [List.eq_of_mem_replicate hc]
      rfl
    · exact isDigit_toDigits hc
  have hneg : decide (e < 0) = decide (e * 1000000 < 0) := by
    rw [decide_eq_decide]
    constructor <;> intro h <;> linarith
  rw [printf6, Double.atof_fixed_eq _ Nat.toDigits_ne_nil (fun _ => isDigit_toDigits) hfrac, List.length_append,
    List.length_replicate, Nat.sub_add_cancel hlen, Nat.ofDigitChars_append, Nat.ofDigitChars_replicate_zero,
    Nat.mul_zero, Nat.ofDigitChars_ten_toDigits, Nat.ofDigitChars_ten_toDigits, millions, ← mul_div_assoc, hneg,
    ← natAbs_roundHalfEven]
  rfl

end Ndhs
