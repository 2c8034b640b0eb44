import Ndhs.Lib.Text

/-!
# Integers of a fixed width

A signed integer type of `w` bits has the numbers from `-2 ^ (w - 1)` up to `2 ^ (w - 1)` (`Fits`). A number that is
stored in it is taken modulo `2 ^ w` (`wrap`), and `strtol` gives the nearest one (`clamp`).

`atoi_eq_iff`: the numbers that `atoi` reads right are the numbers of an `int`, however long a `long` is.
-/

namespace CInt

/-- The numbers of a signed type of `w` bits -/
def Fits (w : Nat) (x : Int) : Prop := -2 ^ (w - 1) ≤ x ∧ x < 2 ^ (w - 1)

instance (w : Nat) (x : Int) : Decidable (Fits w x) := inferInstanceAs (Decidable (_ ∧ _))

/-- The number that is stored -/
def wrap (w : Nat) (x : Int) : Int := x.bmod (2 ^ w)

/-- The nearest number -/
def clamp (w : Nat) (x : Int) : Int := max (-2 ^ (w - 1)) (min (2 ^ (w - 1) - 1) x)

/-- `strtol`, where a `long` has `w` bits -/
def strtol (w : Nat) (s : List Char) : Int := clamp w (Text.atoi s)

/-- `atoi`: the `long` that is read, stored in an `int` -/
def atoi (w : Nat) (s : List Char) : Int := wrap 32 (strtol w s)

variable {w w' : Nat} {x y : Int}

theorem fits_wrap (hw : 0 < w) (x : Int) : Fits w (wrap w x) := by
  obtain ⟨k, rfl⟩ : ∃ k, w = k + 1 := ⟨w - 1, by omega⟩
  have hpos : 0 < 2 ^ (k + 1) := Nat.two_pow_pos _
  have hlo := Int.le_bmod (x := x) hpos
  have hhi := Int.bmod_lt (x := x) hpos
  have hdouble : ((2 ^ (k + 1) : Nat) : Int) = 2 ^ k * 2 := by
    push_cast
    rw [pow_succ]
  rw [hdouble] at hlo hhi
  refine ⟨?_, ?_⟩
  · rw [Nat.add_sub_cancel, wrap]
    omega
  · rw [Nat.add_sub_cancel, wrap]
    omega

theorem wrap_of_fits (hw : 0 < w) (hx : Fits w x) : wrap w x = x := by
  obtain ⟨k, rfl⟩ : ∃ k, w = k + 1 := ⟨w - 1, by omega⟩
  obtain ⟨hlo, hhi⟩ := hx
  rw [Nat.add_sub_cancel] at hlo hhi
  refine Int.bmod_eq_of_le ?_ ?_
  · push_cast
    rw [pow_succ]
    omega
  · push_cast
    rw [pow_succ]
    omega

theorem clamp_of_fits (hx : Fits w x) : clamp w x = x := by
  obtain ⟨hlo, hhi⟩ := hx
  rw [clamp, min_eq_right (Int.le_sub_one_of_lt hhi), max_eq_right hlo]

theorem Fits.mono (hx : Fits w x) (hw : w ≤ w') : Fits w' x := by
  have hpow : (2 : Int) ^ (w - 1) ≤ 2 ^ (w' - 1) := by
    exact_mod_cast Nat.pow_le_pow_right (by decide : 0 < 2) (by omega : w - 1 ≤ w' - 1)
  exact ⟨(Int.neg_le_neg hpow).trans hx.1, hx.2.trans_le hpow⟩

/-- Two numbers of a type that are stored as one are one. -/
theorem eq_of_wrap_eq (hw : 0 < w) (hx : Fits w x) (hy : Fits w y) (h : wrap w x = wrap w y) : x = y := by
  rwa [wrap_of_fits hw hx, wrap_of_fits hw hy] at h

theorem wrap_add_wrap (w : Nat) (x y : Int) : wrap w (wrap w x + y) = wrap w (x + y) := Int.bmod_add_bmod

theorem fits_atoi (w : Nat) (s : List Char) : Fits 32 (atoi w s) := fits_wrap (by decide) _

theorem atoi_eq_iff (hw : 32 ≤ w) {s : List Char} : atoi w s = Text.atoi s ↔ Fits 32 (Text.atoi s) := by
  refine ⟨fun h => h ▸ fits_atoi w s, fun h => ?_⟩
  rw [atoi, strtol, clamp_of_fits (h.mono hw), wrap_of_fits (by decide) h]

end CInt
