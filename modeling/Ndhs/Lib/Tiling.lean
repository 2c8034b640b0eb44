import Mathlib.Tactic.Common

/-!
# Areas that follow each other

`Tiles a l b`: the areas of the list `l` follow each other without a gap, from `a` to `b`. Such areas are in the
order of their offsets and do not overlap (`Tiles.pairwise`).
-/

namespace Tiling

/-- An area of a file. -/
structure Area where
  off : Int
  size : Int
  deriving DecidableEq

namespace Area

/-- The first offset behind the area. -/
def stop (r : Area) : Int := r.off + r.size

end Area

/-- The areas follow each other from `a` to `b`. -/
def Tiles : Int → List Area → Int → Prop
  | a, [], b => a = b
  | a, r :: l, b => r.off = a ∧ 0 ≤ r.size ∧ Tiles r.stop l b

namespace Tiles

variable {a b c : Int} {l l' : List Area} {r : Area}

theorem append (h : Tiles a l b) (h' : Tiles b l' c) : Tiles a (l ++ l') c := by
  induction l generalizing a with
  | nil =>
    obtain rfl : a = b := h
    exact h'
  | cons r l ih =>
    obtain ⟨hoff, hsize, h⟩ := h
    exact ⟨hoff, hsize, ih h⟩

theorem split (h : Tiles a (l ++ l') c) : ∃ b, Tiles a l b ∧ Tiles b l' c := by
  induction l generalizing a with
  | nil => exact ⟨a, rfl, h⟩
  | cons r l ih =>
    obtain ⟨hoff, hsize, h⟩ := h
    obtain ⟨b, hl, hl'⟩ := ih h
    exact ⟨b, ⟨hoff, hsize, hl⟩, hl'⟩

theorem le (h : Tiles a l b) : a ≤ b := by
  induction l generalizing a with
  | nil => exact Int.le_of_eq h
  | cons r l ih =>
    obtain ⟨rfl, hsize, h⟩ := h
    have hle := ih h
    unfold Area.stop at hle
    omega

/-- All areas are between the ends. -/
theorem bounds (h : Tiles a l b) (hr : r ∈ l) : a ≤ r.off ∧ 0 ≤ r.size ∧ r.stop ≤ b := by
  induction l generalizing a with
  | nil => cases hr
  | cons s l ih =>
    obtain ⟨rfl, hsize, h⟩ := h
    have hle := h.le
    rcases List.mem_cons.mp hr with rfl | hr
    · exact ⟨Int.le_refl _, hsize, hle⟩
    · obtain ⟨hoff, hr⟩ := ih h hr
      unfold Area.stop at hoff
      exact ⟨by omega, hr⟩

/-- An area ends before the next ones begin. -/
theorem pairwise (h : Tiles a l b) : l.Pairwise fun r s => r.stop ≤ s.off := by
  induction l generalizing a with
  | nil => exact .nil
  | cons r l ih =>
    obtain ⟨-, -, h⟩ := h
    exact .cons (fun s hs => (h.bounds hs).1) (ih h)

end Tiles

/-! ## Rounding up -/

/-- `(n + m - 1) / m * m` -/
def roundUp (m n : Int) : Int := (n + m - 1).tdiv m * m

variable {m n : Int}

theorem dvd_roundUp (m n : Int) : m ∣ roundUp m n := Int.dvd_mul_left _ _

theorem le_roundUp (hm : 0 < m) (hn : 0 ≤ n) : n ≤ roundUp m n := by
  have hdiv := Int.mul_ediv_add_emod (n + m - 1) m
  have hlt := Int.emod_lt_of_pos (n + m - 1) hm
  rw [roundUp, Int.tdiv_eq_ediv_of_nonneg (by omega), Int.mul_comm]
  omega

theorem roundUp_le (hm : 0 < m) (hn : 0 ≤ n) : roundUp m n ≤ n + m - 1 := by
  have hdiv := Int.mul_ediv_add_emod (n + m - 1) m
  have hnn := Int.emod_nonneg (n + m - 1) (show m ≠ 0 by omega)
  rw [roundUp, Int.tdiv_eq_ediv_of_nonneg (by omega), Int.mul_comm]
  omega

theorem roundUp_nonneg (hm : 0 < m) (hn : 0 ≤ n) : 0 ≤ roundUp m n := Int.le_trans hn (le_roundUp hm hn)

end Tiling
