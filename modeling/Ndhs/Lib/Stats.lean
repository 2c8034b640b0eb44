import Mathlib.Algebra.BigOperators.Group.List.Basic
import Mathlib.Algebra.Order.BigOperators.Group.List
import Mathlib.Algebra.Order.Field.Basic
import Mathlib.Order.Bounds.Basic

/-!
# Statistics of a list of numbers

* `least s l`, `greatest s l`: the loops that look for the least and the greatest number, with a start value.
  `isLeast_least_iff`: the result is the least number exactly if the start value is not below all of them.
* `mean`, `sqDev`, `variance`: the sum and the squared deviations over their number.
* `div_eq_mean_iff`, `wide_iff`: the same divided by a larger number, which is the mean only for the sum zero, and
  both the mean and the variance only for a list of zeros.
-/

namespace Stats

section Order

variable {α : Type*} [LinearOrder α] {s : α} {l : List α}

/-- `for (…) if (v < m) m = v;` from `m = s` on -/
def least (s : α) (l : List α) : α := l.foldl (fun m v => if v < m then v else m) s

/-- `for (…) if (v > m) m = v;` from `m = s` on -/
def greatest (s : α) (l : List α) : α := l.foldl (fun m v => if m < v then v else m) s

theorem least_cons (v : α) : least s (v :: l) = least (min v s) l := by
  rw [least, List.foldl_cons, min_def]
  congr 1
  split
  · rename_i h
    rw [if_pos h.le]
  · rename_i h
    split
    · rename_i h'
      exact le_antisymm (not_lt.mp h) h'
    · rfl

/-- The start value counts as one of the numbers. -/
theorem isLeast_least : IsLeast {v | v = s ∨ v ∈ l} (least s l) := by
  induction l generalizing s with
  | nil => exact ⟨.inl rfl, fun v hv => (hv.resolve_right List.not_mem_nil).ge⟩
  | cons a l ih =>
    rw [least_cons]
    obtain ⟨hmem, hle⟩ := ih (s := min a s)
    refine ⟨?_, fun v hv => ?_⟩
    · obtain hs | hl := hmem
      · rw [hs]
        rcases min_choice a s with h | h <;> rw [h]
        · exact .inr List.mem_cons_self
        · exact .inl rfl
      · exact .inr (List.mem_cons_of_mem a hl)
    · obtain rfl | hv := hv
      · exact (hle (.inl rfl)).trans (min_le_right a v)
      · obtain rfl | hv := List.mem_cons.mp hv
        · exact (hle (.inl rfl)).trans (min_le_left v s)
        · exact hle (.inr hv)

theorem isLeast_least_iff : IsLeast {v | v ∈ l} (least s l) ↔ ∃ v ∈ l, v ≤ s := by
  obtain ⟨hmem, hle⟩ := isLeast_least (s := s) (l := l)
  constructor
  · exact fun h => ⟨_, h.1, hle (.inl rfl)⟩
  · rintro ⟨v, hv, hvs⟩
    refine ⟨?_, fun w hw => hle (.inr hw)⟩
    obtain hs | hl := hmem
    · -- the start value is the result, so it is one of the numbers
      have heq : v = least s l := le_antisymm (hvs.trans hs.ge) (hle (.inr hv))
      exact heq ▸ hv
    · exact hl

theorem isGreatest_greatest_iff : IsGreatest {v | v ∈ l} (greatest s l) ↔ ∃ v ∈ l, s ≤ v :=
  @isLeast_least_iff αᵒᵈ _ _ _

end Order

section Field

variable {K : Type*} [Field K] {l : List K} {m : K}

def mean (l : List K) : K := l.sum / l.length

/-- The sum of the squared deviations from `m` -/
def sqDev (m : K) (l : List K) : K := (l.map fun v => (v - m) * (v - m)).sum

def variance (l : List K) : K := sqDev (mean l) l / l.length

theorem sqDev_cons (v : K) : sqDev m (v :: l) = (v - m) * (v - m) + sqDev m l := by
  rw [sqDev, List.map_cons, List.sum_cons]
  rfl

variable [LinearOrder K] [IsStrictOrderedRing K] {n : Nat}

theorem sqDev_nonneg : 0 ≤ sqDev m l := by
  refine List.sum_nonneg fun x hx => ?_
  obtain ⟨v, -, rfl⟩ := List.mem_map.mp hx
  exact mul_self_nonneg _

/-- Nothing deviates. -/
theorem sqDev_eq_zero_iff : sqDev m l = 0 ↔ ∀ v ∈ l, v = m := by
  induction l with
  | nil => simp [sqDev]
  | cons v l ih =>
    rw [sqDev_cons, add_eq_zero_iff_of_nonneg (mul_self_nonneg _) sqDev_nonneg, ih, mul_self_eq_zero, sub_eq_zero,
      List.forall_mem_cons]

/-- A quotient of a number by two different numbers -/
theorem div_eq_div_iff_zero {x : K} (hl : l ≠ []) (hn : l.length < n) :
    x / n = x / l.length ↔ x = 0 := by
  have hpos : (0 : K) < l.length := Nat.cast_pos.mpr (List.length_pos_iff.mpr hl)
  have hlt : (l.length : K) < n := Nat.cast_lt.mpr hn
  rw [div_eq_div_iff (hpos.trans hlt).ne' hpos.ne', mul_eq_mul_left_iff]
  exact or_iff_right hlt.ne

theorem div_eq_mean_iff (hl : l ≠ []) (hn : l.length < n) : l.sum / n = mean l ↔ l.sum = 0 :=
  div_eq_div_iff_zero hl hn

/-- The sums over too large a number -/
theorem wide_iff (hl : l ≠ []) (hn : l.length < n) :
    (l.sum / n = mean l ∧ sqDev (l.sum / n) l / n = variance l) ↔ ∀ v ∈ l, v = 0 := by
  have hmean : l.sum = 0 → mean l = 0 := fun h => by rw [mean, h, zero_div]
  constructor
  · rintro ⟨hm, hv⟩
    rw [hm, variance, div_eq_div_iff_zero hl hn, sqDev_eq_zero_iff, hmean ((div_eq_mean_iff hl hn).mp hm)] at hv
    exact hv
  · intro h
    have hs := List.sum_eq_zero h
    have hm := (div_eq_mean_iff hl hn).mpr hs
    refine ⟨hm, ?_⟩
    rw [hm, variance, div_eq_div_iff_zero hl hn, sqDev_eq_zero_iff, hmean hs]
    exact h

end Field

end Stats
