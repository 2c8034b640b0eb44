import Mathlib.Data.Nat.ModEq
import Mathlib.Logic.Function.Basic

/-!
# Ring buffers

The cells `f 0, …, f (cap - 1)` of a ring, read from the cell `first` on.

* `view cap f first k`: the `k`-th cell from `first` on.
* `window cap f first n`: the `n` cells from `first` on, as a list.

The lemmas say how a write to one cell (`view_update`), a move of `first` to the next cell
(`view_succ`) and a longer window (`window_succ`) change what is read.
-/

namespace Ring

variable {α β : Type*} {cap : Nat} {f : Nat → α} {first : Nat}

/-- The `k`-th cell from `first` on. -/
def view (cap : Nat) (f : Nat → α) (first k : Nat) : α := f ((first + k) % cap)

/-- The `n` cells from `first` on. -/
def window (cap : Nat) (f : Nat → α) (first n : Nat) : List α :=
  (List.range n).map (view cap f first)

/-- Two of the `cap` places from `first` on are the same cell only if they are the same place. -/
theorem add_mod_inj {j k : Nat} (hj : j < cap) (hk : k < cap)
    (h : (first + j) % cap = (first + k) % cap) : j = k :=
  Nat.ModEq.eq_of_lt_of_lt (Nat.ModEq.add_left_cancel' first h) hj hk

theorem view_update (v : α) {j k : Nat} (hj : j < cap) (hk : k < cap) :
    view cap (Function.update f ((first + k) % cap) v) first j =
      if j = k then v else view cap f first j := by
  unfold view
  by_cases h : j = k
  · rw [h, Function.update_self, if_pos rfl]
  · rw [Function.update_of_ne fun e => h (add_mod_inj hj hk e), if_neg h]

theorem view_succ (j : Nat) : view cap f ((first + 1) % cap) j = view cap f first (j + 1) := by
  unfold view
  rw [Nat.mod_add_mod, Nat.add_assoc, Nat.add_comm 1 j]

theorem view_cap : view cap f first cap = view cap f first 0 := by
  unfold view
  rw [Nat.add_mod_right, Nat.add_zero]

@[simp] theorem window_length (n : Nat) : (window cap f first n).length = n := by
  simp [window]

@[simp] theorem window_getElem {n i : Nat} (h : i < (window cap f first n).length) :
    (window cap f first n)[i] = view cap f first i := by
  simp [window]

/-- One more cell at the end. -/
theorem window_succ (n : Nat) :
    window cap f first (n + 1) = window cap f first n ++ [view cap f first n] := by
  simp [window, List.range_succ]

/-- Two rings that agree on the first `n` places have the same window. -/
theorem window_congr {g : Nat → α} {second n : Nat}
    (h : ∀ k < n, view cap f first k = view cap g second k) :
    window cap f first n = window cap g second n := by
  refine List.ext_getElem (by simp) fun i h₁ h₂ => ?_
  simpa using h i (by simpa using h₁)

end Ring
