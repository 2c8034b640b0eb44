import Mathlib.Tactic.Common

/-!
# Items that fill lines

Items are put on lines one after another. The first line has room for `first` of them and each further line for
`width`, and a line is filled before the next one begins. `lineOf` is the line of an item, and `placed` are the items
that are put on some line: the lines have room for no more if `width` is zero.

The items go up to the line `lastLine` (`lineOf_placed`) and leave none of the lines before it out of their order
(`lineOf_le`).
-/

namespace Fill

variable {first width count n k : Nat}

/-- The number of items that the first `n` lines have room for -/
def room (first width : Nat) : Nat → Nat
  | 0 => 0
  | n + 1 => first + n * width

/-- The line of an item -/
def lineOf (first width k : Nat) : Nat := if k < first then 0 else (k - first) / width + 1

/-- The number of items that are put on lines -/
def placed (first width count : Nat) : Nat := if width = 0 then min count first else count

/-- The line of the last item -/
def lastLine (first width count : Nat) : Nat := (count - first + (width - 1)) / width

theorem room_succ : room first width (n + 1) = first + room width width n := by
  cases n with
  | zero => simp [room]
  | succ n => rw [room, room, Nat.succ_mul, Nat.add_comm width]

theorem lineOf_of_lt (h : k < first) : lineOf first width k = 0 := if_pos h

/-- The lines behind the first one are filled like lines of their own. -/
theorem lineOf_add (hw : 0 < width) : lineOf first width (first + k) = lineOf width width k + 1 := by
  unfold lineOf
  rw [if_neg (by omega), Nat.add_sub_cancel_left]
  split
  · rw [Nat.div_eq_of_lt (by omega)]
  · rw [← Nat.div_eq_sub_div hw (by omega)]

/-- Lines without an item of theirs have no room. -/
theorem room_zero (h : width = 0) : room width width n = 0 := by
  subst h
  cases n <;> simp [room]

/-- An item is put on a line if some number of lines has room for it. -/
theorem lt_placed : k < placed first width count ↔ ∃ n, k < min count (room first width n) := by
  unfold placed
  constructor
  · intro h
    split at h
    · exact ⟨1, by simpa [room] using h⟩
    · refine ⟨k + 2, ?_⟩
      have hle : k + 1 ≤ (k + 1) * width := Nat.le_mul_of_pos_right _ (by omega)
      rw [room]
      omega
  · rintro ⟨n, h⟩
    split
    · next hw =>
      cases n with
      | zero => simp [room] at h
      | succ n =>
        rw [room, hw, Nat.mul_zero] at h
        omega
    · omega

theorem lineOf_mono {k' : Nat} (h : k ≤ k') : lineOf first width k ≤ lineOf first width k' := by
  unfold lineOf
  split
  · omega
  · rw [if_neg (by omega)]
    exact Nat.succ_le_succ (Nat.div_le_div_right (by omega))

/-- The last item is on the last line. -/
theorem lineOf_placed (h : 0 < placed first width count) :
    lineOf first width (placed first width count - 1) = lastLine first width count := by
  unfold placed at h ⊢
  unfold lineOf lastLine
  by_cases hw : width = 0
  · rw [if_pos hw] at h
    rw [if_pos hw, if_pos (by omega), hw, Nat.div_zero]
  · rw [if_neg hw] at h
    rw [if_neg hw]
    split
    · rw [Nat.div_eq_of_lt (by omega)]
    · have hsum : count - first + (width - 1) = count - 1 - first + width := by omega
      rw [hsum, Nat.add_div_right _ (by omega)]

theorem lineOf_le (h : k < placed first width count) : lineOf first width k ≤ lastLine first width count := by
  rw [← lineOf_placed (by omega)]
  exact lineOf_mono (by omega)

end Fill
