import Mathlib.Algebra.BigOperators.Group.List.Basic
import Mathlib.Algebra.Order.Group.Nat
import Mathlib.Data.List.Basic
import Mathlib.Logic.Function.Basic
import Mathlib.Tactic.Common

/-!
# Arrays of cells

An array is a function from indices; `cells f n` is its first `n` cells as a list.

* `countP_cells_update`, `sum_cells_update`: how a count and a sum change when one cell is written.
* `shiftDown f i n`: the loop that moves the cells `i + 1, …, n - 1` down by one and clears the
  last of them with `z`. On the list it drops cell `i` and appends `z` (`cells_shiftDown`), so
  dropping an unused cell keeps the list of the used ones (`filter_cells_shiftDown`). Writing one puts its
  value between them (`filter_cells_update`).
* `cells_erase`: a search and a shift, which take the first cell with a value off the list.
-/

namespace Cells

open Function

variable {α : Type*} {f g : Nat → α} {p : α → Bool} {n i : Nat}

/-- The first `n` cells. -/
def cells (f : Nat → α) (n : Nat) : List α := (List.range n).map f

@[simp] theorem cells_length : (cells f n).length = n := by simp [cells]

@[simp] theorem cells_getElem {j : Nat} (h : j < (cells f n).length) : (cells f n)[j] = f j := by
  simp [cells]

theorem cells_succ : cells f (n + 1) = cells f n ++ [f n] := by simp [cells, List.range_succ]

theorem cells_congr (h : ∀ j < n, f j = g j) : cells f n = cells g n :=
  List.map_congr_left fun j hj => h j (List.mem_range.mp hj)

theorem mem_cells {a : α} : a ∈ cells f n ↔ ∃ j < n, f j = a := by
  simp [cells]

/-- The first `n` of `m` cells, and the rest. -/
theorem cells_add (m : Nat) : cells f (n + m) = cells f n ++ cells (fun j => f (n + j)) m := by
  simp [cells, List.range_add, Function.comp_def]

/-- Writing one cell. -/
theorem countP_cells_update (v : α) (hi : i < n) :
    (cells (update f i v) n).countP p + (if p (f i) then 1 else 0) =
      (cells f n).countP p + (if p v then 1 else 0) := by
  induction n with
  | zero => omega
  | succ n ih =>
    rw [cells_succ, cells_succ, List.countP_append, List.countP_append, List.countP_singleton,
      List.countP_singleton]
    by_cases h : i = n
    · subst h
      have hcongr : cells (update f i v) i = cells f i :=
        cells_congr fun j hj => update_of_ne (by omega) _ _
      rw [hcongr, update_self]
      omega
    · have := ih (by omega)
      rw [update_of_ne (Ne.symm h)]
      omega

/-- What one written cell changes of a sum. -/
theorem sum_cells_update {M : Type*} [AddCommMonoid M] (w : α → M) (v : α) (hi : i < n) :
    ((cells (update f i v) n).map w).sum + w (f i) = ((cells f n).map w).sum + w v := by
  induction n with
  | zero => omega
  | succ n ih =>
    simp only [cells_succ, List.map_append, List.sum_append, List.map_cons, List.map_nil, List.sum_cons, List.sum_nil,
      add_zero]
    by_cases h : i = n
    · subst h
      have hcongr : cells (update f i v) i = cells f i := cells_congr fun j hj => update_of_ne (by omega) _ _
      rw [hcongr, update_self, add_right_comm]
    · rw [update_of_ne (Ne.symm h), add_right_comm, ih (by omega), add_right_comm]

/-- Cells without a weight can be left out of a sum. -/
theorem sum_filter_cells {M : Type*} [AddCommMonoid M] {w : α → M} {l : List α} (h : ∀ a ∈ l, p a = false → w a = 0) :
    ((l.filter p).map w).sum = (l.map w).sum := by
  induction l with
  | nil => rfl
  | cons a l ih =>
    have hl := ih fun b hb => h b (List.mem_cons_of_mem a hb)
    cases hp : p a with
    | true => rw [List.filter_cons_of_pos hp, List.map_cons, List.sum_cons, List.map_cons, List.sum_cons, hl]
    | false =>
      rw [List.filter_cons_of_neg (by simp [hp]), hl, List.map_cons, List.sum_cons, h a List.mem_cons_self hp, zero_add]

/-- Dropping an element that is not counted keeps the counted ones. -/
theorem filter_eraseIdx {l : List α} (hi : i < l.length) (h : p l[i] = false) :
    (l.eraseIdx i).filter p = l.filter p := by
  induction l generalizing i with
  | nil => rfl
  | cons a l ih =>
    cases i with
    | zero =>
      rw [List.eraseIdx_cons_zero, List.filter_cons_of_neg]
      simpa using h
    | succ i =>
      rw [List.eraseIdx_cons_succ, List.filter_cons, List.filter_cons,
        ih (Nat.lt_of_succ_lt_succ hi) (by simpa using h)]

/-! ## Shifting cells down -/

/-- `for (j = i; j < n - 1; j++) f[j] = f[j+1];` then `f[n-1] = z`. -/
def shiftDown (z : α) (f : Nat → α) (i n : Nat) : Nat → α :=
  update ((List.range' i (n - 1 - i)).foldl (fun f j => update f j (f (j + 1))) f) (n - 1) z

/-- The loop has not reached the cells from `i + m` on. -/
theorem foldl_shift_above (f : Nat → α) (i m j : Nat) (h : i + m ≤ j) :
    (List.range' i m).foldl (fun f j => update f j (f (j + 1))) f j = f j := by
  induction m with
  | zero => rfl
  | succ m ih =>
    rw [List.range'_concat, List.foldl_append, List.foldl_cons, List.foldl_nil, Nat.one_mul,
      update_of_ne (by omega), ih (by omega)]

theorem foldl_shift (f : Nat → α) (i m j : Nat) :
    (List.range' i m).foldl (fun f j => update f j (f (j + 1))) f j =
      if i ≤ j ∧ j < i + m then f (j + 1) else f j := by
  induction m with
  | zero => simp
  | succ m ih =>
    rw [List.range'_concat, List.foldl_append, List.foldl_cons, List.foldl_nil, Nat.one_mul]
    by_cases hj : j = i + m
    · subst hj
      rw [update_self, if_pos (by omega), foldl_shift_above f i m (i + m + 1) (by omega)]
    · rw [update_of_ne hj, ih]
      exact if_congr (by omega) rfl rfl

theorem shiftDown_apply (z : α) (hi : i < n) (j : Nat) :
    shiftDown z f i n j =
      if j < i then f j else if j + 1 < n then f (j + 1) else if j + 1 = n then z else f j := by
  unfold shiftDown
  by_cases hl : j = n - 1
  · rw [hl, update_self, if_neg (by omega), if_neg (by omega), if_pos (by omega)]
  · rw [update_of_ne hl, foldl_shift]
    by_cases h1 : j < i
    · rw [if_pos h1, if_neg (by omega)]
    · rw [if_neg h1]
      by_cases h2 : j + 1 < n
      · rw [if_pos h2, if_pos (by omega)]
      · rw [if_neg h2, if_neg (by omega), if_neg (by omega)]

/-- On the list: cell `i` is dropped, and `z` is the new last cell. -/
theorem cells_shiftDown (z : α) (hi : i < n) :
    cells (shiftDown z f i n) n = (cells f n).eraseIdx i ++ [z] := by
  have hlen : ((cells f n).eraseIdx i ++ [z]).length = n := by
    rw [List.length_append, List.length_eraseIdx_of_lt (by simpa using hi), cells_length,
      List.length_singleton]
    omega
  refine List.ext_getElem (by rw [hlen, cells_length]) fun j h₁ h₂ => ?_
  rw [cells_length] at h₁
  rw [cells_getElem, shiftDown_apply z hi]
  by_cases hl : j + 1 < n
  · rw [List.getElem_append_left (by
      rw [List.length_eraseIdx_of_lt (by simpa using hi), cells_length]; omega),
      List.getElem_eraseIdx, if_pos hl]
    simp only [cells_getElem]
    split <;> rfl
  · rw [if_neg (by omega), if_neg hl, if_pos (by omega),
      List.getElem_append_right (by
        rw [List.length_eraseIdx_of_lt (by simpa using hi), cells_length]; omega)]
    simp

/-- Without the clearing, and the last cell given up. -/
theorem cells_foldl_shift (hi : i < n) :
    cells ((List.range' i (n - 1 - i)).foldl (fun f j => update f j (f (j + 1))) f) (n - 1) =
      (cells f n).eraseIdx i := by
  have hcells := cells_shiftDown (f := f) (f i) hi
  obtain ⟨m, rfl⟩ : ∃ m, n = m + 1 := ⟨n - 1, by omega⟩
  rw [cells_succ] at hcells
  have hinit := (List.append_inj' hcells rfl).1
  rw [← hinit]
  exact cells_congr fun j hj => (update_of_ne (Nat.ne_of_lt hj) _ _).symm

/-- The search for the first cell with a value, and the shift over it, erase the value. -/
theorem cells_erase [BEq α] [LawfulBEq α] {a : α} (h : (List.range n).find? (fun j => f j == a) = some i) :
    cells ((List.range' i (n - 1 - i)).foldl (fun f j => update f j (f (j + 1))) f) (n - 1) = (cells f n).erase a := by
  obtain ⟨ha, hi, hbefore⟩ := List.find?_range_eq_some.mp h
  have hi := List.mem_range.mp hi
  have hidx : (cells f n).idxOf a = i := by
    refine (List.findIdx_eq (by simpa using hi)).mpr ⟨by simpa using ha, fun j hj => ?_⟩
    simpa using hbefore j hj
  rw [cells_foldl_shift hi, List.erase_eq_eraseIdx_of_idxOf hidx]

/-- Shifting over an unused cell keeps the used ones, in their order. -/
theorem filter_cells_shiftDown {z : α} {m : Nat} (hi : i < n) (hn : n ≤ m) (hv : p (f i) = false)
    (hz : p z = false) : (cells (shiftDown z f i n) m).filter p = (cells f m).filter p := by
  obtain ⟨k, rfl⟩ := Nat.exists_eq_add_of_le hn
  have hrest : cells (fun j => shiftDown z f i n (n + j)) k = cells (fun j => f (n + j)) k :=
    cells_congr fun j _ => by
      rw [shiftDown_apply z hi, if_neg (by omega), if_neg (by omega), if_neg (by omega)]
  rw [cells_add, cells_add, hrest, List.filter_append, List.filter_append, cells_shiftDown z hi,
    List.filter_append, List.filter_cons_of_neg (by simp [hz]), List.filter_nil, List.append_nil,
    filter_eraseIdx (by simpa using hi) (by simpa using hv)]

/-- Some of the used cells are cleared. -/
theorem filter_cells_clear {q : α → Bool} (hp : ∀ j < n, p (g j) = (p (f j) && q (f j)))
    (hg : ∀ j < n, p (g j) = true → g j = f j) :
    (cells g n).filter p = ((cells f n).filter p).filter q := by
  induction n with
  | zero => rfl
  | succ n ih =>
    have hn := hp n (by omega)
    rw [cells_succ, cells_succ, List.filter_append, List.filter_append, List.filter_append,
      ih (fun j hj => hp j (by omega)) fun j hj => hg j (by omega)]
    refine congrArg _ ?_
    cases hpf : p (f n) <;> cases hqf : q (f n) <;> rw [hpf, hqf] at hn
    all_goals simp [hpf, hqf, hn]
    exact hg n (by omega) hn

/-- The first cell, and the rest. -/
theorem cells_succ_eq_cons : cells f (n + 1) = f 0 :: cells (fun j => f (j + 1)) n := by
  simp [cells, List.range_succ_eq_map, Function.comp_def]

/-- Writing an unused cell puts its value between the used ones. -/
theorem filter_cells_update {a : α} (hi : i < n) (hv : p (f i) = false) (ha : p a = true) :
    ∃ k, (cells (update f i a) n).filter p = ((cells f n).filter p).take k ++ a :: ((cells f n).filter p).drop k := by
  obtain ⟨m, rfl⟩ := Nat.exists_eq_add_of_lt hi
  have hleft : cells (update f i a) i = cells f i := cells_congr fun j hj => update_of_ne (by omega) ..
  have hnew : cells (fun j => update f i a (i + j)) (m + 1) = a :: cells (fun j => f (i + (j + 1))) m := by
    rw [cells_succ_eq_cons, Nat.add_zero, update_self]
    exact congrArg _ (cells_congr fun j _ => update_of_ne (by omega) ..)
  have hold : cells (fun j => f (i + j)) (m + 1) = f i :: cells (fun j => f (i + (j + 1))) m := cells_succ_eq_cons
  refine ⟨((cells f i).filter p).length, ?_⟩
  rw [Nat.add_assoc, cells_add (n := i) (m + 1), cells_add (n := i) (m + 1), hleft, hnew, hold,
    List.filter_append, List.filter_append, List.filter_cons_of_pos ha, List.filter_cons_of_neg (by simp [hv]),
    List.take_left', List.drop_left']
  · rfl
  · rfl

end Cells
