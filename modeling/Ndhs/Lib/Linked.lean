import Mathlib.Algebra.Order.Group.Nat
import Mathlib.Data.List.Nodup
import Mathlib.Logic.Function.Basic
import Mathlib.Tactic.Common

/-!
# Linked lists of indices

A linked list in a table is a function `next` from the index of a cell to the index of the cell after it.
Index zero ends a list.

* `Chain next i l`: the list that starts at `i` has the cells `l`, and ends. The cells are then different
  (`Chain.nodup`): a list with an end has no cycle.
* `walk`: the cells that a loop from `i` visits. `pred`: the cell whose link is `x`. Both have a bound on the
  number of cells, and are `none` if the loop has not ended within it.
* `Chain.push`, `Chain.append`, `Chain.bypass`: a cell is put in front, put behind the last cell, or taken out.
-/

namespace Linked

open Function

variable {next next' : Nat → Nat} {i j x p : Nat} {l l₁ l₂ : List Nat}

/-- The list that starts at `i` has the cells `l`. -/
def Chain (next : Nat → Nat) : Nat → List Nat → Prop
  | i, [] => i = 0
  | i, j :: l => i = j ∧ j ≠ 0 ∧ Chain next (next j) l

/-- `for (; i; i = next[i])`: the cells that the loop visits. -/
def walk (next : Nat → Nat) : Nat → Nat → Option (List Nat)
  | _, 0 => some []
  | 0, _ + 1 => none
  | n + 1, i => (walk next n (next i)).map (i :: ·)

/-- `for (; i; i = next[i]) if (next[i] == x) break;`: the last value of `i`. -/
def pred (next : Nat → Nat) (x : Nat) : Nat → Nat → Option Nat
  | _, 0 => some 0
  | 0, _ + 1 => none
  | n + 1, i => if next i = x then some i else pred next x n (next i)

/-- The links after the cell `x` behind `p` is taken out; there is none behind `p = 0`. -/
def bypass (next : Nat → Nat) (p x : Nat) : Nat → Nat :=
  if p = 0 then next else update next p (next x)

/-- The last cell; zero if there is none. -/
def last (l : List Nat) : Nat := l.getLast?.getD 0

@[simp] theorem last_nil : last [] = 0 := rfl

@[simp] theorem last_concat : last (l ++ [j]) = j := by simp [last]

theorem last_append (h : l₂ ≠ []) : last (l₁ ++ l₂) = last l₂ := by
  obtain ⟨l, j, rfl⟩ := (List.eq_nil_or_concat l₂).resolve_left h
  rw [List.concat_eq_append, ← List.append_assoc, last_concat, last_concat]

/-- The last cell stays the last one when another cell is taken out. -/
theorem last_erase (h : last l ≠ x) : last (l.erase x) = last l := by
  by_cases hx : x ∈ l
  · obtain ⟨l₁, l₂, hx₁, hl, herase⟩ := List.exists_erase_eq hx
    have h₂ : l₂ ≠ [] := by
      rintro rfl
      rw [hl, last_concat] at h
      exact h rfl
    rw [herase, hl, last_append h₂, last_append (List.cons_ne_nil x l₂), ← List.singleton_append,
      last_append h₂]
  · rw [List.erase_of_not_mem hx]

@[simp] theorem chain_nil : Chain next i [] ↔ i = 0 := Iff.rfl

@[simp] theorem chain_cons : Chain next i (j :: l) ↔ i = j ∧ j ≠ 0 ∧ Chain next (next j) l := Iff.rfl

theorem Chain.zero (h : Chain next 0 l) : l = [] := by
  cases l with
  | nil => rfl
  | cons j l => exact absurd h.1.symm h.2.1

theorem Chain.ne_zero (h : Chain next i l) (hj : j ∈ l) : j ≠ 0 := by
  induction l generalizing i with
  | nil => cases hj
  | cons a l ih =>
    rcases List.mem_cons.mp hj with rfl | hj
    · exact h.2.1
    · exact ih h.2.2 hj

/-- The start and the links determine the cells. -/
theorem Chain.unique (h₁ : Chain next i l₁) (h₂ : Chain next i l₂) : l₁ = l₂ := by
  induction l₁ generalizing i l₂ with
  | nil =>
    obtain rfl : i = 0 := h₁
    exact h₂.zero.symm
  | cons a l₁ ih =>
    obtain ⟨rfl, ha, h₁⟩ := h₁
    cases l₂ with
    | nil => exact absurd h₂ ha
    | cons b l₂ =>
      obtain ⟨rfl, -, h₂⟩ := h₂
      rw [ih h₁ h₂]

/-- A later cell starts a list of its own. -/
theorem Chain.suffix (h : Chain next i (l₁ ++ j :: l₂)) : Chain next j (j :: l₂) := by
  induction l₁ generalizing i with
  | nil =>
    obtain ⟨rfl, hj⟩ := h
    exact ⟨rfl, hj⟩
  | cons a l₁ ih => exact ih h.2.2

theorem Chain.nodup (h : Chain next i l) : l.Nodup := by
  induction l generalizing i with
  | nil => exact List.nodup_nil
  | cons a l ih =>
    refine List.nodup_cons.mpr ⟨fun ha => ?_, ih h.2.2⟩
    -- a second visit to `a` would start the same cells again
    obtain ⟨s, t, rfl⟩ := List.append_of_mem ha
    have hself : Chain next a (a :: (s ++ a :: t)) := ⟨rfl, h.2⟩
    have hlen := congrArg List.length (hself.unique h.2.2.suffix)
    simp only [List.length_cons, List.length_append] at hlen
    omega

/-- The last cell has no link. -/
theorem Chain.next_last (h : Chain next i l) (hx : x ∈ l) (hl : last l = x) : next x = 0 := by
  obtain ⟨l₁, l₂, rfl⟩ := List.append_of_mem hx
  have hnd := h.nodup
  rcases List.eq_nil_or_concat l₂ with rfl | ⟨l₂, j, rfl⟩
  · exact h.suffix.2.2
  · rw [List.concat_eq_append, ← List.cons_append, ← List.append_assoc, last_concat] at hl
    subst hl
    have := (List.nodup_append.mp hnd).2.1
    simp at this

/-- Only the links of its own cells matter to a list. -/
theorem Chain.congr (h : Chain next i l) (hn : ∀ j ∈ l, next' j = next j) : Chain next' i l := by
  induction l generalizing i with
  | nil => exact h
  | cons a l ih =>
    refine ⟨h.1, h.2.1, ?_⟩
    rw [hn a List.mem_cons_self]
    exact ih h.2.2 fun j hj => hn j (List.mem_cons_of_mem a hj)

theorem Chain.update (h : Chain next i l) (hx : x ∉ l) (v : Nat) : Chain (update next x v) i l := by
  refine h.congr fun j hj => update_of_ne ?_ _ _
  rintro rfl
  exact hx hj

theorem Chain.push (h : Chain next i l) (hx : x ≠ 0) (hl : x ∉ l) :
    Chain (Function.update next x i) x (x :: l) := by
  refine ⟨rfl, hx, ?_⟩
  rw [update_self]
  exact h.update hl i

/-- The cell `x` is linked behind the last cell `p`. -/
theorem Chain.snoc (h : Chain next i (l ++ [p])) (hx : x ≠ 0) (hl : x ∉ l ++ [p])
    (hend : next x = 0) : Chain (Function.update next p x) i (l ++ [p] ++ [x]) := by
  have hxp : x ≠ p := by
    rintro rfl
    simp at hl
  induction l generalizing i with
  | nil =>
    obtain ⟨rfl, hp, -⟩ := h
    simp [hp, hx, hend, update_of_ne hxp]
  | cons a l ih =>
    have hap : a ≠ p := by
      have hnd := h.nodup
      simp only [List.cons_append, List.nodup_cons, List.mem_append, List.mem_singleton, not_or] at hnd
      exact hnd.1.2
    refine ⟨h.1, h.2.1, ?_⟩
    rw [update_of_ne hap]
    exact ih h.2.2 fun hm => hl (List.mem_cons_of_mem a hm)

/-- The cell `x` is linked behind the last one, if there is one, and else it is the first. -/
theorem Chain.append (h : Chain next i l) (hx : x ≠ 0) (hl : x ∉ l) (hend : next x = 0) :
    Chain (if last l = 0 then next else Function.update next (last l) x) (if i = 0 then x else i) (l ++ [x]) := by
  rcases List.eq_nil_or_concat l with rfl | ⟨l, p, rfl⟩
  · rw [last_nil, if_pos rfl, if_pos (chain_nil.mp h)]
    exact ⟨rfl, hx, hend⟩
  · rw [List.concat_eq_append] at h hl ⊢
    have hp : p ≠ 0 := h.ne_zero (by simp)
    have hi : i ≠ 0 := by
      rintro rfl
      simpa using h.zero
    rw [last_concat, if_neg hp, if_neg hi]
    exact h.snoc hx hl hend

/-- The cell `x` behind `p` is taken out. -/
theorem Chain.bypass (h : Chain next i (l₁ ++ p :: x :: l₂)) :
    Chain (Function.update next p (next x)) i (l₁ ++ p :: l₂) := by
  induction l₁ generalizing i with
  | nil =>
    have hnd : (p :: x :: l₂).Nodup := h.nodup
    obtain ⟨rfl, hp, -, -, hrest⟩ := h
    refine ⟨rfl, hp, ?_⟩
    rw [update_self]
    refine hrest.update (fun hm => ?_) _
    exact (List.nodup_cons.mp hnd).1 (List.mem_cons_of_mem x hm)
  | cons a l₁ ih =>
    have hap : a ≠ p := by
      have hnd := h.nodup
      simp only [List.cons_append, List.nodup_cons, List.mem_append, List.mem_cons, not_or] at hnd
      exact hnd.1.2.1
    refine ⟨h.1, h.2.1, ?_⟩
    rw [update_of_ne hap]
    exact ih h.2.2

/-! ## Loops over a list -/

@[simp] theorem walk_zero (n : Nat) : walk next n 0 = some [] := by cases n <;> rfl

@[simp] theorem pred_zero (n : Nat) : pred next x n 0 = some 0 := by cases n <;> rfl

theorem walk_step {n : Nat} (hi : i ≠ 0) : walk next (n + 1) i = (walk next n (next i)).map (i :: ·) := by
  obtain ⟨i, rfl⟩ := Nat.exists_eq_succ_of_ne_zero hi
  rfl

theorem pred_step {n : Nat} (hi : i ≠ 0) :
    pred next x (n + 1) i = if next i = x then some i else pred next x n (next i) := by
  obtain ⟨i, rfl⟩ := Nat.exists_eq_succ_of_ne_zero hi
  rfl

theorem Chain.walk (h : Chain next i l) {n : Nat} (hn : l.length ≤ n) : walk next n i = some l := by
  induction l generalizing i n with
  | nil =>
    obtain rfl : i = 0 := h
    exact walk_zero n
  | cons a l ih =>
    obtain ⟨rfl, hi, h⟩ := h
    obtain ⟨n, rfl⟩ : ∃ m, n = m + 1 := ⟨n - 1, by simp at hn; omega⟩
    rw [walk_step hi, ih h (by simpa using hn)]
    rfl

theorem Chain.pred (h : Chain next i (l₁ ++ p :: x :: l₂)) {n : Nat} (hn : l₁.length < n) :
    pred next x n i = some p := by
  induction l₁ generalizing i n with
  | nil =>
    obtain ⟨rfl, hi, hx, -⟩ := h
    obtain ⟨n, rfl⟩ : ∃ m, n = m + 1 := ⟨n - 1, by omega⟩
    rw [pred_step hi, if_pos hx]
  | cons a l₁ ih =>
    have hnd := h.nodup
    obtain ⟨rfl, hi, h⟩ := h
    obtain ⟨n, rfl⟩ : ∃ m, n = m + 1 := ⟨n - 1, by simp at hn; omega⟩
    have hne : next i ≠ x := by
      -- the cell behind `i` is the next one of `l₁`, or `p`
      intro hx
      cases l₁ with
      | nil =>
        obtain ⟨hp, -⟩ := h
        simp [← hp, hx] at hnd
      | cons b l₁ =>
        obtain ⟨hb, -⟩ := h
        simp [← hb, hx] at hnd
    rw [pred_step hi, if_neg hne, ih h (by simpa using hn)]

/-- The loop runs to the end of a list that does not have `x`. -/
theorem Chain.pred_not_mem (h : Chain next i l) (hx : x ≠ 0) (hl : x ∉ l) {n : Nat}
    (hn : l.length ≤ n) : Linked.pred next x n i = some 0 := by
  induction l generalizing i n with
  | nil =>
    obtain rfl : i = 0 := h
    exact pred_zero n
  | cons a l ih =>
    obtain ⟨rfl, hi, h⟩ := h
    obtain ⟨n, rfl⟩ : ∃ m, n = m + 1 := ⟨n - 1, by simp at hn; omega⟩
    have hne : next i ≠ x := by
      intro hnx
      cases l with
      | nil => exact hx (hnx.symm.trans h)
      | cons b l =>
        obtain ⟨hb, -⟩ := h
        simp [← hb, hnx] at hl
    rw [pred_step hi, if_neg hne]
    exact ih h (fun hm => hl (List.mem_cons_of_mem _ hm)) (by simpa using hn)

/-- Taking out a cell: the loop finds the cell before it, or there is none since it is the first. -/
theorem Chain.erase (h : Chain next i l) (hx : x ∈ l) {n : Nat} (hn : l.length ≤ n) :
    ∃ q, Linked.pred next x n (if i = x then next x else i) = some q ∧
      Chain (Linked.bypass next q x) (if i = x then next x else i) (l.erase x) ∧
      (last l = x → q = last (l.erase x)) ∧ (i = x → q = 0) ∧ (q = 0 ∨ q ∈ l.erase x) := by
  have hnd := h.nodup
  have hx0 := h.ne_zero hx
  have hend := h.next_last hx
  obtain ⟨l₁, l₂, rfl⟩ := List.append_of_mem hx
  rcases List.eq_nil_or_concat l₁ with rfl | ⟨l₁, p, rfl⟩
  · obtain ⟨rfl, -, hrest⟩ := h
    have hx₂ : i ∉ l₂ := (List.nodup_cons.mp hnd).1
    have hq := hrest.pred_not_mem hx0 hx₂ (n := n) (by simp at hn; omega)
    refine ⟨0, by simpa using hq, by simpa [Linked.bypass] using hrest, fun hlast => ?_, fun _ => rfl, .inl rfl⟩
    rw [hend hlast] at hrest
    simp [hrest.zero]
  · simp only [List.concat_eq_append, List.append_assoc, List.cons_append, List.nil_append] at h hnd hn hend ⊢
    have hix : i ≠ x := by
      rintro rfl
      have hself : Chain next i (i :: l₂) := by
        have hch : Chain next i ((l₁ ++ [p]) ++ i :: l₂) := by simpa using h
        exact hch.suffix
      have hlen := congrArg List.length (hself.unique h)
      simp only [List.length_cons, List.length_append] at hlen
      omega
    have hp0 : p ≠ 0 := h.ne_zero (by simp)
    have hx₁ : x ∉ l₁ := by
      intro hm
      have := List.nodup_append.mp hnd
      exact this.2.2 x hm x (by simp) rfl
    have hpx : p ≠ x := by
      rintro rfl
      have := (List.nodup_append.mp hnd).2.1
      simp at this
    have herase : (l₁ ++ p :: x :: l₂).erase x = l₁ ++ p :: l₂ := by
      rw [List.erase_append_right _ hx₁, List.erase_cons_tail (by simpa using hpx), List.erase_cons_head]
    rw [if_neg hix, herase]
    refine ⟨p, h.pred (by simp at hn; omega), ?_, fun hlast => ?_, fun hi => absurd hi hix, .inr (by simp)⟩
    · rw [Linked.bypass, if_neg hp0]
      exact h.bypass
    · have hsuf : Chain next x (x :: l₂) := by
        have hch : Chain next i ((l₁ ++ [p]) ++ x :: l₂) := by simpa using h
        exact hch.suffix
      have htail := hsuf.2.2
      rw [hend hlast] at htail
      simp [htail.zero]

end Linked
