import Mathlib.Data.List.Chain
import Mathlib.Tactic.Common

/-!
# A scan that removes items in place

`sweep p` scans a list from the front. An item without `p` is removed, and the scan goes on behind the item that takes
its place, which is not looked at. `swept p i` is the result for a list whose first `i` items have been scanned;
`swept_erase` and `swept_succ` are the rounds of the loop.

* `countP_sweep`: no item with `p` is removed.
* `sweep_all_iff`: no item without `p` is left if no two of them were next to each other, and only then.
-/

namespace Sweep

variable {α : Type*} {p : α → Bool} {l : List α} {i : Nat}

/-- Remove the items without `p`, but do not look at an item that has moved up. -/
def sweep (p : α → Bool) : List α → List α
  | [] => []
  | [a] => if p a then [a] else []
  | a :: b :: l => if p a then a :: sweep p (b :: l) else b :: sweep p l

/-- The result of the scan, if the first `i` items have been scanned -/
def swept (p : α → Bool) (i : Nat) (l : List α) : List α := l.take i ++ sweep p (l.drop i)

theorem sweep_cons {a : α} (h : p a = true) : sweep p (a :: l) = a :: sweep p l := by
  cases l with
  | nil => simp [sweep, h]
  | cons b l => rw [sweep, if_pos h]

theorem sweep_singleton {a : α} (h : p a = false) : sweep p [a] = [] := by
  rw [sweep, if_neg (by simp [h])]

theorem sweep_cons_cons {a b : α} (h : p a = false) : sweep p (a :: b :: l) = b :: sweep p l := by
  rw [sweep, if_neg (by simp [h])]

/-! ## The rounds -/

/-- A round that keeps its item -/
theorem swept_succ (hi : i < l.length) (h : p l[i] = true) : swept p (i + 1) l = swept p i l := by
  rw [swept, swept, List.drop_eq_getElem_cons hi, sweep_cons h, List.take_succ_eq_append_getElem hi,
    List.append_assoc, List.singleton_append]

/-- A round that removes its item -/
theorem swept_erase (hi : i < l.length) (h : p l[i] = false) : swept p (i + 1) (l.eraseIdx i) = swept p i l := by
  have hlen : (l.take i).length = i := List.length_take_of_le (by omega)
  rw [swept, swept, List.eraseIdx_eq_take_drop_succ, List.drop_eq_getElem_cons hi]
  generalize l.drop (i + 1) = rest
  cases rest with
  | nil =>
    rw [sweep_singleton h, List.append_nil, List.take_of_length_le (by omega), List.drop_of_length_le (by omega), sweep,
      List.append_nil]
  | cons b rest =>
    have htake : (l.take i ++ b :: rest).take (i + 1) = l.take i ++ [b] := by
      rw [List.take_append, hlen, List.take_of_length_le (by omega), Nat.add_sub_cancel_left]
      rfl
    have hdrop : (l.take i ++ b :: rest).drop (i + 1) = rest := by
      rw [List.drop_append, hlen, List.drop_of_length_le (by omega), Nat.add_sub_cancel_left]
      rfl
    rw [htake, hdrop, sweep_cons_cons h, List.append_assoc, List.singleton_append]

/-- All items have been scanned. -/
theorem swept_of_length_le (h : l.length ≤ i) : swept p i l = l := by
  rw [swept, List.take_of_length_le h, List.drop_of_length_le h, sweep, List.append_nil]

theorem swept_zero : swept p 0 l = sweep p l := by
  rw [swept, List.take_zero, List.drop_zero, List.nil_append]

/-! ## What is left -/

theorem countP_sweep : (sweep p l).countP p = l.countP p := by
  induction l using sweep.induct p with
  | case1 => rfl
  | case2 a h => rw [sweep_cons h, sweep]
  | case3 a h =>
    rw [sweep_singleton (Bool.eq_false_iff.mpr h), List.countP_cons_of_neg h]
  | case4 a b l h ih => rw [sweep_cons h, List.countP_cons_of_pos h, List.countP_cons_of_pos h, ih]
  | case5 a b l h ih =>
    rw [sweep_cons_cons (Bool.eq_false_iff.mpr h), List.countP_cons_of_neg h, List.countP_cons, List.countP_cons, ih]

/-- An item with `p` may have any neighbour. -/
theorem isChain_cons_of {a : α} (h : p a = true) :
    (a :: l).IsChain (fun a b => p a = true ∨ p b = true) ↔ l.IsChain fun a b => p a = true ∨ p b = true := by
  cases l with
  | nil => simp
  | cons b l => rw [List.isChain_cons_cons, and_iff_right (.inl h)]

/-- All that is left has `p`, unless two items next to each other had not. -/
theorem sweep_all_iff : (∀ a ∈ sweep p l, p a = true) ↔ l.IsChain fun a b => p a = true ∨ p b = true := by
  induction l using sweep.induct p with
  | case1 => simp [sweep]
  | case2 a h => simp [sweep, h]
  | case3 a h => simp [sweep, h]
  | case4 a b l h ih => rw [sweep_cons h, List.forall_mem_cons, ih, isChain_cons_of h, and_iff_right h]
  | case5 a b l h ih =>
    rw [sweep_cons_cons (Bool.eq_false_iff.mpr h), List.forall_mem_cons, ih, List.isChain_cons_cons,
      or_iff_right h]
    exact and_congr_right fun hb => (isChain_cons_of hb).symm

/-- The number of items tells whether all that is left has `p`. -/
theorem length_sweep_iff : (sweep p l).length = l.countP p ↔ ∀ a ∈ sweep p l, p a = true := by
  rw [← countP_sweep, eq_comm, List.countP_eq_length]

end Sweep
