import Mathlib.Data.List.Basic
import Mathlib.Logic.Function.Basic

/-!
# Loops over an index

A `for` loop over `0, …, n - 1` is a left fold over `List.range n`.

* `foldl_range_inv`: the loop rule. An invariant that mentions how many rounds are done. `foldlM_range_inv` is the same
  for rounds that can fail.
* `foldl_update`: a loop whose round `i` writes cell `i` of an array.
* `compact`: the loop that moves the wanted cells of an array to its front, in place. The cells
  behind them keep what they held (`compact_eq`).
-/

namespace Loop

variable {α σ : Type*}

/-- The loop rule: what holds before the first round, and is carried from round `i` to round
`i + 1`, holds after the loop. -/
theorem foldl_range_inv {f : σ → Nat → σ} (I : Nat → σ → Prop) {n : Nat} {s : σ} (h0 : I 0 s)
    (hs : ∀ i s, i < n → I i s → I (i + 1) (f s i)) : I n ((List.range n).foldl f s) := by
  induction n with
  | zero => exact h0
  | succ n ih =>
    rw [List.range_succ, List.foldl_append]
    exact hs n _ (Nat.lt_succ_self n) (ih fun i s hi => hs i s (Nat.lt_succ_of_lt hi))

/-- The loop rule for rounds that can fail. -/
theorem foldlM_range_inv {f : σ → Nat → Option σ} (I : Nat → σ → Prop) {n : Nat} {s : σ} (h0 : I 0 s)
    (hs : ∀ i s, i < n → I i s → ∃ s', f s i = some s' ∧ I (i + 1) s') :
    ∃ s', (List.range n).foldlM f s = some s' ∧ I n s' := by
  induction n with
  | zero => exact ⟨s, rfl, h0⟩
  | succ n ih =>
    obtain ⟨s₁, h₁, hI₁⟩ := ih fun i s hi => hs i s (Nat.lt_succ_of_lt hi)
    obtain ⟨s₂, h₂, hI₂⟩ := hs n s₁ (Nat.lt_succ_self n) hI₁
    refine ⟨s₂, ?_, hI₂⟩
    rw [List.range_succ, List.foldlM_append, h₁]
    exact (bind_pure _).trans h₂

/-- A loop whose round `i` writes cell `i`. -/
theorem foldl_update (g : Nat → α → α) (f : Nat → α) (n j : Nat) :
    (List.range n).foldl (fun f i => Function.update f i (g i (f i))) f j =
      if j < n then g j (f j) else f j := by
  induction n with
  | zero => rfl
  | succ n ih =>
    rw [List.range_succ, List.foldl_append, List.foldl_cons, List.foldl_nil]
    by_cases h : j = n
    · subst h
      rw [Function.update_self, ih, if_neg (Nat.lt_irrefl j), if_pos (Nat.lt_succ_self j)]
    · rw [Function.update_of_ne h, ih]
      exact if_congr (by omega) rfl rfl

/-! ## Compaction in place -/

/-- `for (n = i = 0; i < N; i++) if (p (a[i])) a[n++] = a[i];`, one round. -/
def compactRound (p : α → Bool) (s : List α × Nat) (i : Nat) : List α × Nat :=
  match s.1[i]? with
  | none => s
  | some a => if p a then (s.1.set s.2 a, s.2 + 1) else s

/-- The whole loop: the array after it, and `n`. -/
def compact (p : α → Bool) (l : List α) : List α × Nat :=
  (List.range l.length).foldl (compactRound p) (l, 0)

/-- The wanted cells are at the front, in order; the rest of the array is as before. -/
theorem compact_eq (p : α → Bool) (l : List α) :
    compact p l = (l.filter p ++ l.drop (l.filter p).length, (l.filter p).length) := by
  -- After `i` rounds the array is the wanted ones of its first `i` cells and then the old cells.
  have h := foldl_range_inv (f := compactRound p) (s := (l, 0)) (n := l.length)
    (fun i s => s = ((l.take i).filter p ++ l.drop ((l.take i).filter p).length,
      ((l.take i).filter p).length)) (by simp) ?_
  · rw [List.take_length] at h
    exact h
  rintro i s hi rfl
  have hle : ((l.take i).filter p).length ≤ i :=
    Nat.le_trans (List.length_filter_le p _) (List.length_take_le i l)
  have hget : ((l.take i).filter p ++ l.drop ((l.take i).filter p).length)[i]? = some l[i] := by
    rw [List.getElem?_append_right hle, List.getElem?_drop, Nat.add_sub_cancel' hle,
      List.getElem?_eq_getElem hi]
  have htake : l.take (i + 1) = l.take i ++ [l[i]] := List.take_succ_eq_append_getElem hi
  simp only [compactRound, hget, htake, List.filter_append]
  cases hp : p l[i] with
  | false => simp [hp]
  | true =>
    have hlt : ((l.take i).filter p).length < l.length := by omega
    have hone : [l[i]].filter p = [l[i]] := List.filter_cons_of_pos hp
    rw [if_pos rfl, hone, List.length_append, List.set_append_right _ _ (Nat.le_refl _),
      Nat.sub_self, List.drop_eq_getElem_cons hlt, List.set_cons_zero, List.append_assoc]
    rfl

end Loop
