import Mathlib.Data.List.Basic
import Mathlib.Data.List.Perm.Basic

/-!
# Slot arrays without holes

An array of slots, some in use and some not, as a list with a test `f` for a slot in use.

* `Packed f l`: no slot in use comes after one that is not.

The lemmas say when filling the first unused slot (`packed_set_first`) or one more unused slot at
the end (`packed_append_false`) leaves the array packed, and what they do to the slots in use
(`filter_set_first`).
-/

namespace Slots

variable {α β : Type*} {f : α → Bool} {l : List α} {a : α}

/-- No slot in use comes after an unused one. -/
def Packed (f : α → Bool) (l : List α) : Prop := l.Pairwise fun a b => f a = false → f b = false

instance (f : α → Bool) (l : List α) : Decidable (Packed f l) :=
  inferInstanceAs (Decidable (List.Pairwise _ _))

@[simp] theorem packed_nil : Packed f [] := List.Pairwise.nil

theorem packed_cons_true (h : f a = true) : Packed f (a :: l) ↔ Packed f l := by
  simp [Packed, h]

theorem packed_cons_false (h : f a = false) : Packed f (a :: l) ↔ ∀ b ∈ l, f b = false := by
  simp only [Packed, List.pairwise_cons, h, true_imp_iff]
  exact ⟨fun hp => hp.1, fun hl => ⟨hl, List.pairwise_of_forall_mem_list fun _ _ b hb _ => hl b hb⟩⟩

theorem packed_of_forall (h : ∀ a ∈ l, f a = true) : Packed f l :=
  List.pairwise_of_forall_mem_list fun a ha _ _ hf => by
    rw [h a ha] at hf
    cases hf

/-- Two arrays with the same slots in use. -/
theorem packed_congr {g : β → Bool} {l' : List β} (h : l.map f = l'.map g) :
    Packed f l ↔ Packed g l' := by
  have hf : Packed f l ↔ (l.map f).Pairwise fun a b => a = false → b = false := by
    rw [List.pairwise_map]; rfl
  have hg : Packed g l' ↔ (l'.map g).Pairwise fun a b => a = false → b = false := by
    rw [List.pairwise_map]; rfl
  rw [hf, hg, h]

theorem packed_append_false (h : f a = false) : Packed f (l ++ [a]) ↔ Packed f l := by
  simp [Packed, List.pairwise_append, h]

/-- Slots in use in front of others -/
theorem packed_append_used {l₁ l₂ : List α} (h : ∀ x ∈ l₁, f x = true) : Packed f (l₁ ++ l₂) ↔ Packed f l₂ := by
  induction l₁ with
  | nil => rfl
  | cons x l₁ ih =>
    obtain ⟨hx, hl⟩ := List.forall_mem_cons.mp h
    rw [List.cons_append, packed_cons_true hx, ih hl]

/-- The first unused slot, with the slots in use in front of it -/
theorem exists_first_unused {k : Nat} (a : α) (hk : l.findIdx? (fun x => !f x) = some k) :
    ∃ l₁ x l₂, l = l₁ ++ x :: l₂ ∧ (∀ y ∈ l₁, f y = true) ∧ f x = false ∧ l.set k a = l₁ ++ a :: l₂ := by
  induction l generalizing k with
  | nil => cases hk
  | cons x l ih =>
    rw [List.findIdx?_cons] at hk
    cases hx : f x with
    | true =>
      simp only [hx, Bool.not_true, Bool.false_eq_true, if_false, Option.map_eq_some_iff] at hk
      obtain ⟨j, hj, rfl⟩ := hk
      obtain ⟨l₁, y, l₂, rfl, hused, hy, hset⟩ := ih hj
      exact ⟨x :: l₁, y, l₂, rfl, List.forall_mem_cons.mpr ⟨hx, hused⟩, hy, congrArg (x :: ·) hset⟩
    | false =>
      simp only [hx, Bool.not_false, if_true, Option.some.injEq] at hk
      subst hk
      exact ⟨[], x, l, rfl, by simp, hx, rfl⟩

/-- Filling the first unused slot closes one hole. -/
theorem packed_set_first {k : Nat} (ha : f a = true) (hk : l.findIdx? (fun x => !f x) = some k) :
    Packed f (l.set k a) ↔ Packed f (l.eraseP fun x => !f x) := by
  obtain ⟨l₁, x, l₂, rfl, hused, hx, hset⟩ := exists_first_unused a hk
  have herase : (l₁ ++ x :: l₂).eraseP (fun x => !f x) = l₁ ++ l₂ := by
    rw [List.eraseP_append_right _ fun y hy => by simp [hused y hy], List.eraseP_cons_of_pos (by simp [hx])]
  rw [hset, herase, packed_append_used hused, packed_append_used hused, packed_cons_true ha]

/-- Filling the first unused slot adds one slot in use. -/
theorem filter_set_first {k : Nat} (ha : f a = true)
    (hk : l.findIdx? (fun x => !f x) = some k) :
    ((l.set k a).filter f).Perm (a :: l.filter f) := by
  obtain ⟨l₁, x, l₂, rfl, -, hx, hset⟩ := exists_first_unused a hk
  rw [hset, List.filter_append, List.filter_append, List.filter_cons_of_pos ha, List.filter_cons_of_neg (by simp [hx])]
  exact List.perm_middle

end Slots
