import Ndhs.Lib.Linked

/-!
# Doubly linked lists of indices

The links of a cell are the indices of the cell after it and of the cell before it; zero stands for no cell.

* `DList k i l`: the list that starts at `i` has the cells `l`, and the links back are the reverse of the links
  forward. Where the list ends is not part of it: the last cell is `last l`.
* `Links.unlink` joins the neighbours of a cell, and `Links.push` links a cell in front of the first one.
  `DList.unlink` and `DList.push` say that they take a cell out and put one in front.
* `find`: the first cell with a property that a loop from `i` meets, zero if there is none.
-/

namespace Linked

open Function

variable {next : Nat → Nat} {i j x : Nat} {l l₁ l₂ : List Nat}

/-! ## The neighbours of a cell -/

/-- The cell behind `x` is the first of the rest. -/
theorem Chain.next_eq (h : Chain next i (l₁ ++ x :: l₂)) : next x = last l₂.reverse := by
  have hx := h.suffix.2.2
  cases l₂ with
  | nil => exact hx
  | cons a l₂ =>
    rw [hx.1, List.reverse_cons, last_concat]

theorem Chain.head_eq (h : Chain next i l) : i = last l.reverse := by
  cases l with
  | nil => exact h
  | cons a l => rw [h.1, List.reverse_cons, last_concat]

theorem last_mem (h : l ≠ []) : last l ∈ l := by
  obtain ⟨l, j, rfl⟩ := (List.eq_nil_or_concat l).resolve_left h
  simp

/-- A cell is taken out: the cell before it, if there is one, is linked to the cell behind it. -/
theorem Chain.unlink (h : Chain next i (l₁ ++ x :: l₂)) :
    Chain (Linked.bypass next (last l₁) x) (if i = x then next x else i) (l₁ ++ l₂) := by
  rcases List.eq_nil_or_concat l₁ with rfl | ⟨l₁, p, rfl⟩
  · obtain ⟨rfl, -, hrest⟩ := h
    simpa [Linked.bypass] using hrest
  · rw [List.concat_eq_append] at h ⊢
    have hnd := h.nodup
    have hp : p ≠ 0 := h.ne_zero (by simp)
    have hix : i ≠ x := by
      rintro rfl
      have hlen := congrArg List.length (h.suffix.unique h)
      simp only [List.length_cons, List.length_append] at hlen
      omega
    rw [if_neg hix, last_concat, Linked.bypass, if_neg hp]
    have h : Chain next i (l₁ ++ p :: x :: l₂) := by simpa using h
    simpa using h.bypass

/-! ## Both directions -/

/-- The links forward and back -/
structure Links where
  next : Nat → Nat
  prev : Nat → Nat

namespace Links

variable (k : Links) (x : Nat)

/-- `if (x->next) x->next->prev = x->prev; if (x->prev) x->prev->next = x->next;` -/
def unlink : Links := ⟨Linked.bypass k.next (k.prev x) x, Linked.bypass k.prev (k.next x) x⟩

/-- `x->next = head; x->prev = NULL; if (head) head->prev = x;` -/
def push (head : Nat) : Links :=
  ⟨update k.next x head, if head = 0 then update k.prev x 0 else update (update k.prev x 0) head x⟩

end Links

/-- The list from `i` on has the cells `l`, and the links back are the reverse of the links forward. -/
structure DList (k : Links) (i : Nat) (l : List Nat) : Prop where
  next : Chain k.next i l
  prev : Chain k.prev (last l) l.reverse

variable {k : Links}

theorem DList.nil : DList k 0 [] := ⟨rfl, rfl⟩

/-- The cell before `x` is the last of those before it. -/
theorem DList.prev_eq (h : DList k i (l₁ ++ x :: l₂)) : k.prev x = last l₁ := by
  have hp : Chain k.prev (last (l₁ ++ x :: l₂)) (l₂.reverse ++ x :: l₁.reverse) := by simpa using h.prev
  simpa using hp.next_eq

theorem DList.next_eq (h : DList k i (l₁ ++ x :: l₂)) : k.next x = last l₂.reverse := h.next.next_eq

/-- The loop back from `x` visits the cells before it. -/
theorem DList.back (h : DList k i (l₁ ++ x :: l₂)) : Chain k.prev x (x :: l₁.reverse) := by
  have hp : Chain k.prev (last (l₁ ++ x :: l₂)) (l₂.reverse ++ x :: l₁.reverse) := by simpa using h.prev
  exact hp.suffix

/-- The last cell after `x` is taken out -/
theorem DList.last_unlink (h : DList k i (l₁ ++ x :: l₂)) :
    last (l₁ ++ l₂) = if last (l₁ ++ x :: l₂) = x then k.prev x else last (l₁ ++ x :: l₂) := by
  have hnd := h.next.nodup
  rcases eq_or_ne l₂ [] with rfl | h₂
  · rw [last_concat, if_pos rfl, h.prev_eq, List.append_nil]
  · have hl : last (l₁ ++ x :: l₂) = last l₂ := by
      rw [last_append (List.cons_ne_nil x l₂), ← List.singleton_append, last_append h₂]
    have hne : last l₂ ≠ x := by
      intro hx
      have hm := hx ▸ last_mem h₂
      exact (List.nodup_cons.mp (List.nodup_append.mp hnd).2.1).1 hm
    rw [hl, if_neg hne, last_append h₂]

theorem DList.unlink (h : DList k i l) (hx : x ∈ l) :
    DList (k.unlink x) (if i = x then k.next x else i) (l.erase x) := by
  obtain ⟨l₁, l₂, -, rfl, herase⟩ := List.exists_erase_eq hx
  rw [herase]
  constructor
  · rw [Links.unlink, h.prev_eq]
    exact h.next.unlink
  · have hp : Chain k.prev (last (l₁ ++ x :: l₂)) (l₂.reverse ++ x :: l₁.reverse) := by simpa using h.prev
    rw [Links.unlink, h.next_eq, h.last_unlink, List.reverse_append]
    exact hp.unlink

theorem DList.push (h : DList k i l) (hx : x ≠ 0) (hl : x ∉ l) : DList (k.push x i) x (x :: l) := by
  refine ⟨h.next.push hx hl, ?_⟩
  cases l with
  | nil =>
    obtain rfl : i = 0 := h.next
    simp [Links.push, last, hx]
  | cons a l =>
    obtain ⟨rfl, hi, -⟩ := h.next
    have hxi : x ≠ i := by
      rintro rfl
      simp at hl
    have hp : Chain k.prev (last (i :: l)) (l.reverse ++ [i]) := by simpa using h.prev
    have hp' := (hp.update (x := x) (by simpa [and_comm] using hl) 0).snoc (x := x) hx
      (by simpa [and_comm] using hl) (update_self x 0 k.prev)
    rw [Links.push, if_neg hi, ← List.singleton_append, last_append (List.cons_ne_nil i l)]
    simpa using hp'

/-- The last cell stays the last one when another is put in front. -/
theorem last_cons (h : l ≠ []) : last (x :: l) = last l := by
  rw [← List.singleton_append, last_append h]

/-! ## Searching -/

/-- `for (; i; i = next[i]) if (p (i)) break;`: the last value of `i`. -/
def find (next : Nat → Nat) (p : Nat → Bool) : Nat → Nat → Option Nat
  | _, 0 => some 0
  | 0, _ + 1 => none
  | n + 1, i => if p i then some i else find next p n (next i)

theorem find_zero {p : Nat → Bool} (n : Nat) : find next p n 0 = some 0 := by cases n <;> rfl

theorem find_step {p : Nat → Bool} {n : Nat} (hi : i ≠ 0) :
    find next p (n + 1) i = if p i then some i else find next p n (next i) := by
  obtain ⟨i, rfl⟩ := Nat.exists_eq_succ_of_ne_zero hi
  rfl

theorem Chain.find {p : Nat → Bool} (h : Chain next i l) {n : Nat} (hn : l.length ≤ n) :
    Linked.find next p n i = some ((l.find? p).getD 0) := by
  induction l generalizing i n with
  | nil =>
    obtain rfl : i = 0 := h
    exact find_zero n
  | cons a l ih =>
    obtain ⟨rfl, hi, h⟩ := h
    obtain ⟨n, rfl⟩ : ∃ m, n = m + 1 := ⟨n - 1, by simp at hn; omega⟩
    rw [find_step hi]
    by_cases hp : p i
    · simp [hp]
    · rw [if_neg hp, List.find?_cons_of_neg hp]
      exact ih h (by simpa using hn)

/-- The search meets a cell of the list with the property, or there is none. -/
theorem Chain.find_cases {p : Nat → Bool} (h : Chain next i l) {n : Nat} (hn : l.length ≤ n) :
    (∃ x ∈ l, p x ∧ Linked.find next p n i = some x) ∨ ((∀ x ∈ l, ¬ p x) ∧ Linked.find next p n i = some 0) := by
  rw [h.find hn]
  cases hf : l.find? p with
  | none => exact .inr ⟨fun x hx => by simpa using List.find?_eq_none.mp hf x hx, rfl⟩
  | some x => exact .inl ⟨x, List.mem_of_find?_eq_some hf, List.find?_some hf, rfl⟩

end Linked
