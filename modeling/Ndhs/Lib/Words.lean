import Mathlib.Data.List.TakeWhile
import Mathlib.Tactic.Common

/-!
# The words of a text

`words p l` are the parts of `l` between the elements that meet `p` (the blanks), without the empty parts.

* `words_eq_cons`: the loop step. Skip the blanks, take the word, go on behind it.
* `words_append_cons`: a word in front of a blank. `span_sep`: a part in front of any separator.
-/

namespace Words

variable {α : Type*} {p : α → Bool} {a : α} {w l : List α}

/-- A part up to its separator, and what follows -/
theorem span_sep (l : List α) (hw : ∀ b ∈ w, p b = true) (ha : p a = false) :
    (w ++ a :: l).takeWhile p = w ∧ (w ++ a :: l).dropWhile p = a :: l := by
  constructor
  · rw [List.takeWhile_append_of_pos hw, List.takeWhile_cons_of_neg (by simpa using ha), List.append_nil]
  · rw [List.dropWhile_append_of_pos hw, List.dropWhile_cons_of_neg (by simpa using ha)]

theorem dropWhile_congr {q : α → Bool} (h : ∀ b ∈ l, p b = q b) : l.dropWhile p = l.dropWhile q := by
  induction l with
  | nil => rfl
  | cons b l ih =>
    rw [List.dropWhile_cons, List.dropWhile_cons, h b List.mem_cons_self, ih fun c hc => h c (List.mem_cons_of_mem b hc)]

def words (p : α → Bool) (l : List α) : List (List α) := (l.splitOnP p).filter (!·.isEmpty)

@[simp] theorem words_nil : words p [] = [] := rfl

theorem ne_nil_of_mem_words (h : w ∈ words p l) : w ≠ [] := by
  have hw := (List.mem_filter.mp h).2
  rintro rfl
  cases hw

/-- A blank in front -/
theorem words_cons_of_pos (ha : p a = true) : words p (a :: l) = words p l := by
  have hsplit := List.splitOnP_append_cons (p := p) [] l ha
  rw [List.splitOnP_nil, List.nil_append] at hsplit
  rw [words, hsplit]
  rfl

theorem words_append_cons (hw : ∀ b ∈ w, p b = false) (hne : w ≠ []) (ha : p a = true) :
    words p (w ++ a :: l) = w :: words p l := by
  rw [words, List.splitOnP_append_cons_of_forall_mem hw a ha, List.filter_cons_of_pos (by simpa using hne)]
  rfl

theorem words_single (hw : ∀ b ∈ w, p b = false) (hne : w ≠ []) : words p w = [w] := by
  rw [words, List.splitOnP_eq_singleton hw, List.filter_cons_of_pos (by simpa using hne), List.filter_nil]

theorem words_dropWhile (l : List α) : words p (l.dropWhile p) = words p l := by
  induction l with
  | nil => rfl
  | cons a l ih =>
    by_cases ha : p a = true
    · rw [List.dropWhile_cons_of_pos ha, words_cons_of_pos ha, ih]
    · rw [List.dropWhile_cons_of_neg ha]

/-- Nothing but blanks -/
theorem words_eq_nil (h : l.dropWhile p = []) : words p l = [] := by
  rw [← words_dropWhile, h, words_nil]

theorem takeWhile_ne_nil (h : l.dropWhile p ≠ []) : (l.dropWhile p).takeWhile (!p ·) ≠ [] := by
  obtain ⟨a, r, hr⟩ := List.exists_cons_of_ne_nil h
  have ha : p a = false := by
    have := List.head_dropWhile_not p h
    simpa only [hr, List.head_cons] using this
  rw [hr, List.takeWhile_cons_of_pos (by rw [ha]; rfl)]
  exact List.cons_ne_nil _ _

theorem mem_takeWhile_not {b : α} (h : b ∈ l.takeWhile (!p ·)) : p b = false := by
  simpa using List.mem_takeWhile_imp h

theorem words_eq_cons (h : l.dropWhile p ≠ []) :
    words p l = (l.dropWhile p).takeWhile (!p ·) :: words p ((l.dropWhile p).dropWhile (!p ·)) := by
  rw [← words_dropWhile l]
  generalize hr : l.dropWhile p = r at h ⊢
  have hne : r.takeWhile (!p ·) ≠ [] := hr ▸ takeWhile_ne_nil (hr ▸ h)
  cases hd : r.dropWhile (!p ·) with
  | nil =>
    rw [words_nil]
    have hw : r.takeWhile (!p ·) = r := by
      have := List.takeWhile_append_dropWhile (p := (!p ·)) (l := r)
      rwa [hd, List.append_nil] at this
    rw [hw] at hne ⊢
    exact words_single (fun b hb => mem_takeWhile_not (hw ▸ hb)) hne
  | cons a l =>
    have ha : p a = true := by
      have := List.head_dropWhile_not (!p ·) (by rw [hd]; exact List.cons_ne_nil _ _)
      simpa only [hd, List.head_cons, Bool.not_eq_false'] using this
    conv => lhs; rw [← List.takeWhile_append_dropWhile (p := (!p ·)) (l := r), hd]
    rw [words_append_cons (fun _ => mem_takeWhile_not) hne ha, words_cons_of_pos ha]

/-- Each word with a blank behind it -/
theorem words_flatMap {ws : List (List α)} (hw : ∀ w ∈ ws, w ≠ [] ∧ ∀ b ∈ w, p b = false) (ha : p a = true) :
    words p (ws.flatMap (· ++ [a])) = ws := by
  induction ws with
  | nil => rfl
  | cons w ws ih =>
    obtain ⟨hne, hb⟩ := hw w List.mem_cons_self
    rw [List.flatMap_cons, List.append_assoc, List.singleton_append, words_append_cons hb hne ha,
      ih fun w' hw' => hw w' (List.mem_cons_of_mem w hw')]

end Words
