import Mathlib.Data.Fintype.Card
import Mathlib.Data.List.Infix

/-!
# Rounds of a protocol

A coordinator asks every party something and counts the answers; it goes on when it has counted as
many as there are parties. What was sent and received is in a log, the newest entry first.

* `Upto H c`: the answers of the parties in `H` were counted, not all of them, and `c` is the count.
  `Upto.insert` and `Upto.full` are the two outcomes of one more answer.
* `since start l`: the entries of the log after the last one that is a start.
* `AtEach P l`: `P e l'` holds for every entry `e` of the log and what was in the log before it.
-/

namespace Round

section Count

variable {ι : Type*} [Fintype ι] {H : Finset ι} {c : Int} {i : ι}

/-- The answers counted so far are those of the parties in `H`, and some are missing. -/
def Upto (H : Finset ι) (c : Int) : Prop := c = H.card ∧ H.card < Fintype.card ι

theorem Upto.empty (h : 0 < Fintype.card ι) : Upto (∅ : Finset ι) 0 :=
  ⟨by rw [Finset.card_empty]; rfl, by rwa [Finset.card_empty]⟩

/-- One more answer, and some are still missing. -/
theorem Upto.insert [DecidableEq ι] (h : Upto H c) (hi : i ∉ H) (hc : c + 1 < Fintype.card ι) :
    Upto (insert i H) (c + 1) := by
  obtain ⟨hc', -⟩ := h
  rw [Upto, Finset.card_insert_of_notMem hi]
  omega

/-- The last answer: the count starts again and all other parties have answered. -/
theorem Upto.full [DecidableEq ι] (h : Upto H c) (hi : i ∉ H) (hc : (Fintype.card ι : Int) ≤ c + 1) :
    c + 1 = Fintype.card ι ∧ ∀ j, j ≠ i → j ∈ H := by
  obtain ⟨hc', hlt⟩ := h
  have hcard : (Insert.insert i H).card = Fintype.card ι := by
    rw [Finset.card_insert_of_notMem hi]
    omega
  refine ⟨by omega, fun j hj => ?_⟩
  have hall := Finset.mem_univ j
  rw [← (Finset.card_eq_iff_eq_univ _).mp hcard, Finset.mem_insert] at hall
  exact hall.resolve_left hj

end Count

section Log

variable {α : Type*} {start : α → Bool} {P Q : α → List α → Prop} {e a : α} {l l' : List α}

/-- The entries after the last start. -/
def since (start : α → Bool) (l : List α) : List α := l.takeWhile fun e => !start e

theorem since_cons : since start (e :: l) = if start e then [] else e :: since start l := by
  unfold since
  rw [List.takeWhile_cons]
  cases start e <;> rfl

theorem mem_since_cons (h : start e = false) : a ∈ since start (e :: l) ↔ a = e ∨ a ∈ since start l := by
  rw [since_cons, h, if_neg (by decide), List.mem_cons]

/-- `P` holds at every entry, with the entries before it. -/
def AtEach (P : α → List α → Prop) (l : List α) : Prop := ∀ e l', e :: l' <:+ l → P e l'

theorem AtEach.nil : AtEach P [] := fun _ _ h => nomatch List.suffix_nil.mp h

theorem AtEach.cons (h : AtEach P l) (he : P e l) : AtEach P (e :: l) := by
  intro e' l' hs
  rcases List.suffix_cons_iff.mp hs with heq | hs'
  · cases heq
    exact he
  · exact h e' l' hs'

/-- What the entries of a log and the logs before them have in common. -/
theorem AtEach.map (h : AtEach P l) (hPQ : ∀ e l', e :: l' <:+ l → P e l' → Q e l') : AtEach Q l :=
  fun e l' hs => hPQ e l' hs (h e l' hs)

end Log

end Round
