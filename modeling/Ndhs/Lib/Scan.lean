import Mathlib.Data.List.TakeWhile
import Mathlib.Logic.Function.Iterate
import Mathlib.Tactic.Common

/-!
# A scanner that skips classes of characters

A round of the scanner skips the characters of one class after another, each as far as they go (`skips`). A class may
take nothing.

* `length_skips_lt`: a round advances if some class takes the next character.
* `iterate_skips_iff`: the rounds reach the end of the text just when every character is in some class; they need at
  most one round for each character then. A character in no class is never passed.
-/

namespace Scan

variable {α : Type*} {ps : List (α → Bool)} {s : List α} {c : α}

/-- Skip the characters of each class in turn. -/
def skips (ps : List (α → Bool)) (s : List α) : List α := ps.foldl (fun s p => s.dropWhile p) s

theorem skips_cons (p : α → Bool) (ps : List (α → Bool)) (s : List α) : skips (p :: ps) s = skips ps (s.dropWhile p) := rfl

@[simp] theorem skips_nil (ps : List (α → Bool)) : skips ps ([] : List α) = [] := by
  induction ps with
  | nil => rfl
  | cons p ps ih => exact ih

theorem skips_suffix (ps : List (α → Bool)) (s : List α) : skips ps s <:+ s := by
  induction ps generalizing s with
  | nil => exact List.suffix_refl s
  | cons p ps ih => exact (ih _).trans (List.dropWhile_suffix p)

/-- A round advances. -/
theorem length_skips_lt (h : ∃ p ∈ ps, p c = true) : (skips ps (c :: s)).length < (c :: s).length := by
  induction ps with
  | nil => simp at h
  | cons p ps ih =>
    rw [skips_cons]
    by_cases hp : p c
    · rw [List.dropWhile_cons_of_pos hp]
      have hle := ((skips_suffix ps (s.dropWhile p)).trans (List.dropWhile_suffix p)).length_le
      exact Nat.lt_succ_of_le hle
    · rw [List.dropWhile_cons_of_neg hp]
      obtain ⟨q, hq, hqc⟩ := h
      rcases List.mem_cons.mp hq with rfl | hq
      · exact absurd hqc hp
      · exact ih ⟨q, hq, hqc⟩

theorem mem_dropWhile_of_not {p : α → Bool} (hc : c ∈ s) (hp : ¬ p c) : c ∈ s.dropWhile p := by
  rw [← List.takeWhile_append_dropWhile (p := p) (l := s)] at hc
  exact (List.mem_append.mp hc).resolve_left fun h => hp (List.mem_takeWhile_imp h)

/-- A character in no class is not passed. -/
theorem mem_skips (hc : c ∈ s) (h : ∀ p ∈ ps, ¬ p c) : c ∈ skips ps s := by
  induction ps generalizing s with
  | nil => exact hc
  | cons p ps ih =>
    exact ih (mem_dropWhile_of_not hc (h p List.mem_cons_self)) fun q hq => h q (List.mem_cons_of_mem p hq)

theorem iterate_skips_nil (h : ∀ c ∈ s, ∃ p ∈ ps, p c = true) {n : Nat} (hn : s.length ≤ n) : (skips ps)^[n] s = [] := by
  induction n generalizing s with
  | zero => exact List.eq_nil_of_length_eq_zero (Nat.le_zero.mp hn)
  | succ n ih =>
    rw [Function.iterate_succ_apply]
    refine ih (fun c hc => h c ((skips_suffix ps s).mem hc)) ?_
    cases s with
    | nil => simp
    | cons c s =>
      have hlt := length_skips_lt (s := s) (h c List.mem_cons_self)
      omega

/-- The end of the text is reached just when every character is in a class. -/
theorem iterate_skips_iff : (∃ n, (skips ps)^[n] s = []) ↔ ∀ c ∈ s, ∃ p ∈ ps, p c = true := by
  constructor
  · rintro ⟨n, hn⟩ c hc
    by_contra hno
    have hmem : ∀ n, c ∈ (skips ps)^[n] s := by
      intro n
      induction n with
      | zero => exact hc
      | succ n ih =>
        rw [Function.iterate_succ_apply']
        exact mem_skips ih fun p hp hpc => hno ⟨p, hp, hpc⟩
    have := hmem n
    rw [hn] at this
    cases this
  · exact fun h => ⟨s.length, iterate_skips_nil h (Nat.le_refl _)⟩

end Scan
