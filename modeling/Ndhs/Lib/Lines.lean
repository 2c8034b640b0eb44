import Ndhs.Lib.Text

/-!
# Lines of a text

`fgets n s` reads from the text `s` up to its first newline, `n` characters at most; `unlines` ends each line with one.

* `fgets_line`: a line that is short enough is read as a whole.
* `fgetsAll_cut`, `fgetsAll_line_append`: a longer line is read in several parts, and then comes the next one.
* `length_printInt_le`: the length of a printed number.
-/

namespace Text

/-- What `fgets` puts into a buffer of `n + 1` bytes, and what is left -/
def fgets : Nat → Str → Str × Str
  | 0, s => ([], s)
  | _ + 1, [] => ([], [])
  | n + 1, c :: s =>
    if c = '\n' then ([c], s)
    else
      let (line, rest) := fgets n s
      (c :: line, rest)

/-- A text with these lines -/
def unlines (lines : List Str) : Str := lines.flatMap (· ++ ['\n'])

@[simp] theorem unlines_nil : unlines [] = [] := rfl

theorem unlines_cons (l : Str) (lines : List Str) : unlines (l :: lines) = l ++ '\n' :: unlines lines := by
  rw [unlines, List.flatMap_cons, List.append_assoc]
  rfl

theorem unlines_append (l₁ l₂ : List Str) : unlines (l₁ ++ l₂) = unlines l₁ ++ unlines l₂ := List.flatMap_append

theorem fgets_line {l rest : Str} {n : Nat} (hl : '\n' ∉ l) (hn : l.length < n) :
    fgets n (l ++ '\n' :: rest) = (l ++ ['\n'], rest) := by
  induction l generalizing n with
  | nil =>
    obtain ⟨n, rfl⟩ := Nat.exists_eq_add_of_lt hn
    rfl
  | cons c l ih =>
    obtain ⟨n, rfl⟩ : ∃ m, n = m + 1 := ⟨n - 1, by omega⟩
    have hc : c ≠ '\n' := fun h => hl (h ▸ List.mem_cons_self)
    rw [List.cons_append, fgets, if_neg hc, ih (fun h => hl (List.mem_cons_of_mem c h)) (Nat.lt_of_succ_lt_succ hn)]
    rfl

/-- Where `fgets` cuts a text -/
theorem fgets_append (n : Nat) (s : Str) : (fgets n s).1 ++ (fgets n s).2 = s := by
  induction n generalizing s with
  | zero => rfl
  | succ n ih =>
    cases s with
    | nil => rfl
    | cons c s =>
      rw [fgets]
      split
      · rfl
      · exact congrArg (c :: ·) (ih s)

theorem fgets_ne_nil {n : Nat} {s : Str} (hn : 0 < n) (hs : s ≠ []) : (fgets n s).1 ≠ [] := by
  obtain ⟨m, rfl⟩ := Nat.exists_eq_add_of_lt hn
  obtain ⟨c, s, rfl⟩ := List.exists_cons_of_ne_nil hs
  rw [show 0 + m + 1 = m + 1 by omega, fgets]
  split <;> exact List.cons_ne_nil _ _

/-- `fgets` does not read behind a newline. -/
theorem fgets_line_append (n : Nat) (l : Str) :
    ∃ l₁ l₂, l₁ ++ l₂ = l ++ ['\n'] ∧ ∀ rest, fgets n (l ++ '\n' :: rest) = (l₁, l₂ ++ rest) := by
  induction l generalizing n with
  | nil =>
    cases n with
    | zero => exact ⟨[], ['\n'], rfl, fun _ => rfl⟩
    | succ n => exact ⟨['\n'], [], rfl, fun _ => rfl⟩
  | cons c l ih =>
    cases n with
    | zero => exact ⟨[], c :: l ++ ['\n'], rfl, fun rest => by simp [fgets]⟩
    | succ n =>
      by_cases hc : c = '\n'
      · exact ⟨[c], l ++ ['\n'], rfl, fun rest => by simp [fgets, hc]⟩
      · obtain ⟨l₁, l₂, hl, hg⟩ := ih n
        refine ⟨c :: l₁, l₂, by rw [List.cons_append, hl, List.cons_append], fun rest => ?_⟩
        rw [List.cons_append, fgets, if_neg hc, hg]

/-- What `m` calls of `fgets` read, up to the end of the text -/
def fgetsLoop (n : Nat) : Nat → Str → List Str
  | 0, _ => []
  | m + 1, s => if s = [] then [] else (fgets n s).1 :: fgetsLoop n m (fgets n s).2

/-- What is read by calling `fgets` up to the end of the text -/
def fgetsAll (n : Nat) (s : Str) : List Str := fgetsLoop n s.length s

theorem length_fgets_snd {n : Nat} {s : Str} (hn : 0 < n) (hs : s ≠ []) : (fgets n s).2.length < s.length := by
  have happ := congrArg List.length (fgets_append n s)
  have hpos := List.length_pos_of_ne_nil (fgets_ne_nil hn hs)
  rw [List.length_append] at happ
  omega

/-- The number of calls does not matter if they reach the end. -/
theorem fgetsLoop_eq {n m k : Nat} {s : Str} (hn : 0 < n) (hm : s.length ≤ m) (hk : s.length ≤ k) :
    fgetsLoop n m s = fgetsLoop n k s := by
  induction m generalizing k s with
  | zero =>
    rw [List.length_eq_zero_iff.mp (Nat.le_zero.mp hm)]
    cases k <;> rfl
  | succ m ih =>
    by_cases hs : s = []
    · rw [hs]
      cases k <;> rfl
    have hlt := length_fgets_snd hn hs
    obtain ⟨k, rfl⟩ : ∃ j, k = j + 1 := ⟨k - 1, by omega⟩
    rw [fgetsLoop, fgetsLoop, if_neg hs, if_neg hs, ih (by omega) (k := k) (by omega)]

@[simp] theorem fgetsAll_nil (n : Nat) : fgetsAll n [] = [] := rfl

theorem fgetsAll_eq {n : Nat} {s : Str} (hn : 0 < n) (hs : s ≠ []) :
    fgetsAll n s = (fgets n s).1 :: fgetsAll n (fgets n s).2 := by
  have hlt := length_fgets_snd hn hs
  obtain ⟨m, hm⟩ : ∃ m, s.length = m + 1 := ⟨s.length - 1, by omega⟩
  rw [fgetsAll, fgetsAll, hm, fgetsLoop, if_neg hs, fgetsLoop_eq hn (by omega) le_rfl]

/-- The first part of a line, and then what is left of it with the lines behind it -/
theorem fgetsAll_cut {n : Nat} (hn : 0 < n) (l : Str) :
    ∃ l₁ l₂, l₁ ≠ [] ∧ l₁ ++ l₂ = l ++ ['\n'] ∧
      ∀ rest, fgetsAll n (l ++ '\n' :: rest) = l₁ :: fgetsAll n (l₂ ++ rest) := by
  obtain ⟨l₁, l₂, hl, hg⟩ := fgets_line_append n l
  have hne : ∀ rest, l ++ '\n' :: rest ≠ [] := fun rest => by simp
  refine ⟨l₁, l₂, ?_, hl, fun rest => by rw [fgetsAll_eq hn (hne rest), hg]⟩
  have := fgets_ne_nil hn (hne [])
  rwa [hg] at this

/-- The parts of a line come before the next lines. -/
theorem fgetsAll_line_append {n : Nat} (hn : 0 < n) (l rest : Str) :
    fgetsAll n (l ++ '\n' :: rest) = fgetsAll n (l ++ ['\n']) ++ fgetsAll n rest := by
  obtain ⟨k, hk⟩ : ∃ k, l.length = k := ⟨_, rfl⟩
  induction k using Nat.strong_induction_on generalizing l with
  | _ k ih =>
    obtain ⟨l₁, l₂, hne, hl, hg⟩ := fgetsAll_cut hn l
    rw [hg, hg, List.append_nil, List.cons_append]
    rcases List.eq_nil_or_concat' l₂ with rfl | ⟨l', c, rfl⟩
    · rfl
    · -- the last part ends with the newline
      rw [← List.append_assoc] at hl
      obtain ⟨rfl, hc⟩ := List.append_inj' hl rfl
      cases hc
      have hlt := List.length_pos_of_ne_nil hne
      rw [List.length_append] at hk
      rw [List.append_assoc, List.singleton_append, ih _ (by omega) _ rfl]

/-- All characters of the text are read. -/
theorem fgetsAll_flatten {n : Nat} (hn : 0 < n) (s : Str) : (fgetsAll n s).flatten = s := by
  obtain ⟨k, hk⟩ : ∃ k, s.length = k := ⟨_, rfl⟩
  induction k using Nat.strong_induction_on generalizing s with
  | _ k ih =>
    by_cases hs : s = []
    · rw [hs]
      rfl
    · rw [fgetsAll_eq hn hs, List.flatten_cons, ih _ (hk ▸ length_fgets_snd hn hs) _ rfl, fgets_append]

/-- The sign and the digits -/
theorem length_printInt_le {v : Int} {k : Nat} (h : v.natAbs < 10 ^ k) (hk : 0 < k) : (printInt v).length ≤ k + 1 := by
  cases v with
  | ofNat n =>
    have hle := (Nat.length_toDigits_le_iff (b := 10) (n := n) (by decide) hk).mpr h
    exact Nat.le_succ_of_le hle
  | negSucc n =>
    have hle := (Nat.length_toDigits_le_iff (b := 10) (n := n + 1) (by decide) hk).mpr h
    exact Nat.succ_le_succ hle

/-- What a printed number consists of -/
theorem mem_printInt {v : Int} {c : Char} (h : c ∈ printInt v) : c = '-' ∨ c.isDigit = true := by
  cases v with
  | ofNat n => exact Or.inr (isDigit_toDigits h)
  | negSucc n =>
    rcases List.mem_cons.mp h with rfl | h
    · exact Or.inl rfl
    · exact Or.inr (isDigit_toDigits h)

theorem printInt_ne_nil (v : Int) : printInt v ≠ [] := by
  cases v with
  | ofNat n => exact Nat.toDigits_ne_nil
  | negSucc n => exact List.cons_ne_nil _ _

end Text
