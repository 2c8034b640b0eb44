import Ndhs.Kwdb.Fits
import Mathlib.Tactic.Common

/-!
# Cards that are read as they were written

`Card.IsStated` are the entries that a FITS header may be made of, and `Card.IsCanonical` the ones among them that
come back: a numeric value has to fit on the card and must not be `t` or `f`, which the reader takes for a
logical value like `T` and `F`, and a text must not have a line break, where the reader stops.

`read_formatCard`: such a card is read as it was written. The value of a string or a text comes back up to its
trailing blanks.
-/

namespace Ndhs.Kwdb

open Text

/-- The texts of an entry. -/
structure Card where
  keyword : Str
  value : Str
  type : Str
  comment : Str
  deriving DecidableEq

/-- A comment that is put behind column `col`: printable, without a blank or a slash in front and
without a blank at the end. -/
structure CommentFits (col : Nat) (comment : Str) : Prop where
  print : ∀ ch ∈ comment, isPrint ch = true
  first : comment.head? ≠ some ' ' ∧ comment.head? ≠ some '/'
  last : comment.getLast? ≠ some ' '
  fits : comment = [] ∨ col + 3 + comment.length ≤ 80

/-- The value and the comment of a card. -/
inductive Card.Body (c : Card) : Prop where
  | string (type : c.type = ['S']) (print : ∀ ch ∈ c.value, isPrint ch = true ∧ ch ≠ '\'')
      (fits : 11 + c.value.length ≤ 80) (comment : CommentFits (max 30 (12 + c.value.length)) c.comment)
  | logical (type : c.type = ['L']) (value : c.value = ['T'] ∨ c.value = ['F'])
      (comment : CommentFits 30 c.comment)
  | numeric (type : c.type = ['N'])
      (print : ∀ ch ∈ c.value, isPrint ch = true ∧ ch ≠ ' ' ∧ ch ≠ '\'' ∧ ch ≠ '/')
      (notLogical : c.value ≠ ['T'] ∧ c.value ≠ ['F'])
      (comment : CommentFits (10 + max 20 c.value.length) c.comment)
  | text (type : c.type = ['C'] ∨ c.type = ['H'] ∨ c.type = ['T']) (fits : 8 + c.value.length ≤ 80)
      (noEquals : c.type = ['T'] → c.value.head? ≠ some '=')

/-- An entry of a FITS header. -/
structure Card.IsStated (c : Card) : Prop where
  keyword : c.keyword ≠ [] ∧ c.keyword.length ≤ 8 ∧ ∀ ch ∈ c.keyword, isPrint ch = true ∧ ch ≠ ' '
  notEnd : streq c.keyword ['E', 'N', 'D'] = false
  iscomment : c.type = ['C'] ↔ streq c.keyword ['C', 'O', 'M', 'M', 'E', 'N', 'T'] = true
  ishistory : c.type = ['H'] ↔ streq c.keyword ['H', 'I', 'S', 'T', 'O', 'R', 'Y'] = true
  body : c.Body

/-- An entry that comes back. -/
structure Card.IsCanonical (c : Card) : Prop where
  stated : c.IsStated
  numeric : c.type = ['N'] →
    10 + c.value.length ≤ 80 ∧ streq c.value ['T'] = false ∧ streq c.value ['F'] = false
  text : c.type = ['C'] ∨ c.type = ['H'] ∨ c.type = ['T'] → '\n' ∉ c.value

/-! ## Lists of characters -/

variable {out s : Str} {c : Card}

theorem padTo_of_le {n : Nat} (h : n ≤ out.length) : padTo n out = out := by
  simp [padTo, Nat.sub_eq_zero_of_le h]

theorem padTo_length (n : Nat) : (padTo n out).length = max n out.length := by
  rw [padTo, List.length_append, List.length_replicate]
  omega

theorem copyPrintable_eq (hs : ∀ ch ∈ s, isPrint ch = true) (hlen : out.length + s.length ≤ 80) :
    copyPrintable out s = out ++ s := by
  induction s generalizing out with
  | nil => simp [copyPrintable]
  | cons ch s ih =>
    simp only [List.length_cons] at hlen
    rw [copyPrintable, if_pos (by omega), if_pos (hs ch List.mem_cons_self),
      ih (fun d hd => hs d (List.mem_cons_of_mem ch hd)) (by simp; omega)]
    simp

theorem copyText_eq (hlen : out.length + s.length ≤ 80) : copyText out s = out ++ s := by
  induction s generalizing out with
  | nil => simp [copyText]
  | cons ch s ih =>
    simp only [List.length_cons] at hlen
    rw [copyText, if_pos (by omega), ih (by simp; omega)]
    simp

theorem takeWhile_append_stop {p : Char → Bool} {t : Str} (hs : ∀ ch ∈ s, p ch = true)
    (ht : ∀ ch ∈ t.head?, p ch = false) : (s ++ t).takeWhile p = s := by
  rw [List.takeWhile_append_of_pos hs]
  cases t with
  | nil => simp
  | cons ch t => simp [ht ch rfl]

theorem dropWhile_append_stop {p : Char → Bool} {t : Str} (hs : ∀ ch ∈ s, p ch = true)
    (ht : ∀ ch ∈ t.head?, p ch = false) : (s ++ t).dropWhile p = t := by
  rw [List.dropWhile_append_of_pos hs]
  cases t with
  | nil => rfl
  | cons ch t => simp [ht ch rfl]

theorem isPrint_ne {ch d : Char} (h : isPrint ch = true) (hd : isPrint d = false) : ch ≠ d := by
  rintro rfl
  rw [hd] at h
  cases h

theorem upToNull_eq (hs : '\x00' ∉ s) : upToNull s = s := by
  refine List.takeWhile_eq_self_iff.mpr fun ch hch => ?_
  rw [bne_iff_ne]
  rintro rfl
  exact hs hch

/-- Blanks at the end are trimmed. -/
theorem trimmed_append (hs : '\n' ∉ s) (n : Nat) :
    trimmed (s ++ List.replicate n ' ') = s.rdropWhile (· == ' ') := by
  have hline : ∀ ch ∈ s ++ List.replicate n ' ', (ch != '\n') = true := by
    intro ch hch
    rw [bne_iff_ne]
    rintro rfl
    rcases List.mem_append.mp hch with h | h
    · exact hs h
    · exact absurd (List.eq_of_mem_replicate h) (by decide)
  rw [trimmed, List.takeWhile_eq_self_iff.mpr hline]
  induction n with
  | zero => simp
  | succ n ih =>
    rw [List.replicate_succ', ← List.append_assoc, List.rdropWhile_concat_pos _ _ _ (by simp)]
    refine ih fun ch hch => hline ch ?_
    rcases List.mem_append.mp hch with h | h
    · exact List.mem_append_left _ h
    · rw [List.eq_of_mem_replicate h]
      exact List.mem_append_right _ (by simp)

/-! ## The parts of a card -/

/-- The keyword field. -/
theorem keyword_field (hk : c.keyword.length ≤ 8) (hp : ∀ ch ∈ c.keyword, isPrint ch = true) :
    padTo 8 ((c.keyword.take 8).filter isPrint) = c.keyword ++ List.replicate (8 - c.keyword.length) ' ' := by
  rw [List.take_of_length_le hk, List.filter_eq_self.mpr hp, padTo]

theorem length_keyword_field (hk : c.keyword.length ≤ 8) :
    (c.keyword ++ List.replicate (8 - c.keyword.length) ' ').length = 8 := by
  simp
  omega

theorem readKeyword_field (hk : c.keyword.length ≤ 8) (hp : ∀ ch ∈ c.keyword, isPrint ch = true ∧ ch ≠ ' ')
    (tail : Str) :
    readKeyword (c.keyword ++ List.replicate (8 - c.keyword.length) ' ' ++ tail) = c.keyword := by
  have hall : (c.keyword ++ List.replicate (8 - c.keyword.length) ' ').all isPrint = true := by
    rw [List.all_append, Bool.and_eq_true, List.all_eq_true, List.all_eq_true]
    refine ⟨fun ch hch => (hp ch hch).1, fun ch hch => ?_⟩
    rw [List.eq_of_mem_replicate hch]
    decide
  rw [readKeyword, List.take_left' (length_keyword_field hk), if_pos hall]
  refine takeWhile_append_stop (fun ch hch => bne_iff_ne.mpr (hp ch hch).2) fun ch hch => ?_
  have hmem := List.mem_of_mem_head? hch
  rw [List.eq_of_mem_replicate hmem]
  rfl

/-- The comment and what stands before it, as it is put on the card. -/
def commentField (comment : Str) : Str := if comment = [] then [] else [' ', '/', ' '] ++ comment

theorem putComment_eq {col : Nat} {comment : Str} (hf : CommentFits col comment) (hout : out.length ≤ col) :
    putComment out comment = out ++ commentField comment := by
  unfold putComment commentField
  by_cases h0 : comment = []
  · simp [h0]
  · have hfits := hf.fits.resolve_left h0
    rw [if_pos ⟨h0, by omega⟩, if_neg h0, copyPrintable_eq hf.print (by simp; omega), List.append_assoc]

/-- The comment is read from behind blanks. -/
theorem read_commentField {col : Nat} {comment : Str} (hf : CommentFits col comment) (m n : Nat) :
    upToNull (trimmed ((List.replicate m ' ' ++ commentField comment ++ List.replicate n ' ').dropWhile
      fun ch => ch == '/' || ch == ' ')) = comment := by
  have hblank : ∀ k, ∀ ch ∈ List.replicate k ' ', (ch == '/' || ch == ' ') = true := by
    intro k ch hch
    rw [List.eq_of_mem_replicate hch]
    rfl
  by_cases h0 : comment = []
  · rw [commentField, if_pos h0, List.append_nil, List.replicate_append_replicate,
      List.dropWhile_eq_nil_iff.mpr (hblank (m + n)), h0]
    rfl
  · have hnl : '\n' ∉ comment := fun h => absurd (hf.print _ h) (by decide)
    have hnull : '\x00' ∉ comment := fun h => absurd (hf.print _ h) (by decide)
    have hsplit : List.replicate m ' ' ++ commentField comment ++ List.replicate n ' ' =
        (List.replicate m ' ' ++ [' ', '/', ' ']) ++ (comment ++ List.replicate n ' ') := by
      simp [commentField, h0]
    have hdrop : ((List.replicate m ' ' ++ [' ', '/', ' ']) ++ (comment ++ List.replicate n ' ')).dropWhile
        (fun ch => ch == '/' || ch == ' ') = comment ++ List.replicate n ' ' := by
      refine dropWhile_append_stop (fun ch hch => ?_) fun ch hch => ?_
      · rcases List.mem_append.mp hch with h | h
        · exact hblank m ch h
        · simp only [List.mem_cons, List.not_mem_nil, or_false] at h
          rcases h with rfl | rfl | rfl <;> rfl
      · rw [List.head?_append_of_ne_nil _ h0] at hch
        have hf1 := hf.first
        rw [Option.mem_def.mp hch] at hf1
        simp only [ne_eq, Option.some.injEq] at hf1
        simp [hf1.1, hf1.2]
    rw [hsplit, hdrop, trimmed_append hnl, List.rdropWhile_eq_self_iff.mpr, upToNull_eq hnull]
    intro hne hlast
    refine hf.last ?_
    rw [List.getLast?_eq_getLast_of_ne_nil hne]
    simpa using hlast

/-- The card is filled with blanks. -/
theorem fill_card (h : out.length ≤ 80) : (padTo 80 out).take 80 = out ++ List.replicate (80 - out.length) ' ' := by
  rw [List.take_of_length_le, padTo]
  rw [padTo_length]
  omega

theorem formatCard_length (keyword value type comment : Str) :
    (formatCard keyword value type comment).length = 80 := by
  rw [formatCard, List.length_take, padTo_length]
  omega

section Format

variable (hk : c.keyword.length ≤ 8) (hp : ∀ ch ∈ c.keyword, isPrint ch = true ∧ ch ≠ ' ')
include hk hp

/-- The card of a string. Without room for the closing quote it ends in the value. -/
theorem formatCard_string (ht : c.type = ['S']) (hv : ∀ ch ∈ c.value, isPrint ch = true ∧ ch ≠ '\'')
    (hfit : 11 + c.value.length ≤ 80) (hc : CommentFits (max 30 (12 + c.value.length)) c.comment) :
    ∃ tail, formatCard c.keyword c.value c.type c.comment =
        c.keyword ++ List.replicate (8 - c.keyword.length) ' ' ++
          (['=', ' ', '\''] ++ (c.value ++ List.replicate (8 - c.value.length) ' ') ++ tail) ∧
      (tail = [] ∧ c.comment = [] ∨
        ∃ m n, tail = '\'' :: (List.replicate m ' ' ++ commentField c.comment ++ List.replicate n ' ')) := by
  have hkl := length_keyword_field hk
  have hvalue : copyPrintable (padTo 8 ((c.keyword.take 8).filter isPrint) ++ ['=', ' ', '\'']) c.value =
      c.keyword ++ List.replicate (8 - c.keyword.length) ' ' ++ ['=', ' ', '\''] ++ c.value := by
    rw [keyword_field hk fun ch hch => (hp ch hch).1]
    exact copyPrintable_eq (fun ch hch => (hv ch hch).1) (by rw [List.length_append, hkl]; simp; omega)
  have hhead : c.type.head? = some 'S' := by rw [ht]; rfl
  set head := c.keyword ++ List.replicate (8 - c.keyword.length) ' ' with hheaddef
  have hpad : padTo 19 (head ++ ['=', ' ', '\''] ++ c.value) =
      head ++ ['=', ' ', '\''] ++ c.value ++ List.replicate (8 - c.value.length) ' ' := by
    rw [padTo]
    congr 2
    simp [hkl]
    omega
  unfold formatCard
  dsimp only
  rw [if_pos hhead, hvalue, hpad]
  by_cases hl : c.value.length = 69
  · -- the closing quote would be in column 81
    have hcom : c.comment = [] := by
      refine hc.fits.resolve_right fun h => ?_
      omega
    have hlen : (head ++ ['=', ' ', '\''] ++ c.value ++ List.replicate (8 - c.value.length) ' ').length = 80 := by
      simp [hkl, hl]
    refine ⟨[], ?_, .inl ⟨rfl, hcom⟩⟩
    rw [hcom, putComment, if_neg (by simp), padTo_of_le, padTo_of_le, List.take_left' hlen]
    · simp
    · rw [List.length_append, hlen]
      decide
    · rw [padTo_length, List.length_append, hlen]
      decide
  · set out := head ++ ['=', ' ', '\''] ++ c.value ++ List.replicate (8 - c.value.length) ' ' ++ ['\''] with hout
    have hlen : out.length = max 20 (12 + c.value.length) := by
      simp [hout, hkl]
      omega
    have hput : putComment (padTo 30 out) c.comment = padTo 30 out ++ commentField c.comment := by
      refine putComment_eq hc ?_
      rw [padTo_length, hlen]
      omega
    have htotal : (padTo 30 out ++ commentField c.comment).length ≤ 80 := by
      rw [List.length_append, padTo_length, hlen, commentField]
      split
      · simp
        omega
      · next h0 =>
        have := hc.fits.resolve_left h0
        simp
        omega
    rw [hput, fill_card htotal]
    generalize 80 - (padTo 30 out ++ commentField c.comment).length = n
    refine ⟨_, ?_, .inr ⟨30 - out.length, n, rfl⟩⟩
    rw [padTo, hout]
    simp only [List.append_assoc, List.cons_append, List.nil_append]

/-- The card of a number or a logical value. -/
theorem formatCard_number (ht : c.type = ['N'] ∨ c.type = ['L'])
    (hv : ∀ ch ∈ c.value, isPrint ch = true) (hfit : 10 + c.value.length ≤ 80)
    (hc : CommentFits (10 + max 20 c.value.length) c.comment) :
    ∃ n, formatCard c.keyword c.value c.type c.comment =
      c.keyword ++ List.replicate (8 - c.keyword.length) ' ' ++
        (['=', ' '] ++ List.replicate (20 - c.value.length) ' ' ++ c.value ++
          (List.replicate 0 ' ' ++ commentField c.comment ++ List.replicate n ' ')) := by
  have hkl := length_keyword_field hk
  have hvalue : copyPrintable (padTo 8 ((c.keyword.take 8).filter isPrint) ++ ['=', ' '] ++
      List.replicate (20 - c.value.length) ' ') c.value =
      c.keyword ++ List.replicate (8 - c.keyword.length) ' ' ++ ['=', ' '] ++
        List.replicate (20 - c.value.length) ' ' ++ c.value := by
    rw [keyword_field hk fun ch hch => (hp ch hch).1]
    refine copyPrintable_eq hv ?_
    rw [List.length_append, List.length_append, hkl]
    simp
    omega
  have hS : c.type.head? ≠ some 'S' := by
    rcases ht with h | h <;> rw [h] <;> decide
  have hNL : c.type.head? = some 'N' ∨ c.type.head? = some 'L' := by
    rcases ht with h | h <;> rw [h] <;> decide
  unfold formatCard
  dsimp only
  rw [if_neg hS, if_pos hNL, hvalue]
  set head := c.keyword ++ List.replicate (8 - c.keyword.length) ' ' with hheaddef
  set out := head ++ ['=', ' '] ++ List.replicate (20 - c.value.length) ' ' ++ c.value with hout
  have hlen : out.length = 10 + max 20 c.value.length := by
    simp [hout, hkl]
    omega
  have htotal : (out ++ commentField c.comment).length ≤ 80 := by
    rw [List.length_append, hlen, commentField]
    split
    · simp
      omega
    · next h0 =>
      have := hc.fits.resolve_left h0
      simp
      omega
  rw [putComment_eq hc hlen.le, fill_card htotal]
  generalize 80 - (out ++ commentField c.comment).length = n
  refine ⟨n, ?_⟩
  rw [hout]
  simp only [List.append_assoc, List.replicate_zero, List.nil_append]

/-- The card of a text. -/
theorem formatCard_text (ht : c.type = ['C'] ∨ c.type = ['H'] ∨ c.type = ['T'])
    (hfit : 8 + c.value.length ≤ 80) :
    ∃ n, formatCard c.keyword c.value c.type c.comment =
      c.keyword ++ List.replicate (8 - c.keyword.length) ' ' ++ (c.value ++ List.replicate n ' ') := by
  have hkl := length_keyword_field hk
  have hS : c.type.head? ≠ some 'S' := by
    rcases ht with h | h | h <;> rw [h] <;> decide
  have hNL : ¬ (c.type.head? = some 'N' ∨ c.type.head? = some 'L') := by
    rcases ht with h | h | h <;> rw [h] <;> decide
  unfold formatCard
  dsimp only
  rw [if_neg hS, if_neg hNL, keyword_field hk fun ch hch => (hp ch hch).1, copyText_eq (by rw [hkl]; omega),
    fill_card (by rw [List.length_append, hkl]; omega)]
  exact ⟨_, List.append_assoc _ _ _⟩

end Format

/-! ## Reading a card -/

theorem skipSpaces_replicate {m n : Nat} (h : m ≤ n) (ip : Str) :
    skipSpaces n (List.replicate m ' ' ++ ip) = skipSpaces (n - m) ip := by
  induction m generalizing n with
  | zero => simp
  | succ m ih =>
    obtain ⟨n, rfl⟩ : ∃ k, n = k + 1 := ⟨n - 1, by omega⟩
    rw [List.replicate_succ, List.cons_append, skipSpaces, if_pos (by decide), ih (by omega)]
    congr 1
    omega

theorem skipSpaces_stop {n : Nat} {ip : Str} (h : ∀ ch ∈ ip.head?, isSpace ch = false) : skipSpaces n ip = ip := by
  cases n with
  | zero => rfl
  | succ n =>
    cases ip with
    | nil => rfl
    | cons ch ip => rw [skipSpaces, h ch rfl, if_neg (by simp)]

/-- A printable character other than the blank is no space. -/
theorem isSpace_of_print {ch : Char} (h : isPrint ch = true) (hb : ch ≠ ' ') : isSpace ch = false := by
  have hne : ∀ d, isPrint d = false → (ch == d) = false := fun d hd => by simpa using isPrint_ne h hd
  simp [isSpace, hb, hne '\t' (by decide), hne '\n' (by decide), hne '\x0b' (by decide), hne '\x0c' (by decide),
    hne '\r' (by decide)]

/-- The reader's view of a card with a value: the keyword is no text keyword, and `=` is in column 9. -/
theorem readFields_value {kw value after comment : Str} {isstring : Bool} (old tail : Str)
    (hkw : kw.length ≤ 8) (hc : streq kw ['C', 'O', 'M', 'M', 'E', 'N', 'T'] = false)
    (hh : streq kw ['H', 'I', 'S', 'T', 'O', 'R', 'Y'] = false)
    (hread : readValue (skipSpaces 21 tail) = (isstring, value, after))
    (hnull : '\x00' ∉ value)
    (hcom : upToNull (trimmed (after.dropWhile fun ch => ch == '/' || ch == ' ')) = comment) :
    readFields kw (kw ++ List.replicate (8 - kw.length) ' ' ++ '=' :: tail) old =
      (value, if isstring then ['S'] else if streq value ['T'] || streq value ['F'] then ['L'] else ['N'],
        comment) := by
  have hkl : (kw ++ List.replicate (8 - kw.length) ' ').length = 8 := by
    simp
    omega
  have hcol : (kw ++ List.replicate (8 - kw.length) ' ' ++ '=' :: tail).getD 8 ' ' = '=' := by
    rw [List.getD_append_right _ _ _ _ hkl.le, hkl]
    rfl
  have hdrop : (kw ++ List.replicate (8 - kw.length) ' ' ++ '=' :: tail).drop 9 = tail := by
    rw [List.append_cons, List.drop_left']
    simp only [List.length_append, hkl, List.length_singleton]
  unfold readFields
  rw [hc, hh, hcol, hdrop, hread]
  simp only [Bool.not_false, Bool.and_self, beq_self_eq_true, if_true, upToNull_eq hnull, hcom]

/-- The reader's view of a text card. -/
theorem readFields_text {kw value : Str} (old : Str) (n : Nat) (hkw : kw.length ≤ 8)
    (htext : streq kw ['C', 'O', 'M', 'M', 'E', 'N', 'T'] = true ∨
      streq kw ['H', 'I', 'S', 'T', 'O', 'R', 'Y'] = true ∨ value.head? ≠ some '=')
    (hnl : '\n' ∉ value) (hnull : '\x00' ∉ value) :
    readFields kw (kw ++ List.replicate (8 - kw.length) ' ' ++ (value ++ List.replicate n ' ')) old =
      (value.rdropWhile (· == ' '),
        if streq kw ['C', 'O', 'M', 'M', 'E', 'N', 'T'] then ['C']
        else if streq kw ['H', 'I', 'S', 'T', 'O', 'R', 'Y'] then ['H'] else ['T'], old) := by
  have hkl : (kw ++ List.replicate (8 - kw.length) ' ').length = 8 := by
    simp
    omega
  have hcol : (!streq kw ['C', 'O', 'M', 'M', 'E', 'N', 'T'] && !streq kw ['H', 'I', 'S', 'T', 'O', 'R', 'Y'] &&
      (kw ++ List.replicate (8 - kw.length) ' ' ++ (value ++ List.replicate n ' ')).getD 8 ' ' == '=') = false := by
    rw [List.getD_append_right _ _ _ _ hkl.le, hkl]
    rcases htext with h | h | h
    · simp [h]
    · simp [h]
    · have hne : ((value ++ List.replicate n ' ').getD 0 ' ' == '=') = false := by
        cases value with
        | nil => cases n <;> simp [List.replicate_succ]
        | cons ch value => simpa using h
      rw [Nat.sub_self, hne, Bool.and_false]
  have hnull' : '\x00' ∉ value.rdropWhile (· == ' ') := fun h =>
    hnull ((List.rdropWhile_prefix _ _).subset h)
  unfold readFields
  dsimp only
  rw [hcol, List.drop_left' hkl, trimmed_append hnl, upToNull_eq hnull']
  rfl

/-- The value that comes back: a string is filled up with blanks, a text has lost them. -/
structure SameCard (c c' : Card) : Prop where
  keyword : c'.keyword = c.keyword
  type : c'.type = c.type
  value : c'.value.rdropWhile (· == ' ') = c.value.rdropWhile (· == ' ')
  exact : c.type = ['N'] ∨ c.type = ['L'] → c'.value = c.value
  comment : c.type = ['S'] ∨ c.type = ['N'] ∨ c.type = ['L'] → c'.comment = c.comment

theorem rdropWhile_replicate (s : Str) (n : Nat) :
    (s ++ List.replicate n ' ').rdropWhile (· == ' ') = s.rdropWhile (· == ' ') := by
  induction n with
  | zero => simp
  | succ n ih => rw [List.replicate_succ', ← List.append_assoc, List.rdropWhile_concat_pos _ _ _ (by simp), ih]

theorem rdropWhile_idem (s : Str) :
    (s.rdropWhile (· == ' ')).rdropWhile (· == ' ') = s.rdropWhile (· == ' ') :=
  List.rdropWhile_idempotent _ _

/-- The entry that is read from the card of an entry, after a card with the comment `old`. -/
def Card.back (c : Card) (old : Str) : Card :=
  let card := formatCard c.keyword c.value c.type c.comment
  let fields := readFields (readKeyword card) card old
  ⟨readKeyword card, fields.1, fields.2.1, fields.2.2⟩

theorem Card.back_of {old tail value type comment : Str} (hk : c.keyword.length ≤ 8)
    (hp : ∀ ch ∈ c.keyword, isPrint ch = true ∧ ch ≠ ' ')
    (hcard : formatCard c.keyword c.value c.type c.comment =
      c.keyword ++ List.replicate (8 - c.keyword.length) ' ' ++ tail)
    (hfields : readFields c.keyword (c.keyword ++ List.replicate (8 - c.keyword.length) ' ' ++ tail) old =
      (value, type, comment)) :
    c.back old = ⟨c.keyword, value, type, comment⟩ := by
  unfold Card.back
  dsimp only
  rw [hcard, readKeyword_field hk hp, hfields]

section Back

variable (hk : c.keyword.length ≤ 8) (hp : ∀ ch ∈ c.keyword, isPrint ch = true ∧ ch ≠ ' ')
  (hnull : '\x00' ∉ c.value) (old : Str)
include hk hp hnull

/-- A string comes back, filled up to eight characters. -/
theorem Card.back_string (hnoC : streq c.keyword ['C', 'O', 'M', 'M', 'E', 'N', 'T'] = false)
    (hnoH : streq c.keyword ['H', 'I', 'S', 'T', 'O', 'R', 'Y'] = false) (ht : c.type = ['S'])
    (hv : ∀ ch ∈ c.value, isPrint ch = true ∧ ch ≠ '\'') (hfit : 11 + c.value.length ≤ 80)
    (hcom : CommentFits (max 30 (12 + c.value.length)) c.comment) :
    c.back old = ⟨c.keyword, c.value ++ List.replicate (8 - c.value.length) ' ', c.type, c.comment⟩ := by
  obtain ⟨tail, hcard, htail⟩ := formatCard_string hk hp ht hv hfit hcom
  have hquote : ∀ ch ∈ c.value ++ List.replicate (8 - c.value.length) ' ', (ch != '\'') = true := by
    intro ch hch
    rcases List.mem_append.mp hch with h | h
    · exact bne_iff_ne.mpr (hv ch h).2
    · rw [List.eq_of_mem_replicate h]
      rfl
  have hnull' : '\x00' ∉ c.value ++ List.replicate (8 - c.value.length) ' ' := by
    simp [hnull]
  have hskip : skipSpaces 21 (' ' :: '\'' :: ((c.value ++ List.replicate (8 - c.value.length) ' ') ++ tail)) =
      '\'' :: ((c.value ++ List.replicate (8 - c.value.length) ' ') ++ tail) := by
    rw [skipSpaces, if_pos (by decide), skipSpaces_stop]
    simp [isSpace]
  obtain ⟨after, hread, hcom'⟩ : ∃ after, readValue (skipSpaces 21 (' ' :: '\'' ::
      ((c.value ++ List.replicate (8 - c.value.length) ' ') ++ tail))) =
        (true, c.value ++ List.replicate (8 - c.value.length) ' ', after) ∧
      upToNull (trimmed (after.dropWhile fun ch => ch == '/' || ch == ' ')) = c.comment := by
    rw [hskip, readValue]
    rcases htail with ⟨rfl, hcom0⟩ | ⟨m, n, rfl⟩
    · refine ⟨[], ?_, by rw [hcom0]; rfl⟩
      rw [takeWhile_append_stop hquote (by simp), dropWhile_append_stop hquote (by simp)]
      rfl
    · refine ⟨_, ?_, read_commentField hcom m n⟩
      rw [takeWhile_append_stop hquote (by simp), dropWhile_append_stop hquote (by simp)]
      rfl
  have hfields := readFields_value old _ hk hnoC hnoH hread hnull' hcom'
  rw [if_pos rfl, ← ht] at hfields
  refine Card.back_of hk hp hcard ?_
  simpa only [List.cons_append, List.nil_append, List.append_assoc] using hfields

/-- A number or a logical value comes back. The reader decides by the value which of them it is. -/
theorem Card.back_number (hnoC : streq c.keyword ['C', 'O', 'M', 'M', 'E', 'N', 'T'] = false)
    (hnoH : streq c.keyword ['H', 'I', 'S', 'T', 'O', 'R', 'Y'] = false) (ht : c.type = ['N'] ∨ c.type = ['L'])
    (hv : ∀ ch ∈ c.value, isPrint ch = true ∧ ch ≠ ' ' ∧ ch ≠ '\'' ∧ ch ≠ '/')
    (hfit : 10 + c.value.length ≤ 80) (hcom : CommentFits (10 + max 20 c.value.length) c.comment) :
    c.back old = ⟨c.keyword, c.value,
      if streq c.value ['T'] || streq c.value ['F'] then ['L'] else ['N'], c.comment⟩ := by
  obtain ⟨n, hcard⟩ := formatCard_number hk hp ht (fun ch hch => (hv ch hch).1) hfit hcom
  set after := List.replicate 0 ' ' ++ commentField c.comment ++ List.replicate n ' ' with hafter
  -- behind the value is a blank, or the end of the card
  have hstop : ∀ ch ∈ after.head?, ch = ' ' := by
    intro ch hch
    by_cases h0 : c.comment = []
    · rw [hafter, commentField, if_pos h0] at hch
      exact List.eq_of_mem_replicate (List.mem_of_mem_head? (by simpa using hch))
    · rw [hafter, commentField, if_neg h0] at hch
      simpa [eq_comm] using hch
  have hplain : ∀ ch ∈ c.value, (ch != ' ' && ch != '/') = true := fun ch hch => by
    simp [(hv ch hch).2.1, (hv ch hch).2.2.2]
  have hend : ∀ ch ∈ after.head?, (ch != ' ' && ch != '/') = false := fun ch hch => by
    simp [hstop ch hch]
  have hskip : skipSpaces 21 (' ' :: (List.replicate (20 - c.value.length) ' ' ++ (c.value ++ after))) =
      c.value ++ after := by
    rw [← List.cons_append, ← List.replicate_succ, skipSpaces_replicate (by omega)]
    cases hval : c.value with
    | nil => rfl
    | cons ch value =>
      refine skipSpaces_stop fun d hd => ?_
      obtain rfl : ch = d := by simpa using hd
      have hch := hv ch (by rw [hval]; exact List.mem_cons_self)
      exact isSpace_of_print hch.1 hch.2.1
  have hread : readValue (skipSpaces 21 (' ' :: (List.replicate (20 - c.value.length) ' ' ++ (c.value ++ after)))) =
      (false, c.value, after) := by
    have hquote : ∀ ip, c.value ++ after = '\'' :: ip → False := by
      intro ip hip
      cases hval : c.value with
      | nil =>
        rw [hval, List.nil_append] at hip
        have := hstop '\'' (by rw [hip]; rfl)
        exact absurd this (by decide)
      | cons ch value =>
        rw [hval, List.cons_append, List.cons.injEq] at hip
        exact (hv ch (by rw [hval]; exact List.mem_cons_self)).2.2.1 hip.1
    rw [hskip, readValue.eq_2 _ hquote, takeWhile_append_stop hplain hend, dropWhile_append_stop hplain hend]
  have hfields := readFields_value old _ hk hnoC hnoH hread hnull (read_commentField hcom 0 n)
  rw [if_neg (by simp)] at hfields
  refine Card.back_of hk hp hcard ?_
  simpa only [List.cons_append, List.nil_append, List.append_assoc] using hfields

/-- A text comes back without its trailing blanks. -/
theorem Card.back_text (ht : c.type = ['C'] ∨ c.type = ['H'] ∨ c.type = ['T'])
    (hfit : 8 + c.value.length ≤ 80)
    (htext : streq c.keyword ['C', 'O', 'M', 'M', 'E', 'N', 'T'] = true ∨
      streq c.keyword ['H', 'I', 'S', 'T', 'O', 'R', 'Y'] = true ∨ c.value.head? ≠ some '=')
    (hnl : '\n' ∉ c.value) :
    c.back old = ⟨c.keyword, c.value.rdropWhile (· == ' '),
      if streq c.keyword ['C', 'O', 'M', 'M', 'E', 'N', 'T'] then ['C']
      else if streq c.keyword ['H', 'I', 'S', 'T', 'O', 'R', 'Y'] then ['H'] else ['T'], old⟩ := by
  obtain ⟨n, hcard⟩ := formatCard_text hk hp ht hfit
  exact Card.back_of hk hp hcard (readFields_text old n hk htext hnl hnull)

end Back

/-- The card of a canonical entry is read as the entry. -/
theorem Card.IsCanonical.back (hc : c.IsCanonical) (hnull : '\x00' ∉ c.value) (old : Str) :
    SameCard c (c.back old) := by
  obtain ⟨-, hk, hp⟩ := hc.stated.keyword
  have hcomment := hc.stated.iscomment
  have hhistory := hc.stated.ishistory
  have hnoC : c.type ≠ ['C'] → streq c.keyword ['C', 'O', 'M', 'M', 'E', 'N', 'T'] = false := fun h => by
    rwa [← Bool.not_eq_true, ← hcomment]
  have hnoH : c.type ≠ ['H'] → streq c.keyword ['H', 'I', 'S', 'T', 'O', 'R', 'Y'] = false := fun h => by
    rwa [← Bool.not_eq_true, ← hhistory]
  cases hc.stated.body with
  | string ht hv hfit hcom =>
    rw [Card.back_string hk hp hnull old (hnoC (by simp [ht])) (hnoH (by simp [ht])) ht hv hfit hcom]
    exact ⟨rfl, rfl, rdropWhile_replicate _ _, by simp [ht], fun _ => rfl⟩
  | logical ht hv hcom =>
    have hprint : ∀ ch ∈ c.value, isPrint ch = true ∧ ch ≠ ' ' ∧ ch ≠ '\'' ∧ ch ≠ '/' := by
      rcases hv with h | h <;> rw [h] <;> decide
    have hlen : c.value.length = 1 := by
      rcases hv with h | h <;> rw [h] <;> rfl
    have htf : (streq c.value ['T'] || streq c.value ['F']) = true := by
      rcases hv with h | h <;> rw [h] <;> decide
    rw [Card.back_number hk hp hnull old (hnoC (by simp [ht])) (hnoH (by simp [ht])) (.inr ht) hprint
      (by omega) (by rw [hlen]; exact hcom), if_pos htf, ← ht]
    exact ⟨rfl, rfl, rfl, fun _ => rfl, fun _ => rfl⟩
  | numeric ht hv hnl hcom =>
    obtain ⟨hfit, hT, hF⟩ := hc.numeric ht
    rw [Card.back_number hk hp hnull old (hnoC (by simp [ht])) (hnoH (by simp [ht])) (.inl ht) hv hfit hcom,
      if_neg (by simp [hT, hF]), ← ht]
    exact ⟨rfl, rfl, rfl, fun _ => rfl, fun _ => rfl⟩
  | text ht hfit hne =>
    have htext : streq c.keyword ['C', 'O', 'M', 'M', 'E', 'N', 'T'] = true ∨
        streq c.keyword ['H', 'I', 'S', 'T', 'O', 'R', 'Y'] = true ∨ c.value.head? ≠ some '=' := by
      rcases ht with h | h | h
      · exact .inl (hcomment.mp h)
      · exact .inr (.inl (hhistory.mp h))
      · exact .inr (.inr (hne h))
    rw [Card.back_text hk hp hnull old ht hfit htext (hc.text ht)]
    refine ⟨rfl, ?_, rdropWhile_idem _, ?_, ?_⟩
    · rcases ht with h | h | h
      · rw [if_pos (hcomment.mp h), h]
      · rw [hnoC (by simp [h]), if_neg (by simp), if_pos (hhistory.mp h), h]
      · rw [hnoC (by simp [h]), hnoH (by simp [h]), h]
        rfl
    · rcases ht with h | h | h <;> simp [h]
    · rcases ht with h | h | h <;> simp [h]

end Ndhs.Kwdb
