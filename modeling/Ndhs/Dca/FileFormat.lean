import Mathlib.Data.List.TakeWhile
import Ndhs.Dca.FileName

/-!
# The format of a file name (`MakeFileName` of `mosdca/mosdca.c`)

`imformat` is text with sequences that stand for the name, the type and the index of an image. `pieces` are the sequences
that the comment at `MakeFileName` and its `switch` name, and `expand` is the name that they make.

* `MakeFileName` takes a `%` and a digit as the start of an index, whatever follows the digits. What it hands to `sprintf`
  then need not be a conversion, and a `%` that follows the digits is taken with them.
* `sprintf` is given for a conversion of an integer with a width. `other` is what it makes of anything else.
* A name that does not fit `fname`, a format or an index that do not fit `fmt` and `buf`, and an index that is no `int`
  give no result. Neither does a read behind the null of `imformat`.

`fileName_iff`: the formats for which the name is the one that the pieces make, and `imindex` counts them.
-/

namespace Ndhs.Mosdca

open Text

/-! ## The pieces of a format -/

/-- A sequence of a format, or a character that is copied -/
inductive Piece where
  | name
  | type
  | index (width : Str)
  | text (c : Char)
  deriving DecidableEq

/-- An index behind its `%`: the digits, and what follows the conversion -/
def indexSeq (ip : Str) : Option (Str × Str) :=
  let width := ip.takeWhile Char.isDigit
  match ip.dropWhile Char.isDigit with
  | [] => none
  | conv :: ip => if conv = 'I' ∨ conv = 'd' ∧ width ≠ [] then some (width, ip) else none

theorem length_indexSeq {ip width ip' : Str} (h : indexSeq ip = some (width, ip')) : ip'.length < ip.length := by
  have hle := (List.dropWhile_suffix (l := ip) Char.isDigit).length_le
  unfold indexSeq at h
  dsimp only at h
  split at h
  · cases h
  · next conv rest hdrop =>
    rw [hdrop, List.length_cons] at hle
    split at h
    · cases h
      omega
    · cases h

/-- The pieces of a format -/
def pieces : Str → List Piece
  | [] => []
  | c :: ip =>
    if c = '%' ∧ ip.head? = some 'N' then .name :: pieces ip.tail
    else if c = '%' ∧ ip.head? = some 'T' then .type :: pieces ip.tail
    else
      match _h : if c = '%' then indexSeq ip else none with
      | some (width, ip') => .index width :: pieces ip'
      | none => .text c :: pieces ip
  termination_by ip => ip.length
  decreasing_by
    · simp only [List.length_tail, List.length_cons]; omega
    · simp only [List.length_tail, List.length_cons]; omega
    · split at _h
      · have hlt := length_indexSeq _h
        simp only [List.length_cons]; omega
      · cases _h
    · simp only [List.length_cons]; omega

/-- `sprintf` of an integer with the conversion `%<width>d`. A zero at the start of the width asks for zeros. -/
def formatInt (width : Str) (n : Int) : Str :=
  let text := printInt n
  let pad := readDigits width - text.length
  if width.head? = some '0' then
    if n < 0 then '-' :: (List.replicate pad '0' ++ text.drop 1) else List.replicate pad '0' ++ text
  else List.replicate pad ' ' ++ text

/-- `sprintf` of an integer -/
def sprintf (other : Str → Int → Option Str) (fmt : Str) (n : Int) : Option Str :=
  match fmt with
  | '%' :: conv =>
    if conv.getLast? = some 'd' ∧ ∀ c ∈ conv.dropLast, c.isDigit then some (formatInt conv.dropLast n)
    else other fmt n
  | fmt => other fmt n

/-- The name that the pieces make, from the index `n` on -/
def expand (imagename imagetype : Str) : List Piece → Int → Str
  | [], _ => []
  | .name :: ps, n => imagename ++ expand imagename imagetype ps n
  | .type :: ps, n => imagetype ++ expand imagename imagetype ps n
  | .index width :: ps, n => formatInt width n ++ expand imagename imagetype ps (n + 1)
  | .text c :: ps, n => c :: expand imagename imagetype ps n

/-- The number of indices among the pieces -/
def indices : List Piece → Nat
  | [] => 0
  | .index _ :: ps => indices ps + 1
  | _ :: ps => indices ps

/-- The format of each index fits `fmt`, and its text fits `buf`. -/
def FitsBuffers : List Piece → Int → Prop
  | [], _ => True
  | .index width :: ps, n => width.length + 3 ≤ szFmt ∧ (formatInt width n).length < szFmt ∧ FitsBuffers ps (n + 1)
  | _ :: ps, n => FitsBuffers ps n

/-- A `%` that is followed by a digit is one of an index. -/
def Complete (imformat : Str) : Prop :=
  ∀ d ip, '%' :: d :: ip <:+ imformat → d.isDigit = true → (indexSeq (d :: ip)).isSome

/-- `MakeFileName`, where nothing follows the null of `imformat`: the name and the next `imindex` -/
def fileName (other : Str → Int → Option Str) (imformat imagename imagetype : Str) (imindex : Int) :
    Option (Str × Int) :=
  (makeFileName (sprintf other) imagename imagetype (imformat ++ ['\x00']) imindex).bind fun r =>
    if r.1.length < szPathname ∧ r.2 < 2 ^ 31 then some r else none

/-! ## Pieces, one by one -/

section Pieces

variable {c d : Char} {ip ip' width t : Str} {n : Int} {imagename imagetype : Str}

theorem pieces_text (h : c ≠ '%') : pieces (c :: ip) = .text c :: pieces ip := by
  rw [pieces, if_neg fun hc => h hc.1, if_neg fun hc => h hc.1]
  split
  · next heq => rw [if_neg h] at heq; cases heq
  · rfl

theorem pieces_name : pieces ('%' :: 'N' :: ip) = .name :: pieces ip := by
  rw [pieces, if_pos ⟨rfl, rfl⟩, List.tail_cons]

theorem pieces_type : pieces ('%' :: 'T' :: ip) = .type :: pieces ip := by
  rw [pieces, if_neg (by simp), if_pos ⟨rfl, rfl⟩, List.tail_cons]

theorem indexSeq_eq_some (h : indexSeq ip = some (width, ip')) :
    ∃ conv, ip = width ++ conv :: ip' ∧ (∀ c ∈ width, c.isDigit = true) ∧ (conv = 'I' ∨ conv = 'd') ∧
      (width = [] → conv = 'I') ∧ ip.head? ≠ some 'N' ∧ ip.head? ≠ some 'T' := by
  unfold indexSeq at h
  dsimp only at h
  split at h
  · cases h
  · next conv rest hdrop =>
    split at h
    · next hconv =>
      cases h
      have hsplit : ip = ip.takeWhile Char.isDigit ++ conv :: ip' := by
        rw [← hdrop, List.takeWhile_append_dropWhile]
      have hdigits : ∀ c ∈ ip.takeWhile Char.isDigit, c.isDigit = true := fun c hc => List.mem_takeWhile_imp hc
      have hhead : ∀ c, c.isDigit = false → c ≠ 'I' → c ≠ 'd' → ip.head? ≠ some c := by
        intro c hc hI hd heq
        rw [hsplit] at heq
        cases hw : ip.takeWhile Char.isDigit with
        | nil =>
          rw [hw] at heq
          cases heq
          exact hconv.elim hI fun h => hd h.1
        | cons x width =>
          rw [hw] at heq
          cases heq
          rw [hdigits c (hw ▸ List.mem_cons_self)] at hc
          cases hc
      exact ⟨conv, hsplit, hdigits, hconv.imp_right And.left, fun hw => hconv.resolve_right fun h => h.2 hw,
        hhead 'N' rfl (by decide) (by decide),
        hhead 'T' rfl (by decide) (by decide)⟩
    · cases h

/-- The characters behind an index do not matter to it. -/
theorem indexSeq_append (h : indexSeq ip = some (width, ip')) (t : Str) : indexSeq (ip ++ t) = some (width, ip' ++ t) := by
  obtain ⟨conv, rfl, hw, hconv, hI, -⟩ := indexSeq_eq_some h
  have hstop : ¬ conv.isDigit = true := by
    rcases hconv with rfl | rfl <;> decide
  unfold indexSeq
  rw [List.append_assoc, List.cons_append, List.takeWhile_append_of_pos hw, List.dropWhile_append_of_pos hw,
    List.takeWhile_cons_of_neg hstop, List.dropWhile_cons_of_neg hstop, List.append_nil]
  refine if_pos ?_
  by_cases hnil : width = []
  · exact .inl (hI hnil)
  · exact hconv.imp_right fun hd => ⟨hd, hnil⟩

theorem pieces_index (h : indexSeq ip = some (width, ip')) : pieces ('%' :: ip) = .index width :: pieces ip' := by
  obtain ⟨-, -, -, -, -, hN, hT⟩ := indexSeq_eq_some h
  rw [pieces, if_neg fun hc => hN hc.2, if_neg fun hc => hT hc.2]
  split
  · next heq =>
    rw [if_pos rfl, h] at heq
    cases heq
    rfl
  · next heq =>
    rw [if_pos rfl, h] at heq
    cases heq

theorem pieces_percent (hN : ip.head? ≠ some 'N') (hT : ip.head? ≠ some 'T') (h : indexSeq ip = none) :
    pieces ('%' :: ip) = .text '%' :: pieces ip := by
  rw [pieces, if_neg fun hc => hN hc.2, if_neg fun hc => hT hc.2]
  split
  · next heq =>
    rw [if_pos rfl, h] at heq
    cases heq
  · rfl

/-- Text without a `%` -/
theorem pieces_append (h : '%' ∉ t) : pieces (t ++ ip) = t.map .text ++ pieces ip := by
  induction t with
  | nil => rfl
  | cons c t ih =>
    rw [List.mem_cons, not_or] at h
    rw [List.cons_append, pieces_text (Ne.symm h.1), ih h.2]
    rfl

theorem indices_append (ps : List Piece) : indices (t.map .text ++ ps) = indices ps := by
  induction t with
  | nil => rfl
  | cons c t ih => exact ih

theorem expand_append (ps : List Piece) :
    expand imagename imagetype (t.map .text ++ ps) n = t ++ expand imagename imagetype ps n := by
  induction t with
  | nil => rfl
  | cons c t ih => exact congrArg (c :: ·) ih

/-- A format, character by character -/
theorem complete_cons : Complete (c :: ip) ↔
    (c = '%' → ∀ d b, ip = d :: b → d.isDigit = true → (indexSeq ip).isSome) ∧ Complete ip := by
  constructor
  · intro h
    refine ⟨?_, fun d b hs => h d b (hs.trans (List.suffix_cons c ip))⟩
    rintro rfl d b rfl
    exact h d b List.suffix_rfl
  · rintro ⟨hhead, htail⟩ d b hs
    rcases List.suffix_cons_iff.mp hs with heq | hs
    · obtain ⟨rfl, rfl⟩ := List.cons.inj heq
      exact hhead rfl d b rfl
    · exact htail d b hs

theorem Complete.suffix (h : Complete ip) (hs : ip' <:+ ip) : Complete ip' := fun d b hb => h d b (hb.trans hs)

theorem complete_append (h : '%' ∉ t) : Complete (t ++ ip) ↔ Complete ip := by
  induction t with
  | nil => rfl
  | cons c t ih =>
    rw [List.mem_cons, not_or] at h
    rw [List.cons_append, complete_cons, ih h.2]
    exact and_iff_right fun hc => absurd hc.symm h.1

theorem complete_nil : Complete [] := by
  intro d ip h
  cases List.suffix_nil.mp h

/-- An index in front of a complete format -/
theorem Complete.index (hc : Complete ip') (h : indexSeq ip = some (width, ip')) : Complete ('%' :: ip) := by
  obtain ⟨conv, rfl, hw, hconv, -⟩ := indexSeq_eq_some h
  have hpercent : '%' ∉ width ++ [conv] := by
    intro hmem
    rcases List.mem_append.mp hmem with hmem | hmem
    · exact absurd (hw _ hmem) (by decide)
    · rw [List.mem_singleton] at hmem
      rcases hconv with rfl | rfl <;> cases hmem
  refine complete_cons.mpr ⟨fun _ _ _ _ _ => by rw [h]; rfl, ?_⟩
  rw [List.append_cons]
  exact (complete_append hpercent).mpr hc

/-- A `%` that is followed by no digit -/
theorem Complete.percent (hc : Complete ip) (hd : d.isDigit = false) (hp : d ≠ '%') : Complete ('%' :: d :: ip) := by
  refine complete_cons.mpr ⟨fun _ x b hb hx => ?_, complete_cons.mpr ⟨fun h => absurd h hp, hc⟩⟩
  cases hb
  rw [hd] at hx
  cases hx

/-- The character is copied: it is no `%`, or none that is followed by a character of a sequence. -/
def Copied (c : Char) (ip : Str) : Prop :=
  c = '%' → ∀ d b, ip = d :: b → d ≠ 'N' ∧ d ≠ 'T' ∧ ¬ (d.isDigit = true ∨ d = 'I')

/-- What a format begins with, for `MakeFileName` -/
theorem format_cases (ip : Str) :
    ip = [] ∨ (∃ b, ip = '%' :: 'N' :: b) ∨ (∃ b, ip = '%' :: 'T' :: b) ∨
      (∃ d b, ip = '%' :: d :: b ∧ (d.isDigit = true ∨ d = 'I')) ∨ ∃ c b, ip = c :: b ∧ Copied c b := by
  cases ip with
  | nil => exact .inl rfl
  | cons c ip =>
    right
    by_cases hc : c = '%'
    · subst hc
      cases ip with
      | nil => exact .inr (.inr (.inr ⟨_, _, rfl, nofun⟩))
      | cons d b =>
        by_cases hN : d = 'N'
        · exact .inl ⟨b, by rw [hN]⟩
        · by_cases hT : d = 'T'
          · exact .inr (.inl ⟨b, by rw [hT]⟩)
          · by_cases hd : d.isDigit = true ∨ d = 'I'
            · exact .inr (.inr (.inl ⟨d, b, rfl, hd⟩))
            · refine .inr (.inr (.inr ⟨_, _, rfl, fun _ d' b' hb => ?_⟩))
              cases hb
              exact ⟨hN, hT, hd⟩
    · exact .inr (.inr (.inr ⟨c, ip, rfl, fun h => absurd h hc⟩))

/-- A character that is no digit begins an index only if it is its conversion. -/
theorem indexSeq_eq_none (hd : ¬ (d.isDigit = true ∨ d = 'I')) : indexSeq (d :: ip) = none := by
  rw [not_or] at hd
  unfold indexSeq
  rw [List.takeWhile_cons_of_neg hd.1, List.dropWhile_cons_of_neg hd.1]
  simp [hd.2]

theorem Copied.pieces (h : Copied c ip) : pieces (c :: ip) = .text c :: pieces ip := by
  by_cases hc : c = '%'
  · subst hc
    cases ip with
    | nil => exact pieces_percent (by simp) (by simp) rfl
    | cons d b =>
      obtain ⟨hN, hT, hd⟩ := h rfl d b rfl
      exact pieces_percent (fun h => hN (Option.some.inj h)) (fun h => hT (Option.some.inj h)) (indexSeq_eq_none hd)
  · exact pieces_text hc

/-- The characters that are taken with the digits of an index -/
def isWidth (c : Char) : Bool := c.isDigit || c == '-'

theorem percent_not_mem : '%' ∉ ip.takeWhile isWidth := by
  intro h
  exact absurd (List.mem_takeWhile_imp h) (by decide)

end Pieces

/-! ## `MakeFileName`, piece by piece -/

section Make

variable {sp : Str → Int → Option Str} {c d : Char} {ip ip' width t : Str} {n : Int} {imagename imagetype : Str}

theorem makeFileName_nil : makeFileName sp imagename imagetype ['\x00'] n = some ([], n) := by
  simp [makeFileName]

theorem makeFileName_name : makeFileName sp imagename imagetype ('%' :: 'N' :: ip) n =
    (makeFileName sp imagename imagetype ip n).map fun r => (imagename ++ r.1, r.2) := by
  rw [makeFileName, if_neg (by decide), if_pos ⟨rfl, rfl⟩]

theorem makeFileName_type : makeFileName sp imagename imagetype ('%' :: 'T' :: ip) n =
    (makeFileName sp imagename imagetype ip n).map fun r => (imagetype ++ r.1, r.2) := by
  rw [makeFileName, if_neg (by decide), if_neg (by simp), if_pos ⟨rfl, rfl⟩]

/-- What is copied -/
theorem makeFileName_text (hc : c ≠ '\x00') (h : Copied c ip) :
    makeFileName sp imagename imagetype (c :: (ip ++ ['\x00'])) n =
      (makeFileName sp imagename imagetype (ip ++ ['\x00']) n).map fun r => (c :: r.1, r.2) := by
  cases ip with
  | nil =>
    conv_lhs => rw [List.nil_append, makeFileName, if_neg hc, if_neg (by simp), if_neg (by simp), if_neg (by simp)]
    rfl
  | cons d b =>
    have hd := fun hp : c = '%' => h hp d b rfl
    rw [List.cons_append, makeFileName, if_neg hc, if_neg fun hp => (hd hp.1).1 hp.2,
      if_neg fun hp => (hd hp.1).2.1 hp.2, if_neg fun hp => (hd hp.1).2.2 hp.2]

/-- An index, or what is taken for one -/
theorem makeFileName_index (hd : d.isDigit = true ∨ d = 'I') :
    makeFileName sp imagename imagetype ('%' :: d :: ip) n =
      match (d :: ip).dropWhile isWidth with
      | [] => none
      | conv :: ip' =>
        let width := (d :: ip).takeWhile isWidth
        if szFmt < width.length + 3 then none
        else (sp ('%' :: width ++ (if conv = 'I' then ['d'] else if conv = '\x00' then [] else [conv])) n).bind fun buf =>
          if szFmt ≤ buf.length then none
          else (makeFileName sp imagename imagetype ip' (n + 1)).map fun r => (buf ++ r.1, r.2) := by
  have hN : d ≠ 'N' := by
    rintro rfl
    rcases hd with hd | hd <;> cases hd
  have hT : d ≠ 'T' := by
    rintro rfl
    rcases hd with hd | hd <;> cases hd
  rw [makeFileName, if_neg (by decide), if_neg fun hp => hN hp.2, if_neg fun hp => hT hp.2, if_pos ⟨rfl, hd⟩]
  dsimp only
  have hwidth : (fun c : Char => c.isDigit || c == '-') = isWidth := rfl
  split
  · next heq =>
    rw [hwidth] at heq
    rw [heq]
  · next heq =>
    rw [hwidth] at heq
    rw [heq]
    rfl

end Make

/-! ## The name -/

section Name

variable {other : Str → Int → Option Str} {c d conv : Char} {ip ip' width t s e : Str} {n m n' : Int} {r : Str × Int}
  {imagename imagetype imformat : Str}

theorem sprintf_int (h : ∀ c ∈ width, c.isDigit = true) :
    sprintf other ('%' :: width ++ ['d']) n = some (formatInt width n) := by
  have hlast : (width ++ ['d']).getLast? = some 'd' := List.getLast?_concat
  have hdrop : (width ++ ['d']).dropLast = width := List.dropLast_concat
  rw [List.cons_append, sprintf, hdrop, if_pos ⟨hlast, h⟩]

/-- The text of an index ends with a digit. -/
theorem formatInt_eq_concat (width : Str) (n : Int) : ∃ t c, formatInt width n = t ++ [c] ∧ c.isDigit = true := by
  have hdigits : ∃ t, formatInt width n = t ++ Nat.toDigits 10 n.natAbs := by
    unfold formatInt
    dsimp only
    cases n with
    | ofNat n =>
      split
      · exact ⟨_, if_neg (Int.not_lt.mpr (Int.natCast_nonneg n))⟩
      · exact ⟨_, rfl⟩
    | negSucc n =>
      split
      · exact ⟨'-' :: List.replicate _ '0', if_pos (by omega)⟩
      · exact ⟨List.replicate _ ' ' ++ ['-'], by rw [List.append_assoc]; rfl⟩
  obtain ⟨t, ht⟩ := hdigits
  have hne : Nat.toDigits 10 n.natAbs ≠ [] := Nat.toDigits_ne_nil
  refine ⟨t ++ (Nat.toDigits 10 n.natAbs).dropLast, (Nat.toDigits 10 n.natAbs).getLast hne, ?_,
    isDigit_toDigits (List.getLast_mem hne)⟩
  rw [ht, List.append_assoc, List.dropLast_append_getLast]

/-- The texts differ in a character, counted from their ends. -/
def Differ (s e : Str) : Prop := ∀ x y : Str, x ++ s ≠ y ++ e

theorem Differ.append (h : Differ s e) (t t' : Str) : Differ (t ++ s) (t' ++ e) := by
  intro x y heq
  rw [← List.append_assoc, ← List.append_assoc] at heq
  exact h _ _ heq

theorem differ_of_ne (h : c ≠ d) (t t' s : Str) : Differ (t ++ c :: s) (t' ++ d :: s) := by
  intro x y heq
  rw [← List.append_assoc, ← List.append_assoc, List.append_cons, List.append_cons _ d,
    List.append_cancel_right_eq] at heq
  have hlast := congrArg List.getLast? heq
  rw [List.getLast?_concat, List.getLast?_concat] at hlast
  exact h (Option.some.inj hlast)

/-- What `MakeFileName` makes of a format: `imindex` counts at least the indices. If it counts no more than these, either
the format is complete and the name is the right one, or the name is another one. -/
structure Verdict (imagename imagetype ip : Str) (n : Int) (r : Str × Int) : Prop where
  le : n + indices (pieces ip) ≤ r.2
  name : r.2 = n + indices (pieces ip) →
    (Complete ip ∧ FitsBuffers (pieces ip) n ∧ r.1 = expand imagename imagetype (pieces ip) n) ∨
      Differ r.1 (expand imagename imagetype (pieces ip) n)

/-- A piece in front of a format -/
theorem Verdict.prepend (hv : Verdict imagename imagetype ip' m r) (t : Str)
    (hcount : n + indices (pieces ip) = m + indices (pieces ip')) (hc : Complete ip' → Complete ip)
    (hf : FitsBuffers (pieces ip') m → FitsBuffers (pieces ip) n)
    (he : expand imagename imagetype (pieces ip) n = t ++ expand imagename imagetype (pieces ip') m) :
    Verdict imagename imagetype ip n (t ++ r.1, r.2) := by
  refine ⟨hcount ▸ hv.le, fun heq => ?_⟩
  rw [he]
  rcases hv.name (heq.trans hcount) with ⟨hcomplete, hfits, hname⟩ | hdiffer
  · exact .inl ⟨hc hcomplete, hf hfits, by rw [hname]⟩
  · exact .inr (hdiffer.append t t)

/-- Too many are counted. -/
theorem Verdict.of_lt (h : n + indices (pieces ip) < r.2) : Verdict imagename imagetype ip n r :=
  ⟨h.le, fun heq => absurd heq h.ne'⟩

/-- A character that is copied -/
theorem Verdict.text (hv : Verdict imagename imagetype ip n r) (hp : pieces (c :: ip) = .text c :: pieces ip)
    (hc : c = '%' → ∀ d b, ip = d :: b → d.isDigit = true → (indexSeq ip).isSome) :
    Verdict imagename imagetype (c :: ip) n (c :: r.1, r.2) := by
  refine hv.prepend [c] ?_ (fun h => complete_cons.mpr ⟨hc, h⟩) ?_ ?_
  · rw [hp]
    rfl
  · rw [hp]
    exact id
  · rw [hp]
    rfl

theorem Verdict.percentN (hv : Verdict imagename imagetype ip n r) :
    Verdict imagename imagetype ('%' :: 'N' :: ip) n (imagename ++ r.1, r.2) := by
  refine hv.prepend imagename ?_ (fun h => h.percent rfl (by decide)) ?_ ?_
  · rw [pieces_name]
    rfl
  · rw [pieces_name]
    exact id
  · rw [pieces_name]
    rfl

theorem Verdict.percentT (hv : Verdict imagename imagetype ip n r) :
    Verdict imagename imagetype ('%' :: 'T' :: ip) n (imagetype ++ r.1, r.2) := by
  refine hv.prepend imagetype ?_ (fun h => h.percent rfl (by decide)) ?_ ?_
  · rw [pieces_type]
    rfl
  · rw [pieces_type]
    exact id
  · rw [pieces_type]
    rfl

/-- An index -/
theorem Verdict.index (hv : Verdict imagename imagetype ip' (n + 1) r) (h : indexSeq ip = some (width, ip'))
    (hfmt : width.length + 3 ≤ szFmt) (hbuf : (formatInt width n).length < szFmt) :
    Verdict imagename imagetype ('%' :: ip) n (formatInt width n ++ r.1, r.2) := by
  refine hv.prepend _ ?_ (fun hc => hc.index h) ?_ ?_
  · rw [pieces_index h, indices]
    push_cast
    ring
  · rw [pieces_index h]
    exact fun hf => ⟨hfmt, hbuf, hf⟩
  · rw [pieces_index h]
    rfl

/-- A `%` that does not begin an index makes no more of them. -/
theorem indices_percent (h : indexSeq ip = none) : indices (pieces ('%' :: ip)) = indices (pieces ip) := by
  by_cases hN : ip.head? = some 'N'
  · obtain ⟨b, rfl⟩ := List.head?_eq_some_iff.mp hN
    rw [pieces_name, pieces_text (by decide)]
    rfl
  · by_cases hT : ip.head? = some 'T'
    · obtain ⟨b, rfl⟩ := List.head?_eq_some_iff.mp hT
      rw [pieces_type, pieces_text (by decide)]
      rfl
    · rw [pieces_percent hN hT h]
      rfl

/-- What is taken for an index and is none, if the character behind it does not begin one either -/
theorem Verdict.bad (hv : Verdict imagename imagetype ip' (n + 1) r) (h : indexSeq (width ++ conv :: ip') = none)
    (hw : '%' ∉ width) (hconv : conv = '%' → indexSeq ip' = none) (t : Str) :
    Verdict imagename imagetype ('%' :: (width ++ conv :: ip')) n (t ++ r.1, r.2) := by
  have htail : indices (pieces (conv :: ip')) = indices (pieces ip') := by
    by_cases hc : conv = '%'
    · rw [hc, indices_percent (hconv hc)]
    · rw [pieces_text hc]
      rfl
  have hle := hv.le
  refine .of_lt ?_
  rw [indices_percent h, pieces_append hw, indices_append, htail]
  dsimp only
  omega

/-- What is taken for an index takes the `%` of one. The index is not counted instead, and its conversion is copied. -/
theorem Verdict.swallow {width' : Str} (hv : Verdict imagename imagetype ip' (n + 1) r)
    (h : indexSeq (width ++ '%' :: ip) = none) (hN : (width ++ '%' :: ip).head? ≠ some 'N')
    (hT : (width ++ '%' :: ip).head? ≠ some 'T') (hw : '%' ∉ width)
    (hip : indexSeq ip = some (width', ip')) (hconv : conv.isDigit = false) (t : Str) :
    Verdict imagename imagetype ('%' :: (width ++ '%' :: ip)) n (t ++ (width' ++ conv :: r.1), r.2) := by
  have hpieces : pieces ('%' :: (width ++ '%' :: ip)) =
      ('%' :: width).map .text ++ (.index width' :: pieces ip') := by
    rw [pieces_percent hN hT h, pieces_append hw, pieces_index hip]
    rfl
  have hcount : indices (pieces ('%' :: (width ++ '%' :: ip))) = indices (pieces ip') + 1 := by
    rw [hpieces, indices_append, indices]
  have hle := hv.le
  refine ⟨?_, fun heq => .inr ?_⟩
  · rw [hcount]
    dsimp only
    omega
  · rw [hcount] at heq
    dsimp only at heq ⊢
    rw [hpieces, expand_append, expand]
    have hname := hv.name (by omega)
    obtain ⟨u, x, hu, hx⟩ := formatInt_eq_concat width' n
    have hne : conv ≠ x := by
      rintro rfl
      rw [hconv] at hx
      cases hx
    rcases hname with ⟨-, -, hname⟩ | hdiffer
    · rw [hname, hu, ← List.append_cons, ← List.append_assoc, ← List.append_assoc]
      exact differ_of_ne hne _ _ _
    · rw [List.append_cons, ← List.append_assoc, ← List.append_assoc, ← List.append_assoc]
      exact hdiffer.append _ _

/-- The digits of an index are all that is taken. -/
theorem takeWhile_indexSeq (h : indexSeq ip = some (width, ip')) :
    ∃ conv, ip.takeWhile isWidth = width ∧ ip.dropWhile isWidth = conv :: ip' ∧ (conv = 'I' ∨ conv = 'd') := by
  obtain ⟨conv, rfl, hw, hconv, -⟩ := indexSeq_eq_some h
  have hwidth : ∀ c ∈ width, isWidth c = true := by
    intro c hc
    rw [isWidth, hw c hc, Bool.true_or]
  have hstop : isWidth conv = false := by
    rcases hconv with rfl | rfl <;> rfl
  refine ⟨conv, ?_, ?_, hconv⟩
  · rw [List.takeWhile_append_of_pos hwidth, List.takeWhile_cons_of_neg (by simp [hstop]), List.append_nil]
  · rw [List.dropWhile_append_of_pos hwidth, List.dropWhile_cons_of_neg (by simp [hstop])]

/-- The text that the scan of an index stops at -/
theorem dropWhile_eq_cons (h : ip.dropWhile isWidth = conv :: ip') :
    ip = ip.takeWhile isWidth ++ conv :: ip' ∧ isWidth conv = false := by
  refine ⟨by rw [← h, List.takeWhile_append_dropWhile], ?_⟩
  have hne : ip.dropWhile isWidth ≠ [] := by
    rw [h]
    exact List.cons_ne_nil _ _
  have hhead := List.head_dropWhile_not (p := isWidth) hne
  simpa only [h, List.head_cons] using hhead

/-- What is taken for an index -/
theorem makeFileName_taken {sp : Str → Int → Option Str} (hd : d.isDigit = true ∨ d = 'I') (hnul : '\x00' ∉ d :: ip)
    (hr : makeFileName sp imagename imagetype ('%' :: (d :: ip ++ ['\x00'])) n = some r) :
    ∃ conv ip' buf r', (d :: ip).dropWhile isWidth = conv :: ip' ∧
      ((d :: ip).takeWhile isWidth).length + 3 ≤ szFmt ∧
      sp ('%' :: (d :: ip).takeWhile isWidth ++ (if conv = 'I' then ['d'] else [conv])) n = some buf ∧
      buf.length < szFmt ∧ makeFileName sp imagename imagetype (ip' ++ ['\x00']) (n + 1) = some r' ∧
      r = (buf ++ r'.1, r'.2) := by
  rw [List.cons_append, makeFileName_index hd, ← List.cons_append] at hr
  cases hdrop : (d :: ip).dropWhile isWidth with
  | nil =>
    -- the null is taken as the conversion
    have hall := List.dropWhile_eq_nil_iff.mp hdrop
    rw [List.dropWhile_append_of_pos hall, List.dropWhile_cons_of_neg (by decide)] at hr
    dsimp only at hr
    split at hr
    · cases hr
    · obtain ⟨buf, -, hr⟩ := Option.bind_eq_some_iff.mp hr
      split at hr
      · cases hr
      · rw [makeFileName] at hr
        cases hr
  | cons conv ip' =>
    obtain ⟨hsplit, hstop⟩ := dropWhile_eq_cons hdrop
    have hwidth : ∀ c ∈ (d :: ip).takeWhile isWidth, isWidth c = true := fun c hc => List.mem_takeWhile_imp hc
    have hconv : conv ≠ '\x00' := by
      rintro rfl
      rw [hsplit] at hnul
      exact hnul (List.mem_append_right _ List.mem_cons_self)
    have harray : d :: ip ++ ['\x00'] = (d :: ip).takeWhile isWidth ++ conv :: (ip' ++ ['\x00']) := by
      rw [← List.cons_append, ← List.append_assoc, ← hsplit]
    have hstop' : ¬ isWidth conv = true := by simp [hstop]
    have htake : (d :: ip ++ ['\x00']).takeWhile isWidth = (d :: ip).takeWhile isWidth := by
      rw [harray, List.takeWhile_append_of_pos hwidth, List.takeWhile_cons_of_neg hstop', List.append_nil]
    have hrest : (d :: ip ++ ['\x00']).dropWhile isWidth = conv :: (ip' ++ ['\x00']) := by
      rw [harray, List.dropWhile_append_of_pos hwidth, List.dropWhile_cons_of_neg hstop']
    rw [htake, hrest] at hr
    dsimp only at hr
    rw [if_neg hconv] at hr
    split at hr
    · cases hr
    · next hfmt =>
      obtain ⟨buf, hbuf, hr⟩ := Option.bind_eq_some_iff.mp hr
      split at hr
      · cases hr
      · next hlen =>
        obtain ⟨r', hr', rfl⟩ := Option.map_eq_some_iff.mp hr
        exact ⟨conv, ip', buf, r', rfl, by omega, hbuf, by omega, hr', rfl⟩

/-- Text without a `%` is copied. -/
theorem makeFileName_append {sp : Str → Int → Option Str} (hp : '%' ∉ t) (hnul : '\x00' ∉ t) :
    makeFileName sp imagename imagetype (t ++ ip ++ ['\x00']) n =
      (makeFileName sp imagename imagetype (ip ++ ['\x00']) n).map fun r => (t ++ r.1, r.2) := by
  induction t with
  | nil => simp
  | cons c t ih =>
    rw [List.mem_cons, not_or] at hp hnul
    rw [List.cons_append, List.cons_append, makeFileName_text (Ne.symm hnul.1) fun h => absurd h.symm hp.1,
      ih hp.2 hnul.2, Option.map_map]
    rfl

/-- An index, or what is taken for one -/
theorem verdict_taken (hd : d.isDigit = true ∨ d = 'I') (hnul : '\x00' ∉ d :: ip)
    (hr : makeFileName (sprintf other) imagename imagetype ('%' :: (d :: ip ++ ['\x00'])) n = some r)
    (ih : ∀ {ip' r'}, ip'.length < (d :: ip).length → '\x00' ∉ ip' →
      makeFileName (sprintf other) imagename imagetype (ip' ++ ['\x00']) (n + 1) = some r' →
      Verdict imagename imagetype ip' (n + 1) r') :
    Verdict imagename imagetype ('%' :: d :: ip) n r := by
  obtain ⟨conv, ip', buf, r', hdrop, hfmt, hbuf, hlen, hr', rfl⟩ := makeFileName_taken hd hnul hr
  obtain ⟨hsplit, -⟩ := dropWhile_eq_cons hdrop
  have hlt : ip'.length < (d :: ip).length := by
    have hle := (List.dropWhile_suffix (l := d :: ip) isWidth).length_le
    rw [hdrop, List.length_cons] at hle
    omega
  have hnul' : '\x00' ∉ ip' := by
    intro h
    rw [hsplit] at hnul
    exact hnul (List.mem_append_right _ (List.mem_cons_of_mem _ h))
  cases hseq : indexSeq (d :: ip) with
  | some seq =>
    obtain ⟨width, ip''⟩ := seq
    obtain ⟨conv', htake, hdrop', hconv⟩ := takeWhile_indexSeq hseq
    obtain ⟨-, -, hwidth, -⟩ := indexSeq_eq_some hseq
    rw [hdrop] at hdrop'
    obtain ⟨rfl, rfl⟩ := List.cons.inj hdrop'
    have hfmt' : (if conv = 'I' then ['d'] else [conv]) = ['d'] := by
      rcases hconv with rfl | rfl <;> rfl
    rw [htake] at hfmt hbuf
    rw [hfmt', sprintf_int hwidth] at hbuf
    cases hbuf
    exact (ih hlt hnul' hr').index hseq hfmt hlen
  | none =>
    have hN : (d :: ip).head? ≠ some 'N' := by
      rw [List.head?_cons]
      rintro ⟨⟩
      rcases hd with hd | hd <;> cases hd
    have hT : (d :: ip).head? ≠ some 'T' := by
      rw [List.head?_cons]
      rintro ⟨⟩
      rcases hd with hd | hd <;> cases hd
    rw [hsplit] at hseq hN hT ⊢
    by_cases hswallow : conv = '%' ∧ (indexSeq ip').isSome
    · -- the percent sign of an index is taken as the conversion
      obtain ⟨rfl, hsome⟩ := hswallow
      obtain ⟨⟨width', ip₂⟩, hseq'⟩ := Option.isSome_iff_exists.mp hsome
      obtain ⟨conv', rfl, hw', hconv', -⟩ := indexSeq_eq_some hseq'
      have hdigit : conv'.isDigit = false := by
        rcases hconv' with rfl | rfl <;> rfl
      have hpercent : '%' ∉ width' ++ [conv'] := by
        intro h
        rcases List.mem_append.mp h with h | h
        · exact absurd (hw' _ h) (by decide)
        · rw [List.mem_singleton] at h
          rcases hconv' with rfl | rfl <;> cases h
      have hnul₂ : '\x00' ∉ width' ++ [conv'] := by
        intro h
        rw [List.append_cons] at hnul'
        exact hnul' (List.mem_append_left _ h)
      rw [List.append_cons width', makeFileName_append hpercent hnul₂] at hr'
      obtain ⟨r₂, hr₂, rfl⟩ := Option.map_eq_some_iff.mp hr'
      have hv := ih (by simp at hlt ⊢; omega) (fun h => hnul' (List.mem_append_right _ (List.mem_cons_of_mem _ h))) hr₂
      have happ : width' ++ [conv'] ++ r₂.1 = width' ++ conv' :: r₂.1 := (List.append_cons _ _ _).symm
      dsimp only
      rw [happ]
      exact hv.swallow hseq hN hT percent_not_mem hseq' hdigit buf
    · refine (ih hlt hnul' hr').bad hseq percent_not_mem (fun hc => ?_) buf
      rw [not_and, Bool.not_eq_true, Option.isSome_eq_false_iff, Option.isNone_iff_eq_none] at hswallow
      exact hswallow hc

/-- Every name that is made -/
theorem verdict (hnul : '\x00' ∉ ip)
    (hr : makeFileName (sprintf other) imagename imagetype (ip ++ ['\x00']) n = some r) :
    Verdict imagename imagetype ip n r := by
  induction hlen : ip.length using Nat.strong_induction_on generalizing ip n r with
  | _ len ih =>
  subst hlen
  rcases format_cases ip with rfl | ⟨b, rfl⟩ | ⟨b, rfl⟩ | ⟨d, b, rfl, hd⟩ | ⟨c, b, rfl, hcopy⟩
  · rw [List.nil_append, makeFileName_nil] at hr
    cases hr
    exact ⟨by simp [pieces, indices], fun _ => .inl ⟨complete_nil, by simp [pieces, FitsBuffers], by simp [pieces, expand]⟩⟩
  · rw [List.cons_append, List.cons_append, makeFileName_name] at hr
    obtain ⟨r', hr', rfl⟩ := Option.map_eq_some_iff.mp hr
    exact (ih b.length (by simp only [List.length_cons]; omega) (fun h => hnul (by simp [h])) hr' rfl).percentN
  · rw [List.cons_append, List.cons_append, makeFileName_type] at hr
    obtain ⟨r', hr', rfl⟩ := Option.map_eq_some_iff.mp hr
    exact (ih b.length (by simp only [List.length_cons]; omega) (fun h => hnul (by simp [h])) hr' rfl).percentT
  · have hnul' : '\x00' ∉ d :: b := fun h => hnul (List.mem_cons_of_mem _ h)
    exact verdict_taken hd hnul' hr fun hlt hnul hr => ih _ (Nat.lt_trans hlt (Nat.lt_succ_self _)) hnul hr rfl
  · rw [List.cons_append, makeFileName_text (fun h => hnul (h ▸ List.mem_cons_self)) hcopy] at hr
    obtain ⟨r', hr', rfl⟩ := Option.map_eq_some_iff.mp hr
    have hv := ih b.length (Nat.lt_succ_self _) (fun h => hnul (List.mem_cons_of_mem _ h)) hr' rfl
    exact hv.text hcopy.pieces fun h d b' hb hd => absurd (.inl hd) (hcopy h d b' hb).2.2

/-- An index whose format and text fit -/
theorem makeFileName_indexSeq (h : indexSeq ip = some (width, ip')) (hfmt : width.length + 3 ≤ szFmt)
    (hbuf : (formatInt width n).length < szFmt) :
    makeFileName (sprintf other) imagename imagetype ('%' :: (ip ++ ['\x00'])) n =
      (makeFileName (sprintf other) imagename imagetype (ip' ++ ['\x00']) (n + 1)).map fun r =>
        (formatInt width n ++ r.1, r.2) := by
  obtain ⟨-, -, hwidth, -⟩ := indexSeq_eq_some h
  have happend := indexSeq_append h ['\x00']
  obtain ⟨conv, htake, hdrop, hconv⟩ := takeWhile_indexSeq happend
  have hfmt' : (if conv = 'I' then ['d'] else if conv = '\x00' then [] else [conv]) = ['d'] := by
    rcases hconv with rfl | rfl <;> rfl
  cases ip with
  | nil => cases h
  | cons d ip =>
    have hd : d.isDigit = true ∨ d = 'I' := by
      by_contra hd
      rw [indexSeq_eq_none hd] at h
      cases h
    rw [List.cons_append] at htake hdrop
    rw [List.cons_append, makeFileName_index hd]
    rw [hdrop, htake]
    dsimp only
    rw [hfmt', if_neg (by omega), sprintf_int hwidth, Option.bind_some, if_neg (by omega)]

/-- The name of a complete format -/
theorem makeFileName_of_complete (hnul : '\x00' ∉ ip) (hc : Complete ip) (hf : FitsBuffers (pieces ip) n) :
    makeFileName (sprintf other) imagename imagetype (ip ++ ['\x00']) n =
      some (expand imagename imagetype (pieces ip) n, n + indices (pieces ip)) := by
  induction hlen : ip.length using Nat.strong_induction_on generalizing ip n with
  | _ len ih =>
  subst hlen
  rcases format_cases ip with rfl | ⟨b, rfl⟩ | ⟨b, rfl⟩ | ⟨d, b, rfl, hd⟩ | ⟨c, b, rfl, hcopy⟩
  · simp [makeFileName_nil, pieces, expand, indices]
  · rw [pieces_name] at hf ⊢
    rw [List.cons_append, List.cons_append, makeFileName_name,
      ih b.length (by simp only [List.length_cons]; omega) (fun h => hnul (by simp [h])) (hc.suffix ⟨['%', 'N'], rfl⟩)
        hf rfl]
    rfl
  · rw [pieces_type] at hf ⊢
    rw [List.cons_append, List.cons_append, makeFileName_type,
      ih b.length (by simp only [List.length_cons]; omega) (fun h => hnul (by simp [h])) (hc.suffix ⟨['%', 'T'], rfl⟩)
        hf rfl]
    rfl
  · have hsome : (indexSeq (d :: b)).isSome := by
      rcases hd with hd | rfl
      · exact hc d b List.suffix_rfl hd
      · rfl
    obtain ⟨⟨width, ip'⟩, hseq⟩ := Option.isSome_iff_exists.mp hsome
    obtain ⟨conv, hip, -⟩ := indexSeq_eq_some hseq
    have hlt := length_indexSeq hseq
    have hsuffix : ip' <:+ '%' :: d :: b := by
      rw [hip, List.append_cons]
      exact (List.suffix_append _ _).trans (List.suffix_cons _ _)
    rw [pieces_index hseq] at hf ⊢
    obtain ⟨hfmt, hbuf, hf'⟩ := hf
    rw [List.cons_append, makeFileName_indexSeq hseq hfmt hbuf,
      ih ip'.length (by simp at hlt ⊢; omega) (fun h => hnul (hsuffix.mem h)) (hc.suffix hsuffix) hf' rfl,
      Option.map_some, indices, expand]
    dsimp only
    congr 2
    push_cast
    ring
  · rw [hcopy.pieces] at hf ⊢
    rw [List.cons_append, makeFileName_text (fun h => hnul (h ▸ List.mem_cons_self)) hcopy,
      ih b.length (Nat.lt_succ_self _) (fun h => hnul (List.mem_cons_of_mem _ h)) (hc.suffix (List.suffix_cons _ _)) hf rfl]
    rfl

/-- The name is the one that the pieces make, and `imindex` has counted the indices. -/
def Generates (other : Str → Int → Option Str) (imformat imagename imagetype : Str) (imindex : Int) : Prop :=
  fileName other imformat imagename imagetype imindex =
    some (expand imagename imagetype (pieces imformat) imindex, imindex + indices (pieces imformat))

theorem Generates.complete (hnul : '\x00' ∉ imformat) (h : Generates other imformat imagename imagetype n) :
    Complete imformat ∧ FitsBuffers (pieces imformat) n := by
  obtain ⟨r, hr, h⟩ := Option.bind_eq_some_iff.mp h
  split at h
  · cases h
    rcases (verdict hnul hr).name rfl with ⟨hc, hf, -⟩ | hdiffer
    · exact ⟨hc, hf⟩
    · exact absurd rfl (hdiffer [] [])
  · cases h

/-- For every format, name, type and index: the name is the one of the pieces, and each index is counted, just when every
`%` that is followed by a digit is one of an index, and the formats, the indices, the name and the next `imindex` fit
where they are put. -/
theorem fileName_iff (hnul : '\x00' ∉ imformat) :
    Generates other imformat imagename imagetype n ↔
      Complete imformat ∧ FitsBuffers (pieces imformat) n ∧
        (expand imagename imagetype (pieces imformat) n).length < szPathname ∧
        n + indices (pieces imformat) < 2 ^ 31 := by
  constructor
  · intro h
    obtain ⟨hc, hf⟩ := h.complete hnul
    refine ⟨hc, hf, ?_⟩
    rw [Generates, fileName, makeFileName_of_complete hnul hc hf, Option.bind_some] at h
    split at h
    · next hfits => exact hfits
    · cases h
  · rintro ⟨hc, hf, hfits⟩
    rw [Generates, fileName, makeFileName_of_complete hnul hc hf, Option.bind_some, if_pos hfits]

/-- The default format, where `sprintf` has no other conversion -/
theorem fileName_default :
    Generates (fun _ _ => none) ['%', 'T', '%', '0', '4', 'I', '.', 'f', 'i', 't', 's'] ['m'] ['o', 'b', 'j'] 7 := by
  have hseq : indexSeq ['0', '4', 'I', '.', 'f', 'i', 't', 's'] = some (['0', '4'], ['.', 'f', 'i', 't', 's']) := by
    decide
  have hpieces : pieces ['%', 'T', '%', '0', '4', 'I', '.', 'f', 'i', 't', 's'] =
      .type :: .index ['0', '4'] :: ['.', 'f', 'i', 't', 's'].map .text := by
    have htext : pieces (['.', 'f', 'i', 't', 's'] ++ []) = _ := pieces_append (by decide)
    rw [pieces, List.append_nil] at htext
    rw [pieces_type, pieces_index hseq]
    exact congrArg _ (congrArg _ htext)
  refine (fileName_iff (by decide)).mpr ⟨?_, ?_, ?_, ?_⟩
  · have htext : Complete (['.', 'f', 'i', 't', 's'] ++ []) := (complete_append (by decide)).mpr complete_nil
    rw [List.append_nil] at htext
    have hindex := htext.index hseq
    refine complete_cons.mpr ⟨fun _ d b hb hd => ?_, complete_cons.mpr ⟨fun h => absurd h (by decide), hindex⟩⟩
    cases hb
    cases hd
  · rw [hpieces]
    exact ⟨by decide, by decide, trivial⟩
  · rw [hpieces]
    decide
  · rw [hpieces]
    decide

/-- The digits at the end are taken, and the null with them. -/
theorem fileName_not :
    ¬ ∀ (other : Str → Int → Option Str) (imformat imagename imagetype : Str) (imindex : Int), '\x00' ∉ imformat →
      Generates other imformat imagename imagetype imindex := by
  intro h
  have hnul : '\x00' ∉ ['%', '0', '3'] := by decide
  obtain ⟨hc, -⟩ := (h (fun _ _ => none) _ [] [] 1 hnul).complete hnul
  exact absurd (hc '0' ['3'] List.suffix_rfl rfl) (by decide)

end Name

end Ndhs.Mosdca
