import Ndhs.Lib.Buffer
import Ndhs.Pxf.MetaData

/-!
# The fields of a metadata card (`procDCAMoveStr`)

`Pxf/MetaData.lean` has the text that `procDCAMoveStr` gives. Here is what it does in its buffer: the field is copied to
`buf`, nulls are written over the blanks and quotes at its end, and those at its start are skipped.

* A function gives `none` where the source reads or writes outside `buf`.
* `Stripped`: the text without the blanks and quotes at both ends. `stripped_iff`: there is only one.
* `trimEnd_ofText`: trimming starts at the last character, so it needs one. `procDCAMoveStr_eq`: then the result is the
  text of `Pxf/MetaData.lean`.
* `moveStr_iff`: a field is moved as it should be exactly if it does not start with a null.
-/

namespace Ndhs.Pxf

open Text Buffer Function Kwdb

namespace MoveStr

/-- `SZ_AVP_BUF` -/
def szAvpBuf : Nat := 128

/-- `buf[i]` -/
def byteAt (buf : Buf) (i : Nat) : Option Char := if i < szAvpBuf then some (buf i) else none

/-- A zeroed buffer with a text in front -/
def ofText (s : Str) : Buf := fun i => s.getD i '\x00'

/-- The loop that trims trailing space, from the index `i` on: the buffer, and the index where it ends. The last
comparison is `i > 0`. -/
def trimLoop : Nat → Buf → Option (Buf × Nat)
  | 0, buf => some (buf, 0)
  | i + 1, buf =>
    (byteAt buf (i + 1)).bind fun c =>
      if isTrim c then trimLoop i (update buf (i + 1) '\x00') else some (buf, i + 1)

/-- Trim trailing space, from the index `i` on. -/
def trimEnd (buf : Buf) : Int → Option Buf
  | .ofNat i =>
    (trimLoop i buf).bind fun (buf, i) =>
      (byteAt buf i).map fun c => if isTrim c then update buf i '\x00' else buf
  -- the byte in front of the buffer is read
  | .negSucc _ => none

/-- The loop that skips leading space, with `n` rounds to go: the index where it ends. -/
def skipLoop (buf : Buf) : Nat → Nat → Option Nat
  | 0, ip => (byteAt buf ip).map fun _ => ip
  | n + 1, ip => (byteAt buf ip).bind fun c => if isTrim c then skipLoop buf n (ip + 1) else some ip

/-- `procDCAMoveStr` of the first `len` bytes -/
def procDCAMoveStr (instr : Str) (len : Nat) : Option Str :=
  if len ≤ szAvpBuf then do
    let buf := ofText (instr.take len)
    let buf ← trimEnd buf ((strAt szAvpBuf buf 0).length - 1)
    let ip ← skipLoop buf len 0
    return strAt szAvpBuf buf ip
  else none

end MoveStr

/-! ## What is wanted -/

/-- `t` is `s` without the blanks and quotes at both ends. -/
structure Stripped (s t : Str) : Prop where
  parts : ∃ front back, s = front ++ t ++ back ∧ (∀ c ∈ front, isTrim c = true) ∧ ∀ c ∈ back, isTrim c = true
  head : ∀ c ∈ t.head?, isTrim c = false
  last : ∀ c ∈ t.getLast?, isTrim c = false

/-- The field is moved: the result is its text up to the first null, stripped. -/
def Moved (field : Str) : Prop :=
  ∃ t, MoveStr.procDCAMoveStr field field.length = some t ∧ Stripped (upToNull field) t

section Stripped

variable {s t : Str}

theorem dropWhile_rdropWhile_of (hhead : ∀ c ∈ t.head?, isTrim c = false) (hlast : ∀ c ∈ t.getLast?, isTrim c = false) :
    (t.rdropWhile isTrim).dropWhile isTrim = t := by
  have hback : t.rdropWhile isTrim = t := by
    refine List.rdropWhile_eq_self_iff.mpr fun hne => ?_
    rw [hlast _ (List.getLast?_eq_some_getLast hne)]
    exact Bool.false_ne_true
  rw [hback]
  cases t with
  | nil => rfl
  | cons c t =>
    rw [List.dropWhile_cons_of_neg]
    rw [hhead c rfl]
    exact Bool.false_ne_true

/-- Blanks and quotes in front, and trailing ones -/
theorem strip_parts {front back : Str} (hfront : ∀ c ∈ front, isTrim c = true) (hback : ∀ c ∈ back, isTrim c = true)
    (hlast : ∀ c ∈ t.getLast?, isTrim c = false) :
    ((front ++ t ++ back).rdropWhile isTrim).dropWhile isTrim = (t.rdropWhile isTrim).dropWhile isTrim := by
  have hrev : (front ++ t ++ back).rdropWhile isTrim = (front ++ t).rdropWhile isTrim := by
    rw [List.rdropWhile, List.reverse_append, List.dropWhile_append_of_pos (by simpa using hback)]
    rfl
  rw [hrev]
  rcases List.eq_nil_or_concat t with rfl | ⟨t, c, rfl⟩
  · rw [List.append_nil]
    have hnil : front.rdropWhile isTrim = [] := List.rdropWhile_eq_nil_iff.mpr hfront
    rw [hnil]
    rfl
  · rw [List.concat_eq_append] at hlast ⊢
    have hc : ¬ isTrim c = true := by
      rw [hlast c (by simp)]
      exact Bool.false_ne_true
    rw [← List.append_assoc, List.rdropWhile_concat_neg _ _ _ hc, List.rdropWhile_concat_neg _ _ _ hc, List.append_assoc,
      List.dropWhile_append_of_pos hfront]

/-- There is one such text. -/
theorem stripped_iff : Stripped s t ↔ (s.rdropWhile isTrim).dropWhile isTrim = t := by
  constructor
  · rintro ⟨⟨front, back, rfl, hfront, hback⟩, hhead, hlast⟩
    rw [strip_parts hfront hback hlast]
    exact dropWhile_rdropWhile_of hhead hlast
  · rintro rfl
    have hback := List.rdropWhile_append_rtakeWhile (p := isTrim) (l := s)
    have hfront := List.takeWhile_append_dropWhile (p := isTrim) (l := s.rdropWhile isTrim)
    refine ⟨⟨(s.rdropWhile isTrim).takeWhile isTrim, s.rtakeWhile isTrim, ?_, fun c => List.mem_takeWhile_imp,
      fun c => List.mem_rtakeWhile_imp⟩, fun c hc => ?_, fun c hc => ?_⟩
    · rw [hfront, hback]
    · have hnot := List.head?_dropWhile_not isTrim (s.rdropWhile isTrim)
      rw [hc] at hnot
      exact hnot
    · have hne : (s.rdropWhile isTrim).dropWhile isTrim ≠ [] := by
        intro h0
        rw [h0] at hc
        cases hc
      have hsuffix : (s.rdropWhile isTrim).dropWhile isTrim <:+ s.rdropWhile isTrim := List.dropWhile_suffix _
      have hne' : s.rdropWhile isTrim ≠ [] := fun h0 => hne (by rw [h0]; rfl)
      rw [List.getLast?_eq_some_getLast hne, hsuffix.getLast hne, Option.mem_def, Option.some.injEq] at hc
      subst hc
      exact Bool.eq_false_iff.mpr (List.rdropWhile_last_not isTrim s hne')

end Stripped

/-! ## In the buffer -/

namespace MoveStr

variable {b : Buf} {s : Str} {c : Char} {n k : Nat}

/-- The text in the buffer ends at its first null. -/
theorem holds_ofText (s : Str) : Holds (ofText s) 0 (upToNull s) := by
  intro k hk
  have happend := List.takeWhile_append_dropWhile (p := (· != '\x00')) (l := s)
  have hnull := List.head?_dropWhile_not (· != '\x00') s
  rw [Nat.zero_add, ofText, upToNull] at *
  generalize s.takeWhile (· != '\x00') = t at *
  generalize s.dropWhile (· != '\x00') = d at *
  subst happend
  rcases Nat.lt_or_eq_of_le hk with hk | rfl
  · rw [List.getD_append _ _ _ _ hk]
  · rw [List.getD_append_right _ _ _ _ le_rfl, Nat.sub_self, List.getD_eq_default t _ le_rfl]
    cases d with
    | nil => rfl
    | cons c d => simpa using hnull

theorem byteAt_of_lt (h : k < szAvpBuf) : byteAt b k = some (b k) := if_pos h

/-- A null over the last character -/
theorem holds_update_last (h : Holds b 0 (s ++ [c])) : Holds (update b s.length '\x00') 0 s := by
  intro k hk
  rw [Nat.zero_add]
  rcases Nat.lt_or_eq_of_le hk with hk | rfl
  · have hb := h k (by rw [List.length_append]; omega)
    rw [Nat.zero_add, List.getD_append _ _ _ _ hk] at hb
    rw [update_of_ne (Nat.ne_of_lt hk), hb]
  · rw [update_self, List.getD_eq_default _ _ le_rfl]

theorem holds_last (h : Holds b 0 (s ++ [c])) : b s.length = c := by
  have hb := h s.length (by rw [List.length_append]; omega)
  rwa [Nat.zero_add, List.getD_append_right _ _ _ _ le_rfl, Nat.sub_self] at hb

/-- Trimming from the last character of the text -/
theorem trimEnd_holds (h : Holds b 0 (s ++ [c])) (hlen : s.length < szAvpBuf) :
    ∃ b', trimEnd b s.length = some b' ∧ Holds b' 0 ((s ++ [c]).rdropWhile isTrim) := by
  induction s using List.reverseRecOn generalizing b c with
  | nil =>
    have hbyte : byteAt b 0 = some c := by
      rw [← holds_last h]
      exact byteAt_of_lt hlen
    refine ⟨if isTrim c then update b 0 '\x00' else b, ?_, ?_⟩
    · show ((byteAt b 0).map fun c => if isTrim c then update b 0 '\x00' else b) = _
      rw [hbyte, Option.map_some]
    · by_cases hc : isTrim c = true
      · rw [if_pos hc, List.rdropWhile_concat_pos _ _ _ hc]
        exact holds_update_last h
      · rw [if_neg hc, List.rdropWhile_concat_neg _ _ _ hc]
        exact h
  | append_singleton s d ih =>
    rw [List.length_append, List.length_singleton] at hlen ⊢
    have hlast : b (s.length + 1) = c := by simpa using holds_last h
    have hbyte : byteAt b (s.length + 1) = some c := by rw [byteAt_of_lt hlen, hlast]
    show ∃ b', (trimLoop (s.length + 1) b).bind _ = some b' ∧ _
    rw [trimLoop, hbyte, Option.bind_some]
    by_cases hc : isTrim c = true
    · rw [if_pos hc, List.rdropWhile_concat_pos _ _ _ hc]
      have hd := holds_update_last h
      rw [List.length_append, List.length_singleton] at hd
      exact ih hd (by omega)
    · rw [if_neg hc, List.rdropWhile_concat_neg _ _ _ hc, Option.bind_some]
      dsimp only
      rw [hbyte, Option.map_some, if_neg hc]
      exact ⟨b, rfl, h⟩

/-- The rest of a text -/
theorem holds_drop (h : Holds b 0 s) (hk : k ≤ s.length) : Holds b k (s.drop k) := by
  intro j hj
  rw [List.length_drop] at hj
  have hb := h (k + j) (by omega)
  rw [Nat.zero_add] at hb
  rw [hb, List.getD_eq_getElem?_getD, List.getD_eq_getElem?_getD, List.getElem?_drop]

/-- The blanks in front of the rest of the text are skipped. -/
theorem skipLoop_holds (h : Holds b 0 s) (hk : k ≤ s.length) (hn : s.length ≤ k + n) (hlen : s.length < szAvpBuf) :
    ∃ j ≤ s.length, skipLoop b n k = some j ∧ s.drop j = (s.drop k).dropWhile isTrim := by
  have hbyte : byteAt b k = some (s.getD k '\x00') := by
    have hb := h k hk
    rw [Nat.zero_add] at hb
    rw [byteAt_of_lt (by omega), hb]
  induction n generalizing k with
  | zero =>
    obtain rfl : k = s.length := by omega
    exact ⟨s.length, le_rfl, by rw [skipLoop, hbyte]; rfl, by rw [List.drop_length]; rfl⟩
  | succ n ih =>
    rw [skipLoop, hbyte, Option.bind_some]
    rcases Nat.lt_or_eq_of_le hk with hlt | rfl
    · rw [List.getD_eq_getElem _ _ hlt, List.drop_eq_getElem_cons hlt]
      by_cases hc : isTrim s[k] = true
      · rw [if_pos hc, List.dropWhile_cons_of_pos hc]
        refine ih hlt (by omega) ?_
        have hb := h (k + 1) hlt
        rw [Nat.zero_add] at hb
        rw [byteAt_of_lt (by omega), hb]
      · rw [if_neg hc, List.dropWhile_cons_of_neg hc]
        exact ⟨k, hk, rfl, List.drop_eq_getElem_cons hlt⟩
    · rw [List.getD_eq_default _ _ le_rfl, if_neg (by decide), List.drop_length]
      exact ⟨s.length, le_rfl, rfl, List.drop_length⟩

variable {field : Str}

/-- A field that does not start with a null -/
theorem procDCAMoveStr_eq (hlen : field.length < szAvpBuf) (hhead : field.head? ≠ some '\x00') (hne : field ≠ []) :
    procDCAMoveStr field field.length = some (Pxf.procDCAMoveStr field field.length) := by
  obtain ⟨c, field, rfl⟩ := List.exists_cons_of_ne_nil hne
  have hc : (c != '\x00') = true := bne_iff_ne.mpr fun h0 => hhead (by rw [h0, List.head?_cons])
  have hholds := holds_ofText (c :: field)
  have hnull : '\x00' ∉ upToNull (c :: field) := noNull_upToNull _
  have hle : (upToNull (c :: field)).length ≤ (c :: field).length := length_upToNull_le _
  obtain ⟨s, d, hs⟩ : ∃ s d, upToNull (c :: field) = s ++ [d] := by
    have hne' : upToNull (c :: field) ≠ [] := by
      rw [upToNull, List.takeWhile_cons_of_pos (p := (· != '\x00')) hc]
      exact List.cons_ne_nil _ _
    exact ⟨_, _, (List.dropLast_concat_getLast hne').symm⟩
  rw [procDCAMoveStr, Pxf.procDCAMoveStr, List.take_length, if_pos hlen.le]
  dsimp only
  rw [hholds.strAt hnull (by omega)]
  rw [hs] at hholds hle hnull ⊢
  rw [List.length_append, List.length_singleton] at hle
  have hindex : (((s ++ [d]).length : Nat) : Int) - 1 = s.length := by
    rw [List.length_append, List.length_singleton]
    omega
  obtain ⟨b, hb, ht⟩ := trimEnd_holds hholds (by omega)
  have hpre := List.rdropWhile_prefix isTrim (l := s ++ [d])
  have hlen' : ((s ++ [d]).rdropWhile isTrim).length ≤ (c :: field).length := by
    have := hpre.length_le
    rw [List.length_append, List.length_singleton] at this
    omega
  obtain ⟨j, hj, hskip, hdrop⟩ := skipLoop_holds ht (Nat.zero_le _) (n := (c :: field).length) (by omega) (by omega)
  rw [List.drop_zero] at hdrop
  have hrest := holds_drop ht hj
  rw [hdrop] at hrest
  have hmem : '\x00' ∉ ((s ++ [d]).rdropWhile isTrim).dropWhile isTrim := fun h0 =>
    hnull (hpre.mem ((List.dropWhile_suffix _).mem h0))
  rw [hindex, hb, Option.bind_eq_bind, Option.bind_some, hskip, Option.bind_eq_bind, Option.bind_some,
    hrest.strAt hmem ?_]
  · rfl
  · rw [← hdrop, List.length_drop]
    omega

/-- A field that starts with a null: the byte in front of the buffer is read. -/
theorem procDCAMoveStr_null (hhead : field.head? = some '\x00') : procDCAMoveStr field field.length = none := by
  obtain ⟨field, rfl⟩ : ∃ l, field = '\x00' :: l := List.head?_eq_some_iff.mp hhead
  have hholds := holds_ofText ('\x00' :: field)
  have hnil : upToNull ('\x00' :: field) = [] := rfl
  rw [hnil] at hholds
  unfold procDCAMoveStr
  split
  · rw [List.take_length]
    dsimp only
    rw [hholds.strAt List.not_mem_nil (by decide : 0 + 0 < szAvpBuf)]
    rfl
  · rfl

end MoveStr

/-- A field is moved as it should be exactly if it does not start with a null. -/
theorem moveStr_iff (field : Str) (h : field.length = 32 ∨ field.length = 64) :
    Moved field ↔ field.head? ≠ some '\x00' := by
  have hlen : field.length < MoveStr.szAvpBuf := by
    rw [MoveStr.szAvpBuf]
    omega
  constructor
  · rintro ⟨t, ht, -⟩ hhead
    rw [MoveStr.procDCAMoveStr_null hhead] at ht
    cases ht
  · intro hhead
    have hne : field ≠ [] := by
      rintro rfl
      simp at h
    refine ⟨_, MoveStr.procDCAMoveStr_eq hlen hhead hne, stripped_iff.mpr ?_⟩
    rw [Pxf.procDCAMoveStr, List.take_length]

/-- A value in quotes, and blanks behind it -/
theorem moveStr_quoted :
    Moved (['\'', 'K', ' ', 'P', '\''] ++ List.replicate 27 ' ') :=
  (moveStr_iff _ (.inl rfl)).mpr (by decide)

/-- An empty field -/
theorem moveStr_not : ¬ Moved (List.replicate 32 '\x00') := by
  rintro ⟨t, ht, -⟩
  rw [MoveStr.procDCAMoveStr_null rfl] at ht
  cases ht

end Ndhs.Pxf
