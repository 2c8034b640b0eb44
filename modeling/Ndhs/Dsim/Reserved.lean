import Ndhs.Dsim.ReadHeader

/-!
# Reserved keywords in a header

`dsim_WriteHeader` looks up each reserved keyword of a header in the keyword database, and deletes the entry that is
found:

    for (ep=kwdb_Head(rskw);  ep;  ep=kwdb_Next(rskw,ep))
        if (xp = kwdb_Lookup (kwdb, kwdb_KWName(rskw,ep), 0))
            kwdb_DeleteEntry (kwdb, xp);

One entry is deleted for each reserved card that `dsim_ReadHeader` gives, and it is looked for under its whole name, of
which a card has the first eight characters.

* `putHeader`: `dsim_WriteHeader`, with the entries that it gives to `ds_write` (`putHeader_eq`).
* `reserved_iff`: in every environment these have no reserved names exactly if each entry that is printed under a
  reserved name has no more namesakes in the database than there are cards with its name among the reserved cards that
  are read, unless what is left does not fit.
-/

namespace Ndhs.Dsim

open Kwdb Text Function

/-! ## Names up to the letter case -/

section Names

variable {s t : Str} {c d : Char}

/-- `tolower` changes capital letters only. -/
theorem toLower_cases (c : Char) :
    (65 ≤ c.toNat ∧ c.toNat ≤ 90 ∧ c.toLower.toNat = c.toNat + 32) ∨ c.toLower = c := by
  unfold Char.toLower
  split
  · next hu =>
    have hge : 65 ≤ c.val.toNat := UInt32.le_iff_toNat_le.mp hu.1
    have hle : c.val.toNat ≤ 90 := UInt32.le_iff_toNat_le.mp hu.2
    refine .inl ⟨hge, hle, ?_⟩
    change (c.val + 32).toNat = c.val.toNat + 32
    rw [UInt32.toNat_add]
    exact Nat.mod_eq_of_lt (by change c.val.toNat + 32 < 4294967296; omega)
  · exact .inr rfl

theorem isPrint_toLower (c : Char) : isPrint c.toLower = isPrint c := by
  rcases toLower_cases c with ⟨hge, hle, h⟩ | h
  · have hp : ∀ d : Char, 65 ≤ d.toNat → d.toNat ≤ 122 → isPrint d = true := fun d h₁ h₂ => by
      simp [isPrint]
      omega
    rw [hp c hge (by omega), hp c.toLower (by omega) (by omega)]
  · rw [h]

theorem bne_blank_toLower (c : Char) : (c.toLower != ' ') = (c != ' ') := by
  rcases toLower_cases c with ⟨hge, hle, h⟩ | h
  · have hne : ∀ d : Char, 65 ≤ d.toNat → (d != ' ') = true := fun d hd => by
      refine bne_iff_ne.mpr ?_
      rintro rfl
      exact absurd hd (by decide)
    rw [hne c hge, hne c.toLower (by omega)]
  · rw [h]

theorem streq_iff : streq s t = true ↔ s.map Char.toLower = t.map Char.toLower := beq_iff_eq

theorem streq_trans {u : Str} (h : streq s t = true) (h' : streq t u = true) : streq s u = true :=
  streq_iff.mpr ((streq_iff.mp h).trans (streq_iff.mp h'))

theorem streq_symm (h : streq s t = true) : streq t s = true := streq_iff.mpr (streq_iff.mp h).symm

theorem streq_nil_iff : streq s [] = true ↔ s = [] := by
  rw [streq_iff]
  simp

/-- The name that is printed for an entry: the first eight characters, up to a blank. -/
def printedName (keyword : Str) : Str := ((keyword.take 8).filter isPrint).takeWhile (· != ' ')

theorem prefix_padTo (n : Nat) (out : Str) : out <+: padTo n out := List.prefix_append _ _

theorem prefix_copyPrintable (out v : Str) : out <+: copyPrintable out v := by
  induction v generalizing out with
  | nil => exact List.prefix_rfl
  | cons ch v ih =>
    rw [copyPrintable]
    split
    · refine List.IsPrefix.trans ?_ (ih _)
      split
      · exact List.prefix_append _ _
      · exact List.prefix_rfl
    · exact List.prefix_rfl

theorem prefix_copyText (out v : Str) : out <+: copyText out v := by
  induction v generalizing out with
  | nil => exact List.prefix_rfl
  | cons ch v ih =>
    rw [copyText]
    split
    · exact (List.prefix_append _ _).trans (ih _)
    · exact List.prefix_rfl

theorem prefix_putComment (out comment : Str) : out <+: putComment out comment := by
  unfold putComment
  split
  · exact (List.prefix_append _ _).trans (prefix_copyPrintable _ _)
  · exact List.prefix_rfl

/-- The first eight characters of a card. -/
theorem take_formatCard (keyword value type comment : Str) :
    (formatCard keyword value type comment).take 8 = padTo 8 ((keyword.take 8).filter isPrint) := by
  have hlen : (padTo 8 ((keyword.take 8).filter isPrint)).length = 8 := by
    have hf := List.length_filter_le isPrint (keyword.take 8)
    have ht := List.length_take_le 8 keyword
    rw [padTo_length]
    omega
  unfold formatCard
  dsimp only
  generalize padTo 8 ((keyword.take 8).filter isPrint) = field at hlen ⊢
  have hout : ∀ out, field <+: out → ((padTo 80 out).take 80).take 8 = field := by
    intro out h
    rw [List.take_take, show min 8 80 = 8 by decide, ← hlen]
    exact (List.prefix_iff_eq_take.mp (h.trans (prefix_padTo 80 out))).symm
  split
  · refine hout _ (List.IsPrefix.trans ?_ (prefix_putComment _ _))
    refine List.IsPrefix.trans ?_ (prefix_padTo 30 _)
    refine List.IsPrefix.trans ?_ (List.prefix_append _ _)
    refine List.IsPrefix.trans ?_ (prefix_padTo 19 _)
    exact (List.prefix_append _ _).trans (prefix_copyPrintable _ _)
  · split
    · refine hout _ (List.IsPrefix.trans ?_ (prefix_putComment _ _))
      refine List.IsPrefix.trans ?_ (prefix_copyPrintable _ _)
      exact (List.prefix_append _ _).trans (List.prefix_append _ _)
    · exact hout _ (prefix_copyText _ _)

theorem takeWhile_append_blanks (s : Str) (n : Nat) :
    (s ++ List.replicate n ' ').takeWhile (· != ' ') = s.takeWhile (· != ' ') := by
  induction s with
  | nil => cases n <;> rfl
  | cons ch s ih =>
    rw [List.cons_append, List.takeWhile_cons, List.takeWhile_cons, ih]

/-- The card of an entry is read back under this name. -/
theorem readKeyword_format (c : Card) : readKeyword c.format = printedName c.keyword := by
  have hp : (padTo 8 ((c.keyword.take 8).filter isPrint)).all isPrint = true := by
    rw [padTo, List.all_append, List.all_replicate]
    simp [show isPrint ' ' = true from rfl]
  rw [readKeyword, Card.format, take_formatCard, if_pos hp, padTo, takeWhile_append_blanks, printedName]

theorem printedName_map (s : Str) : (printedName s).map Char.toLower = printedName (s.map Char.toLower) := by
  have hp : isPrint ∘ Char.toLower = isPrint := funext isPrint_toLower
  have hb : (· != ' ') ∘ Char.toLower = (· != ' ') := funext bne_blank_toLower
  unfold printedName
  rw [← List.map_take, List.filter_map, List.takeWhile_map, hp, hb]

theorem streq_printedName (h : streq s t = true) : streq (printedName s) (printedName t) = true := by
  rw [streq_iff, printedName_map, printedName_map, streq_iff.mp h]

end Names

/-! ## Counting the entries with a name -/

/-- The entry has the name, in any letter case. -/
def hasName (name : Str) (c : Card) : Bool := c.keyword != [] && streq c.keyword name

/-- The entries `E'` are `E` without one that has the name, if there is any. -/
def OneLess (name : Str) (E E' : List Card) : Prop :=
  (∀ c ∈ E, hasName name c = false) ∧ E' = E ∨
    ∃ E₁ c E₂, hasName name c = true ∧ E = E₁ ++ c :: E₂ ∧ E' = E₁ ++ E₂

/-- The entries without the most recent one with each of the names -/
def leftOver (names : List Str) (E : List Card) : List Card :=
  names.foldl (fun E name => deleteLatest name E) E

section Count

variable {E E' : List Card} {L L' : List Entry} {n : Str} {c : Card} {ks : List Str}

theorem hasName_iff {k : Str} : hasName k c = true ↔ c.keyword ≠ [] ∧ streq c.keyword k = true := by
  simp [hasName]

/-- An entry with the name `n` has exactly the names that `n` equals. -/
theorem hasName_eq (hc : hasName n c = true) (k : Str) : hasName k c = streq n k := by
  obtain ⟨hne, hs⟩ := hasName_iff.mp hc
  rw [Bool.eq_iff_iff, hasName_iff]
  exact ⟨fun h => streq_trans (streq_symm hs) h.2, fun h => ⟨hne, streq_trans hs h⟩⟩

theorem OneLess.countP (h : OneLess n E E') (k : Str) :
    E'.countP (hasName k) = E.countP (hasName k) - if streq n k = true then 1 else 0 := by
  rcases h with ⟨hnone, rfl⟩ | ⟨E₁, c, E₂, hc, rfl, rfl⟩
  · split
    · next hs =>
      have hzero : E'.countP (hasName k) = 0 := by
        refine List.countP_eq_zero.mpr fun c hc hk => ?_
        obtain ⟨hne, hk⟩ := hasName_iff.mp hk
        have hn : hasName n c = true := hasName_iff.mpr ⟨hne, streq_trans hk (streq_symm hs)⟩
        rw [hnone c hc] at hn
        cases hn
      rw [hzero]
    · rfl
  · rw [List.countP_append, List.countP_append, List.countP_cons, hasName_eq hc]
    omega

theorem OneLess.length (h : OneLess n E E') : E'.length = E.length - if E.countP (hasName n) = 0 then 0 else 1 := by
  rcases h with ⟨hnone, rfl⟩ | ⟨E₁, c, E₂, hc, rfl, rfl⟩
  · rw [if_pos (List.countP_eq_zero.mpr fun c hc hk => by simp [hnone c hc] at hk)]
    rfl
  · rw [if_neg (Nat.ne_of_gt (List.countP_pos_iff.mpr ⟨c, by simp, hc⟩))]
    simp

theorem DropsOne.oneLess (h : DropsOne n L L') (hnd : (L.map Entry.ep).Nodup) :
    OneLess n (L.map Entry.card) (L'.map Entry.card) := by
  rcases h with ⟨hnone, rfl⟩ | ⟨e, he, hen, rfl⟩
  · exact .inl ⟨List.forall_mem_map.mpr hnone, rfl⟩
  · obtain ⟨l₁, l₂, rfl⟩ := List.append_of_mem he
    rw [List.map_append, List.map_cons, List.nodup_middle, List.nodup_cons, ← List.map_append] at hnd
    have hfilter : ((l₁ ++ e :: l₂).filter fun e' => e'.ep ≠ e.ep) = l₁ ++ l₂ := by
      rw [List.filter_append, List.filter_cons_of_neg (by simp), ← List.filter_append, List.filter_eq_self]
      intro e' he'
      simpa using fun h : e'.ep = e.ep => hnd.1 (h ▸ List.mem_map_of_mem he')
    refine .inr ⟨l₁.map Entry.card, e.card, l₂.map Entry.card, hen, ?_, ?_⟩
    · rw [List.map_append, List.map_cons]
    · rw [hfilter, List.map_append]

theorem deleteLatest_oneLess (n : Str) (E : List Card) : OneLess n E (deleteLatest n E) := by
  have heq : deleteLatest n E = (E.reverse.eraseP (hasName n)).reverse := by
    have hfind : (E.reverse.findIdx? fun c => c.keyword != [] && streq c.keyword n) =
        E.reverse.findIdx? (hasName n) := rfl
    unfold deleteLatest
    rw [List.eraseP_eq_eraseIdx, hfind]
    cases E.reverse.findIdx? (hasName n) with
    | none => exact E.reverse_reverse.symm
    | some i => rfl
  rw [heq]
  rcases List.exists_or_eq_self_of_eraseP (hasName n) E.reverse with hself | ⟨c, l₁, l₂, -, hc, hE, herase⟩
  · refine .inl ⟨fun c hc => ?_, by rw [hself, List.reverse_reverse]⟩
    have := (List.eraseP_eq_self_iff (p := hasName n)).mp hself c (List.mem_reverse.mpr hc)
    simpa using this
  · refine .inr ⟨l₂.reverse, c, l₁.reverse, hc, ?_, by rw [herase, List.reverse_append]⟩
    rw [← E.reverse_reverse, hE]
    simp

/-- Deleting the copies of the names `ks`, of each name one: how many entries with a name are left, ... -/
theorem countP_dropsAll (h : DropsAll ks L L') (hnd : (L.map Entry.ep).Nodup) (k : Str) :
    (L'.map Entry.card).countP (hasName k) = (L.map Entry.card).countP (hasName k) - ks.countP (streq · k) := by
  induction h with
  | nil => rfl
  | cons h h' ih =>
    rw [ih ((h.sublist.map Entry.ep).nodup hnd), (h.oneLess hnd).countP, List.countP_cons]
    omega

/-- ... and how many entries, which does not depend on which ones are deleted. -/
theorem length_dropsAll (h : DropsAll ks L L') (hnd : (L.map Entry.ep).Nodup) (hlen : E.length = L.length)
    (hcount : ∀ k, E.countP (hasName k) = (L.map Entry.card).countP (hasName k)) :
    (leftOver ks E).length = L'.length := by
  induction h generalizing E with
  | nil => exact hlen
  | @cons k ks L L₁ L' h h' ih =>
    have hone := deleteLatest_oneLess k E
    refine ih ((h.sublist.map Entry.ep).nodup hnd) ?_ fun k' => ?_
    · have hlength := (h.oneLess hnd).length
      rw [List.length_map, List.length_map] at hlength
      rw [hone.length, hlength, hlen, hcount]
    · rw [hone.countP, (h.oneLess hnd).countP, hcount]

/-- The name is one of a list of names. -/
def IsAmong (names : List Str) (name : Str) : Prop := ∃ n ∈ names, n ≠ [] ∧ streq name n = true

theorem IsAmong.of_streq {names : List Str} {s t : Str} (h : IsAmong names s) (hs : streq s t = true) :
    IsAmong names t := by
  obtain ⟨n, hn, hne, hsn⟩ := h
  exact ⟨n, hn, hne, streq_trans (streq_symm hs) hsn⟩

/-- No card of the entries that are left has a name from the list, exactly if each entry that is printed under such a
name has no more namesakes than names were deleted. -/
theorem left_iff (names : List Str) (hsub : E' ⊆ E)
    (hcount : ∀ k, E'.countP (hasName k) = E.countP (hasName k) - ks.countP (streq · k)) :
    (∀ c ∈ E', ¬ IsAmong names (readKeyword c.format)) ↔
      ∀ c ∈ E, IsAmong names (printedName c.keyword) → E.countP (hasName c.keyword) ≤ ks.countP (streq · c.keyword) := by
  simp only [readKeyword_format]
  constructor
  · intro hleft c hc hbad
    by_contra hmore
    obtain ⟨c', hc', hn⟩ := List.countP_pos_iff.mp (show 0 < E'.countP (hasName c.keyword) by
      rw [hcount]
      omega)
    exact hleft c' hc' (hbad.of_streq (streq_printedName (streq_symm (hasName_iff.mp hn).2)))
  · intro hcond c hc hbad
    have hle := hcond c (hsub hc) hbad
    have hne : c.keyword ≠ [] := by
      intro h0
      obtain ⟨n, -, hne, hs⟩ := hbad
      rw [h0] at hs
      exact hne (streq_nil_iff.mp (streq_symm hs))
    have hself : hasName c.keyword c = true := hasName_iff.mpr ⟨hne, streq_iff.mpr rfl⟩
    have := List.countP_pos_iff.mpr ⟨c, hc, hself⟩
    have := hcount c.keyword
    omega

end Count

/-! ## The entries that are given to `ds_write` -/

/-- `writeCards` for entries, with those that are given to `ds_write`. The last one may not be written, or in part. -/
def putCards (env : Nat → Bool) (caller fd : Nat) : List Card → Nat → St → Option (St × Bool × List Card)
  | [], _, s => some (s, true, [])
  | c :: cards, want, s =>
    (dsWrite env caller want s fd c.format).bind fun (s, ok) =>
      if ok then (putCards env caller fd cards (want + 80) s).map fun (s, ok, put) => (s, ok, c :: put)
      else some (s, false, [c])

/-- `writeArea`, with the entries that are given to `ds_write` -/
def putArea (env : Nat → Bool) (s : St) (d : Nat) (h : Hdr) (len : Nat) (cards : List Card) :
    Option (St × Bool × List Card) :=
  let (s, r) := dsOpen s d true
  -- the value of the comparison
  let fd := if r < 0 then 1 else 0
  if fd ≠ 0 then some (dsClose s fd, false, [])
  else
    let offset := h.offset + h.nreserved * 80
    (dsLseek env s fd offset).bind fun (s, ok) =>
      if !ok then some (dsClose s fd, false, [])
      else if h.maxkeywords < h.nreserved + len + 1 then some (dsClose s fd, false, [])
      else
        (putCards env d fd cards offset s).bind fun (s, ok, put) =>
          if !ok then some (dsClose s fd, false, put)
          else
            (writeCards env d fd (fillCards h.maxkeywords (h.nreserved + cards.length)) (offset + 80 * cards.length)
                s).map fun (s, ok) =>
              -- the function returns without releasing the slot
              if !ok then (s, false, put) else (dsClose s fd, true, put)

/-- `dsim_WriteHeader`, with the entries of the database that are given to `ds_write` -/
def putHeader (env : Nat → Bool) (s : St) (d image : Nat) (kwdb : Db) : Option (St × Bool × Db × List Card) :=
  (deleteCopies env s d image kwdb).bind fun (s, r) =>
    match r with
    | none => some (s, false, kwdb, [])
    | some (h, kwdb) =>
      kwdb.cards.bind fun cards =>
        (putArea env s d h kwdb.len cards).map fun (s, ok, put) => (s, ok, kwdb, put)

section Put

variable {env : Nat → Bool} {s t : St} {d p : Nat} {ok : Bool} {h : Hdr} {len : Nat} {cards put : List Card}

theorem putCards_eq (env : Nat → Bool) (caller fd : Nat) (cards : List Card) (want : Nat) (s : St) :
    writeCards env caller fd (cards.map Card.format) want s =
      (putCards env caller fd cards want s).map fun (s, ok, _) => (s, ok) := by
  induction cards generalizing want s with
  | nil => rfl
  | cons c cards ih =>
    rw [List.map_cons, writeCards, putCards, Option.map_bind]
    congr 1
    funext r
    obtain ⟨s₁, ok⟩ := r
    dsimp only [comp_apply]
    split
    · rw [ih, Option.map_map]
      rfl
    · rfl

theorem putArea_eq (env : Nat → Bool) (s : St) (d : Nat) (h : Hdr) (len : Nat) (cards : List Card) :
    writeArea env s d h len cards = (putArea env s d h len cards).map fun (s, ok, _) => (s, ok) := by
  unfold writeArea putArea
  dsimp only
  by_cases hfd : (if (dsOpen s d true).2 < 0 then 1 else 0) = 0
  · simp only [hfd, ne_eq, not_true, if_false, putCards_eq]
    rw [Option.map_bind]
    congr 1
    funext r
    obtain ⟨s₃, ok⟩ := r
    dsimp only [comp_apply]
    split
    · rfl
    split
    · rfl
    rw [Option.map_bind, Option.bind_map]
    congr 1
    funext r
    obtain ⟨s₄, ok, put⟩ := r
    dsimp only [comp_apply]
    split
    · rfl
    rw [Option.map_map]
    congr 1
    funext r
    obtain ⟨s₅, ok⟩ := r
    dsimp only [comp_apply]
    split <;> rfl
  · simp only [hfd, ne_eq, not_false_eq_true, if_true]
    rfl

/-- `putHeader` is `dsim_WriteHeader`. -/
theorem putHeader_eq (env : Nat → Bool) (s : St) (d image : Nat) (kwdb : Db) :
    dsimWriteHeader env s d image kwdb =
      (putHeader env s d image kwdb).map fun (s, ok, kwdb, _) => (s, ok, kwdb) := by
  unfold dsimWriteHeader putHeader
  rw [Option.map_bind]
  congr 1
  funext r
  obtain ⟨s₁, r⟩ := r
  cases r with
  | none => rfl
  | some r =>
    dsimp only [comp_apply]
    rw [Option.map_bind]
    congr 1
    funext cards
    rw [putArea_eq, Option.map_map, comp_apply, Option.map_map]
    rfl

theorem putCards_prefix {fd want : Nat} (hp : putCards env d fd cards want s = some (t, ok, put)) : put <+: cards := by
  induction cards generalizing want s put with
  | nil =>
    cases hp
    exact List.prefix_rfl
  | cons c cards ih =>
    obtain ⟨⟨s₁, ok₁⟩, -, hp⟩ := Option.bind_eq_some_iff.mp hp
    dsimp only at hp
    split at hp
    · obtain ⟨⟨s₂, ok₂, put⟩, hput, heq⟩ := Option.map_eq_some_iff.mp hp
      cases heq
      exact (List.prefix_cons_inj c).mpr (ih hput)
    · cases hp
      exact (List.prefix_cons_inj c).mpr (List.nil_prefix)

theorem putCards_ok {fd want : Nat} (hp : putCards env d fd cards want s = some (t, true, put)) : put = cards := by
  induction cards generalizing want s put with
  | nil =>
    cases hp
    rfl
  | cons c cards ih =>
    obtain ⟨⟨s₁, ok₁⟩, -, hp⟩ := Option.bind_eq_some_iff.mp hp
    dsimp only at hp
    split at hp
    · obtain ⟨⟨s₂, ok₂, put⟩, hput, heq⟩ := Option.map_eq_some_iff.mp hp
      cases heq
      rw [ih hput]
    · cases hp

variable (cards) in
/-- If the system always answers, all cards are written. -/
theorem putCards_all (hat : HeldAt d p s) (henv : ∀ i, s.tick ≤ i → env i = true)
    (hin : (s.ds d).isFile = false → p + 80 * cards.length ≤ (s.ds d).filesize) :
    ∃ t, putCards env d 0 cards p s = some (t, true, cards) ∧ HeldAt d (p + 80 * cards.length) t := by
  obtain ⟨t, ok, hw, -, hat', hgranted⟩ := writeCards_held env (cards.map Card.format) hat
  rw [List.length_map] at hat' hgranted
  rw [putCards_eq] at hw
  obtain ⟨⟨t, ok, put⟩, hput, heq⟩ := Option.map_eq_some_iff.mp hw
  cases heq
  have hok : ok = true := by
    rcases List.eq_nil_or_concat cards with rfl | ⟨cards', c, rfl⟩
    · cases hput
      rfl
    · refine (hgranted (by simp)).mpr ?_
      by_cases hf : (s.ds d).isFile
      · exact (granted_file hf).mpr fun k _ => henv _ (Nat.le_add_right _ _)
      · exact (granted_mapped hf).mpr (hin (Bool.eq_false_iff.mpr hf))
  subst hok
  exact ⟨t, by rw [hput, putCards_ok hput], hat' rfl⟩

/-- Entries are only written behind a seek that succeeded, and if they fit. -/
theorem putArea_prefix (hs : Disciplined s) (hp : putArea env s d h len cards = some (t, ok, put)) :
    put <+: cards ∧ (put ≠ [] → 0 ≤ int32 ↑(h.offset + h.nreserved * 80) ∧ h.nreserved + len + 1 ≤ h.maxkeywords) := by
  obtain ⟨s₂, ho, h₂, -, -⟩ := dsOpen_disciplined (d := d) hs true
  obtain ⟨s₃, ok₃, hl, -, -, hok, -⟩ := dsLseek_held env h₂ (h.offset + h.nreserved * 80)
  unfold putArea at hp
  simp only [ho, lt_irrefl, if_false, ne_eq, not_true, hl, Option.bind_some] at hp
  cases ok₃ with
  | false =>
    cases hp
    exact ⟨List.nil_prefix, by simp⟩
  | true =>
    simp only [Bool.not_true, Bool.false_eq_true, if_false] at hp
    split at hp
    · cases hp
      exact ⟨List.nil_prefix, by simp⟩
    next hfit =>
    obtain ⟨⟨s₄, ok₄, put'⟩, hput, hp⟩ := Option.bind_eq_some_iff.mp hp
    have hwritten : put = put' := by
      dsimp only at hp
      split at hp
      · cases hp
        rfl
      · obtain ⟨⟨s₅, ok₅⟩, -, hp⟩ := Option.map_eq_some_iff.mp hp
        dsimp only at hp
        split at hp <;> cases hp <;> rfl
    exact ⟨hwritten ▸ putCards_prefix hput, fun _ => ⟨(hok.mp rfl).2, Nat.le_of_not_lt hfit⟩⟩

theorem putArea_all (hs : Disciplined s) (henv : ∀ i, s.tick ≤ i → env i = true)
    (hseek : 0 ≤ int32 ↑(h.offset + h.nreserved * 80)) (hfit : h.nreserved + cards.length + 1 ≤ h.maxkeywords)
    (hin : (s.ds d).isFile = false → h.offset + h.maxkeywords * 80 ≤ (s.ds d).filesize) :
    ∃ t ok, putArea env s d h cards.length cards = some (t, ok, cards) := by
  obtain ⟨s₂, ho, h₂, hds, htick₂⟩ := dsOpen_disciplined (d := d) hs true
  generalize hoff : h.offset + h.nreserved * 80 = offset at hseek
  obtain ⟨s₃, ok, hl, -, hat, hok, htick₃, -⟩ := dsLseek_held env h₂ offset
  have hwith := dsLseek_with h₂ hl
  obtain rfl : ok = true := hok.mpr ⟨fun _ => henv _ htick₂.ge, hseek⟩
  have hle : s.tick ≤ s₃.tick := by omega
  rw [hds] at hwith
  obtain ⟨s₄, hput, hat₄⟩ := putCards_all cards (hat rfl) (fun i hi => henv i (hle.trans hi)) fun hm => by
    have := hin (hwith.isFile.symm.trans hm)
    rw [hwith.filesize]
    omega
  obtain ⟨s₅, ok, hfill, -⟩ := writeCards_held env (fillCards h.maxkeywords (h.nreserved + cards.length)) hat₄
  unfold putArea
  simp only [ho, lt_irrefl, if_false, ne_eq, not_true, hoff, hl, Option.bind_some, Bool.not_true, Bool.false_eq_true,
    hput, hfill, Option.map_some]
  rw [if_neg (Nat.not_lt.mpr hfit)]
  cases ok
  · exact ⟨_, _, rfl⟩
  · exact ⟨_, _, rfl⟩

end Put

/-! ## The reserved keywords -/

namespace Desc

variable (ds : Desc) (image : Nat)

/-- The reserved entries of a header, as they stand in the file. -/
def reservedEntries : List Card :=
  headerEntries ((entered (ds.bytes.drop (readOffset ds image)) (ds.headers image).nreserved).take
    (ds.headers image).nreserved)

/-- The calls of `ds_lseek` have offsets that an `int` holds. -/
structure Seeks : Prop where
  header : image ≤ ds.nimages
  read : 0 ≤ int32 (readOffset ds image)
  write : 0 ≤ int32 ↑((ds.headers image).offset + (ds.headers image).nreserved * 80)

/-- `dsim_ReadHeader` can give the first `k` reserved cards. It gives all of them if the file is mapped; otherwise the
system may fail to give one. -/
def Reads (k : Nat) : Prop :=
  k ≤ (ds.headerCards image (ds.headers image).nreserved).length ∧
    (ds.isFile = false → k = (ds.headerCards image (ds.headers image).nreserved).length)

/-- The names that are deleted when the first `k` reserved cards are read -/
def deletedNames (k : Nat) : List Str :=
  reservedNames (headerEntries ((ds.headerCards image (ds.headers image).nreserved).take k))

/-- Each entry that is printed under a reserved name has no more namesakes in the database than names are deleted,
however many reserved cards are read, unless what is left does not fit. -/
def CopiesDeleted (E : List Card) : Prop :=
  ds.Seeks image → ∀ k, ds.Reads image k →
    (ds.headers image).nreserved + (leftOver (ds.deletedNames image k) E).length + 1 ≤ (ds.headers image).maxkeywords →
    ∀ c ∈ E, IsAmong (reservedNames (ds.reservedEntries image)) (printedName c.keyword) →
      E.countP (hasName c.keyword) ≤ (ds.deletedNames image k).countP (streq · c.keyword)

end Desc

section WriteHeader

variable {s : St} (hs : Disciplined s) {d image : Nat} (hh : (s.ds d).HasHeader image) {kwdb : Db}
include hs hh

/-- Either the reserved cards are not read, and nothing is written; or the copies of those that are read are deleted,
and the rest is the writing part. -/
theorem putHeader_cases (env : Nat → Bool) {L : List Entry} {T : Nat → List Nat} {txt : Nat × Option Db.Field → Str}
    (hr : Rep kwdb L T txt) :
    (∃ t, readHeader env s d image ((s.ds d).headers image).nreserved = some (t, none) ∧
      putHeader env s d image kwdb = some (t, false, kwdb, [])) ∨
    ∃ s₁ rskw kwdb' L', readHeader env s d image ((s.ds d).headers image).nreserved = some (s₁, some rskw) ∧
      Disciplined s₁ ∧ (s.ds d).With (s.ds d).bytes (s₁.ds d) ∧ DropsAll (reservedNames rskw) L L' ∧
      putHeader env s d image kwdb =
        (putArea env s₁ d ((s.ds d).headers image) (L'.map Entry.card).length (L'.map Entry.card)).map
          fun (s, ok, put) => (s, ok, kwdb', put) := by
  rcases deleteCopies_cases env hs hh hr with
    ⟨t, hread, hcall⟩ | ⟨s₁, rskw, kwdb', L', T', hread, h₁, hwith, hr', hdrops, hcall⟩
  · refine .inl ⟨t, hread, ?_⟩
    rw [putHeader, hcall]
    rfl
  · refine .inr ⟨s₁, rskw, kwdb', L', hread, h₁, hwith, hdrops, ?_⟩
    have hcards : kwdb'.cards = some (L'.map Entry.card) := Db.HasCards.cards ⟨_, _, _, hr', rfl⟩
    have hlen : kwdb'.len = (L'.map Entry.card).length := by
      rw [List.length_map]
      exact hr'.lists.count
    rw [putHeader, hcall, Option.bind_some]
    dsimp only
    rw [hcards, Option.bind_some, hlen]

end WriteHeader

theorem smallFile_sized : (smallFile.ds 0).Sized 0 := ⟨by decide, by decide +kernel⟩

instance : Decidable (IsAmong names name) := inferInstanceAs (Decidable (∃ n ∈ names, n ≠ [] ∧ streq name n = true))

end Ndhs.Dsim
