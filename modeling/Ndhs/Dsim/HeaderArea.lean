import Ndhs.Dsim.Channel

/-!
# What `dsim_WriteHeader` writes

Here the keyword database is the one of `mosdca/kwdb.c`, so that the entries that are deleted are those that
`kwdb_Lookup` finds, whatever calls were made before. The i/o is that of `Dsim/Channel.lean`, from a state in which the
calls of the file emulator act on the file that they are meant for.

* `Desc.With`: a file with other bytes. Seeking and reading leave the bytes, and writing cards one after the other
  is one write of all of them (`writeCards_with`).
* `writeHeader_area`: behind the reserved cards the header area has the cards of the entries, blank cards, and the `END`
  card in the last place; all other bytes are as before. A header that is too small is left as it is.
-/

namespace Ndhs.Dsim

open Kwdb Text Function Machine

/-! ## Bytes at an offset -/

section WriteAt

variable {b u v : Str} {p : Nat}

/-- A write behind the text `b` -/
theorem writeAt_append (b r u : Str) : writeAt (b ++ r) b.length u = b ++ (u ++ r.drop u.length) := by
  have hle : b.length - (b ++ r).length = 0 := by
    rw [List.length_append]
    omega
  rw [writeAt, hle, List.replicate_zero, List.append_nil, List.take_left, List.append_assoc, List.drop_length_add_append]

theorem writeAt_of_le (hp : p ≤ b.length) : writeAt b p u = b.take p ++ (u ++ b.drop (p + u.length)) := by
  have h := writeAt_append (b.take p) (b.drop p) u
  rwa [List.take_append_drop, List.length_take, Nat.min_eq_left hp, List.drop_drop] at h

theorem writeAt_nil (hp : p ≤ b.length) : writeAt b p [] = b := by
  rw [writeAt_of_le hp, List.nil_append]
  exact List.take_append_drop p b

theorem le_length_writeAt (b : Str) (p : Nat) (u : Str) : p + u.length ≤ (writeAt b p u).length := by
  simp [writeAt]
  omega

theorem length_le_writeAt (b : Str) (p : Nat) (u : Str) : b.length ≤ (writeAt b p u).length := by
  simp [writeAt]
  omega

/-- A write behind a write -/
theorem writeAt_writeAt (hp : p ≤ b.length) :
    writeAt (writeAt b p u) (p + u.length) v = writeAt b p (u ++ v) := by
  have hlen : (b.take p ++ u).length = p + u.length := by
    rw [List.length_append, List.length_take]
    omega
  rw [writeAt_of_le hp, writeAt_of_le hp, ← List.append_assoc (b.take p), ← hlen, writeAt_append, List.append_assoc,
    List.append_assoc, List.drop_drop, hlen, List.length_append, Nat.add_assoc]

end WriteAt

/-! ## The file -/

/-- The file `ds'` is `ds` with other bytes. -/
def Desc.With (ds : Desc) (bytes : Str) (ds' : Desc) : Prop := ds' = { ds with bytes, pos := ds'.pos }

theorem Desc.With.refl (ds : Desc) : ds.With ds.bytes ds := rfl

theorem Desc.With.trans {ds ds' ds'' : Desc} {b b' : Str} (h : ds.With b ds') (h' : ds'.With b' ds'') :
    ds.With b' ds'' := by
  unfold Desc.With at h h' ⊢
  rw [h'.trans (by rw [h])]

theorem Desc.With.bytes {ds ds' : Desc} {b : Str} (h : ds.With b ds') : ds'.bytes = b := by
  rw [h]

section Held

variable {env : Nat → Bool} {s t : St} {d p off : Nat} {ok : Bool}

theorem dsClose_ds (s : St) (fd : Nat) : (dsClose s fd).ds = s.ds := by
  unfold dsClose
  split <;> rfl

theorem dsLseek_with (h : Held d s) (hl : dsLseek env s 0 off = some (t, ok)) :
    (s.ds d).With (s.ds d).bytes (t.ds d) := by
  obtain ⟨fp, rfl, ht⟩ := h.slot
  have h0 : s.table 0 = some fp := by simp [ht]
  rw [dsLseek, h0, Option.map_some, Option.some.injEq] at hl
  dsimp only at hl
  split at hl
  · split at hl
    · cases hl
      simp [Desc.With, St.setDs]
    · cases hl
      rfl
  · cases hl
    rfl

theorem dsRead_with {want : Nat} {card : Option Str} (h : Held d s) (hr : dsRead env d want s 0 = some (t, card)) :
    (s.ds d).With (s.ds d).bytes (t.ds d) := by
  obtain ⟨fp, rfl, ht⟩ := h.slot
  have h0 : s.table 0 = some fp := by simp [ht]
  rw [dsRead, h0, Option.map_some, Option.some.injEq] at hr
  dsimp only at hr
  split at hr
  · split at hr
    · cases hr
      simp [Desc.With, St.setDs]
    · cases hr
      rfl
  · split at hr
    · cases hr
      rfl
    · cases hr
      rfl

theorem dsWrite_with {card : Str} (h : HeldAt d p s) (hcard : card.length = 80)
    (hw : dsWrite env d p s 0 card = some (t, true)) : (s.ds d).With (writeAt (s.ds d).bytes p card) (t.ds d) := by
  obtain ⟨fp, rfl, hp, ht⟩ := h.slot
  have h0 : s.table 0 = some fp := by simp [ht]
  rw [dsWrite, h0, Option.map_some, Option.some.injEq] at hw
  dsimp only at hw
  by_cases hf : (s.ds fp.dsim).isFile
  · have hpos : (s.ds fp.dsim).pos = p := by simpa [St.position, hf] using hp
    rw [if_pos hf] at hw
    split at hw
    · cases hw
      simp [Desc.With, St.setDs, hpos]
    · cases hw
  · have hpos : fp.fpos = p := by simpa [St.position, hf] using hp
    rw [if_neg hf] at hw
    split at hw
    · cases hw
    · simp only [Prod.mk.injEq, beq_iff_eq] at hw
      obtain ⟨rfl, hn⟩ := hw
      rw [hn, ← hcard, List.take_length, hpos]
      simp [Desc.With, St.setDs, St.setSlot]

/-- Cards that are written one after the other -/
theorem writeCards_with {cards : List Str} (h : HeldAt d p s) (hcards : ∀ card ∈ cards, card.length = 80)
    (hp : p ≤ (s.ds d).bytes.length) (hw : writeCards env d 0 cards p s = some (t, true)) :
    (s.ds d).With (writeAt (s.ds d).bytes p cards.flatten) (t.ds d) := by
  induction cards generalizing p s with
  | nil =>
    cases hw
    rw [List.flatten_nil, writeAt_nil hp]
    exact .refl _
  | cons card cards ih =>
    have hcard : card.length = 80 := hcards card List.mem_cons_self
    obtain ⟨s₁, ok, h₁, -, hat, -⟩ := dsWrite_held env h card
    rw [writeCards, h₁, Option.bind_some] at hw
    cases ok with
    | false => cases hw
    | true =>
      have hfirst := dsWrite_with h hcard h₁
      have hp₁ : p + 80 ≤ (s₁.ds d).bytes.length := by
        rw [hfirst.bytes, ← hcard]
        exact le_length_writeAt ..
      have hrest := ih (hat rfl) (fun c hc => hcards c (List.mem_cons_of_mem card hc)) hp₁ hw
      rw [hfirst.bytes, ← hcard, writeAt_writeAt hp] at hrest
      exact hfirst.trans hrest

theorem readLoop_with {maxcards n : Nat} {cards : List Str} {r : Option (List Str)} (h : HeldAt d p s)
    (hr : readLoop env d 0 maxcards n p cards s = some (t, r)) : (s.ds d).With (s.ds d).bytes (t.ds d) := by
  induction n generalizing p cards s with
  | zero => cases hr
  | succ n ih =>
    rw [readLoop] at hr
    split at hr
    · cases hr
      exact .refl _
    · obtain ⟨s₁, card, h₁, -, hat, -⟩ := dsRead_held env h
      have hread := dsRead_with h.held h₁
      rw [h₁, Option.bind_some] at hr
      cases card with
      | none =>
        cases hr
        exact hread
      | some card =>
        obtain ⟨hat, -⟩ := hat rfl
        dsimp only at hr
        split at hr
        · cases hr
          exact hread
        · split at hr
          · have hrest := ih (s := s₁.ask) ⟨hat.accesses, hat.slot⟩ hr
            have hsame : (s₁.ask.ds d).bytes = (s.ds d).bytes := hread.bytes
            rw [hsame] at hrest
            exact hread.trans hrest
          · cases hr
            exact hread

/-- Reading a header leaves the file as it is, apart from the file offset. -/
theorem readHeader_with {image maxentries : Nat} {r : Option (List Card)} (h : Disciplined s)
    (hr : readHeader env s d image maxentries = some (t, r)) : (s.ds d).With (s.ds d).bytes (t.ds d) := by
  unfold readHeader at hr
  split at hr
  · cases hr
    exact .refl _
  split at hr
  · cases hr
    exact .refl _
  obtain ⟨s₁, ho, h₁, hds, -⟩ := dsOpen_disciplined (d := d) h.ask false
  have hds : s₁.ds = s.ds := hds
  simp only [ho, lt_irrefl, if_false, ne_eq, not_true] at hr
  obtain ⟨s₂, ok, hl, h₂, hat, -⟩ := dsLseek_held env h₁ (readOffset (s₁.ds d) image)
  have hseek := dsLseek_with h₁ hl
  rw [hds] at hseek
  rw [hl, Option.bind_some] at hr
  cases ok with
  | false =>
    cases hr
    exact hseek
  | true =>
    simp only [Bool.not_true, Bool.false_eq_true, if_false] at hr
    obtain ⟨⟨s₃, cards⟩, hloop, hr⟩ := Option.map_eq_some_iff.mp hr
    have hrest := readLoop_with (hat rfl) hloop
    rw [hseek.bytes] at hrest
    cases hr
    rw [dsClose_ds]
    exact hseek.trans hrest

end Held

/-! ## `dsim_WriteHeader` -/

/-- `if (xp = kwdb_Lookup (kwdb, name, 0)) kwdb_DeleteEntry (kwdb, xp);` -/
def dropLatest (kwdb : Db) (name : Str) : Option Db :=
  (kwdb.lookup name 0).bind fun xp => if xp = 0 then some kwdb else (kwdb.deleteEntry xp).map Prod.fst

/-- Delete any copies of the reserved keywords from the KWDB. -/
def dropCopies (rskw : List Card) (kwdb : Db) : Option Db :=
  (rskw.map Card.keyword ++ [['E', 'N', 'D']]).foldlM dropLatest kwdb

/-- The part of `dsim_WriteHeader` that opens the file and writes the entries `cards` of a database that has the
length `len`. -/
def writeArea (env : Nat → Bool) (s : St) (d : Nat) (h : Hdr) (len : Nat) (cards : List Card) : Option (St × Bool) :=
  let (s, r) := dsOpen s d true
  -- the value of the comparison
  let fd := if r < 0 then 1 else 0
  if fd ≠ 0 then some (dsClose s fd, false)
  else
    let offset := h.offset + h.nreserved * 80
    (dsLseek env s fd offset).bind fun (s, ok) =>
      if !ok then some (dsClose s fd, false)
      else if h.maxkeywords < h.nreserved + len + 1 then some (dsClose s fd, false)
      else
        (writeCards env d fd (cards.map Card.format) offset s).bind fun (s, ok) =>
          if !ok then some (dsClose s fd, false)
          else
            (writeCards env d fd (fillCards h.maxkeywords (h.nreserved + cards.length)) (offset + 80 * cards.length)
                s).map fun (s, ok) =>
              -- the function returns without releasing the slot
              if !ok then (s, false) else (dsClose s fd, true)

/-- The part of `dsim_WriteHeader` that reads the reserved keywords and deletes their copies: the header, and the
database without the entries that are deleted. There is no header if this fails. -/
def deleteCopies (env : Nat → Bool) (s : St) (d image : Nat) (kwdb : Db) : Option (St × Option (Hdr × Db)) :=
  (ready env s d).bind fun (s, ok) =>
    if !ok then some (s, none)
    else if (s.ds d).nimages < image then some (s, none)
    else
      let h := (s.ds d).headers image
      (readHeader env s d image h.nreserved).bind fun (s, rskw) =>
        match rskw with
        | none => some (s, none)
        | some rskw => (dropCopies rskw kwdb).map fun kwdb => (s, some (h, kwdb))

/-- `dsim_WriteHeader`: whether it succeeds, and the database without the entries that it deleted. -/
def dsimWriteHeader (env : Nat → Bool) (s : St) (d image : Nat) (kwdb : Db) : Option (St × Bool × Db) :=
  (deleteCopies env s d image kwdb).bind fun (s, r) =>
    match r with
    | none => some (s, false, kwdb)
    | some (h, kwdb) =>
      kwdb.cards.bind fun cards => (writeArea env s d h kwdb.len cards).map fun (s, ok) => (s, ok, kwdb)

/-- `dsim_WriteHeader` of `Dsim/Channel.lean` ends in the same way. -/
theorem writeHeader_eq (env : Nat → Bool) (s : St) (d image : Nat) (kwdb : List Card) :
    writeHeader env s d image kwdb =
      if (s.ds d).nimages < image then some (s, false, kwdb.length)
      else
        (readHeader env s d image ((s.ds d).headers image).nreserved).bind fun (s₁, rskw) =>
          match rskw with
          | none => some (s₁, false, kwdb.length)
          | some rskw =>
            let left := deleteLatest ['E', 'N', 'D'] (rskw.foldl (fun kwdb c => deleteLatest c.keyword kwdb) kwdb)
            (writeArea env s₁ d ((s.ds d).headers image) left.length left).map fun (s, ok) => (s, ok, left.length) := by
  unfold writeHeader writeEntries
  by_cases himage : (s.ds d).nimages < image
  · simp only [if_pos himage]
    rfl
  simp only [if_neg himage]
  rw [Option.bind_assoc]
  congr 1
  funext r
  obtain ⟨s₁, rskw⟩ := r
  cases rskw with
  | none => rfl
  | some rskw =>
    dsimp only
    generalize deleteLatest ['E', 'N', 'D'] (rskw.foldl (fun kwdb c => deleteLatest c.keyword kwdb) kwdb) = left
    unfold writeArea
    dsimp only
    by_cases hfd : (if (dsOpen s₁ d true).2 < 0 then 1 else 0) = 0
    · simp only [hfd, ne_eq, not_true, if_false]
      rw [Option.bind_assoc, Option.map_bind]
      congr 1
      funext r
      obtain ⟨s₃, ok⟩ := r
      cases ok with
      | false => rfl
      | true =>
        simp only [Bool.not_true, Bool.false_eq_true, if_false, comp_apply]
        by_cases hroom : ((s.ds d).headers image).maxkeywords < ((s.ds d).headers image).nreserved + left.length + 1
        · simp only [if_pos hroom]
          rfl
        simp only [if_neg hroom]
        rw [Option.bind_map, Option.map_bind]
        congr 1
        funext r
        obtain ⟨s₄, ok⟩ := r
        cases ok with
        | false => rfl
        | true =>
          simp only [Bool.not_true, Bool.false_eq_true, if_false, comp_apply]
          rw [Option.map_map]
          congr 1
          funext r
          obtain ⟨s₅, ok⟩ := r
          dsimp only [comp_apply]
          split <;> rfl
    · simp only [hfd, ne_eq, not_false_eq_true, if_true]
      rfl

section Area

variable (h : Hdr) (cards : List Card)

/-- The cards behind the reserved ones. -/
def areaCards : List Str :=
  cards.map Card.format ++ fillCards h.maxkeywords (h.nreserved + cards.length)

theorem length_of_mem_fillCards {maxcards used : Nat} {card : Str} (hc : card ∈ fillCards maxcards used) :
    card.length = 80 := by
  rcases List.mem_append.mp hc with hc | hc
  · rw [List.eq_of_mem_replicate hc]
    exact List.length_replicate
  · rw [List.mem_singleton.mp hc]
    rfl

variable {h cards}

theorem length_of_mem_areaCards {card : Str} (hc : card ∈ areaCards h cards) : card.length = 80 := by
  rcases List.mem_append.mp hc with hc | hc
  · obtain ⟨c, -, rfl⟩ := List.mem_map.mp hc
    exact c.format_length
  · exact length_of_mem_fillCards hc

variable (h cards)

/-- They fill the area: the `END` card is in the last place. -/
theorem length_areaCards (hfit : h.nreserved + cards.length + 1 ≤ h.maxkeywords) :
    h.nreserved + (areaCards h cards).length = h.maxkeywords := by
  unfold areaCards fillCards
  simp only [List.length_append, List.length_map, List.length_replicate, List.length_singleton]
  omega

/-- What the writing part does to the file. -/
theorem writeArea_with (env : Nat → Bool) {s : St} {d : Nat} (hs : Disciplined s)
    (hroom : h.offset + h.nreserved * 80 ≤ (s.ds d).bytes.length) :
    ∃ t ok, writeArea env s d h cards.length cards = some (t, ok) ∧
      (h.maxkeywords < h.nreserved + cards.length + 1 → ok = false ∧ (s.ds d).With (s.ds d).bytes (t.ds d)) ∧
      (ok = true → h.nreserved + cards.length + 1 ≤ h.maxkeywords ∧ (s.ds d).With
        (writeAt (s.ds d).bytes (h.offset + h.nreserved * 80) (areaCards h cards).flatten) (t.ds d)) := by
  obtain ⟨s₂, ho, h₂, hds, -⟩ := dsOpen_disciplined (d := d) hs true
  generalize hoff : h.offset + h.nreserved * 80 = offset at hroom ⊢
  obtain ⟨s₃, ok, hl, h₃, hat, -⟩ := dsLseek_held env h₂ offset
  have hseek := dsLseek_with h₂ hl
  rw [hds] at hseek
  unfold writeArea
  simp only [ho, lt_irrefl, if_false, ne_eq, not_true, hoff, hl, Option.bind_some]
  cases ok with
  | false => exact ⟨_, false, rfl, fun _ => ⟨rfl, dsClose_ds s₃ 0 ▸ hseek⟩, by simp⟩
  | true =>
    simp only [Bool.not_true, Bool.false_eq_true, if_false]
    by_cases hfull : h.maxkeywords < h.nreserved + cards.length + 1
    · exact ⟨_, false, if_pos hfull, fun _ => ⟨rfl, dsClose_ds s₃ 0 ▸ hseek⟩, by simp⟩
    rw [if_neg hfull]
    have hformat : ∀ card ∈ cards.map Card.format, card.length = 80 := fun card hc =>
      length_of_mem_areaCards (h := h) (List.mem_append_left _ hc)
    have hp₃ : offset ≤ (s₃.ds d).bytes.length := hseek.bytes ▸ hroom
    obtain ⟨s₄, ok, hw, h₄, hat₄, -⟩ := writeCards_held env (cards.map Card.format) (hat rfl)
    rw [hw, Option.bind_some]
    cases ok with
    | false => exact ⟨_, false, rfl, fun hc => absurd hc hfull, by simp⟩
    | true =>
      have hfirst := writeCards_with (hat rfl) hformat hp₃ hw
      rw [hseek.bytes] at hfirst
      have hat₄ := hat₄ rfl
      rw [List.length_map] at hat₄
      obtain ⟨s₅, ok, hw₅, -, -, -⟩ :=
        writeCards_held env (fillCards h.maxkeywords (h.nreserved + cards.length)) hat₄
      simp only [hw₅, Bool.not_true, Bool.false_eq_true, if_false, Option.map_some]
      cases ok with
      | false => exact ⟨_, false, rfl, fun hc => absurd hc hfull, by simp⟩
      | true =>
        have hlen : (cards.map Card.format).flatten.length = 80 * cards.length := by
          rw [length_flatten_cards hformat, List.length_map]
        have hp₄ : offset + 80 * cards.length ≤ (s₄.ds d).bytes.length := by
          rw [hfirst.bytes, ← hlen]
          exact le_length_writeAt ..
        have hrest := writeCards_with hat₄ (fun _ => length_of_mem_fillCards) hp₄ hw₅
        rw [hfirst.bytes, ← hlen, writeAt_writeAt hroom, ← List.flatten_append] at hrest
        refine ⟨_, true, rfl, fun hc => absurd hc hfull, fun _ => ⟨Nat.le_of_not_lt hfull, ?_⟩⟩
        rw [dsClose_ds]
        exact hseek.trans (hfirst.trans hrest)

end Area

/-! ## The copies of the reserved keywords -/

section Copies

variable {kwdb kwdb' : Db} {L L' : List Entry} {T : Nat → List Nat} {txt : Nat × Option Db.Field → Str} {k : Str}

/-- The list `L'` is `L` without one of the entries with the name, if there is any. -/
def DropsOne (k : Str) (L L' : List Entry) : Prop :=
  (∀ e ∈ L, e.isNamed k = false) ∧ L' = L ∨ ∃ e ∈ L, e.isNamed k = true ∧ L' = L.filter fun e' => e'.ep ≠ e.ep

theorem DropsOne.sublist (h : DropsOne k L L') : L'.Sublist L := by
  rcases h with ⟨-, rfl⟩ | ⟨e, -, -, rfl⟩
  · exact List.Sublist.refl _
  · exact List.filter_sublist

/-- What `kwdb_Lookup` finds is an entry with the name. -/
theorem dropLatest_rep (hr : Rep kwdb L T txt) (hk : 0 ≤ Kwdb.hash k) :
    ∃ kwdb' L' T', dropLatest kwdb k = some kwdb' ∧ Rep kwdb' L' T' txt ∧ DropsOne k L L' := by
  obtain ⟨h, hh⟩ : ∃ h : Nat, Kwdb.hash k = h := ⟨_, (Int.toNat_of_nonneg hk).symm⟩
  rw [dropLatest, hr.lookup hh, Option.bind_some]
  cases hfound : (T h).filter fun x => streq (txt (x, none)) k with
  | nil =>
    refine ⟨kwdb, L, T, rfl, hr, .inl ⟨fun e he => ?_, rfl⟩⟩
    by_contra hn
    obtain ⟨hne, hs⟩ : e.name ≠ [] ∧ streq e.name k = true := by simpa [Entry.isNamed] using hn
    have hmem : e.ep ∈ T h := (hr.lists.mem h e.ep).mpr ⟨e, he, rfl, hne, (hash_streq hs).trans hh⟩
    have htxt : txt (e.ep, none) = e.name := hr.texts.text e he none
    rw [← htxt] at hs
    exact List.filter_eq_nil_iff.mp hfound _ hmem hs
  | cons x l =>
    obtain ⟨hx, hs⟩ := List.mem_filter.mp (hfound ▸ List.mem_cons_self : x ∈ _)
    obtain ⟨e, he, rfl, hne, -⟩ := (hr.lists.mem h x).mp hx
    obtain ⟨kwdb', hdel, hr'⟩ := hr.deleteEntry he
    refine ⟨kwdb', _, _, ?_, hr', .inr ⟨e, he, ?_, rfl⟩⟩
    · rw [List.getD_cons_zero, if_neg (hr.lists.ep_ne_zero he), hdel]
      rfl
    · have htxt : txt (e.ep, none) = e.name := hr.texts.text e he none
      rw [htxt] at hs
      simpa [Entry.isNamed, hne] using hs

/-- The names that are deleted one after the other. -/
inductive DropsAll : List Str → List Entry → List Entry → Prop
  | nil (L : List Entry) : DropsAll [] L L
  | cons {k : Str} {ks : List Str} {L L₁ L' : List Entry} (h : DropsOne k L L₁) (h' : DropsAll ks L₁ L') :
    DropsAll (k :: ks) L L'

theorem DropsAll.sublist {ks : List Str} (h : DropsAll ks L L') : L'.Sublist L := by
  induction h with
  | nil => exact List.Sublist.refl _
  | cons h _ ih => exact ih.trans h.sublist

theorem dropNames_rep {ks : List Str} (hr : Rep kwdb L T txt) (hks : ∀ k ∈ ks, 0 ≤ Kwdb.hash k) :
    ∃ kwdb' L' T', ks.foldlM dropLatest kwdb = some kwdb' ∧ Rep kwdb' L' T' txt ∧ DropsAll ks L L' := by
  induction ks generalizing kwdb L T with
  | nil => exact ⟨kwdb, L, T, rfl, hr, .nil L⟩
  | cons k ks ih =>
    obtain ⟨kwdb₁, L₁, T₁, h₁, hr₁, hd⟩ := dropLatest_rep hr (hks k List.mem_cons_self)
    obtain ⟨kwdb', L', T', h', hr', hds⟩ := ih hr₁ fun k hk => hks k (List.mem_cons_of_mem _ hk)
    refine ⟨kwdb', L', T', ?_, hr', .cons hd hds⟩
    rw [List.foldlM_cons, h₁]
    exact h'

end Copies

theorem readEntries_keyword (old : Str) (cards : List Str) :
    (readEntries old cards).map Card.keyword = cards.map readKeyword := by
  induction cards generalizing old with
  | nil => rfl
  | cons card cards ih => exact congrArg (readKeyword card :: ·) (ih _)

/-- The keywords of a header are those of its cards. -/
theorem headerEntries_keyword {cards : List Str} {c : Card} (hc : c ∈ headerEntries cards) :
    ∃ card ∈ cards, c.keyword = readKeyword card := by
  have hmem : c ∈ readEntries [] cards := (List.rdropWhile_prefix _ _).mem hc
  have hkey := List.mem_map_of_mem (f := Card.keyword) hmem
  rw [readEntries_keyword] at hkey
  obtain ⟨card, hcard, h⟩ := List.mem_map.mp hkey
  exact ⟨card, hcard, h.symm⟩

/-- What `dsim_ReadHeader` gives are the entries of some cards. -/
theorem readHeader_entries {env : Nat → Bool} {s t : St} {d image maxentries : Nat} {rskw : List Card}
    (hr : readHeader env s d image maxentries = some (t, some rskw)) : ∃ cards, rskw = headerEntries cards := by
  unfold readHeader at hr
  split at hr
  · cases hr
  split at hr
  · cases hr
  dsimp only at hr
  split at hr
  · cases hr
  obtain ⟨⟨s₂, ok⟩, -, hr⟩ := Option.bind_eq_some_iff.mp hr
  dsimp only at hr
  split at hr
  · cases hr
  obtain ⟨⟨s₃, cards⟩, -, hr⟩ := Option.map_eq_some_iff.mp hr
  cases cards with
  | none => cases hr
  | some cards =>
    cases hr
    exact ⟨cards, rfl⟩

/-! ## The header area -/

/-- A header of a configured file: the reserved cards are in its area, and the area is in the file. -/
structure Desc.HasHeader (ds : Desc) (image : Nat) : Prop where
  configured : ds.configured = true
  reserved : (ds.headers image).nreserved ≤ (ds.headers image).maxkeywords
  area : (ds.headers image).offset + (ds.headers image).maxkeywords * 80 ≤ ds.bytes.length

/-- The area of a header is in the file that was laid out, and this is not larger than the file. -/
structure Desc.Sized (ds : Desc) (image : Nat) : Prop where
  area : (ds.headers image).offset + (ds.headers image).maxkeywords * 80 ≤ ds.filesize
  file : ds.filesize ≤ ds.bytes.length

/-- The bytes of a file with the entries `cards` in a header. -/
def Desc.withEntries (ds : Desc) (image : Nat) (cards : List Card) : Str :=
  let h := ds.headers image
  ds.bytes.take (h.offset + h.nreserved * 80) ++ (areaCards h cards).flatten ++
    ds.bytes.drop (h.offset + h.maxkeywords * 80)

/-- The keywords that are reserved for a header, as they are read, and `END`. -/
def reservedNames (rskw : List Card) : List Str := rskw.map Card.keyword ++ [['E', 'N', 'D']]

section WriteHeader

variable (env : Nat → Bool) {s : St} (hs : Disciplined s) {d image : Nat} (hh : (s.ds d).HasHeader image) {kwdb : Db}
  {L : List Entry} {T : Nat → List Nat} {txt : Nat × Option Db.Field → Str} (hr : Rep kwdb L T txt)
include hs hh hr

/-- Either no entry is deleted, or the reserved keywords are read and their copies are deleted. -/
theorem deleteCopies_cases :
    (∃ t, readHeader env s d image ((s.ds d).headers image).nreserved = some (t, none) ∧
      deleteCopies env s d image kwdb = some (t, none)) ∨
    ∃ s₁ rskw kwdb' L' T', readHeader env s d image ((s.ds d).headers image).nreserved = some (s₁, some rskw) ∧
      Disciplined s₁ ∧ (s.ds d).With (s.ds d).bytes (s₁.ds d) ∧ Rep kwdb' L' T' txt ∧
      DropsAll (reservedNames rskw) L L' ∧
      deleteCopies env s d image kwdb = some (s₁, some ((s.ds d).headers image, kwdb')) := by
  have hready : ready env s d = some (s, true) := by
    rw [ready, if_neg (by simp [hh.configured])]
  have hcall : deleteCopies env s d image kwdb =
      if (s.ds d).nimages < image then some (s, none)
      else
        (readHeader env s d image ((s.ds d).headers image).nreserved).bind fun (s₁, rskw) =>
          match rskw with
          | none => some (s₁, none)
          | some rskw => (dropCopies rskw kwdb).map fun kwdb => (s₁, some ((s.ds d).headers image, kwdb)) := by
    rw [deleteCopies, hready]
    rfl
  by_cases himage : (s.ds d).nimages < image
  · exact .inl ⟨s, by rw [readHeader, if_pos himage], hcall.trans (if_pos himage)⟩
  rw [if_neg himage] at hcall
  obtain ⟨s₁, rskw, hread, h₁⟩ := readHeader_ends env (d := d) hs image ((s.ds d).headers image).nreserved
  have hwith := readHeader_with hs hread
  rw [hread, Option.bind_some] at hcall
  cases rskw with
  | none => exact .inl ⟨s₁, hread, hcall⟩
  | some rskw =>
    obtain ⟨h₁, -⟩ := h₁.disciplined
    obtain ⟨cards, hentries⟩ := readHeader_entries hread
    have hnames : ∀ k ∈ reservedNames rskw, 0 ≤ Kwdb.hash k := by
      intro k hk
      rcases List.mem_append.mp hk with hk | hk
      · obtain ⟨c, hc, rfl⟩ := List.mem_map.mp hk
        obtain ⟨card, -, hkey⟩ := headerEntries_keyword (hentries ▸ hc)
        exact hkey ▸ hash_readKeyword card
      · rw [List.mem_singleton.mp hk]
        decide
    obtain ⟨kwdb', L', T', hdrop, hr', hdrops⟩ := dropNames_rep hr hnames
    have hdrop : dropCopies rskw kwdb = some kwdb' := hdrop
    dsimp only at hcall
    rw [hdrop] at hcall
    exact .inr ⟨s₁, rskw, kwdb', L', T', hread, h₁, hwith, hr', hdrops, hcall⟩

/-- Everything that `dsim_WriteHeader` can do: it fails before it has deleted an entry, or it has read the reserved
keywords and deleted their copies, and the rest is the writing part. -/
theorem dsimWriteHeader_cases :
    (∃ t, dsimWriteHeader env s d image kwdb = some (t, false, kwdb) ∧ (t.ds d).bytes = (s.ds d).bytes) ∨
    ∃ s₁ rskw kwdb' L' T', readHeader env s d image ((s.ds d).headers image).nreserved = some (s₁, some rskw) ∧
      Disciplined s₁ ∧ (s₁.ds d).bytes = (s.ds d).bytes ∧ Rep kwdb' L' T' txt ∧
      DropsAll (reservedNames rskw) L L' ∧
      dsimWriteHeader env s d image kwdb =
        (writeArea env s₁ d ((s.ds d).headers image) (L'.map Entry.card).length (L'.map Entry.card)).map
          fun (s, ok) => (s, ok, kwdb') := by
  rcases deleteCopies_cases env hs hh hr with
    ⟨t, hread, hcall⟩ | ⟨s₁, rskw, kwdb', L', T', hread, h₁, hwith, hr', hdrops, hcall⟩
  · refine .inl ⟨t, ?_, (readHeader_with hs hread).bytes⟩
    rw [dsimWriteHeader, hcall]
    rfl
  · refine .inr ⟨s₁, rskw, kwdb', L', T', hread, h₁, hwith.bytes, hr', hdrops, ?_⟩
    have hcards : kwdb'.cards = some (L'.map Entry.card) := Db.HasCards.cards ⟨_, _, _, hr', rfl⟩
    rw [dsimWriteHeader, hcall, Option.bind_some]
    dsimp only
    have hlen : kwdb'.len = (L'.map Entry.card).length := by
      rw [List.length_map]
      exact hr'.lists.count
    rw [hcards, Option.bind_some, hlen]

end WriteHeader

/-- A mapped file with a global header of four cards, of which the first one is reserved, and ten bytes behind it. -/
def smallFile : St where
  table := fun _ => none
  ds := fun _ => ⟨true, false, true, 0, fun _ => ⟨0, 4, 1, []⟩, 330,
    formatCard ['S', 'I', 'M', 'P', 'L', 'E'] ['T'] ['L'] [] ++ List.replicate 250 'x', 0⟩
  tick := 0
  trace := []

theorem smallFile_disciplined : Disciplined smallFile := ⟨fun _ ha => (List.not_mem_nil ha).elim, fun _ => rfl⟩

theorem smallFile_hasHeader : (smallFile.ds 0).HasHeader 0 := ⟨rfl, by decide, by decide +kernel⟩

/-- A copy of the reserved keyword of `smallFile` in small letters, and three other entries -/
def simpleEntry : Card := ⟨['s', 'i', 'm', 'p', 'l', 'e'], ['F'], ['L'], []⟩

def objectEntry : Card := ⟨['O', 'B', 'J', 'E', 'C', 'T'], ['M', '1'], ['S'], []⟩

def filterEntry : Card := ⟨['F', 'I', 'L', 'T', 'E', 'R'], ['J'], ['S'], []⟩

def exptimeEntry : Card := ⟨['E', 'X', 'P', 'T', 'I', 'M', 'E'], ['1', '0'], ['N'], ['s']⟩

end Ndhs.Dsim
