import Ndhs.Dsim.HeaderArea

/-!
# Headers of configured files

`dsim_Configure` writes the reserved cards of all headers, and then sets the physical size of the file. So the headers
of a file that it has configured are in the file, with their reserved cards in their areas, and the file is as large as
it was laid out (`configure_hasHeader`). `dsim_WriteHeader` leaves this so (`writeHeader_hasHeader`).
-/

namespace Ndhs.Dsim

open Kwdb Text Function

/-- The files differ at most in their bytes, and `ds'` is not shorter. -/
def Desc.Same (ds ds' : Desc) : Prop := ∃ bytes, ds.bytes.length ≤ bytes.length ∧ ds.With bytes ds'

theorem Desc.Same.refl (ds : Desc) : ds.Same ds := ⟨_, le_rfl, .refl ds⟩

theorem Desc.With.same {ds ds' : Desc} (h : ds.With ds.bytes ds') : ds.Same ds' := ⟨_, le_rfl, h⟩

theorem Desc.Same.trans {ds ds' ds'' : Desc} (h : ds.Same ds') (h' : ds'.Same ds'') : ds.Same ds'' := by
  obtain ⟨b, hb, h⟩ := h
  obtain ⟨b', hb', h'⟩ := h'
  rw [h.bytes] at hb'
  exact ⟨b', hb.trans hb', h.trans h'⟩

theorem Desc.HasHeader.same {ds ds' : Desc} {image : Nat} (hh : ds.HasHeader image) (h : ds.Same ds') :
    ds'.HasHeader image := by
  obtain ⟨b, hb, h⟩ := h
  have harea := hh.area
  rw [h]
  exact ⟨hh.configured, hh.reserved, harea.trans hb⟩

theorem Desc.Sized.same {ds ds' : Desc} {image : Nat} (hz : ds.Sized image) (h : ds.Same ds') : ds'.Sized image := by
  obtain ⟨b, hb, h⟩ := h
  rw [h]
  exact ⟨hz.area, hz.file.trans hb⟩

section Held

variable {env : Nat → Bool} {s t : St} {d p : Nat} {ok : Bool}

theorem dsWrite_same {card : Str} (h : HeldAt d p s) (hw : dsWrite env d p s 0 card = some (t, ok)) :
    (s.ds d).Same (t.ds d) := by
  obtain ⟨fp, rfl, hp, ht⟩ := h.slot
  have h0 : s.table 0 = some fp := by simp [ht]
  rw [dsWrite, h0, Option.map_some, Option.some.injEq] at hw
  dsimp only at hw
  split at hw
  · split at hw
    · cases hw
      exact ⟨writeAt (s.ds fp.dsim).bytes (s.ds fp.dsim).pos card, length_le_writeAt .., by
        simp [Desc.With, St.setDs]⟩
    · cases hw
      exact .refl _
  · split at hw
    · cases hw
      exact .refl _
    · cases hw
      exact ⟨writeAt (s.ds fp.dsim).bytes fp.fpos (card.take (min (s.ds fp.dsim).filesize (fp.fpos + 80) - fp.fpos)),
        length_le_writeAt .., by simp [Desc.With, St.setDs, St.setSlot]⟩

theorem writeCards_same {cards : List Str} (h : HeldAt d p s)
    (hw : writeCards env d 0 cards p s = some (t, ok)) : (s.ds d).Same (t.ds d) := by
  induction cards generalizing p s with
  | nil =>
    cases hw
    exact .refl _
  | cons card cards ih =>
    obtain ⟨s₁, ok₁, h₁, -, hat, -⟩ := dsWrite_held env h card
    have hfirst := dsWrite_same h h₁
    rw [writeCards, h₁, Option.bind_some] at hw
    cases ok₁ with
    | false =>
      cases hw
      exact hfirst
    | true => exact hfirst.trans (ih (hat rfl) hw)

/-- The writing part succeeds only if there is room. -/
theorem writeArea_same {h : Hdr} {len : Nat} {cards : List Card} (hs : Disciplined s)
    (ha : writeArea env s d h len cards = some (t, ok)) :
    (s.ds d).Same (t.ds d) ∧ (ok = true → h.nreserved + len + 1 ≤ h.maxkeywords) := by
  obtain ⟨s₂, ho, h₂, hds, -⟩ := dsOpen_disciplined (d := d) hs true
  unfold writeArea at ha
  simp only [ho, lt_irrefl, if_false, ne_eq, not_true] at ha
  obtain ⟨s₃, ok₃, hl, h₃, hat, -⟩ := dsLseek_held env h₂ (h.offset + h.nreserved * 80)
  have hseek := (dsLseek_with h₂ hl).same
  rw [hds] at hseek
  rw [hl, Option.bind_some] at ha
  cases ok₃ with
  | false =>
    cases ha
    exact ⟨dsClose_ds s₃ 0 ▸ hseek, by simp⟩
  | true =>
    simp only [Bool.not_true, Bool.false_eq_true, if_false] at ha
    split at ha
    · cases ha
      exact ⟨dsClose_ds s₃ 0 ▸ hseek, by simp⟩
    next hfit =>
    obtain ⟨s₄, ok₄, hw, h₄, hat₄, -⟩ := writeCards_held env (cards.map Card.format) (hat rfl)
    have hfirst := writeCards_same (hat rfl) hw
    rw [hw, Option.bind_some] at ha
    cases ok₄ with
    | false =>
      cases ha
      exact ⟨dsClose_ds s₄ 0 ▸ hseek.trans hfirst, by simp⟩
    | true =>
      have hat₄ := hat₄ rfl
      rw [List.length_map] at hat₄
      simp only [Bool.not_true, Bool.false_eq_true, if_false] at ha
      obtain ⟨⟨s₅, ok₅⟩, hw₅, ha⟩ := Option.map_eq_some_iff.mp ha
      have hrest := writeCards_same hat₄ hw₅
      cases ok₅ with
      | false =>
        cases ha
        exact ⟨hseek.trans (hfirst.trans hrest), by simp⟩
      | true =>
        cases ha
        exact ⟨dsClose_ds s₅ 0 ▸ hseek.trans (hfirst.trans hrest), fun _ => Nat.le_of_not_lt hfit⟩

theorem writeHeader_same {image len : Nat} {kwdb : List Card} (hs : Disciplined s)
    (hw : writeHeader env s d image kwdb = some (t, ok, len)) :
    (s.ds d).Same (t.ds d) ∧
      (ok = true → ((s.ds d).headers image).nreserved + len + 1 ≤ ((s.ds d).headers image).maxkeywords) := by
  rw [writeHeader_eq] at hw
  split at hw
  · cases hw
    exact ⟨.refl _, by simp⟩
  obtain ⟨s₁, rskw, hread, h₁⟩ := readHeader_ends env (d := d) hs image ((s.ds d).headers image).nreserved
  have hwith := (readHeader_with hs hread).same
  rw [hread, Option.bind_some] at hw
  cases rskw with
  | none =>
    cases hw
    exact ⟨hwith, by simp⟩
  | some rskw =>
    obtain ⟨h₁, -⟩ := h₁.disciplined
    obtain ⟨⟨s₂, ok₂⟩, harea, hw⟩ := Option.map_eq_some_iff.mp hw
    obtain ⟨hsame, hfit⟩ := writeArea_same h₁ harea
    cases hw
    exact ⟨hwith.trans hsame, hfit⟩

end Held

/-! ## Configuring -/

/-- The file `ds'` is `ds` with other bytes and other numbers of reserved cards, which are in the areas of the headers
for which `p` holds. -/
structure Desc.Reserves (p : Nat → Prop) (ds ds' : Desc) : Prop where
  same : ds' = { ds with headers := ds'.headers, bytes := ds'.bytes, pos := ds'.pos }
  offset : ∀ j, (ds'.headers j).offset = (ds.headers j).offset
  maxkeywords : ∀ j, (ds'.headers j).maxkeywords = (ds.headers j).maxkeywords
  nreserved : ∀ j, p j → (ds'.headers j).nreserved ≤ (ds'.headers j).maxkeywords

section Configure

variable {env : Nat → Bool} {s t : St} {d : Nat}

theorem configureHeaders_reserves {n image : Nat} {p : Nat → Prop} (hs : Disciplined s)
    (hp : ∀ j, p j → ((s.ds d).headers j).nreserved ≤ ((s.ds d).headers j).maxkeywords)
    (hc : configureHeaders env d n image s = some (t, true)) :
    Desc.Reserves (fun j => p j ∨ image ≤ j ∧ j < image + n) (s.ds d) (t.ds d) := by
  induction n generalizing image s p with
  | zero =>
    cases hc
    refine ⟨rfl, fun _ => rfl, fun _ => rfl, fun j hj => ?_⟩
    rcases hj with hj | hj
    · exact hp j hj
    · omega
  | succ n ih =>
    rw [configureHeaders] at hc
    split at hc
    · cases hc
    obtain ⟨s₁, ok, len, hw, h₁⟩ := writeHeader_ends env (d := d) hs.ask image ((s.ds d).headers image).reserved
    obtain ⟨⟨bytes, -, hwith⟩, hfit⟩ := writeHeader_same hs.ask hw
    rw [hw, Option.bind_some] at hc
    cases ok with
    | false => cases hc
    | true =>
      obtain ⟨h₁, -⟩ := h₁.disciplined
      have hwith : s₁.ds d = { s.ds d with bytes, pos := (s₁.ds d).pos } := hwith
      have hfit : ((s.ds d).headers image).nreserved + len + 1 ≤ ((s.ds d).headers image).maxkeywords := hfit rfl
      set s₂ := s₁.setDs d ((s₁.ds d).setReserved image len) with hs₂
      have hds : s₂.ds d = (s₁.ds d).setReserved image len := by simp [hs₂, St.setDs]
      have hhdr : (s₂.ds d).headers =
          update (s.ds d).headers image { (s.ds d).headers image with nreserved := len } := by
        rw [hds, Desc.setReserved, hwith]
      have hrest := ih (s := s₂) (p := fun j => p j ∨ j = image) (h₁.setDs d _) (fun j hj => ?_) hc
      · refine ⟨?_, fun j => ?_, fun j => ?_, fun j hj => hrest.nreserved j ?_⟩
        · rw [hrest.same, hds, Desc.setReserved, hwith]
        · rw [hrest.offset, hhdr]
          by_cases hj : j = image
          · rw [hj, update_self]
          · rw [update_of_ne hj]
        · rw [hrest.maxkeywords, hhdr]
          by_cases hj : j = image
          · rw [hj, update_self]
          · rw [update_of_ne hj]
        · rcases hj with hj | ⟨hle, hlt⟩
          · exact .inl (.inl hj)
          · rcases hle.eq_or_lt with rfl | hlt'
            · exact .inl (.inr rfl)
            · exact .inr ⟨hlt', by omega⟩
      · rw [hhdr]
        by_cases hji : j = image
        · rw [hji, update_self]
          change len ≤ ((s.ds d).headers image).maxkeywords
          omega
        · rw [update_of_ne hji]
          exact hp j (hj.resolve_right hji)

/-- The headers of a file that `dsim_Configure` has configured are in the file, which has its size. -/
theorem configure_hasHeader (hs : Disciplined s) (hn : (s.ds d).nimages ≠ 0)
    (hlayout : ∀ j ≤ (s.ds d).nimages,
      ((s.ds d).headers j).offset + ((s.ds d).headers j).maxkeywords * 80 ≤ (s.ds d).filesize)
    (hc : configure env s d = some (t, true)) {j : Nat} (hj : j ≤ (s.ds d).nimages) :
    (t.ds d).HasHeader j ∧ (t.ds d).Sized j := by
  unfold configure at hc
  dsimp only at hc
  have h₀ := hs.setDs d { s.ds d with configuring := true }
  rw [if_neg (by simpa [St.setDs] using hn)] at hc
  obtain ⟨⟨s₁, ok⟩, hheaders, hc⟩ := Option.map_eq_some_iff.mp hc
  dsimp only at hc
  cases ok with
  | false => cases hc
  | true =>
    have hres := configureHeaders_reserves (p := fun _ => False) h₀ (fun _ h => h.elim) hheaders
    simp only [Bool.not_true, Bool.false_eq_true, if_false] at hc
    split at hc
    · cases hc
    cases hc
    have hsize : (s₁.ds d).filesize = (s.ds d).filesize := by
      rw [hres.same]
      simp [St.setDs]
    have hoff : ((s₁.ds d).headers j).offset = ((s.ds d).headers j).offset := by
      rw [hres.offset]
      simp [St.setDs]
    have hmax : ((s₁.ds d).headers j).maxkeywords = ((s.ds d).headers j).maxkeywords := by
      rw [hres.maxkeywords]
      simp [St.setDs]
    have hreserved := hres.nreserved j (.inr ⟨Nat.zero_le j, by simp [St.setDs]; omega⟩)
    have hlen := le_length_writeAt (s₁.ds d).bytes ((s₁.ds d).filesize - 1) ['\x00']
    have harea := hlayout j hj
    rw [List.length_singleton] at hlen
    refine ⟨⟨?_, ?_, ?_⟩, ?_, ?_⟩ <;> simp only [St.setDs, St.ask, update_self]
    · exact hreserved
    · omega
    · omega
    · omega

theorem dsimWriteHeader_same {image : Nat} {kwdb kwdb' : Db} {ok : Bool} (hs : Disciplined s)
    (hconf : (s.ds d).configured = true) (hw : dsimWriteHeader env s d image kwdb = some (t, ok, kwdb')) :
    (s.ds d).Same (t.ds d) := by
  have hready : ready env s d = some (s, true) := by
    rw [ready, if_neg (by simp [hconf])]
  obtain ⟨⟨s₁, r⟩, hfirst, hw⟩ := Option.bind_eq_some_iff.mp hw
  rw [deleteCopies, hready, Option.bind_some] at hfirst
  simp only [Bool.not_true, Bool.false_eq_true, if_false] at hfirst
  split at hfirst
  · cases hfirst
    cases hw
    exact .refl _
  obtain ⟨s₁, rskw, hread, h₁⟩ := readHeader_ends env (d := d) hs image ((s.ds d).headers image).nreserved
  have hwith := (readHeader_with hs hread).same
  rw [hread, Option.bind_some] at hfirst
  cases rskw with
  | none =>
    cases hfirst
    cases hw
    exact hwith
  | some rskw =>
    obtain ⟨h₁, -⟩ := h₁.disciplined
    obtain ⟨kwdb₁, -, hfirst⟩ := Option.map_eq_some_iff.mp hfirst
    cases hfirst
    obtain ⟨cards, -, hw⟩ := Option.bind_eq_some_iff.mp hw
    obtain ⟨⟨s₂, ok₂⟩, harea, hw⟩ := Option.map_eq_some_iff.mp hw
    cases hw
    exact hwith.trans (writeArea_same h₁ harea).1

/-- `dsim_WriteHeader` leaves the headers where they are, whether it succeeds or not. -/
theorem writeHeader_hasHeader {image j : Nat} {kwdb kwdb' : Db} {ok : Bool} (hs : Disciplined s)
    (hh : (s.ds d).HasHeader j) (hz : (s.ds d).Sized j)
    (hw : dsimWriteHeader env s d image kwdb = some (t, ok, kwdb')) :
    (t.ds d).HasHeader j ∧ (t.ds d).Sized j :=
  have hsame := dsimWriteHeader_same hs hh.configured hw
  ⟨hh.same hsame, hz.same hsame⟩

end Configure

end Ndhs.Dsim
