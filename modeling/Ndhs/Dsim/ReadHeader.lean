import Ndhs.Dsim.HeaderArea
import Ndhs.Kwdb.Carry

/-!
# What `dsim_ReadHeader` reads

A card is read if the system answers, which it is only asked for a file that is not mapped. The reading ends with the
first card that it does not give.

* `readLoop_round`: what one round of the loop can do.
* `readHeader_entered`: what is read are the first cards of the header, and all of them if the file is mapped.
* `readHeader_exists`: all of them can be read, and any number of the first ones if the file is not mapped.
-/

namespace Ndhs.Dsim

open Kwdb Text Function

/-- The bytes that can be read. A mapped file has those that it was laid out with. -/
def Desc.text (ds : Desc) : Str := if ds.isFile then ds.bytes else ds.bytes.take ds.filesize

/-- The cards that are entered after `ncards` cards -/
def enteredFrom (maxcards ncards : Nat) (input : Str) : List Str :=
  scanned (allowed maxcards ncards (readCards (input.length / 80) input))

section Entered

variable {maxcards ncards : Nat} {input : Str}

theorem enteredFrom_limit (h : maxcards ≠ 0 ∧ maxcards ≤ ncards) : enteredFrom maxcards ncards input = [] := by
  rw [enteredFrom, allowed, if_neg h.1, Nat.sub_eq_zero_of_le h.2]
  rfl

theorem enteredFrom_short (h : input.length < 80) : enteredFrom maxcards ncards input = [] := by
  rw [enteredFrom, Nat.div_eq_of_lt h, readCards, allowed]
  split <;> simp [scanned]

theorem enteredFrom_card (hlim : ¬ (maxcards ≠ 0 ∧ maxcards ≤ ncards)) (hlen : 80 ≤ input.length) :
    enteredFrom maxcards ncards input =
      if streq (readKeyword (input.take 80)) ['E', 'N', 'D'] then []
      else input.take 80 :: enteredFrom maxcards (ncards + 1) (input.drop 80) := by
  obtain ⟨n, hn⟩ : ∃ n, input.length / 80 = n + 1 := ⟨input.length / 80 - 1, by omega⟩
  have hrest : (input.drop 80).length / 80 = n := by
    rw [List.length_drop]
    omega
  rw [enteredFrom, hn, readCards, if_neg (by omega), allowed_cons hlim, scanned, List.takeWhile_cons, enteredFrom,
    hrest]
  cases streq (readKeyword (input.take 80)) ['E', 'N', 'D'] <;> rfl

end Entered

section Read

variable {env : Nat → Bool} {s t : St} {d p : Nat}

theorem Desc.With.isFile {ds ds' : Desc} {b : Str} (h : ds.With b ds') : ds'.isFile = ds.isFile := by
  rw [h]
  rfl

theorem Desc.With.filesize {ds ds' : Desc} {b : Str} (h : ds.With b ds') : ds'.filesize = ds.filesize := by
  rw [h]

theorem Desc.With.text {ds ds' : Desc} (h : ds.With ds.bytes ds') : ds'.text = ds.text := by
  rw [Desc.text, h.isFile, h.bytes, h.filesize, Desc.text]

variable (env) in
/-- One read: the card, if the system gives it and it is in the file -/
theorem dsRead_text (h : HeldAt d p s) (hsize : (s.ds d).filesize ≤ (s.ds d).bytes.length) :
    ∃ t, dsRead env d p s 0 =
        some (t, if ((s.ds d).isFile = true → env s.tick = true) ∧ p + 80 ≤ (s.ds d).text.length then
          some (((s.ds d).text.drop p).take 80) else none) ∧
      t.tick = s.tick + if (s.ds d).isFile then 1 else 0 := by
  obtain ⟨fp, rfl, hp, ht⟩ := h.slot
  have h0 : s.table 0 = some fp := by simp [ht]
  by_cases hf : (s.ds fp.dsim).isFile = true
  · have hpos : (s.ds fp.dsim).pos = p := by simpa [St.position, hf] using hp
    have hlen : (((s.ds fp.dsim).bytes.drop p).take 80).length = 80 ↔ p + 80 ≤ (s.ds fp.dsim).bytes.length := by
      rw [List.length_take, List.length_drop]
      omega
    rw [dsRead, h0, Option.map_some]
    simp only [hf, if_true, hpos, Desc.text, Bool.and_eq_true, beq_iff_eq, hlen, true_imp_iff]
    split
    · exact ⟨_, rfl, rfl⟩
    · exact ⟨_, rfl, rfl⟩
  · have hpos : fp.fpos = p := by simpa [St.position, hf] using hp
    have htext : (s.ds fp.dsim).text.length = (s.ds fp.dsim).filesize := by
      rw [Desc.text, if_neg hf, List.length_take, Nat.min_eq_left hsize]
    rw [dsRead, h0, Option.map_some]
    simp only [hf, if_false, hpos, htext, Bool.false_eq_true, false_imp_iff, true_and]
    by_cases hl : (s.ds fp.dsim).filesize < p
    · rw [if_pos hl, if_neg (by omega)]
      exact ⟨_, rfl, rfl⟩
    · rw [if_neg hl]
      by_cases hin : p + 80 ≤ (s.ds fp.dsim).filesize
      · have hcard : ((s.ds fp.dsim).text.drop p).take 80 = ((s.ds fp.dsim).bytes.drop p).take 80 := by
          rw [Desc.text, if_neg hf, List.drop_take, List.take_take, Nat.min_eq_left (by omega)]
        rw [if_pos hin, if_pos (by omega), hcard]
        exact ⟨_, rfl, rfl⟩
      · rw [if_neg hin, if_neg (by omega)]
        exact ⟨_, rfl, rfl⟩

/-- A card that the system gives -/
theorem dsRead_some (h : HeldAt d p s) (hsize : (s.ds d).filesize ≤ (s.ds d).bytes.length)
    (hask : (s.ds d).isFile = true → env s.tick = true) (hin : p + 80 ≤ (s.ds d).text.length) :
    ∃ t, dsRead env d p s 0 = some (t, some (((s.ds d).text.drop p).take 80)) ∧ HeldAt d (p + 80) t ∧
      (s.ds d).With (s.ds d).bytes (t.ds d) ∧ t.tick = s.tick + (s.ds d).questions := by
  obtain ⟨t, hread, htick⟩ := dsRead_text env h hsize
  rw [if_pos ⟨hask, hin⟩] at hread
  obtain ⟨t', card, hread', -, hat, -⟩ := dsRead_held env h
  obtain ⟨rfl, rfl⟩ : t = t' ∧ _ = card := by simpa [hread] using hread'
  exact ⟨t, hread, (hat rfl).1, dsRead_with h.held hread, htick⟩

theorem dsRead_none (h : HeldAt d p s) (hsize : (s.ds d).filesize ≤ (s.ds d).bytes.length)
    (hno : ¬ (((s.ds d).isFile = true → env s.tick = true) ∧ p + 80 ≤ (s.ds d).text.length)) :
    ∃ t, dsRead env d p s 0 = some (t, none) ∧ t.tick = s.tick + (s.ds d).questions := by
  obtain ⟨t, hread, htick⟩ := dsRead_text env h hsize
  rw [if_neg hno] at hread
  exact ⟨t, hread, htick⟩

variable {maxcards n : Nat} {cards : List Str}

/-- One round of the loop: it ends behind the last card, or with a card that the system does not give; or it goes on
with the cards behind the first one, if that can be entered. -/
theorem readLoop_round (h : HeldAt d p s) (hsize : (s.ds d).filesize ≤ (s.ds d).bytes.length) {E : List Str}
    (hE : enteredFrom maxcards cards.length ((s.ds d).text.drop p) = E) {r : Option (List Str)}
    (hr : readLoop env d 0 maxcards (n + 1) p cards s = some (t, r)) :
    (E = [] ∧ r = some cards) ∨
    ((s.ds d).isFile = true ∧ env s.tick = false ∧ r = some cards ∧ s.tick < t.tick) ∨
    (env (s.tick + (s.ds d).questions) = false ∧ r = none ∧ E ≠ [] ∧ ((s.ds d).isFile = true → env s.tick = true)) ∨
    ∃ card E' s₁, E = card :: E' ∧ ((s.ds d).isFile = true → env s.tick = true) ∧ HeldAt d (p + 80) s₁ ∧
      (s.ds d).With (s.ds d).bytes (s₁.ds d) ∧ s₁.tick = s.tick + (s.ds d).questions + 1 ∧
      enteredFrom maxcards (cards ++ [card]).length ((s₁.ds d).text.drop (p + 80)) = E' ∧
      readLoop env d 0 maxcards n (p + 80) (cards ++ [card]) s₁ = some (t, r) := by
  rw [readLoop] at hr
  split at hr
  · next hlim =>
    cases hr
    exact .inl ⟨hE ▸ enteredFrom_limit hlim, rfl⟩
  next hlim =>
  by_cases hok : ((s.ds d).isFile = true → env s.tick = true) ∧ p + 80 ≤ (s.ds d).text.length
  · obtain ⟨s₁, hread, hat, hwith, htick⟩ := dsRead_some h hsize hok.1 hok.2
    rw [enteredFrom_card hlim (by rw [List.length_drop]; omega)] at hE
    rw [hread, Option.bind_some] at hr
    dsimp only at hr
    split at hr
    · next hend =>
      cases hr
      exact .inl ⟨by rw [← hE, if_pos hend], rfl⟩
    next hend =>
    rw [if_neg hend] at hE
    split at hr
    · refine .inr (.inr (.inr ⟨_, _, s₁.ask, hE.symm, hok.1, ⟨hat.accesses, hat.slot⟩, hwith,
        congrArg (· + 1) htick, ?_, hr⟩))
      change enteredFrom _ _ ((s₁.ds d).text.drop _) = _
      rw [hwith.text, List.length_append, List.length_singleton, List.drop_drop]
    · next hno =>
      cases hr
      exact .inr (.inr (.inl ⟨htick ▸ Bool.eq_false_iff.mpr hno, rfl, hE ▸ List.cons_ne_nil _ _, hok.1⟩))
  · obtain ⟨s₁, hread, htick⟩ := dsRead_none h hsize hok
    rw [hread, Option.bind_some] at hr
    cases hr
    by_cases hin : p + 80 ≤ (s.ds d).text.length
    · obtain ⟨hf, hno⟩ := Classical.not_imp.mp fun hask => hok ⟨hask, hin⟩
      refine .inr (.inl ⟨hf, Bool.eq_false_iff.mpr hno, rfl, ?_⟩)
      rw [htick, Desc.questions, if_pos hf]
      exact Nat.lt_succ_self _
    · exact .inl ⟨hE ▸ enteredFrom_short (by rw [List.length_drop]; omega), rfl⟩

theorem Desc.With.questions {ds ds' : Desc} {b : Str} (h : ds.With b ds') : ds'.questions = ds.questions := by
  rw [Desc.questions, h.isFile, Desc.questions]

/-- The loop gives the first cards of the header, and all of them if the file is mapped. -/
theorem readLoop_entered (h : HeldAt d p s) (hsize : (s.ds d).filesize ≤ (s.ds d).bytes.length) {E r : List Str}
    (hE : enteredFrom maxcards cards.length ((s.ds d).text.drop p) = E)
    (hr : readLoop env d 0 maxcards n p cards s = some (t, some r)) :
    ∃ k ≤ E.length, r = cards ++ E.take k ∧ ((s.ds d).isFile = false → k = E.length) := by
  induction n generalizing p cards s E with
  | zero => cases hr
  | succ n ih =>
    rcases readLoop_round h hsize hE hr with ⟨rfl, hr⟩ | ⟨hf, -, hr, -⟩ | ⟨-, hr, -⟩ |
      ⟨card, E', s₁, rfl, -, hat, hwith, -, hE', hr⟩
    · cases hr
      exact ⟨0, le_rfl, by simp, fun _ => rfl⟩
    · cases hr
      exact ⟨0, Nat.zero_le _, by simp, fun hm => absurd (hf.symm.trans hm) (by decide)⟩
    · cases hr
    · obtain ⟨k, hk, hr, hall⟩ := ih hat (hwith.filesize.trans_le (hwith.bytes ▸ hsize)) hE' hr
      refine ⟨k + 1, Nat.succ_le_succ hk, by rw [hr, List.append_assoc]; rfl, fun hm => ?_⟩
      rw [hall (hwith.isFile.trans hm), List.length_cons]

/-- The first `k` cards are read, if the system answers as long as it is asked for them, and then it does not, or
these are all. -/
theorem readLoop_take (h : HeldAt d p s) (hsize : (s.ds d).filesize ≤ (s.ds d).bytes.length) {E : List Str}
    (hE : enteredFrom maxcards cards.length ((s.ds d).text.drop p) = E) {k : Nat} (hk : k ≤ E.length)
    (hlast : k < E.length → (s.ds d).isFile = true ∧ env (s.tick + 2 * k) = false)
    (henv : ∀ i < k * ((s.ds d).questions + 1), env (s.tick + i) = true) {r : Option (List Str)}
    (hr : readLoop env d 0 maxcards n p cards s = some (t, r)) :
    r = some (cards ++ E.take k) ∧ (k < E.length → s.tick + 2 * k < t.tick) := by
  have htwo : (s.ds d).isFile = true → (s.ds d).questions = 1 := fun hf => if_pos hf
  induction n generalizing p cards s k E with
  | zero => cases hr
  | succ n ih =>
    cases k with
    | zero =>
      have hlast : E ≠ [] → (s.ds d).isFile = true ∧ env s.tick = false := fun hne =>
        hlast (List.length_pos_iff.mpr hne)
      rcases readLoop_round h hsize hE hr with ⟨rfl, rfl⟩ | ⟨-, -, rfl, htick⟩ | ⟨-, -, hne, hask⟩ |
        ⟨card, E', s₁, rfl, hask, -⟩
      · exact ⟨by simp, fun hlt => absurd hlt (Nat.not_lt_zero _)⟩
      · exact ⟨by simp, fun _ => htick⟩
      · obtain ⟨hf, he⟩ := hlast hne
        exact absurd ((hask hf).symm.trans he) (by decide)
      · obtain ⟨hf, he⟩ := hlast (List.cons_ne_nil _ _)
        exact absurd ((hask hf).symm.trans he) (by decide)
    | succ k =>
      have hfirst : ∀ i ≤ (s.ds d).questions, env (s.tick + i) = true := fun i hi =>
        henv i (by rw [Nat.succ_mul]; omega)
      rcases readLoop_round h hsize hE hr with ⟨rfl, -⟩ | ⟨-, hno, -⟩ | ⟨hno, -⟩ |
        ⟨card, E', s₁, rfl, -, hat, hwith, htick, hE', hr⟩
      · exact absurd hk (by simp)
      · exact absurd ((hfirst 0 (Nat.zero_le _)).symm.trans hno) (by decide)
      · exact absurd ((hfirst _ le_rfl).symm.trans hno) (by decide)
      · rw [List.length_cons] at hk hlast ⊢
        have hlast' : k < E'.length → (s₁.ds d).isFile = true ∧ env (s₁.tick + 2 * k) = false := fun hlt => by
          obtain ⟨hf, he⟩ := hlast (Nat.succ_lt_succ hlt)
          refine ⟨hwith.isFile.trans hf, ?_⟩
          rw [htick, htwo hf, ← he]
          exact congrArg env (by omega)
        have henv' : ∀ i < k * ((s₁.ds d).questions + 1), env (s₁.tick + i) = true := fun i hi => by
          rw [hwith.questions] at hi
          rw [htick, Nat.add_assoc, Nat.add_assoc]
          exact henv _ (by rw [Nat.succ_mul]; omega)
        obtain ⟨rfl, hlt⟩ := ih hat (hwith.filesize.trans_le (hwith.bytes ▸ hsize)) hE' (Nat.le_of_succ_le_succ hk)
          hlast' henv' hr fun hf => hwith.questions.trans (htwo (hwith.isFile.symm.trans hf))
        refine ⟨by rw [List.append_assoc]; rfl, fun hk => ?_⟩
        have hlt := hlt (Nat.lt_of_succ_lt_succ hk)
        rw [htick, htwo (hlast hk).1] at hlt
        omega

/-! ## The whole header -/

@[simp] theorem dsClose_tick (fd : Nat) : (dsClose s fd).tick = s.tick := by
  unfold dsClose
  split <;> rfl

/-- The cards of a header that `dsim_ReadHeader` reads, if they can all be read -/
def Desc.headerCards (ds : Desc) (image maxentries : Nat) : List Str :=
  entered (ds.text.drop (readOffset ds image)) maxentries

variable (env) in
/-- The reading of a header after the seek -/
theorem readHeader_seek (h : Disciplined s) {image : Nat} (maxentries : Nat) (himage : ¬ (s.ds d).nimages < image)
    (hmem : env s.tick = true) :
    ∃ s₂ ok, (s.ds d).With (s.ds d).bytes (s₂.ds d) ∧ s₂.tick = s.tick + 1 + (s.ds d).questions ∧
      (ok = true ↔ ((s.ds d).isFile = true → env (s.tick + 1) = true) ∧ 0 ≤ int32 (readOffset (s.ds d) image)) ∧
      (ok = true → HeldAt d (readOffset (s.ds d) image) s₂) ∧
      readHeader env s d image maxentries =
        if ok then
          (readLoop env d 0 maxentries (s₂.rounds 0) (readOffset (s.ds d) image) [] s₂).map fun (s, cards) =>
            (dsClose s 0, cards.map headerEntries)
        else some (s₂, none) := by
  obtain ⟨s₁, ho, h₁, hds, htick⟩ := dsOpen_disciplined (d := d) h.ask false
  have hds : s₁.ds = s.ds := hds
  have htick : s₁.tick = s.tick + 1 := htick
  obtain ⟨s₂, ok, hl, -, hat, hok, htick₂, -⟩ := dsLseek_held env h₁ (readOffset (s.ds d) image)
  have hseek := dsLseek_with h₁ hl
  rw [hds] at hseek htick₂ hok
  rw [htick] at htick₂ hok
  refine ⟨s₂, ok, hseek, htick₂, hok, hat, ?_⟩
  rw [readHeader, if_neg himage, hmem]
  simp only [ho, hds, lt_irrefl, if_false, ne_eq, not_true, hl, Option.bind_some, Bool.not_true, Bool.false_eq_true]
  cases ok <;> rfl

variable {image : Nat} (maxentries : Nat) (hs : Disciplined s) (hsize : (s.ds d).filesize ≤ (s.ds d).bytes.length)
include hs hsize

/-- What `dsim_ReadHeader` gives are the first cards of the header, and all of them if the file is mapped. -/
theorem readHeader_entered {rskw : List Card} (hr : readHeader env s d image maxentries = some (t, some rskw)) :
    ¬ (s.ds d).nimages < image ∧ 0 ≤ int32 (readOffset (s.ds d) image) ∧
      ∃ k ≤ ((s.ds d).headerCards image maxentries).length,
        rskw = headerEntries (((s.ds d).headerCards image maxentries).take k) ∧
        ((s.ds d).isFile = false → k = ((s.ds d).headerCards image maxentries).length) := by
  by_cases himage : (s.ds d).nimages < image
  · rw [readHeader, if_pos himage] at hr
    cases hr
  by_cases hmem : env s.tick = true
  · obtain ⟨s₂, ok, hwith, -, hok, hat, hcall⟩ := readHeader_seek env hs maxentries himage hmem
    rw [hcall] at hr
    cases ok with
    | false => cases hr
    | true =>
      obtain ⟨⟨s₃, cards⟩, hloop, hr⟩ := Option.map_eq_some_iff.mp hr
      cases cards with
      | none => cases hr
      | some cards =>
        cases hr
        obtain ⟨k, hk, rfl, hall⟩ := readLoop_entered (hat rfl) (hwith.filesize.trans_le (hwith.bytes ▸ hsize))
          (E := (s.ds d).headerCards image maxentries) (by rw [hwith.text]; rfl) hloop
        exact ⟨himage, (hok.mp rfl).2, k, hk, rfl, fun hm => hall (hwith.isFile.trans hm)⟩
  · rw [readHeader, if_neg himage, if_pos (by simpa using hmem)] at hr
    cases hr

/-- Any number of the first cards can be read if the file is not mapped, and all of them can be read. -/
theorem readHeader_exists (himage : ¬ (s.ds d).nimages < image) (hseek : 0 ≤ int32 (readOffset (s.ds d) image))
    {k : Nat} (hk : k ≤ ((s.ds d).headerCards image maxentries).length)
    (hall : (s.ds d).isFile = false → k = ((s.ds d).headerCards image maxentries).length) :
    ∃ env t, readHeader env s d image maxentries =
        some (t, some (headerEntries (((s.ds d).headerCards image maxentries).take k))) ∧
      ∀ i, t.tick ≤ i → env i = true := by
  generalize hE : (s.ds d).headerCards image maxentries = E at hk hall ⊢
  -- the question for the card behind the last one that is read
  let env : Nat → Bool := fun i => decide (k < E.length → i ≠ s.tick + 2 + 2 * k)
  have hyes : ∀ {i}, i < s.tick + 2 + 2 * k → env i = true := fun hi => decide_eq_true fun _ => Nat.ne_of_lt hi
  obtain ⟨s₂, ok, hwith, htick, hok, hat, hcall⟩ :=
    readHeader_seek env hs maxentries himage (hyes (by omega))
  obtain rfl : ok = true := hok.mpr ⟨fun _ => hyes (by omega), hseek⟩
  obtain ⟨n, hn, hrounds⟩ := (hat rfl).rounds
  obtain ⟨s₃, r, hloop, -⟩ := readLoop_held env maxentries n [] (hat rfl) hrounds
  have hfile : k < E.length → (s.ds d).isFile = true := fun hlt => by
    by_contra hf
    exact absurd (hall (Bool.eq_false_iff.mpr hf)) (Nat.ne_of_lt hlt)
  have htwo : k < E.length → s₂.tick = s.tick + 2 := fun hlt => by
    rw [htick, Desc.questions, if_pos (hfile hlt)]
  have hle : s₂.tick + k * ((s₂.ds d).questions + 1) ≤ s.tick + 2 + 2 * k := by
    rw [htick, hwith.questions, Desc.questions]
    split <;> omega
  obtain ⟨rfl, hlt⟩ := readLoop_take (hat rfl) (hwith.filesize.trans_le (hwith.bytes ▸ hsize)) (E := E) (k := k)
    (by rw [hwith.text]; exact hE) hk
    (fun hlt => ⟨hwith.isFile.trans (hfile hlt), by simp [env, htwo hlt, hlt]⟩)
    (fun i hi => hyes (by omega)) hloop
  refine ⟨env, dsClose s₃ 0, ?_, fun i hi => decide_eq_true fun hk => ?_⟩
  · rw [hcall, hn, hloop]
    rfl
  · rw [dsClose_tick] at hi
    have hlt := hlt hk
    rw [htwo hk] at hlt
    omega

end Read

end Ndhs.Dsim
