import Ndhs.Kwdb.Header

/-!
# How far a header is read

`kwdb_ReadFITS` is to stop at the `END` card, "or if we miss the END card and run into some binary data", and to
"trim any blank lines at the end of the header list".

* A card with binary data in the keyword field gets the keyword `END` with five blanks behind it, and the test for
  the end compares with `END`. Such a card is entered like any other, under that keyword.
* The loop that trims the list looks at the entries: it removes every text with an empty value, also one with a
  keyword or with something behind a line break, and also entries that were there before.

`scans_iff`: the reader does what it is to do if and only if the keyword fields in front of the end are printable,
and the last entry that is not from a blank card is no empty text.
-/

namespace Ndhs.Kwdb

open Text

variable {heap : Nat → Bool} {db : Db} {E : List Card} {junk : CStr}

/-- The card has nothing but blanks. -/
def isBlank (card : Str) : Bool := card.all (· == ' ')

/-- The keyword field has a character that is not printable. -/
def isBinary (card : Str) : Bool := !(card.take 8).all isPrint

/-- The keyword field is `END`. -/
def isEnd (card : Str) : Bool := streq ((card.take 8).takeWhile (· != ' ')) ['E', 'N', 'D']

/-- The cards of the header: up to the end, or the first card with binary data. -/
def headerCards (cards : List Str) : List Str := cards.takeWhile fun card => !(isEnd card || isBinary card)

/-- The cards in front of the end. -/
def frontCards (cards : List Str) : List Str := cards.takeWhile fun card => !(isEnd card && !isBinary card)

/-- The cards of a file that `maxcards` allows. -/
def fileCards (input : Str) (maxcards : Nat) : List Str := allowed maxcards 0 (readCards (input.length / 80) input)

/-- One entry is entered for each card of the header, and only blank cards at its end are removed. -/
def Scans (heap : Nat → Bool) (junk : CStr) (db : Db) (E : List Card) (input : Str) (maxcards : Nat) : Prop :=
  ∃ db' nb kept cut, headerCards (fileCards input maxcards) = kept ++ cut ∧ (∀ card ∈ cut, isBlank card = true) ∧
    db.readFITS heap junk input maxcards = some (db', ((kept ++ cut).length : Int), nb) ∧
    db'.cards = some (E ++ readEntries junk.text kept)

/-- The last entry is no empty text, when the blank cards at the end are left out. -/
def EndsInText (E : List Card) (cards : List Str) : Prop :=
  ∀ c ∈ (E ++ (cards.rdropWhile isBlank).map (readCard [])).getLast?, c.isEmptyText = false

/-! ## The end of the scan -/

theorem scanned_eq (cards : List Str) : scanned cards = frontCards cards := by
  refine congrArg (fun p => cards.takeWhile p) (funext fun card => ?_)
  unfold readKeyword isEnd isBinary
  by_cases hp : (card.take 8).all isPrint = true
  · simp [hp]
  · rw [if_neg hp]
    simp only [hp, Bool.not_true, Bool.not_false, Bool.and_false]
    decide

theorem headerCards_eq (cards : List Str) :
    headerCards cards = (frontCards cards).takeWhile fun card => !isBinary card := by
  rw [frontCards, List.takeWhile_takeWhile]
  refine congrArg (fun p => cards.takeWhile p) (funext fun card => ?_)
  cases isEnd card <;> cases isBinary card <;> rfl

/-- All cards in front of the end belong to the header exactly if none of them is binary. -/
theorem length_headerCards {cards : List Str} :
    (headerCards cards).length = (frontCards cards).length ↔ ∀ card ∈ frontCards cards, isBinary card = false := by
  have hpre := List.takeWhile_prefix (l := frontCards cards) fun card => !isBinary card
  rw [← headerCards_eq] at hpre
  constructor
  · intro h card hcard
    have heq := hpre.eq_of_length h
    rw [headerCards_eq, List.takeWhile_eq_self_iff] at heq
    simpa using heq card hcard
  · intro h
    rw [headerCards_eq, List.takeWhile_eq_self_iff.mpr fun card hcard => by simpa using h card hcard]

/-! ## Blank cards at the end -/

theorem rdropWhile_eq_self {α : Type*} {p : α → Bool} {l : List α} :
    l.rdropWhile p = l ↔ ∀ x ∈ l.getLast?, p x = false := by
  rw [List.rdropWhile_eq_self_iff]
  constructor
  · intro h x hx
    obtain ⟨hne, rfl⟩ := List.mem_getLast?_eq_getLast hx
    simpa using h hne
  · intro h hne
    simpa using h _ (List.getLast?_eq_getLast_of_ne_nil hne)

theorem rdropWhile_append_all {α : Type*} {p : α → Bool} {l t : List α} (ht : ∀ x ∈ t, p x = true) :
    (l ++ t).rdropWhile p = l.rdropWhile p := by
  induction t using List.reverseRecOn with
  | nil => rw [List.append_nil]
  | append_singleton t x ih =>
    rw [← List.append_assoc, List.rdropWhile_concat_pos _ _ _ (ht x (by simp)),
      ih fun y hy => ht y (List.mem_append_left _ hy)]

/-- The comment of the card before does not matter for the value and the type. -/
theorem readCard_isEmptyText (old card : Str) : (readCard old card).isEmptyText = (readCard [] card).isEmptyText := by
  unfold readCard readFields Card.isEmptyText
  dsimp only
  split <;> rfl

theorem readEntries_isEmptyText (old : Str) (cards : List Str) :
    (readEntries old cards).map Card.isEmptyText = (cards.map (readCard [])).map Card.isEmptyText := by
  induction cards generalizing old with
  | nil => rfl
  | cons card cards ih =>
    rw [readEntries, List.map_cons, List.map_cons, List.map_cons, ih, readCard_isEmptyText]

/-- A blank card is read as an empty text. -/
theorem isEmptyText_of_isBlank {card : Str} (h : isBlank card = true) (old : Str) :
    (readCard old card).isEmptyText = true := by
  have hblank : ∀ ch ∈ card, ch = ' ' := by simpa [isBlank] using h
  have htake : ∀ ch ∈ card.take 8, ch = ' ' := fun ch hch => hblank ch (List.mem_of_mem_take hch)
  have hall : (card.take 8).all isPrint = true := List.all_eq_true.mpr fun ch hch => by
    rw [htake ch hch]
    decide
  have hkey : readKeyword card = [] := by
    rw [readKeyword, if_pos hall, List.takeWhile_eq_nil_iff]
    intro hlen
    simp [htake _ (List.getElem_mem hlen)]
  have hcol : (card.getD 8 ' ' == '=') = false := by
    rw [List.getD_eq_getElem?_getD]
    cases hget : card[8]? with
    | none => rfl
    | some ch =>
      rw [hblank ch (List.mem_of_getElem? hget)]
      rfl
  have htext : trimmed (card.drop 8) = [] := by
    rw [trimmed, List.rdropWhile_eq_nil_iff]
    intro ch hch
    simpa using hblank ch (List.mem_of_mem_drop ((List.takeWhile_sublist _).subset hch))
  have hfields : readFields [] card old = ([], ['T'], old) := by
    unfold readFields
    dsimp only
    rw [hcol, htext, Bool.and_false, if_neg (by simp)]
    rfl
  rw [readCard, hkey, hfields]
  rfl

theorem readEntries_append (old : Str) (cards cards' : List Str) :
    ∃ old', readEntries old (cards ++ cards') = readEntries old cards ++ readEntries old' cards' := by
  induction cards generalizing old with
  | nil => exact ⟨old, rfl⟩
  | cons card cards ih =>
    obtain ⟨old', h⟩ := ih (readCard old card).comment
    refine ⟨old', ?_⟩
    rw [List.cons_append, readEntries, h]
    rfl

theorem getLast?_isEmptyText {l l' : List Card} (h : l.map Card.isEmptyText = l'.map Card.isEmptyText) :
    (∀ c ∈ l.getLast?, c.isEmptyText = false) ↔ ∀ c ∈ l'.getLast?, c.isEmptyText = false := by
  have hlast : l.getLast?.map Card.isEmptyText = l'.getLast?.map Card.isEmptyText := by
    rw [← List.getLast?_map, ← List.getLast?_map, h]
  cases hl : l.getLast? <;> cases hl' : l'.getLast? <;> simp_all

/-- The entries that are left, when the cards `cut` are blank. -/
theorem trim_readEntries (E : List Card) (old : Str) (kept : List Str) {cut : List Str}
    (hcut : ∀ card ∈ cut, isBlank card = true) :
    (E ++ readEntries old (kept ++ cut)).rdropWhile Card.isEmptyText =
      (E ++ readEntries old kept).rdropWhile Card.isEmptyText := by
  obtain ⟨old', happ⟩ := readEntries_append old kept cut
  rw [happ, ← List.append_assoc]
  refine rdropWhile_append_all fun c hc => ?_
  have hmap := readEntries_isEmptyText old' cut
  have hmem : c.isEmptyText ∈ (cut.map (readCard [])).map Card.isEmptyText := hmap ▸ List.mem_map_of_mem hc
  rw [List.map_map] at hmem
  obtain ⟨card, hcard, heq⟩ := List.mem_map.mp hmem
  rw [← heq]
  exact isEmptyText_of_isBlank (hcut card hcard) []

theorem trim_eq_self (E : List Card) (old : Str) (kept : List Str) :
    (E ++ readEntries old kept).rdropWhile Card.isEmptyText = E ++ readEntries old kept ↔
      ∀ c ∈ (E ++ kept.map (readCard [])).getLast?, c.isEmptyText = false := by
  rw [rdropWhile_eq_self]
  refine getLast?_isEmptyText ?_
  rw [List.map_append, List.map_append, readEntries_isEmptyText]

section

variable (hheap : ∀ n, heap n = true) (h : db.HasCards E) (hjunk : junk.text.length < defSzsbuf) {input : Str}
  {maxcards : Nat}
include hheap h hjunk

theorem Scans.front (hs : Scans heap junk db E input maxcards) :
    (∀ card ∈ frontCards (fileCards input maxcards), isBinary card = false) ∧
      EndsInText E (frontCards (fileCards input maxcards)) := by
  obtain ⟨db', hread, h'⟩ := h.readFITS hheap hjunk input maxcards
  rw [← fileCards, scanned_eq] at hread h'
  have hcards := h'.cards
  obtain ⟨db'', nb, kept, cut, hext, hcut, hread', hcards'⟩ := hs
  set cards := fileCards input maxcards with hdef
  rw [hread, Option.some.injEq, Prod.mk.injEq, Prod.mk.injEq, ← hext] at hread'
  obtain ⟨rfl, hlen, -⟩ := hread'
  have hprint := length_headerCards.mp (show (headerCards cards).length = (frontCards cards).length by omega)
  have hfront : frontCards cards = kept ++ cut := by
    rw [← hext, headerCards_eq, List.takeWhile_eq_self_iff.mpr fun card hcard => by simpa using hprint card hcard]
  rw [hcards', Option.some.injEq, hfront, trim_readEntries E _ kept hcut, eq_comm, trim_eq_self] at hcards
  refine ⟨hprint, ?_⟩
  -- the blank cards at the end are those that were removed
  have hkept : kept.rdropWhile isBlank = kept := by
    refine rdropWhile_eq_self.mpr fun card hcard => ?_
    have hlast : readCard [] card ∈ (E ++ kept.map (readCard [])).getLast? := by
      rw [List.getLast?_append, List.getLast?_map, hcard]
      rfl
    by_contra hblank
    have hempty := isEmptyText_of_isBlank (by simpa using hblank) []
    rw [hcards _ hlast] at hempty
    cases hempty
  rw [EndsInText, hfront, rdropWhile_append_all hcut, hkept]
  exact hcards

theorem scans_of_front (hprint : ∀ card ∈ frontCards (fileCards input maxcards), isBinary card = false)
    (hlast : EndsInText E (frontCards (fileCards input maxcards))) : Scans heap junk db E input maxcards := by
  obtain ⟨db', hread, h'⟩ := h.readFITS hheap hjunk input maxcards
  rw [← fileCards, scanned_eq] at hread h'
  set cards := fileCards input maxcards with hdef
  have hhead : headerCards cards = frontCards cards := by
    rw [headerCards_eq, List.takeWhile_eq_self_iff.mpr fun card hcard => by simpa using hprint card hcard]
  have hsplit : (frontCards cards).rdropWhile isBlank ++ (frontCards cards).rtakeWhile isBlank = frontCards cards :=
    List.rdropWhile_append_rtakeWhile
  have hcut : ∀ card ∈ (frontCards cards).rtakeWhile isBlank, isBlank card = true := fun card hcard =>
    List.mem_rtakeWhile_imp hcard
  refine ⟨db', _, _, _, hhead.trans hsplit.symm, hcut, by rw [hsplit]; exact hread, ?_⟩
  rw [h'.cards]
  conv_lhs => rw [← hsplit]
  rw [trim_readEntries E _ _ hcut, (trim_eq_self E _ _).mpr hlast]

/-- The reader reads the header and removes only blank cards if and only if no keyword field in front of
the end is binary, and the last entry that is not from a blank card is no empty text. -/
theorem scans_iff :
    Scans heap junk db E input maxcards ↔
      (∀ card ∈ frontCards (fileCards input maxcards), isBinary card = false) ∧
        EndsInText E (frontCards (fileCards input maxcards)) :=
  ⟨fun hs => hs.front hheap h hjunk, fun hc => scans_of_front hheap h hjunk hc.1 hc.2⟩

end

/-- A card, filled up with blanks. -/
def padded (s : Str) : Str := padTo 80 s

/-- A header with a blank card before the end, and data behind it. -/
theorem scans_sample :
    ∃ db : Db, db.HasCards [] ∧ Scans (fun _ => true) ⟨[], by decide⟩ db []
      (Card.format ⟨['A'], ['1'], ['N'], []⟩ ++ padded [] ++ padded ['E', 'N', 'D'] ++ List.replicate 80 '\x00') 0 := by
  obtain ⟨db, h⟩ := exists_hasCards (E := []) (by simp)
  refine ⟨db, h, (scans_iff (fun _ => rfl) h (by decide)).mpr ⟨by decide +kernel, ?_⟩⟩
  unfold EndsInText
  decide +kernel

/-- A file without a header and one with a keyword that has no text. -/
theorem not_scans_sample :
    ∃ db : Db, db.HasCards [] ∧ ¬ Scans (fun _ => true) ⟨[], by decide⟩ db [] (List.replicate 80 '\x00') 0 ∧
      ¬ Scans (fun _ => true) ⟨[], by decide⟩ db [] (padded ['A'] ++ padded ['E', 'N', 'D']) 0 := by
  obtain ⟨db, h⟩ := exists_hasCards (E := []) (by simp)
  refine ⟨db, h, fun hs => ?_, fun hs => ?_⟩
  · obtain ⟨hprint, -⟩ := hs.front (fun _ => rfl) h (by decide)
    revert hprint
    decide +kernel
  · obtain ⟨-, hlast⟩ := hs.front (fun _ => rfl) h (by decide)
    unfold EndsInText at hlast
    revert hlast
    decide +kernel

end Ndhs.Kwdb
