import Ndhs.Kwdb.Header

/-!
# What is carried from card to card

`kwdb_ReadFITS` keeps the keyword, the value, the type and the comment of a card in buffers that it declares outside
its loop. Each card sets the first three. The comment is set only by a card with a value field:

    if (!iscomment && !ishistory && card[8] == '=') {
        …
        for (op=lop=comment;  ip < card+80 && *ip != '\n';  ip++) {

so the entry of any other card has the comment of the last card with a value before it, or, if there is none, what
the buffer held before the first card. `sameEntry_iff`: one card has the same entry in two streams exactly if it has a
value field, or the carried comments are the same.
-/

namespace Ndhs.Kwdb

open Text Buffer

variable {heap : Nat → Bool} {junk junk' : CStr} {db db' : Db} {E E' L L' : List Card} {card old : Str}

/-- The card has a value field: `!iscomment && !ishistory && card[8] == '='`. -/
def hasValue (card : Str) : Bool :=
  !streq (readKeyword card) ['C', 'O', 'M', 'M', 'E', 'N', 'T'] &&
    !streq (readKeyword card) ['H', 'I', 'S', 'T', 'O', 'R', 'Y'] && card.getD 8 ' ' == '='

/-- The content of the comment buffer after the cards: the comment of the last one with a value field. -/
def carried (junk : Str) (cards : List Str) : Str :=
  match (cards.filter hasValue).getLast? with
  | none => junk
  | some card => (readCard [] card).comment

/-- The entry of a card with a value field does not depend on the cards before. -/
theorem readCard_value (h : hasValue card = true) (old : Str) : readCard old card = readCard [] card := by
  unfold readCard readFields
  rw [hasValue] at h
  simp only [h, if_true]

/-- The entry of another card has the comment of the card before. -/
theorem readCard_other (h : hasValue card = false) (old : Str) :
    readCard old card = { readCard [] card with comment := old } := by
  unfold readCard readFields
  rw [hasValue] at h
  simp only [h, Bool.false_eq_true, if_false]

/-- The comment buffer after one more card. -/
theorem carried_cons (junk : Str) (card : Str) (cards : List Str) :
    carried junk (card :: cards) = carried (readCard junk card).comment cards := by
  unfold carried
  cases hv : hasValue card with
  | true =>
    rw [List.filter_cons_of_pos hv, List.getLast?_cons, readCard_value hv]
    cases (cards.filter hasValue).getLast? <;> rfl
  | false =>
    rw [List.filter_cons_of_neg (by simp [hv]), readCard_other hv]

/-- The entry of the `i`-th card. -/
theorem readEntries_getElem? (old : Str) (cards : List Str) (i : Nat) :
    (readEntries old cards)[i]? = cards[i]?.map (readCard (carried old (cards.take i))) := by
  induction cards generalizing old i with
  | nil => rfl
  | cons card cards ih =>
    rw [readEntries]
    cases i with
    | zero => rfl
    | succ i =>
      rw [List.getElem?_cons_succ, List.getElem?_cons_succ, List.take_succ_cons, carried_cons]
      exact ih _ i

/-- Two entries of one card differ at most in their comments. -/
theorem readCard_same (card old old' : Str) : (readCard old card).keyword = (readCard old' card).keyword ∧
    (readCard old card).value = (readCard old' card).value ∧ (readCard old card).type = (readCard old' card).type := by
  cases hv : hasValue card with
  | true => exact readCard_value hv old ▸ readCard_value hv old' ▸ ⟨rfl, rfl, rfl⟩
  | false => exact readCard_other hv old ▸ readCard_other hv old' ▸ ⟨rfl, rfl, rfl⟩

theorem readCard_eq_iff (old old' : Str) :
    readCard old card = readCard old' card ↔ hasValue card = true ∨ old = old' := by
  cases hv : hasValue card with
  | true => simp only [readCard_value hv, true_or]
  | false =>
    rw [readCard_other hv, readCard_other hv old']
    simp

/-! ## Streams -/

/-- The cards of a stream that `kwdb_ReadFITS` enters. -/
def entered (input : Str) (maxcards : Nat) : List Str :=
  scanned (allowed maxcards 0 (readCards (input.length / 80) input))

/-- `kwdb_ReadFITS` reads the stream into a database with the entries `E`, which then has the entries `L`. The
comment buffer holds `junk` before. -/
structure Db.ReadsTo (heap : Nat → Bool) (junk : CStr) (db : Db) (E : List Card) (input : Str) (maxcards : Nat)
    (L : List Card) : Prop where
  before : db.HasCards E
  short : junk.text.length < defSzsbuf
  read : ∃ db' n nb, db.readFITS heap junk input maxcards = some (db', n, nb) ∧ db'.cards = some L

variable {input input' : Str} {maxcards maxcards' : Nat}

/-- Each database takes each stream. -/
theorem Db.HasCards.readsTo (hheap : ∀ n, heap n = true) (h : db.HasCards E)
    (hjunk : junk.text.length < defSzsbuf) (input : Str) (maxcards : Nat) :
    db.ReadsTo heap junk E input maxcards
      ((E ++ readEntries junk.text (entered input maxcards)).rdropWhile Card.isEmptyText) := by
  obtain ⟨db', hread, h'⟩ := h.readFITS hheap hjunk input maxcards
  exact ⟨h, hjunk, db', _, _, hread, h'.cards⟩

/-- The entry that is stored for the `i`-th card of the stream. -/
theorem Db.ReadsTo.stored (hheap : ∀ n, heap n = true) (h : db.ReadsTo heap junk E input maxcards L) {i : Nat}
    {c : Card} (hc : L[E.length + i]? = some c) :
    ∃ card, (entered input maxcards)[i]? = some card ∧
      c = readCard (carried junk.text ((entered input maxcards).take i)) card := by
  obtain ⟨db', n, nb, hread, hcards⟩ := h.read
  obtain ⟨db'', n', nb', hread', hcards'⟩ := (h.before.readsTo hheap h.short input maxcards).read
  rw [hread] at hread'
  cases hread'
  rw [hcards] at hcards'
  cases hcards'
  obtain ⟨rest, hrest⟩ := List.rdropWhile_prefix (l := E ++ readEntries junk.text (entered input maxcards))
    Card.isEmptyText
  have hlt := (List.getElem?_eq_some_iff.mp hc).1
  have hc := (List.getElem?_append_left hlt : (_ ++ rest)[_]? = _).trans hc
  rw [hrest, List.getElem?_append_right (Nat.le_add_right _ _), Nat.add_sub_cancel_left, readEntries_getElem?] at hc
  obtain ⟨card, hcard, rfl⟩ := Option.map_eq_some_iff.mp hc
  exact ⟨card, hcard, rfl⟩

/-- One card in two streams has the same keyword, value and type, and it has the same comment exactly if it has a
value field or the comments that are carried to it are the same. -/
theorem sameEntry_iff (hheap : ∀ n, heap n = true) (h : db.ReadsTo heap junk E input maxcards L)
    (h' : db'.ReadsTo heap junk' E' input' maxcards' L') {i j : Nat} {c c' : Card}
    (hc : L[E.length + i]? = some c) (hc' : L'[E'.length + j]? = some c')
    (hcard : (entered input maxcards)[i]? = some card) (hcard' : (entered input' maxcards')[j]? = some card) :
    (c.keyword = c'.keyword ∧ c.value = c'.value ∧ c.type = c'.type) ∧
      (c = c' ↔ hasValue card = true ∨ carried junk.text ((entered input maxcards).take i) =
        carried junk'.text ((entered input' maxcards').take j)) := by
  obtain ⟨card₁, h₁, rfl⟩ := h.stored hheap hc
  obtain ⟨card₂, h₂, rfl⟩ := h'.stored hheap hc'
  cases hcard.symm.trans h₁
  cases hcard'.symm.trans h₂
  exact ⟨readCard_same card _ _, readCard_eq_iff _ _⟩

/-- A card with a value field and a comment, and a card of text. -/
def exptimeCard : Str := formatCard ['E', 'X', 'P', 'T', 'I', 'M', 'E'] ['3', '0'] ['N'] ['s', 'e', 'c']

def remarkCard : Str := formatCard ['C', 'O', 'M', 'M', 'E', 'N', 'T'] [' ', 'd', 'a', 'r', 'k'] ['C'] []

/-- The text is read after the number, and on its own. -/
def numberFirst : Str := exptimeCard ++ remarkCard

theorem entered_numberFirst : entered numberFirst 0 = [exptimeCard, remarkCard] := by decide +kernel

theorem entered_remark : entered remarkCard 0 = [remarkCard] := by decide +kernel

theorem noNull_nil : '\x00' ∉ ([] : Str) := List.not_mem_nil

/-- The text card has two different entries. -/
theorem stored_not_same :
    ∃ db L L', Db.ReadsTo (fun _ => true) ⟨[], noNull_nil⟩ db [] numberFirst 0 L ∧
      Db.ReadsTo (fun _ => true) ⟨[], noNull_nil⟩ db [] remarkCard 0 L' ∧
      (entered numberFirst 0)[1]? = (entered remarkCard 0)[0]? ∧
      L[1]? = some ⟨['C', 'O', 'M', 'M', 'E', 'N', 'T'], [' ', 'd', 'a', 'r', 'k'], ['C'], ['s', 'e', 'c']⟩ ∧
      L'[0]? = some ⟨['C', 'O', 'M', 'M', 'E', 'N', 'T'], [' ', 'd', 'a', 'r', 'k'], ['C'], []⟩ := by
  obtain ⟨db, hdb⟩ := exists_hasCards (E := []) (by simp)
  refine ⟨db, _, _, hdb.readsTo (fun _ => rfl) (by decide) _ _, hdb.readsTo (fun _ => rfl) (by decide) _ _, ?_, ?_, ?_⟩
  · rw [entered_numberFirst, entered_remark]
    rfl
  · rw [entered_numberFirst]
    decide +kernel
  · rw [entered_remark]
    decide +kernel

/-- The entries of the text card in the two streams, compared. -/
theorem stored_remark :
    ∃ db L L' c c', Db.ReadsTo (fun _ => true) ⟨[], noNull_nil⟩ db [] numberFirst 0 L ∧
      Db.ReadsTo (fun _ => true) ⟨[], noNull_nil⟩ db [] remarkCard 0 L' ∧ L[1]? = some c ∧ L'[0]? = some c' ∧
      (c.keyword = c'.keyword ∧ c.value = c'.value ∧ c.type = c'.type) ∧
      (c = c' ↔ hasValue remarkCard = true ∨ carried [] ((entered numberFirst 0).take 1) =
        carried [] ((entered remarkCard 0).take 0)) := by
  obtain ⟨db, hdb⟩ := exists_hasCards (E := []) (by simp)
  have h : Db.ReadsTo (fun _ => true) ⟨[], noNull_nil⟩ db [] numberFirst 0 _ :=
    hdb.readsTo (fun _ => rfl) (by decide) _ _
  have h' : Db.ReadsTo (fun _ => true) ⟨[], noNull_nil⟩ db [] remarkCard 0 _ :=
    hdb.readsTo (fun _ => rfl) (by decide) _ _
  rw [entered_numberFirst] at h
  rw [entered_remark] at h'
  exact ⟨db, _, _, _, _, h, h', rfl, rfl, sameEntry_iff (fun _ => rfl) h h' (i := 1) (j := 0) rfl rfl
    (congrArg (·[1]?) entered_numberFirst) (congrArg (·[0]?) entered_remark)⟩

end Ndhs.Kwdb
