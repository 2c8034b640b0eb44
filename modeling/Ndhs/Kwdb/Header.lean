import Ndhs.Kwdb.Cards
import Ndhs.Kwdb.Refine

/-!
# Whole headers

`Db.HasCards db E` says that the database holds the entries `E`; it is kept by the calls that the reader makes.

* `HasCards.readFITS`: the reader enters one entry for each card up to one that it takes for the end
  (`scanned`, `readEntries`), and then removes the entries at the end that are empty texts.
* `HasCards.writeFITS`: the writer writes one card for each entry.
* `header_back`: a header of canonical entries is read as it was written.
-/

namespace Ndhs.Kwdb

open Text Buffer Linked Function

variable {heap : Nat → Bool} {db : Db} {E : List Card} {c : Card}

/-- The texts of an entry. -/
def Entry.card (e : Entry) : Card := ⟨e.name, e.value, e.type, e.comment⟩

/-- The entries that a loop over the database gets. -/
def Db.cards (db : Db) : Option (List Card) :=
  db.walk.bind fun eps => eps.mapM fun ep => (db.getEntry ep).map fun (keyword, value, type, comment) =>
    ⟨keyword, value, type, comment⟩

/-- The database holds the entries `E`. -/
def Db.HasCards (db : Db) (E : List Card) : Prop := ∃ L T txt, Rep db L T txt ∧ L.map Entry.card = E

/-- The texts fit into a grown string buffer, and the keyword has a place in the hash table. -/
structure Card.IsStorable (c : Card) : Prop where
  keyword : Storable c.keyword
  value : Storable c.value
  type : Storable c.type
  comment : Storable c.comment
  hash : 0 ≤ hash c.keyword

instance Card.decidableIsStorable (c : Card) : Decidable c.IsStorable :=
  have : ∀ s, Decidable (Storable s) := fun s =>
    decidable_of_iff ('\x00' ∉ s ∧ s.length < defSzsbuf) ⟨fun h => ⟨h.1, h.2⟩, fun h => ⟨h.1, h.2⟩⟩
  decidable_of_iff (Storable c.keyword ∧ Storable c.value ∧ Storable c.type ∧ Storable c.comment ∧ 0 ≤ hash c.keyword)
    ⟨fun h => ⟨h.1, h.2.1, h.2.2.1, h.2.2.2.1, h.2.2.2.2⟩, fun h => ⟨h.1, h.2, h.3, h.4, h.5⟩⟩

/-- A text card with an empty text. -/
def Card.isEmptyText (c : Card) : Bool := c.type.head? == some 'T' && c.value == []

/-! ## The calls of the reader and the writer -/

theorem Rep.getEntry {L : List Entry} {T : Nat → List Nat} {txt : Nat × Option Db.Field → Str} {e : Entry}
    (hr : Rep db L T txt) (he : e ∈ L) : db.getEntry e.ep = some (e.name, e.value, e.type, e.comment) := by
  have hstr := hr.texts.str he
  rw [Db.getEntry, if_neg (hr.lists.le_tail he)]
  exact congrArg some (Prod.ext (hstr none) (Prod.ext (hstr (some .value)) (Prod.ext (hstr (some .type))
    (hstr (some .comment)))))

namespace Db.HasCards

theorem cards (h : db.HasCards E) : db.cards = some E := by
  obtain ⟨L, T, txt, hr, rfl⟩ := h
  rw [Db.cards, hr.lists.walk, Option.bind_some, List.mapM_map]
  have hget : ∀ e ∈ L, ((fun ep => (db.getEntry ep).map fun (keyword, value, type, comment) =>
      Card.mk keyword value type comment) ∘ Entry.ep) e = some e.card := by
    intro e he
    rw [comp_apply, hr.getEntry he]
    rfl
  clear hr
  induction L with
  | nil => rfl
  | cons e L ih =>
    rw [List.mapM_cons, hget e List.mem_cons_self, ih fun e' he' => hget e' (List.mem_cons_of_mem e he')]
    rfl

theorem openDb {size : Nat} {name : CStr} (h : Db.openDb heap size name = some db) : db.HasCards [] :=
  ⟨[], _, _, Rep.openDb h, rfl⟩

theorem nitems (h : db.HasCards E) : db.nitems = E.length := by
  obtain ⟨L, T, txt, hr, rfl⟩ := h
  rw [hr.lists.count, List.length_map]

theorem noNull (h : db.HasCards E) (hc : c ∈ E) : '\x00' ∉ c.value := by
  obtain ⟨L, T, txt, hr, rfl⟩ := h
  obtain ⟨e, he, rfl⟩ := List.mem_map.mp hc
  have hnull := hr.texts.layout.noNull (e.ep, some .value) (List.mem_map_of_mem he)
  rwa [hr.texts.text e he] at hnull

/-- A new entry of texts of the caller. -/
theorem addEntry (hheap : ∀ n, heap n = true) (h : db.HasCards E) (hc : c.IsStorable) :
    ∃ db' ep, db.addEntry heap (.text c.keyword) (.text c.value) (.text c.type) (.text c.comment) =
      some (db', ep) ∧ 0 ≤ ep ∧ db'.HasCards (E ++ [c]) := by
  obtain ⟨L, T, txt, hr, rfl⟩ := h
  have hread : Reads heap db.sbuf (.text c.keyword) (.text c.value) (.text c.type) (.text c.comment) c.keyword
      c.value c.type c.comment :=
    reads_text hheap hr.texts.used (fun _ => rfl) (fun _ => rfl) (fun _ => rfl) (fun _ => rfl) hc.keyword hc.value
      hc.type hc.comment
  obtain ⟨db', hadd, -, hr'⟩ := hr.addEntry hheap hread hc.keyword hc.value hc.type hc.comment fun _ => hc.hash
  refine ⟨db', _, hadd, Int.natCast_nonneg _, _, _, _, hr', ?_⟩
  rw [List.map_append]
  rfl

theorem tail_nil (h : db.HasCards []) : db.tail = 0 := by
  obtain ⟨L, T, txt, hr, hL⟩ := h
  obtain rfl := List.map_eq_nil_iff.mp hL
  exact hr.lists.tail

/-- The entry that `kwdb_Tail` points to. -/
theorem tail_concat (h : db.HasCards (E ++ [c])) :
    db.tail ≠ 0 ∧ db.getEntry db.tail = some (c.keyword, c.value, c.type, c.comment) ∧
      ∃ db', db.deleteEntry db.tail = some (db', 0) ∧ db'.HasCards E := by
  obtain ⟨L', T, txt, hr, hL⟩ := h
  obtain ⟨L, l, rfl, rfl, hl⟩ := List.map_eq_append_iff.mp hL
  obtain ⟨e, rfl, rfl⟩ := List.map_eq_singleton_iff.mp hl
  have hmem : e ∈ L ++ [e] := by simp
  have htail : db.tail = e.ep := by
    rw [hr.lists.tail, List.map_append]
    exact last_concat
  obtain ⟨db', hdel, hr'⟩ := hr.deleteEntry hmem
  have hnd := hr.lists.nodup
  rw [List.map_append, List.nodup_append] at hnd
  have hfilter : ((L ++ [e]).filter fun e' => e'.ep ≠ e.ep) = L := by
    rw [List.filter_append, List.filter_eq_self.mpr]
    · simp
    · intro e' he'
      have := hnd.2.2 e'.ep (List.mem_map_of_mem he') e.ep (by simp)
      simpa using this
  rw [hfilter] at hr'
  rw [htail]
  exact ⟨hr.lists.ep_ne_zero hmem, hr.getEntry hmem, db', hdel, L, _, _, hr', rfl⟩

/-- The loop at the end of `kwdb_ReadFITS` removes the empty texts at the end. -/
theorem trimLoop {n : Nat} (h : db.HasCards E) (hn : E.length ≤ n) (nb : Nat) :
    ∃ db', Db.trimLoop n db nb = some (db', nb + (E.rtakeWhile Card.isEmptyText).length) ∧
      db'.HasCards (E.rdropWhile Card.isEmptyText) := by
  induction E using List.reverseRecOn generalizing db n nb with
  | nil =>
    have h0 := h.tail_nil
    refine ⟨db, ?_, h⟩
    cases n with
    | zero => exact if_pos h0
    | succ n => exact if_pos h0
  | append_singleton E c ih =>
    obtain ⟨h0, hget, db', hdel, h'⟩ := h.tail_concat
    obtain ⟨n, rfl⟩ : ∃ m, n = m + 1 := ⟨n - 1, by simp at hn; omega⟩
    rw [Db.trimLoop, if_neg h0, hget]
    dsimp only
    by_cases hc : c.type.head? = some 'T' ∧ c.value = []
    · have hblank : c.isEmptyText = true := by simpa [Card.isEmptyText] using hc
      rw [if_pos hc, hdel, Option.bind_some, List.rdropWhile_concat_pos _ _ _ hblank,
        List.rtakeWhile_concat_pos _ _ _ hblank]
      obtain ⟨db'', htrim, h''⟩ := ih h' (by simpa using hn) (nb + 1)
      refine ⟨db'', ?_, h''⟩
      rw [htrim, List.length_append, List.length_singleton]
      congr 2
      omega
    · have hblank : ¬ c.isEmptyText = true := by simpa [Card.isEmptyText] using hc
      rw [if_neg hc, List.rdropWhile_concat_neg _ _ _ hblank, List.rtakeWhile_concat_neg _ _ _ hblank]
      exact ⟨db, rfl, h⟩

end Db.HasCards

/-! ## Reading a header -/

/-- The entry for a card that is read after one with the comment `old`. -/
def readCard (old card : Str) : Card :=
  let fields := readFields (readKeyword card) card old
  ⟨readKeyword card, fields.1, fields.2.1, fields.2.2⟩

/-- The entries for the cards. -/
def readEntries : Str → List Str → List Card
  | _, [] => []
  | old, card :: cards => readCard old card :: readEntries (readCard old card).comment cards

/-- The cards that `maxcards` allows after `ncards` cards; zero is no limit. -/
def allowed (maxcards ncards : Nat) (cards : List Str) : List Str :=
  if maxcards = 0 then cards else cards.take (maxcards - ncards)

/-- The cards up to the one that is taken for the end. -/
def scanned (cards : List Str) : List Str :=
  cards.takeWhile fun card => !streq (readKeyword card) ['E', 'N', 'D']

/-- The cards have 80 characters, all of them from the input. -/
theorem mem_readCards {n : Nat} {input card : Str} (h : card ∈ readCards n input) :
    card.length = 80 ∧ card ⊆ input := by
  induction n generalizing input with
  | zero => cases h
  | succ n ih =>
    rw [readCards] at h
    split at h
    · cases h
    · rcases List.mem_cons.mp h with rfl | h
      · refine ⟨?_, List.take_subset _ _⟩
        rw [List.length_take]
        omega
      · obtain ⟨hlen, hsub⟩ := ih h
        exact ⟨hlen, List.Subset.trans hsub (List.drop_subset _ _)⟩

theorem noNull_upToNull (s : Str) : '\x00' ∉ upToNull s := fun h => by
  simpa using List.mem_takeWhile_imp h

theorem length_upToNull_le (s : Str) : (upToNull s).length ≤ s.length :=
  (List.takeWhile_sublist _).length_le

theorem length_trimmed_le (s : Str) : (trimmed s).length ≤ s.length :=
  (List.rdropWhile_prefix _ _).length_le.trans (List.takeWhile_sublist _).length_le

theorem skipSpaces_suffix (n : Nat) (ip : Str) : skipSpaces n ip <:+ ip := by
  induction n generalizing ip with
  | zero => exact List.suffix_rfl
  | succ n ih =>
    cases ip with
    | nil => exact List.suffix_rfl
    | cons ch ip =>
      rw [skipSpaces]
      split
      · exact (ih ip).trans (List.suffix_cons ch ip)
      · exact List.suffix_rfl

/-- The parts of the value field are parts of the card. -/
theorem readValue_length_le (ip : Str) :
    (readValue ip).2.1.length ≤ ip.length ∧ (readValue ip).2.2.length ≤ ip.length := by
  have htake : ∀ p : Char → Bool, (ip.takeWhile p).length ≤ ip.length := fun p =>
    (List.takeWhile_sublist p).length_le
  have hdrop : ∀ p : Char → Bool, (ip.dropWhile p).length ≤ ip.length := fun p =>
    (List.dropWhile_sublist p).length_le
  unfold readValue
  split
  · next ip =>
    have h₁ := (List.takeWhile_sublist (l := ip) fun ch => ch != '\'').length_le
    have h₂ := (List.dropWhile_sublist (l := ip) fun ch => ch != '\'').length_le
    simp only [List.length_cons, List.length_drop]
    omega
  · exact ⟨htake _, hdrop _⟩

theorem readKeyword_print {card : Str} {ch : Char} (h : ch ∈ readKeyword card) : isPrint ch = true := by
  unfold readKeyword at h
  split at h
  · next hall => exact List.all_eq_true.mp hall ch ((List.takeWhile_sublist _).subset h)
  · revert ch
    decide

/-- The keyword of a card has a place in the hash table. -/
theorem hash_readKeyword (card : Str) : 0 ≤ hash (readKeyword card) := by
  refine IsAscii.hash_nonneg fun ch hch => ?_
  have hp := readKeyword_print hch
  simp only [isPrint, Bool.and_eq_true, decide_eq_true_eq] at hp
  omega

theorem length_readKeyword_le (card : Str) : (readKeyword card).length ≤ 8 := by
  unfold readKeyword
  split
  · exact (List.takeWhile_sublist _).length_le.trans (List.length_take_le _ _)
  · decide

theorem storable_upToNull {s : Str} (h : s.length ≤ 80) : Storable (upToNull s) :=
  ⟨noNull_upToNull s, ((length_upToNull_le s).trans h).trans_lt (by decide)⟩

/-- Whatever is on a card, its texts can be entered. -/
theorem readCard_storable {old card : Str} (hcard : card.length = 80) (hold : Storable old) :
    (readCard old card).IsStorable := by
  have hkey : Storable (readKeyword card) :=
    ⟨fun h => absurd (readKeyword_print h) (by decide), (length_readKeyword_le card).trans_lt (by decide)⟩
  have hskip : (skipSpaces 21 (card.drop 9)).length ≤ 80 := by
    have := (skipSpaces_suffix 21 (card.drop 9)).length_le
    rw [List.length_drop] at this
    omega
  have hvalue := readValue_length_le (skipSpaces 21 (card.drop 9))
  have hafter := (List.dropWhile_sublist (l := (readValue (skipSpaces 21 (card.drop 9))).2.2)
    fun ch => ch == '/' || ch == ' ').length_le
  have hcomment := length_trimmed_le ((readValue (skipSpaces 21 (card.drop 9))).2.2.dropWhile
    fun ch => ch == '/' || ch == ' ')
  have htext := length_trimmed_le (card.drop 8)
  rw [List.length_drop] at htext
  have htype : ∀ s ∈ [['S'], ['L'], ['N'], ['C'], ['H'], ['T']], Storable s := by
    intro s hs
    refine ⟨?_, ?_⟩ <;> revert s <;> decide
  unfold readCard readFields
  dsimp only
  split
  · refine ⟨hkey, storable_upToNull (hvalue.1.trans hskip), htype _ ?_,
      storable_upToNull ((hcomment.trans hafter).trans (hvalue.2.trans hskip)), hash_readKeyword card⟩
    split
    · simp
    · split <;> simp
  · refine ⟨hkey, storable_upToNull (by omega), htype _ ?_, hold, hash_readKeyword card⟩
    split
    · simp
    · split <;> simp

theorem allowed_cons {maxcards n : Nat} (h : ¬ (maxcards ≠ 0 ∧ maxcards ≤ n)) (card : Str) (cards : List Str) :
    allowed maxcards n (card :: cards) = card :: allowed maxcards (n + 1) cards := by
  unfold allowed
  split
  · rfl
  · obtain ⟨m, hm⟩ : ∃ m, maxcards - n = m + 1 := ⟨maxcards - n - 1, by omega⟩
    rw [hm, List.take_succ_cons, show maxcards - (n + 1) = m by omega]

/-- The loop enters one entry for each card up to the end. -/
theorem Db.HasCards.readLoop (hheap : ∀ n, heap n = true) (h : db.HasCards E) {old : Str} (hold : Storable old)
    {cards : List Str} (hcards : ∀ card ∈ cards, card.length = 80) (maxcards n : Nat) :
    ∃ db', db.readLoop heap maxcards old n cards =
        some (db', ((n + (scanned (allowed maxcards n cards)).length : Nat) : Int)) ∧
      db'.HasCards (E ++ readEntries old (scanned (allowed maxcards n cards))) := by
  induction cards generalizing db E old n with
  | nil =>
    have hnil : scanned (allowed maxcards n []) = [] := by simp [allowed, scanned]
    rw [hnil]
    exact ⟨db, rfl, by simpa [readEntries] using h⟩
  | cons card cards ih =>
    rw [Db.readLoop]
    by_cases hmax : maxcards ≠ 0 ∧ maxcards ≤ n
    · have hnil : scanned (allowed maxcards n (card :: cards)) = [] := by
        simp [allowed, hmax.1, Nat.sub_eq_zero_of_le hmax.2, scanned]
      rw [if_pos hmax, hnil]
      exact ⟨db, rfl, by simpa [readEntries] using h⟩
    · rw [if_neg hmax, allowed_cons hmax]
      by_cases hend : streq (readKeyword card) ['E', 'N', 'D'] = true
      · have hnil : scanned (card :: allowed maxcards (n + 1) cards) = [] := by simp [scanned, hend]
        rw [if_pos hend, hnil]
        exact ⟨db, rfl, by simpa [readEntries] using h⟩
      · have hcons : scanned (card :: allowed maxcards (n + 1) cards) =
            card :: scanned (allowed maxcards (n + 1) cards) := by simp [scanned, hend]
        have hst := readCard_storable (hcards card List.mem_cons_self) hold
        obtain ⟨db', ep, hadd, hep, h'⟩ := h.addEntry hheap hst
        obtain ⟨db'', hloop, h''⟩ := ih h' hst.comment (fun d hd => hcards d (List.mem_cons_of_mem card hd)) (n + 1)
        rw [if_neg hend, hcons]
        refine ⟨db'', ?_, ?_⟩
        · change Option.bind (db.addEntry heap (.text (readCard old card).keyword) (.text (readCard old card).value)
            (.text (readCard old card).type) (.text (readCard old card).comment)) _ = _
          rw [hadd, Option.bind_some]
          dsimp only
          rw [if_neg (by omega)]
          refine hloop.trans ?_
          rw [List.length_cons]
          congr 3
          omega
        · rw [readEntries]
          simpa using h''

/-- `kwdb_ReadFITS` of a file with any content. -/
theorem Db.HasCards.readFITS (hheap : ∀ n, heap n = true) (h : db.HasCards E) {junk : CStr}
    (hjunk : junk.text.length < defSzsbuf) (input : Str) (maxcards : Nat) :
    ∃ db', db.readFITS heap junk input maxcards =
        some (db', ((scanned (allowed maxcards 0 (readCards (input.length / 80) input))).length : Int),
          ((E ++ readEntries junk.text (scanned (allowed maxcards 0
            (readCards (input.length / 80) input)))).rtakeWhile Card.isEmptyText).length) ∧
      db'.HasCards ((E ++ readEntries junk.text (scanned (allowed maxcards 0
        (readCards (input.length / 80) input)))).rdropWhile Card.isEmptyText) := by
  have hcards : ∀ card ∈ readCards (input.length / 80) input, card.length = 80 := fun card hc => (mem_readCards hc).1
  obtain ⟨db', hloop, h'⟩ := h.readLoop hheap ⟨junk.noNull, hjunk⟩ hcards maxcards 0
  obtain ⟨db'', htrim, h''⟩ := h'.trimLoop h'.nitems.ge 0
  rw [Nat.zero_add] at htrim hloop
  refine ⟨db'', ?_, h''⟩
  rw [Db.readFITS, hloop, Option.bind_some]
  dsimp only
  rw [if_neg (by omega), htrim]
  rfl

/-! ## Writing a header -/

/-- The card of an entry. -/
def Card.format (c : Card) : Str := formatCard c.keyword c.value c.type c.comment

theorem Card.format_length (c : Card) : c.format.length = 80 :=
  formatCard_length c.keyword c.value c.type c.comment

theorem length_flatten_cards {cards : List Str} (h : ∀ card ∈ cards, card.length = 80) :
    cards.flatten.length = 80 * cards.length := by
  rw [List.length_flatten, List.map_congr_left h, List.map_const', List.sum_replicate_nat, mul_comm]

/-- The cards are read one by one. -/
theorem readCards_append {cards : List Str} (h : ∀ card ∈ cards, card.length = 80) (n : Nat) (rest : Str) :
    readCards (cards.length + n) (cards.flatten ++ rest) = cards ++ readCards n rest := by
  induction cards with
  | nil => simp
  | cons card cards ih =>
    have hcard := h card List.mem_cons_self
    rw [List.length_cons, List.flatten_cons, List.append_assoc, Nat.add_right_comm, readCards,
      if_neg (by rw [List.length_append]; omega), List.take_left' hcard, List.drop_left' hcard,
      ih fun d hd => h d (List.mem_cons_of_mem card hd), List.cons_append]

theorem readCards_flatten {cards : List Str} (h : ∀ card ∈ cards, card.length = 80) :
    readCards (cards.flatten.length / 80) cards.flatten = cards := by
  have hread := readCards_append h 0 []
  rw [Nat.add_zero, readCards, List.append_nil, List.append_nil] at hread
  rw [length_flatten_cards h, Nat.mul_div_cancel_left _ (by decide), hread]

/-- `kwdb_WriteFITS` of a database, if the file takes all cards. -/
theorem Db.HasCards.writeFITS (h : db.HasCards E) {room : Nat} (hroom : E.length ≤ room) :
    db.writeFITS room = some ((E.map Card.format).flatten, (E.length : Int)) := by
  obtain ⟨L, T, txt, hr, rfl⟩ := h
  rw [Db.writeFITS, hr.lists.walk, Option.map_some]
  have hget : ∀ e ∈ L, db.getEntry e.ep = some (e.name, e.value, e.type, e.comment) := fun e he => hr.getEntry he
  clear hr
  have hloop : ∀ (n : Nat) (out : Str), db.writeLoop room n out (L.map Entry.ep) =
      (out ++ ((L.map Entry.card).map Card.format).flatten, ((n + L.length : Nat) : Int)) := by
    rw [List.length_map] at hroom
    induction L generalizing room with
    | nil => simp [Db.writeLoop]
    | cons e L ih =>
      intro n out
      obtain ⟨room, rfl⟩ : ∃ m, room = m + 1 := ⟨room - 1, by simp at hroom; omega⟩
      rw [List.map_cons, Db.writeLoop, hget e List.mem_cons_self]
      dsimp only
      rw [ih (by simpa using hroom) fun e' he' => hget e' (List.mem_cons_of_mem e he')]
      simp only [List.map_cons, List.flatten_cons, List.length_cons, List.append_assoc, Prod.mk.injEq]
      exact ⟨rfl, by omega⟩
  rw [hloop, List.length_map, Nat.zero_add, List.nil_append]

/-! ## A header that was written -/

/-- The entries that are read from the cards of entries. -/
theorem readEntries_format (hE : ∀ c ∈ E, c.IsCanonical ∧ '\x00' ∉ c.value) (old : Str) :
    List.Forall₂ SameCard E (readEntries old (E.map Card.format)) := by
  induction E generalizing old with
  | nil => exact .nil
  | cons c E ih =>
    obtain ⟨hc, hnull⟩ := hE c List.mem_cons_self
    exact .cons (hc.back hnull old) (ih (fun d hd => hE d (List.mem_cons_of_mem c hd)) _)

/-- No card of a canonical entry is taken for the end. -/
theorem scanned_format (hE : ∀ c ∈ E, c.IsCanonical ∧ '\x00' ∉ c.value) :
    scanned (E.map Card.format) = E.map Card.format := by
  refine List.takeWhile_eq_self_iff.mpr fun card hcard => ?_
  obtain ⟨c, hc, rfl⟩ := List.mem_map.mp hcard
  obtain ⟨hcan, hnull⟩ := hE c hc
  have hkw : readKeyword c.format = c.keyword := (hcan.back hnull []).keyword
  rw [hkw, hcan.stated.notEnd]
  rfl

theorem SameCard.isEmptyText {c' : Card} (h : SameCard c c') (hc' : c'.isEmptyText = true) :
    c.type.head? = some 'T' ∧ ∀ ch ∈ c.value, ch = ' ' := by
  simp only [Card.isEmptyText, Bool.and_eq_true, beq_iff_eq] at hc'
  refine ⟨h.type ▸ hc'.1, ?_⟩
  have hval := h.value
  rw [hc'.2, List.rdropWhile_nil, eq_comm, List.rdropWhile_eq_nil_iff] at hval
  simpa using hval

theorem getLast_same {E' : List Card} (h : List.Forall₂ SameCard E E') (hne : E' ≠ []) :
    ∃ c ∈ E.getLast?, SameCard c (E'.getLast hne) := by
  induction h with
  | nil => exact absurd rfl hne
  | cons hc ht ih =>
    cases ht with
    | nil => exact ⟨_, rfl, hc⟩
    | cons => simpa using ih (by simp)

/-- The entries that are read from the file that `db` writes. -/
def Db.reread (heap : Nat → Bool) (junk : CStr) (room : Nat) (db db₀ : Db) : Option (List Card) :=
  (db.writeFITS room).bind fun (out, _) => (db₀.readFITS heap junk out 0).bind fun (db', _) => db'.cards

theorem Db.HasCards.reread (hheap : ∀ n, heap n = true) {db₀ : Db} (h : db.HasCards E) (h₀ : db₀.HasCards [])
    {room : Nat} (hroom : E.length ≤ room) {junk : CStr} (hjunk : junk.text.length < defSzsbuf) :
    db.reread heap junk room db₀ =
      some ((readEntries junk.text (scanned (E.map Card.format))).rdropWhile Card.isEmptyText) := by
  obtain ⟨db', hread, h'⟩ := h₀.readFITS hheap hjunk (E.map Card.format).flatten 0
  have hcards : ∀ card ∈ E.map Card.format, card.length = 80 := by
    intro card hcard
    obtain ⟨c, -, rfl⟩ := List.mem_map.mp hcard
    exact c.format_length
  rw [readCards_flatten hcards, allowed, if_pos rfl, List.nil_append] at h'
  rw [Db.reread, h.writeFITS hroom, Option.bind_some]
  dsimp only
  rw [hread, Option.bind_some]
  exact h'.cards

/-- A header of canonical entries, the last of which is no blank text, is read as it was written. -/
theorem header_back (hheap : ∀ n, heap n = true) {db₀ : Db} (h : db.HasCards E) (h₀ : db₀.HasCards [])
    (hE : ∀ c ∈ E, c.IsCanonical)
    (hlast : ∀ c ∈ E.getLast?, ¬ (c.type = ['T'] ∧ ∀ ch ∈ c.value, ch = ' ')) {room : Nat}
    (hroom : E.length ≤ room) {junk : CStr} (hjunk : junk.text.length < defSzsbuf) :
    ∃ E', db.reread heap junk room db₀ = some E' ∧ List.Forall₂ SameCard E E' := by
  have hall : ∀ c ∈ E, c.IsCanonical ∧ '\x00' ∉ c.value := fun c hc => ⟨hE c hc, h.noNull hc⟩
  have hsame := readEntries_format hall junk.text
  -- the last entry is not trimmed
  have hkeep : ∀ hne : readEntries junk.text (E.map Card.format) ≠ [],
      ¬ ((readEntries junk.text (E.map Card.format)).getLast hne).isEmptyText = true := by
    intro hne hempty
    obtain ⟨c, hc, hcard⟩ := getLast_same hsame hne
    obtain ⟨htype, hblank⟩ := hcard.isEmptyText hempty
    refine hlast c hc ⟨?_, hblank⟩
    cases (hE c (List.mem_of_getLast? hc)).stated.body with
    | string ht => simp [ht] at htype
    | logical ht => simp [ht] at htype
    | numeric ht => simp [ht] at htype
    | text ht =>
      rcases ht with ht | ht | ht
      · simp [ht] at htype
      · simp [ht] at htype
      · exact ht
  refine ⟨_, h.reread hheap h₀ hroom hjunk, ?_⟩
  rw [scanned_format hall, List.rdropWhile_eq_self_iff.mpr hkeep]
  exact hsame

/-- A header with a card of each kind. -/
def sampleHeader : List Card :=
  [⟨['S', 'I', 'M', 'P', 'L', 'E'], ['T'], ['L'], ['s', 't', 'd']⟩, ⟨['N', 'A', 'X', 'I', 'S'], ['2'], ['N'], []⟩,
    ⟨['O', 'B', 'S'], ['M', ' ', '3', '1'], ['S'], ['o', 'b', 'j']⟩,
    ⟨['C', 'o', 'm', 'm', 'e', 'n', 't'], [' ', 'a', '=', 'b'], ['C'], []⟩]

theorem sampleHeader_canonical : ∀ c ∈ sampleHeader, c.IsCanonical := by
  simp only [sampleHeader, List.forall_mem_cons, List.not_mem_nil, false_imp_iff, implies_true, and_true]
  refine ⟨⟨⟨by decide, by decide, by decide, by decide, ?_⟩, by decide, by decide⟩,
    ⟨⟨by decide, by decide, by decide, by decide, ?_⟩, by decide, by decide⟩,
    ⟨⟨by decide, by decide, by decide, by decide, ?_⟩, by decide, by decide⟩,
    ⟨⟨by decide, by decide, by decide, by decide, ?_⟩, by decide, by decide⟩⟩
  · exact .logical rfl (.inl rfl) ⟨by decide, by decide, by decide, by decide⟩
  · exact .numeric rfl (by decide) (by decide) ⟨by decide, by decide, by decide, by decide⟩
  · exact .string rfl (by decide) (by decide) ⟨by decide, by decide, by decide, by decide⟩
  · exact .text (.inl rfl) (by decide) (by decide)

/-- A new database to which the entries are added -/
def newDb (E : List Card) : Option Db :=
  E.foldlM (fun db c => (db.addEntry (fun _ => true) (.text c.keyword) (.text c.value) (.text c.type)
    (.text c.comment)).map Prod.fst) (Db.empty ['d'])

theorem newDb_hasCards (hE : ∀ c ∈ E, c.IsStorable) : ∃ db, newDb E = some db ∧ db.HasCards E := by
  induction E using List.reverseRecOn with
  | nil =>
    let name : CStr := ⟨['d'], by decide⟩
    exact ⟨_, rfl, Db.HasCards.openDb (show Db.openDb (fun _ => true) 0 name = some (Db.empty ['d']) from rfl)⟩
  | append_singleton E c ih =>
    obtain ⟨db, hnew, h⟩ := ih fun d hd => hE d (List.mem_append_left _ hd)
    obtain ⟨db', ep, hadd, -, h'⟩ := h.addEntry (fun _ => rfl : ∀ n, (fun _ => true) n = true) (hE c (by simp))
    refine ⟨db', ?_, h'⟩
    rw [newDb] at hnew
    rw [newDb, List.foldlM_append, hnew, Option.bind_eq_bind, Option.bind_some, List.foldlM_cons, hadd]
    rfl

/-- There is a database with any entries that can be stored. -/
theorem exists_hasCards (hE : ∀ c ∈ E, c.IsStorable) : ∃ db : Db, db.HasCards E := by
  obtain ⟨db, -, h⟩ := newDb_hasCards hE
  exact ⟨db, h⟩

/-- The sample header is read as it was written. -/
theorem sampleHeader_back :
    ∃ db db₀ : Db, db.HasCards sampleHeader ∧ db₀.HasCards [] ∧
      ∃ E', db.reread (fun _ => true) ⟨[], by decide⟩ 4 db₀ = some E' ∧ List.Forall₂ SameCard sampleHeader E' := by
  obtain ⟨db₀, h₀⟩ := exists_hasCards (E := []) (by simp)
  obtain ⟨db, h⟩ := exists_hasCards (E := sampleHeader) (by
    simp only [sampleHeader, List.forall_mem_cons, List.not_mem_nil, false_imp_iff, implies_true, and_true]
    refine ⟨?_, ?_, ?_, ?_⟩ <;>
      exact ⟨⟨by decide, by decide⟩, ⟨by decide, by decide⟩, ⟨by decide, by decide⟩, ⟨by decide, by decide⟩, by decide⟩)
  exact ⟨db, db₀, h, h₀, header_back (fun _ => rfl) h h₀ sampleHeader_canonical (by decide) (by decide) (by decide)⟩

/-- Entries that are stated but not canonical: a number that is read as a logical value, one that does not fit on
the card, and a text with a line break. -/
def spoiled : List Card :=
  [⟨['A'], ['t'], ['N'], []⟩, ⟨['A'], List.replicate 71 '1', ['N'], []⟩, ⟨['A'], ['x', '\n', 'y'], ['T'], []⟩]

/-- None of these entries is read as it was written. -/
theorem spoiled_not_back :
    spoiled.Forall fun c => c.IsStated ∧ ∃ db db₀ : Db, db.HasCards [c] ∧ db₀.HasCards [] ∧
      ∃ E', db.reread (fun _ => true) ⟨[], by decide⟩ 1 db₀ = some E' ∧ ¬ List.Forall₂ SameCard [c] E' := by
  have key : ∀ c : Card, c.IsStorable → ¬ List.Forall₂ SameCard [c]
      ((readEntries [] (scanned ([c].map Card.format))).rdropWhile Card.isEmptyText) →
      ∃ db db₀ : Db, db.HasCards [c] ∧ db₀.HasCards [] ∧
        ∃ E', db.reread (fun _ => true) ⟨[], by decide⟩ 1 db₀ = some E' ∧ ¬ List.Forall₂ SameCard [c] E' := by
    intro c hc hne
    obtain ⟨db₀, h₀⟩ := exists_hasCards (E := []) (by simp)
    obtain ⟨db, h⟩ := exists_hasCards (E := [c]) (by simpa using hc)
    exact ⟨db, db₀, h, h₀, _, h.reread (fun _ => rfl) h₀ le_rfl (by decide), hne⟩
  have hlogical : (readEntries [] (scanned ([⟨['A'], ['t'], ['N'], []⟩].map Card.format))).rdropWhile
      Card.isEmptyText = [⟨['A'], ['t'], ['L'], []⟩] := by decide
  have hlong : (readEntries [] (scanned ([⟨['A'], List.replicate 71 '1', ['N'], []⟩].map Card.format))).rdropWhile
      Card.isEmptyText = [⟨['A'], List.replicate 70 '1', ['N'], []⟩] := by decide
  have hline : (readEntries [] (scanned ([⟨['A'], ['x', '\n', 'y'], ['T'], []⟩].map Card.format))).rdropWhile
      Card.isEmptyText = [⟨['A'], ['x'], ['T'], []⟩] := by decide
  refine ⟨⟨⟨by decide, by decide, by decide, by decide, ?_⟩, key _ ?_ ?_⟩,
    ⟨⟨by decide, by decide, by decide, by decide, ?_⟩, key _ ?_ ?_⟩,
    ⟨⟨by decide, by decide, by decide, by decide, ?_⟩, key _ ?_ ?_⟩⟩
  · exact .numeric rfl (by decide) (by decide) ⟨by decide, by decide, by decide, by decide⟩
  · exact ⟨⟨by decide, by decide⟩, ⟨by decide, by decide⟩, ⟨by decide, by decide⟩, ⟨by decide, by decide⟩, by decide⟩
  · rw [hlogical]
    rintro (_ | ⟨h, -⟩)
    exact absurd h.type (by decide)
  · exact .numeric rfl (by decide) (by decide) ⟨by decide, by decide, by decide, by decide⟩
  · exact ⟨⟨by decide, by decide⟩, ⟨by decide, by decide⟩, ⟨by decide, by decide⟩, ⟨by decide, by decide⟩, by decide⟩
  · rw [hlong]
    rintro (_ | ⟨h, -⟩)
    exact absurd (h.exact (.inl rfl)) (by decide)
  · exact .text (.inr (.inr rfl)) (by decide) (by decide)
  · exact ⟨⟨by decide, by decide⟩, ⟨by decide, by decide⟩, ⟨by decide, by decide⟩, ⟨by decide, by decide⟩, by decide⟩
  · rw [hline]
    rintro (_ | ⟨h, -⟩)
    exact absurd h.value (by decide)

end Ndhs.Kwdb
