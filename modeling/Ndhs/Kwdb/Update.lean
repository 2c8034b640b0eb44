import Ndhs.Kwdb.Header

/-!
# Updating the header of a file (`kwdb_UpdateFITS`)

`kwdb_UpdateFITS` replaces the header of a FITS file by the entries of a database. It counts the cards that
the header has room for; if the entries do not fit, the file is to be extended.

* The search for the `END` card compares the whole keyword field, with its blanks, so it does not find the card.
  All blocks of the file are counted, those of the data too, unless there are the letters `END` and a null in the data.
* The scratch file gets a block for each card, not for 36 of them (`35 / 36` is zero), and the loop before has left
  nothing of the file to copy.
* If the entries fit, the header is written in place, also when its end moves to another block.

`preserves_iff` says when the header and the data are right nevertheless.

The environment `Io` says which system calls succeed. The names of the files are left out.
-/

namespace Ndhs.Kwdb

open Text

variable {db : Db} {E : List Card}

/-! ## The program -/

/-- What the system calls do. -/
structure Io where
  /-- `open` of the file -/
  opens : Bool
  /-- `mktemp`, and `open` of the scratch file -/
  scratch : Bool
  /-- the bytes that the scratch file takes -/
  space : Nat
  /-- `close` of the two files, and `rename` -/
  renames : Bool
  /-- `open` of the extended file -/
  reopens : Bool
  /-- the cards that the file takes -/
  room : Nat
  /-- the last `close` -/
  closes : Bool

/-- `END`, and 77 blanks -/
def endCard : Str := ['E', 'N', 'D'] ++ List.replicate 77 ' '

/-- One of the cards of a block is found to be the `END` card. -/
def hasEnd (block : Str) : Bool :=
  (readCards 36 block).any fun card => streq (upToNull (card.take 8)) ['E', 'N', 'D']

/-- Determine the capacity of the file header: the number of cards, and what `read` has left of the file. -/
def capacityLoop : Nat → Nat → Str → Nat × Str
  | 0, maxcards, _ => (maxcards, [])
  | n + 1, maxcards, file =>
    -- the last `read` gives less than a block
    if file.length < 2880 then (maxcards, [])
    else if hasEnd (file.take 2880) then (maxcards + 35, file.drop 2880)
    else capacityLoop n (maxcards + 36) (file.drop 2880)

def capacity (file : Str) : Nat × Str := capacityLoop (file.length / 2880) 0 file

/-- `write` at the start of the file -/
def overwrite (file out : Str) : Str := out ++ file.drop out.length

/-- Output the database as a FITS file header, and write the `END` card. -/
def Db.writeHeader (io : Io) (db : Db) (file : Str) : Option (Str × Int) :=
  (db.writeFITS io.room).map fun (out, ncards) =>
    if ncards < 0 ∨ (io.room : Int) ≤ ncards then (overwrite file out, -1)
    else (overwrite file (out ++ endCard), if io.closes then 0 else -1)

/-- The blocks of the header area of the scratch file. -/
def scratchBlocks (len : Nat) (npad : Int) : Nat := ((len + npad + 1) + 35 / 36 : Int).toNat

/-- The scratch file, with what is left of the file behind the header area. -/
def scratchFile (len : Nat) (npad : Int) (rest : Str) : Str :=
  List.replicate (2880 * scratchBlocks len npad) '\x00' ++ rest

/-- `kwdb_UpdateFITS` in update mode: the file, and the return value. -/
def Db.updateFITS (io : Io) (db : Db) (file : Str) (extend : Bool) (npad : Int) : Option (Str × Int) :=
  if !io.opens then some (file, -1)
  else
    let (maxcards, rest) := capacity file
    if maxcards < db.len then
      if !extend || !io.scratch then some (file, -1)
      else
        let new := scratchFile db.len npad rest
        if io.space < new.length || !io.renames then some (file, -1)
        else if !io.reopens then some (new, -1)
        else db.writeHeader io new
    else db.writeHeader io file

/-! ## FITS files -/

/-- The blocks of a header with `n` cards and the `END` card. -/
def blocks (n : Nat) : Nat := (n + 36) / 36

/-- The keyword field of the `END` card. -/
def IsEndCard (card : Str) : Prop := card.take 8 = ['E', 'N', 'D', ' ', ' ', ' ', ' ', ' ']

instance (card : Str) : Decidable (IsEndCard card) := inferInstanceAs (Decidable (_ = _))

/-- The header and the data of a file: the cards up to the `END` card, and what begins at the first block boundary
behind it. -/
def parse (file : Str) : Option (List Str × Str) :=
  let cards := readCards (file.length / 80) file
  let header := cards.takeWhile fun card => !decide (IsEndCard card)
  if header.length < cards.length ∧ 2880 * blocks header.length ≤ file.length then
    some (header, file.drop (2880 * blocks header.length))
  else none

/-- A FITS file: cards of printable characters, and data. -/
structure FitsFile where
  header : List Str
  data : Str
  card : ∀ c ∈ header, c.length = 80 ∧ (∀ ch ∈ c, isPrint ch = true) ∧ ¬ IsEndCard c

/-- The cards, the `END` card, blanks up to the block boundary, and the data. -/
def FitsFile.bytes (f : FitsFile) : Str :=
  f.header.flatten ++ endCard ++
    List.replicate (2880 * blocks f.header.length - 80 * (f.header.length + 1)) ' ' ++ f.data

/-- The header is replaced and the data is kept. A call that fails for want of room in the header does not
change the file. -/
def Preserves (io : Io) (db : Db) (E : List Card) (f : FitsFile) (extend : Bool) (npad : Int) : Prop :=
  ∃ file r, db.updateFITS io f.bytes extend npad = some (file, r) ∧
    (r = 0 → parse file = some (E.map Card.format, f.data)) ∧
    (extend = false → (capacity f.bytes).1 < E.length → r = -1 ∧ file = f.bytes)

/-- The system calls that are needed succeed, and the entries fit or the file may be extended. -/
def Succeeds (io : Io) (E : List Card) (f : FitsFile) (extend : Bool) (npad : Int) : Prop :=
  io.opens = true ∧ E.length < io.room ∧ io.closes = true ∧
    ((capacity f.bytes).1 < E.length → extend = true ∧ io.scratch = true ∧ io.renames = true ∧ io.reopens = true ∧
      (scratchFile E.length npad (capacity f.bytes).2).length ≤ io.space)

/-- The blocks of a header do not change in number; or the header area is extended, the data has nothing but nulls,
and these are as many as the blocks of the header area that the header does not need. -/
def KeepsData (E : List Card) (f : FitsFile) (npad : Int) : Prop :=
  (∀ c ∈ E, ¬ IsEndCard c.format) ∧
    if (capacity f.bytes).1 < E.length then
      f.data = List.replicate (2880 * (scratchBlocks E.length npad - blocks E.length)) '\x00' ∧
        (blocks E.length ≤ scratchBlocks E.length npad ∨ 36 ∣ E.length + 1)
    else blocks E.length = blocks f.header.length

/-! ## A header that was written -/

theorem endCard_length : endCard.length = 80 := by
  rw [endCard, List.length_append, List.length_replicate]
  rfl

theorem le_blocks (n : Nat) : 80 * (n + 1) ≤ 2880 * blocks n := by
  unfold blocks
  omega

section Written

variable {cards : List Str} (hcards : ∀ card ∈ cards, card.length = 80)
include hcards

/-- The cards of a file that begins with `cards` and the `END` card. -/
theorem readCards_file (tail : Str) :
    ∃ more, readCards ((cards.flatten ++ endCard ++ tail).length / 80) (cards.flatten ++ endCard ++ tail) =
      cards ++ endCard :: more := by
  have hlen : (cards.flatten ++ endCard ++ tail).length / 80 = cards.length + (tail.length / 80 + 1) := by
    rw [List.length_append, List.length_append, length_flatten_cards hcards, endCard_length]
    omega
  refine ⟨readCards (tail.length / 80) tail, ?_⟩
  rw [hlen, List.append_assoc, readCards_append hcards, readCards,
    if_neg (by rw [List.length_append, endCard_length]; omega), List.take_left' endCard_length,
    List.drop_left' endCard_length]

/-- The header of such a file. -/
theorem parse_file (tail data : Str) :
    parse (cards.flatten ++ endCard ++ tail) = some (cards, data) ↔
      (∀ card ∈ cards, ¬ IsEndCard card) ∧ 2880 * blocks cards.length ≤ (cards.flatten ++ endCard ++ tail).length ∧
        (cards.flatten ++ endCard ++ tail).drop (2880 * blocks cards.length) = data := by
  obtain ⟨more, hmore⟩ := readCards_file hcards tail
  unfold parse
  rw [hmore]
  dsimp only
  by_cases hend : ∀ card ∈ cards, ¬ IsEndCard card
  · have htake : (cards ++ endCard :: more).takeWhile (fun card => !decide (IsEndCard card)) = cards := by
      rw [List.takeWhile_append_of_pos fun card hcard => by simpa using hend card hcard,
        List.takeWhile_cons_of_neg (by decide), List.append_nil]
    rw [htake]
    have hlt : cards.length < (cards ++ endCard :: more).length := by simp
    simp only [hlt, true_and, Option.ite_none_right_eq_some, Option.some.injEq, Prod.mk.injEq]
    exact ⟨fun h => ⟨hend, h⟩, fun h => h.2⟩
  · refine iff_of_false (fun h => hend fun card hcard => ?_) fun h => hend h.1
    rw [Option.ite_none_right_eq_some, Option.some.injEq, Prod.mk.injEq] at h
    have hmem : card ∈ (cards ++ endCard :: more).takeWhile fun card => !decide (IsEndCard card) := by
      rw [h.2.1]
      exact hcard
    simpa using List.mem_takeWhile_imp hmem

/-- The header and the data after the cards are written to the start of a file. -/
theorem parse_overwrite (base data : Str) :
    parse (overwrite base (cards.flatten ++ endCard)) = some (cards, data) ↔
      (∀ card ∈ cards, ¬ IsEndCard card) ∧
        2880 * blocks cards.length ≤ max base.length (80 * (cards.length + 1)) ∧
          base.drop (2880 * blocks cards.length) = data := by
  have hlen : (cards.flatten ++ endCard).length = 80 * (cards.length + 1) := by
    rw [List.length_append, length_flatten_cards hcards, endCard_length]
    omega
  have htotal : (cards.flatten ++ endCard ++ base.drop (80 * (cards.length + 1))).length =
      max base.length (80 * (cards.length + 1)) := by
    rw [List.length_append, hlen, List.length_drop]
    omega
  have hdrop : (cards.flatten ++ endCard ++ base.drop (80 * (cards.length + 1))).drop (2880 * blocks cards.length) =
      base.drop (2880 * blocks cards.length) := by
    have := le_blocks cards.length
    rw [List.drop_append, List.drop_eq_nil_of_le (by omega), List.nil_append, List.drop_drop, hlen]
    congr 1
    omega
  rw [overwrite, hlen, parse_file hcards, htotal, hdrop]

end Written

/-! ## The file before the header is written -/

namespace FitsFile

variable (f : FitsFile)

/-- The bytes in front of the data. -/
def front : Str :=
  f.header.flatten ++ endCard ++ List.replicate (2880 * blocks f.header.length - 80 * (f.header.length + 1)) ' '

theorem bytes_eq : f.bytes = f.front ++ f.data := rfl

theorem front_length : f.front.length = 2880 * blocks f.header.length := by
  have := le_blocks f.header.length
  rw [front, List.length_append, List.length_append, length_flatten_cards fun c hc => (f.card c hc).1, endCard_length,
    List.length_replicate]
  omega

theorem front_print : ∀ ch ∈ f.front, isPrint ch = true := by
  intro ch hch
  rw [front, List.mem_append, List.mem_append, List.mem_flatten] at hch
  rcases hch with (⟨c, hc, hch⟩ | hch) | hch
  · exact (f.card c hc).2.1 ch hch
  · revert ch
    decide
  · rw [List.eq_of_mem_replicate hch]
    decide

theorem bytes_length : f.bytes.length = 2880 * blocks f.header.length + f.data.length := by
  rw [bytes_eq, List.length_append, front_length]

theorem drop_bytes (n : Nat) : f.bytes.drop (2880 * (blocks f.header.length + n)) = f.data.drop (2880 * n) := by
  rw [bytes_eq, Nat.mul_add, ← front_length, List.drop_length_add_append]

end FitsFile

/-- The `END` card is not found in a block without nulls, nor in one with nothing but nulls. -/
theorem hasEnd_eq_false {block : Str}
    (h : (∀ ch ∈ block, ch ≠ '\x00') ∨ ∀ ch ∈ block, ch = '\x00') : hasEnd block = false := by
  rw [hasEnd, List.any_eq_false]
  intro card hcard
  have hlen : (card.take 8).length = 8 := by
    rw [List.length_take, (mem_readCards hcard).1]
    rfl
  have hsub : ∀ ch ∈ card.take 8, ch ∈ block := fun ch hch =>
    (mem_readCards hcard).2 (List.mem_of_mem_take hch)
  rcases h with h | h
  · intro heq
    rw [upToNull_eq fun hnull => h _ (hsub _ hnull) rfl] at heq
    have := congrArg List.length (toLower_streq heq)
    rw [List.length_map, hlen] at this
    cases this
  · have hnil : upToNull (card.take 8) = [] := by
      rw [upToNull, List.takeWhile_eq_nil_iff]
      intro hpos
      simp [h _ (hsub _ (List.getElem_mem hpos))]
    rw [hnil]
    decide

theorem capacityLoop_le (n m : Nat) (file : Str) : (capacityLoop n m file).1 ≤ m + 36 * n := by
  induction n generalizing m file with
  | zero => simp [capacityLoop]
  | succ n ih =>
    rw [capacityLoop]
    split
    · simp
    · split
      · dsimp only
        omega
      · have := ih (m + 36) (file.drop 2880)
        omega

/-- Without nulls every block of the file counts as one of the header. -/
theorem capacityLoop_noNull {n : Nat} (m : Nat) {file : Str} (hlen : 2880 * n ≤ file.length)
    (h : ∀ ch ∈ file, ch ≠ '\x00') : capacityLoop n m file = (m + 36 * n, []) := by
  induction n generalizing m file with
  | zero => rfl
  | succ n ih =>
    have hend : hasEnd (file.take 2880) = false := hasEnd_eq_false (.inl fun ch hch => h ch (List.take_subset _ _ hch))
    have hrest : 2880 * n ≤ (file.drop 2880).length := by
      rw [List.length_drop]
      omega
    rw [capacityLoop, if_neg (by omega), hend, if_neg Bool.false_ne_true,
      ih (m + 36) hrest fun ch hch => h ch (List.drop_subset _ _ hch), Nat.mul_succ]
    congr 1
    omega

/-- What is left of the file: nothing, or what is behind a block with an `END` card. -/
theorem capacityLoop_rest (n m : Nat) (file : Str) :
    (capacityLoop n m file).2 = [] ∨
      ∃ b, hasEnd ((file.drop (2880 * b)).take 2880) = true ∧ 2880 * (b + 1) ≤ file.length ∧
        (capacityLoop n m file).2 = file.drop (2880 * (b + 1)) := by
  induction n generalizing m file with
  | zero => exact .inl rfl
  | succ n ih =>
    rw [capacityLoop]
    split
    · exact .inl rfl
    · next hlen =>
      split
      · next hend => exact .inr ⟨0, by simpa using hend, by omega, by rw [Nat.zero_add, Nat.mul_one]⟩
      · rcases ih (m + 36) (file.drop 2880) with h | ⟨b, hend, hb, hrest⟩
        · exact .inl h
        · rw [List.length_drop] at hb
          rw [List.drop_drop] at hend hrest
          have hstep : ∀ k, 2880 + 2880 * k = 2880 * (k + 1) := fun k => by omega
          rw [hstep] at hend hrest
          exact .inr ⟨b + 1, hend, by omega, hrest⟩

/-- The blocks of the header are not found to have the `END` card. -/
theorem FitsFile.le_of_hasEnd (f : FitsFile) {b : Nat}
    (h : hasEnd ((f.bytes.drop (2880 * b)).take 2880) = true) : blocks f.header.length ≤ b := by
  by_contra hlt
  refine absurd h (Bool.eq_false_iff.mp (hasEnd_eq_false (.inl fun ch hch => ?_)))
  have hfront : (f.bytes.drop (2880 * b)).take 2880 ⊆ f.front := by
    rw [List.take_drop, f.bytes_eq, List.take_append_of_le_length (by rw [f.front_length]; omega)]
    exact List.Subset.trans (List.drop_subset _ _) (List.take_subset _ _)
  exact isPrint_ne (f.front_print ch (hfront hch)) (by decide)

theorem FitsFile.capacity_noNull (f : FitsFile) (h : ∀ ch ∈ f.data, ch ≠ '\x00') :
    capacity f.bytes = (36 * (blocks f.header.length + f.data.length / 2880), []) := by
  have hnull : ∀ ch ∈ f.bytes, ch ≠ '\x00' := by
    intro ch hch
    rw [f.bytes_eq] at hch
    rcases List.mem_append.mp hch with hch | hch
    · exact isPrint_ne (f.front_print ch hch) (by decide)
    · exact h ch hch
  rw [capacity, capacityLoop_noNull 0 (Nat.mul_div_le _ _) hnull, f.bytes_length, Nat.mul_add_div (by decide),
    Nat.zero_add]

/-- In place: the data stays where it has to be exactly if the header has as many blocks as before. -/
theorem inPlace_iff (f : FitsFile) {n : Nat} (hn : n ≤ (capacity f.bytes).1) :
    (2880 * blocks n ≤ max f.bytes.length (80 * (n + 1)) ∧ f.bytes.drop (2880 * blocks n) = f.data) ↔
      blocks n = blocks f.header.length := by
  have hlen := f.bytes_length
  constructor
  · rintro ⟨hroom, hdrop⟩
    have hdata := congrArg List.length hdrop
    rw [List.length_drop] at hdata
    have hcap := capacityLoop_le (f.bytes.length / 2880) 0 f.bytes
    rw [← capacity] at hcap
    have hend : n + 1 ≤ 36 * blocks n := by
      unfold blocks
      omega
    omega
  · intro heq
    have hdrop := f.drop_bytes 0
    rw [Nat.add_zero, Nat.mul_zero, List.drop_zero] at hdrop
    rw [heq, hdrop]
    exact ⟨by omega, rfl⟩

theorem drop_replicate_append {α : Type*} (a : α) (m n : Nat) (l : List α) :
    (List.replicate m a ++ l).drop n = List.replicate (m - n) a ++ l.drop (n - m) := by
  rw [List.drop_append, List.drop_replicate, List.length_replicate]

/-- What the scan leaves of the file: nothing, or what is behind a block of the data that has something else than
nulls. -/
theorem capacity_rest (f : FitsFile) :
    (capacity f.bytes).2 = [] ∨
      ∃ k, (∃ ch ∈ (f.data.drop (2880 * k)).take 2880, ch ≠ '\x00') ∧ 2880 * (k + 1) ≤ f.data.length ∧
        (capacity f.bytes).2 = f.data.drop (2880 * (k + 1)) := by
  rcases capacityLoop_rest (f.bytes.length / 2880) 0 f.bytes with h | ⟨b, hend, hlen, hrest⟩
  · exact .inl h
  · obtain ⟨k, rfl⟩ : ∃ k, b = blocks f.header.length + k := ⟨_, (Nat.add_sub_of_le (f.le_of_hasEnd hend)).symm⟩
    rw [f.bytes_length] at hlen
    rw [f.drop_bytes] at hend
    rw [Nat.add_assoc, f.drop_bytes] at hrest
    refine .inr ⟨k, ?_, by omega, hrest⟩
    by_contra hnull
    push Not at hnull
    rw [hasEnd_eq_false (.inr hnull)] at hend
    cases hend

/-- Extended: what is behind the new header is nulls, and the rest of the file if the `END` card was found in the
data. That is never the data itself, unless the data is nulls. -/
theorem extended_iff (f : FitsFile) (n : Nat) (npad : Int) :
    (2880 * blocks n ≤ max (scratchFile n npad (capacity f.bytes).2).length (80 * (n + 1)) ∧
      (scratchFile n npad (capacity f.bytes).2).drop (2880 * blocks n) = f.data) ↔
      f.data = List.replicate (2880 * (scratchBlocks n npad - blocks n)) '\x00' ∧
        (blocks n ≤ scratchBlocks n npad ∨ 36 ∣ n + 1) := by
  have hle := le_blocks n
  have hge : 36 * blocks n ≤ n + 36 := Nat.mul_div_le (n + 36) 36
  rw [scratchFile, List.length_append, List.length_replicate, drop_replicate_append, ← Nat.mul_sub]
  rcases capacity_rest f with h | ⟨k, ⟨ch, hch, hne⟩, hk, hrest⟩
  · rw [h, List.drop_nil, List.append_nil, List.length_nil, Nat.add_zero, and_comm, eq_comm]
    refine and_congr_right fun _ => ?_
    omega
  · -- a block of the data has something else than nulls
    refine iff_of_false ?_ ?_
    · rintro ⟨-, hdata⟩
      have hlen := congrArg List.length hdata
      rw [List.length_append, List.length_replicate, List.length_drop, hrest, List.length_drop] at hlen
      have hzero : 2880 * (blocks n - scratchBlocks n npad) = 0 := by omega
      have hcount : 2880 * (scratchBlocks n npad - blocks n) = 2880 * k + 2880 := by omega
      rw [← Nat.mul_sub, hzero, hcount, List.drop_zero] at hdata
      rw [← hdata, drop_replicate_append, Nat.add_sub_cancel_left, List.take_left' List.length_replicate] at hch
      exact hne (List.eq_of_mem_replicate hch)
    · rintro ⟨hdata, -⟩
      rw [hdata] at hch
      exact hne (List.eq_of_mem_replicate (List.mem_of_mem_drop (List.mem_of_mem_take hch)))

/-! ## The update -/

/-- The header is written if there is room for it. -/
theorem writeHeader_eq {io : Io} (h : db.HasCards E) (hroom : E.length < io.room) (base : Str) :
    db.writeHeader io base =
      some (overwrite base ((E.map Card.format).flatten ++ endCard), if io.closes then 0 else -1) := by
  rw [Db.writeHeader, h.writeFITS hroom.le, Option.map_some]
  dsimp only
  rw [if_neg (by omega)]

/-- Without the room the loop fails at some card. -/
theorem writeLoop_full {eps : List Nat} {room : Nat} (hroom : room < eps.length) (n : Nat) (out : Str) :
    (db.writeLoop room n out eps).2 = -1 := by
  induction eps generalizing room n out with
  | nil => cases hroom
  | cons ep eps ih =>
    rw [Db.writeLoop]
    split
    · rfl
    · cases room with
      | zero => rfl
      | succ room => exact ih (by simpa using hroom) _ _

theorem writeHeader_full {io : Io} (h : db.HasCards E) (hroom : io.room ≤ E.length) (base : Str) :
    ∃ file, db.writeHeader io base = some (file, -1) := by
  rcases hroom.eq_or_lt with heq | hlt
  · rw [Db.writeHeader, h.writeFITS heq.ge, Option.map_some]
    dsimp only
    rw [if_pos (.inr (by omega))]
    exact ⟨_, rfl⟩
  · obtain ⟨L, T, txt, hr, rfl⟩ := h
    rw [List.length_map, ← List.length_map Entry.ep] at hlt
    rw [Db.writeHeader, Db.writeFITS, hr.lists.walk, Option.map_some, Option.map_some]
    dsimp only
    rw [writeLoop_full hlt, if_pos (.inl (by decide))]
    exact ⟨_, rfl⟩

/-- The file that the header is written to. -/
def baseFile (E : List Card) (f : FitsFile) (npad : Int) : Str :=
  if (capacity f.bytes).1 < E.length then scratchFile E.length npad (capacity f.bytes).2 else f.bytes

/-- The call writes the header, or fails. -/
theorem updateFITS_cases (h : db.HasCards E) (io : Io) (f : FitsFile) (extend : Bool) (npad : Int) :
    (Succeeds io E f extend npad ∧ db.updateFITS io f.bytes extend npad =
      some (overwrite (baseFile E f npad) ((E.map Card.format).flatten ++ endCard), 0)) ∨
    (¬ Succeeds io E f extend npad ∧ ∃ file, db.updateFITS io f.bytes extend npad = some (file, -1) ∧
      (extend = false → (capacity f.bytes).1 < E.length → file = f.bytes)) := by
  have hwrite : ∀ base, (E.length < io.room ∧ io.closes = true ∧ db.writeHeader io base =
      some (overwrite base ((E.map Card.format).flatten ++ endCard), 0)) ∨
      (¬ (E.length < io.room ∧ io.closes = true) ∧ ∃ file, db.writeHeader io base = some (file, -1)) := by
    intro base
    by_cases hroom : E.length < io.room
    · rw [writeHeader_eq h hroom]
      by_cases hcl : io.closes = true
      · exact .inl ⟨hroom, hcl, by rw [if_pos hcl]⟩
      · exact .inr ⟨fun hc => hcl hc.2, _, by rw [if_neg hcl]⟩
    · exact .inr ⟨fun hc => hroom hc.1, writeHeader_full h (by omega) base⟩
  have hlen : db.len = E.length := h.nitems
  unfold Db.updateFITS
  rw [hlen]
  by_cases hopens : io.opens = true
  · rw [hopens, if_neg (by simp)]
    dsimp only
    by_cases hcap : (capacity f.bytes).1 < E.length
    · rw [if_pos hcap]
      by_cases hext : extend = true ∧ io.scratch = true
      · rw [if_neg (by simp [hext])]
        by_cases hspace : (scratchFile E.length npad (capacity f.bytes).2).length ≤ io.space ∧ io.renames = true
        · rw [if_neg (by simp [hspace])]
          by_cases hre : io.reopens = true
          · rw [hre, if_neg (by simp), baseFile, if_pos hcap]
            rcases hwrite (scratchFile E.length npad (capacity f.bytes).2) with ⟨hroom, hcl, hw⟩ | ⟨hno, file, hw⟩
            · exact .inl ⟨⟨hopens, hroom, hcl, fun _ => ⟨hext.1, hext.2, hspace.2, hre, hspace.1⟩⟩, hw⟩
            · refine .inr ⟨fun hs => hno ⟨hs.2.1, hs.2.2.1⟩, file, hw, fun hx => ?_⟩
              rw [hext.1] at hx
              cases hx
          · rw [if_pos (by simpa using hre)]
            refine .inr ⟨fun hs => hre (hs.2.2.2 hcap).2.2.2.1, _, rfl, fun hx => ?_⟩
            rw [hext.1] at hx
            cases hx
        · rw [if_pos (by simpa [imp_iff_not_or] using hspace)]
          exact .inr ⟨fun hs => hspace ⟨(hs.2.2.2 hcap).2.2.2.2, (hs.2.2.2 hcap).2.2.1⟩, _, rfl, fun _ _ => rfl⟩
      · rw [if_pos (by simpa [imp_iff_not_or] using hext)]
        exact .inr ⟨fun hs => hext ⟨(hs.2.2.2 hcap).1, (hs.2.2.2 hcap).2.1⟩, _, rfl, fun _ _ => rfl⟩
    · rw [if_neg hcap, baseFile, if_neg hcap]
      rcases hwrite f.bytes with ⟨hroom, hcl, hw⟩ | ⟨hno, file, hw⟩
      · exact .inl ⟨⟨hopens, hroom, hcl, fun hc => absurd hc hcap⟩, hw⟩
      · exact .inr ⟨fun hs => hno ⟨hs.2.1, hs.2.2.1⟩, file, hw, fun _ hc => absurd hc hcap⟩
  · rw [if_pos (by simpa using hopens)]
    exact .inr ⟨fun hs => hopens hs.1, _, rfl, fun _ _ => rfl⟩

/-- The header and the data after a call that succeeds. -/
theorem parse_iff (E : List Card) (f : FitsFile) (npad : Int) :
    parse (overwrite (baseFile E f npad) ((E.map Card.format).flatten ++ endCard)) =
      some (E.map Card.format, f.data) ↔ KeepsData E f npad := by
  have hcards : ∀ card ∈ E.map Card.format, card.length = 80 := by
    intro card hcard
    obtain ⟨c, -, rfl⟩ := List.mem_map.mp hcard
    exact c.format_length
  rw [parse_overwrite hcards, KeepsData, List.length_map, List.forall_mem_map]
  refine and_congr_right fun _ => ?_
  unfold baseFile
  split
  · exact extended_iff f E.length npad
  · next hcap => exact inPlace_iff f (by omega)

theorem Preserves.keeps {io : Io} {f : FitsFile} {extend : Bool} {npad : Int} (h : db.HasCards E)
    (hp : Preserves io db E f extend npad) (hs : Succeeds io E f extend npad) : KeepsData E f npad := by
  rw [← parse_iff]
  rcases updateFITS_cases h io f extend npad with ⟨-, hup⟩ | ⟨hno, -⟩
  · obtain ⟨file, r, hr, hok, -⟩ := hp
    rw [hup] at hr
    cases hr
    exact hok rfl
  · exact absurd hs hno

/-- A file without cards in front of the `END` card. -/
def plainFile (data : Str) : FitsFile := ⟨[], data, by simp⟩

/-- All system calls succeed. -/
def allOk : Io := ⟨true, true, 1000000, true, true, 1000, true⟩

/-- A header with the entry `A = 1`, `n` times. -/
def entriesA (n : Nat) : List Card := List.replicate n ⟨['A'], ['1'], ['N'], []⟩

theorem exists_entriesA (n : Nat) : ∃ db : Db, db.HasCards (entriesA n) := by
  refine exists_hasCards fun c hc => ?_
  rw [List.eq_of_mem_replicate hc]
  exact ⟨⟨by decide, by decide⟩, ⟨by decide, by decide⟩, ⟨by decide, by decide⟩, ⟨by decide, by decide⟩, by decide⟩

theorem capacity_plainFile : capacity (plainFile ['x']).bytes = (36, []) :=
  (plainFile ['x']).capacity_noNull (by decide)

end Ndhs.Kwdb
