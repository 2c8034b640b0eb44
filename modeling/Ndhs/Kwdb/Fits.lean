import Ndhs.Kwdb.Model
import Mathlib.Data.List.DropRight

/-!
# FITS headers (`kwdb_WriteFITS`, `kwdb_ReadFITS`)

A FITS header is a sequence of cards of 80 characters. `kwdb_WriteFITS` writes one card for each entry, and
`kwdb_ReadFITS` adds one entry for each card.

* The writer moves forward through the card, which is filled with blanks before. The card is here the list of
  the characters before `op`; where `op` moves on without a write there are blanks.
* A value of the type `S` is quoted, and at least eight characters long; values of the types `N` and `L` end in
  column 30 if they are short. All other types are text, from column 9 on.
* The reader does not set the comment of a text card: it is the comment of the card before, and whatever the
  array holds (`junk`) if there was none.
* `isprint` and `isspace` are those of the C locale.
-/

namespace Ndhs.Kwdb

open Text

/-- `isprint` -/
def isPrint (c : Char) : Bool := 32 ≤ c.toNat && c.toNat < 127

/-! ## Writing -/

/-- `while (op < card + n) op++` -/
def padTo (n : Nat) (out : Str) : Str := out ++ List.replicate (n - out.length) ' '

/-- Copy the printable characters of a string, up to the end of the card. -/
def copyPrintable : Str → Str → Str
  | out, [] => out
  | out, ch :: ip =>
    if out.length < 80 then copyPrintable (if isPrint ch then out ++ [ch] else out) ip else out

/-- Copy a string, up to the end of the card. -/
def copyText : Str → Str → Str
  | out, [] => out
  | out, ch :: ip => if out.length < 80 then copyText (out ++ [ch]) ip else out

/-- Output the comment. -/
def putComment (out comment : Str) : Str :=
  if comment ≠ [] ∧ out.length < 80 then copyPrintable (out ++ [' ', '/', ' ']) comment else out

/-- The card of an entry. -/
def formatCard (keyword value type comment : Str) : Str :=
  let out := padTo 8 ((keyword.take 8).filter isPrint)
  let out :=
    if type.head? = some 'S' then
      let out := copyPrintable (out ++ ['=', ' ', '\'']) value
      let out := padTo 30 (padTo 19 out ++ ['\''])
      putComment out comment
    else if type.head? = some 'N' ∨ type.head? = some 'L' then
      let out := out ++ ['=', ' '] ++ List.replicate (20 - value.length) ' '
      putComment (copyPrintable out value) comment
    else copyText out value
  (padTo 80 out).take 80

/-- The loop of `kwdb_WriteFITS`, after `ncards` cards. The file takes `room` more cards. -/
def Db.writeLoop (db : Db) : Nat → Nat → Str → List Nat → Str × Int
  | _, ncards, out, [] => (out, ncards)
  | room, ncards, out, ep :: eps =>
    match db.getEntry ep with
    | none => (out, -1)
    | some (keyword, value, type, comment) =>
      match room with
      | 0 => (out, -1)
      | room + 1 => db.writeLoop room (ncards + 1) (out ++ formatCard keyword value type comment) eps

/-- `kwdb_WriteFITS`: the file, and the return value. -/
def Db.writeFITS (db : Db) (room : Nat) : Option (Str × Int) := db.walk.map (db.writeLoop room 0 [])

/-! ## Reading -/

/-- The string that ends at the first null. -/
def upToNull (s : Str) : Str := s.takeWhile (· != '\x00')

/-- `for (n = 21; --n >= 0 && isspace (*ip); ) ip++;` -/
def skipSpaces : Nat → Str → Str
  | 0, ip => ip
  | _ + 1, [] => []
  | n + 1, ch :: ip => if isSpace ch then skipSpaces n ip else ch :: ip

/-- Copy the rest of a card; trailing blanks are trimmed. -/
def trimmed (ip : Str) : Str := (ip.takeWhile (· != '\n')).rdropWhile (· == ' ')

/-- The keyword field. A card with characters that are not printable is to be the last one; the blanks in
the keyword then keep it from being one. -/
def readKeyword (card : Str) : Str :=
  if (card.take 8).all isPrint then (card.take 8).takeWhile (· != ' ')
  else ['E', 'N', 'D', ' ', ' ', ' ', ' ', ' ']

/-- The value field: whether it is a string, the value, and the card behind it. -/
def readValue : Str → Bool × Str × Str
  | '\'' :: ip => (true, ip.takeWhile (· != '\''), (ip.dropWhile (· != '\'')).drop 1)
  | ip => (false, ip.takeWhile fun c => c != ' ' && c != '/', ip.dropWhile fun c => c != ' ' && c != '/')

/-- The value, the type and the comment of a card; `comment` is the comment of the card before. -/
def readFields (keyword card comment : Str) : Str × Str × Str :=
  let iscomment := streq keyword ['C', 'O', 'M', 'M', 'E', 'N', 'T']
  let ishistory := streq keyword ['H', 'I', 'S', 'T', 'O', 'R', 'Y']
  if !iscomment && !ishistory && card.getD 8 ' ' == '=' then
    let (isstring, value, ip) := readValue (skipSpaces 21 (card.drop 9))
    let value := upToNull value
    let type := if isstring then ['S'] else if streq value ['T'] || streq value ['F'] then ['L'] else ['N']
    (value, type, upToNull (trimmed (ip.dropWhile fun c => c == '/' || c == ' ')))
  else
    let type := if iscomment then ['C'] else if ishistory then ['H'] else ['T']
    (upToNull (trimmed (card.drop 8)), type, comment)

/-- The cards that `read` gives, until it gives less than a card. -/
def readCards : Nat → Str → List Str
  | 0, _ => []
  | n + 1, input => if input.length < 80 then [] else input.take 80 :: readCards n (input.drop 80)

/-- The loop of `kwdb_ReadFITS`, after `ncards` cards: the database and the number of cards, which is -1 if
an entry could not be added. -/
def Db.readLoop (heap : Nat → Bool) (maxcards : Nat) : Db → Str → Nat → List Str → Option (Db × Int)
  | db, _, ncards, [] => some (db, ncards)
  | db, comment, ncards, card :: cards =>
    if maxcards ≠ 0 ∧ maxcards ≤ ncards then some (db, ncards)
    else if streq (readKeyword card) ['E', 'N', 'D'] then some (db, ncards)
    else
      let fields := readFields (readKeyword card) card comment
      (db.addEntry heap (.text (readKeyword card)) (.text fields.1) (.text fields.2.1) (.text fields.2.2)).bind
        fun (db, ep) =>
          if ep < 0 then some (db, -1) else Db.readLoop heap maxcards db fields.2.2 (ncards + 1) cards

/-- Trim any blank lines at the end of the header list; the number of rounds is bounded by that of the
entries. -/
def Db.trimLoop : Nat → Db → Nat → Option (Db × Nat)
  | 0, db, nb => if db.tail = 0 then some (db, nb) else none
  | n + 1, db, nb =>
    if db.tail = 0 then some (db, nb)
    else
      match db.getEntry db.tail with
      | none => none
      | some (_, value, type, _) =>
        if type.head? = some 'T' ∧ value = [] then
          (db.deleteEntry db.tail).bind fun (db, _) => Db.trimLoop n db (nb + 1)
        else some (db, nb)

/-- `kwdb_ReadFITS`: the database, the number of cards, and the number of blank cards at the end. -/
def Db.readFITS (heap : Nat → Bool) (junk : CStr) (db : Db) (input : Str) (maxcards : Nat) :
    Option (Db × Int × Nat) :=
  (db.readLoop heap maxcards junk.text 0 (readCards (input.length / 80) input)).bind fun (db, ncards) =>
    if ncards < 0 then some (db, -1, 0)
    else (Db.trimLoop db.nitems db 0).map fun (db, nb) => (db, ncards, nb)

end Ndhs.Kwdb
