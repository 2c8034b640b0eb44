import Ndhs.Kwdb.Model

/-!
# The list of entries that a database stands for

What a caller sees of a database is a list of entries, the oldest first. Each call is an operation on this
list (`Call.next`, `Op.next`); only the pointer of a new entry is chosen by the database, so it is taken from
the call's return value.

`instances L k` are the entries for a keyword, the most recent first. An entry with an empty name is not a
keyword, and no call finds it by its name.
-/

namespace Ndhs.Kwdb

open Text Function

/-- An entry, with its pointer. -/
structure Entry where
  ep : Nat
  name : Str
  value : Str
  type : Str
  comment : Str
  deriving DecidableEq

namespace Entry

def text (e : Entry) : Db.Field → Str
  | .value => e.value
  | .type => e.type
  | .comment => e.comment

def setText (e : Entry) (s : Str) : Db.Field → Entry
  | .value => { e with value := s }
  | .type => { e with type := s }
  | .comment => { e with comment := s }

/-- The entry is a keyword, and its name equals `k` up to the letter case. -/
def isNamed (k : Str) (e : Entry) : Bool := e.name != [] && streq e.name k

end Entry

/-- The pointers of the entries for a keyword, the most recent first. -/
def instances (L : List Entry) (k : Str) : List Nat := ((L.filter (Entry.isNamed k)).map Entry.ep).reverse

/-- The pointer of the `i`-th most recent entry for a keyword; zero if there is none. -/
def find (L : List Entry) (k : Str) (i : Nat) : Nat := (instances L k).getD i 0

/-- The text of a field of the most recent entry for a keyword. -/
def findText (L : List Entry) (f : Db.Field) (k : Str) : Option Str :=
  ((L.filter (Entry.isNamed k)).getLast?).map (Entry.text · f)

/-- The text of an argument; none is like the empty text. -/
def textOf : Option CStr → Str
  | none => []
  | some s => s.text

/-- The list after a call with the return value `r`. -/
def Call.next (L : List Entry) (r : Int) : Call → List Entry
  | .add keyword value type comment =>
    L ++ [⟨r.toNat, textOf keyword, textOf value, textOf type, textOf comment⟩]
  | .set f keyword text =>
    L.map fun e => if e.ep = find L keyword.text 0 then e.setText text.text f else e
  | .delete ep => L.filter fun e => e.ep ≠ ep
  | .rename ep newname => L.map fun e => if e.ep = ep then { e with name := textOf newname } else e

/-- The lists of the databases after a call with the return value `r`. -/
def Op.next (A : Nat → List Entry) (r : Int) : Op → Nat → List Entry
  | .call d c => update A d (c.next (A d) r)
  | .copy d o ep newname =>
    match (A o).find? (·.ep = ep) with
    | none => A
    | some e =>
      update A d (A d ++ [{ e with
        ep := r.toNat, name := if textOf newname = [] then e.name else textOf newname }])

end Ndhs.Kwdb
