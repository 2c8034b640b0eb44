import Ndhs.Lib.Buffer
import Ndhs.Lib.Linked

/-!
# The keyword database (`mosdca/kwdb.c`)

A database is a table of items. Two linked lists run through the table: the global list, in the order of
the entries, and one thread for each hash value, with the entries whose name has that value. The texts of
the items are offsets into one string buffer, `sbuf`.

A function returns `none` when the source has no result: it reads a pointer into a block that `realloc`
has released, it indexes the hash table below zero, it writes past the end of `sbuf`, or it goes around a
cycle of links. The table has `maxitems` slots, so a loop that has passed that many links is in a cycle.

* `heap n` says whether `malloc` and its kin have `n` bytes to give.
* The integers of the descriptor are natural numbers: a size above `INT_MAX` is one that `heap` refuses.
* The slots and bytes that `realloc` adds are not set before the code writes them, and are not read before
  that either. They have the values of the cleared table here.
* An entry pointer below zero is refused like zero.
-/

namespace Ndhs.Kwdb

open Text Buffer Linked Function

/-- `NTHREADS` -/
def nthreads : Nat := 797

/-- `DEF_SZSBUF` -/
def defSzsbuf : Nat := 1024000

/-- `DEF_NKEYWORDS` -/
def defNkeywords : Nat := 2048

/-- `sizeof (Item)` -/
def sizeofItem : Nat := 36

/-- The factors of the hash sum, `MAX_HASHCHARS` of them. -/
def primes : List Int :=
  [101, 103, 107, 109, 113, 127, 131, 137, 139, 149, 151, 157, 163, 167, 173, 179, 181, 191]

/-- The value of a `char`, which has a sign. -/
def charValue (c : Char) : Int := if c.toNat < 128 then c.toNat else c.toNat - 256

/-- `hash`. The loop does not advance `ip`: every term of the sum has the first character. -/
def hash : Str → Int
  | [] => 0
  | ch :: _ => (primes.foldl (fun sum p => sum + charValue ch.toLower * p) 0).tmod nthreads

/-- The thread of a key; an index below zero is outside the hash table. -/
def thread (key : Str) : Option Nat := if 0 ≤ hash key then some (hash key).toNat else none

/-! ## The string buffer -/

/-- A `char *` argument: `NULL`, a string of the caller, or a pointer into the block of an `sbuf`. -/
inductive Arg where
  | null
  | text (s : Str)
  | ref (block off : Nat)
  deriving DecidableEq

/-- A string of the caller, or `NULL`. -/
def Arg.ofOption : Option CStr → Arg
  | none => .null
  | some s => .text s.text

/-- `sbuf`, `sbuflen` and `sbufused`. The block number changes when the buffer is reallocated. -/
structure Sbuf where
  chars : Buf
  len : Nat
  used : Nat
  block : Nat

namespace Sbuf

/-- The string at an offset. -/
def str (sb : Sbuf) (off : Nat) : Str := strAt sb.len sb.chars off

/-- The string that an argument points to, if it can be read. `NULL` is always taken like the empty
string. -/
def read (sb : Sbuf) : Arg → Option Str
  | .null => some []
  | .text s => some s
  | .ref block off => if block = sb.block then some (sb.str off) else none

/-- `memset (sbuf + off, 0, n)` -/
def wipe (sb : Sbuf) (off n : Nat) : Sbuf := { sb with chars := memset sb.chars off '\x00' n }

/-- `strcpy (sbuf + off, s)` -/
def write (sb : Sbuf) (off : Nat) (s : Str) : Sbuf := { sb with chars := strcpy sb.chars off s }

def realloc (sb : Sbuf) : Sbuf := { sb with len := sb.len + defSzsbuf, block := sb.block + 1 }

/-- `strcpy (db->sbuf + db->sbufused, text)`, and the offset of the copy. -/
def append (sb : Sbuf) (s : Str) : Option (Sbuf × Nat) :=
  if sb.used + (s.length + 1) ≤ sb.len then
    some ({ sb.write sb.used s with used := sb.used + (s.length + 1) }, sb.used)
  else none

/-- `addstr` -/
def addstr (heap : Nat → Bool) (sb : Sbuf) (text : Arg) : Option (Sbuf × Nat) :=
  (sb.read text).bind fun s =>
    if s = [] then some (sb, 0)
    else if sb.len ≤ sb.used + (s.length + 1) then
      if heap (sb.len + defSzsbuf) then
        -- `strcpy` reads the text again, after the old block was released
        (sb.realloc.read text).bind sb.realloc.append
      else some (sb, 0)
    else sb.append s

end Sbuf

/-! ## The database -/

/-- `struct item` -/
structure Item where
  name : Nat
  value : Nat
  vallen : Nat
  type : Nat
  typelen : Nat
  comment : Nat
  comlen : Nat
  nexthash : Nat
  nextglob : Nat
  deriving DecidableEq

/-- `struct kwdb` -/
structure Db where
  maxitems : Nat
  nitems : Nat
  itemsused : Nat
  head : Nat
  tail : Nat
  itab : Nat → Item
  sbuf : Sbuf
  hashtbl : Nat → Nat

namespace Db

/-- A new database, with its name in the string buffer. -/
def empty (kwdbname : Str) : Db where
  maxitems := defNkeywords
  nitems := 0
  itemsused := 1
  head := 0
  tail := 0
  itab := fun _ => ⟨0, 0, 0, 0, 0, 0, 0, 0, 0⟩
  sbuf :=
    { chars := strcpy (fun _ => '\x00') 1 kwdbname
      len := defSzsbuf
      used := kwdbname.length + 2
      block := 0 }
  hashtbl := fun _ => 0

/-- `kwdb_Open`. There is no database if an allocation fails, and the name has to fit into `sbuf`; the size
of the descriptor is `size`. -/
def openDb (heap : Nat → Bool) (size : Nat) (kwdbname : CStr) : Option Db :=
  if heap size ∧ heap (defNkeywords * sizeofItem) ∧ heap defSzsbuf ∧
      kwdbname.text.length + 2 ≤ defSzsbuf then
    some (empty kwdbname.text)
  else none

variable (heap : Nat → Bool) (db : Db)

/-- `kwdb_Len` -/
def len : Nat := db.nitems

/-- `kwdb_Next` -/
def next (ep : Nat) : Nat := (db.itab ep).nextglob

/-- The next entry of the thread. -/
def nexthash (ep : Nat) : Nat := (db.itab ep).nexthash

/-- The entries that `for (ep = kwdb_Head (kwdb); ep; ep = kwdb_Next (kwdb, ep))` visits. -/
def walk : Option (List Nat) := Linked.walk db.next db.maxitems db.head

def setNexthash (i v : Nat) : Db :=
  { db with itab := update db.itab i { db.itab i with nexthash := v } }

def setNextglob (i v : Nat) : Db :=
  { db with itab := update db.itab i { db.itab i with nextglob := v } }

def setName (i v : Nat) : Db := { db with itab := update db.itab i { db.itab i with name := v } }

/-- Link the item into the global list. -/
def link (index : Nat) : Db :=
  let head := if db.head = 0 then index else db.head
  let db := if db.tail = 0 then db else db.setNextglob db.tail index
  { db with head, tail := index }

/-- Enter the item in the hash table, if the name is not empty. -/
def enter (index : Nat) (keyword : Str) : Option Db :=
  if keyword = [] then some db
  else (thread keyword).map fun hashval =>
    let i := db.hashtbl hashval
    let db := if i = 0 then db else db.setNexthash index i
    { db with hashtbl := update db.hashtbl hashval index }

/-- If the entry is a keyword remove it from the hash table. -/
def leave (ep : Nat) : Option Db :=
  let itp := db.itab ep
  let name := db.sbuf.str itp.name
  if itp.name = 0 ∨ name = [] then some db
  else (thread name).bind fun hashval =>
    let i := db.hashtbl hashval
    if ep = i then some { db with hashtbl := update db.hashtbl hashval itp.nexthash }
    -- a thread without entries is searched from the unused slot 0, whose link is always 0
    else (pred db.nexthash ep db.maxitems i).map fun otp =>
      if otp = 0 then db else db.setNexthash otp itp.nexthash

/-- `kwdb_AddEntry` -/
def addEntry (keyword value type comment : Arg) : Option (Db × Int) :=
  let full := db.maxitems ≤ db.itemsused
  let maxitems := if full then db.maxitems + defNkeywords else db.maxitems
  if full ∧ heap (sizeofItem * maxitems) = false then some ({ db with maxitems }, -1)
  else do
    let index := db.itemsused
    let (sb, name) ← db.sbuf.addstr heap keyword
    let (sb, value') ← sb.addstr heap value
    let vallen := (← sb.read value).length
    let (sb, type') ← sb.addstr heap type
    let typelen := (← sb.read type).length
    let (sb, comment') ← sb.addstr heap comment
    let comlen := (← sb.read comment).length
    let itp : Item := ⟨name, value', vallen, type', typelen, comment', comlen, 0, 0⟩
    let db := { db with maxitems, itemsused := index + 1, itab := update db.itab index itp, sbuf := sb }
    let db ← (db.link index).enter index (← sb.read keyword)
    some ({ db with nitems := db.nitems + 1 }, index)

/-- The loop of `kwdb_Lookup` from the entry `i` of the thread, after `j` entries with the name. -/
def lookupLoop (keyword : Str) (inst : Nat) : Nat → Nat → Nat → Option Nat
  | _, 0, _ => some 0
  | 0, _ + 1, _ => none
  | n + 1, i, j =>
    if streq (db.sbuf.str (db.itab i).name) keyword then
      if inst = j then some i else lookupLoop keyword inst n (db.nexthash i) (j + 1)
    else lookupLoop keyword inst n (db.nexthash i) j

/-- `kwdb_Lookup`. Around a cycle with the keyword in it the loop does end, once it has counted to the
instance. -/
def lookup (keyword : Str) (inst : Nat) : Option Nat :=
  (thread keyword).bind fun hashval =>
    db.lookupLoop keyword inst ((inst + 1) * db.maxitems) (db.hashtbl hashval) 0

/-- A field with a text and the room for it. -/
inductive Field where
  | value | type | comment
  deriving DecidableEq

end Db

namespace Item

/-- The offset of a field. -/
def off (itp : Item) : Db.Field → Nat
  | .value => itp.value
  | .type => itp.type
  | .comment => itp.comment

/-- The room of a field. -/
def room (itp : Item) : Db.Field → Nat
  | .value => itp.vallen
  | .type => itp.typelen
  | .comment => itp.comlen

def setField (itp : Item) (off room : Nat) : Db.Field → Item
  | .value => { itp with value := off, vallen := room }
  | .type => { itp with type := off, typelen := room }
  | .comment => { itp with comment := off, comlen := room }

end Item

namespace Db

variable (heap : Nat → Bool) (db : Db)

/-- The text of a field of the entry for a keyword; the inner `none` is `NULL`. -/
def getField (f : Field) (keyword : Str) : Option (Option Str) :=
  (db.lookup keyword 0).map fun ep =>
    if ep = 0 then none else some (db.sbuf.str ((db.itab ep).off f))

/-- `kwdb_GetValue` -/
def getValue (keyword : Str) : Option (Option Str) := db.getField .value keyword

/-- `kwdb_GetComment` -/
def getComment (keyword : Str) : Option (Option Str) := db.getField .comment keyword

/-- `kwdb_GetType` -/
def getType (keyword : Str) : Option (Option Str) := db.getField .type keyword

/-- Set a field of the entry for a keyword: in place if the text fits, else with a new string. -/
def setField (f : Field) (keyword text : Str) : Option (Db × Int) :=
  (db.lookup keyword 0).bind fun ep =>
    if ep = 0 then some (db, -1)
    else
      let itp := db.itab ep
      let sbuf := db.sbuf.wipe (itp.off f) (itp.room f)
      if itp.room f < text.length then
        (sbuf.addstr heap (.text text)).map fun (sbuf, off) =>
          ({ db with sbuf, itab := update db.itab ep (itp.setField off text.length f) }, 0)
      else some ({ db with sbuf := sbuf.write (itp.off f) text }, 0)

/-- `kwdb_SetValue` -/
def setValue (keyword value : Str) : Option (Db × Int) := db.setField heap .value keyword value

/-- `kwdb_SetComment` -/
def setComment (keyword comment : Str) : Option (Db × Int) := db.setField heap .comment keyword comment

/-- `kwdb_SetType` -/
def setType (keyword type : Str) : Option (Db × Int) := db.setField heap .type keyword type

/-- `otp->nextglob = itp->nextglob`, if the loop has found the entry before. -/
def skip (i ep : Nat) : Db := if i = 0 then db else db.setNextglob i (db.next ep)

/-- The last slot is free again. -/
def dropTail (i ep : Nat) : Db :=
  if db.tail = ep then { db with tail := i, itemsused := db.itemsused - 1 } else db

/-- Remove the entry from the global list. -/
def unlink (ep : Nat) : Option Db :=
  let head := if db.head = ep then db.next ep else db.head
  (pred db.next ep db.maxitems head).map fun i => (Db.skip { db with head } i ep).dropTail i ep

/-- `kwdb_DeleteEntry` -/
def deleteEntry (ep : Nat) : Option (Db × Int) :=
  if ep = 0 ∨ db.tail < ep then some (db, -1)
  else do
    let db ← db.leave ep
    let db ← db.unlink ep
    some ({ db with nitems := db.nitems - 1 }, 0)

/-- `kwdb_RenameEntry` -/
def renameEntry (ep : Nat) (newname : Option CStr) : Option (Db × Int) :=
  if ep = 0 ∨ db.tail < ep then some (db, -1)
  else do
    let db ← db.leave ep
    let name ← db.sbuf.read (Arg.ofOption newname)
    if name = [] then some (db.setName ep 0, 0)
    else
      let db ← db.enter ep name
      let (sbuf, off) ← db.sbuf.addstr heap (Arg.ofOption newname)
      some ({ db.setName ep off with sbuf }, 0)

/-- The pointer that `kwdb_CopyEntry` makes from an offset into the buffer of `o_db`: one into the buffer
that `kwdb_AddEntry` may reallocate if the databases are the same. -/
def copyArg (o_db : Db) (same : Bool) (off : Nat) : Arg :=
  if same then .ref o_db.sbuf.block off else .text (o_db.sbuf.str off)

/-- `kwdb_CopyEntry` -/
def copyEntry (o_db : Db) (same : Bool) (o_ep : Nat) (newname : Option CStr) : Option (Db × Int) :=
  let itp := o_db.itab o_ep
  let arg := copyArg o_db same
  let name :=
    match newname with
    | some s => if s.text = [] then arg itp.name else .text s.text
    | none => arg itp.name
  db.addEntry heap name (arg itp.value) (arg itp.type) (arg itp.comment)

/-- `kwdb_GetEntry`: the four texts. -/
def getEntry (ep : Nat) : Option (Str × Str × Str × Str) :=
  if ep = 0 ∨ db.tail < ep then none
  else
    let itp := db.itab ep
    some (db.sbuf.str itp.name, db.sbuf.str itp.value, db.sbuf.str itp.type, db.sbuf.str itp.comment)

end Db

/-! ## Histories of calls -/

/-- A call on one database. -/
inductive Call where
  | add (keyword value type comment : Option CStr)
  | set (f : Db.Field) (keyword text : CStr)
  | delete (ep : Nat)
  | rename (ep : Nat) (newname : Option CStr)

def Db.call (heap : Nat → Bool) (db : Db) : Call → Option (Db × Int)
  | .add keyword value type comment =>
    db.addEntry heap (.ofOption keyword) (.ofOption value) (.ofOption type) (.ofOption comment)
  | .set f keyword text => db.setField heap f keyword.text text.text
  | .delete ep => db.deleteEntry ep
  | .rename ep newname => db.renameEntry heap ep newname

/-- A call on one of the open databases; a copy reads another one, or the same. -/
inductive Op where
  | call (d : Nat) (c : Call)
  | copy (d o ep : Nat) (newname : Option CStr)

/-- One call of a program that has the databases `w` open. -/
def Op.exec (heap : Nat → Bool) (w : Nat → Db) : Op → Option ((Nat → Db) × Int)
  | .call d c => ((w d).call heap c).map fun (db, r) => (update w d db, r)
  | .copy d o ep newname =>
    ((w d).copyEntry heap (w o) (decide (d = o)) ep newname).map fun (db, r) => (update w d db, r)

end Ndhs.Kwdb
