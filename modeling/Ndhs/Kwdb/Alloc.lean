import Ndhs.Lib.Requests
import Ndhs.Kwdb.Refine

/-!
# Calls without memory

The functions of `mosdca/kwdb.c` once more, with an allocator that can refuse each request, and with the number of
slots that the item table really has. `kwdb_AddEntry` raises `maxitems` before it asks for the larger table:

    db->maxitems += DEF_NKEYWORDS;
    itp = (Item *) realloc ((char *)db->itab, sizeof(Item) * db->maxitems);
    if (!itp)
        return (-1);

so after a refusal the next call finds room that is not there. `addstr` returns 0 for a text that it could not store,
which is also what it returns for the empty text, and its callers go on. `undone_never`: there is no call in which a
request is refused and after which the database is as if the call had not been made.
-/

namespace Ndhs.Kwdb

open Text Buffer Function Requests

variable {heap : Nat → Bool} {alloc : Allocator} {log log' : List Bool}

/-- `addstr` -/
def Sbuf.addstrAlloc (alloc : Allocator) (sb : Sbuf) (text : Str) : Requests (Sbuf × Nat) :=
  if text = [] then pure (sb, 0)
  else if sb.len ≤ sb.used + (text.length + 1) then do
    if (← ask alloc (sb.len + defSzsbuf)) then lift (sb.realloc.append text) else pure (sb, 0)
  else lift (sb.append text)

/-- A database and the slots of the block that `itab` points to. -/
structure Table where
  db : Db
  slots : Nat
  used : db.itemsused ≤ slots
  max : slots ≤ db.maxitems

namespace Table

/-- No result if an item was written behind the last slot. -/
def make (slots : Nat) (db : Db) : Option Table :=
  if h : db.itemsused ≤ slots ∧ slots ≤ db.maxitems then some ⟨db, slots, h.1, h.2⟩ else none

variable (alloc : Allocator) (t : Table)

/-- `kwdb_AddEntry` from `index = db->itemsused++` on, in a table with `slots` slots. -/
def append (slots maxitems : Nat) (keyword value type comment : Option CStr) : Requests (Table × Int) := do
  let index := t.db.itemsused
  let (sb, name) ← t.db.sbuf.addstrAlloc alloc (textOf keyword)
  let (sb, value') ← sb.addstrAlloc alloc (textOf value)
  let (sb, type') ← sb.addstrAlloc alloc (textOf type)
  let (sb, comment') ← sb.addstrAlloc alloc (textOf comment)
  let itp : Item :=
    ⟨name, value', (textOf value).length, type', (textOf type).length, comment', (textOf comment).length, 0, 0⟩
  let db := { t.db with maxitems, itemsused := index + 1, itab := update t.db.itab index itp, sbuf := sb }
  let db ← lift ((db.link index).enter index (textOf keyword))
  let t ← lift (make slots { db with nitems := db.nitems + 1 })
  pure (t, index)

/-- `kwdb_AddEntry` -/
def addEntry (keyword value type comment : Option CStr) : Requests (Table × Int) :=
  if t.db.maxitems ≤ t.db.itemsused then do
    let maxitems := t.db.maxitems + defNkeywords
    if (← ask alloc (sizeofItem * maxitems)) then
      t.append alloc maxitems maxitems keyword value type comment
    else
      let t ← lift (make t.slots { t.db with maxitems })
      pure (t, -1)
  else t.append alloc t.slots t.db.maxitems keyword value type comment

/-- `kwdb_SetValue`, and likewise for the other fields. -/
def setField (f : Db.Field) (keyword text : Str) : Requests (Table × Int) := do
  let ep ← lift (t.db.lookup keyword 0)
  if ep = 0 then pure (t, -1)
  else
    let itp := t.db.itab ep
    let sbuf := t.db.sbuf.wipe (itp.off f) (itp.room f)
    if itp.room f < text.length then
      let (sbuf, off) ← sbuf.addstrAlloc alloc text
      let t ← lift (make t.slots { t.db with sbuf, itab := update t.db.itab ep (itp.setField off text.length f) })
      pure (t, 0)
    else
      let t ← lift (make t.slots { t.db with sbuf := sbuf.write (itp.off f) text })
      pure (t, 0)

/-- `kwdb_DeleteEntry` -/
def deleteEntry (ep : Nat) : Requests (Table × Int) := do
  let (db, r) ← lift (t.db.deleteEntry ep)
  let t ← lift (make t.slots db)
  pure (t, r)

/-- `kwdb_RenameEntry` -/
def renameEntry (ep : Nat) (newname : Option CStr) : Requests (Table × Int) :=
  if ep = 0 ∨ t.db.tail < ep then pure (t, -1)
  else do
    let db ← lift (t.db.leave ep)
    if textOf newname = [] then
      let t ← lift (make t.slots (db.setName ep 0))
      pure (t, 0)
    else
      let db ← lift (db.enter ep (textOf newname))
      let (sbuf, off) ← db.sbuf.addstrAlloc alloc (textOf newname)
      let t ← lift (make t.slots { db.setName ep off with sbuf })
      pure (t, 0)

def call : Call → Requests (Table × Int)
  | .add keyword value type comment => t.addEntry alloc keyword value type comment
  | .set f keyword text => t.setField alloc f keyword.text text.text
  | .delete ep => t.deleteEntry ep
  | .rename ep newname => t.renameEntry alloc ep newname

/-- The table after the calls. -/
def after (t : Table) : List Call → Requests Table
  | [] => pure t
  | c :: cs => do
    let (t, _) ← t.call alloc c
    after t cs

/-- What the calls return, one after the other. -/
def replies (t : Table) : List Call → Requests (List Int)
  | [] => pure []
  | c :: cs => do
    let (t, r) ← t.call alloc c
    let rs ← replies t cs
    pure (r :: rs)

variable {alloc t}

theorem make_eq_some {slots : Nat} {db : Db} (h : make slots db = some t) : t.db = db ∧ t.slots = slots := by
  unfold make at h
  split at h
  · cases h
    exact ⟨rfl, rfl⟩
  · cases h

theorem make_none {slots : Nat} {db : Db} (h : slots < db.itemsused) : make slots db = none :=
  dif_neg fun hc => absurd hc.1 (Nat.not_le.mpr h)

theorem append_result {slots maxitems : Nat} {k v ty c : Option CStr} {t' : Table} {r : Int}
    (h : t.append alloc slots maxitems k v ty c log = some ((t', r), log')) : r = t.db.itemsused := by
  unfold append at h
  obtain ⟨p, _, -, h⟩ := bind_eq_some.mp h
  obtain ⟨p, _, -, h⟩ := bind_eq_some.mp h
  obtain ⟨p, _, -, h⟩ := bind_eq_some.mp h
  obtain ⟨p, _, -, h⟩ := bind_eq_some.mp h
  obtain ⟨db, _, -, h⟩ := bind_eq_some.mp h
  obtain ⟨t, _, -, h⟩ := bind_eq_some.mp h
  cases ret_eq_some.mp h
  rfl

/-- The database after an entry without texts. -/
def blank (t : Table) (maxitems : Nat) : Db :=
  let index := t.db.itemsused
  let itab := update t.db.itab index ⟨0, 0, 0, 0, 0, 0, 0, 0, 0⟩
  let db := Db.link { t.db with maxitems, itemsused := index + 1, itab } index
  { db with nitems := db.nitems + 1 }

theorem blank_itemsused (maxitems : Nat) : (t.blank maxitems).itemsused = t.db.itemsused + 1 := by
  unfold blank Db.link
  dsimp only
  split <;> rfl

theorem blank_maxitems (maxitems : Nat) : (t.blank maxitems).maxitems = maxitems := by
  unfold blank Db.link
  dsimp only
  split <;> rfl

/-- An entry without texts asks for no memory. -/
theorem append_blank (slots maxitems : Nat) :
    t.append alloc slots maxitems none none none none log =
      (make slots (t.blank maxitems)).map fun t' => ((t', (t.db.itemsused : Int)), log) := by
  have hadd : ∀ sb, Sbuf.addstrAlloc alloc sb (textOf none) = pure (sb, 0) := fun _ => if_pos rfl
  have henter : ∀ db : Db, db.enter t.db.itemsused (textOf none) = some db := fun db => if_pos rfl
  unfold append
  simp only [hadd, ret_bind, henter, lift_some]
  change ((make slots (t.blank maxitems)).map _).bind _ = _
  cases make slots (t.blank maxitems) <;> rfl

/-- A call that returns -1 has asked for nothing, or for a larger table. -/
theorem call_failed {c : Call} {t' : Table} (h : t.call alloc c log = some ((t', -1), log')) :
    log' = log ∨ t.db.maxitems ≤ t.db.itemsused ∧ t'.slots = t.slots ∧
      t'.db = { t.db with maxitems := t.db.maxitems + defNkeywords } := by
  cases c with
  | add k v ty c =>
    change t.addEntry alloc k v ty c log = _ at h
    unfold addEntry at h
    split at h
    · next hfull =>
      obtain ⟨granted, log₁, -, h⟩ := bind_eq_some.mp h
      split at h
      · have := append_result h
        omega
      · obtain ⟨t₁, log₂, hmake, h⟩ := bind_eq_some.mp h
        cases ret_eq_some.mp h
        obtain ⟨hdb, hslots⟩ := make_eq_some (lift_eq_some.mp hmake).1
        exact .inr ⟨hfull, hslots, hdb⟩
    · have := append_result h
      omega
  | set f k text =>
    obtain ⟨ep, log₁, hep, h⟩ := bind_eq_some.mp h
    have hlog := (lift_eq_some.mp hep).2
    split at h
    · cases ret_eq_some.mp h
      exact .inl hlog
    · dsimp only at h
      split at h
      · obtain ⟨p, log₂, -, h⟩ := bind_eq_some.mp h
        obtain ⟨t₁, log₃, -, h⟩ := bind_eq_some.mp h
        cases ret_eq_some.mp h
      · obtain ⟨t₁, log₃, -, h⟩ := bind_eq_some.mp h
        cases ret_eq_some.mp h
  | delete ep =>
    obtain ⟨p, log₁, hp, h⟩ := bind_eq_some.mp h
    obtain ⟨t₁, log₂, ht, h⟩ := bind_eq_some.mp h
    have hlog : log₂ = log' := congrArg Prod.snd (ret_eq_some.mp h)
    exact .inl (hlog.symm.trans ((lift_eq_some.mp ht).2.trans (lift_eq_some.mp hp).2))
  | rename ep n =>
    change t.renameEntry alloc ep n log = _ at h
    unfold renameEntry at h
    split at h
    · cases ret_eq_some.mp h
      exact .inl rfl
    · obtain ⟨db, log₁, -, h⟩ := bind_eq_some.mp h
      split at h
      · obtain ⟨t₁, log₂, -, h⟩ := bind_eq_some.mp h
        cases ret_eq_some.mp h
      · obtain ⟨db₂, log₂, -, h⟩ := bind_eq_some.mp h
        obtain ⟨p, log₃, -, h⟩ := bind_eq_some.mp h
        obtain ⟨t₁, log₄, -, h⟩ := bind_eq_some.mp h
        cases ret_eq_some.mp h

end Table

/-! ## One answer for each size -/

/-- A string of the caller. -/
theorem erases_addstr (sb : Sbuf) {a : Arg} {s : Str} (ha : ∀ sb : Sbuf, sb.read a = some s) :
    Erases id (sb.addstrAlloc (fun _ => heap) s) (sb.addstr heap a) := by
  rw [Sbuf.addstr, ha, Option.bind_some, ha, Sbuf.addstrAlloc, Option.bind_some]
  generalize sb.len + defSzsbuf = n
  refine .ite (fun _ => erases_pure id _) fun _ => .ite (fun _ => ?_) fun _ => erases_lift _
  rw [← Option.bind_some (f := fun granted => if granted = true then sb.realloc.append s else some (sb, 0))]
  exact (erases_ask heap n).bind fun granted _ => .ite (fun _ => erases_lift _) fun _ => erases_pure id _

/-- The steps of a call leave the counts of the item table. -/
theorem Db.enter_counts {db db' : Db} {i : Nat} {k : Str} (h : db.enter i k = some db') :
    db'.itemsused = db.itemsused ∧ db'.maxitems = db.maxitems := by
  unfold Db.enter at h
  split at h
  · cases h
    exact ⟨rfl, rfl⟩
  · obtain ⟨g, -, rfl⟩ := Option.map_eq_some_iff.mp h
    dsimp only
    split <;> exact ⟨rfl, rfl⟩

theorem Db.leave_counts {db db' : Db} {ep : Nat} (h : db.leave ep = some db') :
    db'.itemsused = db.itemsused ∧ db'.maxitems = db.maxitems := by
  unfold Db.leave at h
  by_cases h0 : (db.itab ep).name = 0 ∨ db.sbuf.str (db.itab ep).name = []
  · cases (if_pos h0).symm.trans h
    exact ⟨rfl, rfl⟩
  · obtain ⟨g, -, h⟩ := Option.bind_eq_some_iff.mp ((if_neg h0).symm.trans h)
    dsimp only at h
    split at h
    · cases h
      exact ⟨rfl, rfl⟩
    · obtain ⟨otp, -, rfl⟩ := Option.map_eq_some_iff.mp h
      split <;> exact ⟨rfl, rfl⟩

theorem Db.link_counts (db : Db) (i : Nat) :
    (db.link i).itemsused = db.itemsused ∧ (db.link i).maxitems = db.maxitems := by
  unfold Db.link
  dsimp only
  split <;> exact ⟨rfl, rfl⟩

theorem Db.skip_counts (db : Db) (i ep : Nat) :
    (db.skip i ep).itemsused = db.itemsused ∧ (db.skip i ep).maxitems = db.maxitems := by
  unfold Db.skip
  split <;> exact ⟨rfl, rfl⟩

theorem Db.dropTail_counts (db : Db) (i ep : Nat) :
    (db.dropTail i ep).itemsused ≤ db.itemsused ∧ (db.dropTail i ep).maxitems = db.maxitems := by
  unfold Db.dropTail
  split
  · exact ⟨Nat.sub_le .., rfl⟩
  · exact ⟨le_refl _, rfl⟩

/-- Deleting can free the last slot. -/
theorem Db.deleteEntry_counts {db db' : Db} {ep : Nat} {r : Int} (h : db.deleteEntry ep = some (db', r)) :
    db'.itemsused ≤ db.itemsused ∧ db'.maxitems = db.maxitems := by
  unfold Db.deleteEntry at h
  split at h
  · cases h
    exact ⟨le_refl _, rfl⟩
  · obtain ⟨db₁, hleave, h⟩ := Option.bind_eq_some_iff.mp h
    obtain ⟨db₂, hunlink, h⟩ := Option.bind_eq_some_iff.mp h
    obtain ⟨hu, hm⟩ := Db.leave_counts hleave
    cases h
    obtain ⟨i, -, rfl⟩ := Option.map_eq_some_iff.mp hunlink
    obtain ⟨hu', hm'⟩ := Db.dropTail_counts (Db.skip _ i ep) i ep
    obtain ⟨hu'', hm''⟩ := Db.skip_counts { db₁ with head := if db₁.head = ep then db₁.next ep else db₁.head } i ep
    exact ⟨hu'.trans (hu''.trans hu).le, hm'.trans (hm''.trans hm)⟩

/-- The database after a call, with the return value. -/
def Table.shown (p : Table × Int) : Db × Int := (p.1.db, p.2)

/-- A write that stays in the table. -/
theorem erases_make {slots : Nat} {db : Db} (r : Int) (h : db.itemsused ≤ slots ∧ slots ≤ db.maxitems) :
    Erases Table.shown (lift (Table.make slots db) >>= fun t => pure (t, r)) (some (db, r)) := by
  intro log
  rw [Table.make, dif_pos h]
  rfl

/-- `Db.addEntry` from `index = db->itemsused++` on. -/
def Db.addItem (heap : Nat → Bool) (db : Db) (maxitems : Nat) (k v ty c : Arg) : Option (Db × Int) := do
  let index := db.itemsused
  let (sb, name) ← db.sbuf.addstr heap k
  let (sb, value') ← sb.addstr heap v
  let vallen := (← sb.read v).length
  let (sb, type') ← sb.addstr heap ty
  let typelen := (← sb.read ty).length
  let (sb, comment') ← sb.addstr heap c
  let comlen := (← sb.read c).length
  let itp : Item := ⟨name, value', vallen, type', typelen, comment', comlen, 0, 0⟩
  let db := { db with maxitems, itemsused := index + 1, itab := update db.itab index itp, sbuf := sb }
  let db ← (db.link index).enter index (← sb.read k)
  some ({ db with nitems := db.nitems + 1 }, index)

theorem Db.addEntry_item (db : Db) (k v ty c : Arg) :
    db.addEntry heap k v ty c =
      if db.maxitems ≤ db.itemsused then
        if heap (sizeofItem * (db.maxitems + defNkeywords)) then
          db.addItem heap (db.maxitems + defNkeywords) k v ty c
        else some ({ db with maxitems := db.maxitems + defNkeywords }, -1)
      else db.addItem heap db.maxitems k v ty c := by
  unfold Db.addEntry
  generalize defNkeywords = n
  by_cases hfull : db.maxitems ≤ db.itemsused
  · cases hheap : heap (sizeofItem * (db.maxitems + n))
    · simp [hfull, hheap]
    · simp only [hfull, hheap, if_true, Bool.true_eq_false, and_false, if_false]
      rfl
  · simp only [hfull, false_and, if_false]
    rfl

theorem erases_append (t : Table) {slots maxitems : Nat} (hu : t.db.itemsused + 1 ≤ slots) (hs : slots ≤ maxitems)
    (k v ty c : Option CStr) :
    Erases Table.shown (t.append (fun _ => heap) slots maxitems k v ty c)
      (t.db.addItem heap maxitems (.ofOption k) (.ofOption v) (.ofOption ty) (.ofOption c)) := by
  unfold Table.append Db.addItem
  refine (erases_addstr _ (read_ofOption k)).bind fun ⟨sb₀, o₀⟩ _ => ?_
  refine (erases_addstr _ (read_ofOption v)).bind fun ⟨sb₁, o₁⟩ _ => ?_
  simp only [read_ofOption, Option.bind_eq_bind, Option.bind_some]
  refine (erases_addstr _ (read_ofOption ty)).bind fun ⟨sb₂, o₂⟩ _ => ?_
  refine (erases_addstr _ (read_ofOption c)).bind fun ⟨sb₃, o₃⟩ _ => ?_
  refine (erases_lift _).bind fun db henter => erases_make _ ?_
  obtain ⟨hused, hmax⟩ := Db.enter_counts henter
  obtain ⟨hused', hmax'⟩ := Db.link_counts _ t.db.itemsused
  exact ⟨(hused.trans hused').trans_le hu, hs.trans (hmax.trans hmax').ge⟩

/-- If the allocator looks at the size only, and has not refused a larger table before, the call is that of the
database. -/
theorem Table.call_shown (t : Table) (hslots : t.slots = t.db.maxitems) (c : Call) :
    Erases Table.shown (t.call (fun _ => heap) c) (t.db.call heap c) := by
  have hused := t.used
  cases c with
  | add k v ty c =>
    change Erases _ (t.addEntry _ k v ty c) (t.db.addEntry heap _ _ _ _)
    rw [Table.addEntry, Db.addEntry_item]
    refine .ite (fun hfull => ?_) fun hroom => erases_append t (by omega) hslots.le k v ty c
    generalize hn : t.db.maxitems + defNkeywords = n
    have hless : t.db.itemsused + 1 ≤ n := by
      have := t.max
      unfold defNkeywords at hn
      omega
    rw [← Option.bind_some (f := fun granted => if granted = true then t.db.addItem heap n (.ofOption k) (.ofOption v)
      (.ofOption ty) (.ofOption c) else some ({ t.db with maxitems := n }, -1))]
    refine (erases_ask heap _).bind fun granted _ => .ite (fun _ => erases_append t hless le_rfl k v ty c) fun _ => ?_
    refine erases_make (-1) ⟨hused, ?_⟩
    change t.slots ≤ n
    omega
  | set f k text =>
    refine (erases_lift _).bind fun ep _ => .ite (fun _ => erases_pure Table.shown _) fun _ => ?_
    refine .ite (fun _ => ?_) fun _ => erases_make 0 ⟨hused, hslots.le⟩
    rw [Option.map_eq_bind]
    refine (erases_addstr _ fun _ => rfl).bind fun ⟨sbuf, off⟩ _ => ?_
    exact erases_make 0 ⟨hused, hslots.le⟩
  | delete ep =>
    rw [show t.db.call heap (.delete ep) = (t.db.deleteEntry ep).bind some from (Option.bind_fun_some _).symm]
    refine (erases_lift _).bind fun ⟨db, r⟩ hdel => erases_make r ?_
    obtain ⟨hu, hm⟩ := Db.deleteEntry_counts hdel
    exact ⟨hu.trans hused, (hslots.trans hm.symm).le⟩
  | rename ep n =>
    refine .ite (fun _ => erases_pure Table.shown _) fun _ => (erases_lift _).bind fun db hleave => ?_
    obtain ⟨hu, hm⟩ := Db.leave_counts hleave
    rw [read_ofOption, Option.bind_eq_bind, Option.bind_some]
    refine .ite (fun _ => erases_make 0 ⟨hu.trans_le hused, (hslots.trans hm.symm).le⟩) fun _ => ?_
    refine (erases_lift _).bind fun db' henter => (erases_addstr _ (read_ofOption n)).bind fun ⟨sbuf, off⟩ _ => ?_
    obtain ⟨hu', hm'⟩ := Db.enter_counts henter
    exact erases_make 0 ⟨(hu'.trans hu).trans_le hused, (hslots.trans (hm'.trans hm).symm).le⟩

/-! ## Refusals -/

/-- The call reports failure, and the database is as before: the entries, the lookups, the texts, the room, and what
later calls return, whatever memory they get. -/
def Undone (alloc : Allocator) (t : Table) (c : Call) : Prop :=
  ∃ t' log, t.call alloc c [] = some ((t', -1), log) ∧ t'.db.walk = t.db.walk ∧ t'.db.len = t.db.len ∧
    (∀ k i, t'.db.lookup k i = t.db.lookup k i) ∧ (∀ ep, t'.db.getEntry ep = t.db.getEntry ep) ∧
    t'.db.itemsused ≤ t'.db.maxitems ∧
    ∀ alloc' log cs, (t'.replies alloc' cs log).map Prod.fst = (t.replies alloc' cs log).map Prod.fst

/-- An entry without texts, added when the table is full and there is memory again. -/
theorem Table.replies_full {t : Table} (hfull : t.db.maxitems ≤ t.db.itemsused) (log : List Bool) :
    (t.replies (fun _ _ => true) [.add none none none none] log).isSome = true := by
  have hadd : t.addEntry (fun _ _ => true) none none none none log =
      t.append (fun _ _ => true) (t.db.maxitems + defNkeywords) (t.db.maxitems + defNkeywords) none none none none
        (log ++ [true]) := by
    rw [addEntry, if_pos hfull]
    exact (bind_of_eq (a := true) rfl).trans (congrFun (if_pos rfl) _)
  have hused : t.db.itemsused + 1 ≤ t.db.maxitems + defNkeywords := by
    have := t.used.trans t.max
    unfold defNkeywords
    omega
  have hmake : (make (t.db.maxitems + defNkeywords) (t.blank (t.db.maxitems + defNkeywords))).isSome = true := by
    rw [make, dif_pos]
    · rfl
    · rw [blank_itemsused, blank_maxitems]
      exact ⟨hused, le_refl _⟩
  obtain ⟨t', ht'⟩ := Option.isSome_iff_exists.mp hmake
  change ((t.addEntry (fun _ _ => true) none none none none log).bind _).isSome = true
  rw [hadd, append_blank, ht']
  rfl

/-- The same after a refusal: the item is written behind the last slot. -/
theorem Table.replies_refused {t : Table} (hmax : t.db.itemsused < t.db.maxitems)
    (hslots : t.slots ≤ t.db.itemsused) (log : List Bool) :
    t.replies (fun _ _ => true) [.add none none none none] log = none := by
  change (t.addEntry (fun _ _ => true) none none none none log).bind _ = none
  rw [addEntry, if_neg (Nat.not_le.mpr hmax), append_blank, make_none]
  · rfl
  · rw [blank_itemsused]
    exact Nat.lt_succ_of_le hslots

/-- After a refusal of a larger table, a later call differs. -/
theorem Table.later_differs {t t' : Table} (hfull : t.db.maxitems ≤ t.db.itemsused) (hslots : t'.slots = t.slots)
    (hdb : t'.db = { t.db with maxitems := t.db.maxitems + defNkeywords }) :
    ¬ ∀ alloc' log cs, (t'.replies alloc' cs log).map Prod.fst = (t.replies alloc' cs log).map Prod.fst := by
  intro hlater
  have hmax : t'.db.itemsused < t'.db.maxitems := by
    have := t.used.trans t.max
    rw [hdb]
    change t.db.itemsused < t.db.maxitems + defNkeywords
    unfold defNkeywords
    omega
  have hlast : t'.slots ≤ t'.db.itemsused := by
    rw [hslots, hdb]
    exact t.max.trans hfull
  have hreplies := hlater (fun _ _ => true) [] [.add none none none none]
  rw [Table.replies_refused hmax hlast, Option.map_none, eq_comm, Option.map_eq_none_iff] at hreplies
  have hsome := Table.replies_full hfull []
  rw [hreplies] at hsome
  cases hsome

/-- No call in which a request is refused is undone. -/
theorem undone_never (alloc : Allocator) (t : Table) (c : Call)
    (hfail : ∀ p, t.call alloc c [] = some p → false ∈ p.2) : ¬ Undone alloc t c := by
  rintro ⟨t', log, hcall, -, -, -, -, -, hlater⟩
  have hlog : false ∈ log := hfail _ hcall
  rcases Table.call_failed hcall with rfl | ⟨hfull, hslots, hdb⟩
  · cases hlog
  · exact Table.later_differs hfull hslots hdb hlater

/-! ## A full table, and a full string buffer -/

theorem one_le_defNkeywords : 1 ≤ defNkeywords := by decide

/-- A new database, and its table. -/
def Table.new (kwdbname : Str) : Table := ⟨Db.empty kwdbname, defNkeywords, one_le_defNkeywords, le_rfl⟩

/-- Entries without texts fill the table. -/
theorem Table.fill (alloc : Allocator) (log : List Bool) {t : Table} {n : Nat} (hmax : t.slots = t.db.maxitems)
    (hn : t.db.itemsused + n = t.slots) :
    ∃ t', t.after alloc (List.replicate n (.add none none none none)) log = some (t', log) ∧
      t'.db.maxitems = t'.db.itemsused := by
  induction n generalizing t with
  | zero => exact ⟨t, rfl, hmax.symm.trans hn.symm⟩
  | succ n ih =>
    have hmake : (make t.slots (t.blank t.db.maxitems)).isSome = true := by
      rw [make, dif_pos]
      · rfl
      · rw [blank_itemsused, blank_maxitems]
        omega
    obtain ⟨t₁, ht₁⟩ := Option.isSome_iff_exists.mp hmake
    obtain ⟨hdb, hslots⟩ := make_eq_some ht₁
    obtain ⟨t', hafter, hfull⟩ := ih (t := t₁)
      (by rw [hslots, hdb, blank_maxitems, hmax]) (by rw [hslots, hdb, blank_itemsused]; omega)
    refine ⟨t', ?_, hfull⟩
    change (t.addEntry alloc none none none none log).bind _ = _
    rw [Table.addEntry, if_neg (by omega), append_blank, ht₁]
    exact hafter

/-- The allocator that refuses every request. -/
def refuse : Allocator := fun _ _ => false

/-- After 2047 entries the table is full, and one more is refused. -/
theorem undone_never_full :
    ∃ t, (Table.new ['d']).after refuse (List.replicate 2047 (.add none none none none)) [] = some (t, []) ∧
      ¬ Undone refuse t (.add none none none none) := by
  obtain ⟨t, hafter, hfull⟩ := Table.fill refuse [] (t := Table.new ['d']) (n := 2047) rfl rfl
  refine ⟨t, hafter, undone_never refuse t _ fun p hp => ?_⟩
  change t.addEntry refuse none none none none [] = some p at hp
  rw [Table.addEntry, if_pos hfull.le] at hp
  obtain ⟨granted, log, hask, hp⟩ := bind_eq_some.mp hp
  cases hask
  obtain ⟨t', log', hlift, hp⟩ := bind_eq_some.mp hp
  cases ret_eq_some.mp hp
  rw [(lift_eq_some.mp hlift).2]
  exact List.mem_singleton_self false

theorem noNull_expstart : '\x00' ∉ ['E', 'X', 'P', 'S', 'T', 'A', 'R', 'T'] := by decide

/-- A keyword of eight letters, for which eight bytes are too few. -/
def expstart : CStr := ⟨['E', 'X', 'P', 'S', 'T', 'A', 'R', 'T'], noNull_expstart⟩

/-- The entry is added without its name: the call returns its pointer, and not -1. -/
theorem unnamed_not_undone :
    ∃ t, (Table.new longName.text).call refuse (.add (some expstart) none none none) [] = some ((t, 1), [false]) ∧
      (t.db.itab 1).name = 0 ∧
      ¬ Undone refuse (Table.new longName.text) (.add (some expstart) none none none) := by
  have hrefused : (Table.new longName.text).db.sbuf.addstrAlloc refuse (textOf (some expstart)) [] =
      some (((Table.new longName.text).db.sbuf, 0), [false]) := by
    rw [Sbuf.addstrAlloc, if_neg (by decide), if_pos]
    · rfl
    · simp [Table.new, Db.empty, longName_length, defSzsbuf, expstart, textOf]
  have hadd : ∀ sb, Sbuf.addstrAlloc refuse sb (textOf none) = pure (sb, 0) := fun _ => if_pos rfl
  have hhash : hash (textOf (some expstart)) = ((hash (textOf (some expstart))).toNat : Nat) := by decide
  have hcall : ∃ t, (Table.new longName.text).call refuse (.add (some expstart) none none none) [] =
      some ((t, 1), [false]) ∧ (t.db.itab 1).name = 0 := by
    change ∃ t, (Table.new longName.text).addEntry refuse (some expstart) none none none [] = _ ∧ _
    rw [Table.addEntry, if_neg (by decide), Table.append, bind_of_eq hrefused]
    simp only [hadd, ret_bind]
    rw [Db.enter_eq (by decide) hhash, lift_some, ret_bind, Table.make, dif_pos (by decide)]
    exact ⟨_, rfl, rfl⟩
  obtain ⟨t, hcall, htext⟩ := hcall
  refine ⟨t, hcall, htext, ?_⟩
  rintro ⟨t', log, hcall', -⟩
  rw [hcall] at hcall'
  cases hcall'

end Ndhs.Kwdb
