import Ndhs.Kwdb.Edit
import Ndhs.Lib.Run

/-!
# A database is a list of entries

A program opens any number of databases and calls `kwdb_AddEntry`, `kwdb_SetValue`, `kwdb_SetComment`,
`kwdb_SetType`, `kwdb_CopyEntry` and `kwdb_DeleteEntry` on them. `Shows db L` says that the database shows the list
`L` to its callers.

`kwdb_CopyEntry` hands pointers into the string buffer of `o_kwdb` to `kwdb_AddEntry`. If the databases are the same
and the buffer has to grow for the copy, these pointers are read after `realloc` has released the block, although
the comment says that the databases can be the same. `shows_iff`: the databases show their lists in
every state of a run if and only if there is no such call in it.
-/

namespace Ndhs.Kwdb

open Text Buffer Linked Function Machine

variable {heap : Nat → Bool} {db : Db} {L : List Entry} {T : Nat → List Nat}
  {txt : Nat × Option Db.Field → Str} {h : Nat} {e : Entry}

/-- The characters are ASCII characters. -/
def IsAscii (s : Str) : Prop := ∀ c ∈ s, c.toNat < 128

instance (s : Str) : Decidable (IsAscii s) := inferInstanceAs (Decidable (∀ c ∈ s, c.toNat < 128))

/-- The hash value of an ASCII name is an index into the hash table. -/
theorem IsAscii.hash_nonneg {s : Str} (hs : IsAscii s) : 0 ≤ hash s :=
  hash_nonneg_of_head fun c hc => hs c (List.mem_of_mem_head? hc)

/-! ## The order in a thread -/

/-- The entries of a thread, the most recent first. -/
def recent (L : List Entry) (h : Nat) : List Nat :=
  ((L.filter fun e => e.name ≠ [] ∧ hash e.name = h).map Entry.ep).reverse

theorem pushThread_recent (L : List Entry) (e : Entry) :
    pushThread (recent L) e.name e.ep = recent (L ++ [e]) := by
  funext h
  unfold pushThread recent
  by_cases hc : e.name ≠ [] ∧ hash e.name = h
  · simp [hc, List.filter_append]
  · simp [hc, List.filter_append]

theorem recent_erase (hnd : (L.map Entry.ep).Nodup) (x : Nat) :
    (fun h => (recent L h).erase x) = recent (L.filter fun e => e.ep ≠ x) := by
  funext h
  have hsub : ((L.filter fun e => e.name ≠ [] ∧ hash e.name = h).map Entry.ep).Nodup :=
    hnd.sublist (List.filter_sublist.map _)
  rw [recent, recent, (List.nodup_reverse.mpr hsub).erase_eq_filter, List.filter_reverse, List.filter_map,
    List.filter_filter, List.filter_filter]
  refine congrArg (fun l => (List.map Entry.ep l).reverse) (List.filter_congr fun e _ => ?_)
  by_cases hx : e.ep = x <;> simp [hx]

theorem recent_setAt (x : Nat) (f : Db.Field) (s : Str) : recent (setAt L x f s) = recent L := by
  funext h
  have hep : ∀ e : Entry, (if e.ep = x then e.setText s f else e).ep = e.ep := fun e => by split <;> simp
  have hname : ∀ e : Entry, (if e.ep = x then e.setText s f else e).name = e.name := fun e => by
    split <;> simp
  simp only [recent, setAt, List.filter_map, List.map_map, comp_def, hep, hname]

/-- The entries for a keyword in its thread. -/
theorem filter_recent {k : Str} (hk : hash k = h) (ht : ∀ e ∈ L, txt (e.ep, none) = e.name) :
    ((recent L h).filter fun x => streq (txt (x, none)) k) = instances L k := by
  rw [recent, instances, List.filter_reverse, List.filter_map, List.filter_filter]
  refine congrArg (fun l => (List.map Entry.ep l).reverse) (List.filter_congr fun e he => ?_)
  simp only [comp_apply, ht e he, Entry.isNamed]
  by_cases hs : streq e.name k = true
  · by_cases h0 : e.name = []
    · simp [h0]
    · simp [hs, h0, hash_streq hs, hk]
  · simp [hs]

/-! ## What a database shows -/

/-- The database shows the list `L`. -/
structure Shows (db : Db) (L : List Entry) : Prop where
  nodup : (L.map Entry.ep).Nodup
  walk : db.walk = some (L.map Entry.ep)
  len : db.len = L.length
  lookup : ∀ k, IsAscii k → ∀ i, db.lookup k i = some (find L k i)
  value : ∀ k, IsAscii k → db.getValue k = some (findText L .value k)
  comment : ∀ k, IsAscii k → db.getComment k = some (findText L .comment k)
  type : ∀ k, IsAscii k → db.getType k = some (findText L .type k)

/-- The invariant: the list is represented, with the threads in the order of the entries. -/
structure Inv (db : Db) (L : List Entry) : Prop where
  rep : ∃ txt, Rep db L (recent L) txt
  storable : ∀ e ∈ L, ∀ f, Storable (e.textAt f)

theorem find_zero (L : List Entry) (k : Str) :
    find L k 0 = ((L.filter (Entry.isNamed k)).getLast?.map Entry.ep).getD 0 := by
  rw [find, instances, List.getD_eq_getElem?_getD, ← List.head?_eq_getElem?, List.head?_reverse,
    List.getLast?_map]

theorem Rep.find_eq (hr : Rep db L (recent L) txt) {k : Str} (hk : IsAscii k) (i : Nat) :
    db.lookup k i = some (find L k i) := by
  obtain ⟨h, hh⟩ : ∃ h : Nat, hash k = h := ⟨_, (Int.toNat_of_nonneg hk.hash_nonneg).symm⟩
  rw [hr.lookup hh i, filter_recent hh fun e he => hr.texts.text e he none]
  rfl

theorem find_live (L : List Entry) (k : Str) : find L k 0 = 0 ∨ find L k 0 ∈ L.map Entry.ep := by
  rw [find_zero]
  cases hl : (L.filter (Entry.isNamed k)).getLast? with
  | none => exact .inl rfl
  | some e =>
    have he := List.mem_of_mem_filter (List.mem_of_getLast? hl)
    exact .inr (List.mem_map_of_mem he)

theorem Rep.getField_eq (hr : Rep db L (recent L) txt) {k : Str} (hk : IsAscii k) (f : Db.Field) :
    db.getField f k = some (findText L f k) := by
  rw [Db.getField, hr.find_eq hk, Option.map_some, find_zero, findText]
  cases hl : (L.filter (Entry.isNamed k)).getLast? with
  | none => rfl
  | some e =>
    have he := List.mem_of_mem_filter (List.mem_of_getLast? hl)
    have hstr : db.sbuf.str ((db.itab e.ep).off f) = e.text f := hr.texts.str he (some f)
    simp [hr.lists.ep_ne_zero he, hstr]

theorem Inv.shows (hi : Inv db L) : Shows db L := by
  obtain ⟨txt, hr⟩ := hi.rep
  exact ⟨hr.lists.nodup, hr.lists.walk, hr.lists.count, fun k hk i => hr.find_eq hk i,
    fun k hk => hr.getField_eq hk .value, fun k hk => hr.getField_eq hk .comment,
    fun k hk => hr.getField_eq hk .type⟩

/-! ## The calls -/

theorem Inv.openDb {size : Nat} {name : CStr} (h : Db.openDb heap size name = some db) : Inv db [] :=
  ⟨⟨fun _ => [], Rep.openDb h⟩, by simp⟩

theorem Inv.addEntry (hheap : ∀ n, heap n = true) (hi : Inv db L) {a₀ a₁ a₂ a₃ : Arg}
    (hread : Reads heap db.sbuf a₀ a₁ a₂ a₃ e.name e.value e.type e.comment)
    (hs : ∀ f, Storable (e.textAt f)) (hh : 0 ≤ hash e.name) :
    ∃ db', db.addEntry heap a₀ a₁ a₂ a₃ = some (db', (db.itemsused : Int)) ∧
      Inv db' (L ++ [{ e with ep := db.itemsused }]) := by
  obtain ⟨txt, hr⟩ := hi.rep
  obtain ⟨db', hadd, -, hr'⟩ := hr.addEntry hheap hread (hs none) (hs (some .value)) (hs (some .type))
    (hs (some .comment)) fun _ => hh
  have hT := pushThread_recent L { e with ep := db.itemsused }
  refine ⟨db', hadd, ⟨newText txt db.itemsused e.name e.value e.type e.comment, hT ▸ hr'⟩, fun e' he' f => ?_⟩
  rcases List.mem_append.mp he' with he' | he'
  · exact hi.storable e' he' f
  · rw [List.mem_singleton.mp he']
    have := hs f
    rcases f with _ | _ | _ | _ <;> exact this

theorem Inv.deleteEntry (hi : Inv db L) (he : e ∈ L) :
    ∃ db', db.deleteEntry e.ep = some (db', 0) ∧ Inv db' (L.filter fun e' => e'.ep ≠ e.ep) := by
  obtain ⟨txt, hr⟩ := hi.rep
  obtain ⟨db', hdel, hr'⟩ := hr.deleteEntry he
  refine ⟨db', hdel, ⟨txt, ?_⟩, fun e' he' => hi.storable e' (List.mem_of_mem_filter he')⟩
  rwa [recent_erase hr.lists.nodup] at hr'

theorem Inv.setField (hheap : ∀ n, heap n = true) (hi : Inv db L) (f : Db.Field) {k s : Str} (hk : IsAscii k)
    (hs : Storable s) :
    ∃ db' r, db.setField heap f k s = some (db', r) ∧ Inv db' (setAt L (find L k 0) f s) := by
  obtain ⟨txt, hr⟩ := hi.rep
  obtain ⟨db', r, hset, hr'⟩ := hr.setField hheap f (hr.find_eq hk 0) (find_live L k) hs.noNull hs.short
  refine ⟨db', r, hset, ⟨_, by rwa [recent_setAt]⟩, fun e' he' f' => ?_⟩
  obtain ⟨e, he, rfl⟩ := List.mem_map.mp he'
  split
  · rw [Entry.setText_textAt]
    split
    · exact hs
    · exact hi.storable e he f'
  · exact hi.storable e he f'

/-- The copy of an entry, under the new name if there is one. -/
def Entry.copy (e : Entry) (newname : Option CStr) : Entry :=
  { e with name := if textOf newname = [] then e.name else textOf newname }

/-- The bytes of the texts that are copied. -/
def Entry.size (e : Entry) : Nat :=
  Sbuf.size e.name + (Sbuf.size e.value + (Sbuf.size e.type + Sbuf.size e.comment))

theorem Entry.storable_copy {newname : Option CStr} (hs : ∀ f, Storable (e.textAt f))
    (hn : (textOf newname).length < defSzsbuf) (f : Option Db.Field) : Storable ((e.copy newname).textAt f) := by
  rcases f with _ | f
  · change Storable (if textOf newname = [] then e.name else textOf newname)
    split
    · exact hs none
    · exact ⟨noNull_textOf newname, hn⟩
  · exact hs (some f)

theorem Db.copyEntry_eq (o_db : Db) (same : Bool) (ep : Nat) (newname : Option CStr) :
    db.copyEntry heap o_db same ep newname = db.addEntry heap
      (if textOf newname = [] then Db.copyArg o_db same (o_db.offAt (ep, none)) else .text (textOf newname))
      (Db.copyArg o_db same (o_db.offAt (ep, some .value)))
      (Db.copyArg o_db same (o_db.offAt (ep, some .type)))
      (Db.copyArg o_db same (o_db.offAt (ep, some .comment))) := by
  cases newname <;> rfl

section Copy

variable {o_db : Db} {o_L : List Entry} {newname : Option CStr}

theorem Inv.hash_copy (ho : Inv o_db o_L) (he : e ∈ o_L) (hn : IsAscii (textOf newname)) :
    0 ≤ hash (e.copy newname).name := by
  obtain ⟨txt, hr⟩ := ho.rep
  unfold Entry.copy
  dsimp only
  split
  · by_cases h0 : e.name = []
    · rw [h0]
      exact le_rfl
    · exact hr.lists.hashed e he h0
  · exact hn.hash_nonneg

/-- A copy from another database has strings of the caller. -/
theorem Inv.copyEntry_other (hheap : ∀ n, heap n = true) (hi : Inv db L) (ho : Inv o_db o_L) (he : e ∈ o_L)
    (hn : IsAscii (textOf newname)) (hshort : (textOf newname).length < defSzsbuf) :
    ∃ db', db.copyEntry heap o_db false e.ep newname = some (db', (db.itemsused : Int)) ∧
      Inv db' (L ++ [{ e.copy newname with ep := db.itemsused }]) := by
  obtain ⟨txt, hr⟩ := hi.rep
  obtain ⟨o_txt, hro⟩ := ho.rep
  have hs := Entry.storable_copy (ho.storable e he) hshort
  have htext : ∀ f sb, Sbuf.read sb (Db.copyArg o_db false (o_db.offAt (e.ep, f))) = some (e.textAt f) := by
    intro f sb
    rw [Db.copyArg, if_neg (by simp), hro.texts.str he f]
    rfl
  have hname : ∀ sb, Sbuf.read sb (if textOf newname = [] then Db.copyArg o_db false (o_db.offAt (e.ep, none))
      else .text (textOf newname)) = some (e.copy newname).name := by
    intro sb
    unfold Entry.copy
    dsimp only
    split
    · exact htext none sb
    · rfl
  have hread := reads_text hheap hr.texts.used hname (htext (some .value)) (htext (some .type))
    (htext (some .comment)) (hs none) (hs (some .value)) (hs (some .type)) (hs (some .comment))
  rw [Db.copyEntry_eq]
  exact hi.addEntry hheap hread hs (ho.hash_copy he hn)

/-- The arguments of a copy in one database: pointers to the texts of the entry, or the new name. -/
theorem Inv.copyArgs (newname : Option CStr) (hr : Rep db L T txt) (he : e ∈ L) :
    (if textOf newname = [] then Db.copyArg db true (db.offAt (e.ep, none)) else .text (textOf newname)).Stable
      db.sbuf (e.copy newname).name ∧
    ∀ f, (Db.copyArg db true (db.offAt (e.ep, f))).Stable db.sbuf (e.textAt f) := by
  have htext : ∀ f, (Db.copyArg db true (db.offAt (e.ep, f))).Stable db.sbuf (e.textAt f) := by
    intro f
    rw [Db.copyArg, if_pos rfl]
    exact hr.texts.stable he f
  refine ⟨?_, htext⟩
  unfold Entry.copy
  dsimp only
  split
  · exact htext none
  · exact Arg.stable_text _ _

/-- A copy in one database, with room for the texts. -/
theorem Inv.copyEntry_same (hheap : ∀ n, heap n = true) (hi : Inv db L) (he : e ∈ L)
    (hn : IsAscii (textOf newname)) (hshort : (textOf newname).length < defSzsbuf)
    (hroom : db.sbuf.HasRoom (e.copy newname).size) :
    ∃ db', db.copyEntry heap db true e.ep newname = some (db', (db.itemsused : Int)) ∧
      Inv db' (L ++ [{ e.copy newname with ep := db.itemsused }]) := by
  obtain ⟨txt, hr⟩ := hi.rep
  have hs := Entry.storable_copy (hi.storable e he) hshort
  obtain ⟨hname, htext⟩ := Inv.copyArgs newname hr he
  have hread := reads_stable hheap hname (htext (some .value)) (htext (some .type)) (htext (some .comment)) hroom
  rw [Db.copyEntry_eq]
  exact hi.addEntry hheap hread hs (hi.hash_copy he hn)

/-- A copy in one database, for which the string buffer grows. -/
theorem Inv.copyEntry_grow (hheap : ∀ n, heap n = true) (hi : Inv db L) (he : e ∈ L)
    (hshort : (textOf newname).length < defSzsbuf) (hroom : ¬ db.sbuf.HasRoom (e.copy newname).size) :
    db.copyEntry heap db true e.ep newname = none := by
  obtain ⟨txt, hr⟩ := hi.rep
  have hs := Entry.storable_copy (hi.storable e he) hshort
  obtain ⟨hname, htext⟩ := Inv.copyArgs newname hr he
  have hcase : (if textOf newname = [] then Db.copyArg db true (db.offAt (e.ep, none))
      else .text (textOf newname)) = .text (e.copy newname).name ∨
      ∃ o₀, (if textOf newname = [] then Db.copyArg db true (db.offAt (e.ep, none))
        else .text (textOf newname)) = .ref db.sbuf.block o₀ := by
    unfold Entry.copy
    dsimp only
    split
    · exact .inr ⟨_, rfl⟩
    · exact .inl rfl
  rw [Db.copyEntry_eq]
  exact Db.addEntry_grow hheap hr.texts.used hcase hname (htext (some .value)) (htext (some .type))
    (htext (some .comment)) (hs none) hroom

end Copy

/-! ## Runs -/

/-- The open databases, with the lists that they are to show. -/
abbrev State := (Nat → Db) × (Nat → List Entry)

/-- One call. -/
def step (heap : Nat → Bool) (s : State) (op : Op) : Option State :=
  (op.exec heap s.1).map fun (w, r) => (w, op.next s.2 r)

/-- The calls that a program may make: with ASCII keywords and strings shorter than `DEF_SZSBUF`, and for an
entry pointer only that of an entry. -/
def Call.Legal (L : List Entry) : Call → Prop
  | .add keyword value type comment =>
    IsAscii (textOf keyword) ∧
      ∀ s ∈ [textOf keyword, textOf value, textOf type, textOf comment], s.length < defSzsbuf
  | .set _ keyword text => IsAscii keyword.text ∧ text.text.length < defSzsbuf
  | .delete ep => ep ∈ L.map Entry.ep
  | .rename _ _ => False

def Op.Legal (s : State) : Op → Prop
  | .call d c => c.Legal (s.2 d)
  | .copy _ o ep newname =>
    ep ∈ (s.2 o).map Entry.ep ∧ IsAscii (textOf newname) ∧ (textOf newname).length < defSzsbuf

/-- A copy in one database does not make the string buffer grow. -/
def Op.KeepsBlock (s : State) : Op → Prop
  | .call _ _ => True
  | .copy d o ep newname =>
    d = o → ∀ e ∈ s.2 o, e.ep = ep → (s.1 d).sbuf.HasRoom (e.copy newname).size

instance (L : List Entry) (c : Call) : Decidable (c.Legal L) :=
  match c with
  | .add .. => inferInstanceAs (Decidable (_ ∧ _))
  | .set .. => inferInstanceAs (Decidable (_ ∧ _))
  | .delete ep => inferInstanceAs (Decidable (ep ∈ _))
  | .rename .. => .isFalse id

instance (s : State) (op : Op) : Decidable (op.Legal s) :=
  match op with
  | .call d c => inferInstanceAs (Decidable (c.Legal (s.2 d)))
  | .copy .. => inferInstanceAs (Decidable (_ ∧ _))

instance (s : State) (op : Op) : Decidable (op.KeepsBlock s) :=
  match op with
  | .call .. => .isTrue trivial
  | .copy d o ep _ => inferInstanceAs (Decidable (d = o → ∀ e ∈ s.2 o, e.ep = ep → _))

/-- Every database represents its list. -/
def State.Inv (s : State) : Prop := ∀ d, Kwdb.Inv (s.1 d) (s.2 d)

theorem State.Inv.update {s : State} (hi : s.Inv) (d : Nat) (h : Kwdb.Inv db L) :
    State.Inv (update s.1 d db, update s.2 d L) := by
  intro d'
  by_cases hd : d' = d
  · subst hd
    simpa using h
  · simpa [update_of_ne hd] using hi d'

/-- A call on one database keeps its invariant. -/
theorem Inv.call (hheap : ∀ n, heap n = true) (hi : Inv db L) {c : Call} (hl : c.Legal L) :
    ∃ db' r, db.call heap c = some (db', r) ∧ Inv db' (c.next L r) := by
  cases c with
  | add keyword value type comment =>
    obtain ⟨txt, hr⟩ := hi.rep
    let e : Entry := ⟨0, textOf keyword, textOf value, textOf type, textOf comment⟩
    have hs : ∀ f, Storable (e.textAt f) := by
      rintro (_ | _ | _ | _) <;> exact ⟨noNull_textOf _, hl.2 _ (by simp [e, Entry.textAt, Entry.text])⟩
    have hread := reads_text hheap hr.texts.used (read_ofOption keyword) (read_ofOption value) (read_ofOption type)
      (read_ofOption comment) (hs none) (hs (some .value)) (hs (some .type)) (hs (some .comment))
    obtain ⟨db', hadd, hi'⟩ := hi.addEntry (e := e) hheap hread hs hl.1.hash_nonneg
    exact ⟨db', _, hadd, hi'⟩
  | set f keyword text => exact hi.setField hheap f hl.1 ⟨text.noNull, hl.2⟩
  | delete ep =>
    obtain ⟨e, he, rfl⟩ := List.mem_map.mp hl
    obtain ⟨db', hdel, hi'⟩ := hi.deleteEntry he
    exact ⟨db', 0, hdel, hi'⟩
  | rename => exact hl.elim

/-- The entry that is copied. -/
theorem Inv.find? (hi : Inv db L) (he : e ∈ L) : L.find? (·.ep = e.ep) = some e := by
  obtain ⟨txt, hr⟩ := hi.rep
  cases hf : L.find? (·.ep = e.ep) with
  | none =>
    have := List.find?_eq_none.mp hf e he
    simp at this
  | some e' =>
    have hep := List.find?_some hf
    rw [hr.lists.ep_inj (List.mem_of_find?_eq_some hf) he (by simpa using hep)]

theorem copyEntry_inv {db' : Db} {o_L : List Entry} {newname : Option CStr} {n : Nat}
    (hf : o_L.find? (·.ep = e.ep) = some e) {s : State} (hi : s.Inv) {d o : Nat} (ho : s.2 o = o_L)
    (h : Kwdb.Inv db' (s.2 d ++ [{ e.copy newname with ep := n }])) :
    State.Inv (update s.1 d db', (Op.copy d o e.ep newname).next s.2 n) := by
  rw [Op.next, ho, hf]
  exact hi.update d h

/-- A legal call after which the pointers are still valid keeps the invariant. -/
theorem step_inv (hheap : ∀ n, heap n = true) {s : State} {op : Op} (hi : s.Inv) (hl : op.Legal s)
    (hk : op.KeepsBlock s) : ∃ t, step heap s op = some t ∧ t.Inv := by
  cases op with
  | call d c =>
    obtain ⟨db', r, hcall, hi'⟩ := (hi d).call hheap hl
    refine ⟨_, ?_, hi.update d hi'⟩
    rw [step, Op.exec, hcall]
    rfl
  | copy d o ep newname =>
    obtain ⟨hlive, hascii, hshort⟩ := hl
    obtain ⟨e, he, rfl⟩ := List.mem_map.mp hlive
    have hf := (hi o).find? he
    by_cases hd : d = o
    · subst hd
      obtain ⟨db', hcopy, hi'⟩ := (hi d).copyEntry_same hheap he hascii hshort (hk rfl e he rfl)
      refine ⟨_, ?_, copyEntry_inv hf hi rfl hi'⟩
      rw [step, Op.exec, decide_eq_true rfl, hcopy]
      rfl
    · obtain ⟨db', hcopy, hi'⟩ := (hi d).copyEntry_other hheap (hi o) he hascii hshort
      refine ⟨_, ?_, copyEntry_inv hf hi rfl hi'⟩
      rw [step, Op.exec, decide_eq_false hd, hcopy]
      rfl

/-- A copy that makes the string buffer grow under its own pointers has no result. -/
theorem step_grow (hheap : ∀ n, heap n = true) {s : State} {op : Op} (hi : s.Inv) (hl : op.Legal s)
    (hk : ¬ op.KeepsBlock s) : step heap s op = none := by
  cases op with
  | call d c => exact absurd trivial hk
  | copy d o ep newname =>
    simp only [Op.KeepsBlock, not_forall] at hk
    obtain ⟨rfl, e, he, rfl, hroom⟩ := hk
    rw [step, Op.exec, decide_eq_true rfl, (hi d).copyEntry_grow hheap he hl.2.2 hroom]
    rfl

/-- The databases show their lists in every state of a run exactly if no copy in one database makes its string
buffer grow. -/
theorem shows_iff (hheap : ∀ n, heap n = true) (size : Nat) (names : Nat → CStr) {w : Nat → Db}
    (hopen : ∀ d, Db.openDb heap size (names d) = some (w d)) {ops : List Op}
    (hlegal : Steps (fun s op => Op.Legal s op) (step heap) (w, fun _ => []) ops) :
    Always (fun s : State => ∀ d, Shows (s.1 d) (s.2 d)) (step heap) (w, fun _ => []) ops ↔
      Steps (fun s op => Op.KeepsBlock s op) (step heap) (w, fun _ => []) ops := by
  refine always_iff_steps_of_legal (I := State.Inv) (fun s hi d => (hi d).shows)
    (fun s op => step_inv hheap) (fun s op t hi hl hk hst => ?_) (fun d => Inv.openDb (hopen d)) hlegal
  rw [step_grow hheap hi hl hk] at hst
  cases hst

/-- An entry is added, and copied in the same database. -/
def addCopy : List Op :=
  [.call 0 (.add (some ⟨['A'], by decide⟩) (some ⟨['1'], by decide⟩) none none), .copy 0 0 1 none]

/-- The run with a short database name. -/
theorem shows_addCopy :
    Always (fun s : State => ∀ d, Shows (s.1 d) (s.2 d)) (step fun _ => true)
      (fun _ => Db.empty ['d'], fun _ => []) addCopy :=
  (shows_iff (fun _ => rfl) 3300 (fun _ => ⟨['d'], by decide⟩) (fun _ => rfl) (by decide +kernel)).mpr
    (by decide +kernel)

/-- A database with a name that leaves eight bytes of the string buffer. -/
def longName : CStr where
  text := List.replicate 1023990 'x'
  noNull h := absurd (List.eq_of_mem_replicate h) (by decide)

theorem longName_length : longName.text.length = 1023990 := List.length_replicate

/-- The copy needs four bytes when four are left, so the string buffer grows, and there is no state after the
copy. -/
theorem copy_not_shows :
    ∃ w : Nat → Db, (∀ d, Db.openDb (fun _ => true) 3300 longName = some (w d)) ∧
      Steps (fun s op => Op.Legal s op) (step fun _ => true) (w, fun _ => []) addCopy ∧
      ¬ Always (fun s : State => ∀ d, Shows (s.1 d) (s.2 d)) (step fun _ => true) (w, fun _ => []) addCopy := by
  have hopen : Db.openDb (fun _ => true) 3300 longName = some (Db.empty longName.text) := by
    rw [Db.openDb, if_pos ⟨rfl, rfl, rfl, by rw [longName_length]; decide⟩]
  have hinv := Inv.openDb hopen
  obtain ⟨txt, hr⟩ := hinv.rep
  -- the state after the first call
  let e : Entry := ⟨1, ['A'], ['1'], [], []⟩
  obtain ⟨db, hadd, hsb, hr'⟩ := hr.add (fun _ => rfl) (some ⟨['A'], by decide⟩) (some ⟨['1'], by decide⟩)
    none none (by decide) (by decide)
  have hi : Inv db [e] := by
    refine ⟨⟨_, pushThread_recent [] e ▸ hr'⟩, fun e' he' f => List.mem_singleton.mp he' ▸ ?_⟩
    rcases f with _ | _ | _ | _ <;> exact ⟨by decide, by decide⟩
  have hstep : step (fun _ => true) (fun _ => Db.empty longName.text, fun _ => [])
      (.call 0 (.add (some ⟨['A'], by decide⟩) (some ⟨['1'], by decide⟩) none none)) =
      some (update (fun _ => Db.empty longName.text) 0 db, update (fun _ => []) 0 [e]) := by
    rw [step, Op.exec, hadd]
    rfl
  have hroom : ¬ db.sbuf.HasRoom (e.copy none).size := by
    rw [hsb]
    simp [Sbuf.HasRoom, Sbuf.add, Sbuf.size, Entry.size, Entry.copy, textOf, Db.empty, defSzsbuf,
      longName_length, e]
  have hgrow := hi.copyEntry_grow (fun _ => rfl) (List.mem_singleton_self e) (by decide) hroom
  refine ⟨fun _ => Db.empty longName.text, fun _ => hopen, ⟨by decide, fun t ht => ?_⟩, ?_⟩
  · rw [hstep] at ht
    cases ht
    exact ⟨⟨List.mem_singleton_self 1, by decide, by decide⟩, fun _ _ => trivial⟩
  · rintro ⟨-, t, ht, -, u, hu, -⟩
    rw [hstep] at ht
    cases ht
    have hnone : (Op.copy 0 0 1 none).exec (fun _ => true) (update (fun _ => Db.empty longName.text) 0 db) =
        none := by
      rw [Op.exec, update_self, decide_eq_true rfl, hgrow]
      rfl
    rw [step, hnone] at hu
    cases hu

end Ndhs.Kwdb
