import Mathlib.Data.Finset.Card
import Ndhs.Dca.Pixels
import Ndhs.Pxf.MetaData

/-!
# Keywords from a page to the keyword databases (`DCA_WriteHeaderData`)

The DCA unpacks the keywords of a `WriteHeaderData` message and appends them to the keyword database of the readout with
the name of the message. A database of that name is opened if there is none, up to `MAX_KWDB - 1` of them.

* `Feed`: the server, and the databases of each readout.
* `Groups kwdbs E`: the databases have different names, and the one with the name `g` holds the entries `E g`; there
  are no entries for a name without a database. `Feed.step_groups` is a step: the keywords of the message are appended
  to `E g`.
* `header_transfer`: the keywords of a page are appended to the database of its name, in their order, while the messages
  of other pages come in between.
-/

namespace Ndhs.Kwdb

open Text Buffer

/-- `kwdb_Name` -/
def Db.name (db : Db) : Str := db.sbuf.str 1

/-- The name stands in front of all other strings. -/
structure Sbuf.Named (sb : Sbuf) (name : Str) : Prop where
  holds : Holds sb.chars 1 name
  noNull : '\x00' ∉ name
  used : 1 + name.length < sb.used
  len : sb.used ≤ sb.len

section Name

variable {heap : Nat → Bool} {sb sb' : Sbuf} {name : Str} {off : Nat} {db db' : Db}

theorem Sbuf.Named.str (h : sb.Named name) : sb.str 1 = name := h.holds.strAt h.noNull (h.used.trans_le h.len)

theorem Sbuf.Named.append {s : Str} (h : sb.Named name) (ha : sb.append s = some (sb', off)) : sb'.Named name := by
  have hused := h.used
  rw [Sbuf.append] at ha
  split at ha
  case isTrue hroom =>
    obtain ⟨rfl, -⟩ := Prod.mk.inj (Option.some.inj ha)
    refine ⟨h.holds.congr fun j _ hj => strcpy_of_not_mem (.inl (by omega)), h.noNull, ?_, hroom⟩
    show 1 + name.length < sb.used + (s.length + 1)
    omega
  case isFalse => cases ha

theorem Sbuf.Named.addstr {text : Arg} (h : sb.Named name) (ha : sb.addstr heap text = some (sb', off)) :
    sb'.Named name := by
  rw [Sbuf.addstr] at ha
  obtain ⟨s, -, ha⟩ := Option.bind_eq_some_iff.mp ha
  split at ha
  · obtain ⟨rfl, -⟩ := Prod.mk.inj (Option.some.inj ha)
    exact h
  split at ha
  · split at ha
    · obtain ⟨s', -, ha⟩ := Option.bind_eq_some_iff.mp ha
      have hr : sb.realloc.Named name := ⟨h.holds, h.noNull, h.used, h.len.trans (Nat.le_add_right _ _)⟩
      exact hr.append ha
    · obtain ⟨rfl, -⟩ := Prod.mk.inj (Option.some.inj ha)
      exact h
  · exact h.append ha

theorem Db.link_sbuf (db : Db) (i : Nat) : (db.link i).sbuf = db.sbuf := by
  unfold Db.link Db.setNextglob
  dsimp only
  split <;> rfl

theorem Db.enter_sbuf {i : Nat} {keyword : Str} (h : db.enter i keyword = some db') : db'.sbuf = db.sbuf := by
  unfold Db.enter at h
  split at h
  · rw [Option.some.inj h]
  · obtain ⟨hashval, -, rfl⟩ := Option.map_eq_some_iff.mp h
    dsimp only
    split <;> rfl

/-- A new entry leaves the name alone. -/
theorem Sbuf.Named.addEntry {a₀ a₁ a₂ a₃ : Arg} {r : Int} (h : db.sbuf.Named name)
    (ha : db.addEntry heap a₀ a₁ a₂ a₃ = some (db', r)) : db'.sbuf.Named name := by
  unfold Db.addEntry at ha
  dsimp only at ha
  generalize (if db.maxitems ≤ db.itemsused then db.maxitems + defNkeywords else db.maxitems) = maxitems at ha
  split at ha
  · obtain ⟨rfl, -⟩ := Prod.mk.inj (Option.some.inj ha)
    exact h
  · simp only [Option.bind_eq_bind, Option.bind_eq_some_iff, Prod.exists] at ha
    obtain ⟨sb₀, _, h₀, sb₁, _, h₁, _, -, sb₂, _, h₂, _, -, sb₃, _, h₃, _, -, _, -, db₁, he, ha⟩ := ha
    obtain ⟨rfl, -⟩ := Prod.mk.inj (Option.some.inj ha)
    show db₁.sbuf.Named name
    rw [Db.enter_sbuf he, Db.link_sbuf]
    exact (((h.addstr h₀).addstr h₁).addstr h₂).addstr h₃

theorem Sbuf.Named.openDb {size : Nat} {kwdbname : CStr} (h : Db.openDb heap size kwdbname = some db) :
    db.sbuf.Named kwdbname.text := by
  unfold Db.openDb at h
  split at h
  case isTrue hm =>
    obtain rfl := Option.some.inj h
    exact ⟨holds_strcpy _ 1 _, kwdbname.noNull, by simp [Db.empty]; omega, hm.2.2.2⟩
  case isFalse => cases h

end Name

end Ndhs.Kwdb

namespace Ndhs.Mosdca

open Text Function Machine Kwdb Pxf

/-! ## The handler -/

/-- The server, and the keyword databases of its readouts. -/
structure Feed where
  server : Server
  kwdbs : Slot → List Db

/-- Unpack the keyword data. -/
def unpackKeywords : Nat → List Packed → Option (List Keyword × List Packed)
  | 0, p => some ([], p)
  | n + 1, p =>
    (Packed.upkstr p).bind fun (keyword, p) => (Packed.upkstr p).bind fun (value, p) =>
      (Packed.upkstr p).bind fun (type, p) => (Packed.upkstr p).bind fun (comment, p) =>
        (unpackKeywords n p).map fun (kwl, p) => (⟨keyword, value, type, comment⟩ :: kwl, p)

/-- `GetKWDB`: the databases, and the number of the one with the name. -/
def getKWDB (heap : Nat → Bool) (size : Nat) (kwdbs : List Db) (kwgroup : CStr) : Option (List Db × Nat) :=
  match kwdbs.findIdx? fun db => db.name == kwgroup.text with
  | some k => some (kwdbs, k)
  | none =>
    if maxKwdb ≤ kwdbs.length + 1 then none
    else (Db.openDb heap size kwgroup).map fun db => (kwdbs ++ [db], kwdbs.length)

/-- Append the keywords to a database, from number `n` on: also the number of one that is refused. -/
def addLoop (heap : Nat → Bool) : Nat → List Keyword → Db → Option (Db × Option Nat)
  | _, [], db => some (db, none)
  | n, kw :: kwl, db =>
    (db.addEntry heap (.text kw.keyword) (.text kw.value) (.text kw.type) (.text kw.comment)).bind fun (db, r) =>
      if r < 0 then some (db, some n) else addLoop heap (n + 1) kwl db

/-- A string that was unpacked to a buffer. -/
def cstr (s : Str) : CStr := ⟨upToNull s, noNull_upToNull s⟩

/-- The bytes of the strings of a message; `pvm_bufinfo` gives at least this length. -/
def bufLen (p : List Packed) : Nat :=
  (p.map fun
    | .str s => s.length + 1
    | _ => 4).sum

namespace Feed

/-- `WriteHeaderData` for the readout in entry `i`. -/
def writeHeaderData (heap : Nat → Bool) (size : Nat) (f : Feed) (i : Slot) (seqno : Int) (kwgroup : Str)
    (kwl : List Keyword) : Option Feed :=
  let done (refused : Option Nat) (opened : Bool) : Server :=
    f.server.handleWriteHeaderData seqno kwgroup kwl ⟨true, true, opened, refused⟩
  match getKWDB heap size (f.kwdbs i) (cstr kwgroup) with
  | none => some { f with server := done none false }
  | some (kwdbs, k) =>
    kwdbs[k]?.bind fun db =>
      (addLoop heap 0 kwl db).map fun (db, refused) =>
        ⟨done refused true, update f.kwdbs i (kwdbs.set k db)⟩

/-- `DCA_WriteHeaderData` -/
def step (heap : Nat → Bool) (size : Nat) (f : Feed) (p : List Packed) : Option Feed :=
  (Packed.upkint p).bind fun (seqno, p') => (Packed.upkstr p').bind fun (kwgroup, p') =>
    (Packed.upkint p').bind fun (nkeywords, p') =>
      match f.server.getContext seqno with
      | none => some f
      | some (i, _) =>
        -- memory for the strings and for the list of keywords
        if !heap (bufLen p) || !heap (nkeywords.toNat * 32) then
          some { f with server := f.server.handleWriteHeaderData seqno kwgroup [] ⟨false, false, false, none⟩ }
        else
          (unpackKeywords nkeywords.toNat p').bind fun (kwl, _) => f.writeHeaderData heap size i seqno kwgroup kwl

end Feed

/-! ## The databases of a readout -/

/-- The entry that a keyword makes -/
def Keyword.card (kw : Keyword) : Card := ⟨kw.keyword, kw.value, kw.type, kw.comment⟩

/-- The databases have different names, and the one with the name `g` holds the entries `E g`. -/
structure Groups (kwdbs : List Db) (E : Str → List Card) : Prop where
  named : ∀ db ∈ kwdbs, db.sbuf.Named db.name
  nodup : (kwdbs.map Db.name).Nodup
  cards : ∀ db ∈ kwdbs, db.HasCards (E db.name)
  absent : ∀ g, g ∉ kwdbs.map Db.name → E g = []

section Groups

variable {heap : Nat → Bool} {size k : Nat} {kwdbs kwdbs' : List Db} {E : Str → List Card} {db db' : Db} {g : CStr}
  {kwl : List Keyword} {E₀ : List Card}

theorem groups_nil : Groups [] fun _ => [] := ⟨by simp, by simp, by simp, fun _ _ => rfl⟩

/-- The entries that are found under a name -/
def entries (kwdbs : List Db) (g : Str) : Option (List Card) :=
  match kwdbs.find? fun db => db.name == g with
  | none => some []
  | some db => db.cards

theorem Groups.entries (h : Groups kwdbs E) (g : Str) : entries kwdbs g = some (E g) := by
  rw [Mosdca.entries]
  cases hf : kwdbs.find? fun db => db.name == g with
  | none =>
    refine congrArg some (h.absent g fun hm => ?_).symm
    obtain ⟨db, hdb, rfl⟩ := List.mem_map.mp hm
    have := List.find?_eq_none.mp hf db hdb
    simp at this
  | some db =>
    have hname : db.name = g := by simpa using List.find?_some hf
    rw [← hname]
    exact (h.cards db (List.mem_of_find?_eq_some hf)).cards

/-- A new database is empty. -/
theorem Groups.concat (h : Groups kwdbs E) (ho : Db.openDb heap size g = some db) (hg : g.text ∉ kwdbs.map Db.name) :
    Groups (kwdbs ++ [db]) E ∧ db.name = g.text := by
  have hn := Sbuf.Named.openDb ho
  have hname : db.name = g.text := hn.str
  refine ⟨⟨?_, ?_, ?_, ?_⟩, hname⟩
  · intro db' hdb'
    rcases List.mem_append.mp hdb' with hdb' | hdb'
    · exact h.named db' hdb'
    · obtain rfl := List.mem_singleton.mp hdb'
      rw [hname]
      exact hn
  · rw [List.map_append, List.nodup_append]
    refine ⟨h.nodup, by simp, fun a ha b hb => ?_⟩
    rintro rfl
    obtain rfl : a = g.text := by simpa [hname] using hb
    exact hg ha
  · intro db' hdb'
    rcases List.mem_append.mp hdb' with hdb' | hdb'
    · exact h.cards db' hdb'
    · obtain rfl := List.mem_singleton.mp hdb'
      rw [hname, h.absent g.text hg]
      exact Db.HasCards.openDb ho
  · intro g' hg'
    refine h.absent g' fun hm => hg' ?_
    rw [List.map_append]
    exact List.mem_append_left _ hm

variable (size) in
/-- `GetKWDB` finds the database of the name, or opens one. -/
theorem Groups.getKWDB (hheap : ∀ n, heap n = true) (h : Groups kwdbs E) (hg : g.text.length + 2 ≤ defSzsbuf)
    (hroom : g.text ∈ kwdbs.map Db.name ∨ kwdbs.length + 1 < maxKwdb) :
    ∃ kwdbs' k db, getKWDB heap size kwdbs g = some (kwdbs', k) ∧ kwdbs'[k]? = some db ∧ db.name = g.text ∧
      Groups kwdbs' E ∧ kwdbs'.map Db.name ⊆ g.text :: kwdbs.map Db.name := by
  rw [Mosdca.getKWDB]
  cases hf : kwdbs.findIdx? fun db => db.name == g.text with
  | some k =>
    obtain ⟨hk, hname, -⟩ := List.findIdx?_eq_some_iff_getElem.mp hf
    exact ⟨kwdbs, k, kwdbs[k], rfl, List.getElem?_eq_getElem hk, by simpa using hname, h,
      List.subset_cons_self _ _⟩
  | none =>
    have hnot : g.text ∉ kwdbs.map Db.name := by
      intro hm
      obtain ⟨db, hdb, hname⟩ := List.mem_map.mp hm
      have := List.findIdx?_eq_none_iff.mp hf db hdb
      simp [hname] at this
    have hlt := hroom.resolve_left hnot
    have ho : Db.openDb heap size g = some (.empty g.text) := by simp [Db.openDb, hheap, hg]
    obtain ⟨hG, hname⟩ := h.concat ho hnot
    refine ⟨kwdbs ++ [.empty g.text], kwdbs.length, .empty g.text, ?_, by simp, hname, hG, ?_⟩
    · simp only [ho, Option.map_some, if_neg (not_le.mpr hlt)]
    · intro a ha
      rw [List.map_append, List.mem_append, List.map_singleton, List.mem_singleton, hname] at ha
      exact List.mem_cons.mpr ha.symm

theorem addLoop_cards (hheap : ∀ n, heap n = true) (n : Nat) {name : Str} (h : db.HasCards E₀) (hn : db.sbuf.Named name)
    (hkwl : ∀ kw ∈ kwl, kw.card.IsStorable) :
    ∃ db', addLoop heap n kwl db = some (db', none) ∧ db'.HasCards (E₀ ++ kwl.map Keyword.card) ∧
      db'.sbuf.Named name := by
  induction kwl generalizing n db E₀ with
  | nil => exact ⟨db, rfl, by simpa using h, hn⟩
  | cons kw kwl ih =>
    obtain ⟨db₁, ep, hadd, hep, h₁⟩ := h.addEntry hheap (hkwl kw List.mem_cons_self)
    have hadd : db.addEntry heap (.text kw.keyword) (.text kw.value) (.text kw.type) (.text kw.comment) =
      some (db₁, ep) := hadd
    obtain ⟨db', hloop, h', hn'⟩ := ih (n + 1) h₁ (hn.addEntry hadd)
      fun kw' hkw' => hkwl kw' (List.mem_cons_of_mem kw hkw')
    refine ⟨db', ?_, by simpa using h', hn'⟩
    simp only [addLoop, hadd, Option.bind_some, if_neg (not_lt.mpr hep)]
    exact hloop

/-- One of the databases gets more entries. -/
theorem Groups.set (h : Groups kwdbs E) (hk : kwdbs[k]? = some db) (hname : db'.name = db.name)
    (hn : db'.sbuf.Named db'.name) {E' : List Card} (hc : db'.HasCards E') :
    Groups (kwdbs.set k db') (update E db.name E') ∧ (kwdbs.set k db').map Db.name = kwdbs.map Db.name := by
  obtain ⟨hlt, rfl⟩ := List.getElem?_eq_some_iff.mp hk
  have hnames : (kwdbs.set k db').map Db.name = kwdbs.map Db.name := by
    rw [List.map_set, hname]
    refine List.ext_getElem (by simp) fun j hj hj' => ?_
    rw [List.getElem_set]
    split
    case isTrue hjk => simp [hjk]
    case isFalse => rfl
  -- the other databases have other names
  have hother : ∀ a ∈ kwdbs.set k db', a = db' ∨ (a ∈ kwdbs ∧ a.name ≠ kwdbs[k].name) := by
    intro a ha
    obtain ⟨j, hj, rfl⟩ := List.getElem_of_mem ha
    rw [List.length_set] at hj
    by_cases hjk : k = j
    · subst hjk
      exact .inl (by simp)
    · rw [List.getElem_set_of_ne hjk]
      refine .inr ⟨List.getElem_mem _, fun hne => hjk ?_⟩
      have hk' : k < (kwdbs.map Db.name).length := by simpa using hlt
      have hj' : j < (kwdbs.map Db.name).length := by simpa using hj
      have heq : (kwdbs.map Db.name)[k] = (kwdbs.map Db.name)[j] := by
        rw [List.getElem_map, List.getElem_map, hne]
      exact h.nodup.getElem_inj_iff.mp heq
  refine ⟨⟨?_, ?_, ?_, ?_⟩, hnames⟩
  · intro a ha
    rcases hother a ha with rfl | ⟨ha, -⟩
    · exact hn
    · exact h.named a ha
  · rw [hnames]
    exact h.nodup
  · intro a ha
    rcases hother a ha with rfl | ⟨ha, hne⟩
    · rw [hname, update_self]
      exact hc
    · rw [update_of_ne hne]
      exact h.cards a ha
  · intro g hg
    rw [hnames] at hg
    have hne : g ≠ kwdbs[k].name := by
      rintro rfl
      exact hg (List.mem_map_of_mem (List.getElem_mem _))
    rw [update_of_ne hne]
    exact h.absent g hg

end Groups

/-! ## A message -/

/-- The databases of every readout are in order. -/
def Feed.Good (f : Feed) : Prop := ∀ j, ∃ E, Groups (f.kwdbs j) E

/-- A message that can be entered: a group with a name that fits, and keywords that fit. -/
structure IsMeta (q : Int) (g : Str) (kwl : List Keyword) : Prop where
  noNull : '\x00' ∉ g
  short : g.length + 2 ≤ defSzsbuf
  storable : ∀ kw ∈ kwl, kw.card.IsStorable

section Step

variable {heap : Nat → Bool} {size : Nat} {f : Feed} {q : Int} {g : Str} {kwl : List Keyword} {i : Slot}
  {E : Str → List Card}

theorem unpackKeywords_pack (kwl : List Keyword) (p : List Packed) :
    unpackKeywords kwl.length (kwl.flatMap packKeyword ++ p) = some (kwl, p) := by
  induction kwl with
  | nil => rfl
  | cons kw kwl ih =>
    simp only [List.flatMap_cons, List.length_cons, unpackKeywords, packKeyword, List.cons_append, List.nil_append,
      Packed.upkstr_str, Option.bind_some, ih, Option.map_some]

theorem text_cstr (h : '\x00' ∉ g) : (cstr g).text = g := upToNull_eq h

/-- The message as the DCA reads it. -/
theorem Feed.step_packet (hheap : ∀ n, heap n = true) (f : Feed) (q : Int) (g : Str) (kwl : List Keyword) :
    f.step heap size (packet q g kwl) =
      match f.server.getContext q with
      | none => some f
      | some (i, _) => f.writeHeaderData heap size i q g kwl := by
  have hunpack := unpackKeywords_pack kwl []
  rw [List.append_nil] at hunpack
  simp only [step, packet, Packed.upkint_int, Packed.upkstr_str, Option.bind_some, hheap, Bool.not_true, Bool.or_self,
    Bool.false_eq_true, if_false, Int.toNat_natCast, hunpack]

variable (heap size) in
theorem getKWDB_full {kwdbs : List Db} {g : CStr} (hg : g.text ∉ kwdbs.map Db.name) (hfull : maxKwdb ≤ kwdbs.length + 1) :
    getKWDB heap size kwdbs g = none := by
  have hf : (kwdbs.findIdx? fun db => db.name == g.text) = none := by
    rw [List.findIdx?_eq_none_iff]
    intro db hdb
    rw [beq_eq_false_iff_ne]
    rintro hname
    exact hg (List.mem_map.mpr ⟨db, hdb, hname⟩)
  rw [getKWDB, hf]
  exact if_pos hfull

variable (size) in
/-- The keywords are appended to the group of their name. -/
theorem Feed.writeHeaderData_room (hheap : ∀ n, heap n = true) (hm : IsMeta q g kwl) (hE : Groups (f.kwdbs i) E)
    (hroom : g ∈ (f.kwdbs i).map Db.name ∨ (f.kwdbs i).length + 1 < maxKwdb) :
    ∃ s kwdbs, f.writeHeaderData heap size i q g kwl = some ⟨s, update f.kwdbs i kwdbs⟩ ∧ s.nums = f.server.nums ∧
      Groups kwdbs (update E g (E g ++ kwl.map Keyword.card)) ∧ kwdbs.map Db.name ⊆ g :: (f.kwdbs i).map Db.name := by
  have ht := text_cstr hm.noNull
  obtain ⟨kwdbs₁, k, db, hget, hk, hname, hG, hsub⟩ := hE.getKWDB size (g := cstr g) hheap
    (by rw [ht]; exact hm.short) (by rw [ht]; exact hroom)
  rw [ht] at hname hsub
  have hdb : db ∈ kwdbs₁ := List.mem_of_getElem? hk
  obtain ⟨db', hloop, hc, hn⟩ := addLoop_cards hheap 0 (hG.cards db hdb) (hG.named db hdb) hm.storable
  have hname' : db'.name = db.name := hn.str
  obtain ⟨hset, hnames⟩ := hG.set hk hname' (by rw [hname']; exact hn) hc
  refine ⟨f.server.handleWriteHeaderData q g kwl ⟨true, true, true, none⟩, kwdbs₁.set k db', ?_, ?_, ?_, ?_⟩
  · simp only [writeHeaderData, hget, hk, Option.bind_some, hloop, Option.map_some]
  · exact (Server.handleWriteHeaderData_same _ _ _ _ _).nums
  · rw [hname] at hset
    exact hset
  · rw [hnames]
    exact hsub

variable (heap size) in
theorem Feed.writeHeaderData_full (hm : IsMeta q g kwl) (hg : g ∉ (f.kwdbs i).map Db.name)
    (hfull : maxKwdb ≤ (f.kwdbs i).length + 1) :
    ∃ s, f.writeHeaderData heap size i q g kwl = some ⟨s, f.kwdbs⟩ ∧ s.nums = f.server.nums := by
  have hget := getKWDB_full heap size (g := cstr g) (by rw [text_cstr hm.noNull]; exact hg) hfull
  refine ⟨_, ?_, (Server.handleWriteHeaderData_same f.server q g kwl ⟨true, true, false, none⟩).nums⟩
  simp only [writeHeaderData, hget]

theorem Server.getContext_none {s : Server} (hq : q ≠ 0) (h : s.getContext q = none) (j : Slot) : s.nums j ≠ q := by
  rw [Server.getContext, if_neg hq, Option.map_eq_none_iff, Server.lookup] at h
  split at h
  · split at h
    · cases h
    · exact Server.first_eq_none.mp h j
  · exact Server.first_eq_none.mp h j

variable (size) in
/-- What a message does to the databases of the readouts -/
theorem Feed.step_groups (hheap : ∀ n, heap n = true) (hm : IsMeta q g kwl) (hf : f.Good) :
    ∃ f', f.step heap size (packet q g kwl) = some f' ∧ f'.server.nums = f.server.nums ∧ f'.Good ∧
      (∀ i, f.server.nums i ≠ q → f'.kwdbs i = f.kwdbs i) ∧
      ∀ i E, q ≠ 0 → (∀ j, f.server.nums j = q ↔ j = i) → Groups (f.kwdbs i) E →
        (g ∈ (f.kwdbs i).map Db.name ∨ (f.kwdbs i).length + 1 < maxKwdb) →
          Groups (f'.kwdbs i) (update E g (E g ++ kwl.map Keyword.card)) ∧
            (f'.kwdbs i).map Db.name ⊆ g :: (f.kwdbs i).map Db.name := by
  rw [step_packet hheap]
  cases hc : f.server.getContext q with
  | none =>
    refine ⟨f, rfl, rfl, hf, fun _ _ => rfl, fun i E hq hi => ?_⟩
    exact absurd ((hi i).mpr rfl) (Server.getContext_none hq hc i)
  | some c =>
    obtain ⟨i, s⟩ := c
    obtain ⟨-, hl, -⟩ := Server.getContext_eq_some hc
    have hnum : f.server.nums i = q := Server.lookup_seqno hl
    obtain ⟨E, hE⟩ := hf i
    dsimp only
    by_cases hroom : g ∈ (f.kwdbs i).map Db.name ∨ (f.kwdbs i).length + 1 < maxKwdb
    · obtain ⟨s', kwdbs, hw, hn, hG, hsub⟩ := writeHeaderData_room size hheap hm hE hroom
      refine ⟨_, hw, hn, fun j => ?_, fun j hj => ?_, fun j E' _ hj hE' _ => ?_⟩
      · by_cases hji : j = i
        · rw [hji]
          exact ⟨_, by simpa using hG⟩
        · simpa [update_of_ne hji] using hf j
      · refine update_of_ne ?_ _ _
        rintro rfl
        exact hj hnum
      · obtain rfl : i = j := (hj i).mp hnum
        -- the entries are determined by the databases
        obtain rfl : E = E' := by
          funext g'
          exact Option.some.inj ((hE.entries g').symm.trans (hE'.entries g'))
        simp only [update_self]
        exact ⟨hG, hsub⟩
    · rw [not_or, not_lt] at hroom
      obtain ⟨s', hw, hn⟩ := writeHeaderData_full heap size hm hroom.1 hroom.2
      refine ⟨_, hw, hn, hf, fun _ _ => rfl, fun j E' _ hj _ hr => ?_⟩
      obtain rfl : i = j := (hj i).mp hnum
      rcases hr with hr | hr
      · exact absurd hr hroom.1
      · exact absurd hr (not_lt.mpr hroom.2)

end Step

/-! ## Runs -/

section Run

variable {heap : Nat → Bool} {size : Nat} {f : Feed} {q : Int} {i : Slot} {E : Str → List Card} {ms : List (List Packed)}

/-- The message is for a group of a readout. -/
def isFor (q : Int) (g : Str) (p : List Packed) : Bool := p.take 2 == [.int q, .str g]

theorem isFor_packet (q q' : Int) (g g' : Str) (kwl : List Keyword) :
    isFor q g (packet q' g' kwl) = true ↔ q' = q ∧ g' = g := by
  simp [isFor, packet]

variable (size) in
/-- The keywords of the messages for a group are appended to it. -/
theorem Feed.run_groups (hheap : ∀ n, heap n = true) (hf : f.Good) (hq : q ≠ 0)
    (hi : ∀ j, f.server.nums j = q ↔ j = i) (hE : Groups (f.kwdbs i) E) (N : Finset Str)
    (hN : ∀ g ∈ (f.kwdbs i).map Db.name, g ∈ N) (hcard : N.card < maxKwdb)
    (hms : ∀ p ∈ ms, ∃ q' g kwl, p = packet q' g kwl ∧ IsMeta q' g kwl ∧ (q' = q → g ∈ N)) :
    ∃ f', run (Feed.step heap size) f ms = some f' ∧ f'.Good ∧
      Groups (f'.kwdbs i) fun g => E g ++ (ms.filter (isFor q g)).flatMap fun p => (quads p).map Keyword.card := by
  induction ms generalizing f E with
  | nil => exact ⟨f, rfl, hf, by simpa using hE⟩
  | cons p ms ih =>
    obtain ⟨q', g, kwl, rfl, hm, hg⟩ := hms p List.mem_cons_self
    have hms' : ∀ p ∈ ms, ∃ q' g kwl, p = packet q' g kwl ∧ IsMeta q' g kwl ∧ (q' = q → g ∈ N) :=
      fun p hp => hms p (List.mem_cons_of_mem _ hp)
    obtain ⟨f₁, hs, hnums, hf₁, hother, hthis⟩ := step_groups size hheap hm hf
    have hi₁ : ∀ j, f₁.server.nums j = q ↔ j = i := by
      rw [hnums]
      exact hi
    rw [run_cons, hs, Option.bind_some]
    by_cases hqq : q' = q
    · subst hqq
      -- the names are different and all in `N`, so there is room for one more
      have hroom : g ∈ (f.kwdbs i).map Db.name ∨ (f.kwdbs i).length + 1 < maxKwdb := by
        by_cases hm : g ∈ (f.kwdbs i).map Db.name
        · exact .inl hm
        · have hnd : (g :: (f.kwdbs i).map Db.name).Nodup := List.nodup_cons.mpr ⟨hm, hE.nodup⟩
          have hle : (g :: (f.kwdbs i).map Db.name).toFinset.card ≤ N.card := by
            refine Finset.card_le_card fun a ha => ?_
            rcases List.mem_cons.mp (List.mem_toFinset.mp ha) with rfl | ha
            · exact hg rfl
            · exact hN a ha
          rw [List.toFinset_card_of_nodup hnd, List.length_cons, List.length_map] at hle
          exact .inr (by omega)
      obtain ⟨hG, hsub⟩ := hthis i E hq hi hE hroom
      have hN₁ : ∀ a ∈ (f₁.kwdbs i).map Db.name, a ∈ N := by
        intro a ha
        rcases List.mem_cons.mp (hsub ha) with rfl | ha
        · exact hg rfl
        · exact hN a ha
      obtain ⟨f', hr, hf', hG'⟩ := ih hf₁ hi₁ hG hN₁ hms'
      refine ⟨f', hr, hf', ?_⟩
      convert hG' using 2 with g'
      by_cases hgg : g' = g
      · subst hgg
        rw [List.filter_cons_of_pos ((isFor_packet q' q' g' g' kwl).mpr ⟨rfl, rfl⟩), List.flatMap_cons, quads_packet,
          update_self, List.append_assoc]
      · have hn : ¬ isFor q' g' (packet q' g kwl) = true := by
          rw [isFor_packet]
          exact fun h => hgg h.2.symm
        rw [List.filter_cons_of_neg hn, update_of_ne hgg]
    · have hk : f₁.kwdbs i = f.kwdbs i := hother i fun h => hqq (h.symm.trans ((hi i).mpr rfl))
      rw [← hk] at hE hN
      obtain ⟨f', hr, hf', hG'⟩ := ih hf₁ hi₁ hE hN hms'
      refine ⟨f', hr, hf', ?_⟩
      convert hG' using 4 with g'
      have hn : ¬ isFor q g' (packet q' g kwl) = true := by
        rw [isFor_packet]
        exact fun h => hqq h.1
      rw [List.filter_cons_of_neg hn]

end Run

/-! ## Pages -/

section Pages

variable {heap : Nat → Bool} {f : Feed} {i : Slot} {E : Str → List Card} {ms : List (List Packed)} {page : MetaPage}
  {procPages : Option Str}

/-- The group that a message names -/
def groupOf : List Packed → Str
  | _ :: .str g :: _ => g
  | _ => []

/-- The message is for a readout. -/
def forReadout (q : Int) (p : List Packed) : Bool := p.head? == some (.int q)

theorem isStorable_of_mem_cards (h : page.Sendable) {kw : Keyword} (hk : kw ∈ page.cards) : kw.card.IsStorable := by
  have hhash := hash_nonneg_of_head (h.ascii kw hk)
  obtain ⟨n, -, rfl⟩ := List.mem_map.mp hk
  have htype : Storable ['S'] := ⟨by decide, by decide⟩
  exact ⟨storable_procDCAMoveStr _ (by decide), storable_procDCAMoveStr _ (by decide), htype,
    storable_procDCAMoveStr _ le_rfl, hhash⟩

/-- A message of a page -/
theorem isMeta_of_mem (h : page.Sendable) {p : List Packed} (hp : p ∈ page.procDCAMetaData procPages) :
    ∃ kwl, p = packet page.seqno page.kwdb kwl ∧ IsMeta page.seqno page.kwdb kwl := by
  by_cases hsel : page.isMeta = true ∧ page.isSelected procPages = true
  · rw [procDCAMetaData_eq hsel.1 hsel.2] at hp
    obtain ⟨kwl, hkwl, rfl⟩ := List.mem_map.mp hp
    exact ⟨kwl, rfl, page.noNull_kwdb, h.kwdb_short,
      fun kw hkw => isStorable_of_mem_cards h (mem_cards_of_mem_groups hkwl hkw)⟩
  · have hnil : page.procDCAMetaData procPages = [] := by
      rw [MetaPage.procDCAMetaData, if_pos]
      rw [Bool.or_eq_true, Bool.not_eq_true', Bool.not_eq_true']
      grind
    rw [hnil] at hp
    cases hp

/-- The keywords of a page are appended to the database of its name, while messages of other pages come in between. -/
theorem header_transfer (hheap : ∀ n, heap n = true) (size : Nat) (hmeta : page.isMeta = true)
    (hsel : page.isSelected procPages = true) (hpage : page.Sendable) (hf : f.Good) (hq : page.seqno ≠ 0)
    (hi : ∀ j, (f.server.ctx j).seqno = page.seqno ↔ j = i) (hE : Groups (f.kwdbs i) E)
    (hms : ms.filter (isFor page.seqno page.kwdb) = page.procDCAMetaData procPages)
    (hothers : ∀ p ∈ ms, ∃ (page' : MetaPage) (procPages' : Option Str),
      page'.Sendable ∧ p ∈ page'.procDCAMetaData procPages')
    (hroom : ((f.kwdbs i).map Db.name ++ (ms.filter (forReadout page.seqno)).map groupOf).toFinset.card < maxKwdb) :
    (∀ p ∈ page.procDCAMetaData procPages, p = packet page.seqno page.kwdb (quads p)) ∧
      (page.procDCAMetaData procPages).flatMap quads = page.cards ∧
      ∃ f' E', run (Feed.step heap size) f ms = some f' ∧ Groups (f'.kwdbs i) E' ∧
        E' page.kwdb = E page.kwdb ++ page.cards.map Keyword.card ∧
        ∀ g, g ≠ page.kwdb →
          (∀ p ∈ ms, isFor page.seqno g p = true → p ∈ page.procDCAMetaData procPages) → E' g = E g := by
  have hquads : (page.procDCAMetaData procPages).flatMap quads = page.cards := by
    rw [procDCAMetaData_eq hmeta hsel, List.flatMap_map]
    calc (groups page.nkeyw page.cards).flatMap (fun kwl => quads (packet page.seqno page.kwdb kwl))
        = (groups page.nkeyw page.cards).flatMap id := List.flatMap_congr fun kwl _ => quads_packet _ _ kwl
      _ = page.cards := by rw [List.flatMap_id, groups_cards]
  have hpackets : ∀ p ∈ ms, ∃ q' g kwl, p = packet q' g kwl ∧ IsMeta q' g kwl ∧
      (q' = page.seqno →
        g ∈ ((f.kwdbs i).map Db.name ++ (ms.filter (forReadout page.seqno)).map groupOf).toFinset) := by
    intro p hp
    obtain ⟨page', procPages', hs', hp'⟩ := hothers p hp
    obtain ⟨kwl, rfl, hm⟩ := isMeta_of_mem hs' hp'
    refine ⟨_, _, kwl, rfl, hm, fun hqq => ?_⟩
    rw [List.mem_toFinset, List.mem_append]
    refine .inr (List.mem_map.mpr ⟨_, List.mem_filter.mpr ⟨hp, ?_⟩, rfl⟩)
    simp [forReadout, packet, hqq]
  obtain ⟨f', hr, -, hG⟩ := Feed.run_groups size hheap hf hq hi hE _
    (fun g hg => List.mem_toFinset.mpr (List.mem_append_left _ hg)) hroom hpackets
  refine ⟨fun p hp => ?_, hquads, f', _, hr, hG, ?_, fun g hg hno => ?_⟩
  · obtain ⟨kwl, rfl, -⟩ := isMeta_of_mem hpage hp
    rw [quads_packet]
  · simp only [hms]
    rw [← List.map_flatMap, hquads]
  · have hnil : ms.filter (isFor page.seqno g) = [] := by
      rw [List.filter_eq_nil_iff]
      intro p hp hfor
      obtain ⟨kwl, rfl, -⟩ := isMeta_of_mem hpage (hno p hp hfor)
      exact hg ((isFor_packet _ _ _ _ kwl).mp hfor).2.symm
    simp only [hnil, List.flatMap_nil, List.append_nil]

end Pages

/-- A page with one card -/
def onePage : MetaPage where
  isMeta := true
  seqno := 1
  colID := ⟨['P', 'a', 'n', 'A'], by decide⟩
  expPageNum := 0
  data := 'A' :: List.replicate 31 ' ' ++ '1' :: List.replicate 95 ' '

theorem onePage_cards : onePage.cards = [⟨['A'], ['1'], ['S'], []⟩] := by decide +kernel

theorem onePage_sendable : onePage.Sendable := by
  refine ⟨by decide, ?_⟩
  rw [onePage_cards]
  simp

/-- The server with one readout -/
def oneReadout : Server :=
  { Server.start Params.default with ctx := update (fun _ => .zero) Slot.first { Context.zero with seqno := 1 } }

theorem oneReadout_seqno (j : Slot) : (oneReadout.ctx j).seqno = 1 ↔ j = 0 := by
  revert j
  decide

/-- A page with `18` cards: its keywords are sent in two messages. -/
def longPage : MetaPage where
  isMeta := true
  seqno := 1
  colID := ⟨['P', 'a', 'n', 'B'], by decide⟩
  expPageNum := 1
  data := (List.range 18).flatMap fun n => 'A' :: List.replicate 31 ' ' ++ Char.ofNat (97 + n) :: List.replicate 95 ' '

theorem longPage_cards : longPage.cards = (List.range 18).map fun n => ⟨['A'], [Char.ofNat (97 + n)], ['S'], []⟩ := by
  decide +kernel

theorem longPage_sendable : longPage.Sendable := by
  refine ⟨by decide, fun kw hkw => ?_⟩
  rw [longPage_cards] at hkw
  obtain ⟨n, -, rfl⟩ := List.mem_map.mp hkw
  simp

/-- The messages of a page are for the group of the page, and no other messages are. -/
theorem filter_isFor (page : MetaPage) {page' : MetaPage} (h : page'.Sendable) :
    (page'.procDCAMetaData none).filter (isFor page.seqno page.kwdb) =
      if page'.seqno = page.seqno ∧ page'.kwdb = page.kwdb then page'.procDCAMetaData none else [] := by
  split
  · rename_i hsame
    rw [List.filter_eq_self]
    intro p hp
    obtain ⟨kwl, rfl, -⟩ := isMeta_of_mem h hp
    exact (isFor_packet _ _ _ _ kwl).mpr hsame
  · rename_i hother
    rw [List.filter_eq_nil_iff]
    intro p hp hfor
    obtain ⟨kwl, rfl, -⟩ := isMeta_of_mem h hp
    exact hother ((isFor_packet _ _ _ _ kwl).mp hfor)

/-- The message of one page comes between the two of another one. -/
def mixed : List (List Packed) :=
  (longPage.procDCAMetaData none).take 1 ++ onePage.procDCAMetaData none ++ (longPage.procDCAMetaData none).drop 1

theorem mem_mixed {p : List Packed} (hp : p ∈ mixed) :
    ∃ (page : MetaPage) (procPages : Option Str), page.Sendable ∧ p ∈ page.procDCAMetaData procPages := by
  rcases List.mem_append.mp hp with hp | hp
  · rcases List.mem_append.mp hp with hp | hp
    · exact ⟨longPage, none, longPage_sendable, List.mem_of_mem_take hp⟩
    · exact ⟨onePage, none, onePage_sendable, hp⟩
  · exact ⟨longPage, none, longPage_sendable, List.mem_of_mem_drop hp⟩

theorem mixed_longPage : mixed.filter (isFor longPage.seqno longPage.kwdb) = longPage.procDCAMetaData none := by
  have hlong := filter_isFor longPage longPage_sendable
  have hone := filter_isFor longPage onePage_sendable
  rw [if_pos ⟨rfl, rfl⟩, List.filter_eq_self] at hlong
  rw [if_neg (by decide)] at hone
  rw [mixed, List.filter_append, List.filter_append, hone, List.append_nil,
    List.filter_eq_self.mpr fun p hp => hlong p (List.mem_of_mem_take hp),
    List.filter_eq_self.mpr fun p hp => hlong p (List.mem_of_mem_drop hp), List.take_append_drop]

theorem mixed_onePage : mixed.filter (isFor onePage.seqno onePage.kwdb) = onePage.procDCAMetaData none := by
  have hlong := filter_isFor onePage longPage_sendable
  have hone := filter_isFor onePage onePage_sendable
  rw [if_pos ⟨rfl, rfl⟩] at hone
  rw [if_neg (by decide), List.filter_eq_nil_iff] at hlong
  rw [mixed, List.filter_append, List.filter_append, hone,
    List.filter_eq_nil_iff.mpr fun p hp => hlong p (List.mem_of_mem_take hp),
    List.filter_eq_nil_iff.mpr fun p hp => hlong p (List.mem_of_mem_drop hp), List.nil_append, List.append_nil]

/-- The cards of each page are the entries of its database. -/
theorem mixed_transfer :
    mixed.length = 3 ∧ ∃ f', run (Feed.step (fun _ => true) 0) ⟨oneReadout, fun _ => []⟩ mixed = some f' ∧
      (∃ E, Groups (f'.kwdbs 0) E ∧
        E longPage.kwdb = (List.range 18).map fun n => ⟨['A'], [Char.ofNat (97 + n)], ['S'], []⟩) ∧
      ∃ E, Groups (f'.kwdbs 0) E ∧ E onePage.kwdb = [⟨['A'], ['1'], ['S'], []⟩] := by
  obtain ⟨-, -, f', E, hr, hG, hE, -⟩ := header_transfer (f := ⟨oneReadout, fun _ => []⟩) (i := 0) (fun _ => rfl) 0 rfl
    rfl longPage_sendable (fun _ => ⟨_, groups_nil⟩) (by decide) oneReadout_seqno groups_nil mixed_longPage
    (fun _ hp => mem_mixed hp) (by decide +kernel)
  obtain ⟨-, -, f'', E', hr', hG', hE', -⟩ := header_transfer (f := ⟨oneReadout, fun _ => []⟩) (i := 0) (fun _ => rfl) 0
    rfl rfl onePage_sendable (fun _ => ⟨_, groups_nil⟩) (by decide) oneReadout_seqno groups_nil mixed_onePage
    (fun _ hp => mem_mixed hp) (by decide +kernel)
  obtain rfl := Option.some.inj (hr.symm.trans hr')
  rw [longPage_cards, List.map_map] at hE
  rw [onePage_cards] at hE'
  exact ⟨by decide +kernel, f', hr, ⟨E, hG, hE⟩, E', hG', hE'⟩

/-- A readout with as many groups as there is room for -/
def fullFeed : Feed where
  server := oneReadout
  kwdbs := fun _ => (List.range 63).map fun n => Db.empty (List.replicate n 'x')

theorem fullFeed_names : (fullFeed.kwdbs 0).map Db.name = (List.range 63).map fun n => List.replicate n 'x' := by
  rw [fullFeed, List.map_map]
  refine List.map_congr_left fun n hn => ?_
  have hn : n < 63 := List.mem_range.mp hn
  have hnull : '\x00' ∉ List.replicate n 'x' := by
    intro h
    exact absurd (List.eq_of_mem_replicate h) (by decide)
  have hfit : (List.replicate n 'x').length + 2 ≤ defSzsbuf := by
    rw [List.length_replicate, defSzsbuf]
    omega
  have ho : Db.openDb (fun _ => true) 0 ⟨List.replicate n 'x', hnull⟩ = some (.empty (List.replicate n 'x')) := by
    simp only [Db.openDb, hfit, and_self, if_true]
  rw [comp_apply, Db.name]
  exact (Sbuf.Named.openDb ho).str

/-- The groups are all there can be: the card of the page is lost. -/
theorem onePage_lost :
    ∃ f', run (Feed.step (fun _ => true) 0) fullFeed (onePage.procDCAMetaData none) = some f' ∧
      entries (fullFeed.kwdbs 0) onePage.kwdb = some [] ∧ entries (f'.kwdbs 0) onePage.kwdb = some [] ∧
      onePage.cards.length = 1 := by
  have hnot : onePage.kwdb ∉ (fullFeed.kwdbs 0).map Db.name := by
    rw [fullFeed_names]
    intro h
    obtain ⟨n, -, hn⟩ := List.mem_map.mp h
    have hP : 'P' ∈ List.replicate n 'x' := by
      rw [hn]
      decide
    exact absurd (List.eq_of_mem_replicate hP) (by decide)
  have hempty : entries (fullFeed.kwdbs 0) onePage.kwdb = some [] := by
    rw [entries, List.find?_eq_none.mpr]
    intro db hdb hname
    exact hnot (List.mem_map.mpr ⟨db, hdb, by simpa using hname⟩)
  have hn : onePage.nkeyw = 1 := by decide +kernel
  have hsend : onePage.procDCAMetaData none = [packet 1 onePage.kwdb onePage.cards] := by
    rw [procDCAMetaData_eq rfl rfl, hn, onePage_cards]
    rfl
  have hm : IsMeta 1 onePage.kwdb onePage.cards :=
    ⟨onePage.noNull_kwdb, onePage_sendable.kwdb_short, fun kw hkw => isStorable_of_mem_cards onePage_sendable hkw⟩
  obtain ⟨s, hw, -⟩ := Feed.writeHeaderData_full (fun _ => true) 0 (f := fullFeed) (i := 0) hm hnot
    (by simp [fullFeed, maxKwdb])
  refine ⟨⟨s, fullFeed.kwdbs⟩, ?_, hempty, hempty, by rw [onePage_cards]; rfl⟩
  rw [hsend, run_cons, Feed.step_packet (fun _ => rfl)]
  have hc : fullFeed.server.getContext 1 = some (0, fullFeed.server.withLast (some 0)) := by rfl
  rw [hc]
  dsimp only
  rw [hw]
  rfl

end Ndhs.Mosdca
