import Ndhs.Kwdb.Rep

/-!
# Writing texts into a database

`Rep.setField`: the entry that a lookup finds has the new text, in place or as a new string. `Rep.addEntry`: the
new entry is the last one of the list and the first one of its thread, if the four texts can be read to the
end (`Reads`). Strings of the caller always can (`reads_text`); pointers into the string buffer of the database
can as long as it does not grow (`reads_stable`).
-/

namespace Ndhs.Kwdb

open Text Buffer Linked Function

variable {heap : Nat → Bool} {db : Db} {L : List Entry} {T : Nat → List Nat}
  {txt : Nat × Option Db.Field → Str} {h : Nat} {e : Entry}

/-! ## Setting a field -/

/-- The links do not depend on the texts. -/
theorem Lists.frame (hl : Lists db L T) {sbuf : Sbuf} {itab : Nat → Item}
    (hg : ∀ i, (itab i).nextglob = (db.itab i).nextglob) (hh : ∀ i, (itab i).nexthash = (db.itab i).nexthash) :
    Lists { db with sbuf, itab } L T where
  glob := hl.glob.congr fun i _ => hg i
  tail := hl.tail
  sorted := hl.sorted
  slots := hl.slots
  room := hl.room
  pos := hl.pos
  count := hl.count
  threads h := (hl.threads h).congr fun i _ => hh i
  mem := hl.mem
  hashed := hl.hashed

/-- The links do not depend on the fields other than the name. -/
theorem Lists.map (hl : Lists db L T) {g : Entry → Entry} (hep : ∀ e, (g e).ep = e.ep)
    (hname : ∀ e, (g e).name = e.name) : Lists db (L.map g) T := by
  have heps : (L.map g).map Entry.ep = L.map Entry.ep := by
    rw [List.map_map]
    exact List.map_congr_left fun e _ => hep e
  refine ⟨?_, ?_, ?_, ?_, hl.room, hl.pos, ?_, hl.threads, fun h x => ?_, ?_⟩
  · rw [heps]
    exact hl.glob
  · rw [heps]
    exact hl.tail
  · rw [heps]
    exact hl.sorted
  · rw [heps]
    exact hl.slots
  · rw [List.length_map]
    exact hl.count
  · simp only [hl.mem, List.mem_map, exists_exists_and_eq_and, hep, hname]
  · simp only [List.mem_map, forall_exists_index, and_imp, forall_apply_eq_imp_iff₂, hname]
    exact hl.hashed

@[simp] theorem Entry.setText_ep (e : Entry) (s : Str) (f : Db.Field) : (e.setText s f).ep = e.ep := by
  cases f <;> rfl

@[simp] theorem Entry.setText_name (e : Entry) (s : Str) (f : Db.Field) :
    (e.setText s f).name = e.name := by
  cases f <;> rfl

theorem Entry.setText_textAt (e : Entry) (s : Str) (f : Db.Field) (f' : Option Db.Field) :
    (e.setText s f).textAt f' = if f' = some f then s else e.textAt f' := by
  rcases f' with _ | f'
  · cases f <;> rfl
  · cases f <;> cases f' <;> rfl

/-- The list after a field of the entry `x` is set. -/
def setAt (L : List Entry) (x : Nat) (f : Db.Field) (s : Str) : List Entry :=
  L.map fun e => if e.ep = x then e.setText s f else e

theorem setAt_ep (x : Nat) (f : Db.Field) (s : Str) : (setAt L x f s).map Entry.ep = L.map Entry.ep := by
  rw [setAt, List.map_map]
  refine List.map_congr_left fun e _ => ?_
  simp only [comp_apply]
  split <;> simp

theorem Lists.setAt (hl : Lists db L T) (x : Nat) (f : Db.Field) (s : Str) : Lists db (setAt L x f s) T :=
  hl.map (fun e => by split <;> simp) fun e => by split <;> simp

theorem setAt_text (ht : ∀ e ∈ L, ∀ f, txt (e.ep, f) = e.textAt f) (x : Nat) (f : Db.Field) (s : Str) :
    ∀ e ∈ setAt L x f s, ∀ f', update txt (x, some f) s (e.ep, f') = e.textAt f' := by
  intro e' he' f'
  obtain ⟨e, he, rfl⟩ := List.mem_map.mp he'
  by_cases hx : e.ep = x
  · simp only [if_pos hx, Entry.setText_ep, Entry.setText_textAt]
    subst hx
    by_cases hf : f' = some f
    · rw [if_pos hf, hf, update_self]
    · rw [if_neg hf, update_of_ne (by simp [hf]), ht e he]
  · rw [if_neg hx, update_of_ne (by simp [hx]), ht e he]

/-- A new offset and room for one field of one entry. -/
theorem Db.offAt_setField {x off room : Nat} {f : Db.Field} {sbuf : Sbuf} :
    Db.offAt { db with sbuf, itab := update db.itab x ((db.itab x).setField off room f) } =
      update db.offAt (x, some f) off := by
  funext ⟨i, f'⟩
  by_cases hi : i = x
  · subst hi
    by_cases hf : f' = some f
    · subst hf
      cases f <;> simp [Db.offAt, Item.offAt, Item.setField, Item.off]
    · rw [update_of_ne (by simp [hf])]
      rcases f' with _ | f'
      · cases f <;> simp [Db.offAt, Item.offAt, Item.setField]
      · cases f <;> cases f' <;> simp_all [Db.offAt, Item.offAt, Item.setField, Item.off]
  · simp [Db.offAt, update_of_ne, hi]

theorem Db.spanAt_setField {x off room : Nat} {f : Db.Field} {sbuf : Sbuf} {s : Str} :
    Db.spanAt { db with sbuf, itab := update db.itab x ((db.itab x).setField off room f) }
      (update txt (x, some f) s) = update (db.spanAt txt) (x, some f) room := by
  funext ⟨i, f'⟩
  by_cases hi : i = x
  · subst hi
    by_cases hf : f' = some f
    · subst hf
      cases f <;> simp [Db.spanAt, Item.spanAt, Item.setField, Item.room]
    · rw [update_of_ne (by simp [hf])]
      rcases f' with _ | f'
      · cases f <;> simp [Db.spanAt, Item.spanAt]
      · cases f <;> cases f' <;> simp_all [Db.spanAt, Item.spanAt, Item.setField, Item.room]
  · simp [Db.spanAt, update_of_ne, hi]

/-- Setting a field: the entry that the lookup finds has the new text. -/
theorem Rep.setField (hheap : ∀ n, heap n = true) (hr : Rep db L T txt) (f : Db.Field) {k s : Str} {x : Nat}
    (hx : db.lookup k 0 = some x) (hlive : x = 0 ∨ x ∈ L.map Entry.ep) (hs : '\x00' ∉ s)
    (hlen : s.length < defSzsbuf) :
    ∃ db' r, db.setField heap f k s = some (db', r) ∧
      Rep db' (setAt L x f s) T (update txt (x, some f) s) := by
  rw [Db.setField, hx, Option.bind_some]
  by_cases h0 : x = 0
  · -- there is no entry zero to change
    have hsame : setAt L x f s = L := by
      rw [setAt, List.map_congr_left (g := id), List.map_id]
      intro e he
      rw [if_neg (h0 ▸ hr.lists.ep_ne_zero he), id]
    rw [if_pos h0, hsame]
    refine ⟨_, _, rfl, hr.lists, fun e he f' => ?_, ?_, hr.texts.used⟩
    · rw [update_of_ne, hr.texts.text e he f']
      simp [h0, hr.lists.ep_ne_zero he]
    · have hkey : ∀ k : Nat × Option Db.Field, k.1 ∈ L.map Entry.ep → k ≠ (x, some f) := by
        rintro ⟨i, f'⟩ hk hc
        exact hr.lists.glob.ne_zero hk ((Prod.mk.inj hc).1.trans h0)
      refine hr.texts.layout.congr (fun _ _ => rfl) (fun k hk => ?_) fun k hk => update_of_ne (hkey k hk) _ _
      rw [Db.spanAt, Db.spanAt, update_of_ne]
      simp
  · have hxl := hlive.resolve_left h0
    have hlayout := hr.texts.layout
    rw [if_neg h0]
    by_cases hfit : (db.itab x).room f < s.length
    · have hwipe := hlayout.wipe (k := (x, some f)) hxl
      have hadd := Sbuf.layout_add (db.sbuf.wipe ((db.itab x).off f) ((db.itab x).room f)) hwipe
        (x, some f) hs
      have hu : (db.sbuf.wipe ((db.itab x).off f) ((db.itab x).room f)).used ≤ db.sbuf.len := hr.texts.used
      rw [if_pos hfit, Sbuf.addstr_text hheap (fun _ => rfl) hu hlen, Option.map_some]
      refine ⟨_, _, rfl, ((hr.lists.setAt x f s).frame ?_ ?_), setAt_text hr.texts.text x f s, ?_,
        Sbuf.add_used_le hr.texts.used hlen⟩
      · intro i
        by_cases hi : i = x
        · subst hi
          cases f <;> simp [Item.setField]
        · rw [update_of_ne hi]
      · intro i
        by_cases hi : i = x
        · subst hi
          cases f <;> simp [Item.setField]
        · rw [update_of_ne hi]
      · rw [Db.offAt_setField, Db.spanAt_setField]
        refine hadd.mono fun k hk => ?_
        rw [setAt_ep] at hk
        by_cases hkx : k = (x, some f)
        · exact .inl hkx
        · exact .inr ⟨hk, hkx⟩
    · have hover := hlayout.overwrite (k := (x, some f)) hxl hs (not_lt.mp hfit)
      rw [if_neg hfit]
      refine ⟨_, _, rfl, (hr.lists.setAt x f s).frame (fun _ => rfl) (fun _ => rfl),
        setAt_text hr.texts.text x f s, ?_, hr.texts.used⟩
      rw [setAt_ep]
      refine hover.congr (fun _ _ => rfl) (fun k _ => ?_) fun _ _ => rfl
      rcases k with ⟨i, _ | f'⟩
      · simp [Db.spanAt, Item.spanAt]
      · rfl

/-! ## Adding an entry -/

theorem Db.link_eq (i : Nat) :
    db.link i = db.relink (if db.tail = 0 then db.next else update db.next db.tail i)
      (if db.head = 0 then i else db.head) i db.itemsused := by
  unfold Db.link
  by_cases ht : db.tail = 0
  · simp only [ht, if_true]
    rfl
  · simp only [ht, if_false, Db.setNextglob_eq]
    rfl

/-- The table with the item of a new entry in its last slot. -/
def Db.newItem (db : Db) (maxitems : Nat) (sbuf : Sbuf) (itp : Item) : Db :=
  { db with maxitems, itemsused := db.itemsused + 1, itab := update db.itab db.itemsused itp, sbuf }

/-- The links after an entry is added. -/
theorem Lists.add (hl : Lists db L T) {maxitems : Nat} (sbuf : Sbuf) (itp : Item)
    (hm : db.itemsused < maxitems) (h0 : itp.nexthash = 0) (h0' : itp.nextglob = 0)
    (he : e.ep = db.itemsused) (hh : e.name ≠ [] → 0 ≤ hash e.name) :
    ∃ db', ((db.newItem maxitems sbuf itp).link db.itemsused).enter db.itemsused e.name = some db' ∧
      Lists { db' with nitems := db'.nitems + 1 } (L ++ [e]) (pushThread T e.name db.itemsused) ∧
      db'.sbuf = sbuf ∧ db'.offAt = (db.newItem maxitems sbuf itp).offAt ∧
      db'.spanAt = (db.newItem maxitems sbuf itp).spanAt := by
  have hfresh : db.itemsused ∉ L.map Entry.ep := fun hm => lt_irrefl _ (hl.slots _ hm)
  have hpos := hl.pos
  set base := db.newItem maxitems sbuf itp with hbase
  have hself : base.itab db.itemsused = itp := update_self ..
  have hother : ∀ i ≠ db.itemsused, base.itab i = db.itab i := fun i hi => update_of_ne hi _ _
  have hglob : Chain base.next db.head (L.map Entry.ep) := by
    refine hl.glob.congr fun i hi => ?_
    have hne : i ≠ db.itemsused := fun hc => hfresh (hc ▸ hi)
    simp only [Db.next, hother i hne]
  have hthreads : ∀ g, Chain base.nexthash (db.hashtbl g) (T g) := by
    intro g
    refine (hl.threads g).congr fun i hi => ?_
    have hne : i ≠ db.itemsused := fun hc => hfresh (hc ▸ hl.live_of_mem_thread hi)
    simp only [Db.nexthash, hother i hne]
  have hnot : ∀ g, db.itemsused ∉ T g := fun g hg => hfresh (hl.live_of_mem_thread hg)
  obtain ⟨nh, ht, henter, hchain⟩ := Db.enter_chain (base.link db.itemsused) (x := db.itemsused)
    (T := T) (by rw [Db.link_eq]; exact hthreads) (by omega) hnot hh
    (fun _ _ _ _ => by
      rw [Db.link_eq, Db.relink_nexthash, Db.nexthash, hself]
      exact h0)
  have heps : (L ++ [e]).map Entry.ep = L.map Entry.ep ++ [db.itemsused] := by simp [he]
  refine ⟨_, henter, ⟨?_, ?_, ?_, ?_, ?_, ?_, ?_, hchain, fun h x => ?_, ?_⟩, ?_, ?_, ?_⟩
  · rw [Db.link_eq, heps]
    have hend : base.next db.itemsused = 0 := by rw [Db.next, hself, h0']
    have happend := hglob.append (by omega) hfresh hend
    rw [← hl.tail] at happend
    exact happend
  · rw [Db.link_eq, heps, last_concat]
    rfl
  · rw [heps]
    refine List.pairwise_append.mpr ⟨hl.sorted, by simp, fun x hx y hy => ?_⟩
    rw [List.mem_singleton.mp hy]
    exact hl.slots x hx
  · rw [heps, Db.link_eq]
    change ∀ x ∈ L.map Entry.ep ++ [db.itemsused], x < db.itemsused + 1
    intro x hx
    rcases List.mem_append.mp hx with hx | hx
    · have := hl.slots x hx
      omega
    · rw [List.mem_singleton.mp hx]
      omega
  · rw [Db.link_eq]
    exact hm
  · rw [Db.link_eq]
    exact Nat.succ_pos _
  · rw [Db.link_eq, List.length_append, ← hl.count]
    rfl
  · rw [mem_pushThread, hl.mem]
    constructor
    · rintro (⟨rfl, hn⟩ | ⟨e', he', hrest⟩)
      · exact ⟨e, by simp, he, hn⟩
      · exact ⟨e', List.mem_append_left _ he', hrest⟩
    · rintro ⟨e', he', hx, hn⟩
      rcases List.mem_append.mp he' with he' | he'
      · exact .inr ⟨e', he', hx, hn⟩
      · rw [List.mem_singleton.mp he'] at hx hn
        exact .inl ⟨hx.symm.trans he, hn⟩
  · intro e' he'
    rcases List.mem_append.mp he' with he' | he'
    · exact hl.hashed e' he'
    · rw [List.mem_singleton.mp he']
      exact hh
  · rw [Db.link_eq]
    rfl
  · rw [Db.link_eq, Db.rethread_offAt, Db.relink_offAt]
  · funext txt
    rw [Db.link_eq, Db.rethread_spanAt, Db.relink_spanAt]

theorem read_ofOption (o : Option CStr) (sb : Sbuf) : sb.read (.ofOption o) = some (textOf o) := by
  cases o <;> rfl

theorem noNull_textOf (o : Option CStr) : '\x00' ∉ textOf o := by
  cases o with
  | none => simp [textOf]
  | some s => exact s.noNull

/-- A string that fits into a grown buffer. -/
structure Storable (s : Str) : Prop where
  noNull : '\x00' ∉ s
  short : s.length < defSzsbuf

/-- The four texts of a new entry are read as `s₀`, …, `s₃`, one after the other. -/
structure Reads (heap : Nat → Bool) (sb : Sbuf) (a₀ a₁ a₂ a₃ : Arg) (s₀ s₁ s₂ s₃ : Str) : Prop where
  add₀ : sb.addstr heap a₀ = some (sb.add s₀, sb.slot s₀)
  add₁ : (sb.add s₀).addstr heap a₁ = some ((sb.add s₀).add s₁, (sb.add s₀).slot s₁)
  add₂ : ((sb.add s₀).add s₁).addstr heap a₂ =
    some (((sb.add s₀).add s₁).add s₂, ((sb.add s₀).add s₁).slot s₂)
  add₃ : (((sb.add s₀).add s₁).add s₂).addstr heap a₃ =
    some ((((sb.add s₀).add s₁).add s₂).add s₃, (((sb.add s₀).add s₁).add s₂).slot s₃)
  read₁ : ((sb.add s₀).add s₁).read a₁ = some s₁
  read₂ : (((sb.add s₀).add s₁).add s₂).read a₂ = some s₂
  read₃ : ((((sb.add s₀).add s₁).add s₂).add s₃).read a₃ = some s₃
  read₀ : ((((sb.add s₀).add s₁).add s₂).add s₃).read a₀ = some s₀

section Add

variable {a₀ a₁ a₂ a₃ : Arg} {s₀ s₁ s₂ s₃ : Str}

/-- The item of a new entry. -/
def Sbuf.item (sb : Sbuf) (s₀ s₁ s₂ s₃ : Str) : Item where
  name := sb.slot s₀
  value := (sb.add s₀).slot s₁
  vallen := s₁.length
  type := ((sb.add s₀).add s₁).slot s₂
  typelen := s₂.length
  comment := (((sb.add s₀).add s₁).add s₂).slot s₃
  comlen := s₃.length
  nexthash := 0
  nextglob := 0

/-- The capacity of the table when a new entry is added. -/
def Db.moreItems (db : Db) : Nat :=
  if db.maxitems ≤ db.itemsused then db.maxitems + defNkeywords else db.maxitems

theorem Db.lt_moreItems (h : db.itemsused ≤ db.maxitems) : db.itemsused < db.moreItems := by
  unfold Db.moreItems defNkeywords
  split <;> omega

theorem Db.addEntry_eq (hheap : ∀ n, heap n = true) (hread : Reads heap db.sbuf a₀ a₁ a₂ a₃ s₀ s₁ s₂ s₃) :
    db.addEntry heap a₀ a₁ a₂ a₃ =
      (((db.newItem db.moreItems ((((db.sbuf.add s₀).add s₁).add s₂).add s₃)
        (db.sbuf.item s₀ s₁ s₂ s₃)).link db.itemsused).enter db.itemsused s₀).map fun db' =>
          ({ db' with nitems := db'.nitems + 1 }, (db.itemsused : Int)) := by
  unfold Db.addEntry
  rw [if_neg (by simp [hheap])]
  simp only [hread.add₀, hread.add₁, hread.add₂, hread.add₃, hread.read₀, hread.read₁, hread.read₂, hread.read₃,
    Option.bind_eq_bind, Option.bind_some]
  rw [Option.map_eq_bind]
  rfl

/-- The texts with those of a new entry. -/
def newText (txt : Nat × Option Db.Field → Str) (x : Nat) (s₀ s₁ s₂ s₃ : Str) : Nat × Option Db.Field → Str :=
  update (update (update (update txt (x, none) s₀) (x, some .value) s₁) (x, some .type) s₂)
    (x, some .comment) s₃

/-- The texts after an entry is added. -/
theorem Texts.add (ht : Texts db L txt) (hfresh : db.itemsused ∉ L.map Entry.ep) (hs₀ : Storable s₀)
    (hs₁ : Storable s₁) (hs₂ : Storable s₂) (hs₃ : Storable s₃) {maxitems : Nat} (db' : Db)
    (hsb : db'.sbuf = (((db.sbuf.add s₀).add s₁).add s₂).add s₃)
    (hoff : db'.offAt = (db.newItem maxitems ((((db.sbuf.add s₀).add s₁).add s₂).add s₃)
      (db.sbuf.item s₀ s₁ s₂ s₃)).offAt)
    (hspan : db'.spanAt = (db.newItem maxitems ((((db.sbuf.add s₀).add s₁).add s₂).add s₃)
      (db.sbuf.item s₀ s₁ s₂ s₃)).spanAt) :
    Texts db' (L ++ [⟨db.itemsused, s₀, s₁, s₂, s₃⟩]) (newText txt db.itemsused s₀ s₁ s₂ s₃) := by
  have hu₁ := Sbuf.add_used_le ht.used hs₀.short
  have hu₂ := Sbuf.add_used_le hu₁ hs₁.short
  have hu₃ := Sbuf.add_used_le hu₂ hs₂.short
  have hu₄ := Sbuf.add_used_le hu₃ hs₃.short
  have hl := Sbuf.layout_add _ (Sbuf.layout_add _ (Sbuf.layout_add _ (Sbuf.layout_add _ ht.layout
    (db.itemsused, none) hs₀.noNull) (db.itemsused, some .value) hs₁.noNull)
    (db.itemsused, some .type) hs₂.noNull) (db.itemsused, some .comment) hs₃.noNull
  have hlive : ∀ e ∈ L, e.ep ≠ db.itemsused := fun e he hc => hfresh (hc ▸ List.mem_map_of_mem he)
  refine ⟨fun e he f => ?_, ?_, by rw [hsb]; exact hu₄⟩
  · unfold newText
    rcases List.mem_append.mp he with he | he
    · have hne := hlive e he
      simp [hne, ht.text e he f]
    · rw [List.mem_singleton.mp he]
      rcases f with _ | _ | _ | _ <;> simp [Entry.textAt, Entry.text]
  · rw [hsb, hoff, hspan]
    refine (hl.mono fun k hk => ?_).congr (fun k hk => ?_) (fun k hk => ?_) fun _ _ => rfl
    · rcases k with ⟨i, f⟩
      rcases List.mem_append.mp (List.map_append ▸ hk) with hk | hk
      · exact .inr (.inr (.inr (.inr hk)))
      · obtain rfl : i = db.itemsused := List.mem_singleton.mp hk
        rcases f with _ | _ | _ | _ <;> simp
    · rcases k with ⟨i, f⟩
      by_cases hi : i = db.itemsused
      · subst hi
        rcases f with _ | _ | _ | _ <;>
          simp [Db.newItem, Db.offAt, Item.offAt, Item.off, Sbuf.item]
      · simp [Db.newItem, Db.offAt, hi]
    · rcases k with ⟨i, f⟩
      by_cases hi : i = db.itemsused
      · subst hi
        rcases f with _ | _ | _ | _ <;>
          simp [Db.newItem, Db.spanAt, Item.spanAt, Item.room, Sbuf.item, newText]
      · simp [Db.newItem, Db.spanAt, hi, newText]

/-- `kwdb_AddEntry` of texts that can be read. -/
theorem Rep.addEntry (hheap : ∀ n, heap n = true) (hr : Rep db L T txt)
    (hread : Reads heap db.sbuf a₀ a₁ a₂ a₃ s₀ s₁ s₂ s₃) (hs₀ : Storable s₀) (hs₁ : Storable s₁)
    (hs₂ : Storable s₂) (hs₃ : Storable s₃) (hh : s₀ ≠ [] → 0 ≤ hash s₀) :
    ∃ db', db.addEntry heap a₀ a₁ a₂ a₃ = some (db', (db.itemsused : Int)) ∧
      db'.sbuf = (((db.sbuf.add s₀).add s₁).add s₂).add s₃ ∧
      Rep db' (L ++ [⟨db.itemsused, s₀, s₁, s₂, s₃⟩]) (pushThread T s₀ db.itemsused)
        (newText txt db.itemsused s₀ s₁ s₂ s₃) := by
  have hfresh : db.itemsused ∉ L.map Entry.ep := fun hm => lt_irrefl _ (hr.lists.slots _ hm)
  obtain ⟨db', henter, hlists, hsb, hoff, hspan⟩ :=
    hr.lists.add (e := ⟨db.itemsused, s₀, s₁, s₂, s₃⟩)
      ((((db.sbuf.add s₀).add s₁).add s₂).add s₃) (db.sbuf.item s₀ s₁ s₂ s₃)
      (Db.lt_moreItems hr.lists.room) rfl rfl rfl hh
  have htexts := hr.texts.add hfresh hs₀ hs₁ hs₂ hs₃ { db' with nitems := db'.nitems + 1 }
    hsb hoff hspan
  refine ⟨{ db' with nitems := db'.nitems + 1 }, ?_, hsb, hlists, htexts⟩
  rw [Db.addEntry_eq hheap hread, henter]
  rfl

/-- Strings of the caller can be read. -/
theorem reads_text (hheap : ∀ n, heap n = true) {sb : Sbuf} (hu : sb.used ≤ sb.len)
    (ha₀ : ∀ sb : Sbuf, sb.read a₀ = some s₀) (ha₁ : ∀ sb : Sbuf, sb.read a₁ = some s₁)
    (ha₂ : ∀ sb : Sbuf, sb.read a₂ = some s₂) (ha₃ : ∀ sb : Sbuf, sb.read a₃ = some s₃) (hs₀ : Storable s₀)
    (hs₁ : Storable s₁) (hs₂ : Storable s₂) (hs₃ : Storable s₃) :
    Reads heap sb a₀ a₁ a₂ a₃ s₀ s₁ s₂ s₃ := by
  have hu₁ := Sbuf.add_used_le hu hs₀.short
  have hu₂ := Sbuf.add_used_le hu₁ hs₁.short
  have hu₃ := Sbuf.add_used_le hu₂ hs₂.short
  exact ⟨Sbuf.addstr_text hheap ha₀ hu hs₀.short, Sbuf.addstr_text hheap ha₁ hu₁ hs₁.short,
    Sbuf.addstr_text hheap ha₂ hu₂ hs₂.short, Sbuf.addstr_text hheap ha₃ hu₃ hs₃.short, ha₁ _, ha₂ _, ha₃ _, ha₀ _⟩

/-- `kwdb_AddEntry` of strings of the caller. -/
theorem Rep.add (hheap : ∀ n, heap n = true) (hr : Rep db L T txt) (keyword value type comment : Option CStr)
    (hs : ∀ s ∈ [textOf keyword, textOf value, textOf type, textOf comment], s.length < defSzsbuf)
    (hh : 0 ≤ hash (textOf keyword)) :
    ∃ db', db.call heap (.add keyword value type comment) = some (db', (db.itemsused : Int)) ∧
      db'.sbuf = (((db.sbuf.add (textOf keyword)).add (textOf value)).add (textOf type)).add (textOf comment) ∧
      Rep db' (Call.next L db.itemsused (.add keyword value type comment))
        (pushThread T (textOf keyword) db.itemsused)
        (newText txt db.itemsused (textOf keyword) (textOf value) (textOf type) (textOf comment)) := by
  have hs₀ : Storable (textOf keyword) := ⟨noNull_textOf _, hs _ (by simp)⟩
  have hs₁ : Storable (textOf value) := ⟨noNull_textOf _, hs _ (by simp)⟩
  have hs₂ : Storable (textOf type) := ⟨noNull_textOf _, hs _ (by simp)⟩
  have hs₃ : Storable (textOf comment) := ⟨noNull_textOf _, hs _ (by simp)⟩
  have hread := reads_text hheap hr.texts.used (read_ofOption keyword) (read_ofOption value)
    (read_ofOption type) (read_ofOption comment) hs₀ hs₁ hs₂ hs₃
  exact hr.addEntry hheap hread hs₀ hs₁ hs₂ hs₃ fun _ => hh

end Add

/-! ## Pointers into the string buffer -/

/-- The buffer `sb'` is `sb` with more strings in the same block. -/
structure Sbuf.Extends (sb sb' : Sbuf) : Prop where
  block : sb'.block = sb.block
  len : sb'.len = sb.len
  used : sb.used ≤ sb'.used
  chars : ∀ j < sb.used, sb'.chars j = sb.chars j

/-- There is room for `n` more bytes without a reallocation. -/
def Sbuf.HasRoom (sb : Sbuf) (n : Nat) : Prop := n = 0 ∨ sb.used + n < sb.len

instance (sb : Sbuf) (n : Nat) : Decidable (sb.HasRoom n) := inferInstanceAs (Decidable (_ ∨ _))

/-- The argument points to `s`, and still does when strings were added to the same block. -/
def Arg.Stable (sb : Sbuf) (a : Arg) (s : Str) : Prop := ∀ sb', sb.Extends sb' → sb'.read a = some s

namespace Sbuf

variable {sb sb' : Sbuf} {s : Str} {a : Arg} {n : Nat}

theorem Extends.refl (sb : Sbuf) : sb.Extends sb := ⟨rfl, rfl, le_rfl, fun _ _ => rfl⟩

theorem Extends.add (hx : sb.Extends sb') (hfit : sb'.HasRoom (size s)) : sb.Extends (sb'.add s) where
  block := (add_block hfit).trans hx.block
  len := (add_len hfit).trans hx.len
  used := by
    have := hx.used
    rw [add_used]
    omega
  chars j hj := by
    have hu := hx.used
    rw [← hx.chars j hj, Sbuf.add]
    split
    · rfl
    · exact strcpy_of_not_mem (by omega)

/-- Adding a string to an extended buffer with room for it. -/
theorem Extends.addstr (hheap : ∀ n, heap n = true) (hx : sb.Extends sb') (ha : a.Stable sb s)
    (hfit : sb'.HasRoom (size s)) :
    sb'.addstr heap a = some (sb'.add s, sb'.slot s) := by
  refine addstr_eq (hheap _) (ha sb' hx) fun h0 hg => ?_
  unfold HasRoom size at hfit
  rw [if_neg h0] at hfit
  omega

/-- A string that is to be appended after others. -/
theorem HasRoom.left {m : Nat} (h : sb.HasRoom (n + m)) : sb.HasRoom n := by
  unfold HasRoom at *
  omega

theorem HasRoom.add {m : Nat} (h : sb.HasRoom (size s + m)) : (sb.add s).HasRoom m := by
  have hlen : (sb.add s).len = sb.len := add_len h.left
  unfold HasRoom at *
  rw [hlen, add_used]
  omega

theorem HasRoom.append {m : Nat} (h : sb.HasRoom (size s)) (h' : (sb.add s).HasRoom m) :
    sb.HasRoom (size s + m) := by
  have hlen : (sb.add s).len = sb.len := add_len h
  unfold HasRoom at *
  rw [hlen, add_used] at h'
  omega

/-- A pointer into a block that was released. -/
theorem addstr_stale {block off : Nat} (hb : block ≠ sb.block) : sb.addstr heap (.ref block off) = none := by
  rw [Sbuf.addstr, Sbuf.read, if_neg hb, Option.bind_none]

/-- A pointer into the buffer that has to grow for its own string. -/
theorem addstr_grow {off : Nat} (hheap : ∀ n, heap n = true) (ha : sb.read (.ref sb.block off) = some s)
    (hroom : ¬ sb.HasRoom (size s)) : sb.addstr heap (.ref sb.block off) = none := by
  unfold HasRoom size at hroom
  split at hroom
  · simp at hroom
  · next h0 =>
    rw [Sbuf.addstr, ha, Option.bind_some, if_neg h0, if_pos (by omega), if_pos (hheap _), Sbuf.read, if_neg,
      Option.bind_none]
    simp [Sbuf.realloc]

/-- A string of the caller for which the buffer has to grow. -/
theorem add_block_grow (hroom : ¬ sb.HasRoom (size s)) : (sb.add s).block = sb.block + 1 := by
  unfold HasRoom size at hroom
  split at hroom
  · simp at hroom
  · next h0 =>
    rw [Sbuf.add, if_neg h0]
    exact if_pos (by omega)

end Sbuf

theorem Arg.stable_text (sb : Sbuf) (s : Str) : (Arg.text s).Stable sb s := fun _ _ => rfl

/-- A pointer to a text of an entry. -/
theorem Texts.stable (ht : Texts db L txt) (he : e ∈ L) (f : Option Db.Field) :
    (Arg.ref db.sbuf.block (db.offAt (e.ep, f))).Stable db.sbuf (e.textAt f) := by
  intro sb' hx
  have hlive : e.ep ∈ L.map Entry.ep := List.mem_map_of_mem he
  have hfits := ht.layout.fits (e.ep, f) hlive
  have hbound := ht.layout.bound (e.ep, f) hlive
  have hused := ht.used
  have hlen := hx.len
  have hholds : Holds sb'.chars (db.offAt (e.ep, f)) (txt (e.ep, f)) :=
    (ht.layout.holds (e.ep, f) hlive).congr fun j _ hj => hx.chars j (by omega)
  rw [Sbuf.read, if_pos hx.block.symm, ← ht.text e he f, Sbuf.str,
    hholds.strAt (ht.layout.noNull (e.ep, f) hlive) (by omega)]

/-- Pointers into a buffer that does not grow can be read to the end. -/
theorem reads_stable {sb : Sbuf} {a₀ a₁ a₂ a₃ : Arg} {s₀ s₁ s₂ s₃ : Str} (hheap : ∀ n, heap n = true)
    (ha₀ : a₀.Stable sb s₀) (ha₁ : a₁.Stable sb s₁) (ha₂ : a₂.Stable sb s₂) (ha₃ : a₃.Stable sb s₃)
    (hroom : sb.HasRoom (Sbuf.size s₀ + (Sbuf.size s₁ + (Sbuf.size s₂ + Sbuf.size s₃)))) :
    Reads heap sb a₀ a₁ a₂ a₃ s₀ s₁ s₂ s₃ := by
  have hr₁ := hroom.add
  have hr₂ := hr₁.add
  have hr₃ := hr₂.add
  have hx₀ := Sbuf.Extends.refl sb
  have hx₁ := hx₀.add hroom.left
  have hx₂ := hx₁.add hr₁.left
  have hx₃ := hx₂.add hr₂.left
  have hx₄ := hx₃.add hr₃
  exact ⟨hx₀.addstr hheap ha₀ hroom.left, hx₁.addstr hheap ha₁ hr₁.left, hx₂.addstr hheap ha₂ hr₂.left,
    hx₃.addstr hheap ha₃ hr₃, ha₁ _ hx₂, ha₂ _ hx₃, ha₃ _ hx₄, ha₀ _ hx₄⟩

/-- Pointers into a buffer that grows are read after the block was released. -/
theorem Db.addEntry_grow {a₀ : Arg} {s₀ s₁ s₂ s₃ : Str} {o₁ o₂ o₃ : Nat} (hheap : ∀ n, heap n = true)
    (hu : db.sbuf.used ≤ db.sbuf.len) (hcase : a₀ = .text s₀ ∨ ∃ o₀, a₀ = .ref db.sbuf.block o₀)
    (ha₀ : a₀.Stable db.sbuf s₀) (ha₁ : (Arg.ref db.sbuf.block o₁).Stable db.sbuf s₁)
    (ha₂ : (Arg.ref db.sbuf.block o₂).Stable db.sbuf s₂) (ha₃ : (Arg.ref db.sbuf.block o₃).Stable db.sbuf s₃)
    (hs₀ : Storable s₀)
    (hroom : ¬ db.sbuf.HasRoom (Sbuf.size s₀ + (Sbuf.size s₁ + (Sbuf.size s₂ + Sbuf.size s₃)))) :
    db.addEntry heap a₀ (.ref db.sbuf.block o₁) (.ref db.sbuf.block o₂) (.ref db.sbuf.block o₃) = none := by
  have hx₀ := Sbuf.Extends.refl db.sbuf
  unfold Db.addEntry
  rw [if_neg (by simp [hheap])]
  simp only [Option.bind_eq_bind]
  by_cases hr₀ : db.sbuf.HasRoom (Sbuf.size s₀)
  · have hx₁ := hx₀.add hr₀
    simp only [hx₀.addstr hheap ha₀ hr₀, Option.bind_some]
    rw [← hx₁.block] at ha₁ ha₂ ha₃ ⊢
    by_cases hr₁ : (db.sbuf.add s₀).HasRoom (Sbuf.size s₁)
    · have hx₂ := hx₁.add hr₁
      simp only [hx₁.addstr hheap ha₁ hr₁, ha₁ _ hx₂, Option.bind_some]
      rw [hx₁.block, ← hx₂.block] at ha₂ ha₃ ⊢
      by_cases hr₂ : ((db.sbuf.add s₀).add s₁).HasRoom (Sbuf.size s₂)
      · have hx₃ := hx₂.add hr₂
        simp only [hx₂.addstr hheap ha₂ hr₂, ha₂ _ hx₃, Option.bind_some]
        rw [hx₂.block, ← hx₃.block] at ha₃ ⊢
        by_cases hr₃ : (((db.sbuf.add s₀).add s₁).add s₂).HasRoom (Sbuf.size s₃)
        · exact absurd (hr₀.append (hr₁.append (hr₂.append hr₃))) hroom
        · rw [Sbuf.addstr_grow hheap (ha₃ _ hx₃) hr₃, Option.bind_none]
      · rw [Sbuf.addstr_grow hheap (ha₂ _ hx₂) hr₂, Option.bind_none]
    · rw [Sbuf.addstr_grow hheap (ha₁ _ hx₁) hr₁, Option.bind_none]
  · rcases hcase with rfl | ⟨o₀, rfl⟩
    · have hstale : db.sbuf.block ≠ (db.sbuf.add s₀).block := by
        rw [Sbuf.add_block_grow hr₀]
        omega
      have hadd : db.sbuf.addstr heap (.text s₀) = some (db.sbuf.add s₀, db.sbuf.slot s₀) :=
        Sbuf.addstr_text hheap (fun _ => rfl) hu hs₀.short
      simp only [hadd, Sbuf.addstr_stale hstale, Option.bind_some, Option.bind_none]
    · simp only [Sbuf.addstr_grow hheap (ha₀ _ hx₀) hr₀, Option.bind_none]

end Ndhs.Kwdb
