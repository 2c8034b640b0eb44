import Ndhs.Kwdb.Refine

/-!
# Renaming entries

`kwdb_RenameEntry` takes the entry out of the thread of its old name and puts it in front of the thread of the
new one. If that thread is empty it leaves the link of the entry as it was:

    if (i = db->hashtbl[hashval])
        itp->nexthash = i;

`kwdb_AddEntry` has the same two lines, but there the link was set to zero before. So a renamed entry can carry its
old link into the new thread (`Call.NoStale` says that it does not). From there on the new thread has entries of
another name, or of no list at all, and it can be closed to a cycle in which `kwdb_Lookup` never ends
(`rename_cycle`). `renames_iff`: the threads are right in every state of a history exactly if no call takes
a stale link along.
-/

namespace Ndhs.Kwdb

open Text Buffer Linked Function Machine

variable {heap : Nat → Bool} {db : Db} {L : List Entry} {T : Nat → List Nat}
  {txt : Nat × Option Db.Field → Str} {h : Nat} {e : Entry}

/-- The list after the entry `x` is renamed. -/
def renameAt (L : List Entry) (x : Nat) (n : Str) : List Entry :=
  L.map fun e => if e.ep = x then { e with name := n } else e

theorem renameAt_ep (x : Nat) (n : Str) : (renameAt L x n).map Entry.ep = L.map Entry.ep := by
  rw [renameAt, List.map_map]
  refine List.map_congr_left fun e _ => ?_
  simp only [comp_apply]
  split <;> rfl

theorem renameAt_text (ht : ∀ e ∈ L, ∀ f, txt (e.ep, f) = e.textAt f) (x : Nat) (n : Str) :
    ∀ e ∈ renameAt L x n, ∀ f, update txt (x, none) n (e.ep, f) = e.textAt f := by
  intro e' he' f
  obtain ⟨e, he, rfl⟩ := List.mem_map.mp he'
  by_cases hx : e.ep = x
  · simp only [if_pos hx]
    rcases f with _ | f
    · simp [hx, Entry.textAt]
    · rw [update_of_ne (by simp), ht e he]
      cases f <;> rfl
  · rw [if_neg hx, update_of_ne (by simp [hx]), ht e he]

theorem Db.offAt_setName {x off : Nat} {sbuf : Sbuf} :
    Db.offAt { db.setName x off with sbuf } = update db.offAt (x, none) off := by
  funext ⟨i, f⟩
  by_cases hi : i = x
  · subst hi
    rcases f with _ | f
    · simp [Db.offAt, Db.setName, Item.offAt]
    · rw [update_of_ne (by simp)]
      cases f <;> simp [Db.offAt, Db.setName, Item.offAt, Item.off]
  · simp [Db.offAt, Db.setName, update_of_ne, hi]

theorem Db.spanAt_setName {x off : Nat} {sbuf : Sbuf} {n : Str} :
    Db.spanAt { db.setName x off with sbuf } (update txt (x, none) n) =
      update (db.spanAt txt) (x, none) n.length := by
  funext ⟨i, f⟩
  by_cases hi : i = x
  · subst hi
    rcases f with _ | f
    · simp [Db.spanAt, Item.spanAt]
    · rw [update_of_ne (by simp)]
      cases f <;> simp [Db.spanAt, Db.setName, Item.spanAt, Item.room]
  · simp [Db.spanAt, Db.setName, update_of_ne, hi]

/-- The links after an entry has a new name. -/
theorem Lists.rename (hl : Lists db L T) (he : e ∈ L) {n : Str} {nh ht : Nat → Nat} {off : Nat} {sbuf : Sbuf}
    (hc : ∀ g, Chain nh (ht g) (pushThread (fun h => (T h).erase e.ep) n e.ep g)) (hn : n ≠ [] → 0 ≤ hash n) :
    Lists { (db.rethread nh ht).setName e.ep off with sbuf } (renameAt L e.ep n)
      (pushThread (fun h => (T h).erase e.ep) n e.ep) := by
  have hitab : ∀ i, (((db.rethread nh ht).setName e.ep off).itab i).nextglob = (db.itab i).nextglob ∧
      (((db.rethread nh ht).setName e.ep off).itab i).nexthash = nh i := by
    intro i
    by_cases hi : i = e.ep
    · subst hi
      simp [Db.setName, Db.rethread]
    · simp [Db.setName, Db.rethread, update_of_ne hi]
  refine ⟨?_, ?_, ?_, ?_, hl.room, hl.pos, ?_, fun g => ?_, fun g x => ?_, ?_⟩
  · rw [renameAt_ep]
    exact hl.glob.congr fun i _ => (hitab i).1
  · rw [renameAt_ep]
    exact hl.tail
  · rw [renameAt_ep]
    exact hl.sorted
  · rw [renameAt_ep]
    exact hl.slots
  · rw [renameAt, List.length_map]
    exact hl.count
  · exact (hc g).congr fun i _ => (hitab i).2
  · rw [mem_pushThread, (hl.threads g).nodup.mem_erase_iff, hl.mem]
    constructor
    · rintro (⟨rfl, hn0, hh⟩ | ⟨hxe, e', he', rfl, hn'⟩)
      · exact ⟨{ e with name := n }, List.mem_map.mpr ⟨e, he, if_pos rfl⟩, rfl, hn0, hh⟩
      · exact ⟨e', List.mem_map.mpr ⟨e', he', if_neg hxe⟩, rfl, hn'⟩
    · rintro ⟨e', he', rfl, hn0, hh⟩
      obtain ⟨e₁, he₁, rfl⟩ := List.mem_map.mp he'
      by_cases hx : e₁.ep = e.ep
      · simp only [if_pos hx] at hn0 hh ⊢
        exact .inl ⟨hx, hn0, hh⟩
      · simp only [if_neg hx] at hn0 hh ⊢
        exact .inr ⟨hx, e₁, he₁, rfl, hn0, hh⟩
  · intro e' he' hn0
    obtain ⟨e₁, he₁, rfl⟩ := List.mem_map.mp he'
    by_cases hx : e₁.ep = e.ep
    · simp only [if_pos hx] at hn0 ⊢
      exact hn hn0
    · simp only [if_neg hx] at hn0 ⊢
      exact hl.hashed e₁ he₁ hn0

/-- What `kwdb_RenameEntry` does once the threads are known. -/
theorem Rep.renameEntry_eq (hheap : ∀ n, heap n = true) (hr : Rep db L T txt) (he : e ∈ L)
    {newname : Option CStr} (hs : (textOf newname).length < defSzsbuf) {nh ht nh' ht' : Nat → Nat}
    (hleave : db.leave e.ep = some (db.rethread nh ht))
    (henter : (db.rethread nh ht).enter e.ep (textOf newname) = some (db.rethread nh' ht')) :
    db.renameEntry heap e.ep newname = some ({ (db.rethread nh' ht').setName e.ep
      (db.sbuf.slot (textOf newname)) with sbuf := db.sbuf.add (textOf newname) }, 0) := by
  rw [Db.renameEntry, if_neg (hr.lists.le_tail he), hleave]
  simp only [Option.bind_eq_bind, Option.bind_some, read_ofOption]
  by_cases h0 : textOf newname = []
  · rw [h0, Db.enter, if_pos rfl, Option.some.injEq] at henter
    rw [if_pos h0, h0, henter]
    rfl
  · have hadd := Sbuf.addstr_text hheap (read_ofOption newname) hr.texts.used hs
    rw [if_neg h0, henter, Option.bind_some, Db.rethread_sbuf, hadd, Option.bind_some]

/-- The texts after an entry has a new name. -/
theorem Texts.rename (ht : Texts db L txt) {n : Str} {nh hb : Nat → Nat} (hs : Storable n) (x : Nat) :
    Texts { (db.rethread nh hb).setName x (db.sbuf.slot n) with sbuf := db.sbuf.add n } (renameAt L x n)
      (update txt (x, none) n) := by
  refine ⟨renameAt_text ht.text x n, ?_, Sbuf.add_used_le ht.used hs.short⟩
  rw [Db.offAt_setName, Db.spanAt_setName, Db.rethread_offAt, Db.rethread_spanAt]
  refine (Sbuf.layout_add db.sbuf ht.layout (x, none) hs.noNull).mono fun k hk => .inr ?_
  rwa [renameAt_ep] at hk

/-- `kwdb_RenameEntry` of an entry whose link is not stale. -/
theorem Rep.renameEntry (hheap : ∀ n, heap n = true) (hr : Rep db L T txt) (he : e ∈ L)
    {newname : Option CStr} (hs : Storable (textOf newname)) (hh : 0 ≤ hash (textOf newname))
    (hlink : ∀ g : Nat, textOf newname ≠ [] → hash (textOf newname) = g → (T g).erase e.ep = [] →
      db.nexthash e.ep = 0) :
    ∃ db', db.renameEntry heap e.ep newname = some (db', 0) ∧
      Rep db' (renameAt L e.ep (textOf newname))
        (pushThread (fun h => (T h).erase e.ep) (textOf newname) e.ep)
        (update txt (e.ep, none) (textOf newname)) := by
  obtain ⟨nh, ht, hleave, hchain, hself⟩ := hr.leave he
  obtain ⟨nh', ht', henter, hchain'⟩ := Db.enter_chain (db.rethread nh ht) (x := e.ep) hchain
    (hr.lists.ep_ne_zero he) (fun g => (hr.lists.threads g).nodup.not_mem_erase) (fun _ => hh)
    fun g hn hg hT => hself.trans (hlink g hn hg hT)
  exact ⟨_, hr.renameEntry_eq hheap he hs.short hleave henter, hr.lists.rename he hchain' fun _ => hh,
    hr.texts.rename hs e.ep⟩

/-! ## Histories -/

/-- A database, the list that it is to show, and the call before with the database and the list then. -/
structure History where
  db : Db
  entries : List Entry
  last : Option (Db × List Entry × Call)

/-- One call. -/
def History.step (heap : Nat → Bool) (s : History) (c : Call) : Option History :=
  (s.db.call heap c).map fun (db, r) => ⟨db, c.next s.entries r, some (s.db, s.entries, c)⟩

/-- Each thread is a list with an end, of exactly the keywords with its hash value, and every lookup ends. -/
structure Threaded (db : Db) (L : List Entry) : Prop where
  walk : db.walk = some (L.map Entry.ep)
  threads : ∀ h, ∃ l, Chain db.nexthash (db.hashtbl h) l ∧ l.Nodup ∧
    ∀ x, x ∈ l ↔ ∃ e ∈ L, e.ep = x ∧ e.name ≠ [] ∧ hash e.name = h
  ends : ∀ k i, 0 ≤ hash k → ∃ ep, db.lookup k i = some ep

/-- The entry `ep` of `L` has the new name `n`, at its old place. -/
structure Renamed (db : Db) (L : List Entry) (ep : Nat) (n : Str) (db' : Db) : Prop where
  walk : db'.walk = db.walk
  found : n ≠ [] → db'.lookup n 0 = some ep
  gone : ∀ e ∈ L, e.ep = ep → streq e.name n = false → ∀ i, db'.lookup e.name i ≠ some ep

/-- What holds of a history: the threads are right, and the last call, if it was a rename, did its work. -/
def History.Good (s : History) : Prop :=
  Threaded s.db s.entries ∧
    ∀ db L ep n, s.last = some (db, L, .rename ep n) → Renamed db L ep (textOf n) s.db

/-- The calls of a history: entry pointers are those of entries, names hash to an index of the table, and
strings are shorter than `DEF_SZSBUF`. -/
def Call.IsEdit (L : List Entry) : Call → Prop
  | .add keyword value type comment =>
    0 ≤ hash (textOf keyword) ∧
      ∀ s ∈ [textOf keyword, textOf value, textOf type, textOf comment], s.length < defSzsbuf
  | .set _ _ _ => False
  | .delete ep => ep ∈ L.map Entry.ep
  | .rename ep newname =>
    ep ∈ L.map Entry.ep ∧ 0 ≤ hash (textOf newname) ∧ (textOf newname).length < defSzsbuf

/-- An entry that is the first one with the hash value of its new name has no link. -/
def Call.NoStale (db : Db) (L : List Entry) : Call → Prop
  | .rename ep newname =>
    textOf newname ≠ [] →
      (∀ e ∈ L, e.ep ≠ ep → e.name ≠ [] → hash e.name ≠ hash (textOf newname)) → db.nexthash ep = 0
  | _ => True

theorem Rep.threaded (hr : Rep db L T txt) : Threaded db L := by
  refine ⟨hr.lists.walk, fun h => ⟨T h, hr.lists.threads h, (hr.lists.threads h).nodup, hr.lists.mem h⟩,
    fun k i hk => ?_⟩
  obtain ⟨h, hh⟩ : ∃ h : Nat, hash k = h := ⟨_, (Int.toNat_of_nonneg hk).symm⟩
  exact ⟨_, hr.lookup hh i⟩

theorem mem_of_getD {l : List Nat} {i x : Nat} (h : l.getD i 0 = x) (hx : x ≠ 0) : x ∈ l := by
  rw [List.getD_eq_getElem?_getD] at h
  cases hget : l[i]? with
  | none =>
    rw [hget] at h
    exact absurd h.symm hx
  | some y =>
    rw [hget, Option.getD_some] at h
    exact h ▸ List.mem_of_getElem? hget

/-- A renamed entry is the first one that a lookup of its new name finds, and no lookup of its old name
finds it. -/
theorem Rep.renamed (hr : Rep db L T txt) {n : Str} {db' : Db} {T' : Nat → List Nat} (he : e ∈ L)
    (hn : 0 ≤ hash n) (hr' : Rep db' (renameAt L e.ep n) (pushThread T' n e.ep) (update txt (e.ep, none) n)) :
    Renamed db L e.ep n db' := by
  have hself : ∀ s : Str, streq s s = true := fun s => by simp [streq]
  refine ⟨?_, fun h0 => ?_, fun e' he' hep hne i hlook => ?_⟩
  · rw [hr'.lists.walk, hr.lists.walk, renameAt_ep]
  · obtain ⟨g, hg⟩ : ∃ g : Nat, hash n = g := ⟨_, (Int.toNat_of_nonneg hn).symm⟩
    rw [hr'.lookup hg, pushThread, if_pos ⟨h0, hg⟩, List.filter_cons_of_pos (by simp [hself])]
    rfl
  · obtain rfl : e' = e := hr.lists.ep_inj he' he hep
    have hold : 0 ≤ hash e'.name := by
      by_cases h0 : e'.name = []
      · rw [h0]
        exact le_rfl
      · exact hr.lists.hashed e' he h0
    obtain ⟨g, hg⟩ : ∃ g : Nat, hash e'.name = g := ⟨_, (Int.toNat_of_nonneg hold).symm⟩
    rw [hr'.lookup hg, Option.some.injEq] at hlook
    -- the entry would be in the thread under its old name
    have heq := (List.mem_filter.mp (mem_of_getD hlook (hr.lists.ep_ne_zero he))).2
    rw [update_self] at heq
    rw [streq, beq_eq_false_iff_ne] at hne
    exact hne (toLower_streq heq).symm

/-- Every history represents its list. -/
def History.Inv (s : History) : Prop := ∃ T txt, Rep s.db s.entries T txt

/-- The thread of the new name, without the entry. -/
theorem Rep.erase_eq_nil (hr : Rep db L T txt) {n : Str} (hh : hash n = h) {x : Nat} :
    (T h).erase x = [] ↔ ∀ e ∈ L, e.ep ≠ x → e.name ≠ [] → hash e.name ≠ hash n := by
  rw [List.eq_nil_iff_forall_not_mem]
  simp only [(hr.lists.threads h).nodup.mem_erase_iff, hr.lists.mem, hh]
  constructor
  · intro hall e he hx hn hc
    exact hall e.ep ⟨hx, e, he, rfl, hn, hc⟩
  · rintro hall _ ⟨hx, e, he, rfl, hn, hc⟩
    exact hall e he hx hn hc

/-- A call without a stale link keeps the threads right. -/
theorem History.step_good (hheap : ∀ n, heap n = true) {s : History} {c : Call} (hi : s.Inv)
    (hc : c.IsEdit s.entries) (hl : c.NoStale s.db s.entries) :
    ∃ t, s.step heap c = some t ∧ t.Inv ∧ t.Good := by
  obtain ⟨T, txt, hr⟩ := hi
  cases c with
  | add keyword value type comment =>
    obtain ⟨db', hcall, -, hr'⟩ := hr.add hheap keyword value type comment hc.2 hc.1
    refine ⟨_, by rw [History.step, hcall]; rfl, ⟨_, _, hr'⟩, hr'.threaded, fun db L ep n hlast => ?_⟩
    cases hlast
  | set => exact hc.elim
  | delete ep =>
    obtain ⟨e, he, rfl⟩ := List.mem_map.mp hc
    obtain ⟨db', hcall, hr'⟩ := hr.deleteEntry he
    refine ⟨_, by rw [History.step, Db.call, hcall]; rfl, ⟨_, _, hr'⟩, hr'.threaded, fun db L ep n hlast => ?_⟩
    cases hlast
  | rename ep newname =>
    obtain ⟨hlive, hh, hshort⟩ := hc
    obtain ⟨e, he, rfl⟩ := List.mem_map.mp hlive
    obtain ⟨db', hcall, hr'⟩ := hr.renameEntry hheap he ⟨noNull_textOf newname, hshort⟩ hh
      fun g hn hg hT => hl hn ((hr.erase_eq_nil hg).mp hT)
    refine ⟨_, by rw [History.step, Db.call, hcall]; rfl, ⟨_, _, hr'⟩, hr'.threaded, fun db L ep n hlast => ?_⟩
    cases hlast
    exact hr.renamed he hh hr'

instance (L : List Entry) (c : Call) : Decidable (c.IsEdit L) :=
  match c with
  | .add .. => inferInstanceAs (Decidable (_ ∧ _))
  | .set .. => .isFalse id
  | .delete ep => inferInstanceAs (Decidable (ep ∈ _))
  | .rename .. => inferInstanceAs (Decidable (_ ∧ _))

instance (db : Db) (L : List Entry) (c : Call) : Decidable (c.NoStale db L) :=
  match c with
  | .add .. => .isTrue trivial
  | .set .. => .isTrue trivial
  | .delete _ => .isTrue trivial
  | .rename _ _ => inferInstanceAs (Decidable (_ → _ → _))

/-- An entry that takes a stale link along brings the cell behind it into the wrong thread. -/
theorem History.step_stale (hheap : ∀ n, heap n = true) {s t : History} {c : Call} (hi : s.Inv)
    (hc : c.IsEdit s.entries) (hl : ¬ c.NoStale s.db s.entries) (hst : s.step heap c = some t) :
    ¬ t.Good := by
  obtain ⟨T, txt, hr⟩ := hi
  cases c with
  | rename ep newname =>
    obtain ⟨hlive, hh, hshort⟩ := hc
    obtain ⟨e, he, rfl⟩ := List.mem_map.mp hlive
    obtain ⟨hn, hl⟩ := Classical.not_imp.mp hl
    obtain ⟨hothers, hlink⟩ := Classical.not_imp.mp hl
    obtain ⟨g, hg⟩ : ∃ g : Nat, hash (textOf newname) = g := ⟨_, (Int.toNat_of_nonneg hh).symm⟩
    obtain ⟨nh, ht, hleave, hchain, hself⟩ := hr.leave he
    have hempty : ht g = 0 := by
      have hcg := hchain g
      rwa [(hr.erase_eq_nil hg).mpr hothers] at hcg
    have henter : (s.db.rethread nh ht).enter e.ep (textOf newname) =
        some (s.db.rethread nh (update ht g e.ep)) := by
      rw [Db.enter_eq hn hg, Db.rethread_hashtbl, if_pos hempty]
      rfl
    rw [History.step, Db.call, hr.renameEntry_eq hheap he hshort hleave henter, Option.map_some,
      Option.some.injEq] at hst
    subst hst
    rintro ⟨hthread, -⟩
    obtain ⟨l, hcl, hnd, hmem⟩ := hthread.threads g
    change Chain _ (update ht g e.ep g) l at hcl
    rw [update_self] at hcl
    -- the thread is the entry, and then what its old link leads to
    cases l with
    | nil => exact hr.lists.ep_ne_zero he hcl
    | cons a l =>
      obtain ⟨rfl, h0, hcl⟩ := hcl
      cases l with
      | nil =>
        refine hlink (hself.symm.trans ?_)
        simpa [Db.nexthash, Db.setName, Db.rethread] using hcl
      | cons b l =>
        obtain ⟨e', he', hb, hn', hh'⟩ := (hmem b).mp (by simp)
        have hbe : b ≠ e.ep := by
          rintro rfl
          simp at hnd
        obtain ⟨e₁, he₁, rfl⟩ := List.mem_map.mp he'
        have hne : e₁.ep ≠ e.ep := by
          intro hc
          rw [if_pos hc] at hb
          exact hbe (hb.symm.trans hc)
        rw [if_neg hne] at hn' hh'
        exact hothers e₁ he₁ hne hn' (hh'.trans hg.symm)
  | add => exact absurd trivial hl
  | set => exact hc.elim
  | delete => exact absurd trivial hl

/-- The history of a new database. -/
def History.new (db : Db) : History := ⟨db, [], none⟩

/-- The threads are right in every state of a history exactly if no call takes a stale link along. -/
theorem renames_iff (hheap : ∀ n, heap n = true) (size : Nat) (name : CStr)
    (hopen : Db.openDb heap size name = some db) {cs : List Call}
    (hedit : Steps (fun s c => Call.IsEdit s.entries c) (History.step heap) (History.new db) cs) :
    Always History.Good (History.step heap) (History.new db) cs ↔
      Steps (fun s c => Call.NoStale s.db s.entries c) (History.step heap) (History.new db) cs := by
  have hr := Rep.openDb hopen
  refine always_iff_steps_of_legal (I := fun s => s.Inv ∧ s.Good) (fun s hi => hi.2)
    (fun s c hi hc hl => History.step_good hheap hi.1 hc hl)
    (fun s c t hi hc hl hst => History.step_stale hheap hi.1 hc hl hst) ⟨⟨_, _, hr⟩, hr.threaded, ?_⟩ hedit
  intro db L ep n hlast
  cases hlast

/-- The name of an entry in the thread of another: no stale link. -/
theorem renames_two :
    Always History.Good (History.step fun _ => true) (History.new (Db.empty ['d']))
      [.add (some ⟨['A'], by decide⟩) none none none, .add (some ⟨['B'], by decide⟩) none none none,
        .rename 1 (some ⟨['B'], by decide⟩), .delete 2] :=
  (renames_iff (fun _ => rfl) 3300 ⟨['d'], by decide⟩ rfl (by decide +kernel)).mpr (by decide +kernel)

/-! ## A cycle -/

/-- Around two entries that link to each other, a lookup of any other keyword does not end. -/
theorem lookupLoop_cycle {k : Str} {x y : Nat} (hx : x ≠ 0) (hy : y ≠ 0) (hxy : db.nexthash x = y)
    (hyx : db.nexthash y = x) (hnx : streq (db.sbuf.str (db.itab x).name) k = false)
    (hny : streq (db.sbuf.str (db.itab y).name) k = false) (inst n j : Nat) :
    db.lookupLoop k inst n x j = none ∧ db.lookupLoop k inst n y j = none := by
  induction n with
  | zero =>
    obtain ⟨x, rfl⟩ := Nat.exists_eq_succ_of_ne_zero hx
    obtain ⟨y, rfl⟩ := Nat.exists_eq_succ_of_ne_zero hy
    exact ⟨rfl, rfl⟩
  | succ n ih =>
    rw [Db.lookupLoop.eq_3 _ _ _ _ _ _ hx, Db.lookupLoop.eq_3 _ _ _ _ _ _ hy, hnx, hny, hxy, hyx]
    exact ⟨ih.2, ih.1⟩

theorem noNull_A : '\x00' ∉ ['A'] := by decide
theorem noNull_B : '\x00' ∉ ['B'] := by decide

/-- Two entries with one name are renamed, the more recent one first. -/
def renameBoth : List Call :=
  [.add (some ⟨['A'], noNull_A⟩) none none none, .add (some ⟨['A'], noNull_A⟩) none none none,
    .rename 2 (some ⟨['B'], noNull_B⟩), .rename 1 (some ⟨['B'], noNull_B⟩)]

/-- The database after these calls. -/
def renamedBoth : History :=
  (run (History.step fun _ => true) (History.new (Db.empty ['d'])) renameBoth).getD (History.new (Db.empty []))

/-- The first rename takes the link to the other entry along, and the second one links that entry back: the new
thread is a cycle, and `kwdb_Lookup` of a third name in it does not end. -/
theorem rename_cycle :
    Db.openDb (fun _ => true) 3300 ⟨['d'], by decide⟩ = some (Db.empty ['d']) ∧
      Steps (fun s c => Call.IsEdit s.entries c) (History.step fun _ => true) (History.new (Db.empty ['d']))
        renameBoth ∧
      run (History.step fun _ => true) (History.new (Db.empty ['d'])) renameBoth = some renamedBoth ∧
      (∀ n, renamedBoth.db.lookupLoop ['B', 'B'] 0 n (renamedBoth.db.hashtbl (hash ['B', 'B']).toNat) 0 = none) ∧
      ¬ renamedBoth.Good := by
  have hsome : (run (History.step fun _ => true) (History.new (Db.empty ['d'])) renameBoth).isSome = true := by
    decide +kernel
  obtain ⟨t, ht⟩ := Option.isSome_iff_exists.mp hsome
  have hrun : renamedBoth = t := by rw [renamedBoth, ht, Option.getD_some]
  have hloop : ∀ n, renamedBoth.db.lookupLoop ['B', 'B'] 0 n
      (renamedBoth.db.hashtbl (hash ['B', 'B']).toNat) 0 = none := by
    have hhead : renamedBoth.db.hashtbl (hash ['B', 'B']).toNat = 1 := by decide +kernel
    have h₁ : renamedBoth.db.nexthash 1 = 2 := by decide +kernel
    have h₂ : renamedBoth.db.nexthash 2 = 1 := by decide +kernel
    have hn₁ : streq (renamedBoth.db.sbuf.str (renamedBoth.db.itab 1).name) ['B', 'B'] = false := by
      decide +kernel
    have hn₂ : streq (renamedBoth.db.sbuf.str (renamedBoth.db.itab 2).name) ['B', 'B'] = false := by
      decide +kernel
    intro n
    rw [hhead]
    exact (lookupLoop_cycle (by decide) (by decide) h₁ h₂ hn₁ hn₂ 0 n 0).1
  refine ⟨rfl, by decide +kernel, hrun ▸ ht, hloop, fun hgood => ?_⟩
  obtain ⟨ep, hep⟩ := hgood.1.ends ['B', 'B'] 0 (by decide)
  have hthread : thread ['B', 'B'] = some (hash ['B', 'B']).toNat := by decide
  rw [Db.lookup, hthread, Option.bind_some, hloop] at hep
  cases hep

end Ndhs.Kwdb
