import Ndhs.Kwdb.Rename

/-!
# Entry pointers without an entry

`kwdb_DeleteEntry` and `kwdb_RenameEntry` compare their entry pointer with the last entry of the list:

    if (ep <= 0 || ep > db->tail)
        return (-1);

The slot of a deleted entry below the last one passes this. `stale_iff`: a call with a pointer that no entry has
is refused exactly if the pointer is not in this range. `Rep.deleteEntry_stale` and `Rep.renameEntry_stale` are what
the calls do to a database otherwise: the number of entries is one too small, and the slot without an entry is
found under the new name.
-/

namespace Ndhs.Kwdb

open Text Buffer Linked Function Machine

variable {heap : Nat → Bool} {db : Db} {L : List Entry} {T : Nat → List Nat}
  {txt : Nat × Option Db.Field → Str}

/-- No entry of the list has this pointer. -/
def Stale (L : List Entry) (ep : Int) : Prop := ∀ e ∈ L, (e.ep : Int) ≠ ep

/-- The call returns -1, and the entries, their texts and order, their number and all lookups are as before. -/
def Refused (heap : Nat → Bool) (db : Db) (L : List Entry) (c : Call) : Prop :=
  ∃ db', db.call heap c = some (db', -1) ∧ db'.walk = db.walk ∧
    (∀ e ∈ L, db'.getEntry e.ep = db.getEntry e.ep) ∧ db'.len = db.len ∧
    ∀ k i, db'.lookup k i = db.lookup k i

theorem Refused.of_eq {c : Call} (h : db.call heap c = some (db, -1)) : Refused heap db L c :=
  ⟨db, h, rfl, fun _ _ => rfl, rfl, fun _ _ => rfl⟩

/-- A pointer in the range is never refused by `kwdb_DeleteEntry`. -/
theorem Db.deleteEntry_result {ep : Nat} {db' : Db} {r : Int} (hep : ¬ (ep = 0 ∨ db.tail < ep))
    (h : db.deleteEntry ep = some (db', r)) : r = 0 := by
  rw [Db.deleteEntry, if_neg hep] at h
  obtain ⟨db₁, -, h⟩ := Option.bind_eq_some_iff.mp h
  obtain ⟨db₂, -, h⟩ := Option.bind_eq_some_iff.mp h
  cases h
  rfl

/-- A pointer in the range is never refused by `kwdb_RenameEntry`. -/
theorem Db.renameEntry_result {ep : Nat} {n : Option CStr} {db' : Db} {r : Int}
    (hep : ¬ (ep = 0 ∨ db.tail < ep)) (h : db.renameEntry heap ep n = some (db', r)) : r = 0 := by
  rw [Db.renameEntry, if_neg hep] at h
  obtain ⟨db₁, -, h⟩ := Option.bind_eq_some_iff.mp h
  obtain ⟨name, -, h⟩ := Option.bind_eq_some_iff.mp h
  split at h
  · cases h
    rfl
  · obtain ⟨db₂, -, h⟩ := Option.bind_eq_some_iff.mp h
    obtain ⟨p, -, h⟩ := Option.bind_eq_some_iff.mp h
    cases h
    rfl

theorem refused_delete_iff {ep : Nat} : Refused heap db L (.delete ep) ↔ ep = 0 ∨ db.tail < ep := by
  constructor
  · rintro ⟨db', h, -⟩
    by_contra hep
    cases Db.deleteEntry_result hep h
  · intro hep
    exact .of_eq (if_pos hep)

theorem refused_rename_iff {ep : Nat} {n : Option CStr} :
    Refused heap db L (.rename ep n) ↔ ep = 0 ∨ db.tail < ep := by
  constructor
  · rintro ⟨db', h, -⟩
    by_contra hep
    cases Db.renameEntry_result hep h
  · intro hep
    exact .of_eq (if_pos hep)

/-- An entry pointer as the functions take it. -/
theorem toNat_range {ep : Int} {tail : Nat} : (ep.toNat = 0 ∨ tail < ep.toNat) ↔ ep ≤ 0 ∨ (tail : Int) < ep := by
  omega

/-! ## What a stale pointer does -/

/-- A chain that is not empty starts with one of its cells. -/
theorem head_mem {next : Nat → Nat} {i : Nat} {l : List Nat} (h : Chain next i l) (hi : i ≠ 0) : i ∈ l := by
  cases l with
  | nil => exact absurd h hi
  | cons j l => exact h.1 ▸ List.mem_cons_self

section

variable (hr : Rep db L T txt) {x : Nat} (hx : x ∉ L.map Entry.ep) (hpos : x ≠ 0)
include hr hx hpos

/-- There is nothing to take out of a thread. -/
theorem Rep.leave_stale {db' : Db} (h : db.leave x = some db') : db' = db := by
  unfold Db.leave at h
  by_cases h0 : (db.itab x).name = 0 ∨ db.sbuf.str (db.itab x).name = []
  · cases (if_pos h0).symm.trans h
    rfl
  · obtain ⟨g, -, h⟩ := Option.bind_eq_some_iff.mp ((if_neg h0).symm.trans h)
    have hxT : x ∉ T g := fun hm => hx (hr.lists.live_of_mem_thread hm)
    have hchain := hr.lists.threads g
    have hhead : x ≠ db.hashtbl g := fun h => hxT (h ▸ head_mem hchain (h ▸ hpos))
    have hpred := hchain.pred_not_mem hpos hxT (hr.lists.thread_length_le g)
    simp only [if_neg hhead, hpred, Option.map_some, if_pos, Option.some.injEq] at h
    exact h.symm

/-- Nor out of the global list. -/
theorem Rep.unlink_stale : db.unlink x = some db := by
  have hchain := hr.lists.glob
  have hhead : db.head ≠ x := fun h => hx (h ▸ head_mem hchain (h ▸ hpos))
  have htail : db.tail ≠ x := by
    rw [hr.lists.tail]
    rcases List.eq_nil_or_concat (L.map Entry.ep) with hl | ⟨l, t, hl⟩
    · rw [hl, last_nil]
      exact hpos.symm
    · rw [hl, List.concat_eq_append] at hx ⊢
      rw [last_concat]
      exact fun h => hx (h ▸ by simp)
  have hpred := hchain.pred_not_mem hpos hx hr.lists.length_le
  simp only [Db.unlink, if_neg hhead, hpred, Option.map_some, Db.skip, if_pos, Db.dropTail, if_neg htail]

/-- `kwdb_DeleteEntry` of a slot without an entry counts an entry less, and no more. -/
theorem Rep.deleteEntry_stale {db' : Db} {r : Int} (hle : ¬ (x = 0 ∨ db.tail < x))
    (h : db.deleteEntry x = some (db', r)) :
    r = 0 ∧ db' = { db with nitems := db.nitems - 1 } ∧ db'.len + 1 = db.len := by
  rw [Db.deleteEntry, if_neg hle] at h
  obtain ⟨db₁, hleave, h⟩ := Option.bind_eq_some_iff.mp h
  rw [hr.leave_stale hx hpos hleave, hr.unlink_stale hx hpos] at h
  cases h
  have hcount := hr.lists.count
  have hne : L ≠ [] := by
    rintro rfl
    have := hr.lists.tail
    rw [List.map_nil, last_nil] at this
    omega
  have := List.length_pos_iff.mpr hne
  refine ⟨rfl, rfl, ?_⟩
  change db.nitems - 1 + 1 = db.nitems
  omega

/-- `kwdb_RenameEntry` of a slot without an entry enters the slot under the name. -/
theorem Rep.renameEntry_enters (hheap : ∀ n, heap n = true) {n : Option CStr} {db' : Db} {r : Int}
    (hle : ¬ (x = 0 ∨ db.tail < x)) (hs : Storable (textOf n)) (hn : textOf n ≠ [])
    (h : db.renameEntry heap x n = some (db', r)) :
    r = 0 ∧ ∃ g nh, thread (textOf n) = some g ∧ db' = { (db.rethread nh (update db.hashtbl g x)).setName x
      (db.sbuf.slot (textOf n)) with sbuf := db.sbuf.add (textOf n) } := by
  rw [Db.renameEntry, if_neg hle] at h
  obtain ⟨db₁, hleave, h⟩ := Option.bind_eq_some_iff.mp h
  rw [hr.leave_stale hx hpos hleave, read_ofOption] at h
  simp only [Option.bind_eq_bind, Option.bind_some, if_neg hn] at h
  obtain ⟨db₂, henter, h⟩ := Option.bind_eq_some_iff.mp h
  obtain ⟨g, hg⟩ : ∃ g, thread (textOf n) = some g := by
    rw [Db.enter, if_neg hn] at henter
    obtain ⟨g, hg, -⟩ := Option.map_eq_some_iff.mp henter
    exact ⟨g, hg⟩
  rw [Db.enter_eq hn (thread_eq_some.mp hg), Option.some.injEq] at henter
  have hadd := Sbuf.addstr_text hheap (read_ofOption n) hr.texts.used hs.short
  rw [← henter, Db.rethread_sbuf, hadd, Option.bind_some, Option.some.injEq, Prod.mk.injEq] at h
  exact ⟨h.2.symm, g, _, hg, h.1.symm⟩

/-- The entries are as before, but the name is found in the slot without an entry. -/
theorem Rep.renameEntry_stale (hheap : ∀ n, heap n = true) {n : Option CStr} {db' : Db} {r : Int}
    (hle : ¬ (x = 0 ∨ db.tail < x)) (hs : Storable (textOf n)) (hn : textOf n ≠ [])
    (h : db.renameEntry heap x n = some (db', r)) :
    r = 0 ∧ db'.walk = db.walk ∧ db'.len = db.len ∧ db'.lookup (textOf n) 0 = some x := by
  obtain ⟨hr0, g, nh, hg, rfl⟩ := hr.renameEntry_enters hx hpos hheap hle hs hn h
  have hstr : (db.sbuf.add (textOf n)).str (db.sbuf.slot (textOf n)) = textOf n := by
    have hlay := Sbuf.layout_add db.sbuf hr.texts.layout (x, none) hs.noNull
    have := hlay.strAt (k := (x, none)) (.inl rfl) (Sbuf.add_used_le hr.texts.used hs.short)
    rwa [update_self, update_self] at this
  refine ⟨hr0, ?_, rfl, ?_⟩
  · have hnext : ((db.rethread nh (update db.hashtbl g x)).setName x (db.sbuf.slot (textOf n))).next = db.next := by
      funext i
      by_cases hi : i = x
      · simp [hi, Db.next, Db.setName, Db.rethread]
      · simp [Db.next, Db.setName, Db.rethread, update_of_ne hi]
    exact congrArg (fun f => Linked.walk f db.maxitems db.head) hnext
  · obtain ⟨m, hm⟩ : ∃ m, db.maxitems = m + 1 :=
      Nat.exists_eq_succ_of_ne_zero (by have := hr.lists.pos; have := hr.lists.room; omega)
    have hself : streq (textOf n) (textOf n) = true := by simp [streq]
    rw [Db.lookup, hg, Option.bind_some]
    simp only [Db.setName, Db.rethread, hm, Nat.zero_add, Nat.one_mul, update_self]
    rw [Db.lookupLoop.eq_3 _ _ _ _ _ _ hpos]
    simp only [update_self, hstr, hself, if_true]

end

/-! ## Histories -/

/-- What the calls do with the slot `x` if they are not refused. -/
structure Corrupts (heap : Nat → Bool) (db : Db) (x : Nat) : Prop where
  delete : ∀ db' r, db.deleteEntry x = some (db', r) → r = 0 ∧ db'.walk = db.walk ∧ db'.len + 1 = db.len
  rename : ∀ n db' r, db.renameEntry heap x n = some (db', r) → textOf n ≠ [] → Storable (textOf n) →
    r = 0 ∧ db'.walk = db.walk ∧ db'.len = db.len ∧ db'.lookup (textOf n) 0 = some x

theorem Rep.corrupts (hheap : ∀ n, heap n = true) (hr : Rep db L T txt) {x : Nat} (hx : x ∉ L.map Entry.ep)
    (hle : ¬ (x = 0 ∨ db.tail < x)) : Corrupts heap db x := by
  have hpos : x ≠ 0 := fun h => hle (.inl h)
  refine ⟨fun db' r h => ?_, fun n db' r h hn hs => hr.renameEntry_stale hx hpos hheap hle hs hn h⟩
  obtain ⟨hr0, rfl, hlen⟩ := hr.deleteEntry_stale hx hpos hle h
  exact ⟨hr0, rfl, hlen⟩

/-- The list ends with its last entry: a pointer is in the range exactly if no entry before it is the last. -/
theorem Lists.range_iff (hl : Lists db L T) (ep : Int) :
    (ep ≤ 0 ∨ (db.tail : Int) < ep) ↔ ep ≤ 0 ∨ ∀ e ∈ L, (e.ep : Int) < ep := by
  refine or_congr_right' fun hpos => ⟨fun h e he => ?_, fun h => ?_⟩
  · have := hl.le_tail he
    omega
  · rw [hl.tail]
    rcases List.eq_nil_or_concat (L.map Entry.ep) with hnil | ⟨l, t, hlt⟩
    · rw [hnil, last_nil]
      omega
    · rw [hlt, List.concat_eq_append, last_concat]
      have ht : t ∈ L.map Entry.ep := by
        rw [hlt]
        simp
      obtain ⟨e, he, rfl⟩ := List.mem_map.mp ht
      exact h e he

theorem mem_of_stale {ep : Int} (hs : Stale L ep) (hpos : ¬ ep ≤ 0) : ep.toNat ∉ L.map Entry.ep := by
  intro hm
  obtain ⟨e, he, hep⟩ := List.mem_map.mp hm
  exact hs e he (by omega)

/-- In every state of a history, a call with a pointer that no entry has is refused exactly if the pointer is not
in the range of the list. As long as the threads are right (`renames_iff`) these are the pointers behind the last
entry, and a call with one of the others corrupts the database. -/
theorem stale_iff (hheap : ∀ n, heap n = true) (size : Nat) (name : CStr)
    (hopen : Db.openDb heap size name = some db) (cs : List Call) :
    Throughout (fun s => ∀ ep : Int, Stale s.entries ep →
      (Refused heap s.db s.entries (.delete ep.toNat) ↔ ep ≤ 0 ∨ (s.db.tail : Int) < ep) ∧
      ∀ n, Refused heap s.db s.entries (.rename ep.toNat n) ↔ ep ≤ 0 ∨ (s.db.tail : Int) < ep)
      (History.step heap) (History.new db) cs ∧
    (Steps (fun s c => Call.IsEdit s.entries c ∧ Call.NoStale s.db s.entries c) (History.step heap)
        (History.new db) cs →
      Always (fun s => ∀ ep : Int, Stale s.entries ep →
        ((ep ≤ 0 ∨ (s.db.tail : Int) < ep) ↔ ep ≤ 0 ∨ ∀ e ∈ s.entries, (e.ep : Int) < ep) ∧
        (¬ (ep ≤ 0 ∨ (s.db.tail : Int) < ep) → Corrupts heap s.db ep.toNat))
        (History.step heap) (History.new db) cs) := by
  constructor
  · refine throughout_of_forall (fun s ep _ => ?_) _ _
    exact ⟨refused_delete_iff.trans toNat_range, fun n => refused_rename_iff.trans toNat_range⟩
  · intro hedit
    have hinv : Always History.Inv (History.step heap) (History.new db) cs := by
      refine always_of_steps (fun s c hi hc => ?_) ⟨_, _, Rep.openDb hopen⟩ hedit
      obtain ⟨t, hst, ht, -⟩ := History.step_good hheap hi hc.1 hc.2
      exact ⟨t, hst, ht⟩
    refine hinv.mono fun s hi ep hs => ?_
    obtain ⟨T, txt, hr⟩ := hi
    refine ⟨hr.lists.range_iff ep, fun hrange => ?_⟩
    exact hr.corrupts hheap (mem_of_stale hs fun h => hrange (.inl h)) (mt toNat_range.mp hrange)

/-- Two entries are added, and the first one is deleted. -/
def addAddDelete : List Call :=
  [.add (some ⟨['A'], noNull_A⟩) none none none, .add (some ⟨['B'], noNull_B⟩) none none none, .delete 1]

/-- The run of these calls. -/
theorem stale_addAddDelete :
    Throughout (fun s => ∀ ep : Int, Stale s.entries ep →
      (Refused (fun _ => true) s.db s.entries (.delete ep.toNat) ↔ ep ≤ 0 ∨ (s.db.tail : Int) < ep) ∧
      ∀ n, Refused (fun _ => true) s.db s.entries (.rename ep.toNat n) ↔ ep ≤ 0 ∨ (s.db.tail : Int) < ep)
      (History.step fun _ => true) (History.new (Db.empty ['d'])) addAddDelete :=
  (stale_iff (fun _ => rfl) 3300 ⟨['d'], by decide⟩ rfl addAddDelete).1

/-- Deleting the first entry again is not refused: the database then has one entry and says that it has none.
Renaming it is not refused either. -/
theorem stale_not_refused :
    ∃ s, run (History.step fun _ => true) (History.new (Db.empty ['d'])) addAddDelete = some s ∧
      Stale s.entries 1 ∧ ¬ Refused (fun _ => true) s.db s.entries (.delete 1) ∧
      ¬ Refused (fun _ => true) s.db s.entries (.rename 1 (some ⟨['A'], noNull_A⟩)) ∧
      ∃ db', s.db.deleteEntry 1 = some (db', 0) ∧ db'.walk = some [2] ∧ db'.len = 0 := by
  have hsome : (run (History.step fun _ => true) (History.new (Db.empty ['d'])) addAddDelete).isSome = true := by
    decide +kernel
  obtain ⟨s, hs⟩ := Option.isSome_iff_exists.mp hsome
  have hfacts : ∀ s ∈ run (History.step fun _ => true) (History.new (Db.empty ['d'])) addAddDelete,
      s.entries.map Entry.ep = [2] ∧ s.db.tail = 2 ∧
        (s.db.deleteEntry 1).map (fun p => (p.1.walk, p.1.len, p.2)) = some (some [2], 0, 0) := by
    decide +kernel
  obtain ⟨hlive, htail, hdel⟩ := hfacts s hs
  have hrange : ¬ (1 = 0 ∨ s.db.tail < 1) := by omega
  refine ⟨s, hs, fun e he => ?_, mt refused_delete_iff.mp hrange, mt refused_rename_iff.mp hrange, ?_⟩
  · have hep : e.ep ∈ s.entries.map Entry.ep := List.mem_map_of_mem he
    rw [hlive, List.mem_singleton] at hep
    omega
  · obtain ⟨⟨db', r⟩, hdb, hp⟩ := Option.map_eq_some_iff.mp hdel
    simp only [Prod.mk.injEq] at hp
    obtain ⟨hwalk, hlen, rfl⟩ := hp
    exact ⟨db', hdb, hwalk, hlen⟩

end Ndhs.Kwdb
