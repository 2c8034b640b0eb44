import Ndhs.Kwdb.Spec
import Ndhs.Kwdb.Hash
import Mathlib.Data.List.Perm.Subperm

/-!
# How a database represents its list

`Rep db L T txt` is the invariant of the descriptor: the global list has the entries `L`, in the order of their
slots; the thread `h` has the entries `T h`, which are the keywords with the hash value `h`; and `txt` are the
texts, each in a region of its own in the string buffer.

`Rep.lookup` says what the search of a thread finds. `Rep.leave` and `Db.enter_chain` say what happens to the
threads when an entry leaves one or is entered in one, and `Rep.deleteEntry` that deleting an entry takes it out
of `L` and `T`. The functions that write texts are in `Ndhs.Kwdb.Edit`.
-/

namespace Ndhs.Kwdb

open Text Buffer Linked Function

variable {heap : Nat → Bool} {db : Db} {L : List Entry} {T : Nat → List Nat}
  {txt : Nat × Option Db.Field → Str} {ep h : Nat} {e : Entry}

/-! ## The parts of the descriptor -/

/-- The offset of a text: the name, or a field. -/
def Item.offAt (itp : Item) : Option Db.Field → Nat
  | none => itp.name
  | some f => itp.off f

/-- The bytes that a text may take; a name is never written over. -/
def Item.spanAt (itp : Item) (name : Str) : Option Db.Field → Nat
  | none => name.length
  | some f => itp.room f

def Entry.textAt (e : Entry) : Option Db.Field → Str
  | none => e.name
  | some f => e.text f

namespace Db

def offAt (db : Db) (k : Nat × Option Field) : Nat := (db.itab k.1).offAt k.2

def spanAt (db : Db) (txt : Nat × Option Field → Str) (k : Nat × Option Field) : Nat :=
  (db.itab k.1).spanAt (txt (k.1, none)) k.2

/-- The database with other threads. -/
def rethread (db : Db) (nh ht : Nat → Nat) : Db :=
  { db with itab := fun i => { db.itab i with nexthash := nh i }, hashtbl := ht }

/-- The database with other links of the global list. -/
def relink (db : Db) (ng : Nat → Nat) (head tail itemsused : Nat) : Db :=
  { db with itab := fun i => { db.itab i with nextglob := ng i }, head, tail, itemsused }

section
variable {nh ht ng : Nat → Nat} {head tail used : Nat}

@[simp] theorem rethread_nexthash : (db.rethread nh ht).nexthash = nh := rfl
@[simp] theorem rethread_hashtbl : (db.rethread nh ht).hashtbl = ht := rfl
@[simp] theorem rethread_next : (db.rethread nh ht).next = db.next := rfl
@[simp] theorem rethread_head : (db.rethread nh ht).head = db.head := rfl
@[simp] theorem rethread_tail : (db.rethread nh ht).tail = db.tail := rfl
@[simp] theorem rethread_maxitems : (db.rethread nh ht).maxitems = db.maxitems := rfl
@[simp] theorem rethread_itemsused : (db.rethread nh ht).itemsused = db.itemsused := rfl
@[simp] theorem rethread_nitems : (db.rethread nh ht).nitems = db.nitems := rfl
@[simp] theorem rethread_sbuf : (db.rethread nh ht).sbuf = db.sbuf := rfl
@[simp] theorem rethread_offAt : (db.rethread nh ht).offAt = db.offAt := by
  funext ⟨i, f⟩
  rcases f with _ | _ | _ | _ <;> rfl
@[simp] theorem rethread_spanAt : (db.rethread nh ht).spanAt txt = db.spanAt txt := by
  funext ⟨i, f⟩
  rcases f with _ | _ | _ | _ <;> rfl

@[simp] theorem relink_next : (db.relink ng head tail used).next = ng := rfl
@[simp] theorem relink_head : (db.relink ng head tail used).head = head := rfl
@[simp] theorem relink_tail : (db.relink ng head tail used).tail = tail := rfl
@[simp] theorem relink_nexthash : (db.relink ng head tail used).nexthash = db.nexthash := rfl
@[simp] theorem relink_hashtbl : (db.relink ng head tail used).hashtbl = db.hashtbl := rfl
@[simp] theorem relink_maxitems : (db.relink ng head tail used).maxitems = db.maxitems := rfl
@[simp] theorem relink_itemsused : (db.relink ng head tail used).itemsused = used := rfl
@[simp] theorem relink_nitems : (db.relink ng head tail used).nitems = db.nitems := rfl
@[simp] theorem relink_sbuf : (db.relink ng head tail used).sbuf = db.sbuf := rfl
@[simp] theorem relink_offAt : (db.relink ng head tail used).offAt = db.offAt := by
  funext ⟨i, f⟩
  rcases f with _ | _ | _ | _ <;> rfl
@[simp] theorem relink_spanAt : (db.relink ng head tail used).spanAt txt = db.spanAt txt := by
  funext ⟨i, f⟩
  rcases f with _ | _ | _ | _ <;> rfl

end

theorem setNexthash_eq (i v : Nat) : db.setNexthash i v = db.rethread (update db.nexthash i v) db.hashtbl := by
  unfold setNexthash rethread
  congr
  funext j
  by_cases hj : j = i
  · subst hj
    simp
  · simp [update_of_ne hj, nexthash]

theorem setNextglob_eq (i v : Nat) :
    db.setNextglob i v = db.relink (update db.next i v) db.head db.tail db.itemsused := by
  unfold setNextglob relink
  congr
  funext j
  by_cases hj : j = i
  · subst hj
    simp
  · simp [update_of_ne hj, next]

end Db

/-! ## The string buffer -/

namespace Sbuf

variable {sb : Sbuf} {s : Str} {a : Arg}

/-- The buffer after a string was added. -/
def add (sb : Sbuf) (s : Str) : Sbuf :=
  if s = [] then sb
  else
    { chars := strcpy sb.chars sb.used s
      len := if sb.len ≤ sb.used + (s.length + 1) then sb.len + defSzsbuf else sb.len
      used := sb.used + (s.length + 1)
      block := if sb.len ≤ sb.used + (s.length + 1) then sb.block + 1 else sb.block }

/-- The offset of the added string. -/
def slot (sb : Sbuf) (s : Str) : Nat := if s = [] then 0 else sb.used

theorem add_used_le (hu : sb.used ≤ sb.len) (hs : s.length < defSzsbuf) : (sb.add s).used ≤ (sb.add s).len := by
  unfold add
  split
  · exact hu
  · dsimp only
    split <;> omega

/-- `addstr` of a string that can still be read after `realloc`, or for which there is room. -/
theorem addstr_eq (hheap : heap (sb.len + defSzsbuf) = true) (hread : sb.read a = some s)
    (hgrow : s ≠ [] → sb.len ≤ sb.used + (s.length + 1) →
      sb.realloc.read a = some s ∧ sb.used + (s.length + 1) ≤ sb.len + defSzsbuf) :
    sb.addstr heap a = some (sb.add s, sb.slot s) := by
  unfold addstr add slot
  rw [hread, Option.bind_some]
  by_cases h0 : s = []
  · rw [if_pos h0, if_pos h0, if_pos h0]
  · rw [if_neg h0, if_neg h0, if_neg h0]
    by_cases hg : sb.len ≤ sb.used + (s.length + 1)
    · obtain ⟨hkeep, hfit⟩ := hgrow h0 hg
      have hroom : sb.realloc.used + (s.length + 1) ≤ sb.realloc.len := hfit
      rw [if_pos hg, if_pos hheap, hkeep, Option.bind_some, append, if_pos hroom]
      simp [realloc, write, hg]
    · rw [if_neg hg, append, if_pos (by omega)]
      simp [write, hg]

/-- A string of the caller can always be added. -/
theorem addstr_text (hheap : ∀ n, heap n = true) (ha : ∀ sb : Sbuf, sb.read a = some s)
    (hu : sb.used ≤ sb.len) (hs : s.length < defSzsbuf) :
    sb.addstr heap a = some (sb.add s, sb.slot s) :=
  addstr_eq (hheap _) (ha sb) fun _ _ => ⟨ha _, by omega⟩

/-- The bytes that a string takes in the buffer. -/
def size (s : Str) : Nat := if s = [] then 0 else s.length + 1

@[simp] theorem add_used : (sb.add s).used = sb.used + size s := by
  unfold add size
  split <;> rfl

theorem add_len (h : size s = 0 ∨ sb.used + size s < sb.len) : (sb.add s).len = sb.len := by
  unfold add size at *
  by_cases h0 : s = []
  · rw [if_pos h0]
  · rw [if_neg h0] at h ⊢
    simp only [ite_eq_right_iff]
    omega

theorem add_block (h : size s = 0 ∨ sb.used + size s < sb.len) : (sb.add s).block = sb.block := by
  unfold add size at *
  by_cases h0 : s = []
  · rw [if_pos h0]
  · rw [if_neg h0] at h ⊢
    simp only [ite_eq_right_iff]
    omega

variable {κ : Type*} [DecidableEq κ] {live : κ → Prop} {off span : κ → Nat} {text : κ → Str}

/-- The added string becomes the text of a key. -/
theorem layout_add (sb : Sbuf) (hl : Layout sb.chars sb.used live off span text) (k : κ) (hs : '\x00' ∉ s) :
    Layout (sb.add s).chars (sb.add s).used (fun j => j = k ∨ live j) (update off k (sb.slot s))
      (update span k s.length) (update text k s) := by
  unfold add slot
  by_cases h0 : s = []
  · subst h0
    exact hl.clear k
  · rw [if_neg h0, if_neg h0]
    exact hl.put k hs

end Sbuf

/-! ## The invariant -/

/-- The links of the database: the global list has the entries `L`, and the threads are `T`. -/
structure Lists (db : Db) (L : List Entry) (T : Nat → List Nat) : Prop where
  glob : Chain db.next db.head (L.map Entry.ep)
  tail : db.tail = last (L.map Entry.ep)
  sorted : (L.map Entry.ep).Pairwise (· < ·)
  slots : ∀ x ∈ L.map Entry.ep, x < db.itemsused
  room : db.itemsused ≤ db.maxitems
  pos : 0 < db.itemsused
  count : db.nitems = L.length
  threads : ∀ h, Chain db.nexthash (db.hashtbl h) (T h)
  mem : ∀ h x, x ∈ T h ↔ ∃ e ∈ L, e.ep = x ∧ e.name ≠ [] ∧ hash e.name = h
  hashed : ∀ e ∈ L, e.name ≠ [] → 0 ≤ hash e.name

/-- The texts of the database: each in its own region of the string buffer. -/
structure Texts (db : Db) (L : List Entry) (txt : Nat × Option Db.Field → Str) : Prop where
  text : ∀ e ∈ L, ∀ f, txt (e.ep, f) = e.textAt f
  layout : Layout db.sbuf.chars db.sbuf.used (fun k => k.1 ∈ L.map Entry.ep) db.offAt (db.spanAt txt) txt
  used : db.sbuf.used ≤ db.sbuf.len

/-- The database represents the list `L`. -/
structure Rep (db : Db) (L : List Entry) (T : Nat → List Nat) (txt : Nat × Option Db.Field → Str) :
    Prop where
  lists : Lists db L T
  texts : Texts db L txt

theorem length_le_of_lt {l : List Nat} {n : Nat} (hnd : l.Nodup) (hl : ∀ x ∈ l, x < n) : l.length ≤ n := by
  have hsub : l ⊆ List.range n := fun x hx => List.mem_range.mpr (hl x hx)
  simpa using (List.subperm_of_subset hnd hsub).length_le

namespace Lists

variable (hl : Lists db L T)
include hl

theorem nodup : (L.map Entry.ep).Nodup := hl.glob.nodup

theorem ep_ne_zero (he : e ∈ L) : e.ep ≠ 0 := hl.glob.ne_zero (List.mem_map_of_mem he)

/-- The pointer of an entry determines it. -/
theorem ep_inj {e' : Entry} (he : e ∈ L) (he' : e' ∈ L) (h : e.ep = e'.ep) : e = e' :=
  List.inj_on_of_nodup_map hl.nodup he he' h

theorem live_of_mem_thread {x : Nat} (hx : x ∈ T h) : x ∈ L.map Entry.ep := by
  obtain ⟨e, he, rfl, -⟩ := (hl.mem h x).mp hx
  exact List.mem_map_of_mem he

theorem length_le : (L.map Entry.ep).length ≤ db.maxitems :=
  (length_le_of_lt hl.nodup hl.slots).trans hl.room

theorem thread_length_le (h : Nat) : (T h).length ≤ db.maxitems :=
  (length_le_of_lt (hl.threads h).nodup fun _ hx => hl.slots _ (hl.live_of_mem_thread hx)).trans hl.room

theorem walk : db.walk = some (L.map Entry.ep) := hl.glob.walk hl.length_le

/-- An entry pointer of the list passes the range check. -/
theorem le_tail (he : e ∈ L) : ¬ (e.ep = 0 ∨ db.tail < e.ep) := by
  have h0 := hl.ep_ne_zero he
  have hmem : e.ep ∈ L.map Entry.ep := List.mem_map_of_mem he
  have hsorted := hl.sorted
  rw [hl.tail]
  rcases List.eq_nil_or_concat (L.map Entry.ep) with hnil | ⟨l, t, hlt⟩
  · rw [hnil] at hmem
    cases hmem
  · rw [hlt, List.concat_eq_append] at hmem hsorted ⊢
    rw [last_concat]
    rcases List.mem_append.mp hmem with hm | hm
    · have hlt := (List.pairwise_append.mp hsorted).2.2 _ hm t (by simp)
      omega
    · have ht := List.mem_singleton.mp hm
      omega

end Lists

theorem Texts.str (ht : Texts db L txt) (he : e ∈ L) (f : Option Db.Field) :
    db.sbuf.str (db.offAt (e.ep, f)) = e.textAt f := by
  have hlive : e.ep ∈ L.map Entry.ep := List.mem_map_of_mem he
  have hstr := ht.layout.strAt (k := (e.ep, f)) hlive ht.used
  rw [← ht.text e he f]
  exact hstr

/-- The offset of a text is zero only if the text is empty. -/
theorem Texts.offAt_zero (ht : Texts db L txt) (he : e ∈ L) {f : Option Db.Field}
    (h0 : db.offAt (e.ep, f) = 0) : e.textAt f = [] := by
  have hlive : e.ep ∈ L.map Entry.ep := List.mem_map_of_mem he
  have hz := ht.layout.zero (e.ep, f) hlive h0
  have hf := ht.layout.fits (e.ep, f) hlive
  rw [ht.text e he f] at hf
  exact List.eq_nil_of_length_eq_zero (by omega)

/-- The name of an item is empty exactly if the entry is not a keyword. -/
theorem Texts.name_eq_nil (ht : Texts db L txt) (he : e ∈ L) :
    ((db.itab e.ep).name = 0 ∨ db.sbuf.str (db.itab e.ep).name = []) ↔ e.name = [] := by
  have hstr : db.sbuf.str (db.itab e.ep).name = e.name := ht.str he none
  rw [hstr]
  refine ⟨fun h => h.elim (fun h0 => ?_) id, .inr⟩
  exact ht.offAt_zero (f := none) he h0

/-- A new database has no entries. -/
theorem Rep.openDb {size : Nat} {name : CStr} (h : Db.openDb heap size name = some db) :
    Rep db [] (fun _ => []) (fun _ => []) := by
  unfold Db.openDb at h
  split at h
  · next hc =>
    cases h
    have hnull : (Db.empty name.text).sbuf.chars 0 = '\x00' :=
      strcpy_of_not_mem (b := fun _ => '\x00') (s := name.text) (.inl Nat.one_pos)
    refine ⟨⟨rfl, rfl, by simp, by simp, by simp [Db.empty, defNkeywords], Nat.one_pos, rfl, fun _ => rfl, by simp,
      by simp⟩, by simp, ⟨hnull, Nat.succ_pos _, ?_, ?_, ?_, ?_, ?_, ?_⟩, hc.2.2.2⟩
    all_goals simp
  · cases h

/-! ## Searching a thread -/

theorem lookupLoop_chain {k : Str} {inst i j n : Nat} {l : List Nat} (hc : Chain db.nexthash i l)
    (hn : l.length ≤ n) (hj : j ≤ inst) :
    db.lookupLoop k inst n i j =
      some ((l.filter fun x => streq (db.sbuf.str (db.itab x).name) k).getD (inst - j) 0) := by
  induction l generalizing i j n with
  | nil =>
    obtain rfl : i = 0 := hc
    cases n <;> simp [Db.lookupLoop]
  | cons a l ih =>
    obtain ⟨rfl, hi, hc⟩ := hc
    obtain ⟨n, rfl⟩ : ∃ m, n = m + 1 := ⟨n - 1, by simp at hn; omega⟩
    have hlen : l.length ≤ n := by simpa using hn
    rw [Db.lookupLoop.eq_3 _ _ _ _ _ _ hi, List.filter_cons]
    split
    · by_cases hij : inst = j
      · simp [hij]
      · rw [if_neg hij, ih hc hlen (by omega)]
        have hsub : inst - j = inst - (j + 1) + 1 := by omega
        rw [hsub, List.getD_cons_succ]
    · exact ih hc hlen hj

/-- `kwdb_Lookup` finds the instance in the keyword's thread. -/
theorem Rep.lookup (hr : Rep db L T txt) {k : Str} (hk : hash k = h) (i : Nat) :
    db.lookup k i = some (((T h).filter fun x => streq (txt (x, none)) k).getD i 0) := by
  have hlen : (T h).length ≤ (i + 1) * db.maxitems :=
    (hr.lists.thread_length_le h).trans (Nat.le_mul_of_pos_left _ (Nat.succ_pos i))
  rw [Db.lookup, thread_eq_some.mpr hk, Option.bind_some,
    lookupLoop_chain (hr.lists.threads h) hlen (Nat.zero_le i), Nat.sub_zero]
  refine congrArg (fun l : List Nat => some (l.getD i 0)) (List.filter_congr fun x hx => ?_)
  obtain ⟨e, he, rfl, -⟩ := (hr.lists.mem h x).mp hx
  rw [hr.texts.text e he none, ← hr.texts.str he none]
  rfl

/-! ## Threads -/

/-- Taking an entry out of its thread. -/
theorem Rep.leave (hr : Rep db L T txt) (he : e ∈ L) :
    ∃ nh ht, db.leave e.ep = some (db.rethread nh ht) ∧ (∀ h, Chain nh (ht h) ((T h).erase e.ep)) ∧
      nh e.ep = db.nexthash e.ep := by
  unfold Db.leave
  by_cases h0 : e.name = []
  · -- not a keyword: it is in no thread
    refine ⟨db.nexthash, db.hashtbl, if_pos ((hr.texts.name_eq_nil he).mpr h0), fun h => ?_, rfl⟩
    have hnot : e.ep ∉ T h := by
      intro hm
      obtain ⟨e', he', hep, hne, -⟩ := (hr.lists.mem h e.ep).mp hm
      exact hne (hr.lists.ep_inj he' he hep ▸ h0)
    rw [List.erase_of_not_mem hnot]
    exact hr.lists.threads h
  · have hstr : db.sbuf.str (db.itab e.ep).name = e.name := hr.texts.str he none
    obtain ⟨g, hg⟩ : ∃ g : Nat, hash e.name = g := ⟨_, (Int.toNat_of_nonneg (hr.lists.hashed e he h0)).symm⟩
    have hin : e.ep ∈ T g := (hr.lists.mem g e.ep).mpr ⟨e, he, rfl, h0, hg⟩
    have hother : ∀ h ≠ g, e.ep ∉ T h := by
      intro h hne hm
      obtain ⟨e', he', hep, -, hh⟩ := (hr.lists.mem h e.ep).mp hm
      rw [hr.lists.ep_inj he' he hep, hg] at hh
      exact hne (by exact_mod_cast hh.symm)
    have hchain := hr.lists.threads g
    obtain ⟨q, hq, herase, -, hfirst, hql⟩ := hchain.erase hin (hr.lists.thread_length_le g)
    rw [if_neg (mt (hr.texts.name_eq_nil he).mp h0), hstr, thread_eq_some.mpr hg, Option.bind_some]
    by_cases hi : e.ep = db.hashtbl g
    · rw [if_pos hi.symm, hfirst hi.symm] at herase
      refine ⟨db.nexthash, update db.hashtbl g (db.nexthash e.ep), if_pos hi, fun h => ?_, rfl⟩
      by_cases hh : h = g
      · subst hh
        rw [update_self]
        exact herase
      · rw [update_of_ne hh, List.erase_of_not_mem (hother h hh)]
        exact hr.lists.threads h
    · have hi' : db.hashtbl g ≠ e.ep := fun hc => hi hc.symm
      rw [if_neg hi'] at hq herase
      rw [if_neg hi, hq, Option.map_some]
      refine ⟨Linked.bypass db.nexthash q e.ep, db.hashtbl, ?_, fun h => ?_, ?_⟩
      · by_cases hq0 : q = 0
        · rw [if_pos hq0, Linked.bypass, if_pos hq0]
          rfl
        · rw [if_neg hq0, Linked.bypass, if_neg hq0, Db.setNexthash_eq]
          rfl
      · by_cases hh : h = g
        · subst hh
          exact herase
        · rw [List.erase_of_not_mem (hother h hh)]
          refine (hr.lists.threads h).congr fun x hx => ?_
          -- the cell before the entry is in the entry's thread, so in no other
          unfold Linked.bypass
          split
          · rfl
          · refine update_of_ne ?_ _ _
            rintro rfl
            have hqg := List.mem_of_mem_erase (hql.resolve_left ‹_›)
            obtain ⟨e₁, he₁, hep₁, -, hh₁⟩ := (hr.lists.mem h x).mp hx
            obtain ⟨e₂, he₂, hep₂, -, hh₂⟩ := (hr.lists.mem g x).mp hqg
            rw [hr.lists.ep_inj he₁ he₂ (hep₁.trans hep₂.symm), hh₂] at hh₁
            exact hh (by exact_mod_cast hh₁.symm)
      · unfold Linked.bypass
        split
        · rfl
        · refine update_of_ne ?_ _ _
          intro hep
          have hqg := hql.resolve_left ‹_›
          rw [← hep] at hqg
          exact hchain.nodup.not_mem_erase hqg

theorem Db.enter_eq {k : Str} (hk : k ≠ []) (hh : hash k = h) (i : Nat) :
    db.enter i k = some (db.rethread
      (if db.hashtbl h = 0 then db.nexthash else update db.nexthash i (db.hashtbl h))
      (update db.hashtbl h i)) := by
  rw [Db.enter, if_neg hk, thread_eq_some.mpr hh, Option.map_some]
  by_cases h0 : db.hashtbl h = 0
  · simp only [h0, if_true]
    rfl
  · simp only [h0, if_false, Db.setNexthash_eq]
    rfl

/-- A new first entry of a thread. In an empty thread its old link stays, so it has to be zero. -/
theorem chain_enter {nh ht : Nat → Nat} {x : Nat} (hc : ∀ g, Chain nh (ht g) (T g)) (hx : x ≠ 0)
    (hnot : ∀ g, x ∉ T g) (hlink : ht h = 0 → nh x = 0) (g : Nat) :
    Chain (if ht h = 0 then nh else update nh x (ht h)) (update ht h x g) (update T h (x :: T h) g) := by
  by_cases hg : g = h
  · subst hg
    rw [update_self, update_self]
    split
    · next h0 =>
      have hT : T g = [] := by
        have := hc g
        rw [h0] at this
        exact this.zero
      simp [hT, hx, hlink h0]
    · exact (hc g).push hx (hnot g)
  · rw [update_of_ne hg, update_of_ne hg]
    split
    · exact hc g
    · exact (hc g).update (hnot g) _

/-- The threads after the entry `x` is entered under a name. -/
def pushThread (T : Nat → List Nat) (name : Str) (x h : Nat) : List Nat :=
  if name ≠ [] ∧ hash name = h then x :: T h else T h

theorem mem_pushThread {name : Str} {x y : Nat} :
    y ∈ pushThread T name x h ↔ (y = x ∧ name ≠ [] ∧ hash name = h) ∨ y ∈ T h := by
  unfold pushThread
  split
  · next hc => simp [hc]
  · next hc => simp [hc]

/-- Entering an entry: its own old link has to be zero if the thread is empty. -/
theorem Db.enter_chain (db : Db) {name : Str} {x : Nat} (hc : ∀ g, Chain db.nexthash (db.hashtbl g) (T g)) (hx : x ≠ 0)
    (hnot : ∀ g, x ∉ T g) (hh : name ≠ [] → 0 ≤ hash name)
    (hlink : ∀ g : Nat, name ≠ [] → hash name = g → T g = [] → db.nexthash x = 0) :
    ∃ nh ht, db.enter x name = some (db.rethread nh ht) ∧ ∀ g, Chain nh (ht g) (pushThread T name x g) := by
  by_cases h0 : name = []
  · refine ⟨db.nexthash, db.hashtbl, by rw [Db.enter, if_pos h0]; rfl, fun g => ?_⟩
    rw [pushThread, if_neg (by simp [h0])]
    exact hc g
  · obtain ⟨h, hash_eq⟩ : ∃ h : Nat, hash name = h := ⟨_, (Int.toNat_of_nonneg (hh h0)).symm⟩
    refine ⟨_, _, Db.enter_eq h0 hash_eq x, fun g => ?_⟩
    have hpush : pushThread T name x g = update T h (x :: T h) g := by
      unfold pushThread
      by_cases hg : g = h
      · subst hg
        rw [update_self, if_pos ⟨h0, hash_eq⟩]
      · rw [update_of_ne hg, if_neg]
        rintro ⟨-, hc⟩
        rw [hash_eq] at hc
        exact hg (by exact_mod_cast hc.symm)
    rw [hpush]
    refine chain_enter hc hx hnot (fun hz => hlink h h0 hash_eq ?_) g
    have hch := hc h
    rw [hz] at hch
    exact hch.zero

/-! ## Deleting -/

theorem Db.skip_eq (i x : Nat) :
    db.skip i x = db.relink (Linked.bypass db.next i x) db.head db.tail db.itemsused := by
  by_cases hi : i = 0
  · rw [Db.skip, if_pos hi, Linked.bypass, if_pos hi]
    rfl
  · rw [Db.skip, if_neg hi, Linked.bypass, if_neg hi, Db.setNextglob_eq]

/-- Taking an entry out of the global list. -/
theorem Db.unlink_eq (db : Db) {l : List Nat} {x : Nat} (hc : Chain db.next db.head l) (ht : db.tail = last l)
    (hx : x ∈ l) (hn : l.length ≤ db.maxitems) :
    ∃ ng hd, db.unlink x = some (db.relink ng hd (last (l.erase x))
        (if db.tail = x then db.itemsused - 1 else db.itemsused)) ∧
      Chain ng hd (l.erase x) := by
  obtain ⟨q, hq, herase, hlast, -, -⟩ := hc.erase hx hn
  refine ⟨Linked.bypass db.next q x, _, ?_, herase⟩
  rw [Db.unlink, hq, Option.map_some, Db.skip_eq, Db.dropTail, Db.relink_tail]
  by_cases htx : db.tail = x
  · rw [if_pos htx, if_pos htx, hlast (ht.symm.trans htx)]
    rfl
  · rw [if_neg htx, if_neg htx, last_erase (ht ▸ htx), ← ht]
    rfl

/-- `kwdb_DeleteEntry` of an entry. -/
theorem Rep.deleteEntry (hr : Rep db L T txt) (he : e ∈ L) :
    ∃ db', db.deleteEntry e.ep = some (db', 0) ∧
      Rep db' (L.filter fun e' => e'.ep ≠ e.ep) (fun h => (T h).erase e.ep) txt := by
  have hl := hr.lists
  have hmem : e.ep ∈ L.map Entry.ep := List.mem_map_of_mem he
  obtain ⟨nh, ht, hleave, hchain, -⟩ := hr.leave he
  obtain ⟨ng, hd, hunlink, hglob⟩ :=
    Db.unlink_eq (db.rethread nh ht) hl.glob hl.tail hmem hl.length_le
  have heps : (L.filter fun e' => e'.ep ≠ e.ep).map Entry.ep = (L.map Entry.ep).erase e.ep := by
    rw [hl.nodup.erase_eq_filter, List.filter_map]
    refine congrArg (List.map Entry.ep) (List.filter_congr fun x _ => ?_)
    by_cases hx : x.ep = e.ep <;> simp [hx]
  have hsub : ∀ x ∈ (L.map Entry.ep).erase e.ep, x ∈ L.map Entry.ep ∧ x ≠ e.ep := fun x hx =>
    ⟨List.mem_of_mem_erase hx, by rintro rfl; exact hl.nodup.not_mem_erase hx⟩
  let used := if db.tail = e.ep then db.itemsused - 1 else db.itemsused
  let db' := (db.rethread nh ht).relink ng hd (last ((L.map Entry.ep).erase e.ep)) used
  refine ⟨{ db' with nitems := db.nitems - 1 }, ?_, ⟨?_, ?_, ?_, ?_, ?_, ?_, ?_, hchain, fun h x => ?_, ?_⟩, ?_, ?_,
    hr.texts.used⟩
  · rw [Db.deleteEntry, if_neg (hl.le_tail he), hleave]
    change Option.bind ((db.rethread nh ht).unlink e.ep) _ = _
    rw [hunlink]
    rfl
  · rw [heps]
    exact hglob
  · rw [heps]
    rfl
  · rw [heps]
    exact hl.sorted.sublist List.erase_sublist
  · rw [heps]
    intro x hx
    obtain ⟨hxl, hxe⟩ := hsub x hx
    have hslot := hl.slots x hxl
    change x < if db.tail = e.ep then db.itemsused - 1 else db.itemsused
    split
    · next htail =>
      -- the other entries are in slots before the last one
      obtain ⟨e', he', rfl⟩ := List.mem_map.mp hxl
      have := hl.le_tail he'
      have := hl.slots _ hmem
      omega
    · exact hslot
  · change (if db.tail = e.ep then db.itemsused - 1 else db.itemsused) ≤ db.maxitems
    have := hl.room
    split <;> omega
  · change 0 < if db.tail = e.ep then db.itemsused - 1 else db.itemsused
    have := hl.pos
    have := hl.slots _ hmem
    have := hl.ep_ne_zero he
    split <;> omega
  · have hlen := congrArg List.length heps
    rw [List.length_map, List.length_erase_of_mem hmem, List.length_map] at hlen
    change db.nitems - 1 = _
    rw [hl.count, hlen]
  · rw [(hl.threads h).nodup.mem_erase_iff, hl.mem]
    constructor
    · rintro ⟨hxe, e', he', rfl, hn⟩
      exact ⟨e', List.mem_filter.mpr ⟨he', by simpa using hxe⟩, rfl, hn⟩
    · rintro ⟨e', he', rfl, hn⟩
      obtain ⟨he', hxe⟩ := List.mem_filter.mp he'
      exact ⟨by simpa using hxe, e', he', rfl, hn⟩
  · exact fun e' he' => hl.hashed e' (List.mem_filter.mp he').1
  · exact fun e' he' => hr.texts.text e' (List.mem_filter.mp he').1
  · have hoff : Db.offAt { db' with nitems := db.nitems - 1 } = db.offAt := by
      change db'.offAt = _
      rw [Db.relink_offAt, Db.rethread_offAt]
    have hspan : Db.spanAt { db' with nitems := db.nitems - 1 } txt = db.spanAt txt := by
      change db'.spanAt txt = _
      rw [Db.relink_spanAt, Db.rethread_spanAt]
    rw [hoff, hspan]
    refine hr.texts.layout.mono fun k hk => ?_
    rw [heps] at hk
    exact List.mem_of_mem_erase hk

end Ndhs.Kwdb
