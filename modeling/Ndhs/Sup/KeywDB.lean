import Ndhs.Lib.Double
import Ndhs.Lib.Linked
import Ndhs.Smc.ExpID
import Mathlib.Data.List.TakeWhile

/-!
# The keyword database of the supervisor (`dhssup/supKeyw.c`)

For each exposure the supervisor keeps the values of the monitored keywords that the PXF sends:

    keywmon 2454321.512345 group.keyword='value' group.keyword='value' …

`supUpdateKeywDB` gets such a message from the exposure id on, and links one `sym` for each keyword behind those of the
exposure.

* A cell of the heap is a `sym` from `calloc`; cell zero is the null pointer.
* A pointer into the list string is the rest of the string, and `[]` stands at its terminator. `none` is an access
  behind the terminator, behind a buffer or behind the table.
* An exposure id is the `double` that is read from the list, and is compared as such.
* There is memory for the cells. What is printed is left out.

`update_iff`: the lists for which the pairs are added as they stand.
-/

namespace Ndhs.Sup.Keyw

open Text Linked Function

/-- `SZ_SYMVAL` -/
def szSymval : Nat := 32

/-- `SZ_FNAME` -/
def szFname : Nat := 64

/-- `MAX_KEYWMON` -/
def maxKeywmon : Nat := 32

/-- `sym` -/
structure Sym where
  name : Str
  value : Str
  next : Nat

/-- The cells up to `top` are allocated. -/
structure Heap where
  cells : Nat → Sym
  top : Nat

/-- `kdbEntry` -/
structure KdbEntry where
  expID : Float
  dbHead : Nat
  dbTail : Nat

/-- The entries up to `keywDBTop`, with their cells -/
structure KeywDB where
  keywDB : List KdbEntry
  heap : Heap

/-- As the supervisor starts -/
def KeywDB.initial : KeywDB := ⟨[], fun _ => ⟨[], [], 0⟩, 0⟩

/-- `ip += 2`: what is read next must not be behind the terminator. -/
def skip2 : Str → Option Str
  | _ :: _ :: ip => some ip
  | _ => none

/-- A string is put into a buffer and copied to a `sym`. -/
def copied (s : Str) : Bool := s.length < szFname && s.length < szSymval

/-- A keyword and its value -/
def nextPair (ip : Str) : Option ((Str × Str) × Str) :=
  -- skip leading white
  let ip := ip.dropWhile isSpace
  let keyw := ip.takeWhile (· != '=')
  -- skip opening quote
  (skip2 (ip.dropWhile (· != '='))).bind fun ip =>
    let val := ip.takeWhile (· != '\x27')
    -- skip closing quote
    (skip2 (ip.dropWhile (· != '\x27'))).bind fun ip =>
      if copied keyw && copied val then some ((keyw, val), ip) else none

/-- Allocate a new entry for the keyword and add it to the list. -/
def addSym (s : KdbEntry × Heap) (p : Str × Str) : KdbEntry × Heap :=
  let (entry, heap) := s
  let newSym := heap.top + 1
  let curTail := if entry.dbHead = 0 then 0 else entry.dbTail
  let dbHead := if entry.dbHead = 0 then newSym else entry.dbHead
  let cells := update heap.cells newSym ⟨p.1, p.2, 0⟩
  let cells := if curTail = 0 then cells else update cells curTail { cells curTail with next := newSym }
  (⟨entry.expID, dbHead, newSym⟩, ⟨cells, newSym⟩)

/-- `while (*ip)`: every round takes something off the text. -/
def pairLoop : Nat → Str → KdbEntry × Heap → Option (KdbEntry × Heap)
  | _, [], s => some s
  | 0, _ :: _, _ => none
  | n + 1, c :: ip, s => (nextPair (c :: ip)).bind fun (p, ip) => pairLoop n ip (addSym s p)

/-- `smcEqualExpID`, of two doubles -/
def smcEqualExpID (a b : Float) : Bool :=
  let tol : Float := 0.000001
  if a < b then decide (b - a < tol) else decide (a - b < tol)

/-- The entry of the exposure, in the table with a new one if it isn't found -/
def KeywDB.entryOf (db : KeywDB) (expID : Float) : Option (List KdbEntry × Nat) :=
  match db.keywDB.findIdx? fun entry => smcEqualExpID expID entry.expID with
  | some i => some (db.keywDB, i)
  | none =>
    if db.keywDB.length < maxKeywmon then some (db.keywDB ++ [⟨expID, 0, 0⟩], db.keywDB.length) else none

/-- `supUpdateKeywDB` -/
def supUpdateKeywDB (db : KeywDB) (list : Str) : Option KeywDB :=
  let expID := Double.atof list
  let ip := list.dropWhile (!isSpace ·)
  (db.entryOf expID).bind fun (keywDB, i) =>
    keywDB[i]?.bind fun entry =>
      (pairLoop ip.length ip (entry, db.heap)).map fun (entry, heap) => ⟨keywDB.set i entry, heap⟩

/-! ## The message of the PXF -/

/-- A keyword that is monitored -/
structure Item where
  group : Str
  keyword : Str
  value : Str

namespace Item

variable (i : Item)

def key : Str := i.group ++ '.' :: i.keyword

def pair : Str × Str := (i.key, i.value)

/-- `sprintf (buf, "%s.%s='%s' ", kwdb, keyw, val)` -/
def text : Str := i.key ++ '=' :: '\x27' :: (i.value ++ ['\x27', ' '])

/-- The key is read as it stands, and it fits like the value. -/
structure Plain : Prop where
  noEquals : '=' ∉ i.key
  noBlank : ∀ c ∈ i.key.head?, isSpace c = false
  key_lt : i.key.length < szSymval
  value_lt : i.value.length < szSymval

end Item

/-- What follows `keywmon` in the message of `procDCAMetaData` -/
def kmonList (e : ExpID) (items : List Item) : Str := printf6 e ++ ' ' :: items.flatMap Item.text

/-- `atof` reads what `printf6` has printed, if a blank follows. -/
theorem atof_printf6_blank (e : ExpID) (rest : Str) : Double.atof (printf6 e ++ ' ' :: rest) = Double.atof (printf6 e) := by
  refine Double.atof_fixed _ ?_ (fun c => isDigit_toDigits) (fun c hc => ?_) rest
  · obtain ⟨c, ds, hd, -⟩ := toDigits_eq_cons ((roundHalfEven (e * 1000000)).natAbs / 1000000)
    rw [hd]
    exact List.cons_ne_nil c ds
  · rcases List.mem_append.mp hc with hc | hc
    · rw [List.eq_of_mem_replicate hc]
      rfl
    · exact isDigit_toDigits hc

/-! ## What the database holds -/

/-- The database that is meant: the pairs of each exposure, in their order -/
abbrev Table := List (Float × List (Str × Str))

/-- The pairs are appended to those of the exposure, which is entered if it's new. -/
def Table.append (tab : Table) (expID : Float) (ps : List (Str × Str)) : Table :=
  match tab.findIdx? fun entry => smcEqualExpID expID entry.1 with
  | some i => tab.modify i fun entry => (entry.1, entry.2 ++ ps)
  | none => tab ++ [(expID, ps)]

/-- An exposure that is in the table -/
def Table.Has (tab : Table) (expID : Float) : Prop := ∃ entry ∈ tab, smcEqualExpID expID entry.1 = true

namespace Heap

variable (h : Heap)

def next (x : Nat) : Nat := (h.cells x).next

def pair (x : Nat) : Str × Str := ((h.cells x).name, (h.cells x).value)

end Heap

/-- The entry has the cells `l`. -/
structure Holds (h : Heap) (entry : KdbEntry) (l : List Nat) : Prop where
  chain : Chain h.next entry.dbHead l
  tail : entry.dbTail = last l
  top : ∀ x ∈ l, x ≤ h.top

/-- The database has the entries of the table, whose cells are different. -/
structure Rep (db : KeywDB) (tab : Table) : Prop where
  room : db.keywDB.length ≤ maxKeywmon
  length : tab.length = db.keywDB.length
  cells : ∃ cells : Nat → List Nat,
    (∀ i entry, db.keywDB[i]? = some entry →
      Holds db.heap entry (cells i) ∧ tab[i]? = some (entry.expID, (cells i).map db.heap.pair)) ∧
    ∀ i j, i ≠ j → i < db.keywDB.length → j < db.keywDB.length → (cells i).Disjoint (cells j)

theorem rep_initial : Rep .initial [] where
  room := Nat.zero_le _
  length := rfl
  cells := ⟨fun _ => [], fun i entry h => by simp [KeywDB.initial] at h, fun i j _ h => absurd h (Nat.not_lt_zero _)⟩

section Cells

variable {h h' : Heap} {entry entry' : KdbEntry} {l : List Nat} {p : Str × Str} {ps : List (Str × Str)}

/-- What is added to the cells of an entry, and what is left as it is -/
structure Adds (h h' : Heap) (entry entry' : KdbEntry) (l l' : List Nat) (ps : List (Str × Str)) : Prop where
  holds : Holds h' entry' l'
  expID : entry'.expID = entry.expID
  pairs : l'.map h'.pair = l.map h.pair ++ ps
  fresh : ∀ x ∈ l', x ∈ l ∨ h.top < x
  top : h.top ≤ h'.top
  others : ∀ x ≤ h.top, x ∉ l → h'.cells x = h.cells x

theorem addSym_adds (hh : Holds h entry l) :
    ∃ l', Adds h (addSym (entry, h) p).2 entry (addSym (entry, h) p).1 l l' [p] := by
  have hnew : ∀ x ≤ h.top, x ≠ h.top + 1 := fun x hx => by omega
  rcases List.eq_nil_or_concat' l with rfl | ⟨l₀, q, rfl⟩
  · -- the first cell of the entry
    have hhead : entry.dbHead = 0 := hh.chain
    refine ⟨[h.top + 1], ⟨⟨?_, ?_, ?_⟩, rfl, ?_, ?_, ?_, ?_⟩⟩
    · simp [addSym, hhead, Heap.next]
    · simp [addSym, last]
    · simp [addSym]
    · simp [addSym, hhead, Heap.pair]
    · simp
    · simp [addSym]
    · intro x hx _
      simp [addSym, hhead, update_of_ne (hnew x hx)]
  · -- the new cell is linked behind the last one, `q`
    have hmem : q ∈ l₀ ++ [q] := by simp
    have hhead : entry.dbHead ≠ 0 := by
      intro h0
      have hnil := (h0 ▸ hh.chain : Chain h.next 0 (l₀ ++ [q])).zero
      simp at hnil
    have htail : entry.dbTail = q := hh.tail.trans last_concat
    have hq : q ≠ 0 := hh.chain.ne_zero hmem
    have hqnew : q ≠ h.top + 1 := hnew q (hh.top q hmem)
    have hout : h.top + 1 ∉ l₀ ++ [q] := fun hx => hnew _ (hh.top _ hx) rfl
    obtain ⟨cells, hadd, hcq, hcnew, hold⟩ : ∃ cells,
        addSym (entry, h) p = (⟨entry.expID, entry.dbHead, h.top + 1⟩, ⟨cells, h.top + 1⟩) ∧
        cells q = { h.cells q with next := h.top + 1 } ∧ cells (h.top + 1) = ⟨p.1, p.2, 0⟩ ∧
        ∀ x, x ≠ q → x ≠ h.top + 1 → cells x = h.cells x := by
      refine ⟨update (update h.cells (h.top + 1) ⟨p.1, p.2, 0⟩) q { h.cells q with next := h.top + 1 }, ?_,
        update_self _ _ _, ?_, fun x hxq hx => ?_⟩
      · simp [addSym, hhead, htail, hq, update_of_ne hqnew]
      · rw [update_of_ne hqnew.symm, update_self]
      · rw [update_of_ne hxq, update_of_ne hx]
    rw [hadd]
    refine ⟨l₀ ++ [q] ++ [h.top + 1], ⟨⟨?_, ?_, ?_⟩, rfl, ?_, ?_, Nat.le_succ _, ?_⟩⟩
    · have hnext : Heap.next ⟨cells, h.top + 1⟩ = update (update h.next (h.top + 1) 0) q (h.top + 1) := by
        funext x
        change (cells x).next = _
        by_cases hxq : x = q
        · rw [hxq, hcq, update_self]
        · rw [update_of_ne hxq]
          by_cases hx : x = h.top + 1
          · rw [hx, hcnew, update_self]
          · rw [hold x hxq hx, update_of_ne hx]
            rfl
      rw [hnext]
      exact (hh.chain.update hout 0).snoc (Nat.succ_ne_zero _) hout (update_self _ _ _)
    · rw [last_concat]
    · intro x hx
      rcases List.mem_append.mp hx with hx | hx
      · exact Nat.le_succ_of_le (hh.top x hx)
      · exact (List.mem_singleton.mp hx).le
    · rw [List.map_append, List.map_singleton]
      congr 1
      · refine List.map_congr_left fun x hx => ?_
        change ((cells x).name, (cells x).value) = _
        by_cases hxq : x = q
        · rw [hxq, hcq]
          rfl
        · rw [hold x hxq (hnew x (hh.top x hx))]
          rfl
      · change [((cells (h.top + 1)).name, (cells (h.top + 1)).value)] = [p]
        rw [hcnew]
    · intro x hx
      rcases List.mem_append.mp hx with hx | hx
      · exact .inl hx
      · rw [List.mem_singleton.mp hx]
        exact .inr (Nat.lt_succ_self _)
    · intro x hx hxl
      exact hold x (fun hxq => hxl (hxq ▸ hmem)) (hnew x hx)

theorem Adds.refl (hh : Holds h entry l) : Adds h h entry entry l l [] :=
  ⟨hh, rfl, (List.append_nil _).symm, fun _ hx => .inl hx, le_rfl, fun _ _ _ => rfl⟩

theorem Adds.trans {h'' : Heap} {entry'' : KdbEntry} {l' l'' : List Nat} {ps' : List (Str × Str)}
    (ha : Adds h h' entry entry' l l' ps) (ha' : Adds h' h'' entry' entry'' l' l'' ps') :
    Adds h h'' entry entry'' l l'' (ps ++ ps') where
  holds := ha'.holds
  expID := ha'.expID.trans ha.expID
  pairs := by rw [ha'.pairs, ha.pairs, List.append_assoc]
  fresh := by
    intro x hx
    rcases ha'.fresh x hx with hx | hx
    · exact ha.fresh x hx
    · exact .inr (ha.top.trans_lt hx)
  top := ha.top.trans ha'.top
  others := by
    intro x hx hxl
    have hxl' : x ∉ l' := fun hmem => (ha.fresh x hmem).elim hxl (Nat.not_lt.mpr hx)
    rw [ha'.others x (hx.trans ha.top) hxl', ha.others x hx hxl]

/-- The pairs are added in their order. -/
theorem addSyms_adds (hh : Holds h entry l) (ps : List (Str × Str)) :
    ∃ l', Adds h (ps.foldl addSym (entry, h)).2 entry (ps.foldl addSym (entry, h)).1 l l' ps := by
  induction ps generalizing h entry l with
  | nil => exact ⟨l, .refl hh⟩
  | cons p ps ih =>
    obtain ⟨l', ha⟩ := addSym_adds (p := p) hh
    obtain ⟨l'', ha'⟩ := ih ha.holds
    exact ⟨l'', ha.trans ha'⟩

/-- The cells of another entry stay as they are. -/
theorem Adds.keeps {l' l₂ : List Nat} {entry₂ : KdbEntry} (ha : Adds h h' entry entry' l l' ps)
    (hh : Holds h entry₂ l₂) (hd : l₂.Disjoint l) :
    Holds h' entry₂ l₂ ∧ l₂.map h'.pair = l₂.map h.pair ∧ l₂.Disjoint l' := by
  have hcells : ∀ x ∈ l₂, h'.cells x = h.cells x := fun x hx => ha.others x (hh.top x hx) fun hl => hd hx hl
  refine ⟨⟨hh.chain.congr fun x hx => ?_, hh.tail, fun x hx => (hh.top x hx).trans ha.top⟩,
    List.map_congr_left fun x hx => ?_, fun x hx hx' => ?_⟩
  · rw [Heap.next, hcells x hx, Heap.next]
  · rw [Heap.pair, hcells x hx, Heap.pair]
  · rcases ha.fresh x hx' with hl | hl
    · exact hd hx hl
    · exact absurd (hh.top x hx) (Nat.not_le.mpr hl)

end Cells

/-! ## The loop -/

/-- The pairs that the loop reads -/
def readPairs : Nat → Str → Option (List (Str × Str))
  | _, [] => some []
  | 0, _ :: _ => none
  | n + 1, c :: ip => (nextPair (c :: ip)).bind fun (p, ip) => (readPairs n ip).map (p :: ·)

theorem pairLoop_eq (n : Nat) (ip : Str) (s : KdbEntry × Heap) :
    pairLoop n ip s = (readPairs n ip).map fun ps => ps.foldl addSym s := by
  induction n generalizing ip s with
  | zero => cases ip <;> rfl
  | succ n ih =>
    cases ip with
    | nil => rfl
    | cons c ip =>
      rw [pairLoop, readPairs]
      cases nextPair (c :: ip) with
      | none => rfl
      | some r =>
        obtain ⟨p, rest⟩ := r
        rw [Option.bind_some, Option.bind_some]
        dsimp only
        rw [ih, Option.map_map]
        rfl

section Update

variable {db db' : KeywDB} {tab : Table} {expID : Float} {ps ps' : List (Str × Str)} {i : Nat} {entry : KdbEntry}
  {list : Str}

/-- The pairs are added to entry `i`. -/
theorem Rep.addSyms (hr : Rep db tab) (hi : db.keywDB[i]? = some entry) (ps : List (Str × Str)) :
    Rep ⟨db.keywDB.set i (ps.foldl addSym (entry, db.heap)).1, (ps.foldl addSym (entry, db.heap)).2⟩
      (tab.modify i fun e => (e.1, e.2 ++ ps)) := by
  obtain ⟨cells, hcells, hdisj⟩ := hr.cells
  obtain ⟨hh, htab⟩ := hcells i entry hi
  obtain ⟨l', ha⟩ := addSyms_adds hh ps
  have hlt : i < db.keywDB.length := (List.getElem?_eq_some_iff.mp hi).1
  -- the cells of the other entries
  have hother : ∀ j e, j ≠ i → db.keywDB[j]? = some e →
      Holds (ps.foldl addSym (entry, db.heap)).2 e (cells j) ∧
        (cells j).map (ps.foldl addSym (entry, db.heap)).2.pair = (cells j).map db.heap.pair ∧
        (cells j).Disjoint l' := fun j e hj he =>
    ha.keeps (hcells j e he).1 (hdisj j i hj (List.getElem?_eq_some_iff.mp he).1 hlt)
  refine ⟨by rw [List.length_set]; exact hr.room, by rw [List.length_modify, List.length_set]; exact hr.length,
    update cells i l', fun j e he => ?_, fun j k hjk hj hk => ?_⟩
  · by_cases hj : j = i
    · subst hj
      rw [List.getElem?_set_self hlt] at he
      cases he
      rw [update_self]
      refine ⟨ha.holds, ?_⟩
      rw [List.getElem?_modify_eq, htab, ha.expID]
      exact congrArg (fun ps => some (entry.expID, ps)) ha.pairs.symm
    · rw [List.getElem?_set_ne (Ne.symm hj)] at he
      obtain ⟨hh', hpairs, -⟩ := hother j e hj he
      rw [update_of_ne hj, List.getElem?_modify_ne _ _ (Ne.symm hj), (hcells j e he).2]
      exact ⟨hh', congrArg (fun ps => some (e.expID, ps)) hpairs.symm⟩
  · rw [List.length_set] at hj hk
    by_cases hji : j = i
    · subst hji
      rw [update_self, update_of_ne hjk.symm]
      exact fun x hx hx' => (hother k _ hjk.symm (List.getElem?_eq_getElem hk)).2.2 hx' hx
    · rw [update_of_ne hji]
      by_cases hki : k = i
      · subst hki
        rw [update_self]
        exact (hother j _ hji (List.getElem?_eq_getElem hj)).2.2
      · rw [update_of_ne hki]
        exact hdisj j k hjk hj hk

/-- A new entry -/
theorem Rep.push (hr : Rep db tab) (hroom : db.keywDB.length < maxKeywmon) (expID : Float) :
    Rep ⟨db.keywDB ++ [⟨expID, 0, 0⟩], db.heap⟩ (tab ++ [(expID, [])]) := by
  obtain ⟨cells, hcells, hdisj⟩ := hr.cells
  refine ⟨by rw [List.length_append]; exact hroom, by simp [hr.length], update cells db.keywDB.length [], fun j e he => ?_,
    fun j k hjk hj hk => ?_⟩
  · rcases Nat.lt_or_ge j db.keywDB.length with hj | hj
    · rw [List.getElem?_append_left hj] at he
      rw [update_of_ne hj.ne, List.getElem?_append_left (hr.length ▸ hj)]
      exact hcells j e he
    · rw [List.getElem?_append_right hj] at he
      rw [List.getElem?_singleton] at he
      split at he
      · cases he
        obtain rfl : j = db.keywDB.length := by omega
        rw [update_self]
        refine ⟨⟨rfl, rfl, by simp⟩, ?_⟩
        simp [← hr.length]
      · cases he
  · rw [List.length_append, List.length_singleton] at hj hk
    by_cases hjn : j = db.keywDB.length
    · subst hjn
      rw [update_self]
      exact List.disjoint_nil_left _
    · rw [update_of_ne hjn]
      by_cases hkn : k = db.keywDB.length
      · subst hkn
        rw [update_self]
        exact List.disjoint_nil_right _
      · rw [update_of_ne hkn]
        exact hdisj j k hjk (by omega) (by omega)

theorem modify_concat {α : Type} (l : List α) (a : α) (f : α → α) :
    (l ++ [a]).modify l.length f = l ++ [f a] := by
  induction l with
  | nil => rfl
  | cons b l ih => exact congrArg (b :: ·) ih

theorem Rep.expIDs (hr : Rep db tab) : tab.map Prod.fst = db.keywDB.map KdbEntry.expID := by
  obtain ⟨cells, hcells, -⟩ := hr.cells
  refine List.ext_getElem? fun i => ?_
  rw [List.getElem?_map, List.getElem?_map]
  cases hi : db.keywDB[i]? with
  | none =>
    rw [List.getElem?_eq_none_iff.mpr (hr.length ▸ List.getElem?_eq_none_iff.mp hi)]
    rfl
  | some entry =>
    rw [(hcells i entry hi).2]
    rfl

/-- The exposure is looked up in the table. -/
theorem Rep.findIdx? (hr : Rep db tab) (expID : Float) :
    (db.keywDB.findIdx? fun entry => smcEqualExpID expID entry.expID) =
      tab.findIdx? fun entry => smcEqualExpID expID entry.1 := by
  have h := congrArg (List.findIdx? (smcEqualExpID expID)) hr.expIDs
  rw [List.findIdx?_map, List.findIdx?_map] at h
  exact h.symm

theorem has_iff : tab.Has expID ↔ ∃ i, (tab.findIdx? fun entry => smcEqualExpID expID entry.1) = some i := by
  rw [← Option.isSome_iff_exists, List.findIdx?_isSome, List.any_eq_true]
  rfl

/-- There is an entry for the exposure exactly if it is found or there is room. -/
theorem entryOf_isSome (hr : Rep db tab) :
    (db.entryOf expID).isSome = true ↔ tab.Has expID ∨ db.keywDB.length < maxKeywmon := by
  rw [has_iff, KeywDB.entryOf, ← hr.findIdx?]
  cases db.keywDB.findIdx? fun entry => smcEqualExpID expID entry.expID with
  | none => split <;> simp_all
  | some i => simp

/-- The entry of an exposure, to which the pairs are added -/
theorem entryOf_rep (hr : Rep db tab) {keywDB : List KdbEntry} (h : db.entryOf expID = some (keywDB, i)) :
    ∃ entry tab', keywDB[i]? = some entry ∧ Rep ⟨keywDB, db.heap⟩ tab' ∧
      ∀ ps, (tab'.modify i fun e => (e.1, e.2 ++ ps)) = tab.append expID ps := by
  rw [KeywDB.entryOf, hr.findIdx?] at h
  cases hfind : tab.findIdx? fun entry => smcEqualExpID expID entry.1 with
  | some j =>
    rw [hfind] at h
    cases h
    have hi := (List.findIdx?_eq_some_iff_getElem.mp (hr.findIdx? expID ▸ hfind)).1
    exact ⟨_, tab, List.getElem?_eq_getElem hi, hr, fun ps => by rw [Table.append, hfind]⟩
  | none =>
    rw [hfind] at h
    dsimp only at h
    split at h
    · next hroom =>
      cases h
      refine ⟨⟨expID, 0, 0⟩, tab ++ [(expID, [])], by simp, hr.push hroom expID, fun ps => ?_⟩
      rw [← hr.length, modify_concat, Table.append, hfind, List.nil_append]
    · cases h

/-- The text of a list behind its exposure id -/
def pairText (list : Str) : Str := list.dropWhile (!isSpace ·)

/-- What `supUpdateKeywDB` does: the pairs that the loop reads are appended. -/
theorem supUpdateKeywDB_rep (hr : Rep db tab) (h : supUpdateKeywDB db list = some db') :
    (tab.Has (Double.atof list) ∨ db.keywDB.length < maxKeywmon) ∧
      ∃ ps, readPairs (pairText list).length (pairText list) = some ps ∧ Rep db' (tab.append (Double.atof list) ps) := by
  obtain ⟨⟨keywDB, i⟩, hentry, h⟩ := Option.bind_eq_some_iff.mp h
  obtain ⟨entry, tab', hi, hr', htab⟩ := entryOf_rep hr hentry
  refine ⟨(entryOf_isSome hr).mp (by rw [hentry]; rfl), ?_⟩
  dsimp only at h
  rw [hi, Option.bind_some, pairLoop_eq, Option.map_map] at h
  obtain ⟨ps, hps, rfl⟩ := Option.map_eq_some_iff.mp h
  exact ⟨ps, hps, htab ps ▸ hr'.addSyms hi ps⟩

theorem supUpdateKeywDB_isSome (hr : Rep db tab) (hroom : tab.Has (Double.atof list) ∨ db.keywDB.length < maxKeywmon)
    (hps : readPairs (pairText list).length (pairText list) = some ps) : ∃ db', supUpdateKeywDB db list = some db' := by
  obtain ⟨⟨keywDB, i⟩, hentry⟩ := Option.isSome_iff_exists.mp ((entryOf_isSome hr).mpr hroom)
  obtain ⟨entry, -, hi, -⟩ := entryOf_rep hr hentry
  refine ⟨⟨keywDB.set i (ps.foldl addSym (entry, db.heap)).1, (ps.foldl addSym (entry, db.heap)).2⟩, ?_⟩
  rw [supUpdateKeywDB]
  dsimp only
  rw [hentry, Option.bind_some]
  dsimp only
  rw [hi, Option.bind_some, pairLoop_eq, ← pairText, hps]
  rfl

/-- The database has one table. -/
theorem Rep.unique {tab' : Table} (hr : Rep db tab) (hr' : Rep db tab') : tab = tab' := by
  obtain ⟨cells, hcells, -⟩ := hr.cells
  obtain ⟨cells', hcells', -⟩ := hr'.cells
  refine List.ext_getElem? fun i => ?_
  cases hi : db.keywDB[i]? with
  | none =>
    have hlen := List.getElem?_eq_none_iff.mp hi
    rw [List.getElem?_eq_none_iff.mpr (hr.length ▸ hlen), List.getElem?_eq_none_iff.mpr (hr'.length ▸ hlen)]
  | some entry =>
    obtain ⟨hh, htab⟩ := hcells i entry hi
    obtain ⟨hh', htab'⟩ := hcells' i entry hi
    rw [htab, htab', hh.chain.unique hh'.chain]

/-- Different pairs make different tables. -/
theorem append_inj (h : tab.append expID ps = tab.append expID ps') : ps = ps' := by
  unfold Table.append at h
  cases hfind : tab.findIdx? fun entry => smcEqualExpID expID entry.1 with
  | some i =>
    rw [hfind] at h
    obtain ⟨hi, -⟩ := List.findIdx?_eq_some_iff_getElem.mp hfind
    have hentry := congrArg (fun t : Table => t[i]?) h
    simpa [List.getElem?_modify_eq, List.getElem?_eq_getElem hi] using hentry
  | none =>
    rw [hfind] at h
    simpa using h

/-- The lists of a run, one after the other -/
def run (lists : List Str) : Option KeywDB := lists.foldlM supUpdateKeywDB .initial

theorem foldlM_rep {lists : List Str} (hr : Rep db tab) (h : lists.foldlM supUpdateKeywDB db = some db') :
    ∃ tab, Rep db' tab := by
  induction lists generalizing db tab with
  | nil =>
    cases h
    exact ⟨tab, hr⟩
  | cons list lists ih =>
    rw [List.foldlM_cons] at h
    obtain ⟨next, hnext, h⟩ := Option.bind_eq_some_iff.mp h
    obtain ⟨-, ps, -, hr'⟩ := supUpdateKeywDB_rep hr hnext
    exact ih hr' h

/-- Every database that is reached, by any lists, has a table. -/
theorem run_rep {lists : List Str} (h : run lists = some db) : ∃ tab, Rep db tab := foldlM_rep rep_initial h

end Update

/-! ## The lists that are read as they stand -/

section Items

variable {i : Item} {items : List Item} {b rest : Str} {n : Nat}

/-- A text up to a character that is not in it -/
theorem cut_at {c : Char} {s : Str} (hs : c ∉ s) (t : Str) :
    (s ++ c :: t).takeWhile (· != c) = s ∧ (s ++ c :: t).dropWhile (· != c) = c :: t := by
  have hne : ∀ d ∈ s, (d != c) = true := by
    intro d hd
    refine bne_iff_ne.mpr ?_
    rintro rfl
    exact hs hd
  rw [List.takeWhile_append_of_pos hne, List.dropWhile_append_of_pos hne]
  simp

theorem copied_iff {s : Str} : copied s = true ↔ s.length < szSymval := by
  have h : szSymval < szFname := by decide
  simp only [copied, Bool.and_eq_true, decide_eq_true_eq]
  omega

/-- What is read has no `=`, and no blank in front. -/
theorem takeWhile_dropWhile {s : Str} :
    '=' ∉ (s.dropWhile isSpace).takeWhile (· != '=') ∧
      ∀ c ∈ ((s.dropWhile isSpace).takeWhile (· != '=')).head?, isSpace c = false := by
  refine ⟨fun h => ?_, fun c hc => ?_⟩
  · have := List.mem_takeWhile_imp h
    simp at this
  · have hhead : c ∈ (s.dropWhile isSpace).head? := by
      cases hd : s.dropWhile isSpace with
      | nil =>
        rw [hd] at hc
        cases hc
      | cons d t =>
        rw [hd, List.takeWhile_cons] at hc
        split at hc
        · exact hc
        · cases hc
    have h := List.head?_dropWhile_not isSpace s
    rw [Option.mem_def.mp hhead] at h
    exact h

/-- A pair is read exactly if its key is read as it stands and both fit. -/
theorem nextPair_iff (hb : ∀ c ∈ b, isSpace c = true) (hq : '\x27' ∉ i.value) {r : Str} :
    nextPair (b ++ (i.text ++ rest)) = some (i.pair, r) ↔ i.Plain ∧ r = rest := by
  have htext : i.text ++ rest = i.key ++ '=' :: '\x27' :: (i.value ++ '\x27' :: ' ' :: rest) := by
    simp [Item.text]
  have hplain : i.Plain → nextPair (b ++ (i.text ++ rest)) = some (i.pair, rest) := by
    intro hp
    have hflush : (b ++ (i.text ++ rest)).dropWhile isSpace = i.text ++ rest := by
      rw [List.dropWhile_append_of_pos hb, htext]
      cases hk : i.key with
      | nil => rfl
      | cons c key => exact List.dropWhile_cons_of_neg (by simp [hp.noBlank c (by rw [hk]; rfl)])
    obtain ⟨hkey, hkey'⟩ := cut_at hp.noEquals ('\x27' :: (i.value ++ '\x27' :: ' ' :: rest))
    obtain ⟨hval, hval'⟩ := cut_at hq (' ' :: rest)
    rw [nextPair, hflush, htext]
    dsimp only
    rw [hkey, hkey', skip2, Option.bind_some, hval, hval', skip2, Option.bind_some, copied_iff.mpr hp.key_lt,
      copied_iff.mpr hp.value_lt]
    rfl
  refine ⟨fun h => ?_, fun ⟨hp, hr⟩ => hr ▸ hplain hp⟩
  have hp : i.Plain := by
    obtain ⟨ip₁, -, h'⟩ := Option.bind_eq_some_iff.mp h
    obtain ⟨ip₂, -, h'⟩ := Option.bind_eq_some_iff.mp h'
    split at h'
    · next hcop =>
      simp only [Option.some.injEq, Prod.mk.injEq, Item.pair] at h'
      obtain ⟨⟨hkey, hval⟩, -⟩ := h'
      rw [hkey, hval, Bool.and_eq_true, copied_iff, copied_iff] at hcop
      obtain ⟨heq, hblank⟩ := takeWhile_dropWhile (s := b ++ (i.text ++ rest))
      rw [hkey] at heq hblank
      exact ⟨heq, hblank, hcop.1, hcop.2⟩
    · cases h'
  refine ⟨hp, ?_⟩
  have := (hplain hp).symm.trans h
  simpa using this.symm

/-- The pairs of the list are read exactly if there is one, or nothing at all, and each of them is read. -/
theorem readPairs_iff (hb : ∀ c ∈ b, isSpace c = true) (hq : ∀ i ∈ items, '\x27' ∉ i.value)
    (hn : (b ++ items.flatMap Item.text).length ≤ n) :
    readPairs n (b ++ items.flatMap Item.text) = some (items.map Item.pair) ↔
      (items = [] → b = []) ∧ ∀ i ∈ items, i.Plain := by
  induction items generalizing n b with
  | nil =>
    simp only [List.flatMap_nil, List.append_nil, List.map_nil, true_imp_iff, List.not_mem_nil, false_imp_iff,
      implies_true, and_true]
    cases b with
    | nil => cases n <;> simp [readPairs]
    | cons c b =>
      obtain ⟨n, rfl⟩ : ∃ m, n = m + 1 := ⟨n - 1, by simp at hn; omega⟩
      have hnone : nextPair (c :: b) = none := by
        rw [nextPair, List.dropWhile_eq_nil_iff.mpr hb]
        rfl
      simp [readPairs, hnone]
  | cons i items ih =>
    obtain ⟨hqi, hq⟩ := List.forall_mem_cons.mp hq
    obtain ⟨c, ip, hip⟩ : ∃ c ip, b ++ (i.text ++ items.flatMap Item.text) = c :: ip :=
      List.exists_cons_of_ne_nil (by simp [Item.text])
    rw [List.flatMap_cons, hip] at hn
    obtain ⟨n, rfl⟩ : ∃ m, n = m + 1 := ⟨n - 1, by simp at hn; omega⟩
    rw [List.flatMap_cons, hip, readPairs, ← hip, List.map_cons, List.forall_mem_cons]
    have hnext : ∀ {r}, nextPair (b ++ (i.text ++ items.flatMap Item.text)) = some (i.pair, r) ↔
        i.Plain ∧ r = items.flatMap Item.text := nextPair_iff hb hqi
    have hrest : (items.flatMap Item.text).length ≤ n := by
      rw [← hip, List.length_append, List.length_append, Item.text, List.length_append, List.length_cons] at hn
      omega
    have ih := ih (b := []) (by simp) hq hrest
    rw [List.nil_append] at ih
    constructor
    · intro h
      obtain ⟨⟨p, r⟩, hp, h⟩ := Option.bind_eq_some_iff.mp h
      obtain ⟨ps, hps, h⟩ := Option.map_eq_some_iff.mp h
      obtain ⟨rfl, rfl⟩ := List.cons.inj h
      obtain ⟨hplain, rfl⟩ := hnext.mp hp
      exact ⟨by simp, hplain, (ih.mp hps).2⟩
    · rintro ⟨-, hplain, hitems⟩
      rw [hnext.mpr ⟨hplain, rfl⟩, Option.bind_some]
      dsimp only
      rw [ih.mpr ⟨fun _ => rfl, hitems⟩]
      rfl

/-- An exposure id has no blank. -/
theorem printf6_noBlank (e : ExpID) : ∀ c ∈ printf6 e, (!isSpace c) = true := by
  intro c hc
  have hdigit : ∀ n : Nat, c ∈ Nat.toDigits 10 n → (!isSpace c) = true := fun n h => by
    rw [not_isSpace_of_isDigit (isDigit_toDigits h)]
    rfl
  simp only [printf6, Double.fixed, List.mem_append, List.mem_cons, List.mem_replicate] at hc
  rcases hc with hc | hc | rfl | ⟨-, rfl⟩ | hc
  · split at hc
    · rw [List.mem_singleton.mp hc]
      rfl
    · cases hc
  · exact hdigit _ hc
  · rfl
  · rfl
  · exact hdigit _ hc

theorem pairText_kmonList (e : ExpID) (items : List Item) :
    pairText (kmonList e items) = ' ' :: items.flatMap Item.text := by
  rw [pairText, kmonList, List.dropWhile_append_of_pos (printf6_noBlank e)]
  rfl

/-- The pairs of a list are appended to those of its exposure exactly if there is one, their keys are read as they
stand, they fit, and the exposure has an entry or there is room for one. -/
theorem update_iff {db : KeywDB} {tab : Table} (hr : Rep db tab) (e : ExpID) {items : List Item}
    (hq : ∀ i ∈ items, '\x27' ∉ i.value) :
    (∃ db', supUpdateKeywDB db (kmonList e items) = some db' ∧
        Rep db' (tab.append (Double.atof (printf6 e)) (items.map Item.pair))) ↔
      items ≠ [] ∧ (∀ i ∈ items, i.Plain) ∧ (tab.Has (Double.atof (printf6 e)) ∨ db.keywDB.length < maxKeywmon) := by
  have hatof : Double.atof (kmonList e items) = Double.atof (printf6 e) := atof_printf6_blank e _
  have hread := readPairs_iff (b := [' ']) (by decide) hq le_rfl
  constructor
  · rintro ⟨db', hup, hr'⟩
    obtain ⟨hroom, ps, hps, hr''⟩ := supUpdateKeywDB_rep hr hup
    rw [hatof] at hroom hr''
    obtain rfl := append_inj (hr''.unique hr')
    rw [pairText_kmonList] at hps
    obtain ⟨hne, hplain⟩ := hread.mp hps
    exact ⟨fun hnil => absurd (hne hnil) (by simp), hplain, hroom⟩
  · rintro ⟨hne, hplain, hroom⟩
    have hps := hread.mpr ⟨fun hnil => absurd hnil hne, hplain⟩
    rw [List.singleton_append, ← pairText_kmonList e] at hps
    obtain ⟨db', hup⟩ := supUpdateKeywDB_isSome hr (hatof ▸ hroom) hps
    obtain ⟨-, ps, hps', hr'⟩ := supUpdateKeywDB_rep hr hup
    rw [hps] at hps'
    cases hps'
    exact ⟨db', hup, hatof ▸ hr'⟩

/-- One keyword -/
def oneItem : Item := ⟨['A'], ['B'], ['1']⟩

/-- The ids 1.000000 and 1.000001 are one exposure, whose entry gets the pairs of both lists. -/
theorem update_one :
    ∃ db₁ db₂, supUpdateKeywDB .initial (kmonList 1 [oneItem]) = some db₁ ∧
      supUpdateKeywDB db₁ (kmonList (1000001 / 1000000) [oneItem]) = some db₂ ∧
      Rep db₂ [(Double.atof (printf6 1), [oneItem.pair, oneItem.pair])] := by
  have hplain : ∀ i ∈ [oneItem], i.Plain := by
    simp only [List.mem_singleton, forall_eq]
    exact ⟨by decide, by simp [oneItem, Item.key, isSpace], by decide, by decide⟩
  have hquote : ∀ i ∈ [oneItem], '\x27' ∉ i.value := by decide
  have heq : smcEqualExpID (Double.atof (printf6 (1000001 / 1000000))) (Double.atof (printf6 1)) = true := by
    decide +kernel
  obtain ⟨db₁, h₁, hr₁⟩ := (update_iff rep_initial 1 hquote).mpr
    ⟨List.cons_ne_nil _ _, hplain, .inr (by decide)⟩
  have htab : Table.append [] (Double.atof (printf6 1)) ([oneItem].map Item.pair) =
      [(Double.atof (printf6 1), [oneItem.pair])] := rfl
  rw [htab] at hr₁
  obtain ⟨db₂, h₂, hr₂⟩ := (update_iff hr₁ (1000001 / 1000000) hquote).mpr
    ⟨List.cons_ne_nil _ _, hplain, .inl ⟨_, List.mem_singleton_self _, heq⟩⟩
  refine ⟨db₁, db₂, h₁, h₂, ?_⟩
  have htab₂ : Table.append [(Double.atof (printf6 1), [oneItem.pair])] (Double.atof (printf6 (1000001 / 1000000)))
      ([oneItem].map Item.pair) = [(Double.atof (printf6 1), [oneItem.pair, oneItem.pair])] := by
    rw [Table.append, List.findIdx?_cons, if_pos heq]
    rfl
  exact htab₂ ▸ hr₂

/-- A list without keywords is read on behind its terminator. -/
theorem update_none :
    supUpdateKeywDB .initial (kmonList 2454321 []) = none ∧
      ¬ ∃ db', supUpdateKeywDB .initial (kmonList 2454321 []) = some db' ∧
        Rep db' (Table.append [] (Double.atof (printf6 2454321)) []) := by
  have hnone : supUpdateKeywDB .initial (kmonList 2454321 []) = none := by
    rw [Option.eq_none_iff_forall_ne_some]
    intro db' h
    obtain ⟨-, ps, hps, -⟩ := supUpdateKeywDB_rep rep_initial h
    rw [pairText_kmonList] at hps
    cases hps
  refine ⟨hnone, ?_⟩
  rintro ⟨db', h, -⟩
  rw [hnone] at h
  cases h

end Items

end Ndhs.Sup.Keyw
