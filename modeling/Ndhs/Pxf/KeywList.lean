import Ndhs.Lib.Cells
import Ndhs.Lib.Run
import Ndhs.Lib.Text
import Ndhs.Lib.Words

/-!
# The list of monitored keywords (`dhssup/supKeyw.c`, `pxf/mbusMsgHandler.c`)

The supervisor sends the configured keywords in one `keyword add` message, each with a blank behind it
(`supMakeKeywordList`). The handler of the PXF adds the words of such a message to its list, and takes a word off it for
a `keyword del` message.

* `handleSet` gives `none` where the handler reads or writes outside its memory. Memory for a slot can be allocated.
* `addLoop_eq`: the loop stores the words, and an empty one if the text ends with a blank.
* `keywordDel_erase`: the first word that is equal is taken off.
* `keywordList_iff`: the list stays right for the messages that do not end with a blank. The message of the supervisor
  is none of these, unless nothing is configured.
-/

namespace Ndhs.Pxf

open Text Words Cells Function Machine

/-- `SZ_LINE` -/
def szLine : Nat := 1024

/-- `SZ_KEYWLIST` -/
def szKeywlist : Nat := 100

/-- `KEYW_LEN` -/
def keywLen : Nat := 64

/-! ## The supervisor -/

/-- A word that fits a field of `keywMon` -/
structure KeywField where
  text : Str
  ne_nil : text ≠ []
  noBlank : ∀ c ∈ text, isSpace c = false
  short : text.length < keywLen

structure KeywMon where
  keyw : KeywField
  dbname : KeywField

/-- What is sent of an entry -/
def KeywMon.dotted (kw : KeywMon) : Str := kw.dbname.text ++ '.' :: kw.keyw.text

/-- The message with the configured keywords -/
def supMakeKeywordList (keywList : List KeywMon) : Str :=
  chars "keyword add " ++ keywList.flatMap fun kw => kw.dotted ++ [' ']

/-! ## The handler -/

/-- The globals that an `MB_SET` message changes. A slot is `none` until it has memory. -/
structure Globals where
  dcaTid : Int
  seqno : Int
  keywList : Nat → Option Str
  nkeywords : Nat

/-- As the PXF starts -/
def Globals.initial : Globals where
  dcaTid := 0
  seqno := 0
  keywList := fun _ => none
  nkeywords := 0

/-- `&msg[n]`, where it is read -/
def textAt (msg : Str) (n : Nat) : Option Str := if n ≤ msg.length then some (msg.drop n) else none

namespace Globals

variable (g : Globals)

/-- The slots that are in use -/
def entries : List (Option Str) := cells g.keywList g.nkeywords

/-- Store a word: through `buf`, into the next slot. -/
def store (w : Str) : Option Globals :=
  if w.length < szLine ∧ g.nkeywords < szKeywlist then
    some { g with keywList := update g.keywList g.nkeywords (some w), nkeywords := g.nkeywords + 1 }
  else none

/-- The loop over the text, with at most `n` rounds to go -/
def addLoop : Nat → Str → Globals → Option Globals
  | 0, _, g => some g
  | n + 1, ip, g =>
    if ip = [] then some g
    else
      -- `sp` and `ip` move together
      let ip := ip.dropWhile isSpace
      (g.store (ip.takeWhile (!isSpace ·))).bind (addLoop n (ip.dropWhile (!isSpace ·)))

/-- `keyword add`: every round of the loop takes something off the text. -/
def keywordAdd (ip : Str) : Option Globals := addLoop ip.length ip g

/-- `keyword del`: the later words move up, the memory of the last slot stays. -/
def keywordDel (key : Str) : Globals :=
  match (List.range g.nkeywords).find? fun i => g.keywList i == some key with
  | none => g
  | some i =>
    { g with
      keywList := (List.range' i (g.nkeywords - 1 - i)).foldl (fun f j => update f j (f (j + 1))) g.keywList
      nkeywords := g.nkeywords - 1 }

end Globals

def isAdd (msg : Str) : Bool := strncmpEq msg (chars "keyword add") 11

def isDel (msg : Str) : Bool := strncmpEq msg (chars "keyword del") 11

/-- `myHandler` of an `MB_SET` message -/
def handleSet (g : Globals) (msg : Str) : Option Globals :=
  if strncmpEq msg (chars "dca_tid") 7 then
    (textAt msg 8).map fun s => { g with dcaTid := atoi s }
  else if strncmpEq msg (chars "seqno") 5 then
    (textAt msg 6).map fun s => { g with seqno := atoi s }
  else if strncmpEq msg (chars "no-op") 5 then some g
  else if isAdd msg then (textAt msg 12).bind g.keywordAdd
  else if isDel msg then
    -- the key is not read if there is nothing to compare it with
    if g.nkeywords = 0 then some g else (textAt msg 12).map g.keywordDel
  else some g

/-! ## What is wanted -/

/-- The list after a message -/
def want (l : List Str) (msg : Str) : List Str :=
  if isAdd msg then l ++ words isSpace (msg.drop 12) else l.erase (msg.drop 12)

/-- The handler, and the list that is wanted -/
def step (s : Globals × List Str) (msg : Str) : Option (Globals × List Str) :=
  (handleSet s.1 msg).map fun g => (g, want s.2 msg)

/-- The list is the one that is wanted, and has no empty word. -/
def Kept (s : Globals × List Str) : Prop := s.1.entries = s.2.map some ∧ [] ∉ s.2

/-- A message about keywords, after which the list fits -/
def Request (s : Globals × List Str) (msg : Str) : Prop :=
  (isAdd msg = true ∨ isDel msg = true) ∧ (want s.2 msg).length ≤ szKeywlist

def endsBlank (ip : Str) : Bool := ip.getLast?.any isSpace

/-- There is a text, without a blank at its end. Its words fit `buf`. -/
def Clean (s : Globals × List Str) (msg : Str) : Prop :=
  if isAdd msg then
    12 ≤ msg.length ∧ endsBlank (msg.drop 12) = false ∧ ∀ w ∈ words isSpace (msg.drop 12), w.length < szLine
  else 12 ≤ msg.length ∨ s.2 = []

/-! ## `keyword add` -/

section
variable {g g' : Globals} {w ip : Str} {l : List Str}

theorem store_eq_some (h : g.store w = some g') :
    w.length < szLine ∧ g'.entries = g.entries ++ [some w] ∧ g'.nkeywords = g.nkeywords + 1 := by
  unfold Globals.store at h
  split at h
  · rename_i hw
    cases h
    refine ⟨hw.1, ?_, rfl⟩
    simp only [Globals.entries]
    rw [cells_succ, update_self, cells_congr fun j hj => update_of_ne (Nat.ne_of_lt hj) _ _]
  · cases h

theorem store_isSome (hw : w.length < szLine) (hn : g.nkeywords < szKeywlist) : ∃ g', g.store w = some g' :=
  ⟨_, if_pos ⟨hw, hn⟩⟩

/-- What the loop stores -/
def stored (ip : Str) : List Str := words isSpace ip ++ if endsBlank ip then [[]] else []

/-- The text behind a word that is not the last ends as the whole text does. -/
theorem endsBlank_suffix {s : Str} (h : s <:+ ip) (hs : s ≠ []) : endsBlank s = endsBlank ip := by
  obtain ⟨t, rfl⟩ := h
  rw [endsBlank, endsBlank, List.getLast?_append_of_ne_nil t hs]

theorem length_rest_lt (h : ip ≠ []) : ((ip.dropWhile isSpace).dropWhile (!isSpace ·)).length < ip.length := by
  have hlen := congrArg List.length (List.takeWhile_append_dropWhile (p := (!isSpace ·)) (l := ip.dropWhile isSpace))
  have hle := (List.dropWhile_suffix isSpace (l := ip)).length_le
  rw [List.length_append] at hlen
  by_cases hd : ip.dropWhile isSpace = []
  · rw [hd]
    exact List.length_pos_of_ne_nil h
  · have hw := List.length_pos_of_ne_nil (takeWhile_ne_nil hd)
    omega

/-- One round: the word in front, and then what is stored of the rest. -/
theorem stored_eq_cons (h : ip ≠ []) :
    stored ip = (ip.dropWhile isSpace).takeWhile (!isSpace ·) ::
      stored ((ip.dropWhile isSpace).dropWhile (!isSpace ·)) := by
  by_cases hd : ip.dropWhile isSpace = []
  · -- nothing but blanks: an empty word is stored
    have hend : endsBlank ip = true := by
      rw [endsBlank, List.getLast?_eq_some_getLast h, Option.any_some]
      exact List.dropWhile_eq_nil_iff.mp hd _ (List.getLast_mem h)
    rw [stored, words_eq_nil hd, hend, hd]
    rfl
  · rw [stored, words_eq_cons hd, stored, List.cons_append]
    congr 3
    by_cases hr : (ip.dropWhile isSpace).dropWhile (!isSpace ·) = []
    · -- the text ends with the word
      have hend : endsBlank (ip.dropWhile isSpace) = false := by
        rw [endsBlank, List.getLast?_eq_some_getLast hd, Option.any_some]
        simpa using List.dropWhile_eq_nil_iff.mp hr _ (List.getLast_mem hd)
      rw [hr, ← endsBlank_suffix (List.dropWhile_suffix _) hd, hend]
      rfl
    · rw [endsBlank_suffix ((List.dropWhile_suffix _).trans (List.dropWhile_suffix _)) hr]

theorem addLoop_eq {n : Nat} (hn : ip.length ≤ n) : Globals.addLoop n ip g = (stored ip).foldlM Globals.store g := by
  induction n generalizing ip g with
  | zero =>
    obtain rfl : ip = [] := List.eq_nil_of_length_eq_zero (Nat.le_zero.mp hn)
    rfl
  | succ n ih =>
    unfold Globals.addLoop
    split
    · rename_i h
      subst h
      rfl
    · rename_i h
      have hrest := length_rest_lt h
      rw [stored_eq_cons h, List.foldlM_cons]
      exact Option.bind_congr fun g' _ => ih (by omega)

theorem foldlM_store (h : l.foldlM Globals.store g = some g') :
    (∀ w ∈ l, w.length < szLine) ∧ g'.entries = g.entries ++ l.map some := by
  induction l generalizing g with
  | nil =>
    cases h
    exact ⟨fun w hw => absurd hw List.not_mem_nil, (List.append_nil _).symm⟩
  | cons w l ih =>
    rw [List.foldlM_cons] at h
    obtain ⟨g₁, h₁, h⟩ := Option.bind_eq_some_iff.mp h
    obtain ⟨hw, he, -⟩ := store_eq_some h₁
    obtain ⟨hl, he'⟩ := ih h
    refine ⟨List.forall_mem_cons.mpr ⟨hw, hl⟩, ?_⟩
    rw [he', he, List.append_assoc, List.map_cons, List.singleton_append]

theorem foldlM_store_isSome (hl : ∀ w ∈ l, w.length < szLine) (hn : g.nkeywords + l.length ≤ szKeywlist) :
    ∃ g', l.foldlM Globals.store g = some g' := by
  induction l generalizing g with
  | nil => exact ⟨g, rfl⟩
  | cons w l ih =>
    obtain ⟨hw, hl⟩ := List.forall_mem_cons.mp hl
    rw [List.length_cons] at hn
    obtain ⟨g₁, h₁⟩ := store_isSome hw (show g.nkeywords < szKeywlist by omega)
    obtain ⟨-, -, hn₁⟩ := store_eq_some h₁
    obtain ⟨g', h'⟩ := ih (g := g₁) hl (by omega)
    exact ⟨g', by rw [List.foldlM_cons, h₁]; exact h'⟩

theorem keywordAdd_eq (g : Globals) (ip : Str) : g.keywordAdd ip = (stored ip).foldlM Globals.store g :=
  addLoop_eq (Nat.le_refl _)

/-! ## `keyword del` -/

theorem length_entries (g : Globals) : g.entries.length = g.nkeywords := cells_length

theorem length_of_entries (h : g.entries = l.map some) : g.nkeywords = l.length := by
  rw [← length_entries, h, List.length_map]

/-- The first word that is equal is taken off. -/
theorem keywordDel_erase (g : Globals) (key : Str) : (g.keywordDel key).entries = g.entries.erase (some key) := by
  unfold Globals.keywordDel
  split
  · rename_i h
    have hne : some key ∉ g.entries := by
      intro hmem
      obtain ⟨i, hi, hkey⟩ := mem_cells.mp hmem
      have := List.find?_eq_none.mp h i (List.mem_range.mpr hi)
      exact this (by rw [hkey]; exact BEq.rfl)
    rw [List.erase_of_not_mem hne]
  · rename_i i h
    exact cells_erase h

end

/-! ## A message -/

section
variable {s t : Globals × List Str} {g g' : Globals} {msg : Str} {l : List Str}

/-- A message with a prefix that starts otherwise -/
theorem strncmpEq_other {p q : Str} {n m : Nat} (h : strncmpEq msg p n = true) (hm : m ≤ n)
    (hpq : (p.take n).take m ≠ q.take m) : strncmpEq msg q m = false := by
  have hp : msg.take n = p.take n := eq_of_beq h
  refine beq_eq_false_iff_ne.mpr fun hq => hpq ?_
  rw [← hp, List.take_take, Nat.min_eq_left hm, hq]

/-- The messages about keywords start otherwise than the others and each other. -/
theorem keyword_other :
    (∀ p ∈ [chars "keyword add", chars "keyword del"],
      (p.take 11).take 7 ≠ (chars "dca_tid").take 7 ∧ (p.take 11).take 5 ≠ (chars "seqno").take 5 ∧
        (p.take 11).take 5 ≠ (chars "no-op").take 5) ∧
      ((chars "keyword del").take 11).take 11 ≠ (chars "keyword add").take 11 := by
  decide +kernel

theorem handleSet_add (h : isAdd msg = true) : handleSet g msg = (textAt msg 12).bind g.keywordAdd := by
  obtain ⟨htid, hseqno, hnoop⟩ := keyword_other.1 _ List.mem_cons_self
  have h1 : strncmpEq msg (chars "dca_tid") 7 = false := strncmpEq_other h (by decide) htid
  have h2 : strncmpEq msg (chars "seqno") 5 = false := strncmpEq_other h (by decide) hseqno
  have h3 : strncmpEq msg (chars "no-op") 5 = false := strncmpEq_other h (by decide) hnoop
  simp only [handleSet, h1, h2, h3, h, Bool.false_eq_true, if_false, if_true]

theorem handleSet_del (h : isDel msg = true) :
    isAdd msg = false ∧
      handleSet g msg = if g.nkeywords = 0 then some g else (textAt msg 12).map g.keywordDel := by
  obtain ⟨htid, hseqno, hnoop⟩ := keyword_other.1 _ (List.mem_cons_of_mem _ List.mem_cons_self)
  have h1 : strncmpEq msg (chars "dca_tid") 7 = false := strncmpEq_other h (by decide) htid
  have h2 : strncmpEq msg (chars "seqno") 5 = false := strncmpEq_other h (by decide) hseqno
  have h3 : strncmpEq msg (chars "no-op") 5 = false := strncmpEq_other h (by decide) hnoop
  have h4 : isAdd msg = false := strncmpEq_other h (Nat.le_refl _) keyword_other.2
  refine ⟨h4, ?_⟩
  simp only [handleSet, h1, h2, h3, h4, h, Bool.false_eq_true, if_false, if_true]

theorem textAt_eq_some {n : Nat} {ip : Str} (h : textAt msg n = some ip) : n ≤ msg.length ∧ ip = msg.drop n := by
  unfold textAt at h
  split at h
  · rename_i hn
    exact ⟨hn, (Option.some.inj h).symm⟩
  · cases h

/-- A message that adds words: what is stored, and that there is a text with words that fit. -/
theorem handleSet_add_eq_some (h : isAdd msg = true) (hg : handleSet g msg = some g') :
    12 ≤ msg.length ∧ (∀ w ∈ stored (msg.drop 12), w.length < szLine) ∧
      g'.entries = g.entries ++ (stored (msg.drop 12)).map some := by
  rw [handleSet_add h] at hg
  obtain ⟨ip, hip, hg⟩ := Option.bind_eq_some_iff.mp hg
  obtain ⟨hlen, rfl⟩ := textAt_eq_some hip
  rw [keywordAdd_eq] at hg
  obtain ⟨hw, he⟩ := foldlM_store hg
  exact ⟨hlen, hw, he⟩

theorem stored_of_not_endsBlank {ip : Str} (h : endsBlank ip = false) : stored ip = words isSpace ip := by
  rw [stored, h]
  exact List.append_nil _

/-- The list stays right for a clean message. -/
theorem step_clean (hs : Kept s) (hr : Request s msg) (hc : Clean s msg) : ∃ t, step s msg = some t ∧ Kept t := by
  obtain ⟨g, l⟩ := s
  obtain ⟨he, hne⟩ := hs
  have hn : g.nkeywords = l.length := length_of_entries he
  obtain ⟨hadd | hdel, hroom⟩ := hr
  · simp only [Clean, hadd, if_true] at hc
    simp only [want, hadd, if_true, List.length_append] at hroom
    obtain ⟨hlen, hend, hw⟩ := hc
    obtain ⟨g', hg'⟩ := foldlM_store_isSome (g := g) hw (by omega)
    have hh : handleSet g msg = some g' := by
      rw [handleSet_add hadd, textAt, if_pos hlen, Option.bind_some, keywordAdd_eq, stored_of_not_endsBlank hend, hg']
    obtain ⟨-, -, he'⟩ := handleSet_add_eq_some hadd hh
    refine ⟨(g', want l msg), by rw [step, hh]; rfl, ?_, ?_⟩
    · rw [he', he, stored_of_not_endsBlank hend, ← List.map_append]
      simp only [want, hadd, if_true]
    · simp only [want, hadd, if_true]
      exact List.not_mem_append hne fun hmem => ne_nil_of_mem_words hmem rfl
  · obtain ⟨hnot, hh⟩ := handleSet_del (g := g) hdel
    simp only [Clean, hnot, Bool.false_eq_true, if_false] at hc
    have hwant : want l msg = l.erase (msg.drop 12) := by
      simp only [want, hnot, Bool.false_eq_true, if_false]
    have hne' : [] ∉ want l msg := hwant ▸ fun hmem => hne (List.mem_of_mem_erase hmem)
    by_cases h0 : l = []
    · rw [if_pos (by rw [hn, h0]; rfl)] at hh
      refine ⟨(g, want l msg), by rw [step, hh]; rfl, ?_, hne'⟩
      rw [he, hwant, h0]
      rfl
    · have hlen := hc.resolve_right h0
      rw [if_neg (by rw [hn]; exact mt List.eq_nil_of_length_eq_zero h0), textAt, if_pos hlen, Option.map_some] at hh
      refine ⟨(g.keywordDel (msg.drop 12), want l msg), by rw [step, hh]; rfl, ?_, hne'⟩
      rw [keywordDel_erase, he, hwant, List.map_erase (Option.some_injective _)]

/-- A message that is not clean spoils the list, if the handler survives it. -/
theorem step_unclean (hs : Kept s) (hr : Request s msg) (hc : ¬ Clean s msg) (ht : step s msg = some t) : ¬ Kept t := by
  obtain ⟨g, l⟩ := s
  obtain ⟨he, hne⟩ := hs
  obtain ⟨g', hh, rfl⟩ := Option.map_eq_some_iff.mp ht
  rintro ⟨he', hne'⟩
  obtain ⟨hadd | hdel, -⟩ := hr
  · obtain ⟨hlen, hw, hst⟩ := handleSet_add_eq_some hadd hh
    refine hc ?_
    simp only [Clean, hadd, if_true]
    simp only [want, hadd, if_true] at he'
    rw [hst, he, ← List.map_append] at he'
    have hl : stored (msg.drop 12) = words isSpace (msg.drop 12) :=
      List.append_cancel_left (List.map_injective_iff.mpr (Option.some_injective _) he')
    refine ⟨hlen, ?_, hl ▸ hw⟩
    cases hend : endsBlank (msg.drop 12) with
    | false => rfl
    | true =>
      rw [stored, hend, if_pos rfl] at hl
      cases List.append_right_eq_self.mp hl
  · obtain ⟨hnot, hdel⟩ := handleSet_del (g := g) hdel
    refine hc ?_
    simp only [Clean, hnot, Bool.false_eq_true, if_false]
    by_cases h0 : l = []
    · exact Or.inr h0
    · have hn : g.nkeywords = l.length := length_of_entries he
      rw [hdel, if_neg (by rw [hn]; exact mt List.eq_nil_of_length_eq_zero h0)] at hh
      obtain ⟨ip, hip, -⟩ := Option.map_eq_some_iff.mp hh
      exact Or.inl (textAt_eq_some hip).1

end

/-! ## The configured keywords -/

theorem dotted_word (kw : KeywMon) : kw.dotted ≠ [] ∧ ∀ c ∈ kw.dotted, isSpace c = false := by
  refine ⟨List.append_ne_nil_of_right_ne_nil _ (List.cons_ne_nil _ _), fun c hc => ?_⟩
  rcases List.mem_append.mp hc with hc | hc
  · exact kw.dbname.noBlank c hc
  · rcases List.mem_cons.mp hc with rfl | hc
    · rfl
    · exact kw.keyw.noBlank c hc

theorem keyword_add : chars "keyword add " = ['k', 'e', 'y', 'w', 'o', 'r', 'd', ' ', 'a', 'd', 'd', ' '] :=
  chars_ofList _

theorem drop_supMakeKeywordList (cfg : List KeywMon) :
    (supMakeKeywordList cfg).drop 12 = (cfg.map KeywMon.dotted).flatMap (· ++ [' ']) := by
  have hlen : (chars "keyword add ").length = 12 := by rw [keyword_add]; rfl
  rw [supMakeKeywordList, ← hlen, List.drop_left, List.flatMap_map]

theorem isAdd_supMakeKeywordList (cfg : List KeywMon) : isAdd (supMakeKeywordList cfg) = true := by
  have hlen : 11 ≤ (chars "keyword add ").length := by
    rw [keyword_add]
    decide
  have hadd : chars "keyword add" = ['k', 'e', 'y', 'w', 'o', 'r', 'd', ' ', 'a', 'd', 'd'] := chars_ofList _
  rw [isAdd, strncmpEq, supMakeKeywordList, List.take_append_of_le_length hlen, keyword_add, hadd]
  decide

/-- The words of the message are the configured ones. It ends with a blank if there are any. -/
theorem stored_supMakeKeywordList (cfg : List KeywMon) :
    stored ((supMakeKeywordList cfg).drop 12) = cfg.map KeywMon.dotted ++ if cfg = [] then [] else [[]] := by
  have hw : ∀ w ∈ cfg.map KeywMon.dotted, w ≠ [] ∧ ∀ c ∈ w, isSpace c = false := by
    intro w hw
    obtain ⟨kw, -, rfl⟩ := List.mem_map.mp hw
    exact dotted_word kw
  rw [drop_supMakeKeywordList, stored, words_flatMap hw rfl]
  congr 1
  rcases List.eq_nil_or_concat cfg with rfl | ⟨cfg, kw, rfl⟩
  · rfl
  · rw [List.concat_eq_append]
    have hend : endsBlank (((cfg ++ [kw]).map KeywMon.dotted).flatMap (· ++ [' '])) = true := by
      rw [List.map_append, List.flatMap_append, List.map_singleton, List.flatMap_singleton, ← List.append_assoc,
        endsBlank, List.getLast?_append_of_ne_nil _ (List.cons_ne_nil _ _)]
      rfl
    rw [hend, if_pos rfl, if_neg (by simp)]

/-- What the PXF has after the message of the supervisor: the configured keywords, and then an empty one. -/
theorem entries_configured {cfg : List KeywMon} {g : Globals}
    (h : handleSet .initial (supMakeKeywordList cfg) = some g) :
    g.entries = (cfg.map KeywMon.dotted ++ if cfg = [] then [] else [[]]).map some := by
  obtain ⟨-, -, he⟩ := handleSet_add_eq_some (isAdd_supMakeKeywordList cfg) h
  rw [he, stored_supMakeKeywordList]
  rfl

/-- The list is right after the message of the supervisor and after each of the messages `msgs`. -/
def Monitored (cfg : List KeywMon) (msgs : List Str) : Prop :=
  ∃ g, handleSet .initial (supMakeKeywordList cfg) = some g ∧
    Always Kept step (g, cfg.map KeywMon.dotted) msgs

/-- The messages are about keywords, and the list fits after each. -/
def Requests (cfg : List KeywMon) (msgs : List Str) : Prop :=
  ∀ g, handleSet .initial (supMakeKeywordList cfg) = some g → Steps Request step (g, cfg.map KeywMon.dotted) msgs

theorem handleSet_nil : handleSet .initial (supMakeKeywordList []) = some .initial := by
  have hlen : 12 ≤ (supMakeKeywordList []).length := by
    rw [supMakeKeywordList, keyword_add]
    decide
  rw [handleSet_add (isAdd_supMakeKeywordList []), textAt, if_pos hlen, Option.bind_some, keywordAdd_eq,
    stored_supMakeKeywordList]
  rfl

/-- The message of the supervisor alone spoils the list. -/
theorem Monitored.eq_nil {cfg : List KeywMon} {msgs : List Str} (h : Monitored cfg msgs) : cfg = [] := by
  obtain ⟨g, hg, hall⟩ := h
  by_contra hne
  have he := hall.head.1
  rw [entries_configured hg, if_neg hne, List.map_append] at he
  cases List.append_right_eq_self.mp he

/-- The list stays right exactly if nothing is configured and every message is clean. -/
theorem keywordList_iff (cfg : List KeywMon) (msgs : List Str) (hr : Requests cfg msgs) :
    Monitored cfg msgs ↔ cfg = [] ∧ Steps Clean step (.initial, []) msgs := by
  have hiff : Requests [] msgs → (Always Kept step (.initial, []) msgs ↔ Steps Clean step (.initial, []) msgs) := by
    intro hr
    exact always_iff_steps_of_legal (fun _ => id) (fun s a hs hr hc => step_clean hs hr hc)
      (fun s a t hs hr hc ht => step_unclean hs hr hc ht) ⟨rfl, List.not_mem_nil⟩ (hr .initial handleSet_nil)
  constructor
  · intro h
    obtain rfl := h.eq_nil
    obtain ⟨g, hg, hall⟩ := h
    obtain rfl : Globals.initial = g := Option.some.inj (handleSet_nil.symm.trans hg)
    exact ⟨rfl, (hiff hr).mp hall⟩
  · rintro ⟨rfl, hc⟩
    exact ⟨.initial, handleSet_nil, (hiff hr).mpr hc⟩

instance (s : Globals × List Str) (msg : Str) : Decidable (Request s msg) := by
  unfold Request
  infer_instance

instance (s : Globals × List Str) (msg : Str) : Decidable (Clean s msg) := by
  unfold Clean
  infer_instance

/-- Two words are added, and the first is taken off. -/
theorem keywordList_two :
    Monitored [] [chars "keyword add KTM.RA any.DEC", chars "keyword del KTM.RA"] := by
  refine (keywordList_iff [] _ fun g hg => ?_).mpr ⟨rfl, by decide +kernel⟩
  obtain rfl : Globals.initial = g := Option.some.inj (handleSet_nil.symm.trans hg)
  decide +kernel

/-- `RA` of the database `KTM` -/
def monitorRA : KeywMon where
  keyw := ⟨['R', 'A'], by decide, by decide, by decide⟩
  dbname := ⟨['K', 'T', 'M'], by decide, by decide, by decide⟩

/-- An empty word is stored behind it. -/
theorem keywordList_not :
    (handleSet .initial (supMakeKeywordList [monitorRA])).map Globals.entries =
        some [some (chars "KTM.RA"), some []] ∧
      ¬ Monitored [monitorRA] [] := by
  refine ⟨by decide +kernel, fun h => ?_⟩
  cases h.eq_nil

end Ndhs.Pxf
