import Mathlib.Data.List.Infix
import Mathlib.Data.List.DropRight
import Ndhs.Dca.Server
import Ndhs.Kwdb.Header
import Ndhs.Lib.Packet

/-!
# Keywords for the DCA (`procDCAMetaData`)

The data of a `TY_META` page are cards of 128 bytes: a keyword, a value and a comment. They are sent to the DCA in
`WriteHeaderData` messages of up to 16 cards each, with the number of cards in front.

* `procDCAMoveStr` copies a field and strips it. For a field that starts with a null the source looks at the byte before
  its buffer, and may clear it; the result is the empty string in any case.
* `MetaPage.cards`: the cards of a page, in their order. `procDCAMetaData_eq`: the messages are these cards in
  groups, each with its number of cards (`packet`), and the groups are all cards (`groups_cards`).
-/

namespace Ndhs.Pxf

open Text Kwdb Mosdca

/-- `TY_META` and other pages -/
structure MetaPage where
  isMeta : Bool
  seqno : Int
  colID : CStr
  expPageNum : Int
  /-- the `dsize` bytes of the page -/
  data : Str

/-- What is stripped at both ends of a field -/
def isTrim (c : Char) : Bool := c == '\'' || isSpace c

/-- `procDCAMoveStr` of the first `len` bytes -/
def procDCAMoveStr (instr : Str) (len : Nat) : Str :=
  let buf := upToNull (instr.take len)
  -- trim trailing space, then skip leading space
  (buf.rdropWhile isTrim).dropWhile isTrim

/-- The strings of a card, for the message -/
def cardStrings (ip : Str) : Keyword where
  keyword := procDCAMoveStr ip 32
  value := procDCAMoveStr (ip.drop 32) 32
  type := ['S']
  comment := procDCAMoveStr (ip.drop 64) 64

/-- Pack the strings of a card. -/
def packKeyword (kw : Keyword) : List Packed := [.str kw.keyword, .str kw.value, .str kw.type, .str kw.comment]

/-- The inner loop, with `n` rounds to go: the items that are packed, and the values of `nkw` and `ip` after it. -/
def packLoop (nkeyw : Nat) : Nat → Nat → Str → List Packed × Nat × Str
  | 0, nkw, ip => ([], nkw, ip)
  | n + 1, nkw, ip =>
    if nkw < nkeyw then
      let (items, nkw', ip') := packLoop nkeyw n (nkw + 1) (ip.drop 128)
      (packKeyword (cardStrings ip) ++ items, nkw', ip')
    else ([], nkw, ip)

/-- The outer loop, with at most `n` rounds to go: the messages that are sent. -/
def sendLoop (seqno : Int) (kwdb : Str) (nkeyw : Nat) : Nat → Nat → Str → List (List Packed)
  | 0, _, _ => []
  | n + 1, nkw, ip =>
    if nkw < nkeyw then
      let nsend := min (nkeyw - nkw) 16
      let (items, nkw', ip') := packLoop nkeyw 16 nkw ip
      (.int seqno :: .str kwdb :: .int nsend :: items) :: sendLoop seqno kwdb nkeyw n nkw' ip'
    else []

namespace MetaPage

variable (page : MetaPage)

/-- The page is to be processed: `procPages` is not set, or has the name of the collector in it. -/
def isSelected (procPages : Option Str) : Bool :=
  match procPages with
  | none => true
  | some s => decide (page.colID.text <:+: s)

/-- The name of the keyword database -/
def kwdb : Str :=
  page.colID.text ++ if page.expPageNum = 0 then ['_', 'P', 'r', 'e'] else ['_', 'P', 'o', 's', 't']

/-- `data_size / 128` -/
def nkeyw : Nat := page.data.length / 128

/-- `procDCAMetaData`: the messages to the DCA -/
def procDCAMetaData (procPages : Option Str) : List (List Packed) :=
  if !page.isSelected procPages || !page.isMeta then []
  else sendLoop page.seqno page.kwdb page.nkeyw page.nkeyw 0 page.data

/-- The cards of the page. -/
def cards : List Keyword := (List.range page.nkeyw).map fun i => cardStrings (page.data.drop (128 * i))

end MetaPage

/-! ## The messages of a page -/

/-- The quadruples of strings in a message -/
def quadsOf : List Packed → List Keyword
  | .str keyword :: .str value :: .str type :: .str comment :: items => ⟨keyword, value, type, comment⟩ :: quadsOf items
  | _ => []

/-- The keywords that are packed in a `WriteHeaderData` message -/
def quads (p : List Packed) : List Keyword := quadsOf (p.drop 3)

/-- The message that a group of cards makes -/
def packet (seqno : Int) (kwdb : Str) (kwl : List Keyword) : List Packed :=
  .int seqno :: .str kwdb :: .int kwl.length :: kwl.flatMap packKeyword

/-- Groups of up to 16 -/
def groups {α : Type*} : Nat → List α → List (List α)
  | 0, _ => []
  | n + 1, l => if l = [] then [] else l.take 16 :: groups n (l.drop 16)

section Messages

variable {page : MetaPage} {nkeyw n nkw : Nat} {ip : Str}

theorem quads_packet (seqno : Int) (kwdb : Str) (kwl : List Keyword) : quads (packet seqno kwdb kwl) = kwl := by
  rw [quads, packet]
  induction kwl with
  | nil => rfl
  | cons kw kwl ih =>
    simp only [List.drop_succ_cons, List.drop_zero, List.flatMap_cons, packKeyword, List.cons_append,
      List.nil_append, quadsOf] at ih ⊢
    rw [ih]

/-- The cards from number `nkw` on -/
def rest (nkeyw nkw : Nat) (ip : Str) : List Keyword :=
  (List.range (nkeyw - nkw)).map fun i => cardStrings (ip.drop (128 * i))

theorem rest_cons (h : nkw < nkeyw) : rest nkeyw nkw ip = cardStrings ip :: rest nkeyw (nkw + 1) (ip.drop 128) := by
  obtain ⟨m, hm⟩ : ∃ m, nkeyw - nkw = m + 1 := ⟨nkeyw - nkw - 1, by omega⟩
  have hm' : nkeyw - (nkw + 1) = m := by omega
  simp only [rest, hm, hm', List.range_succ_eq_map, List.map_cons, List.map_map, Nat.mul_zero, List.drop_zero]
  refine congrArg _ (List.map_congr_left fun i _ => ?_)
  rw [Function.comp_apply, List.drop_drop, Nat.mul_succ, Nat.add_comm]

theorem rest_nil (h : ¬ nkw < nkeyw) : rest nkeyw nkw ip = [] := by
  have : nkeyw - nkw = 0 := by omega
  simp [rest, this]

theorem length_rest : (rest nkeyw nkw ip).length = nkeyw - nkw := by simp [rest]

/-- The inner loop packs the next cards. -/
theorem packLoop_eq (n : Nat) :
    packLoop nkeyw n nkw ip =
      (((rest nkeyw nkw ip).take n).flatMap packKeyword, nkw + min n (nkeyw - nkw), ip.drop (128 * min n (nkeyw - nkw))) := by
  induction n generalizing nkw ip with
  | zero => simp [packLoop]
  | succ n ih =>
    rw [packLoop]
    split
    case isTrue h =>
      have hmin : min (n + 1) (nkeyw - nkw) = min n (nkeyw - (nkw + 1)) + 1 := by omega
      rw [ih, rest_cons h, hmin, List.take_succ_cons, List.flatMap_cons, List.drop_drop, Nat.mul_succ]
      simp only [Prod.mk.injEq, true_and]
      exact ⟨by omega, by rw [Nat.add_comm]⟩
    case isFalse h =>
      have hz : nkeyw - nkw = 0 := by omega
      simp [rest_nil h, hz]

theorem rest_drop (n : Nat) : (rest nkeyw nkw ip).drop n = rest nkeyw (nkw + n) (ip.drop (128 * n)) := by
  induction n generalizing nkw ip with
  | zero => simp
  | succ n ih =>
    by_cases h : nkw < nkeyw
    · rw [rest_cons h, List.drop_succ_cons, ih, List.drop_drop, Nat.mul_succ, Nat.add_comm 128]
      congr 1
      omega
    · rw [rest_nil h, rest_nil (by omega), List.drop_nil]

/-- The inner loop leaves the cards behind the next 16. -/
theorem rest_drop_min :
    rest nkeyw (nkw + min 16 (nkeyw - nkw)) (ip.drop (128 * min 16 (nkeyw - nkw))) = (rest nkeyw nkw ip).drop 16 := by
  rw [← rest_drop]
  rcases le_total 16 (nkeyw - nkw) with h | h
  · rw [min_eq_left h]
  · rw [min_eq_right h, List.drop_eq_nil_of_le (by rw [length_rest]), List.drop_eq_nil_of_le (by rwa [length_rest])]

/-- The messages are the groups of the cards. -/
theorem sendLoop_eq (seqno : Int) (kwdb : Str) (n : Nat) :
    sendLoop seqno kwdb nkeyw n nkw ip = (groups n (rest nkeyw nkw ip)).map (packet seqno kwdb) := by
  induction n generalizing nkw ip with
  | zero => rfl
  | succ n ih =>
    rw [sendLoop, groups]
    split
    case isTrue h =>
      have hne : rest nkeyw nkw ip ≠ [] := by
        rw [rest_cons h]
        exact List.cons_ne_nil _ _
      have hlen : ((rest nkeyw nkw ip).take 16).length = min (nkeyw - nkw) 16 := by
        rw [List.length_take, length_rest, Nat.min_comm]
      rw [if_neg hne, packLoop_eq, List.map_cons]
      dsimp only
      rw [ih, rest_drop_min, packet, hlen]
    case isFalse h => rw [if_pos (rest_nil h), List.map_nil]

theorem groups_flatten {α : Type*} {l : List α} (h : l.length ≤ 16 * n) : (groups n l).flatten = l := by
  induction n generalizing l with
  | zero =>
    obtain rfl : l = [] := List.eq_nil_of_length_eq_zero (by omega)
    rfl
  | succ n ih =>
    rw [groups]
    split
    case isTrue h => rw [h, List.flatten_nil]
    case isFalse h' => rw [List.flatten_cons, ih (by rw [List.length_drop]; omega), List.take_append_drop]

theorem rest_zero : rest page.nkeyw 0 page.data = page.cards := rfl

theorem procDCAMetaData_eq {procPages : Option Str} (hm : page.isMeta = true) (hs : page.isSelected procPages = true) :
    page.procDCAMetaData procPages = (groups page.nkeyw page.cards).map (packet page.seqno page.kwdb) := by
  rw [MetaPage.procDCAMetaData, hm, hs, ← rest_zero]
  exact sendLoop_eq page.seqno page.kwdb page.nkeyw

/-- The groups are all cards. -/
theorem groups_cards : (groups page.nkeyw page.cards).flatten = page.cards := by
  refine groups_flatten ?_
  rw [← rest_zero, length_rest]
  omega

theorem mem_cards_of_mem_groups {kwl : List Keyword} {kw : Keyword} (h : kwl ∈ groups page.nkeyw page.cards)
    (hk : kw ∈ kwl) : kw ∈ page.cards := by
  rw [← groups_cards]
  exact List.mem_flatten.mpr ⟨kwl, h, hk⟩

/-! ## The strings -/

theorem procDCAMoveStr_sublist (instr : Str) (len : Nat) :
    (procDCAMoveStr instr len).Sublist (upToNull (instr.take len)) :=
  (List.dropWhile_sublist _).trans (List.rdropWhile_prefix _ _).sublist

theorem storable_procDCAMoveStr (instr : Str) {len : Nat} (h : len ≤ 64) : Storable (procDCAMoveStr instr len) := by
  have hsub := procDCAMoveStr_sublist instr len
  have htake : (upToNull (instr.take len)).length ≤ len :=
    (length_upToNull_le _).trans (by rw [List.length_take]; exact min_le_left _ _)
  refine ⟨fun hn => noNull_upToNull _ (hsub.subset hn), ?_⟩
  have hlen := hsub.length_le
  rw [defSzsbuf]
  omega

/-- The texts fit: the name of the database into its buffer, and the keywords start with a 7-bit character. -/
structure MetaPage.Sendable (page : MetaPage) : Prop where
  name : page.colID.text.length + 6 ≤ 80
  ascii : ∀ kw ∈ page.cards, ∀ c ∈ kw.keyword.head?, c.toNat < 128

theorem MetaPage.Sendable.kwdb_short (h : page.Sendable) : page.kwdb.length + 2 ≤ defSzsbuf := by
  have hn := h.name
  rw [MetaPage.kwdb, List.length_append, defSzsbuf]
  split <;> simp <;> omega

theorem MetaPage.noNull_kwdb (page : MetaPage) : '\x00' ∉ page.kwdb := by
  rw [MetaPage.kwdb, List.mem_append]
  rintro (h | h)
  · exact page.colID.noNull h
  · revert h
    split <;> decide

end Messages

end Ndhs.Pxf
