import Ndhs.Kwdb.Edit
import Ndhs.Lib.Run

/-!
# The capacity of the string buffer (`mosdca/kwdb.c`)

`addstr` stores a text behind the others. If the buffer is full it gets `DEF_SZSBUF` more bytes, once, whatever the
length of the text is; `strcpy` then writes the text without another test. A longer text is written past the end.

`Strings` is a string buffer and the strings that were stored in it, each with its offset and the length that it was
stored with. `addstr` stores a new one. `kwdb_SetValue` overwrites one in place if it is long enough, and stores the new
value behind the others if not.

`addstr_eq_ite`: when `addstr` has a result. `capacity_iff`: in a run without an allocation failure all strings stay in
the buffer just when no text is longer than the bytes that are left and `DEF_SZSBUF` more.
-/

namespace Ndhs.Kwdb

open Text Buffer Function Machine

/-- A string buffer, and the strings in it by their numbers. `span` is the length that a string was stored with
(`vallen`). -/
structure Strings where
  sbuf : Sbuf
  count : Nat
  off : Nat → Nat
  span : Nat → Nat
  text : Nat → Str

/-- A text is stored, from the caller or from an `sbuf`, or the value of a keyword is set. -/
inductive StrCall where
  | addstr (text : Option CStr)
  | addstrAt (block off : Nat)
  | setValue (k : Nat) (value : CStr)

namespace Strings

/-- A string is stored behind the others, as number `k`. -/
def put (heap : Nat → Bool) (t : Strings) (sbuf : Sbuf) (k : Nat) (a : Arg) : Option Strings :=
  (sbuf.read a).bind fun s => (sbuf.addstr heap a).map fun (sbuf, off) =>
    { sbuf, count := max t.count (k + 1), off := update t.off k off, span := update t.span k s.length
      text := update t.text k s }

/-- `addstr` and `kwdb_SetValue`, with its `memset` in front. There is no value with a number that is not in use. -/
def step (heap : Nat → Bool) (t : Strings) : StrCall → Option Strings
  | .addstr text => t.put heap t.sbuf t.count (Arg.ofOption text)
  | .addstrAt block off => t.put heap t.sbuf t.count (.ref block off)
  | .setValue k value =>
    if t.count ≤ k then some t
    else
      let sbuf := t.sbuf.wipe (t.off k) (t.span k)
      if t.span k < value.text.length then t.put heap sbuf k (.text value.text)
      else some { t with sbuf := sbuf.write (t.off k) value.text, text := update t.text k value.text }

/-- The strings of a new database: its name -/
def ofDb (db : Db) (name : CStr) : Strings where
  sbuf := db.sbuf
  count := 1
  off := fun _ => 1
  span := fun _ => name.text.length
  text := fun _ => name.text

/-- `sbufused` is at most `sbuflen`, and every string is at its offset, within the first `sbuflen` bytes. -/
structure Sound (t : Strings) : Prop where
  used : t.sbuf.used ≤ t.sbuf.len
  bound : ∀ k < t.count, t.off k + (t.text k).length < t.sbuf.len
  holds : ∀ k < t.count, t.sbuf.str (t.off k) = t.text k

end Strings

/-- The pointer is not into an `sbuf`. -/
def Arg.Own : Arg → Prop
  | .ref _ _ => False
  | _ => True

/-- There is room for a text, or for it with `DEF_SZSBUF` more bytes, and it is not in the buffer itself then. -/
def Sbuf.Takes (sb : Sbuf) (a : Arg) (s : Str) : Prop :=
  sb.HasRoom (size s) ∨ a.Own ∧ sb.used + size s ≤ sb.len + defSzsbuf

/-- The condition: a text can be read, and the buffer takes it. -/
def StrCall.Fits (t : Strings) : StrCall → Prop
  | .addstr text => t.sbuf.Takes (Arg.ofOption text) (textOf text)
  | .addstrAt block off => block = t.sbuf.block ∧ t.sbuf.Takes (.ref block off) (t.sbuf.str off)
  | .setValue k value => k < t.count → t.span k < value.text.length → t.sbuf.Takes (.text value.text) value.text

/-- No allocation fails. -/
def StrCall.Granted (heap : Nat → Bool) (t : Strings) (_ : StrCall) : Prop := heap (t.sbuf.len + defSzsbuf) = true

variable {heap : Nat → Bool} {sb : Sbuf} {a : Arg} {s : Str} {t t' : Strings} {k : Nat}

/-! ## One call -/

theorem Sbuf.read_own (ha : sb.read a = some s) (hown : a.Own) (sb' : Sbuf) : sb'.read a = some s := by
  cases a with
  | null => exact ha
  | text s' => exact ha
  | ref block off => exact hown.elim

/-- If no allocation fails a text that is taken is added. -/
theorem Sbuf.addstr_takes (hheap : heap (sb.len + defSzsbuf) = true) (ha : sb.read a = some s)
    (h : sb.Takes a s) : sb.addstr heap a = some (sb.add s, sb.slot s) := by
  refine addstr_eq hheap ha fun h0 hg => ?_
  unfold Takes HasRoom size at h
  rw [if_neg h0] at h
  obtain ⟨hown, hfit⟩ : a.Own ∧ sb.used + (s.length + 1) ≤ sb.len + defSzsbuf := h.resolve_left (by omega)
  exact ⟨read_own ha hown _, hfit⟩

/-- Any other text is read from the block that was released, or written past the end of the new one. -/
theorem Sbuf.addstr_not_takes (hheap : heap (sb.len + defSzsbuf) = true) (ha : sb.read a = some s)
    (h : ¬ sb.Takes a s) : sb.addstr heap a = none := by
  unfold addstr
  rw [ha, Option.bind_some]
  unfold Takes HasRoom size at h
  by_cases h0 : s = []
  · exact absurd (.inl (.inl (if_pos h0))) h
  · rw [if_neg h0] at h ⊢
    simp only [not_or, not_and] at h
    obtain ⟨⟨-, hroom⟩, hfit⟩ := h
    rw [if_pos (by omega), if_pos hheap]
    cases a with
    | null => exact absurd (Option.some.inj ha).symm h0
    | text s' =>
      obtain rfl : s' = s := Option.some.inj ha
      rw [read, Option.bind_some, append, if_neg]
      exact hfit trivial
    | ref block off =>
      have hblock : block = sb.block := by
        by_contra hne
        rw [read, if_neg hne] at ha
        cases ha
      rw [read, if_neg, Option.bind_none]
      simp [realloc, hblock]

theorem Sbuf.add_used_le_of_takes (hu : sb.used ≤ sb.len) (h : sb.Takes a s) : (sb.add s).used ≤ (sb.add s).len := by
  unfold Takes HasRoom size at h
  unfold add
  by_cases h0 : s = []
  · rwa [if_pos h0]
  · rw [if_neg h0] at h ⊢
    dsimp only
    split <;> omega

namespace Strings

/-- The invariant: the strings are where they should be, and no two of them in the same bytes. -/
structure Inv (t : Strings) : Prop where
  layout : Layout t.sbuf.chars t.sbuf.used (· < t.count) t.off t.span t.text
  used : t.sbuf.used ≤ t.sbuf.len

theorem Inv.sound (h : t.Inv) : t.Sound where
  used := h.used
  bound k hk := by
    have hb := h.layout.bound k hk
    have hf := h.layout.fits k hk
    have hu := h.used
    omega
  holds _ hk := h.layout.strAt hk h.used

variable (heap sb t k) in
/-- A text that can be read and is taken becomes the string with a number, ... -/
theorem put_takes (hheap : heap (sb.len + defSzsbuf) = true) (ha : sb.read a = some s) (h : sb.Takes a s) :
    ∃ t', t.put heap sb k a = some t' ∧ t'.sbuf = sb.add s ∧ t'.count = max t.count (k + 1) ∧
      t'.off = update t.off k (sb.slot s) ∧ t'.span = update t.span k s.length ∧ t'.text = update t.text k s := by
  unfold Strings.put
  rw [ha, Option.bind_some, Sbuf.addstr_takes hheap ha h]
  exact ⟨_, rfl, rfl, rfl, rfl, rfl, rfl⟩

/-- ... which is wiped before or is new. -/
theorem Inv.put (hheap : heap (t.sbuf.len + defSzsbuf) = true) {sbuf : Sbuf} (hlen : sbuf.len = t.sbuf.len)
    (hu : sbuf.used ≤ sbuf.len)
    (hl : Layout sbuf.chars sbuf.used (fun j => j < t.count ∧ j ≠ k) t.off t.span t.text) (hk : k ≤ t.count)
    (ha : sbuf.read a = some s) (hs : '\x00' ∉ s) (h : sbuf.Takes a s) :
    ∃ t', t.put heap sbuf k a = some t' ∧ t'.Inv := by
  rw [← hlen] at hheap
  obtain ⟨t', hput, hsbuf, hcount, hoff, hspan, htext⟩ := put_takes heap sbuf t k hheap ha h
  refine ⟨t', hput, ?_, hsbuf ▸ Sbuf.add_used_le_of_takes hu h⟩
  rw [hsbuf, hoff, hspan, htext]
  refine (Sbuf.layout_add sbuf hl k hs).mono fun j hj => ?_
  omega

theorem put_none (hheap : heap (sb.len + defSzsbuf) = true) (ha : sb.read a = some s) (h : ¬ sb.Takes a s) :
    t.put heap sb k a = none := by
  unfold Strings.put
  rw [ha, Option.bind_some, Sbuf.addstr_not_takes hheap ha h, Option.map_none]

end Strings

theorem Sbuf.noNull_str (sb : Sbuf) (off : Nat) : '\x00' ∉ sb.str off := by
  intro h
  have := List.mem_takeWhile_imp h
  simp at this

/-- The texts that `addstr` reads -/
theorem Sbuf.read_ref (sb : Sbuf) (off : Nat) : sb.read (.ref sb.block off) = some (sb.str off) := if_pos rfl

/-- A call whose text fits keeps the strings. -/
theorem StrCall.Fits.step (h : t.Inv) (c : StrCall) (hheap : c.Granted heap t) (hfit : c.Fits t) :
    ∃ t', t.step heap c = some t' ∧ t'.Inv := by
  have hfresh : Layout t.sbuf.chars t.sbuf.used (fun j => j < t.count ∧ j ≠ t.count) t.off t.span t.text :=
    h.layout.mono fun _ hj => hj.1
  cases c with
  | addstr text =>
    exact Strings.Inv.put hheap rfl h.used hfresh le_rfl (read_ofOption text t.sbuf) (noNull_textOf text) hfit
  | addstrAt block off =>
    obtain ⟨rfl, hfit⟩ := hfit
    exact Strings.Inv.put hheap rfl h.used hfresh le_rfl (t.sbuf.read_ref off) (t.sbuf.noNull_str off) hfit
  | setValue k value =>
    unfold Strings.step
    by_cases hk : t.count ≤ k
    · exact ⟨t, if_pos hk, h⟩
    · dsimp only
      rw [if_neg hk]
      have hk : k < t.count := Nat.lt_of_not_le hk
      split
      case isTrue hlong =>
        exact Strings.Inv.put hheap rfl h.used (h.layout.wipe hk) hk.le rfl value.noNull (hfit hk hlong)
      case isFalse hshort =>
        exact ⟨_, rfl, h.layout.overwrite hk value.noNull (Nat.le_of_not_lt hshort), h.used⟩

/-- There is no result of any other call. -/
theorem StrCall.step_none (c : StrCall) (hheap : c.Granted heap t) (h : ¬ c.Fits t) : t.step heap c = none := by
  cases c with
  | addstr text => exact Strings.put_none hheap (read_ofOption text t.sbuf) h
  | addstrAt block off =>
    by_cases hb : block = t.sbuf.block
    · subst hb
      exact Strings.put_none hheap (t.sbuf.read_ref off) fun ht => h ⟨rfl, ht⟩
    · have hread : t.sbuf.read (.ref block off) = none := if_neg hb
      simp [Strings.step, Strings.put, hread]
  | setValue k value =>
    unfold Fits at h
    simp only [Classical.not_imp] at h
    obtain ⟨hk, hlong, hno⟩ := h
    unfold Strings.step
    dsimp only
    rw [if_neg (Nat.not_le_of_lt hk), if_pos hlong]
    exact Strings.put_none hheap rfl hno

/-! ## Runs -/

theorem inv_ofDb {size : Nat} {name : CStr} {db : Db} (h : Db.openDb heap size name = some db) :
    (Strings.ofDb db name).Inv := by
  unfold Db.openDb at h
  obtain ⟨hfit, hdb⟩ := Option.ite_none_right_eq_some.mp h
  cases hdb
  refine ⟨⟨?_, ?_, ?_, ?_, ?_, ?_, ?_, ?_⟩, hfit.2.2.2⟩
  all_goals dsimp only [Strings.ofDb, Db.empty]
  · exact strcpy_of_not_mem (.inl one_pos)
  · omega
  · exact fun _ _ => holds_strcpy _ _ _
  · exact fun _ _ => name.noNull
  · exact fun _ _ => le_rfl
  · intro _ _
    omega
  · intro _ _ h
    cases h
  · intro i j hi hj hij
    omega

/-- In every run of a database in which no allocation fails, all strings are in the buffer in every state, just when
every text can be read and the buffer takes it. -/
theorem capacity_iff {size : Nat} {name : CStr} {db : Db} (hopen : Db.openDb heap size name = some db)
    (calls : List StrCall)
    (hheap : Steps (fun t c => c.Granted heap t) (Strings.step heap) (Strings.ofDb db name) calls) :
    Always Strings.Sound (Strings.step heap) (Strings.ofDb db name) calls ↔
      Steps (fun t c => c.Fits t) (Strings.step heap) (Strings.ofDb db name) calls := by
  refine always_iff_steps_of_legal (I := Strings.Inv) (fun _ h => h.sound) (fun t c h hg hf => ?_)
    (fun t c t' _ hg hf hs => ?_) (inv_ofDb hopen) hheap
  · exact hf.step h c hg
  · rw [c.step_none hg hf] at hs
    cases hs

/-- As long as the buffer of a new database -/
def wideText : CStr where
  text := List.replicate defSzsbuf 'x'
  noNull h := absurd (List.eq_of_mem_replicate h) (by decide)

/-- The buffer of a new database has to grow for the second text. -/
def wideCalls : List StrCall :=
  [.addstr (some ⟨['b'], by decide⟩), .setValue 0 wideText, .addstr (some ⟨['c'], by decide⟩)]

theorem wideCalls_fit :
    Steps (fun t c => c.Fits t) (Strings.step fun _ => true) (Strings.ofDb (Db.empty ['a']) ⟨['a'], by decide⟩)
        wideCalls ∧
      (run (Strings.step fun _ => true) (Strings.ofDb (Db.empty ['a']) ⟨['a'], by decide⟩) wideCalls).map
        (fun t => (t.sbuf.len, t.sbuf.used)) = some (2 * defSzsbuf, defSzsbuf + 8) := by
  have hlen : wideText.text.length = defSzsbuf := List.length_replicate
  have hne : wideText.text ≠ [] := List.ne_nil_of_length_pos (by rw [hlen]; decide)
  have hsize : Sbuf.size wideText.text = defSzsbuf + 1 := by rw [Sbuf.size, if_neg hne, hlen]
  generalize ht₀ : Strings.ofDb (Db.empty ['a']) ⟨['a'], by decide⟩ = t₀
  have hlen₀ : t₀.sbuf.len = defSzsbuf := by rw [← ht₀]; rfl
  have hused₀ : t₀.sbuf.used = 3 := by rw [← ht₀]; rfl
  have hcount₀ : t₀.count = 1 := by rw [← ht₀]; rfl
  have hspan₀ : t₀.span 0 = 1 := by rw [← ht₀]; rfl
  -- the first text
  have hfit₁ : t₀.sbuf.HasRoom (Sbuf.size ['b']) := .inr (by rw [hlen₀, hused₀]; decide)
  obtain ⟨t₁, hput₁, hsb₁, hcount₁, -, hspan₁, -⟩ := Strings.put_takes (fun _ => true) t₀.sbuf t₀ t₀.count
    (a := .text ['b']) rfl rfl (.inl hfit₁)
  have hlen₁ : t₁.sbuf.len = defSzsbuf := by rw [hsb₁, Sbuf.add_len hfit₁, hlen₀]
  have hused₁ : t₁.sbuf.used = 5 := by rw [hsb₁, Sbuf.add_used, hused₀]; rfl
  have hspan₁ : t₁.span 0 = 1 := by rw [hspan₁, hcount₀, update_of_ne (by decide), hspan₀]
  -- the second one, for which the buffer grows
  have hfit₂ : t₁.sbuf.Takes (.text wideText.text) wideText.text :=
    .inr ⟨trivial, by rw [hsize, hused₁, hlen₁, defSzsbuf]; omega⟩
  obtain ⟨t₂, hput₂, hsb₂, -⟩ := Strings.put_takes (fun _ => true)
    (t₁.sbuf.wipe (t₁.off 0) (t₁.span 0)) t₁ 0 (a := .text wideText.text) rfl rfl hfit₂
  have hstep₂ : t₁.step (fun _ => true) (.setValue 0 wideText) = some t₂ := by
    unfold Strings.step
    dsimp only
    rw [if_neg (by omega), if_pos (by rw [hspan₁, hlen]; decide), hput₂]
  have hlen₂ : t₂.sbuf.len = 2 * defSzsbuf := by
    rw [hsb₂, Sbuf.add, if_neg hne]
    simp only [Sbuf.wipe, hlen, hused₁, hlen₁]
    rfl
  have hused₂ : t₂.sbuf.used = defSzsbuf + 6 := by
    rw [hsb₂, Sbuf.add_used, hsize, Sbuf.wipe, hused₁]
    rfl
  -- the third one
  have hfit₃ : t₂.sbuf.HasRoom (Sbuf.size ['c']) := .inr (by rw [hlen₂, hused₂]; decide)
  obtain ⟨t₃, hput₃, hsb₃, -⟩ := Strings.put_takes (fun _ => true) t₂.sbuf t₂ t₂.count
    (a := .text ['c']) rfl rfl (.inl hfit₃)
  constructor
  · refine ⟨.inl hfit₁, fun t ht => ?_⟩
    obtain rfl : t₁ = t := Option.some.inj (hput₁.symm.trans ht)
    refine ⟨fun _ _ => hfit₂, fun t ht => ?_⟩
    obtain rfl : t₂ = t := Option.some.inj (hstep₂.symm.trans ht)
    exact ⟨.inl hfit₃, fun _ _ => trivial⟩
  · have hstep₁ : t₀.step (fun _ => true) (.addstr (some ⟨['b'], by decide⟩)) = some t₁ := hput₁
    have hstep₃ : t₂.step (fun _ => true) (.addstr (some ⟨['c'], by decide⟩)) = some t₃ := hput₃
    have hlen₃ : t₃.sbuf.len = 2 * defSzsbuf := by rw [hsb₃, Sbuf.add_len hfit₃, hlen₂]
    have hused₃ : t₃.sbuf.used = defSzsbuf + 8 := by rw [hsb₃, Sbuf.add_used, hused₂]; rfl
    simp only [wideCalls, run_cons, run_nil, hstep₁, hstep₂, hstep₃, Option.bind_some, Option.map_some, hlen₃, hused₃]

/-- All strings stay in the buffer. -/
theorem capacity_wide :
    Always Strings.Sound (Strings.step fun _ => true) (Strings.ofDb (Db.empty ['a']) ⟨['a'], by decide⟩) wideCalls := by
  have hopen : Db.openDb (fun _ => true) 0 ⟨['a'], by decide⟩ = some (Db.empty ['a']) := if_pos (by decide)
  exact (capacity_iff hopen wideCalls (steps_of_all (fun _ _ => rfl) _ _)).mpr wideCalls_fit.1

/-- A new database does not take a text that is longer than the buffer after it has grown. -/
theorem StrCall.not_fits_long {name s : CStr} (h : 2 * defSzsbuf ≤ s.text.length) :
    ¬ StrCall.Fits (Strings.ofDb (Db.empty name.text) name) (.addstr (some s)) := by
  have hne : s.text ≠ [] := by
    intro hnil
    simp [hnil, defSzsbuf] at h
  show ¬ Sbuf.Takes _ _ s.text
  unfold Sbuf.Takes Sbuf.HasRoom Sbuf.size
  rw [if_neg hne]
  simp only [Strings.ofDb, Db.empty]
  omega

/-- A text as long as the buffer after it has grown -/
def longText : CStr where
  text := List.replicate (2 * defSzsbuf) 'x'
  noNull h := absurd (List.eq_of_mem_replicate h) (by decide)

/-- The first text of a database is too long. -/
theorem capacity_not :
    ¬ ∀ (heap : Nat → Bool) (size : Nat) (name : CStr) (db : Db), Db.openDb heap size name = some db →
      ∀ calls, Steps (fun t c => c.Granted heap t) (Strings.step heap) (Strings.ofDb db name) calls →
        Always Strings.Sound (Strings.step heap) (Strings.ofDb db name) calls := by
  intro h
  let name : CStr := ⟨[], by decide⟩
  have hlen : longText.text.length = 2 * defSzsbuf := List.length_replicate
  have hlong : ¬ StrCall.Fits (Strings.ofDb (Db.empty name.text) name) (.addstr (some longText)) :=
    StrCall.not_fits_long (le_of_eq hlen.symm)
  have hgranted : StrCall.Granted (fun _ => true) (Strings.ofDb (Db.empty name.text) name) (.addstr (some longText)) :=
    rfl
  have hnone := StrCall.step_none (.addstr (some longText)) hgranted hlong
  obtain ⟨-, t, ht, -⟩ := h (fun _ => true) 0 name (Db.empty name.text) (if_pos (by decide))
    [.addstr (some longText)] ⟨rfl, fun _ _ => trivial⟩
  rw [hnone] at ht
  cases ht

end Ndhs.Kwdb
