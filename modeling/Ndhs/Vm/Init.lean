import Ndhs.Lib.Ints
import Ndhs.Lib.Scan
import Ndhs.Vm.Cache

/-!
# The options of the cache (`vm_initcache` of `mosdca/vmcache.c`)

`vm_initcache` scans a text of keyword=value items. A round skips blanks and commas, takes letters and digits as the
keyword, skips blanks and equals signs, and takes letters and digits as the value. It does not end if the next character
is none of these, such as a percent sign.

* `scanLoop` is given a number of rounds. It has no result if the text is not at its end by then, and none if a keyword or
  a value does not fit its array.
* `strtol` gives a `long`; it is assigned to an `int` and to `cachesize`. The program is built with `-m32`: a `long` has
  32 bits.
* An `Item` is a keyword with a value of a documented form, and `Renders items s` says that `s` has these items, with
  blanks or commas between them.

`initcache_iff`: the texts for which `vm_initcache` returns with the values of the items set.
-/

namespace Ndhs.Vm

open Machine Scan Text

/-! ## `vm_initcache` -/

/-- The variables of `vm_initcache` that the options are put into. `debug` is static. -/
structure Options where
  cachesize : Str
  lockpages : Bool
  enable : Bool
  debug : Bool

/-- `DEF_CACHESIZE` -/
def defCachesize : Str := ['5', '0', '%']

/-- `SZ_NAME` and `SZ_VALSTR` -/
def szValstr : Nat := 64

/-- Whether a value begins with a `y` -/
def isYes (valstr : Str) : Bool := valstr.head? == some 'y' || valstr.head? == some 'Y'

/-- The option with the keyword is set. -/
def Options.set (o : Options) (keyword valstr : Str) : Options :=
  if keyword = chars "cachesize" then { o with cachesize := valstr }
  else if keyword = chars "lockpages" then { o with lockpages := isYes valstr }
  else if keyword = chars "enable" then { o with enable := isYes valstr }
  else if keyword = chars "debug" then { o with debug := isYes valstr }
  else o

/-- What is skipped before a keyword -/
def isSep (c : Char) : Bool := isSpace c || c == ','

/-- `isalnum`, in the C locale -/
def isAlnum (c : Char) : Bool := c.isAlphanum

/-- What is skipped before a value -/
def isEquals (c : Char) : Bool := isSpace c || c == '='

/-- The loop over the items -/
def scanLoop : Nat → Str → Options → Option Options
  | _, [], o => some o
  | 0, _ :: _, _ => none
  | n + 1, c :: s, o =>
    let ip := (c :: s).dropWhile isSep
    let keyword := ip.takeWhile isAlnum
    let ip := (ip.dropWhile isAlnum).dropWhile isEquals
    let valstr := ip.takeWhile isAlnum
    if szValstr ≤ keyword.length ∨ szValstr ≤ valstr.length then none
    else scanLoop n (ip.dropWhile isAlnum) (o.set keyword valstr)

/-- `strtol (s, &endptr, 10)`: the number, and the text from `endptr` on -/
def strtol (s : Str) : Int × Str :=
  let digits := skipSign (s.dropWhile isSpace)
  if (digits.takeWhile Char.isDigit).isEmpty then (0, s)
  else (CInt.strtol 32 s, digits.dropWhile Char.isDigit)

/-- The size of the cache, as an `unsigned long` -/
def sizeOf (physpages pagesize : BitVec 32) (cachesize : Str) : BitVec 32 :=
  let (n, modchar) := strtol cachesize
  let percent := toInt n
  let size := BitVec.ofInt 32 percent
  if modchar.length = cachesize.length then physpages / 2 * pagesize
  else
    match modchar.head? with
    | some '%' => physpages * BitVec.ofInt 32 percent / 100 * pagesize
    | some 'k' | some 'K' => size * 1024
    | some 'm' | some 'M' => size * (1024 * 1024)
    | some 'g' | some 'G' => size * (1024 * 1024 * 1024)
    | _ => size

/-- The cache and the options that `vm_initcache` leaves -/
structure Initialized where
  vm : Vmcache 32
  lockpages : Bool
  debug : Bool
  physmem : BitVec 32

/-- `vm_initcache`, with `n` rounds of its loop -/
def vmInitcache (keeps : Bool) (physpages pagesize : BitVec 32) (vm : Vmcache 32) (debug : Bool) (initstr : Str) (n : Nat) :
    Option Initialized :=
  (scanLoop n initstr ⟨defCachesize, false, true, debug⟩).bind fun o =>
    -- what is left of the old cache is overwritten
    (closecache keeps vm).map fun _ =>
      ⟨initcache o.enable (sizeOf physpages pagesize o.cachesize) pagesize, o.lockpages, o.debug, physpages * pagesize⟩

/-! ## Texts of items -/

/-- A decimal number -/
structure Number where
  digits : Str
  ne : digits ≠ []
  isDigit : ∀ c ∈ digits, c.isDigit = true

/-- What a size is measured in -/
inductive SizeUnit where
  | bytes
  | percent
  | kilobytes
  | megabytes
  deriving DecidableEq

def SizeUnit.text : SizeUnit → Str
  | .bytes => []
  | .percent => ['%']
  | .kilobytes => ['K']
  | .megabytes => ['M']

/-- The size in bytes -/
def SizeUnit.size (physmem x : Nat) : SizeUnit → Nat
  | .bytes => x
  | .percent => physmem * x / 100
  | .kilobytes => x * 1024
  | .megabytes => x * (1024 * 1024)

/-- An option, with its value -/
inductive Item where
  | cachesize (x : Number) (u : SizeUnit)
  | lockpages (yes : Bool)
  | enable (yes : Bool)
  | debug (yes : Bool)

namespace Item

def keyword : Item → Str
  | cachesize _ _ => chars "cachesize"
  | lockpages _ => chars "lockpages"
  | enable _ => chars "enable"
  | debug _ => chars "debug"

def yesno (b : Bool) : Str := if b then ['y', 'e', 's'] else ['n', 'o']

def value : Item → Str
  | cachesize x u => x.digits ++ u.text
  | lockpages b => yesno b
  | enable b => yesno b
  | debug b => yesno b

def text (it : Item) : Str := it.keyword ++ '=' :: it.value

def size? : Item → Option (Number × SizeUnit)
  | cachesize x u => some (x, u)
  | _ => none

def lockpages? : Item → Option Bool
  | lockpages b => some b
  | _ => none

def enable? : Item → Option Bool
  | enable b => some b
  | _ => none

def debug? : Item → Option Bool
  | debug b => some b
  | _ => none

end Item

/-- The last of the values that some items give -/
def lastOf {α : Type} (f : Item → Option α) (items : List Item) : Option α := (items.filterMap f).getLast?

/-- The text has the items, each behind blanks and commas. There is one of these at least between two items. -/
inductive Renders : List Item → Str → Prop where
  | nil {sep : Str} : (∀ c ∈ sep, isSep c = true) → Renders [] sep
  | cons {sep s : Str} {it : Item} {items : List Item} : (∀ c ∈ sep, isSep c = true) →
    (∀ c ∈ s.head?, isSep c = true) → Renders items s → Renders (it :: items) (sep ++ (it.text ++ s))

/-- The options have the values that the items give them. -/
structure Initialized.Has (r : Initialized) (physmem : Nat) (items : List Item) : Prop where
  cachesize : ∀ x u, lastOf Item.size? items = some (x, u) →
    r.vm.cachesize.toNat = u.size physmem (readDigits x.digits)
  lockpages : ∀ b, lastOf Item.lockpages? items = some b → r.lockpages = b
  enable : ∀ b, lastOf Item.enable? items = some b → r.vm.cacheEnabled = b
  debug : ∀ b, lastOf Item.debug? items = some b → r.debug = b

/-! ## What ends the scan -/

/-- The characters that a round passes -/
def classes : List (Char → Bool) := [isSep, isAlnum, isEquals, isAlnum]

/-- Letters and digits next to each other fit an array with their null. -/
def ShortRuns (s : Str) : Prop := ∀ w, w <:+: s → (∀ c ∈ w, isAlnum c = true) → w.length < szValstr

section Scan

variable {c : Char} {s : Str} {n : Nat} {o o' : Options} {p : Char → Bool}

theorem isAlnum_of_isSep (h : isSep c = true) : isAlnum c = false := by
  simp only [isSep, isSpace, Bool.or_eq_true, beq_iff_eq] at h
  rcases h with (((((rfl | rfl) | rfl) | rfl) | rfl) | rfl) | rfl <;> decide

theorem isAlnum_of_isEquals (h : isEquals c = true) : isAlnum c = false := by
  simp only [isEquals, isSpace, Bool.or_eq_true, beq_iff_eq] at h
  rcases h with (((((rfl | rfl) | rfl) | rfl) | rfl) | rfl) | rfl <;> decide

theorem ShortRuns.suffix {t : Str} (h : ShortRuns s) (ht : t <:+ s) : ShortRuns t :=
  fun w hw => h w (hw.trans ht.isInfix)

theorem shortRuns_cons (hc : isAlnum c = false) : ShortRuns (c :: s) ↔ ShortRuns s := by
  refine ⟨fun h => h.suffix (List.suffix_cons c s), fun h w hw hall => ?_⟩
  rcases List.infix_cons_iff.mp hw with hpre | hin
  · cases w with
    | nil => decide
    | cons x w =>
      obtain ⟨rfl, -⟩ := List.cons_prefix_cons.mp hpre
      rw [hall x List.mem_cons_self] at hc
      cases hc
  · exact h w hin hall

/-- What is skipped has no letters or digits. -/
theorem shortRuns_dropWhile (hp : ∀ c, p c = true → isAlnum c = false) : ShortRuns (s.dropWhile p) ↔ ShortRuns s := by
  induction s with
  | nil => rfl
  | cons c s ih =>
    by_cases hc : p c = true
    · rw [List.dropWhile_cons_of_pos hc, ih, shortRuns_cons (hp c hc)]
    · rw [List.dropWhile_cons_of_neg hc]

/-- Letters and digits that are taken are as many as there are next to each other. -/
theorem shortRuns_iff : ShortRuns s ↔
    (s.takeWhile isAlnum).length < szValstr ∧ ShortRuns (s.dropWhile isAlnum) := by
  constructor
  · intro h
    exact ⟨h _ (List.takeWhile_prefix isAlnum).isInfix fun c hc => List.mem_takeWhile_imp hc,
      h.suffix (List.dropWhile_suffix isAlnum)⟩
  · induction s with
    | nil => exact fun h => h.2
    | cons c s ih =>
      rintro ⟨hlen, hrest⟩
      by_cases hc : isAlnum c = true
      · rw [List.dropWhile_cons_of_pos hc] at hrest
        intro w hw hall
        rcases List.infix_cons_iff.mp hw with hpre | hin
        · obtain ⟨t, ht⟩ := hpre
          rw [← ht, List.takeWhile_append_of_pos hall, List.length_append] at hlen
          omega
        · rw [List.takeWhile_cons_of_pos hc, List.length_cons] at hlen
          exact ih ⟨by omega, hrest⟩ w hin hall
      · rwa [List.dropWhile_cons_of_neg hc] at hrest

/-- A round, from a text that is not at its end -/
theorem scanLoop_succ (hs : s ≠ []) :
    scanLoop (n + 1) s o =
      let ip := s.dropWhile isSep
      let keyword := ip.takeWhile isAlnum
      let valstr := ((ip.dropWhile isAlnum).dropWhile isEquals).takeWhile isAlnum
      if szValstr ≤ keyword.length ∨ szValstr ≤ valstr.length then none
      else scanLoop n (skips classes s) (o.set keyword valstr) := by
  cases s with
  | nil => exact absurd rfl hs
  | cons c s => rfl

theorem scanLoop_nil : scanLoop n [] o = some o := by
  cases n <;> rfl

/-- The arrays are long enough in a round, and in those after it. -/
theorem shortRuns_round : ShortRuns s ↔
    let ip := s.dropWhile isSep
    (ip.takeWhile isAlnum).length < szValstr ∧
      (((ip.dropWhile isAlnum).dropWhile isEquals).takeWhile isAlnum).length < szValstr ∧
      ShortRuns (skips classes s) := by
  have hsep : ∀ c, isSep c = true → isAlnum c = false := fun _ => isAlnum_of_isSep
  have heq : ∀ c, isEquals c = true → isAlnum c = false := fun _ => isAlnum_of_isEquals
  rw [← shortRuns_dropWhile hsep, shortRuns_iff, ← shortRuns_dropWhile heq, shortRuns_iff]
  rfl

/-- A scan that ends has passed every character, and has found room for every keyword and value. -/
theorem scanLoop_some (h : scanLoop n s o = some o') : (skips classes)^[n] s = [] ∧ ShortRuns s := by
  have hnil : ShortRuns [] := by
    intro w hw _
    rw [List.infix_nil.mp hw]
    decide
  induction n generalizing s o with
  | zero =>
    cases s with
    | nil => exact ⟨rfl, hnil⟩
    | cons c s => cases h
  | succ n ih =>
    rcases eq_or_ne s [] with rfl | hs
    · refine ⟨?_, hnil⟩
      rw [Function.iterate_succ_apply, skips_nil]
      exact (ih scanLoop_nil).1
    · rw [scanLoop_succ hs] at h
      dsimp only at h
      split at h
      · cases h
      · next hshort =>
        rw [not_or, not_le, not_le] at hshort
        obtain ⟨hend, hrest⟩ := ih h
        exact ⟨hend, shortRuns_round.mpr ⟨hshort.1, hshort.2, hrest⟩⟩

/-- One round for each character is enough. -/
theorem exists_scanLoop (hc : ∀ c ∈ s, ∃ p ∈ classes, p c = true) (hs : ShortRuns s) (hn : s.length ≤ n) :
    ∃ o', scanLoop n s o = some o' := by
  induction n generalizing s o with
  | zero =>
    rw [List.eq_nil_of_length_eq_zero (Nat.le_zero.mp hn)]
    exact ⟨o, rfl⟩
  | succ n ih =>
    cases s with
    | nil => exact ⟨o, rfl⟩
    | cons c s =>
      obtain ⟨hkeyword, hvalstr, hrest⟩ := shortRuns_round.mp hs
      have hlt := length_skips_lt (s := s) (hc c List.mem_cons_self)
      rw [scanLoop_succ (List.cons_ne_nil c s)]
      dsimp only
      rw [if_neg (by rw [not_or, not_le, not_le]; exact ⟨hkeyword, hvalstr⟩)]
      exact ih (fun x hx => hc x ((skips_suffix classes (c :: s)).mem hx)) hrest (by omega)

end Scan

/-! ## What is set -/

section Items

variable {c : Char} {s sep : Str} {n : Nat} {o : Options} {it : Item} {items : List Item}

/-- What an item sets -/
def Item.apply (o : Options) (it : Item) : Options := o.set it.keyword it.value

theorem isAlnum_of_isDigit (h : c.isDigit = true) : isAlnum c = true := by
  rw [isAlnum, Char.isAlphanum, h, Bool.or_true]

/-- A value without a percent sign is one of letters and digits. -/
theorem Item.isAlnum_value (h : '%' ∉ it.value) : ∀ c ∈ it.value, isAlnum c = true := by
  cases it with
  | cachesize x u =>
    intro c hc
    rcases List.mem_append.mp hc with hc | hc
    · exact isAlnum_of_isDigit (x.isDigit c hc)
    · cases u with
      | bytes => cases hc
      | percent => exact absurd (List.mem_append_right _ (List.mem_singleton_self '%')) h
      | kilobytes =>
        rw [List.mem_singleton.mp hc]
        decide
      | megabytes =>
        rw [List.mem_singleton.mp hc]
        decide
  | lockpages b => cases b <;> decide
  | enable b => cases b <;> decide
  | debug b => cases b <;> decide

theorem Item.value_ne_nil : it.value ≠ [] := by
  cases it with
  | cachesize x u => exact List.append_ne_nil_of_left_ne_nil x.ne _
  | lockpages b => cases b <;> decide
  | enable b => cases b <;> decide
  | debug b => cases b <;> decide

theorem Item.keyword_spec (it : Item) :
    it.keyword ≠ [] ∧ (∀ c ∈ it.keyword, isAlnum c = true) ∧ it.keyword.length < szValstr := by
  have hall : ∀ k ∈ [chars "cachesize", chars "lockpages", chars "enable", chars "debug"],
      k ≠ [] ∧ (∀ c ∈ k, isAlnum c = true) ∧ k.length < szValstr := by
    decide +kernel
  cases it <;> exact hall _ (by simp [Item.keyword])

/-- Text that is not in the class -/
theorem dropWhile_of_head {p : Char → Bool} (h : ∀ c ∈ s.head?, p c = false) : s.dropWhile p = s := by
  cases s with
  | nil => rfl
  | cons c s => exact List.dropWhile_cons_of_neg (by simp [h c rfl])

theorem takeWhile_of_head {p : Char → Bool} (h : ∀ c ∈ s.head?, p c = false) : s.takeWhile p = [] := by
  cases s with
  | nil => rfl
  | cons c s => exact List.takeWhile_cons_of_neg (by simp [h c rfl])

theorem head_of_isAlnum {t : Str} {p : Char → Bool} (ht : t ≠ []) (hall : ∀ c ∈ t, isAlnum c = true)
    (hp : ∀ c, p c = true → isAlnum c = false) : ∀ c ∈ (t ++ s).head?, p c = false := by
  intro c hc
  cases t with
  | nil => exact absurd rfl ht
  | cons x t =>
    obtain rfl := Option.some.inj hc
    rw [← Bool.not_eq_true]
    intro hpx
    have hx := hp x hpx
    rw [hall x List.mem_cons_self] at hx
    cases hx

/-- The round of an item -/
theorem scanLoop_item (hsep : ∀ c ∈ sep, isSep c = true) (hs : ∀ c ∈ s.head?, isSep c = true)
    (hv : ∀ c ∈ it.value, isAlnum c = true) (hlen : it.value.length < szValstr) :
    scanLoop (n + 1) (sep ++ (it.text ++ s)) o = scanLoop n s (it.apply o) := by
  obtain ⟨hk, hkeyword, hklen⟩ := it.keyword_spec
  have hsepAlnum : ∀ c, isSep c = true → isAlnum c = false := fun _ => isAlnum_of_isSep
  have heqAlnum : ∀ c, isEquals c = true → isAlnum c = false := fun _ => isAlnum_of_isEquals
  have hne : sep ++ (it.text ++ s) ≠ [] := by simp [Item.text]
  have htext : it.text ++ s = it.keyword ++ ('=' :: (it.value ++ s)) := by simp [Item.text]
  have hip : (sep ++ (it.text ++ s)).dropWhile isSep = it.keyword ++ ('=' :: (it.value ++ s)) := by
    rw [htext, List.dropWhile_append_of_pos hsep, dropWhile_of_head (head_of_isAlnum hk hkeyword hsepAlnum)]
  have hafter : (it.keyword ++ ('=' :: (it.value ++ s))).dropWhile isAlnum = '=' :: (it.value ++ s) := by
    rw [List.dropWhile_append_of_pos hkeyword, List.dropWhile_cons_of_neg (by decide)]
  have hvalstr : ('=' :: (it.value ++ s)).dropWhile isEquals = it.value ++ s := by
    rw [List.dropWhile_cons_of_pos (by decide), dropWhile_of_head (head_of_isAlnum it.value_ne_nil hv heqAlnum)]
  have hhead : ∀ c ∈ s.head?, isAlnum c = false := fun c hc => isAlnum_of_isSep (hs c hc)
  have hrest : skips classes (sep ++ (it.text ++ s)) = s := by
    show ((((sep ++ (it.text ++ s)).dropWhile isSep).dropWhile isAlnum).dropWhile isEquals).dropWhile isAlnum = s
    rw [hip, hafter, hvalstr, List.dropWhile_append_of_pos hv, dropWhile_of_head hhead]
  rw [scanLoop_succ hne]
  dsimp only
  rw [hrest, hip, hafter, hvalstr, List.takeWhile_append_of_pos hv, takeWhile_of_head hhead, List.append_nil,
    List.takeWhile_append_of_pos hkeyword, List.takeWhile_cons_of_neg (by decide), List.append_nil,
    if_neg (by omega)]
  rfl

/-- A text of items is scanned item by item. -/
theorem scanLoop_renders (h : Renders items s) (hp : '%' ∉ s) (hs : ShortRuns s) (hn : items.length < n) :
    scanLoop n s o = some (items.foldl Item.apply o) := by
  induction h generalizing n o with
  | nil hsep =>
    rename_i sep
    obtain ⟨n, rfl⟩ := Nat.exists_eq_succ_of_ne_zero (show n ≠ 0 by simp at hn; omega)
    rcases eq_or_ne sep [] with rfl | hne
    · rfl
    · -- a last round, that finds no keyword
      have hskip : sep.dropWhile isSep = [] := List.dropWhile_eq_nil_iff.mpr hsep
      have hrest : skips classes sep = [] := by
        show (((sep.dropWhile isSep).dropWhile isAlnum).dropWhile isEquals).dropWhile isAlnum = []
        rw [hskip]
        rfl
      have hnot : ∀ k ∈ [chars "cachesize", chars "lockpages", chars "enable", chars "debug"], [] ≠ k := by
        decide +kernel
      have hset : o.set [] [] = o := by
        rw [Options.set, if_neg (hnot _ (by simp)), if_neg (hnot _ (by simp)), if_neg (hnot _ (by simp)),
          if_neg (hnot _ (by simp))]
      rw [scanLoop_succ hne]
      dsimp only
      rw [hrest, hskip]
      show (if _ then none else scanLoop n [] (o.set [] [])) = _
      rw [if_neg (by decide), scanLoop_nil, hset]
      rfl
  | cons hsep hhead hr ih =>
    rename_i sep s it items
    obtain ⟨n, rfl⟩ := Nat.exists_eq_succ_of_ne_zero (show n ≠ 0 by omega)
    rw [List.length_cons] at hn
    have hvalue : it.value <:+: sep ++ (it.text ++ s) := ⟨sep ++ (it.keyword ++ ['=']), s, by simp [Item.text]⟩
    have hv := Item.isAlnum_value fun h => hp (hvalue.mem h)
    have hsuffix : s <:+ sep ++ (it.text ++ s) := (List.suffix_append it.text s).trans (List.suffix_append sep _)
    rw [scanLoop_item hsep hhead hv (hs _ hvalue hv), List.foldl_cons]
    exact ih (fun h => hp (hsuffix.mem h)) (hs.suffix hsuffix) (by omega)

/-- The rounds that are given do not matter to a scan that ends. -/
theorem scanLoop_unique {m : Nat} {o₁ o₂ : Options} (h₁ : scanLoop n s o = some o₁) (h₂ : scanLoop m s o = some o₂) :
    o₁ = o₂ := by
  induction n generalizing m s o with
  | zero =>
    cases s with
    | nil =>
      rw [scanLoop_nil] at h₁ h₂
      exact Option.some.inj (h₁.symm.trans h₂)
    | cons c s => cases h₁
  | succ n ih =>
    rcases eq_or_ne s [] with rfl | hs
    · rw [scanLoop_nil] at h₁ h₂
      exact Option.some.inj (h₁.symm.trans h₂)
    · cases m with
      | zero =>
        obtain ⟨c, s, rfl⟩ := List.exists_cons_of_ne_nil hs
        cases h₂
      | succ m =>
        rw [scanLoop_succ hs] at h₁ h₂
        dsimp only at h₁ h₂
        split at h₁
        · cases h₁
        · next hshort =>
          rw [if_neg hshort] at h₂
          exact ih h₁ h₂

/-- The value of an item is in the text. -/
theorem Renders.occurs (h : Renders items s) (hit : it ∈ items) : it.value <:+: s := by
  induction h with
  | nil hsep => cases hit
  | cons hsep hhead hr ih =>
    rename_i sep s it' items
    rcases List.mem_cons.mp hit with rfl | hit
    · exact ⟨sep ++ (it.keyword ++ ['=']), s, by simp [Item.text]⟩
    · exact (ih hit).trans ((List.suffix_append it'.text s).trans (List.suffix_append sep _)).isInfix

theorem mem_of_lastOf {x : Number} {u : SizeUnit} (h : lastOf Item.size? items = some (x, u)) :
    Item.cachesize x u ∈ items := by
  obtain ⟨it, hit, hsize⟩ := List.mem_filterMap.mp (List.mem_of_getLast? h)
  cases it <;> cases hsize
  exact hit

/-- What the items leave of a variable is the value of the last one that sets it. -/
theorem foldl_apply {α β : Type} {f : Item → Option α} {g : Options → β} {v : α → β}
    (hset : ∀ o it, g (it.apply o) = (f it).elim (g o) v) (items : List Item) (o : Options) :
    g (items.foldl Item.apply o) = (lastOf f items).elim (g o) v := by
  unfold lastOf
  induction items generalizing o with
  | nil => rfl
  | cons it items ih =>
    rw [List.foldl_cons, ih, List.filterMap_cons, hset]
    cases f it with
    | none => rfl
    | some a =>
      dsimp only
      rw [List.getLast?_cons]
      cases (items.filterMap f).getLast? <;> rfl

theorem isYes_yesno (b : Bool) : isYes (Item.yesno b) = b := by
  cases b <;> rfl

/-- What an item sets, by its kind -/
theorem apply_eq (o : Options) (it : Item) : it.apply o =
    match it with
    | .cachesize x u => { o with cachesize := x.digits ++ u.text }
    | .lockpages b => { o with lockpages := b }
    | .enable b => { o with enable := b }
    | .debug b => { o with debug := b } := by
  have hne : chars "lockpages" ≠ chars "cachesize" ∧ chars "enable" ≠ chars "cachesize" ∧
      chars "enable" ≠ chars "lockpages" ∧ chars "debug" ≠ chars "cachesize" ∧ chars "debug" ≠ chars "lockpages" ∧
      chars "debug" ≠ chars "enable" := by
    decide +kernel
  obtain ⟨h₁, h₂, h₃, h₄, h₅, h₆⟩ := hne
  unfold Item.apply Options.set
  cases it with
  | cachesize x u => exact if_pos rfl
  | lockpages b =>
    refine (if_neg h₁).trans ((if_pos rfl).trans ?_)
    rw [Item.value, isYes_yesno]
  | enable b =>
    refine (if_neg h₂).trans ((if_neg h₃).trans ((if_pos rfl).trans ?_))
    rw [Item.value, isYes_yesno]
  | debug b =>
    refine (if_neg h₄).trans ((if_neg h₅).trans ((if_neg h₆).trans ((if_pos rfl).trans ?_)))
    rw [Item.value, isYes_yesno]

theorem foldl_cachesize (items : List Item) (o : Options) : (items.foldl Item.apply o).cachesize =
    (lastOf Item.size? items).elim o.cachesize fun p => p.1.digits ++ p.2.text := by
  refine foldl_apply (g := Options.cachesize) (fun o it => ?_) items o
  rw [apply_eq]
  cases it <;> rfl

theorem foldl_lockpages (items : List Item) (o : Options) : (items.foldl Item.apply o).lockpages =
    (lastOf Item.lockpages? items).elim o.lockpages id := by
  refine foldl_apply (g := Options.lockpages) (fun o it => ?_) items o
  rw [apply_eq]
  cases it <;> rfl

theorem foldl_enable (items : List Item) (o : Options) : (items.foldl Item.apply o).enable =
    (lastOf Item.enable? items).elim o.enable id := by
  refine foldl_apply (g := Options.enable) (fun o it => ?_) items o
  rw [apply_eq]
  cases it <;> rfl

theorem foldl_debug (items : List Item) (o : Options) : (items.foldl Item.apply o).debug =
    (lastOf Item.debug? items).elim o.debug id := by
  refine foldl_apply (g := Options.debug) (fun o it => ?_) items o
  rw [apply_eq]
  cases it <;> rfl

end Items

/-! ## Sizes -/

section Sizes

variable {physpages pagesize : BitVec 32} {x : Number} {u : SizeUnit}

/-- The sizes that are set: the number is a `long`, and the bytes are an `unsigned long`. -/
def FitsSize (x : Nat) : SizeUnit → Prop
  | .bytes => x < 2 ^ 31
  | .percent => True
  | .kilobytes => x < 2 ^ 22
  | .megabytes => x < 2 ^ 12

theorem head_text (u : SizeUnit) : ∀ c ∈ u.text.head?, c.isDigit = false := by
  cases u <;> simp [SizeUnit.text]

theorem strtol_number (x : Number) (u : SizeUnit) :
    strtol (x.digits ++ u.text) = (min (2 ^ 31 - 1) (readDigits x.digits : Int), u.text) := by
  obtain ⟨d, ds, hd⟩ := List.exists_cons_of_ne_nil x.ne
  have hdigit : d.isDigit = true := x.isDigit d (hd ▸ List.mem_cons_self)
  have hspace : (x.digits ++ u.text).dropWhile isSpace = x.digits ++ u.text := by
    rw [hd]
    exact dropWhile_of_head fun c hc => by
      cases hc
      exact not_isSpace_of_isDigit hdigit
  have htake : (x.digits ++ u.text).takeWhile Char.isDigit = x.digits := by
    rw [List.takeWhile_append_of_pos x.isDigit, takeWhile_of_head (head_text u), List.append_nil]
  have hdrop : (x.digits ++ u.text).dropWhile Char.isDigit = u.text := by
    rw [List.dropWhile_append_of_pos x.isDigit, dropWhile_of_head (head_text u)]
  have hvalue : atoi (x.digits ++ u.text) = (readDigits x.digits : Int) := by
    have hread := readDigits_append [] x.isDigit (by simp)
    rw [List.append_nil] at hread
    rw [hread, ← readDigits_append u.text x.isDigit (head_text u), hd, List.cons_append, atoi_of_isDigit hdigit]
  have hsign : skipSign (x.digits ++ u.text) = x.digits ++ u.text := by
    rw [hd, List.cons_append]
    unfold skipSign
    split
    · next heq =>
      obtain ⟨rfl, -⟩ := List.cons.inj heq
      cases hdigit
    · next heq =>
      obtain ⟨rfl, -⟩ := List.cons.inj heq
      cases hdigit
    · rfl
  unfold strtol
  dsimp only
  rw [hspace, hsign, htake, hdrop, CInt.strtol, hvalue, if_neg (by simp [x.ne]), CInt.clamp]
  congr 1
  omega

/-- The number as it is stored -/
theorem toNat_ofInt (x : Nat) :
    (BitVec.ofInt 32 (toInt (min (2 ^ 31 - 1) (x : Int)))).toNat = min (2 ^ 31 - 1) x := by
  have hint : toInt (min (2 ^ 31 - 1) (x : Int)) = (min (2 ^ 31 - 1) x : Nat) := by
    rw [toInt, Int.bmod_eq_of_le (by omega) (by omega)]
    omega
  rw [hint, BitVec.ofInt_natCast, BitVec.toNat_ofNat]
  omega

theorem sizeOf_iff (hu : u ≠ .percent) (physmem : Nat) :
    (sizeOf physpages pagesize (x.digits ++ u.text)).toNat = u.size physmem (readDigits x.digits) ↔
      FitsSize (readDigits x.digits) u := by
  have hlen : u.text.length ≠ (x.digits ++ u.text).length := by
    have hpos := List.length_pos_of_ne_nil x.ne
    rw [List.length_append]
    omega
  unfold sizeOf
  rw [strtol_number]
  dsimp only
  rw [if_neg hlen]
  generalize hn : BitVec.ofInt 32 (toInt (min (2 ^ 31 - 1) (readDigits x.digits : Int))) = size
  have hsize := toNat_ofInt (readDigits x.digits)
  rw [hn] at hsize
  generalize readDigits x.digits = n at hsize ⊢
  cases u with
  | bytes =>
    show size.toNat = n ↔ n < 2 ^ 31
    omega
  | percent => exact absurd rfl hu
  | kilobytes =>
    show (size * 1024).toNat = n * 1024 ↔ n < 2 ^ 22
    rw [BitVec.toNat_mul, hsize]
    show _ * 1024 % 2 ^ 32 = _ ↔ _
    omega
  | megabytes =>
    show (size * (1024 * 1024)).toNat = n * (1024 * 1024) ↔ n < 2 ^ 12
    rw [BitVec.toNat_mul, hsize]
    show _ * (1024 * 1024) % 2 ^ 32 = _ ↔ _
    omega

end Sizes

/-! ## The initialisation -/

section Initialise

variable {keeps enable debug : Bool} {cachesize pagesize physpages pagesize' : BitVec 32} {ops : List (Op 32)} {vm : Vmcache 32}
  {initstr : Str}

/-- `vm_initcache` returns, and if the text is one of items, their values are set. -/
def Initialises (keeps : Bool) (physpages pagesize : BitVec 32) (vm : Vmcache 32) (debug : Bool) (initstr : Str) : Prop :=
  ∃ n r, vmInitcache keeps physpages pagesize vm debug initstr n = some r ∧
    ∀ items, Renders items initstr → r.Has r.physmem.toNat items

theorem percent_not_mem (h : ∀ c ∈ initstr, ∃ p ∈ classes, p c = true) : '%' ∉ initstr := by
  intro hmem
  obtain ⟨p, hp, hc⟩ := h '%' hmem
  revert p
  decide

/-- The options that a scan of items leaves -/
theorem scanLoop_items {n : Nat} {o o' : Options} {items : List Item} (h : scanLoop n initstr o = some o')
    (hr : Renders items initstr) (hp : '%' ∉ initstr) : o' = items.foldl Item.apply o :=
  scanLoop_unique h (scanLoop_renders hr hp (scanLoop_some h).2 (Nat.lt_succ_self _))

/-- For every text and every cache that calls lead to: `vm_initcache` returns with the values of the items set, just when
each character is a letter, a digit, a blank, a comma or an equals sign, no more than 63 letters and digits are next to
each other, the last size given fits, and no segment is mapped if a freed block cannot be read. -/
theorem initcache_iff (hrun : run (step keeps) (initcache enable cachesize pagesize) ops = some vm) :
    Initialises keeps physpages pagesize' vm debug initstr ↔
      (∀ c ∈ initstr, ∃ p ∈ classes, p c = true) ∧ ShortRuns initstr ∧
        (∀ items x u, Renders items initstr → lastOf Item.size? items = some (x, u) → FitsSize (readDigits x.digits) u) ∧
        (keeps = true ∨ ¬ (vm.cacheInitialized ∧ vm.segmentHead ≠ 0)) := by
  constructor
  · rintro ⟨n, r, hr, hhas⟩
    obtain ⟨o, hscan, hr⟩ := Option.bind_eq_some_iff.mp hr
    obtain ⟨vm', hclose, rfl⟩ := Option.map_eq_some_iff.mp hr
    obtain ⟨hend, hshort⟩ := scanLoop_some hscan
    have hchars := iterate_skips_iff.mp ⟨n, hend⟩
    refine ⟨hchars, hshort, fun items x u hitems hlast => ?_, ?_⟩
    · by_cases hu : u = .percent
      · rw [hu]
        trivial
      · have hsize := (hhas items hitems).cachesize x u hlast
        rw [scanLoop_items hscan hitems (percent_not_mem hchars)] at hsize
        dsimp only [initcache] at hsize
        rw [foldl_cachesize, hlast] at hsize
        exact (sizeOf_iff hu _).mp hsize
    · by_contra hkeeps
      rw [not_or, not_not, Bool.not_eq_true] at hkeeps
      rw [hkeeps.1, closecache_none hkeeps.2] at hclose
      cases hclose
  · rintro ⟨hchars, hshort, hsizes, hkeeps⟩
    obtain ⟨l, hl⟩ := rep_of_run hrun
    obtain ⟨vm', l', hclose, -⟩ := closecache_drops hl hkeeps
    obtain ⟨o, hscan⟩ := exists_scanLoop (o := ⟨defCachesize, false, true, debug⟩) hchars hshort (Nat.le_refl _)
    have hp := percent_not_mem hchars
    refine ⟨_, _, by rw [vmInitcache, hscan, Option.bind_some, hclose]; rfl, fun items hitems => ?_⟩
    rw [scanLoop_items hscan hitems hp]
    refine ⟨fun x u hlast => ?_, fun b hlast => ?_, fun b hlast => ?_, fun b hlast => ?_⟩
    · have hu : u ≠ .percent := by
        rintro rfl
        refine hp ((hitems.occurs (mem_of_lastOf hlast)).mem ?_)
        exact List.mem_append_right _ (List.mem_singleton_self '%')
      dsimp only [initcache]
      rw [foldl_cachesize, hlast]
      exact (sizeOf_iff hu _).mpr (hsizes items x u hitems hlast)
    · dsimp only
      rw [foldl_lockpages, hlast]
      rfl
    · dsimp only [initcache]
      rw [foldl_enable, hlast]
      rfl
    · dsimp only
      rw [foldl_debug, hlast]
      rfl

/-- A size with few digits fits. -/
theorem fitsSize_of_digits {items : List Item} {x : Number} {u : SizeUnit} (h : initstr.countP Char.isDigit < 4)
    (hr : Renders items initstr) (hlast : lastOf Item.size? items = some (x, u)) : FitsSize (readDigits x.digits) u := by
  have hinfix : x.digits <:+: initstr :=
    (List.prefix_append x.digits u.text).isInfix.trans (hr.occurs (mem_of_lastOf hlast))
  have hcount : x.digits.countP Char.isDigit ≤ initstr.countP Char.isDigit := hinfix.sublist.countP_le
  rw [List.countP_eq_length.mpr x.isDigit] at hcount
  have hread := readDigits_append [] x.isDigit (by simp)
  rw [List.append_nil] at hread
  have hlt := ofDigitChars_lt x.isDigit
  rw [← hread] at hlt
  have hle : 10 ^ x.digits.length ≤ 10 ^ 3 := Nat.pow_le_pow_right (by decide) (by omega)
  cases u with
  | percent => trivial
  | bytes | kilobytes | megabytes =>
    unfold FitsSize
    omega

theorem shortRuns_of_length (h : initstr.length < szValstr) : ShortRuns initstr :=
  fun _ hw _ => Nat.lt_of_le_of_lt hw.length_le h

/-- A cache of 64 megabytes -/
theorem initcache_megabytes :
    Initialises false 32768 4096 (initcache true 1048576 4096) false
      ['c', 'a', 'c', 'h', 'e', 's', 'i', 'z', 'e', '=', '6', '4', 'M'] := by
  have hrun : run (step false) (initcache true 1048576 4096 : Vmcache 32) [] = some (initcache true 1048576 4096) := rfl
  exact (initcache_iff hrun).mpr ⟨by decide, shortRuns_of_length (by decide),
    fun items x u hr hlast => fitsSize_of_digits (by decide) hr hlast, .inr fun h => h.2 rfl⟩

/-- The percent sign is never passed. -/
theorem initcache_not :
    ¬ ∀ (keeps enable debug : Bool) (cachesize pagesize physpages pagesize' : BitVec 32) (ops : List (Op 32)) (vm : Vmcache 32)
      (initstr : Str), run (step keeps) (initcache enable cachesize pagesize) ops = some vm →
      Initialises keeps physpages pagesize' vm debug initstr := by
  intro h
  obtain ⟨n, r, hr, -⟩ := h true true false 1048576 4096 32768 4096 [] (initcache true 1048576 4096)
    ['c', 'a', 'c', 'h', 'e', 's', 'i', 'z', 'e', '=', '5', '0', '%'] rfl
  obtain ⟨o, hscan, -⟩ := Option.bind_eq_some_iff.mp hr
  exact percent_not_mem (iterate_skips_iff.mp ⟨n, (scanLoop_some hscan).1⟩) (by decide)

end Initialise

end Ndhs.Vm
