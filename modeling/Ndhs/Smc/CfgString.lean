import Ndhs.Lib.Buffer
import Ndhs.Lib.Scan
import Ndhs.Smc.Config

/-!
# The scanner of the configuration (`lib/smc/smConfig.c`)

`smParseCfgString` and `smParseCfgFile` call `smGetCfgOption` until the text is used up. Each call skips four classes of
characters, and copies those of the first and of the third to `keyw` and to `val`, without a look at the sizes of these
buffers. Here the buffers are lists of their bytes: a byte that is written outside of one gives `none`, and so does the
use of a string that is not terminated. The pointer moves on in any case.

* `cfgLoop`: both loops, over a string and over a line. The outer `none` is for a loop with rounds left to go, the
  inner one for a parser that has lost its buffers.
* `cfgLoop_st`: as long as the buffers are good this is the loop of `Smc/Config.lean`.
* `cfgString_ends`: the loop over a string ends, since every character is in one of the four classes.
* `cfgBuffers_iff`: the buffers are good just when every keyword and every value has less than `SZ_KEYW` characters.
-/

namespace Ndhs.Config

namespace Buffered

open Text

/-- `SZ_VAL` -/
def szVal : Nat := 64

/-- Between a keyword and its value -/
def isEquals (c : Char) : Bool := c == '=' || isSpace c

/-- Behind a value -/
def isComma (c : Char) : Bool := c == ',' || isSpace c

/-- `bzero (buf, n)` -/
def bzero (n : Nat) : List Char := List.replicate n '\x00'

/-- `for (; *op && p (*op); ) buf[i++] = *op++` -/
def copyRun (p : Char → Bool) : Nat → List Char → Str → Option (List Char)
  | _, buf, [] => some buf
  | i, buf, c :: op =>
    if p c then if i < buf.length then copyRun p (i + 1) (buf.set i c) op else none
    else some buf

/-- `smGetCfgOption`: the buffers `keyw` and `val`, and the pointer -/
def smGetCfgOption (ip : Str) : Option (List Char × List Char) × Str :=
  let op := (ip.dropWhile isKeyw).dropWhile isEquals
  ((copyRun isKeyw 0 (bzero szKeyw) ip).bind fun keyw =>
      (copyRun isVal 0 (bzero szVal) op).map fun val => (keyw, val),
    (op.dropWhile isVal).dropWhile isComma)

/-- The string in a buffer, if there is a null at its end -/
def terminated (buf : List Char) : Option Str :=
  if '\x00' ∈ buf then some (buf.takeWhile (· != '\x00')) else none

/-- What the parser writes: the options, and the buffer `cache_path[SZ_PATH]` -/
structure Parsing where
  st : ParseState
  cachePath : List Char

/-- `bzero (cfg->cache_path, SZ_PATH)` and `strncpy (cfg->cache_path, val, strlen (val))` -/
def storePath (cachePath : List Char) (val : Str) : Option (List Char) :=
  if 0 < val.length then copyRun (fun _ => true) 0 (bzero cfgPath) val else some cachePath

/-- The local option, and `smSetCfgOption` -/
def Parsing.set (p : Parsing) (keyw val : Str) : Option Parsing :=
  (if strncmpEq keyw (chars "segments") 3 = false ∧ cfgKey keyw = some .cachePath then storePath p.cachePath val
    else some p.cachePath).map fun cachePath => ⟨setOption p.st keyw val, cachePath⟩

/-- What is done with an option, and whether the loop is left: `eoc` is set for a line of the lock file. -/
def Parsing.take (eoc : Bool) (p : Parsing) (keyw val : Str) : Option (Parsing × Bool) :=
  if eoc && strncmpEq keyw (chars "E_O_C") 5 then some ({ p with st := { p.st with done := true } }, true)
  else (p.set keyw val).map (·, false)

/-- The keyword and the value in the buffers, if they are good -/
def optionOf (bufs : Option (List Char × List Char)) : Option (Str × Str) :=
  bufs.bind fun (keyw, val) => (terminated keyw).bind fun keyw => (terminated val).map fun val => (keyw, val)

/-- The loop from offset `off` on, with at most `n` rounds to go -/
def cfgLoop (eoc : Bool) (len : Int32) : Nat → Nat → Str → Option Parsing → Option (Option Parsing)
  | n, off, ip, p =>
    if ip ≠ [] ∧ (off : Int) ≤ len.toInt then
      match n with
      | 0 => none
      | n + 1 =>
        let (bufs, rest) := smGetCfgOption ip
        match p.bind fun p => (optionOf bufs).bind fun (keyw, val) => p.take eoc keyw val with
        | some (p, true) => some (some p)
        | some (p, false) => cfgLoop eoc len n (off + (ip.length - rest.length)) rest (some p)
        | none => cfgLoop eoc len n (off + (ip.length - rest.length)) rest none
    else some p

/-- The loop of `smParseCfgString` -/
def smParseCfgString (config : CStr) (p : Option Parsing) : Option (Option Parsing) :=
  cfgLoop false (Int32.ofNat config.text.length) config.text.length 0 config.text p

/-- A line in `smParseCfgFile`, where `len` is not set -/
def smParseCfgLine (len : Int32) (line : CStr) (p : Option Parsing) : Option (Option Parsing) :=
  if line.text.head? = some '\n' ∨ line.text.head? = some '#' then some p
  else cfgLoop true len line.text.length 0 line.text p

/-! ## What is scanned -/

/-- The characters of the keyword -/
def cfgKeyw (ip : Str) : Str := ip.takeWhile isKeyw

/-- The characters of the value -/
def cfgVal (ip : Str) : Str := ((ip.dropWhile isKeyw).dropWhile isEquals).takeWhile isVal

/-- The classes of characters that are skipped -/
def cfgClasses : List (Char → Bool) := [isKeyw, isEquals, isVal, isComma]

/-- The keywords and values of the options, as they are scanned -/
def pairs (eoc : Bool) (len : Int32) : Nat → Nat → Str → List (Str × Str)
  | 0, _, _ => []
  | n + 1, off, ip =>
    if ip ≠ [] ∧ (off : Int) ≤ len.toInt then
      let rest := Scan.skips cfgClasses ip
      (cfgKeyw ip, cfgVal ip) ::
        if eoc && strncmpEq (cfgKeyw ip) (chars "E_O_C") 5 then []
        else pairs eoc len n (off + (ip.length - rest.length)) rest
    else []

/-- The options of a string -/
def stringPairs (config : CStr) : List (Str × Str) :=
  pairs false (Int32.ofNat config.text.length) config.text.length 0 config.text

/-- The options of a line: a blank line and a comment have none. -/
def linePairs (len : Int32) (line : CStr) : List (Str × Str) :=
  if line.text.head? = some '\n' ∨ line.text.head? = some '#' then []
  else pairs true len line.text.length 0 line.text

/-- The keyword and the value fit their buffers, with a null behind. -/
def Short (kv : Str × Str) : Prop := kv.1.length < szKeyw ∧ kv.2.length < szVal

instance (kv : Str × Str) : Decidable (Short kv) := inferInstanceAs (Decidable (_ ∧ _))

variable {p : Char → Bool} {i n off : Nat} {buf : List Char} {ip val : Str} {eoc : Bool} {len : Int32}

theorem smGetCfgOption_rest (ip : Str) : (smGetCfgOption ip).2 = Scan.skips cfgClasses ip := rfl

/-- Every character is in a class: what is not part of a keyword or a value is skipped. -/
theorem mem_cfgClasses (c : Char) : ∃ p ∈ cfgClasses, p c = true := by
  by_cases h : isVal c
  · exact ⟨isVal, by simp [cfgClasses], h⟩
  · refine ⟨isComma, by simp [cfgClasses], ?_⟩
    simp only [isVal, Bool.and_eq_true, Bool.not_eq_true', bne_iff_ne, not_and, Bool.not_eq_false] at h
    simp only [isComma, Bool.or_eq_true, beq_iff_eq]
    exact or_iff_not_imp_left.mpr h

/-- Each call moves the pointer on. -/
theorem smGetCfgOption_advances (h : ip ≠ []) : (smGetCfgOption ip).2.length < ip.length := by
  obtain ⟨c, ip, rfl⟩ := List.exists_cons_of_ne_nil h
  exact Scan.length_skips_lt (mem_cfgClasses c)

theorem cfgLoop_ends (h : ip.length ≤ n) (p : Option Parsing) : ∃ r, cfgLoop eoc len n off ip p = some r := by
  induction n generalizing off ip p with
  | zero =>
    obtain rfl := List.eq_nil_of_length_eq_zero (Nat.le_zero.mp h)
    exact ⟨p, by simp [cfgLoop]⟩
  | succ n ih =>
    unfold cfgLoop
    split
    · next hip =>
      have hlt := smGetCfgOption_advances hip.1
      dsimp only
      split
      · exact ⟨_, rfl⟩
      · exact ih (by omega) _
      · exact ih (by omega) _
    · exact ⟨p, rfl⟩

/-- For every string: each call on what is left of it moves the pointer on by at least one character, and not past the
end, and the loop ends. -/
theorem cfgString_ends (config : CStr) :
    (∀ ip, ip <:+ config.text → ip ≠ [] →
      (smGetCfgOption ip).2 <:+ ip ∧ (smGetCfgOption ip).2.length < ip.length) ∧
    ∀ p, ∃ r, smParseCfgString config p = some r := by
  refine ⟨fun ip _ hne => ⟨Scan.skips_suffix cfgClasses ip, smGetCfgOption_advances hne⟩, fun p => ?_⟩
  exact cfgLoop_ends (Nat.le_refl _) p

/-! ## What is written -/

/-- A run of characters is copied if the buffer is long enough. -/
theorem copyRun_eq (hi : i ≤ buf.length) :
    copyRun p i buf ip = if i + (ip.takeWhile p).length ≤ buf.length then
      some (buf.take i ++ ip.takeWhile p ++ buf.drop (i + (ip.takeWhile p).length)) else none := by
  induction ip generalizing i buf with
  | nil => simp [copyRun, hi]
  | cons c ip ih =>
    unfold copyRun
    by_cases hp : p c
    · rw [if_pos hp, List.takeWhile_cons_of_pos hp, List.length_cons]
      by_cases hlt : i < buf.length
      · rw [if_pos hlt, ih (by rw [List.length_set]; omega), List.length_set]
        have htake : (buf.set i c).take (i + 1) = buf.take i ++ [c] := by
          rw [List.take_add_one, List.take_set_of_le (Nat.le_refl _), List.getElem?_set_self hlt]
          rfl
        have hidx : i + 1 + (ip.takeWhile p).length = i + ((ip.takeWhile p).length + 1) := by omega
        rw [htake, hidx, List.drop_set_of_lt (by omega)]
        simp
      · rw [if_neg hlt, if_neg (by omega)]
    · rw [if_neg hp, List.takeWhile_cons_of_neg hp]
      simp [hi]

/-- A run into a cleared buffer: it is a string if there is a null behind it. -/
theorem terminated_copyRun (h : '\x00' ∉ ip.takeWhile p) (n : Nat) :
    (copyRun p 0 (bzero n) ip).bind terminated =
      if (ip.takeWhile p).length < n then some (ip.takeWhile p) else none := by
  have hlen : (bzero n).length = n := List.length_replicate
  rw [copyRun_eq (Nat.zero_le _), hlen, Nat.zero_add, List.take_zero, List.nil_append]
  by_cases hle : (ip.takeWhile p).length ≤ n
  · rw [if_pos hle, Option.bind_some, bzero, List.drop_replicate]
    by_cases hlt : (ip.takeWhile p).length < n
    · obtain ⟨k, hk⟩ : ∃ k, n - (ip.takeWhile p).length = k + 1 := ⟨n - (ip.takeWhile p).length - 1, by omega⟩
      have hall : ∀ c ∈ ip.takeWhile p, (c != '\x00') = true := by
        intro c hc
        rw [bne_iff_ne]
        rintro rfl
        exact h hc
      rw [if_pos hlt, hk, List.replicate_succ, terminated, if_pos (by simp), List.takeWhile_append_of_pos hall]
      simp
    · have hk : n - (ip.takeWhile p).length = 0 := by omega
      rw [if_neg hlt, hk, List.replicate_zero, List.append_nil, terminated, if_neg h]
  · rw [if_neg hle, if_neg (by omega)]
    rfl

theorem noNull_takeWhile (h : '\x00' ∉ ip) : '\x00' ∉ ip.takeWhile p :=
  fun hm => h ((List.takeWhile_prefix p).mem hm)

theorem noNull_dropWhile (h : '\x00' ∉ ip) : '\x00' ∉ ip.dropWhile p :=
  fun hm => h ((List.dropWhile_suffix p).mem hm)

theorem optionOf_buffers (a b : Option (List Char)) :
    optionOf (a.bind fun keyw => b.map fun val => (keyw, val)) =
      (a.bind terminated).bind fun keyw => (b.bind terminated).map fun val => (keyw, val) := by
  cases a with
  | none => rfl
  | some keyw =>
    cases b with
    | none => simp [optionOf]
    | some val => simp [optionOf]

/-- The buffers hold the option that was scanned, if it fits. -/
theorem optionOf_smGetCfgOption (h : '\x00' ∉ ip) :
    optionOf (smGetCfgOption ip).1 = if Short (cfgKeyw ip, cfgVal ip) then some (cfgKeyw ip, cfgVal ip) else none := by
  have hk : (copyRun isKeyw 0 (bzero szKeyw) ip).bind terminated =
      if (cfgKeyw ip).length < szKeyw then some (cfgKeyw ip) else none := terminated_copyRun (noNull_takeWhile h) szKeyw
  have hv : (copyRun isVal 0 (bzero szVal) ((ip.dropWhile isKeyw).dropWhile isEquals)).bind terminated =
      if (cfgVal ip).length < szVal then some (cfgVal ip) else none :=
    terminated_copyRun (noNull_takeWhile (noNull_dropWhile (noNull_dropWhile h))) szVal
  unfold smGetCfgOption
  rw [optionOf_buffers, hk, hv]
  by_cases hkeyw : (cfgKeyw ip).length < szKeyw
  · by_cases hval : (cfgVal ip).length < szVal
    · simp [Short, hkeyw, hval]
    · simp [Short, hval]
  · simp [Short, hkeyw]

/-- A value from the buffer fits into `cache_path`. -/
theorem set_of_short (ps : Parsing) (keyw : Str) (h : val.length < szVal) :
    ∃ cachePath, ps.set keyw val = some ⟨setOption ps.st keyw val, cachePath⟩ := by
  unfold Parsing.set
  split
  · unfold storePath
    split
    · have hlen : (bzero cfgPath).length = cfgPath := List.length_replicate
      have hfit : 0 + (val.takeWhile fun _ => true).length ≤ (bzero cfgPath).length := by
        rw [hlen, List.takeWhile_eq_self_iff.mpr fun _ _ => rfl, Nat.zero_add]
        exact (Nat.lt_trans h (by decide)).le
      rw [copyRun_eq (Nat.zero_le _), if_pos hfit]
      exact ⟨_, rfl⟩
    · exact ⟨_, rfl⟩
  · exact ⟨_, rfl⟩

theorem cfgLoop_lost (n off : Nat) (ip : Str) : ∀ r, cfgLoop eoc len n off ip none = some r → r = none := by
  induction n generalizing off ip with
  | zero =>
    intro r h
    unfold cfgLoop at h
    split at h
    · cases h
    · exact (Option.some.inj h).symm
  | succ n ih =>
    intro r h
    unfold cfgLoop at h
    split at h
    · exact ih _ _ r h
    · exact (Option.some.inj h).symm

/-- The buffers stay good just when all options that are scanned fit. -/
theorem cfgLoop_iff (h0 : '\x00' ∉ ip) (hn : ip.length ≤ n) (ps : Parsing) :
    (∃ ps', cfgLoop eoc len n off ip (some ps) = some (some ps')) ↔ ∀ kv ∈ pairs eoc len n off ip, Short kv := by
  induction n generalizing off ip ps with
  | zero =>
    obtain rfl := List.eq_nil_of_length_eq_zero (Nat.le_zero.mp hn)
    simp [cfgLoop, pairs]
  | succ n ih =>
    unfold cfgLoop pairs
    by_cases hip : ip ≠ [] ∧ (off : Int) ≤ len.toInt
    · have hlt := smGetCfgOption_advances hip.1
      have hrest : '\x00' ∉ Scan.skips cfgClasses ip := fun hm => h0 ((Scan.skips_suffix cfgClasses ip).mem hm)
      rw [smGetCfgOption_rest] at hlt
      rw [if_pos hip, if_pos hip]
      dsimp only
      rw [Option.bind_some, optionOf_smGetCfgOption h0, smGetCfgOption_rest, List.forall_mem_cons]
      by_cases hs : Short (cfgKeyw ip, cfgVal ip)
      · rw [if_pos hs, Option.bind_some]
        simp only [hs, true_and]
        unfold Parsing.take
        by_cases hmark : (eoc && strncmpEq (cfgKeyw ip) (chars "E_O_C") 5) = true
        · simp [hmark]
        · obtain ⟨cachePath, hset⟩ := set_of_short ps (cfgKeyw ip) hs.2
          rw [if_neg hmark, if_neg hmark, hset, Option.map_some]
          exact ih hrest (by omega) _
      · rw [if_neg hs, Option.bind_none]
        refine ⟨?_, fun hall => absurd hall.1 hs⟩
        rintro ⟨ps', hr⟩
        cases cfgLoop_lost _ _ _ _ hr
    · simp [hip]

/-- For every string and every line: all calls write within `keyw`, `val` and `cache_path`, and give terminated strings,
just when every keyword and every value that is scanned has less than `SZ_KEYW` characters. -/
theorem cfgBuffers_iff (config line : CStr) (len : Int32) (ps : Parsing) :
    ((∃ ps', smParseCfgString config (some ps) = some (some ps')) ↔ ∀ kv ∈ stringPairs config, Short kv) ∧
    ((∃ ps', smParseCfgLine len line (some ps) = some (some ps')) ↔ ∀ kv ∈ linePairs len line, Short kv) := by
  refine ⟨cfgLoop_iff config.noNull (Nat.le_refl _) ps, ?_⟩
  unfold smParseCfgLine linePairs
  split
  · simp
  · exact cfgLoop_iff line.noNull (Nat.le_refl _) ps

/-- A cache path of 64 characters -/
def longPath : CStr where
  text := chars "cache_path=/" ++ List.replicate 63 'x'
  noNull := by
    decide +kernel

/-- The value has as many characters as `val` has bytes: there is no null behind it. -/
theorem cfgBuffers_not :
    ¬ ∀ (config : CStr) (ps : Parsing), ∃ ps', smParseCfgString config (some ps) = some (some ps') := by
  intro h
  obtain ⟨ps', hr⟩ := h longPath ⟨⟨sample 0, 0, false⟩, bzero cfgPath⟩
  have hlost : (smParseCfgString longPath (some ⟨⟨sample 0, 0, false⟩, bzero cfgPath⟩)).map Option.isSome =
      some false := by
    decide +kernel
  rw [hr] at hlost
  cases hlost

/-! ## The options that are set -/

/-- The options in good buffers are those of the parser without buffers. -/
theorem cfgLoop_st (h0 : '\x00' ∉ ip) (hn : ip.length ≤ n) (ps : Parsing) :
    (cfgLoop true len n off ip (some ps)).map (Option.map Parsing.st) = some (lineLoop len n off ip ps.st) := by
  induction n generalizing off ip ps with
  | zero =>
    obtain rfl := List.eq_nil_of_length_eq_zero (Nat.le_zero.mp hn)
    simp [cfgLoop, lineLoop]
  | succ n ih =>
    unfold cfgLoop lineLoop
    by_cases hip : ip ≠ [] ∧ (off : Int) ≤ len.toInt
    · have hlt := smGetCfgOption_advances hip.1
      have hrest : '\x00' ∉ Scan.skips cfgClasses ip := fun hm => h0 ((Scan.skips_suffix cfgClasses ip).mem hm)
      rw [smGetCfgOption_rest] at hlt
      have hplain : Config.smGetCfgOption ip =
          if Short (cfgKeyw ip, cfgVal ip) then some (cfgKeyw ip, cfgVal ip, Scan.skips cfgClasses ip) else none := rfl
      rw [if_pos hip, if_pos hip, hplain]
      dsimp only
      rw [Option.bind_some, optionOf_smGetCfgOption h0, smGetCfgOption_rest]
      by_cases hs : Short (cfgKeyw ip, cfgVal ip)
      · rw [if_pos hs, if_pos hs, Option.bind_some]
        simp only [Option.bind_eq_bind, Option.bind_some]
        unfold Parsing.take
        by_cases hmark : strncmpEq (cfgKeyw ip) (chars "E_O_C") 5 = true
        · simp [hmark]
        · obtain ⟨cachePath, hset⟩ := set_of_short ps (cfgKeyw ip) hs.2
          rw [if_neg (by simpa using hmark), if_neg hmark, hset, Option.map_some]
          exact ih hrest (by omega) _
      · rw [if_neg hs, if_neg hs, Option.bind_none]
        have hlen : (Scan.skips cfgClasses ip).length ≤ n := by omega
        obtain ⟨r, hr⟩ : ∃ r, cfgLoop true len n (off + (ip.length - (Scan.skips cfgClasses ip).length))
            (Scan.skips cfgClasses ip) none = some r := cfgLoop_ends hlen none
        rw [hr, cfgLoop_lost _ _ _ r hr]
        rfl
    · simp [hip]

end Buffered

end Ndhs.Config
