import Ndhs.Lib.Ints
import Ndhs.Lib.Lines
import Ndhs.Lib.Words

/-!
# The lock file of the cache (`lib/smc/smUtil.c`, `lib/smc/smConfig.c`)

The process that creates the cache writes its configuration to the lock file (`smUtilInitCache`), and a process that
attaches reads it (`smParseCfgFile`). Each that opens the cache appends the key of the shared memory, and each that attaches
the end mark `E_O_C` and a comment.

* A text that does not fit its buffer gives `none`. The fields have the widths of the C types.
* `fileLoop` has the value that `len` happens to have: `smParseCfgFile` never assigns it.
* `Restored`: what is read is what was written, into a structure with any other content.
* `fileLoop_unlines`: the file is read line by line; `parseLine_option`: what a line with an option does.
* `config_roundtrip_iff`: the configuration is restored if `len` is not negative and the lock flags are zero or one.
-/

namespace Ndhs.Config

open Text Words

/-- `SZ_KEYW` and `SZ_VAL` -/
def szKeyw : Nat := 64

/-- `SZ_LINE` -/
def cfgLine : Nat := 1024

/-- `SZ_FNAME`, for the name of the lock file -/
def lockFname : Nat := 64

/-- `SZ_PATH`, for the fields of the configuration -/
def cfgPath : Nat := 164

/-- `MAX_SEGS` -/
def cfgMaxSegs : Int := 4096

/-- `AC_LOCK|VM_LOCK`, the default of both lock flags -/
def defLock : Int32 := 3

/-- `sysConfig_t`, as far as it is written or parsed. `smcDebug` is the debug flag of the cache behind `smc`. -/
structure SysConfig where
  smcDebug : Option Bool
  config : Str
  cachePath : Str
  cacheSize : Int32
  cacheMemKey : Int32
  cacheAddr : Int64
  debug : Bool
  nsegs : Int32
  minSegSize : Int32
  lockCache : Int32
  lockSegs : Int32
  throttleTime : UInt32
  throttleNtry : UInt32
  verbose : Bool
  sysPageSize : UInt32

/-! ## The parser -/

/-- `atoi`, with a `long` of four bytes -/
def atoi32 (s : Str) : Int32 := Int32.ofInt (CInt.strtol 32 s)

/-- `strchr ("tTyY1", c) != NULL`, which a null passes as well -/
def isYes (c : Char) : Bool := (chars "tTyY1").contains c || c == '\x00'

/-- `is_true` -/
def isTrue (c : Char) : Bool := isYes c || c == '\n'

def ofBool (b : Bool) : Int32 := if b then 1 else 0

/-- The options that are told apart -/
inductive CfgKey where
  | cachePath
  | cacheSize
  | cacheMemKey
  | cacheAddr
  | nsegs
  | debug
  | throttleTime
  | throttleNtry
  | minSegSize
  | verbose
  | lockCache
  | lockSegs
  | noop
  deriving DecidableEq

/-- The option of a keyword; `none` for one that is not recognized. -/
def cfgKey (keyw : Str) : Option CfgKey :=
  if strncmpEq keyw (chars "cache_path") 7 || strncmpEq keyw (chars "cache_file") 7 then some .cachePath
  else if strncmpEq keyw (chars "cache_size") 7 then some .cacheSize
  else if strncmpEq keyw (chars "cache_memKey") 7 then some .cacheMemKey
  else if strncmpEq keyw (chars "cache_addr") 7 then some .cacheAddr
  else if strncmpEq keyw (chars "nsegs") 4 then some .nsegs
  else if strncmpEq keyw (chars "debug") 4 then some .debug
  else if strncmpEq keyw (chars "throttle_time") 10 then some .throttleTime
  else if strncmpEq keyw (chars "throttle_ntry") 10 then some .throttleNtry
  else if strncmpEq keyw (chars "min_seg_size") 9 then some .minSegSize
  else if strncmpEq keyw (chars "verbose") 4 then some .verbose
  else if strncmpEq keyw (chars "lock_cache") 6 then some .lockCache
  else if strncmpEq keyw (chars "lock_segs") 6 then some .lockSegs
  else if strncmpEq keyw (chars "pid") 3 || strncmpEq keyw (chars "mFd") 3 || strncmpEq keyw (chars "size") 4 ||
      strncmpEq keyw (chars "segments") 3 then some .noop
  else none

/-- `smSetCfgOption` -/
def smSetCfgOption (cfg : SysConfig) (keyw val : Str) : SysConfig :=
  let c := val.headD '\x00'
  match cfgKey keyw with
  | some .cachePath => if 0 < val.length then { cfg with cachePath := val } else cfg
  | some .cacheSize => { cfg with cacheSize := atoi32 val }
  | some .cacheMemKey => { cfg with cacheMemKey := atoi32 val }
  | some .cacheAddr => { cfg with cacheAddr := (atoi32 val).toInt64 }
  | some .nsegs => { cfg with nsegs := Int32.ofInt (min cfgMaxSegs (atoi32 val).toInt) }
  | some .debug => { cfg with debug := isTrue c, smcDebug := cfg.smcDebug.map fun _ => isTrue c }
  | some .throttleTime => { cfg with throttleTime := (atoi32 val).toUInt32 }
  | some .throttleNtry => { cfg with throttleNtry := (atoi32 val).toUInt32 }
  | some .minSegSize =>
    { cfg with minSegSize := Int32.ofInt (max cfg.sysPageSize.toInt32.toInt (atoi32 val).toInt) }
  | some .verbose => { cfg with verbose := isYes c }
  | some .lockCache => { cfg with lockCache := ofBool (isYes c) }
  | some .lockSegs => { cfg with lockSegs := ofBool (isYes c) }
  | some .noop => cfg
  | none => cfg

/-- A character of a keyword -/
def isKeyw (c : Char) : Bool := c.isAlphanum || c == '_'

/-- A character of a value -/
def isVal (c : Char) : Bool := c != ',' && !isSpace c

/-- `smGetCfgOption`: the keyword, the value and what is left -/
def smGetCfgOption (ip : Str) : Option (Str × Str × Str) :=
  let keyw := ip.takeWhile isKeyw
  let op := (ip.dropWhile isKeyw).dropWhile fun c => c == '=' || isSpace c
  let val := op.takeWhile isVal
  let op := (op.dropWhile isVal).dropWhile fun c => c == ',' || isSpace c
  if keyw.length < szKeyw ∧ val.length < szKeyw then some (keyw, val, op) else none

/-- What `smParseCfgFile` changes. `segReader` is one of `TY_NONE`, `TY_ANY`, `TY_DATA` and `TY_META`. -/
structure ParseState where
  cfg : SysConfig
  segReader : Int
  done : Bool

/-- The local option, and the others -/
def setOption (st : ParseState) (keyw val : Str) : ParseState :=
  if strncmpEq keyw (chars "segments") 3 then
    match val.headD '\x00' with
    | 'a' => { st with segReader := 0 }
    | 'n' => { st with segReader := -1 }
    | 'd' => { st with segReader := 2 }
    | 'm' => { st with segReader := 3 }
    | _ => st
  else { st with cfg := smSetCfgOption st.cfg keyw val }

/-- The loop over a line, with at most `n` rounds to go; `ip` is the text from offset `off` on. -/
def lineLoop (len : Int32) : Nat → Nat → Str → ParseState → Option ParseState
  | 0, _, _, st => some st
  | n + 1, off, ip, st =>
    if ip ≠ [] ∧ (off : Int) ≤ len.toInt then do
      let (keyw, val, rest) ← smGetCfgOption ip
      if strncmpEq keyw (chars "E_O_C") 5 then return { st with done := true }
      else lineLoop len n (off + (ip.length - rest.length)) rest (setOption st keyw val)
    else some st

/-- One round of the loop over the file: blank lines and comments are skipped. -/
def parseLine (len : Int32) (line : Str) (st : ParseState) : Option ParseState :=
  if line.head? = some '\n' ∨ line.head? = some '#' then some st else lineLoop len line.length 0 line st

/-- The loop over the file, with at most `n` rounds to go -/
def fileLoop (len : Int32) : Nat → Str → ParseState → Option ParseState
  | 0, _, st => some st
  | n + 1, text, st =>
    if text = [] ∨ st.done = true then some st
    else (parseLine len (fgets (cfgLine - 1) text).1 st).bind (fileLoop len n (fgets (cfgLine - 1) text).2)

/-- `smParseCfgFile` of a file with this content (`none` if it cannot be opened): the status, the configuration and the
segments to be read. -/
def smParseCfgFile (len : Int32) (config : Str) (text : Option Str) (cfg : SysConfig) (segReader : Int) :
    Option (Int × SysConfig × Int) :=
  match text with
  | none => some (-1, cfg, segReader)
  | some text => do
    let st ← fileLoop len text.length text { cfg, segReader, done := false }
    if config.length < cfgPath then
      return (0, { st.cfg with config := config, cachePath := config }, st.segReader)
    else none

/-! ## The writers -/

/-- What a process prints of itself: its id and the time -/
structure Stamp where
  pid : Int64
  time : Int32

/-- A line with an option -/
def optionLine (keyw : String) (val : Str) : Str := chars keyw ++ chars " = " ++ val

def initComment (s : Stamp) : Str :=
  chars "# init pid=" ++ printInt s.pid.toInt ++ chars " (" ++ printInt s.time.toInt ++ [')']

/-- The lines of a new lock file -/
def newLines (cfg : SysConfig) : List Str :=
  [optionLine "cache_path" cfg.cachePath,
    optionLine "cache_size" (printInt cfg.cacheSize.toInt),
    optionLine "nsegs" (printInt cfg.nsegs.toInt),
    optionLine "min_seg_size" (printInt cfg.minSegSize.toInt),
    optionLine "lock_cache" (printInt cfg.lockCache.toInt),
    optionLine "lock_segs" (printInt cfg.lockSegs.toInt)]

/-- The lines of each process that opens the cache -/
def openLines (s : Stamp) (memKey : Int32) : List Str :=
  [initComment s, optionLine "cache_memKey" (printInt memKey.toInt)]

/-- The name of the lock file: the default is `DEF_CACHE_FILE`. -/
def SysConfig.pathOf (cfg : SysConfig) (uid : Int32) : Str :=
  if cfg.cachePath = [] then chars "/tmp/.smc" ++ printInt uid.toInt else cfg.cachePath

/-- `smUtilInitCache`, with the key that `ftok` gives: the file afterwards, the configuration and whether the file is new -/
def smUtilInitCache (file : Str) (cfg : SysConfig) (uid : Int32) (s : Stamp) (memKey : Int32) :
    Option (Str × SysConfig × Bool) :=
  let cfg := { cfg with cachePath := cfg.pathOf uid }
  if cfg.cachePath.length < lockFname then
    let new := file == []
    some (file ++ unlines ((if new then newLines cfg else []) ++ openLines s memKey), { cfg with cacheMemKey := memKey }, new)
  else none

/-- What `smUtilAttach` prints of the segment -/
structure Segment where
  addr : Int64
  shmid : Int64
  size : Int64

def attachComment (s : Stamp) (seg : Segment) : Str :=
  chars "# attach pid=" ++ printInt s.pid.toInt ++ chars " (" ++ printInt s.time.toInt ++ chars ")\tshmid=" ++
    printInt seg.shmid.toInt ++ chars "  size=" ++ printInt seg.size.toInt

/-- The lines of each process that attaches -/
def attachLines (s : Stamp) (seg : Segment) : List Str :=
  [optionLine "cache_addr" (printInt seg.addr.toInt), optionLine "E_O_C" (chars "true"), attachComment s seg]

/-- `smUtilAttach`, as far as it writes to the lock file -/
def smUtilAttach (file : Str) (s : Stamp) (seg : Segment) : Str := file ++ unlines (attachLines s seg)

/-- A process opens the cache, with the key that it gets, or attaches. -/
inductive LockOp where
  | open (uid : Int32) (s : Stamp) (memKey : Int32)
  | attach (s : Stamp) (seg : Segment)

/-- The file afterwards -/
def LockOp.apply (cfg : SysConfig) (file : Str) : LockOp → Option Str
  | .open uid s memKey => (smUtilInitCache file cfg uid s memKey).map Prod.fst
  | .attach s seg => some (smUtilAttach file s seg)

/-- The lock file that a process creates, and to which others append -/
def lockFile (cfg : SysConfig) (uid : Int32) (s : Stamp) (memKey : Int32) (ops : List LockOp) :
    Option (Str × SysConfig) := do
  let (file, cfg, _) ← smUtilInitCache [] cfg uid s memKey
  let file ← ops.foldlM (LockOp.apply cfg) file
  return (file, cfg)

/-! ## What is wanted -/

/-- The configurations that are meant -/
structure SysConfig.Valid (cfg : SysConfig) : Prop where
  path_isVal : ∀ c ∈ cfg.cachePath, isVal c = true
  path_short : cfg.cachePath.length < szKeyw
  nsegs : 0 ≤ cfg.nsegs.toInt ∧ cfg.nsegs.toInt ≤ cfgMaxSegs
  minSegSize : cfg.sysPageSize.toInt32.toInt ≤ cfg.minSegSize.toInt
  lockCache : cfg.lockCache = 0 ∨ cfg.lockCache = 1 ∨ cfg.lockCache = defLock
  lockSegs : cfg.lockSegs = 0 ∨ cfg.lockSegs = 1 ∨ cfg.lockSegs = defLock

/-- The fields that are to be restored -/
structure SysConfig.Agrees (c cfg : SysConfig) : Prop where
  cachePath : c.cachePath = cfg.cachePath
  nsegs : c.nsegs = cfg.nsegs
  minSegSize : c.minSegSize = cfg.minSegSize
  lockCache : c.lockCache = cfg.lockCache
  lockSegs : c.lockSegs = cfg.lockSegs
  cacheMemKey : c.cacheMemKey = cfg.cacheMemKey

/-- Read into any structure, on a machine with the same page size, the file gives the configuration. -/
def Restored (cfg : SysConfig) (uid : Int32) (s : Stamp) (memKey : Int32) (ops : List LockOp) (len : Int32) : Prop :=
  ∃ file cfg', lockFile cfg uid s memKey ops = some (file, cfg') ∧
    ∀ cfg₀ segReader, cfg₀.sysPageSize = cfg.sysPageSize →
      ∃ c segReader', smParseCfgFile len cfg'.cachePath (some file) cfg₀ segReader = some (0, c, segReader') ∧
        c.Agrees cfg'

/-- The last key in front of the first end mark -/
def seenKey (memKey : Int32) : List LockOp → Int32
  | [] => memKey
  | .open _ _ memKey' :: ops => seenKey memKey' ops
  | .attach _ _ :: _ => memKey

/-! ## A line -/

section
variable {len : Int32} {keyw val l : Str} {st : ParseState} {cfg : SysConfig}

/-- A keyword that is not empty and fits its buffer -/
def isOption (keyw : Str) : Bool := keyw.all isKeyw && !keyw.isEmpty && decide (keyw.length < szKeyw)

/-- A value on a line of its own, without the `=` in front of it -/
def valueOf (val : Str) : Str := val.dropWhile (· == '=')

theorem dropWhile_value (hv : ∀ c ∈ val, isVal c = true) :
    (val ++ ['\n']).dropWhile (fun c => c == '=' || isSpace c) = if valueOf val = [] then [] else valueOf val ++ ['\n'] := by
  have hval : val.dropWhile (fun c => c == '=' || isSpace c) = valueOf val := by
    refine dropWhile_congr fun c hc => ?_
    have hspace := (Bool.and_eq_true_iff.mp (hv c hc)).2
    rw [Bool.not_eq_true'] at hspace
    rw [hspace, Bool.or_false]
  rw [List.dropWhile_append, hval]
  simp only [List.isEmpty_iff]
  rfl

theorem smGetCfgOption_line (hk : isOption keyw = true) (hv : ∀ c ∈ val, isVal c = true) (hl : val.length < szKeyw) :
    smGetCfgOption (keyw ++ chars " = " ++ val ++ ['\n']) = some (keyw, valueOf val, []) := by
  obtain ⟨⟨hall, -⟩, hlen⟩ : (keyw.all isKeyw = true ∧ _) ∧ keyw.length < szKeyw := by
    simpa only [isOption, Bool.and_eq_true, decide_eq_true_eq] using hk
  have hsep : chars " = " = [' ', '=', ' '] := chars_ofList _
  have htext : keyw ++ chars " = " ++ val ++ ['\n'] = keyw ++ ' ' :: '=' :: ' ' :: (val ++ ['\n']) := by
    rw [hsep]
    simp only [List.append_assoc, List.cons_append, List.nil_append]
  have hkeyw := span_sep (a := ' ') ('=' :: ' ' :: (val ++ ['\n'])) (List.all_eq_true.mp hall) rfl
  have hop : (' ' :: '=' :: ' ' :: (val ++ ['\n'])).dropWhile (fun c => c == '=' || isSpace c) =
      if valueOf val = [] then [] else valueOf val ++ ['\n'] := dropWhile_value hv
  have hmem : ∀ c ∈ valueOf val, isVal c = true := fun c hc => hv c ((List.dropWhile_suffix _).mem hc)
  have hshort : (valueOf val).length < szKeyw :=
    Nat.lt_of_le_of_lt (List.dropWhile_suffix _).length_le hl
  have hvalue := span_sep (a := '\n') [] hmem rfl
  simp only [smGetCfgOption, htext, hkeyw.1, hkeyw.2, hop]
  by_cases hnil : valueOf val = []
  · rw [if_pos hnil, hnil]
    exact if_pos ⟨hlen, Nat.zero_lt_succ _⟩
  · rw [if_neg hnil, hvalue.1, hvalue.2, if_pos ⟨hlen, hshort⟩]
    rfl

theorem not_skipped (hk : isOption keyw = true) (l : Str) :
    ¬ ((keyw ++ l).head? = some '\n' ∨ (keyw ++ l).head? = some '#') := by
  cases keyw with
  | nil => cases hk
  | cons c keyw =>
    have hc : isKeyw c = true := by
      simp only [isOption, List.all_cons, Bool.and_eq_true] at hk
      exact hk.1.1.1
    rw [List.cons_append, List.head?_cons, Option.some.injEq, Option.some.injEq]
    rintro (rfl | rfl)
    · exact absurd hc (by decide)
    · exact absurd hc (by decide)

/-- A line with an option, if the loop over it is entered -/
theorem parseLine_option (hlen : 0 ≤ len.toInt) (keyw : String) (hk : isOption (chars keyw) = true)
    (hv : ∀ c ∈ val, isVal c = true) (hl : val.length < szKeyw) (st : ParseState) :
    parseLine len (optionLine keyw val ++ ['\n']) st =
      some (if strncmpEq (chars keyw) (chars "E_O_C") 5 then { st with done := true }
        else setOption st (chars keyw) (valueOf val)) := by
  have hfuel : (optionLine keyw val ++ ['\n']).length = (optionLine keyw val).length - 1 + 1 + 1 := by
    have hpos : 0 < (optionLine keyw val).length := by
      have hsep : chars " = " = [' ', '=', ' '] := chars_ofList _
      rw [optionLine, hsep, List.length_append, List.length_append, List.length_cons]
      omega
    rw [List.length_append, List.length_singleton]
    omega
  have hne : optionLine keyw val ++ ['\n'] ≠ [] := List.append_ne_nil_of_right_ne_nil _ (List.cons_ne_nil _ _)
  have hskip : ¬ ((optionLine keyw val ++ ['\n']).head? = some '\n' ∨
      (optionLine keyw val ++ ['\n']).head? = some '#') := by
    rw [optionLine, List.append_assoc, List.append_assoc]
    exact not_skipped hk _
  rw [parseLine, if_neg hskip, hfuel, lineLoop, if_pos ⟨hne, hlen⟩, optionLine, smGetCfgOption_line hk hv hl]
  simp only [Option.bind_eq_bind, Option.bind_some]
  split
  · rfl
  · rw [lineLoop, if_neg (fun h => h.1 rfl)]

/-- A comment -/
theorem parseLine_comment (len : Int32) (l : Str) (st : ParseState) : parseLine len ('#' :: l) st = some st :=
  if_pos (Or.inr rfl)

/-- Without a round of the loop nothing is set. -/
theorem parseLine_of_neg (hlen : ¬ 0 ≤ len.toInt) (l : Str) (st : ParseState) : parseLine len l st = some st := by
  unfold parseLine
  split
  · rfl
  · cases l.length with
    | zero => rfl
    | succ n => rw [lineLoop, if_neg (fun h => hlen h.2)]

/-! ## A file -/

/-- The lines that are parsed: up to the end mark -/
def parseLines (len : Int32) : List Str → ParseState → Option ParseState
  | [], st => some st
  | l :: ls, st => if st.done = true then some st else (parseLine len (l ++ ['\n']) st).bind (parseLines len ls)

/-- A line that is read as a whole -/
def IsLine (l : Str) : Prop := '\n' ∉ l ∧ l.length < cfgLine - 1

theorem fileLoop_unlines {ls : List Str} (h : ∀ l ∈ ls, IsLine l) {n : Nat} (hn : (unlines ls).length ≤ n)
    (st : ParseState) :
    fileLoop len n (unlines ls) st = parseLines len ls st := by
  induction ls generalizing n st with
  | nil =>
    cases n with
    | zero => rfl
    | succ n => exact if_pos (Or.inl rfl)
  | cons l ls ih =>
    obtain ⟨hl, hls⟩ := List.forall_mem_cons.mp h
    rw [unlines_cons, List.length_append, List.length_cons] at hn
    obtain ⟨n, rfl⟩ : ∃ m, n = m + 1 := ⟨n - 1, by omega⟩
    rw [unlines_cons, fileLoop, parseLines]
    by_cases hd : st.done = true
    · rw [if_pos (Or.inr hd), if_pos hd]
    · have hne : l ++ '\n' :: unlines ls ≠ [] := List.append_ne_nil_of_right_ne_nil _ (List.cons_ne_nil _ _)
      rw [if_neg (not_or.mpr ⟨hne, hd⟩), if_neg hd, fgets_line hl.1 hl.2]
      exact Option.bind_congr fun st' _ => ih hls (by omega) st'

theorem fileLoop_of_neg (hlen : ¬ 0 ≤ len.toInt) (n : Nat) (text : Str) (st : ParseState) :
    fileLoop len n text st = some st := by
  induction n generalizing text with
  | zero => rfl
  | succ n ih =>
    unfold fileLoop
    split
    · rfl
    · rw [parseLine_of_neg hlen, Option.bind_some, ih]

theorem parseLines_done {ls : List Str} (h : st.done = true) : parseLines len ls st = some st := by
  cases ls with
  | nil => rfl
  | cons l ls => exact if_pos h

/-! ## Printed numbers -/

theorem isVal_printInt (v : Int) : ∀ c ∈ printInt v, isVal c = true := by
  intro c hc
  rcases mem_printInt hc with rfl | hd
  · decide
  · have hcomma : c ≠ ',' := by
      rintro rfl
      cases hd
    rw [isVal, not_isSpace_of_isDigit hd, bne_iff_ne.mpr hcomma]
    rfl

theorem length_printInt64 (x : Int64) : (printInt x.toInt).length ≤ 20 := by
  have hlt := x.toInt_lt
  have hle := x.le_toInt
  exact length_printInt_le (k := 19) (by omega) (by decide)

theorem length_printInt32 (x : Int32) : (printInt x.toInt).length ≤ 11 := by
  have hlt := x.toInt_lt
  have hle := x.le_toInt
  exact length_printInt_le (k := 10) (by omega) (by decide)

theorem valueOf_printInt (v : Int) : valueOf (printInt v) = printInt v := by
  refine List.dropWhile_eq_self_iff.mpr fun hpos hc => ?_
  have heq : (printInt v)[0] = '=' := by simpa using hc
  rcases mem_printInt (List.getElem_mem hpos) with hm | hd
  · rw [heq] at hm
    cases hm
  · rw [heq] at hd
    cases hd

theorem atoi32_printInt (x : Int32) : atoi32 (printInt x.toInt) = x := by
  rw [atoi32, CInt.strtol, ← List.append_nil (printInt x.toInt), atoi_printInt _ [] (by simp),
    CInt.clamp_of_fits ⟨x.le_toInt, x.toInt_lt⟩, Int32.ofInt_toInt]

/-! ## The lines of a lock file -/

/-- The texts in the comments are short, and on one line. -/
theorem comment_texts :
    ((chars "# init pid=").length = 11 ∧ '\n' ∉ chars "# init pid=") ∧
      ((chars " (").length = 2 ∧ '\n' ∉ chars " (") ∧
      ((chars "# attach pid=").length = 13 ∧ '\n' ∉ chars "# attach pid=") ∧
      ((chars ")\tshmid=").length = 8 ∧ '\n' ∉ chars ")\tshmid=") ∧
      ((chars "  size=").length = 7 ∧ '\n' ∉ chars "  size=") := by
  decide +kernel

/-- A keyword that is neither the end mark nor the local option -/
def isPlain (keyw : Str) : Bool :=
  isOption keyw && !strncmpEq keyw (chars "E_O_C") 5 && !strncmpEq keyw (chars "segments") 3

theorem isOption_of_isPlain (h : isPlain keyw = true) : isOption keyw = true :=
  (Bool.and_eq_true_iff.mp (Bool.and_eq_true_iff.mp h).1).1

/-- The keywords of the options -/
theorem keyw_plain :
    isPlain (chars "cache_path") = true ∧ isPlain (chars "cache_size") = true ∧
      isPlain (chars "nsegs") = true ∧ isPlain (chars "min_seg_size") = true ∧
      isPlain (chars "lock_cache") = true ∧ isPlain (chars "lock_segs") = true ∧
      isPlain (chars "cache_memKey") = true ∧ isPlain (chars "cache_addr") = true := by
  decide +kernel

/-- The end mark is written as an option with the value `true`. -/
theorem endMark_option :
    isOption (chars "E_O_C") = true ∧ (∀ c ∈ chars "true", isVal c = true) ∧ (chars "true").length < szKeyw := by
  decide +kernel

theorem isLine_optionLine {keyw : String} (hk : isOption (chars keyw) = true) (hv : ∀ c ∈ val, isVal c = true)
    (hl : val.length < szKeyw) : IsLine (optionLine keyw val) := by
  simp only [isOption, Bool.and_eq_true, decide_eq_true_eq] at hk
  obtain ⟨⟨hall, -⟩, hlen⟩ := hk
  have hsep : chars " = " = [' ', '=', ' '] := chars_ofList _
  constructor
  · intro hmem
    simp only [optionLine, hsep, List.mem_append, List.mem_cons, List.not_mem_nil, or_false] at hmem
    obtain (hmem | hmem) | hmem := hmem
    · exact absurd (List.all_eq_true.mp hall _ hmem) (by decide)
    · exact absurd hmem (by decide)
    · exact absurd (hv _ hmem) (by decide)
  · simp only [optionLine, hsep, List.length_append, List.length_cons, List.length_nil, cfgLine]
    simp only [szKeyw] at hlen hl
    omega

theorem newline_not_mem_printInt (v : Int) : '\n' ∉ printInt v := fun h => absurd (isVal_printInt v _ h) (by decide)

theorem isLine_initComment (s : Stamp) : IsLine (initComment s) := by
  have hpid := length_printInt64 s.pid
  have htime := length_printInt32 s.time
  obtain ⟨h1, h2, -⟩ := comment_texts
  constructor
  · simp only [initComment, List.mem_append, h1.2, h2.2, newline_not_mem_printInt, or_self, false_or, List.mem_singleton]
    decide
  · simp only [initComment, List.length_append, h1.1, h2.1, List.length_singleton, cfgLine]
    omega

theorem isLine_attachComment (s : Stamp) (seg : Segment) : IsLine (attachComment s seg) := by
  have hpid := length_printInt64 s.pid
  have htime := length_printInt32 s.time
  have hshmid := length_printInt64 seg.shmid
  have hsize := length_printInt64 seg.size
  obtain ⟨-, h2, h1, h3, h4⟩ := comment_texts
  constructor
  · simp only [attachComment, List.mem_append, h1.2, h2.2, h3.2, h4.2, newline_not_mem_printInt, or_self, not_false_iff]
  · simp only [attachComment, List.length_append, h1.1, h2.1, h3.1, h4.1, cfgLine]
    omega

theorem isLine_number {keyw : String} (hk : isPlain (chars keyw) = true) (x : Int32) :
    IsLine (optionLine keyw (printInt x.toInt)) :=
  isLine_optionLine (isOption_of_isPlain hk) (isVal_printInt _) (Nat.lt_of_le_of_lt (length_printInt32 x) (by decide))

theorem isLine_newLines (hp : ∀ c ∈ cfg.cachePath, isVal c = true) (hl : cfg.cachePath.length < szKeyw) :
    ∀ l ∈ newLines cfg, IsLine l := by
  obtain ⟨hpath, hsize, hnsegs, hmin, hcache, hsegs, -⟩ := keyw_plain
  simp only [newLines, List.forall_mem_cons]
  exact ⟨isLine_optionLine (isOption_of_isPlain hpath) hp hl, isLine_number hsize _, isLine_number hnsegs _,
    isLine_number hmin _,
    isLine_number hcache _, isLine_number hsegs _, fun l hl => absurd hl List.not_mem_nil⟩

theorem isLine_openLines (s : Stamp) (memKey : Int32) : ∀ l ∈ openLines s memKey, IsLine l := by
  obtain ⟨-, -, -, -, -, -, hkey, -⟩ := keyw_plain
  simp only [openLines, List.forall_mem_cons]
  exact ⟨isLine_initComment s, isLine_number hkey _, fun l hl => absurd hl List.not_mem_nil⟩

theorem isLine_attachLines (s : Stamp) (seg : Segment) : ∀ l ∈ attachLines s seg, IsLine l := by
  obtain ⟨-, -, -, -, -, -, -, haddr⟩ := keyw_plain
  obtain ⟨hend, htrue, hshort⟩ := endMark_option
  simp only [attachLines, List.forall_mem_cons]
  refine ⟨isLine_optionLine (isOption_of_isPlain haddr) (isVal_printInt _) ?_, isLine_optionLine hend htrue hshort,
    isLine_attachComment s seg, fun l hl => absurd hl List.not_mem_nil⟩
  exact Nat.lt_of_le_of_lt (length_printInt64 seg.addr) (by decide)

/-! ## What the lines set -/

/-- Each option is told from those that are looked for in front of it. -/
theorem cfgKey_keyw :
    cfgKey (chars "cache_path") = some .cachePath ∧ cfgKey (chars "cache_size") = some .cacheSize ∧
      cfgKey (chars "nsegs") = some .nsegs ∧ cfgKey (chars "min_seg_size") = some .minSegSize ∧
      cfgKey (chars "lock_cache") = some .lockCache ∧ cfgKey (chars "lock_segs") = some .lockSegs ∧
      cfgKey (chars "cache_memKey") = some .cacheMemKey ∧ cfgKey (chars "cache_addr") = some .cacheAddr := by
  decide +kernel

variable {c : SysConfig} {r : Int}

theorem parseLines_option (hlen : 0 ≤ len.toInt) (keyw : String) (hk : isPlain (chars keyw) = true)
    (hv : ∀ c ∈ val, isVal c = true) (hl : val.length < szKeyw) (ls : List Str) :
    parseLines len (optionLine keyw val :: ls) ⟨c, r, false⟩ =
      parseLines len ls ⟨smSetCfgOption c (chars keyw) (valueOf val), r, false⟩ := by
  simp only [isPlain, Bool.and_eq_true, Bool.not_eq_true'] at hk
  obtain ⟨⟨hopt, heoc⟩, hseg⟩ := hk
  rw [parseLines, if_neg Bool.false_ne_true, parseLine_option hlen keyw hopt hv hl, heoc,
    if_neg Bool.false_ne_true, Option.bind_some, setOption, hseg, if_neg Bool.false_ne_true]

theorem parseLines_number (hlen : 0 ≤ len.toInt) (keyw : String) (hk : isPlain (chars keyw) = true) (x : Int32)
    (ls : List Str) :
    parseLines len (optionLine keyw (printInt x.toInt) :: ls) ⟨c, r, false⟩ =
      parseLines len ls ⟨smSetCfgOption c (chars keyw) (printInt x.toInt), r, false⟩ := by
  rw [parseLines_option hlen keyw hk (isVal_printInt _) (Nat.lt_of_le_of_lt (length_printInt32 x) (by decide)) ls,
    valueOf_printInt]

theorem parseLines_comment (l : Str) (ls : List Str) :
    parseLines len (('#' :: l) :: ls) ⟨c, r, false⟩ = parseLines len ls ⟨c, r, false⟩ := by
  rw [parseLines, if_neg Bool.false_ne_true, List.cons_append, parseLine_comment, Option.bind_some]

/-- A lock flag, as it is read back -/
def readLock (x : Int32) : Int32 := ofBool (isYes ((printInt x.toInt).headD '\x00'))

/-- The fields that the lines of a new file set -/
structure ReadFrom (c cfg : SysConfig) : Prop where
  nsegs : c.nsegs = cfg.nsegs
  minSegSize : c.minSegSize = cfg.minSegSize
  lockCache : c.lockCache = readLock cfg.lockCache
  lockSegs : c.lockSegs = readLock cfg.lockSegs

theorem set_cachePath (cfg : SysConfig) (val : Str) :
    ∃ path, smSetCfgOption cfg (chars "cache_path") val = { cfg with cachePath := path } := by
  obtain ⟨hkey, -⟩ := cfgKey_keyw
  simp only [smSetCfgOption, hkey]
  split
  · exact ⟨_, rfl⟩
  · exact ⟨_, rfl⟩

theorem set_cacheSize (cfg : SysConfig) (x : Int32) :
    smSetCfgOption cfg (chars "cache_size") (printInt x.toInt) = { cfg with cacheSize := x } := by
  obtain ⟨-, hkey, -⟩ := cfgKey_keyw
  simp only [smSetCfgOption, hkey, atoi32_printInt]

theorem set_cacheMemKey (cfg : SysConfig) (x : Int32) :
    smSetCfgOption cfg (chars "cache_memKey") (printInt x.toInt) = { cfg with cacheMemKey := x } := by
  obtain ⟨-, -, -, -, -, -, hkey, -⟩ := cfgKey_keyw
  simp only [smSetCfgOption, hkey, atoi32_printInt]

theorem set_cacheAddr (cfg : SysConfig) (val : Str) :
    smSetCfgOption cfg (chars "cache_addr") val = { cfg with cacheAddr := (atoi32 val).toInt64 } := by
  obtain ⟨-, -, -, -, -, -, -, hkey⟩ := cfgKey_keyw
  simp only [smSetCfgOption, hkey]

theorem set_nsegs (cfg : SysConfig) {x : Int32} (hx : x.toInt ≤ cfgMaxSegs) :
    smSetCfgOption cfg (chars "nsegs") (printInt x.toInt) = { cfg with nsegs := x } := by
  obtain ⟨-, -, hkey, -⟩ := cfgKey_keyw
  simp only [smSetCfgOption, hkey, atoi32_printInt, Int.min_eq_right hx, Int32.ofInt_toInt]

theorem set_minSegSize (cfg : SysConfig) {x : Int32} (hx : cfg.sysPageSize.toInt32.toInt ≤ x.toInt) :
    smSetCfgOption cfg (chars "min_seg_size") (printInt x.toInt) = { cfg with minSegSize := x } := by
  obtain ⟨-, -, -, hkey, -⟩ := cfgKey_keyw
  simp only [smSetCfgOption, hkey, atoi32_printInt, Int.max_eq_right hx, Int32.ofInt_toInt]

theorem set_lockCache (cfg : SysConfig) (x : Int32) :
    smSetCfgOption cfg (chars "lock_cache") (printInt x.toInt) = { cfg with lockCache := readLock x } := by
  obtain ⟨-, -, -, -, hkey, -⟩ := cfgKey_keyw
  simp only [smSetCfgOption, hkey, readLock]

theorem set_lockSegs (cfg : SysConfig) (x : Int32) :
    smSetCfgOption cfg (chars "lock_segs") (printInt x.toInt) = { cfg with lockSegs := readLock x } := by
  obtain ⟨-, -, -, -, -, hkey, -⟩ := cfgKey_keyw
  simp only [smSetCfgOption, hkey, readLock]

/-- The lines of a new file -/
theorem parseLines_newLines (hlen : 0 ≤ len.toInt) (hv : cfg.Valid) (hs : c.sysPageSize = cfg.sysPageSize)
    (ls : List Str) :
    ∃ c', ReadFrom c' cfg ∧ parseLines len (newLines cfg ++ ls) ⟨c, r, false⟩ = parseLines len ls ⟨c', r, false⟩ := by
  obtain ⟨path, hpath⟩ := set_cachePath c (valueOf cfg.cachePath)
  have hpage : c.sysPageSize.toInt32.toInt ≤ cfg.minSegSize.toInt := hs ▸ hv.minSegSize
  obtain ⟨hplain, hsize, hnsegs, hmin, hcache, hsegs, -⟩ := keyw_plain
  simp only [newLines, List.cons_append, List.nil_append]
  rw [parseLines_option hlen "cache_path" hplain hv.path_isVal hv.path_short, hpath,
    parseLines_number hlen "cache_size" hsize, set_cacheSize,
    parseLines_number hlen "nsegs" hnsegs, set_nsegs _ hv.nsegs.2,
    parseLines_number hlen "min_seg_size" hmin, set_minSegSize,
    parseLines_number hlen "lock_cache" hcache, set_lockCache,
    parseLines_number hlen "lock_segs" hsegs, set_lockSegs]
  · refine ⟨_, ?_, rfl⟩
    exact ⟨rfl, rfl, rfl, rfl⟩
  · exact hpage

theorem initComment_eq (s : Stamp) : ∃ l, initComment s = '#' :: l := by
  have h : chars "# init pid=" = ['#', ' ', 'i', 'n', 'i', 't', ' ', 'p', 'i', 'd', '='] := chars_ofList _
  exact ⟨_, by rw [initComment, h]; rfl⟩

/-- A process that opens the cache sets the key. -/
theorem parseLines_openLines (hlen : 0 ≤ len.toInt) (s : Stamp) (memKey : Int32) (ls : List Str) :
    parseLines len (openLines s memKey ++ ls) ⟨c, r, false⟩ =
      parseLines len ls ⟨{ c with cacheMemKey := memKey }, r, false⟩ := by
  obtain ⟨l, hl⟩ := initComment_eq s
  obtain ⟨-, -, -, -, -, -, hkey, -⟩ := keyw_plain
  simp only [openLines, List.cons_append, List.nil_append]
  rw [hl, parseLines_comment, parseLines_number hlen "cache_memKey" hkey, set_cacheMemKey]

/-- A process that attaches sets the address, and ends what is read. -/
theorem parseLines_attachLines (hlen : 0 ≤ len.toInt) (s : Stamp) (seg : Segment) (ls : List Str) :
    ∃ addr, parseLines len (attachLines s seg ++ ls) ⟨c, r, false⟩ = some ⟨{ c with cacheAddr := addr }, r, true⟩ := by
  have hend : strncmpEq (chars "E_O_C") (chars "E_O_C") 5 = true := BEq.rfl
  obtain ⟨-, -, -, -, -, -, -, haddr⟩ := keyw_plain
  obtain ⟨hopt, htrue, hshort⟩ := endMark_option
  simp only [attachLines, List.cons_append, List.nil_append]
  rw [parseLines_option hlen "cache_addr" haddr (isVal_printInt _)
      (Nat.lt_of_le_of_lt (length_printInt64 seg.addr) (by decide)), set_cacheAddr, parseLines,
    if_neg Bool.false_ne_true,
    parseLine_option hlen "E_O_C" hopt htrue hshort, hend, if_pos rfl, Option.bind_some, parseLines_done rfl]
  exact ⟨_, rfl⟩

/-- The lines that an operation appends -/
def LockOp.lines : LockOp → List Str
  | .open _ s memKey => openLines s memKey
  | .attach s seg => attachLines s seg

/-- What the later processes append: up to the end mark, the last key counts. -/
theorem parseLines_ops (hlen : 0 ≤ len.toInt) (ops : List LockOp) (hr : ReadFrom c cfg) :
    ∃ st', parseLines len (ops.flatMap LockOp.lines) ⟨c, r, false⟩ = some st' ∧ ReadFrom st'.cfg cfg ∧
      st'.cfg.cacheMemKey = seenKey c.cacheMemKey ops := by
  induction ops generalizing c with
  | nil => exact ⟨_, rfl, hr, rfl⟩
  | cons op ops ih =>
    rw [List.flatMap_cons]
    cases op with
    | «open» uid s memKey =>
      rw [LockOp.lines, parseLines_openLines hlen s memKey]
      exact ih ⟨hr.nsegs, hr.minSegSize, hr.lockCache, hr.lockSegs⟩
    | attach s seg =>
      obtain ⟨addr, h⟩ := parseLines_attachLines hlen s seg (ops.flatMap LockOp.lines)
      exact ⟨_, h, ⟨hr.nsegs, hr.minSegSize, hr.lockCache, hr.lockSegs⟩, rfl⟩

/-! ## The lock file -/

variable {uid memKey : Int32} {s : Stamp} {file : Str} {ops : List LockOp}

/-- The default, up to the user id -/
theorem tmp_smc : chars "/tmp/.smc" = ['/', 't', 'm', 'p', '/', '.', 's', 'm', 'c'] := chars_ofList _

theorem pathOf_ne_nil (cfg : SysConfig) (uid : Int32) : cfg.pathOf uid ≠ [] := by
  unfold SysConfig.pathOf
  split
  · exact List.append_ne_nil_of_right_ne_nil _ (printInt_ne_nil _)
  · assumption

/-- The configuration with the name of its lock file -/
theorem SysConfig.Valid.withPath (hv : cfg.Valid) (uid : Int32) :
    SysConfig.Valid { cfg with cachePath := cfg.pathOf uid } := by
  refine ⟨?_, ?_, hv.nsegs, hv.minSegSize, hv.lockCache, hv.lockSegs⟩
  · simp only [SysConfig.pathOf]
    split
    · refine List.forall_mem_append.mpr ⟨?_, isVal_printInt _⟩
      rw [tmp_smc]
      decide
    · exact hv.path_isVal
  · simp only [SysConfig.pathOf]
    split
    · have hfront : (chars "/tmp/.smc").length = 9 := by rw [tmp_smc]; rfl
      have huid := length_printInt32 uid
      rw [List.length_append, hfront, szKeyw]
      omega
    · exact hv.path_short

theorem smUtilInitCache_new (h : (cfg.pathOf uid).length < lockFname) :
    smUtilInitCache [] cfg uid s memKey =
      some (unlines (newLines { cfg with cachePath := cfg.pathOf uid } ++ openLines s memKey),
        { cfg with cachePath := cfg.pathOf uid, cacheMemKey := memKey }, true) := by
  exact if_pos h

theorem LockOp.apply_eq (hne : file ≠ []) (hp : cfg.cachePath ≠ []) (hl : cfg.cachePath.length < lockFname)
    (op : LockOp) : op.apply cfg file = some (file ++ unlines op.lines) := by
  cases op with
  | «open» uid s memKey =>
    have hpath : cfg.pathOf uid = cfg.cachePath := if_neg hp
    have hnew : (file == []) = false := beq_eq_false_iff_ne.mpr hne
    simp only [LockOp.apply, LockOp.lines, smUtilInitCache, hpath, if_pos hl, hnew, Bool.false_eq_true, if_false,
      Option.map_some, List.nil_append]
  | attach s seg => rfl

theorem foldlM_apply (hne : file ≠ []) (hp : cfg.cachePath ≠ []) (hl : cfg.cachePath.length < lockFname) :
    ops.foldlM (LockOp.apply cfg) file = some (file ++ unlines (ops.flatMap LockOp.lines)) := by
  induction ops generalizing file with
  | nil => rw [List.foldlM_nil, List.flatMap_nil, unlines_nil, List.append_nil]; rfl
  | cons op ops ih =>
    rw [List.foldlM_cons, LockOp.apply_eq hne hp hl, List.flatMap_cons, unlines_append, ← List.append_assoc]
    exact ih (List.append_ne_nil_of_left_ne_nil hne _)

/-- The lock file, line by line -/
theorem lockFile_eq (hv : cfg.Valid) (uid : Int32) (s : Stamp) (memKey : Int32) (ops : List LockOp) :
    lockFile cfg uid s memKey ops =
      some (unlines (newLines { cfg with cachePath := cfg.pathOf uid } ++ (openLines s memKey ++ ops.flatMap LockOp.lines)),
        { cfg with cachePath := cfg.pathOf uid, cacheMemKey := memKey }) := by
  have hl : (cfg.pathOf uid).length < lockFname := (hv.withPath uid).path_short
  have hne : unlines (newLines { cfg with cachePath := cfg.pathOf uid } ++ openLines s memKey) ≠ [] := by
    rw [newLines, List.cons_append, unlines_cons]
    exact List.append_ne_nil_of_right_ne_nil _ (List.cons_ne_nil _ _)
  simp only [lockFile, smUtilInitCache_new hl, Option.bind_eq_bind, Option.bind_some]
  rw [foldlM_apply hne (pathOf_ne_nil cfg uid) hl, ← unlines_append, List.append_assoc]
  rfl

theorem isLine_ops (ops : List LockOp) : ∀ l ∈ ops.flatMap LockOp.lines, IsLine l := by
  intro l hl
  obtain ⟨op, -, hl⟩ := List.mem_flatMap.mp hl
  cases op with
  | «open» uid s memKey => exact isLine_openLines s memKey l hl
  | attach s seg => exact isLine_attachLines s seg l hl

/-- What is read from the lock file -/
theorem fileLoop_lockFile (hlen : 0 ≤ len.toInt) (hv : cfg.Valid) (hs : c.sysPageSize = cfg.sysPageSize) (r : Int)
    (s : Stamp) (memKey : Int32) (ops : List LockOp) {n : Nat}
    (hn : (unlines (newLines cfg ++ (openLines s memKey ++ ops.flatMap LockOp.lines))).length ≤ n) :
    ∃ st, fileLoop len n (unlines (newLines cfg ++ (openLines s memKey ++ ops.flatMap LockOp.lines))) ⟨c, r, false⟩ =
        some st ∧ ReadFrom st.cfg cfg ∧ st.cfg.cacheMemKey = seenKey memKey ops := by
  have hlines : ∀ l ∈ newLines cfg ++ (openLines s memKey ++ ops.flatMap LockOp.lines), IsLine l := by
    intro l hl
    rcases List.mem_append.mp hl with hl | hl
    · exact isLine_newLines hv.path_isVal hv.path_short l hl
    · rcases List.mem_append.mp hl with hl | hl
      · exact isLine_openLines s memKey l hl
      · exact isLine_ops ops l hl
  obtain ⟨c', hc', hread⟩ := parseLines_newLines (r := r) hlen hv hs (openLines s memKey ++ ops.flatMap LockOp.lines)
  rw [fileLoop_unlines hlines hn, hread, parseLines_openLines hlen]
  exact parseLines_ops hlen ops ⟨hc'.nsegs, hc'.minSegSize, hc'.lockCache, hc'.lockSegs⟩

theorem readLock_eq_iff {x : Int32} (hx : x = 0 ∨ x = 1 ∨ x = defLock) : readLock x = x ↔ x ≠ defLock := by
  have hread : readLock 0 = 0 ∧ readLock 1 = 1 ∧ readLock defLock = 0 := by decide +kernel
  rcases hx with rfl | rfl | rfl
  · exact iff_of_true hread.1 (by decide)
  · exact iff_of_true hread.2.1 (by decide)
  · rw [hread.2.2]
    exact iff_of_false (by decide) (fun h => h rfl)

end

/-- What a configuration that is restored needs -/
theorem Restored.conditions {cfg : SysConfig} {uid memKey len : Int32} {s : Stamp} {ops : List LockOp} (hv : cfg.Valid)
    (h : Restored cfg uid s memKey ops len) :
    0 ≤ len.toInt ∧ cfg.lockCache ≠ defLock ∧ cfg.lockSegs ≠ defLock ∧ seenKey memKey ops = memKey := by
  have hv' := hv.withPath uid
  have hpath : (cfg.pathOf uid).length < cfgPath := Nat.lt_trans hv'.path_short (by decide)
  obtain ⟨file, cfg', hf, hread⟩ := h
  obtain ⟨rfl, rfl⟩ := Prod.mk.inj (Option.some.inj ((lockFile_eq hv uid s memKey ops).symm.trans hf))
  have hlen : 0 ≤ len.toInt := by
    by_contra hneg
    -- a flag that is not written to any lock file
    obtain ⟨c, _, hc, hagree⟩ := hread { cfg with lockCache := 7 } 0 rfl
    simp only [smParseCfgFile, fileLoop_of_neg hneg, Option.bind_eq_bind, Option.bind_some, if_pos hpath] at hc
    cases hc
    have hflag : (7 : Int32) = cfg.lockCache := hagree.lockCache
    have hvalid := hv.lockCache
    rw [← hflag] at hvalid
    exact absurd hvalid (by decide)
  obtain ⟨c, _, hc, hagree⟩ := hread cfg 0 rfl
  obtain ⟨st, hst, hr, hkey⟩ := fileLoop_lockFile (c := cfg) hlen hv' rfl 0 s memKey ops le_rfl
  simp only [smParseCfgFile, hst, Option.bind_eq_bind, Option.bind_some, if_pos hpath] at hc
  cases hc
  exact ⟨hlen, (readLock_eq_iff hv.lockCache).mp (hr.lockCache.symm.trans hagree.lockCache),
    (readLock_eq_iff hv.lockSegs).mp (hr.lockSegs.symm.trans hagree.lockSegs), hkey.symm.trans hagree.cacheMemKey⟩

/-- The configuration is restored exactly if the loops over the lines are entered, neither lock flag has its default, and
no other key comes in front of the first end mark. -/
theorem config_roundtrip_iff {cfg : SysConfig} (hv : cfg.Valid) (uid : Int32) (s : Stamp) (memKey : Int32)
    (ops : List LockOp) (len : Int32) :
    Restored cfg uid s memKey ops len ↔
      0 ≤ len.toInt ∧ cfg.lockCache ≠ defLock ∧ cfg.lockSegs ≠ defLock ∧ seenKey memKey ops = memKey := by
  have hv' := hv.withPath uid
  have hpath : (cfg.pathOf uid).length < cfgPath := Nat.lt_trans hv'.path_short (by decide)
  constructor
  · exact Restored.conditions hv
  · rintro ⟨hlen, hcache, hsegs, hkey⟩
    refine ⟨_, _, lockFile_eq hv uid s memKey ops, fun cfg₀ segReader hs => ?_⟩
    obtain ⟨st, hst, hr, hkey'⟩ := fileLoop_lockFile (c := cfg₀) hlen hv' hs segReader s memKey ops le_rfl
    refine ⟨{ st.cfg with config := cfg.pathOf uid, cachePath := cfg.pathOf uid }, st.segReader, ?_,
      ⟨rfl, hr.nsegs, hr.minSegSize, ?_, ?_, hkey'.trans hkey⟩⟩
    · simp only [smParseCfgFile, hst, Option.bind_eq_bind, Option.bind_some, if_pos hpath]
      rfl
    · exact hr.lockCache.trans ((readLock_eq_iff hv.lockCache).mpr hcache)
    · exact hr.lockSegs.trans ((readLock_eq_iff hv.lockSegs).mpr hsegs)

/-- A configuration with these lock flags -/
def sample (lock : Int32) : SysConfig where
  smcDebug := none
  config := []
  cachePath := chars "/tmp/cache"
  cacheSize := 8192
  cacheMemKey := 0
  cacheAddr := 0
  debug := false
  nsegs := 32
  minSegSize := 4096
  lockCache := lock
  lockSegs := lock
  throttleTime := 1000
  throttleNtry := 60
  verbose := true
  sysPageSize := 4

theorem valid_sample {lock : Int32} (h : lock = 0 ∨ lock = 1 ∨ lock = defLock) : (sample lock).Valid := by
  have hpath : (∀ c ∈ chars "/tmp/cache", isVal c = true) ∧ (chars "/tmp/cache").length < szKeyw := by
    decide +kernel
  refine ⟨hpath.1, hpath.2, ?_, ?_, h, h⟩
  · show 0 ≤ (32 : Int32).toInt ∧ (32 : Int32).toInt ≤ cfgMaxSegs
    decide
  · exact (by decide : (4 : UInt32).toInt32.toInt ≤ (4096 : Int32).toInt)

/-- A cache that is locked, and a process that opens it later with another key -/
theorem config_roundtrip_locked :
    Restored (sample 1) 501 ⟨100, 0⟩ 5 [.attach ⟨100, 0⟩ ⟨4096, 1, 8192⟩, .open 501 ⟨101, 1⟩ 6] 0 :=
  (config_roundtrip_iff (valid_sample (Or.inr (Or.inl rfl))) _ _ _ _ _).mpr
    ⟨by decide, by decide, by decide, rfl⟩

/-- The default lock flags are read back as zero, and with a negative `len` nothing is read. -/
theorem config_roundtrip_not :
    ¬ Restored (sample defLock) 501 ⟨100, 0⟩ 5 [.attach ⟨100, 0⟩ ⟨4096, 1, 8192⟩] 0 ∧
      ¬ Restored (sample 1) 501 ⟨100, 0⟩ 5 [.attach ⟨100, 0⟩ ⟨4096, 1, 8192⟩] (-1) := by
  constructor
  · intro h
    exact absurd rfl (h.conditions (valid_sample (Or.inr (Or.inr rfl)))).2.1
  · intro h
    exact absurd (h.conditions (valid_sample (Or.inr (Or.inl rfl)))).1 (by decide)

end Ndhs.Config
