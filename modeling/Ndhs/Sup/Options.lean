import Ndhs.Lib.Text
import Mathlib.Logic.Function.Basic

/-!
# Options of the SMC manager (`dhssup/supClient.c`, `smcmgr/mbusMsgHandler.c`)

The supervisor sends an option to the SMC manager as a text: `setOption` prints it and the `MB_SET`
branch of the manager's handler reads it back, with a prefix length and an offset of its own for each
option.

* `MgrOption.text`: what the supervisor sends for an option (`setOption_sent`, `connect_sent`).
* `SmcMgr.put`: the manager with the option set, and nothing else changed.
* `MgrOption.Met`: where the two sides agree. The offsets of `froot`, `dirname` and `frame` are one
  too far, `stdimg` is sent under the name of `frame`, and a debug flag without its prefix.
* `options_arrive_iff`: a message has the effect of `SmcMgr.put` exactly where `Met` holds.
-/

namespace Ndhs

open Text Function

/-- `SZ_FNAME` and `SZ_PATH` -/
def szFName : Nat := 64
def szPath : Nat := 164

/-! ## The supervisor -/

/-- The variables of the supervisor that `setOption` writes. -/
structure SupOpts where
  dispEnable : Int
  statEnable : Int
  rotEnable : Int
  otfEnable : Int
  dispFrame : Int
  stdimage : Int
  imgSeqNo : Int
  fileRoot : Str
  rawDir : Str
  procDir : Str
  verbose : Int
  showActivity : Int

/-- The local `value` of `setOption`. It stays uninitialised, here `junk`, for a text that is neither a
number nor a truth value; so for a negative number. -/
def optionValue (junk : Int) (strval : Str) : Int :=
  match strval with
  | [] => junk
  | ch :: _ =>
    if ch.isDigit then atoi strval
    else if ch = 'T' ∨ ch = 't' then 1
    else if ch = 'F' ∨ ch = 'f' then 0
    else junk

/-- The message of the option `debug`: the flag and its level. -/
def debugText (strval : Str) : List Str → Str
  | level :: _ => strval ++ ' ' :: level
  | [] => strval ++ [' ', '1']

/-- `setOption` of `option` and `strval`, with the arguments behind them. Also the messages that it
sends to the SMC managers. -/
def setOption (sup : SupOpts) (junk : Int) (option : String) (strval : Str) (args : List Str) :
    SupOpts × List Str :=
  let value := optionValue junk strval
  if option = "disp_enable" then
    ({ sup with dispEnable := value }, [chars "option disp_enable " ++ printInt value ++ ['\n']])
  else if option = "stat_enable" then
    ({ sup with statEnable := value }, [chars "option stat_enable " ++ printInt value ++ ['\n']])
  else if option = "rot_enable" then
    ({ sup with rotEnable := value }, [chars "option rot_enable " ++ printInt value ++ ['\n']])
  else if option = "otf_enable" then
    ({ sup with otfEnable := value }, [chars "skysub " ++ printInt value ++ ['\n']])
  else if option = "idListing" then
    (sup, [chars "option idListing " ++ printInt value ++ ['\n']])
  else if option = "no-op" then
    (sup, [chars "no-op"])
  else if option = "seqno" then
    ({ sup with imgSeqNo := value }, [chars "option seqno " ++ printInt value ++ ['\n']])
  else if option = "trim" then
    (sup, [chars "option trim " ++ printInt value ++ ['\n']])
  else if option = "froot" then
    ({ sup with fileRoot := strval }, [chars "option froot " ++ strval ++ ['\n']])
  else if option = "ktm" then
    (sup, [])
  else if option = "rdirname" then
    ({ sup with rawDir := strval }, [chars "option dirname " ++ strval ++ ['\n']])
  else if option = "pdirname" then
    ({ sup with procDir := strval }, [])
  else if strncmpEq (chars option) (chars "debug") 5 then
    -- the text is the same that `supSetDebug` reads in the supervisor, with no `debug` in front of it
    (sup, [debugText strval args])
  else if option = "verbose" then
    ({ sup with verbose := value }, [])
  else if option = "showActivity" then
    ({ sup with showActivity := value }, [])
  else if option = "frame" then
    if sup.dispFrame ≠ value then
      ({ sup with dispFrame := value }, [chars "option frame " ++ printInt value])
    else (sup, [])
  else if option = "stdimg" then
    if sup.stdimage ≠ value then
      ({ sup with stdimage := value }, [chars "option frame " ++ printInt value])
    else (sup, [])
  else (sup, [])

/-- The `MB_CONNECT` case of `supIOHandler`: what it sends to the SMC managers when a client `who`
connects (`isMgr`: its name starts with `SMCMgr`, in any letter case). -/
def connectSent (sup : SupOpts) (isMgr : Bool) : List Str :=
  if isMgr then [chars "option dirname " ++ sup.rawDir ++ ['\n']] else []

/-! ## The SMC manager -/

/-- The files in `/tmp` that stand for the debug flags. -/
inductive DebugFile where
  | sup | io | sock | sr | conf | proc | queue | col | pxf | smc | mb
  deriving DecidableEq

/-- The flags of `smcSetDebug`: one of the files, or all of them. -/
inductive DebugFlag where
  | one (file : DebugFile)
  | all

def DebugFile.flag : DebugFile → Str
  | .sup => chars "super"
  | .io => chars "io"
  | .sock => chars "socket"
  | .sr => chars "sendrec"
  | .conf => chars "conf"
  | .proc => chars "proc"
  | .queue => chars "queue"
  | .col => chars "collector"
  | .pxf => chars "pxf"
  | .smc => chars "smc"
  | .mb => chars "mbus"

/-- The order in which `smcSetDebug` compares them. -/
def DebugFile.list : List DebugFile :=
  [.sup, .io, .sock, .sr, .conf, .proc, .queue, .col, .pxf, .smc, .mb]

def DebugFlag.word : DebugFlag → Str
  | .one file => file.flag
  | .all => chars "all"

def DebugFlag.covers : DebugFlag → DebugFile → Bool
  | .one file, f => file == f
  | .all, _ => true

/-- The option variables of the SMC manager. `debug` is whether the file exists. -/
structure SmcMgr where
  dispEnable : Int
  statEnable : Int
  rotateEnable : Int
  idListing : Int
  seqno : Int
  smcSeqno : Int
  froot : Str
  dirpath : Str
  dispFrame : Int
  trimRef : Int
  dispStdimg : Int
  skysub : Int
  debug : DebugFile → Bool

namespace SmcMgr

/-- The values that `smcmgr.c` starts with, before any directory or file root is set. -/
def start : SmcMgr where
  dispEnable := 1
  statEnable := 1
  rotateEnable := 1
  idListing := 1
  seqno := 0
  smcSeqno := 0
  froot := []
  dirpath := []
  dispFrame := 1
  trimRef := 0
  dispStdimg := 42
  skysub := 0
  debug := fun _ => false

/-- `smcDebugFile` for the files of a flag: a nonzero level creates a file and zero removes it. -/
def debugFile (m : SmcMgr) (flag : DebugFlag) (level : Int) : SmcMgr :=
  { m with debug := fun f => if flag.covers f then decide (level ≠ 0) else m.debug f }

/-- `smcSetDebug`: the flag is the first word of the text and the level follows it. -/
def setDebug (m : SmcMgr) (msg : Str) : SmcMgr :=
  let flag := msg.takeWhile fun c => !isSpace c
  let level := atoi ((msg.dropWhile fun c => !isSpace c).drop 1)
  match DebugFile.list.find? fun f => f.flag == flag with
  | some f => m.debugFile (.one f) level
  | none => if flag = chars "all" then m.debugFile .all level else m

end SmcMgr

/-- What the handler has done to the pages of the cache, which are not modelled here. -/
inductive PageCall where
  | reset
  | imtype (msg : Str)

/-- The `MB_SET` case of `myHandler`. -/
def SmcMgr.set (m : SmcMgr) (msg : Str) : SmcMgr × Option PageCall :=
  if strncmpEq msg (chars "option disp_enable") 18 then
    ({ m with dispEnable := atoi (msg.drop 19) }, none)
  else if strncmpEq msg (chars "option stat_enable") 18 then
    ({ m with statEnable := atoi (msg.drop 19) }, none)
  else if strncmpEq msg (chars "option rot_enable") 17 then
    ({ m with rotateEnable := atoi (msg.drop 18) }, none)
  else if strncmpEq msg (chars "option idListing") 16 then
    ({ m with idListing := atoi (msg.drop 17) }, none)
  else if strncmpEq msg (chars "option seqno") 12 then
    ({ m with seqno := atoi (msg.drop 13), smcSeqno := atoi (msg.drop 13) }, none)
  else if strncmpEq msg (chars "option froot") 12 then
    ({ m with froot := (msg.drop 14).take szFName }, none)
  else if strncmpEq msg (chars "option dirname") 14 then
    ({ m with dirpath := (msg.drop 16).take szPath }, none)
  else if strncmpEq msg (chars "option frame") 12 then
    ({ m with dispFrame := atoi (msg.drop 14) }, none)
  else if strncmpEq msg (chars "option trim") 9 then
    ({ m with trimRef := atoi (msg.drop 11) }, none)
  else if strncmpEq msg (chars "option stdimg") 13 then
    ({ m with dispStdimg := atoi (msg.drop 15) }, none)
  else if strncmpEq msg (chars "no-op") 5 then
    (m, none)
  else if strncmpEq msg (chars "reset") 5 then
    (m, some .reset)
  else if strncmpEq msg (chars "skysub") 6 then
    ({ m with skysub := atoi (msg.drop 7) }, none)
  else if strncmpEq msg (chars "imtype") 6 then
    (m, some (.imtype (msg.drop 7)))
  else if strncmpEq msg (chars "debug") 5 then
    (m.setDebug (msg.drop 6), none)
  else (m, none)

/-! ## The protocol -/

/-- A text without a newline. -/
abbrev Line := { s : Str // '\n' ∉ s }

/-- The options with a number for their value. -/
inductive IntOption where
  | dispEnable | statEnable | rotEnable | otfEnable | idListing | seqno | trim | frame | stdimg
  deriving DecidableEq

/-- An option with its value. -/
inductive MgrOption where
  | int (i : IntOption) (v : Int)
  | froot (s : Line)
  | dirname (s : Line)
  | debug (flag : DebugFlag) (level : Int)

/-- The name of the option in a call of `setOption`. -/
def IntOption.name : IntOption → String
  | .dispEnable => "disp_enable"
  | .statEnable => "stat_enable"
  | .rotEnable => "rot_enable"
  | .otfEnable => "otf_enable"
  | .idListing => "idListing"
  | .seqno => "seqno"
  | .trim => "trim"
  | .frame => "frame"
  | .stdimg => "stdimg"

/-- The calls of `setOption` that set an option: the option's name, its text, and what follows. -/
def MgrOption.Call (junk : Int) (option : String) (strval : Str) (args : List Str) : MgrOption → Prop
  | .int i v => option = i.name ∧ optionValue junk strval = v
  | .froot s => option = "froot" ∧ strval = s
  | .dirname s => option = "rdirname" ∧ strval = s
  | .debug flag level =>
    option = "debug" ∧ strval = flag.word ∧ (args = [printInt level] ∨ args = [] ∧ level = 1)

/-- `msg` is sent to the SMC managers to set an option. -/
inductive Broadcast : MgrOption → Str → Prop
  | setOption {o : MgrOption} {msg : Str} (sup : SupOpts) (junk : Int) (option : String)
      (strval : Str) (args : List Str) (hc : o.Call junk option strval args)
      (hm : msg ∈ (setOption sup junk option strval args).2) : Broadcast o msg
  | connect {s : Line} {msg : Str} (sup : SupOpts) (isMgr : Bool) (hs : sup.rawDir = s)
      (hm : msg ∈ connectSent sup isMgr) : Broadcast (.dirname s) msg

/-- The manager with the option set and nothing else changed. -/
def SmcMgr.put (m : SmcMgr) : MgrOption → SmcMgr
  | .int .dispEnable v => { m with dispEnable := v }
  | .int .statEnable v => { m with statEnable := v }
  | .int .rotEnable v => { m with rotateEnable := v }
  | .int .otfEnable v => { m with skysub := v }
  | .int .idListing v => { m with idListing := v }
  | .int .seqno v => { m with seqno := v, smcSeqno := v }
  | .int .trim v => { m with trimRef := v }
  | .int .frame v => { m with dispFrame := v }
  | .int .stdimg v => { m with dispStdimg := v }
  | .froot s => { m with froot := s }
  | .dirname s => { m with dirpath := s }
  | .debug flag level => m.debugFile flag level

/-- The text that is sent for an option. -/
def MgrOption.text : MgrOption → Str
  | .int .dispEnable v => chars "option disp_enable " ++ printInt v ++ ['\n']
  | .int .statEnable v => chars "option stat_enable " ++ printInt v ++ ['\n']
  | .int .rotEnable v => chars "option rot_enable " ++ printInt v ++ ['\n']
  | .int .otfEnable v => chars "skysub " ++ printInt v ++ ['\n']
  | .int .idListing v => chars "option idListing " ++ printInt v ++ ['\n']
  | .int .seqno v => chars "option seqno " ++ printInt v ++ ['\n']
  | .int .trim v => chars "option trim " ++ printInt v ++ ['\n']
  | .int .frame v => chars "option frame " ++ printInt v
  | .int .stdimg v => chars "option frame " ++ printInt v
  | .froot s => chars "option froot " ++ s ++ ['\n']
  | .dirname s => chars "option dirname " ++ s ++ ['\n']
  | .debug flag level => flag.word ++ ' ' :: printInt level

/-- Where the manager takes the option as it was meant. A number other than `frame` and `stdimg` always
arrives. Of `frame`, `froot` and `dirname` the first character is lost, so only zero and the empty text
arrive. `stdimg` sets the frame, and a debug flag sets nothing: they are met where the manager has the
value already. -/
def MgrOption.Met (m : SmcMgr) : MgrOption → Prop
  | .int .frame v => v = 0
  | .int .stdimg v => m.dispStdimg = v ∧ m.dispFrame = atoi ((printInt v).drop 1)
  | .int _ _ => True
  | .froot s => s.val = []
  | .dirname s => s.val = []
  | .debug flag level => ∀ f, flag.covers f = true → m.debug f = decide (level ≠ 0)


/-! ## What is sent -/

theorem debugText_eq {flag : DebugFlag} {level : Int} {args : List Str}
    (h : args = [printInt level] ∨ args = [] ∧ level = 1) :
    debugText flag.word args = (MgrOption.debug flag level).text := by
  obtain rfl | ⟨rfl, rfl⟩ := h
  · rfl
  · rfl

theorem setOption_debug (sup : SupOpts) (junk : Int) (strval : Str) (args : List Str) :
    (setOption sup junk "debug" strval args).2 = [debugText strval args] := by
  have hd : strncmpEq (chars "debug") (chars "debug") 5 = true := BEq.rfl
  simp only [setOption, String.reduceEq, reduceIte, hd]

/-- The `frame` and `stdimg` branches: a message only where the value changes. -/
theorem mem_of_guard {α : Type*} {c : Prop} [Decidable c] {a b : α} {s t : Str}
    (h : t ∈ (if c then (a, [s]) else (b, [])).2) : t = s := by
  split at h
  · exact List.mem_singleton.mp h
  · cases h

theorem setOption_frame {sup : SupOpts} {junk : Int} {strval msg : Str} {args : List Str}
    (hm : msg ∈ (setOption sup junk "frame" strval args).2) :
    msg = chars "option frame " ++ printInt (optionValue junk strval) := by
  have hd : strncmpEq (chars "frame") (chars "debug") 5 = false := by simp [strncmpEq, chars]
  simp only [setOption, String.reduceEq, reduceIte, hd, Bool.false_eq_true] at hm
  exact mem_of_guard hm

theorem setOption_stdimg {sup : SupOpts} {junk : Int} {strval msg : Str} {args : List Str}
    (hm : msg ∈ (setOption sup junk "stdimg" strval args).2) :
    msg = chars "option frame " ++ printInt (optionValue junk strval) := by
  have hd : strncmpEq (chars "stdimg") (chars "debug") 5 = false := by simp [strncmpEq, chars]
  simp only [setOption, String.reduceEq, reduceIte, hd, Bool.false_eq_true] at hm
  exact mem_of_guard hm

/-- `setOption` sends the text of the option. -/
theorem setOption_sent {sup : SupOpts} {junk : Int} {option : String} {strval : Str} {args : List Str}
    {o : MgrOption} {msg : Str} (hc : o.Call junk option strval args)
    (hm : msg ∈ (setOption sup junk option strval args).2) : msg = o.text := by
  cases o with
  | int i v =>
    obtain ⟨rfl, rfl⟩ := hc
    cases i with
    | frame => exact setOption_frame hm
    | stdimg => exact setOption_stdimg hm
    | _ =>
      simp only [setOption, IntOption.name, String.reduceEq, reduceIte, List.mem_singleton] at hm
      rw [hm, MgrOption.text]
  | froot s =>
    obtain ⟨rfl, rfl⟩ := hc
    simp only [setOption, String.reduceEq, reduceIte, List.mem_singleton] at hm
    rw [hm, MgrOption.text]
  | dirname s =>
    obtain ⟨rfl, rfl⟩ := hc
    simp only [setOption, String.reduceEq, reduceIte, List.mem_singleton] at hm
    rw [hm, MgrOption.text]
  | debug flag level =>
    obtain ⟨rfl, rfl, hargs⟩ := hc
    rw [setOption_debug, List.mem_singleton, debugText_eq hargs] at hm
    exact hm

theorem connect_sent {sup : SupOpts} {isMgr : Bool} {s : Line} {msg : Str} (hs : sup.rawDir = s)
    (hm : msg ∈ connectSent sup isMgr) : msg = (MgrOption.dirname s).text := by
  unfold connectSent at hm
  split at hm
  · rw [List.mem_singleton.mp hm, hs, MgrOption.text]
  · cases hm

theorem Broadcast.eq_text {o : MgrOption} {msg : Str} (h : Broadcast o msg) : msg = o.text := by
  cases h with
  | setOption sup junk option strval args hc hm => exact setOption_sent hc hm
  | connect sup isMgr hs hm => exact connect_sent hs hm

/-! ## What the manager makes of it -/

namespace SmcMgr

variable (m : SmcMgr) (t : Str)

theorem set_dispEnable :
    (m.set (chars "option disp_enable " ++ t)).1 = { m with dispEnable := atoi t } := by
  simp [SmcMgr.set, strncmpEq, chars]

theorem set_statEnable :
    (m.set (chars "option stat_enable " ++ t)).1 = { m with statEnable := atoi t } := by
  simp [SmcMgr.set, strncmpEq, chars]

theorem set_rotEnable :
    (m.set (chars "option rot_enable " ++ t)).1 = { m with rotateEnable := atoi t } := by
  simp [SmcMgr.set, strncmpEq, chars]

theorem set_idListing :
    (m.set (chars "option idListing " ++ t)).1 = { m with idListing := atoi t } := by
  simp [SmcMgr.set, strncmpEq, chars]

theorem set_seqno :
    (m.set (chars "option seqno " ++ t)).1 = { m with seqno := atoi t, smcSeqno := atoi t } := by
  simp [SmcMgr.set, strncmpEq, chars]

theorem set_froot :
    (m.set (chars "option froot " ++ t)).1 = { m with froot := (t.drop 1).take szFName } := by
  simp [SmcMgr.set, strncmpEq, chars]

theorem set_dirname :
    (m.set (chars "option dirname " ++ t)).1 = { m with dirpath := (t.drop 1).take szPath } := by
  simp [SmcMgr.set, strncmpEq, chars]

theorem set_frame :
    (m.set (chars "option frame " ++ t)).1 = { m with dispFrame := atoi (t.drop 1) } := by
  simp [SmcMgr.set, strncmpEq, chars]

/-- The offset is that of the blank after the name. -/
theorem set_trim : (m.set (chars "option trim " ++ t)).1 = { m with trimRef := atoi t } := by
  simp [SmcMgr.set, strncmpEq, chars]

theorem set_skysub : (m.set (chars "skysub " ++ t)).1 = { m with skysub := atoi t } := by
  simp [SmcMgr.set, strncmpEq, chars]

/-- The text of a debug flag is none of the manager's requests. -/
theorem set_debugWord (flag : DebugFlag) : (m.set (flag.word ++ t)).1 = m := by
  cases flag with
  | all => simp [SmcMgr.set, strncmpEq, chars, DebugFlag.word]
  | one file => cases file <;> simp [SmcMgr.set, strncmpEq, chars, DebugFlag.word, DebugFile.flag]

end SmcMgr

theorem atoi_line (v : Int) : atoi (printInt v ++ ['\n']) = v :=
  atoi_printInt v _ fun c hc => by
    obtain rfl : '\n' = c := Option.some.inj hc
    rfl

/-- A text that lost its first character and kept its newline. -/
theorem shifted_eq_iff {s : Str} (hs : '\n' ∉ s) (n : Nat) :
    ((s ++ ['\n']).drop 1).take n = s ↔ s = [] := by
  constructor
  · intro h
    cases s with
    | nil => rfl
    | cons c s =>
      have h : (s ++ ['\n']).take n = c :: s := h
      have hlen := congrArg List.length h
      simp only [List.length_take, List.length_append, List.length_cons, List.length_nil] at hlen
      rw [List.take_of_length_le (by simp; omega)] at h
      rw [← h] at hs
      simp at hs
  · rintro rfl
    simp

theorem SmcMgr.debugFile_eq_iff (m : SmcMgr) (flag : DebugFlag) (level : Int) :
    m = m.debugFile flag level ↔ ∀ f, flag.covers f = true → m.debug f = decide (level ≠ 0) := by
  constructor
  · intro h f hf
    have hd := congrFun (congrArg SmcMgr.debug h) f
    rw [hd]
    exact if_pos hf
  · intro h
    have hd : (m.debugFile flag level).debug = m.debug := by
      funext f
      show (if flag.covers f then decide (level ≠ 0) else m.debug f) = m.debug f
      split
      · rename_i hf
        exact (h f hf).symm
      · rfl
    show m = { m with debug := (m.debugFile flag level).debug }
    rw [hd]

/-- `stdimg` is sent as a frame. -/
theorem SmcMgr.frame_eq_stdimg_iff (m : SmcMgr) (f v : Int) :
    { m with dispFrame := f } = { m with dispStdimg := v } ↔ m.dispStdimg = v ∧ m.dispFrame = f := by
  rw [SmcMgr.mk.injEq]
  constructor
  · rintro ⟨-, -, -, -, -, -, -, -, hf, -, hv, -⟩
    exact ⟨hv, hf.symm⟩
  · rintro ⟨rfl, rfl⟩
    simp

/-- A message does what it was sent for exactly where the two sides agree on the option. -/
theorem options_arrive_iff {o : MgrOption} {msg : Str} (h : Broadcast o msg) (m : SmcMgr) :
    (m.set msg).1 = m.put o ↔ o.Met m := by
  obtain rfl := h.eq_text
  cases o with
  | int i v =>
    cases i with
    | frame =>
      rw [MgrOption.text, SmcMgr.set_frame, SmcMgr.put, SmcMgr.mk.injEq]
      simp only [true_and, and_true]
      exact atoi_printInt_tail v
    | stdimg =>
      rw [MgrOption.text, SmcMgr.set_frame]
      exact m.frame_eq_stdimg_iff _ v
    -- the others are read back from the blank behind the name
    | _ =>
      simp only [MgrOption.text, List.append_assoc, SmcMgr.set_dispEnable, SmcMgr.set_statEnable,
        SmcMgr.set_rotEnable, SmcMgr.set_skysub, SmcMgr.set_idListing, SmcMgr.set_seqno, SmcMgr.set_trim, atoi_line,
        SmcMgr.put, MgrOption.Met]
  | froot s =>
    rw [MgrOption.text, List.append_assoc, SmcMgr.set_froot, SmcMgr.put, SmcMgr.mk.injEq]
    simp only [true_and, and_true]
    exact shifted_eq_iff s.2 szFName
  | dirname s =>
    rw [MgrOption.text, List.append_assoc, SmcMgr.set_dirname, SmcMgr.put, SmcMgr.mk.injEq]
    simp only [true_and, and_true]
    exact shifted_eq_iff s.2 szPath
  | debug flag level =>
    rw [MgrOption.text, SmcMgr.set_debugWord]
    exact m.debugFile_eq_iff flag level

/-- The values of `sup_initialize`. The display frame and the frame buffer are not set there. -/
def SupOpts.start : SupOpts where
  dispEnable := 1
  statEnable := 1
  rotEnable := 1
  otfEnable := 1
  dispFrame := 0
  stdimage := 0
  imgSeqNo := 0
  fileRoot := chars "image"
  rawDir := chars "/home/data"
  procDir := chars "/home/data"
  verbose := 1
  showActivity := 1

/-- `setOption seqno 17` -/
theorem options_arrive_seqno :
    Broadcast (.int .seqno 17) (chars "option seqno 17\n") ∧
      (SmcMgr.start.set (chars "option seqno 17\n")).1 = SmcMgr.start.put (.int .seqno 17) := by
  have hb : Broadcast (.int .seqno 17) (chars "option seqno 17\n") :=
    .setOption SupOpts.start 0 "seqno" ['1', '7'] [] ⟨rfl, by decide⟩ (by
      simp [setOption, optionValue, atoi, chars]; decide)
  exact ⟨hb, (options_arrive_iff hb SmcMgr.start).mpr trivial⟩

/-- `setOption froot img`: the manager's root is `mg`, with a newline. -/
theorem froot_shifted :
    Broadcast (.froot ⟨['i', 'm', 'g'], by decide⟩) (chars "option froot img\n") ∧
      (SmcMgr.start.set (chars "option froot img\n")).1.froot = ['m', 'g', '\n'] ∧
      ¬ ∀ (o : MgrOption) (msg : Str) (m : SmcMgr), Broadcast o msg → (m.set msg).1 = m.put o := by
  have hb : Broadcast (.froot ⟨['i', 'm', 'g'], by decide⟩) (chars "option froot img\n") :=
    .setOption SupOpts.start 0 "froot" ['i', 'm', 'g'] [] ⟨rfl, rfl⟩ (by simp [setOption, chars])
  have hf : (SmcMgr.start.set (chars "option froot img\n")).1.froot = ['m', 'g', '\n'] := by
    simp [SmcMgr.set, strncmpEq, chars, szFName]
  refine ⟨hb, hf, fun h => ?_⟩
  rw [h _ _ SmcMgr.start hb] at hf
  cases hf

end Ndhs
