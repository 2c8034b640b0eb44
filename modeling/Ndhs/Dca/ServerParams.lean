import Ndhs.Dca.FileName
import Ndhs.Dca.Server

/-!
# The parameters of the server (`SetParam` and `GetParam` of `mosdca/mosdca.c`)

`Server.setParam` has what `SetParam` sets; here are its status, the buffers of the texts, `int`s, and the directory of the
process, which `GetParam` asks the system for.

* An `Agent` is a server in a directory. A text that does not fit its buffer gives no result.
* `Agent.get` has the value of each `Setting`, and `named` the settings that a request names.
* `Honours`: a request that succeeds can be read back, one that fails changes nothing, and nothing changes that is not
  named.

The tests of `SetParam` and of `GetParam` know different names (`maxkw_global` and `maxgkw`), and two branches of `SetParam`
set something and go on to the return for unknown names. `honours_iff`: the requests for which all is right.
-/

namespace Ndhs.Mosdca

open Text Function Machine

/-- A server, and the path of the directory that it is in, as the system has it -/
structure Agent where
  server : Server
  cwd : Str

/-- What the system does for a request: whether a file can be made in the directory, the path of the directory if it can be
entered, and whether the log file can be opened. -/
structure SetOutcome where
  mkstemp : Bool
  chdir : Option Str
  fopen : Bool

structure SetRequest where
  ctx : Option Slot
  tid : Int
  param : String
  value : Str
  outcome : SetOutcome

namespace Agent

variable (a : Agent) (ctx : Option Slot) (tid : Int) (param : String) (value : Str)

/-- The task has no permission. -/
def Denied : Prop :=
  a.server.par.requestLevel = 0 ∨ (a.server.par.requestLevel = 1 ∧ tid ≠ a.server.par.console)

instance : Decidable (a.Denied tid) := inferInstanceAs (Decidable (_ ∨ _))

/-- What is set, with the status that is returned -/
def withServer (s : Server) (status : Int) : Option (Agent × Int) := some ({ a with server := s }, status)

/-- `strcpy` to an array of `SZ_PATHNAME` bytes -/
def copied (value : Str) (r : Option (Agent × Int)) : Option (Agent × Int) :=
  if value.length < szPathname then r else none

/-- `SetParam`, with its status -/
def setParam (o : SetOutcome) : Option (Agent × Int) :=
  let s := a.server
  let par := s.par
  if a.Denied tid then a.withServer s (-1)
  else if strncmpEq (chars param) (chars "directory") 3 then
    if value = par.curdir then a.withServer s 0
    else
      -- the name of the file that is tried
      copied (value ++ chars "/dcaXXXXXX") <|
        match o.mkstemp, o.chdir with
        | true, some cwd => some (⟨s.withPar { par with curdir := value, cwd := Path.resolve par.cwd value }, cwd⟩, 0)
        | _, _ => a.withServer s (-1)
  else if param = "reqlevel" then a.withServer (s.withPar { par with requestLevel := atoiInt value }) 0
  else if param = "debug" then a.withServer (s.withPar { par with debug := atoiInt value }) 0
  else if param = "debugfile" then
    copied value (a.withServer (s.withPar { par with debugOut := if o.fopen then some value else none }) (-1))
  else if param = "imformat" then copied value (a.withServer (s.withPar { par with imformat := value }) 0)
  else if param = "imindex" then a.withServer (s.withPar { par with imindex := atoiInt value }) 0
  else if param = "ktm" then
    copied value <|
      match ctx with
      | some i => a.withServer (s.modify i fun c => { c with ktm := value }) (-1)
      | none => a.withServer (s.withPar { par with defktm := value }) (-1)
  else if param = "clobber" then a.withServer (s.withPar { par with clobber := streq value (chars "yes") }) 0
  else if param = "maxkw_global" then
    match ctx with
    | some i => a.withServer (s.modify i fun c => { c with maxkwGlobal := atoiInt value }) 0
    | none => a.withServer (s.withPar { par with maxkwGlobal := atoiInt value }) 0
  else if param = "maxkw_image" then
    match ctx with
    | some i => a.withServer (s.modify i fun c => { c with maxkwImage := atoiInt value }) 0
    | none => a.withServer (s.withPar { par with maxkwImage := atoiInt value }) 0
  else if param = "maxkw" then
    match ctx with
    | some i =>
      a.withServer (s.modify i fun c => { c with maxkwGlobal := atoiInt value, maxkwImage := atoiInt value }) 0
    | none => a.withServer (s.withPar { par with maxkwGlobal := atoiInt value, maxkwImage := atoiInt value }) 0
  else if param = "expID" then
    match ctx with
    | some i =>
      a.withServer
        ((s.modify i fun c => { c with expID := atof value }).withPar { par with expID := atof value }) 0
    | none => a.withServer (s.withPar { par with expID := atof value }) 0
  else if param = "ObsID" then a.withServer s 0
  else a.withServer s (-1)

/-- `GetParam`, `none` for `NULL` -/
def getParam : Option Str :=
  let s := a.server
  let par := s.par
  if strncmpEq (chars param) (chars "directory") 3 then if a.cwd.length < szPathname then some a.cwd else none
  else if param = "reqlevel" then some (printInt par.requestLevel)
  else if param = "debug" then some (printInt par.debug)
  else if param = "debugfile" then some (par.debugOut.getD (chars "stdout"))
  else if param = "imformat" then some par.imformat
  else if param = "imindex" then some (printInt par.imindex)
  else if param = "ktm" then
    match ctx with
    | some i => some (s.ctx i).ktm
    | none => some par.defktm
  else if param = "clobber" then some (if par.clobber then chars "yes" else chars "no")
  else if param = "maxkw" then some (printInt (min par.maxkwGlobal par.maxkwImage))
  else if param = "maxgkw" then
    match ctx with
    | some i => some (printInt (s.ctx i).maxkwGlobal)
    | none => some (printInt par.maxkwGlobal)
  else if param = "maxikw" then
    match ctx with
    | some i => some (printInt (s.ctx i).maxkwImage)
    | none => some (printInt par.maxkwImage)
  else none

/-- A request -/
def set (r : SetRequest) : Option (Agent × Int) := a.setParam r.ctx r.tid r.param r.value r.outcome

/-- The state after a request -/
def step (r : SetRequest) : Option Agent := (a.set r).map Prod.fst

end Agent

/-! ## Settings -/

/-- What can be set, for the server or for a readout -/
inductive Setting where
  | directory
  | reqlevel
  | debug
  | debugfile
  | imformat
  | imindex
  | ktm (ctx : Option Slot)
  | clobber
  | maxkwGlobal (ctx : Option Slot)
  | maxkwImage (ctx : Option Slot)
  | expID (ctx : Option Slot)
  deriving DecidableEq

/-- The value of a setting. A directory has the name that it was set by, and its path. -/
inductive SettingValue where
  | text (s : Str)
  | int (n : Int)
  | file (name : Option Str)
  | flag (b : Bool)
  | number (x : ExpID)
  | directory (name path : Str)

/-- The value of a setting -/
def Agent.get (a : Agent) : Setting → SettingValue
  | .directory => .directory a.server.par.curdir a.cwd
  | .reqlevel => .int a.server.par.requestLevel
  | .debug => .int a.server.par.debug
  | .debugfile => .file a.server.par.debugOut
  | .imformat => .text a.server.par.imformat
  | .imindex => .int a.server.par.imindex
  | .ktm none => .text a.server.par.defktm
  | .ktm (some i) => .text (a.server.ctx i).ktm
  | .clobber => .flag a.server.par.clobber
  | .maxkwGlobal none => .int a.server.par.maxkwGlobal
  | .maxkwGlobal (some i) => .int (a.server.ctx i).maxkwGlobal
  | .maxkwImage none => .int a.server.par.maxkwImage
  | .maxkwImage (some i) => .int (a.server.ctx i).maxkwImage
  | .expID none => .number a.server.par.expID
  | .expID (some i) => .number (a.server.ctx i).expID

/-- The settings that a name stands for -/
def named (ctx : Option Slot) (param : String) : List Setting :=
  if strncmpEq (chars param) (chars "directory") 3 then [.directory]
  else if param = "reqlevel" then [.reqlevel]
  else if param = "debug" then [.debug]
  else if param = "debugfile" then [.debugfile]
  else if param = "imformat" then [.imformat]
  else if param = "imindex" then [.imindex]
  else if param = "ktm" then [.ktm ctx]
  else if param = "clobber" then [.clobber]
  else if param = "maxkw_global" then [.maxkwGlobal ctx]
  else if param = "maxkw_image" then [.maxkwImage ctx]
  else if param = "maxkw" then [.maxkwGlobal ctx, .maxkwImage ctx]
  else if param = "expID" then [.expID ctx]
  else []

/-- The parameters that are integers -/
def integers : List String := ["reqlevel", "debug", "imindex", "maxkw_global", "maxkw_image", "maxkw"]

/-- A decimal number, with or without a sign -/
def Numeral (value : Str) : Prop := skipSign value ≠ [] ∧ ∀ c ∈ skipSign value, c.isDigit = true

instance (value : Str) : Decidable (Numeral value) := inferInstanceAs (Decidable (_ ∧ _))

/-- `GetParam` returns the value, a number in decimal form. -/
def Answers (a : Agent) (ctx : Option Slot) (param : String) (value : Str) : Prop :=
  ∃ text, a.getParam ctx param = some text ∧
    if param ∈ integers then Numeral value ∧ text = printInt (atoi value) else text = value

/-- A request that succeeds can be read back, one that fails changes nothing, and nothing changes that is not named. -/
def Honours (a : Agent) (r : SetRequest) : Prop :=
  ∃ t status, a.set r = some (t, status) ∧ (status = 0 → Answers t r.ctx r.param r.value) ∧
    (status = -1 → ∀ i, t.get i = a.get i) ∧ ∀ i, i ∉ named r.ctx r.param → t.get i = a.get i

/-- The number is an `int`. -/
def FitsInt (value : Str) : Prop := Numeral value ∧ -2 ^ 31 ≤ atoi value ∧ atoi value < 2 ^ 31

instance (value : Str) : Decidable (FitsInt value) := inferInstanceAs (Decidable (_ ∧ _))

/-- The requests that are right, by their names -/
def Accords (a : Agent) (r : SetRequest) : Prop :=
  a.Denied r.tid ∨
    if strncmpEq (chars r.param) (chars "directory") 3 then
      if r.value = a.server.par.curdir then a.cwd = r.value ∧ r.value.length < szPathname
      else
        (r.value ++ chars "/dcaXXXXXX").length < szPathname ∧
          (r.outcome.mkstemp = true → ∀ cwd, r.outcome.chdir = some cwd → cwd = r.value)
    else if r.param ∈ ["reqlevel", "debug", "imindex"] then FitsInt r.value
    else if r.param = "debugfile" then
      r.value.length < szPathname ∧ a.server.par.debugOut = if r.outcome.fopen then some r.value else none
    else if r.param = "imformat" then r.value.length < szPathname
    else if r.param = "ktm" then r.value.length < szPathname ∧ a.get (.ktm r.ctx) = .text r.value
    else if r.param = "clobber" then r.value = chars "yes" ∨ r.value = chars "no"
    else if r.param = "maxkw" then
      match r.ctx with
      | some _ => Numeral r.value ∧ min a.server.par.maxkwGlobal a.server.par.maxkwImage = atoi r.value
      | none => FitsInt r.value
    else r.param ∉ ["maxkw_global", "maxkw_image", "expID", "ObsID"]

/-! ## Numbers -/

section Numbers

variable {value : Str}

theorem printInt_inj {m n : Int} (h : printInt m = printInt n) : m = n := by
  have hm := atoi_printInt m [] (by simp)
  have hn := atoi_printInt n [] (by simp)
  rw [← hm, h, hn]

theorem atoiInt_eq_iff : atoiInt value = atoi value ↔ -2 ^ 31 ≤ atoi value ∧ atoi value < 2 ^ 31 :=
  CInt.atoi_eq_iff le_rfl

/-- A number is printed as it was given, if it is an `int`. -/
theorem fitsInt_iff : FitsInt value ↔ Numeral value ∧ printInt (atoiInt value) = printInt (atoi value) := by
  unfold FitsInt
  rw [← atoiInt_eq_iff]
  exact and_congr_right fun _ => ⟨congrArg printInt, printInt_inj⟩

theorem answers_int {a : Agent} {ctx : Option Slot} {param : String} (hp : param ∈ integers) {n : Int}
    (h : a.getParam ctx param = some (printInt n)) :
    Answers a ctx param value ↔ Numeral value ∧ printInt n = printInt (atoi value) := by
  simp [Answers, h, hp]

theorem answers_text {a : Agent} {ctx : Option Slot} {param : String} (hp : param ∉ integers) {text : Str}
    (h : a.getParam ctx param = some text) : Answers a ctx param value ↔ text = value := by
  simp [Answers, h, hp]

theorem not_answers {a : Agent} {ctx : Option Slot} {param : String} (h : a.getParam ctx param = none) :
    ¬ Answers a ctx param value := by
  rintro ⟨text, ht, -⟩
  rw [h] at ht
  cases ht

end Numbers

/-! ## Requests -/

section Requests

variable {a t : Agent} {r : SetRequest}

/-- A request that returns 0 -/
theorem honours_of_set (h : a.set r = some (t, 0)) (hother : ∀ i, i ∉ named r.ctx r.param → t.get i = a.get i) :
    Honours a r ↔ Answers t r.ctx r.param r.value := by
  constructor
  · rintro ⟨t', status, hs, ha, -, -⟩
    rw [h] at hs
    cases hs
    exact ha rfl
  · intro ha
    exact ⟨t, 0, h, fun _ => ha, fun hn => absurd hn (by decide), hother⟩

/-- A request that returns -1 -/
theorem honours_of_failed (h : a.set r = some (t, -1)) : Honours a r ↔ ∀ i, t.get i = a.get i := by
  constructor
  · rintro ⟨t', status, hs, -, hf, -⟩
    rw [h] at hs
    cases hs
    exact hf rfl
  · intro hf
    exact ⟨t, -1, h, fun hn => absurd hn (by decide), fun _ => hf, fun i _ => hf i⟩

/-- A request with a text that does not fit -/
theorem not_honours (h : a.set r = none) : ¬ Honours a r := by
  rintro ⟨t, status, hs, -⟩
  rw [h] at hs
  cases hs

/-- A text is copied to an array. -/
theorem honours_copied {value : Str} {res : Option (Agent × Int)} (h : a.set r = Agent.copied value res) {p : Prop}
    (hp : value.length < szPathname → a.set r = res → (Honours a r ↔ p)) :
    Honours a r ↔ value.length < szPathname ∧ p := by
  unfold Agent.copied at h
  by_cases hlen : value.length < szPathname
  · rw [if_pos hlen] at h
    rw [hp hlen h]
    exact (and_iff_right hlen).symm
  · rw [if_neg hlen] at h
    exact iff_of_false (not_honours h) fun hn => hlen hn.1

end Requests

/-! ## The branches of `SetParam` -/

section Branches

variable {a : Agent} {ctx : Option Slot} {tid : Int} {param : String} {value : Str} {o : SetOutcome}

/-- The names behind that of the directory -/
def names : List String :=
  ["reqlevel", "debug", "debugfile", "imformat", "imindex", "ktm", "clobber", "maxkw_global", "maxkw_image", "maxkw",
    "maxgkw", "maxikw", "expID", "ObsID"]

theorem integers_names : ∀ p ∈ integers, p ∈ names := by
  simp [integers, names]

theorem not_directory : ∀ p ∈ names, strncmpEq (chars p) (chars "directory") 3 = false := by
  decide +kernel

/-- A name for one setting leaves the others. -/
theorem kept_of_named {t : Agent} {j : Setting} (hn : named ctx param = [j]) (h : ∀ i, i ≠ j → t.get i = a.get i)
    (i : Setting) (hi : i ∉ named ctx param) : t.get i = a.get i := by
  rw [hn, List.mem_singleton] at hi
  exact h i hi

theorem honours_directory (hd : ¬ a.Denied tid) (hdir : strncmpEq (chars param) (chars "directory") 3 = true) :
    Honours a ⟨ctx, tid, param, value, o⟩ ↔
      if value = a.server.par.curdir then a.cwd = value ∧ value.length < szPathname
      else
        (value ++ chars "/dcaXXXXXX").length < szPathname ∧
          (o.mkstemp = true → ∀ cwd, o.chdir = some cwd → cwd = value) := by
  have hint : param ∉ integers := by
    intro hp
    rw [not_directory param (integers_names param hp)] at hdir
    cases hdir
  have hanswers : ∀ t : Agent, Answers t ctx param value ↔ t.cwd = value ∧ value.length < szPathname := by
    intro t
    have hget : t.getParam ctx param = if t.cwd.length < szPathname then some t.cwd else none := by
      simp only [Agent.getParam, hdir, if_true]
    by_cases hlen : t.cwd.length < szPathname
    · rw [if_pos hlen] at hget
      rw [answers_text hint hget]
      exact ⟨fun h => ⟨h, h ▸ hlen⟩, fun h => h.1⟩
    · rw [if_neg hlen] at hget
      exact iff_of_false (not_answers hget) fun h => hlen (h.1 ▸ h.2)
  have hnamed : named ctx param = [.directory] := by
    simp only [named, hdir, if_true]
  by_cases hv : value = a.server.par.curdir
  · have hset : a.set ⟨ctx, tid, param, value, o⟩ = some (a, 0) := by
      simp only [Agent.set, Agent.setParam, hd, hdir, if_true, if_false, if_pos hv]
      rfl
    rw [honours_of_set hset fun _ _ => rfl, if_pos hv]
    exact hanswers a
  · rw [if_neg hv]
    have hset : a.set ⟨ctx, tid, param, value, o⟩ = Agent.copied (value ++ chars "/dcaXXXXXX") (
        match o.mkstemp, o.chdir with
        | true, some cwd => some (⟨a.server.withPar
            { a.server.par with curdir := value, cwd := Path.resolve a.server.par.cwd value }, cwd⟩, 0)
        | _, _ => some (a, -1)) := by
      simp only [Agent.set, Agent.setParam, hd, hdir, if_true, if_false, if_neg hv]
      rfl
    refine honours_copied hset fun hlen hres => ?_
    cases hm : o.mkstemp with
    | false =>
      rw [hm] at hres
      exact iff_of_true ((honours_of_failed hres).mpr fun _ => rfl) fun h => by cases h
    | true =>
      cases hc : o.chdir with
      | none =>
        rw [hm, hc] at hres
        exact iff_of_true ((honours_of_failed hres).mpr fun _ => rfl) fun _ _ h => by cases h
      | some cwd =>
        rw [hm, hc] at hres
        rw [honours_of_set hres fun i hi => ?_, hanswers]
        · rw [List.length_append] at hlen
          have hlen : value.length < szPathname := by omega
          simp [hlen]
        · refine kept_of_named hnamed (fun i hi => ?_) i hi
          rcases i with _ | _ | _ | _ | _ | _ | (_ | _) | _ | (_ | _) | (_ | _) | (_ | _) <;> first | rfl | cases hi rfl

/-- The value is an integer, and `GetParam` prints it. -/
theorem honours_int {t : Agent} (hp : param ∈ integers) (hset : a.set ⟨ctx, tid, param, value, o⟩ = some (t, 0))
    (hget : t.getParam ctx param = some (printInt (atoiInt value)))
    (hother : ∀ i, i ∉ named ctx param → t.get i = a.get i) :
    Honours a ⟨ctx, tid, param, value, o⟩ ↔ FitsInt value := by
  rw [honours_of_set hset hother, answers_int hp hget, ← fitsInt_iff]

/-- The value is a text, and `GetParam` returns one. -/
theorem honours_text {t : Agent} {text : Str} (hp : param ∉ integers)
    (hset : a.set ⟨ctx, tid, param, value, o⟩ = some (t, 0)) (hget : t.getParam ctx param = some text)
    (hother : ∀ i, i ∉ named ctx param → t.get i = a.get i) :
    Honours a ⟨ctx, tid, param, value, o⟩ ↔ text = value := by
  rw [honours_of_set hset hother, answers_text hp hget]

theorem honours_reqlevel (hd : ¬ a.Denied tid) : Honours a ⟨ctx, tid, "reqlevel", value, o⟩ ↔ FitsInt value := by
  have hdir := not_directory "reqlevel" (by simp [names])
  have hset : a.set ⟨ctx, tid, "reqlevel", value, o⟩ =
      some (⟨a.server.withPar { a.server.par with requestLevel := atoiInt value }, a.cwd⟩, 0) := by
    simp [Agent.set, Agent.setParam, Agent.withServer, hd, hdir]
  have hnamed : named ctx "reqlevel" = [.reqlevel] := by simp [named, hdir]
  refine honours_int (by decide) hset (by simp [Agent.getParam, Server.withPar, hdir])
    (kept_of_named hnamed fun i hi => ?_)
  rcases i with _ | _ | _ | _ | _ | _ | (_ | _) | _ | (_ | _) | (_ | _) | (_ | _) <;> first | rfl | cases hi rfl

theorem honours_debug (hd : ¬ a.Denied tid) : Honours a ⟨ctx, tid, "debug", value, o⟩ ↔ FitsInt value := by
  have hdir := not_directory "debug" (by simp [names])
  have hset : a.set ⟨ctx, tid, "debug", value, o⟩ =
      some (⟨a.server.withPar { a.server.par with debug := atoiInt value }, a.cwd⟩, 0) := by
    simp [Agent.set, Agent.setParam, Agent.withServer, hd, hdir]
  have hnamed : named ctx "debug" = [.debug] := by simp [named, hdir]
  refine honours_int (by decide) hset (by simp [Agent.getParam, Server.withPar, hdir])
    (kept_of_named hnamed fun i hi => ?_)
  rcases i with _ | _ | _ | _ | _ | _ | (_ | _) | _ | (_ | _) | (_ | _) | (_ | _) <;> first | rfl | cases hi rfl

theorem honours_imindex (hd : ¬ a.Denied tid) : Honours a ⟨ctx, tid, "imindex", value, o⟩ ↔ FitsInt value := by
  have hdir := not_directory "imindex" (by simp [names])
  have hset : a.set ⟨ctx, tid, "imindex", value, o⟩ =
      some (⟨a.server.withPar { a.server.par with imindex := atoiInt value }, a.cwd⟩, 0) := by
    simp [Agent.set, Agent.setParam, Agent.withServer, hd, hdir]
  have hnamed : named ctx "imindex" = [.imindex] := by simp [named, hdir]
  refine honours_int (by decide) hset (by simp [Agent.getParam, Server.withPar, hdir])
    (kept_of_named hnamed fun i hi => ?_)
  rcases i with _ | _ | _ | _ | _ | _ | (_ | _) | _ | (_ | _) | (_ | _) | (_ | _) <;> first | rfl | cases hi rfl

/-- What a change of one entry keeps of every entry -/
theorem modify_keeps {α : Type} {f : Context → Context} {g : Context → α} (h : ∀ c, g (f c) = g c) (s : Server)
    (slot j : Slot) : g ((s.modify slot f).ctx j) = g (s.ctx j) := by
  unfold Server.modify
  by_cases hj : j = slot
  · simp only [hj, update_self, h]
  · simp only [update_of_ne hj]

/-- The settings but for the limits of one readout -/
theorem get_limits {slot : Slot} {n : Int} {i : Setting} (hg : i ≠ .maxkwGlobal (some slot))
    (hm : i ≠ .maxkwImage (some slot)) :
    Agent.get ⟨a.server.modify slot fun c => { c with maxkwGlobal := n, maxkwImage := n }, a.cwd⟩ i = a.get i := by
  have hktm := modify_keeps (f := fun c => { c with maxkwGlobal := n, maxkwImage := n }) (g := Context.ktm)
    (fun _ => rfl) a.server slot
  have hexpID := modify_keeps (f := fun c => { c with maxkwGlobal := n, maxkwImage := n }) (g := Context.expID)
    (fun _ => rfl) a.server slot
  rcases i with _ | _ | _ | _ | _ | _ | (_ | j) | _ | (_ | j) | (_ | j) | (_ | j) <;> try rfl
  case ktm.some => exact congrArg SettingValue.text (hktm j)
  case expID.some => exact congrArg SettingValue.number (hexpID j)
  case maxkwGlobal.some =>
    have hj : j ≠ slot := fun h => hg (by rw [h])
    simp only [Agent.get, Server.modify, update_of_ne hj]
  case maxkwImage.some =>
    have hj : j ≠ slot := fun h => hm (by rw [h])
    simp only [Agent.get, Server.modify, update_of_ne hj]

/-- Without a context both limits are those that are read. With one they are those of the readout, and those of the server
are read. -/
theorem honours_maxkw (hd : ¬ a.Denied tid) :
    Honours a ⟨ctx, tid, "maxkw", value, o⟩ ↔
      match ctx with
      | some _ => Numeral value ∧ min a.server.par.maxkwGlobal a.server.par.maxkwImage = atoi value
      | none => FitsInt value := by
  have hdir := not_directory "maxkw" (by simp [names])
  have hnamed : named ctx "maxkw" = [.maxkwGlobal ctx, .maxkwImage ctx] := by simp [named, hdir]
  cases ctx with
  | none =>
    have hset : a.set ⟨none, tid, "maxkw", value, o⟩ =
        some (⟨a.server.withPar { a.server.par with maxkwGlobal := atoiInt value, maxkwImage := atoiInt value },
          a.cwd⟩, 0) := by
      simp [Agent.set, Agent.setParam, Agent.withServer, hd, hdir]
    refine honours_int (by decide) hset (by simp [Agent.getParam, Server.withPar, hdir]) fun i hi => ?_
    rw [hnamed] at hi
    rcases i with _ | _ | _ | _ | _ | _ | (_ | _) | _ | (_ | _) | (_ | _) | (_ | _) <;> first | rfl | simp at hi
  | some slot =>
    have hset : a.set ⟨some slot, tid, "maxkw", value, o⟩ =
        some (⟨a.server.modify slot fun c => { c with maxkwGlobal := atoiInt value, maxkwImage := atoiInt value },
          a.cwd⟩, 0) := by
      simp [Agent.set, Agent.setParam, Agent.withServer, hd, hdir]
    have hget : Answers ⟨a.server.modify slot fun c =>
        { c with maxkwGlobal := atoiInt value, maxkwImage := atoiInt value }, a.cwd⟩ (some slot) "maxkw" value ↔
          Numeral value ∧ printInt (min a.server.par.maxkwGlobal a.server.par.maxkwImage) = printInt (atoi value) :=
      answers_int (by decide) (by simp [Agent.getParam, Server.modify, hdir])
    rw [honours_of_set hset fun i hi => ?_, hget]
    · exact and_congr_right fun _ => ⟨printInt_inj, congrArg printInt⟩
    · dsimp only at hi
      rw [hnamed] at hi
      exact get_limits (fun h => hi (by simp [h])) fun h => hi (by simp [h])

theorem honours_imformat (hd : ¬ a.Denied tid) :
    Honours a ⟨ctx, tid, "imformat", value, o⟩ ↔ value.length < szPathname := by
  have hdir := not_directory "imformat" (by simp [names])
  have hnamed : named ctx "imformat" = [.imformat] := by simp [named, hdir]
  have hset : a.set ⟨ctx, tid, "imformat", value, o⟩ =
      Agent.copied value (some (⟨a.server.withPar { a.server.par with imformat := value }, a.cwd⟩, 0)) := by
    simp [Agent.set, Agent.setParam, Agent.withServer, hd, hdir]
  rw [honours_copied (p := value = value) hset fun _ hres => ?_]
  · exact and_iff_left rfl
  · refine honours_text (by decide) hres (by simp [Agent.getParam, Server.withPar, hdir])
      (kept_of_named hnamed fun i hi => ?_)
    rcases i with _ | _ | _ | _ | _ | _ | (_ | _) | _ | (_ | _) | (_ | _) | (_ | _) <;> first | rfl | cases hi rfl

theorem honours_clobber (hd : ¬ a.Denied tid) :
    Honours a ⟨ctx, tid, "clobber", value, o⟩ ↔ value = chars "yes" ∨ value = chars "no" := by
  have hdir := not_directory "clobber" (by simp [names])
  have hnamed : named ctx "clobber" = [.clobber] := by simp [named, hdir]
  have hset : a.set ⟨ctx, tid, "clobber", value, o⟩ =
      some (⟨a.server.withPar { a.server.par with clobber := streq value (chars "yes") }, a.cwd⟩, 0) := by
    simp [Agent.set, Agent.setParam, Agent.withServer, hd, hdir]
  have hyes : streq (chars "yes") (chars "yes") = true := beq_self_eq_true _
  have hno : streq (chars "no") (chars "yes") = false := by decide +kernel
  have hget : Agent.getParam ⟨a.server.withPar { a.server.par with clobber := streq value (chars "yes") }, a.cwd⟩ ctx
      "clobber" = some (if streq value (chars "yes") then chars "yes" else chars "no") := by
    simp only [Agent.getParam, hdir]
    rfl
  rw [honours_text (by decide) hset hget (kept_of_named hnamed fun i hi => ?_)]
  · constructor
    · intro h
      split at h
      · exact .inl h.symm
      · exact .inr h.symm
    · rintro (rfl | rfl)
      · rw [if_pos hyes]
      · rw [hno]
        rfl
  · rcases i with _ | _ | _ | _ | _ | _ | (_ | _) | _ | (_ | _) | (_ | _) | (_ | _) <;> first | rfl | cases hi rfl

/-- The file is changed, and -1 is returned. -/
theorem honours_debugfile (hd : ¬ a.Denied tid) :
    Honours a ⟨ctx, tid, "debugfile", value, o⟩ ↔
      value.length < szPathname ∧ a.server.par.debugOut = if o.fopen then some value else none := by
  have hdir := not_directory "debugfile" (by simp [names])
  have hset : a.set ⟨ctx, tid, "debugfile", value, o⟩ = Agent.copied value (some (⟨a.server.withPar
      { a.server.par with debugOut := if o.fopen then some value else none }, a.cwd⟩, -1)) := by
    simp [Agent.set, Agent.setParam, Agent.withServer, hd, hdir]
  refine honours_copied hset fun _ hres => ?_
  rw [honours_of_failed hres]
  constructor
  · intro h
    exact (SettingValue.file.inj (h .debugfile)).symm
  · intro h i
    rw [← h]
    rfl

/-- The translation module is changed, and -1 is returned. -/
theorem honours_ktm (hd : ¬ a.Denied tid) :
    Honours a ⟨ctx, tid, "ktm", value, o⟩ ↔ value.length < szPathname ∧ a.get (.ktm ctx) = .text value := by
  have hdir := not_directory "ktm" (by simp [names])
  cases ctx with
  | none =>
    have hset : a.set ⟨none, tid, "ktm", value, o⟩ =
        Agent.copied value (some (⟨a.server.withPar { a.server.par with defktm := value }, a.cwd⟩, -1)) := by
      simp [Agent.set, Agent.setParam, Agent.withServer, hd, hdir]
    refine honours_copied hset fun _ hres => ?_
    rw [honours_of_failed hres]
    constructor
    · exact fun h => (h (.ktm none)).symm
    · intro h i
      rw [← SettingValue.text.inj h]
      rfl
  | some slot =>
    have hset : a.set ⟨some slot, tid, "ktm", value, o⟩ =
        Agent.copied value (some (⟨a.server.modify slot fun c => { c with ktm := value }, a.cwd⟩, -1)) := by
      simp [Agent.set, Agent.setParam, Agent.withServer, hd, hdir]
    refine honours_copied hset fun _ hres => ?_
    rw [honours_of_failed hres]
    constructor
    · intro h
      have hk := h (.ktm (some slot))
      simp only [Agent.get, Server.modify, update_self] at hk
      exact hk.symm
    · intro h i
      have hsame : a.server.modify slot (fun c => { c with ktm := value }) = a.server := by
        rw [← SettingValue.text.inj h, Server.modify]
        exact congrArg (fun ctx => { a.server with ctx := ctx }) (update_eq_self slot a.server.ctx)
      rw [hsame]

/-- The names that `SetParam` knows and `GetParam` does not -/
theorem not_honours_unread (hd : ¬ a.Denied tid) (hp : param ∈ ["maxkw_global", "maxkw_image", "expID", "ObsID"]) :
    ¬ Honours a ⟨ctx, tid, param, value, o⟩ := by
  have hall : ∀ p ∈ ["maxkw_global", "maxkw_image", "expID", "ObsID"], p ∈ names := by simp [names]
  have hdir := not_directory param (hall param hp)
  have hget : ∀ t : Agent, t.getParam ctx param = none := by
    intro t
    simp only [List.mem_cons, List.not_mem_nil, or_false] at hp
    rcases hp with rfl | rfl | rfl | rfl <;> simp [Agent.getParam, hdir]
  have hset : ∃ t, a.set ⟨ctx, tid, param, value, o⟩ = some (t, 0) := by
    simp only [List.mem_cons, List.not_mem_nil, or_false] at hp
    rcases hp with rfl | rfl | rfl | rfl <;> cases ctx <;>
      simp [Agent.set, Agent.setParam, Agent.withServer, hd, hdir]
  obtain ⟨t, hset⟩ := hset
  rintro ⟨t', status, hs, ha, -, -⟩
  rw [hset] at hs
  cases hs
  exact not_answers (hget t) (ha rfl)

theorem honours_unknown (hdir : strncmpEq (chars param) (chars "directory") 3 = false)
    (hp : param ∉ ["reqlevel", "debug", "imindex", "debugfile", "imformat", "ktm", "clobber", "maxkw", "maxkw_global",
      "maxkw_image", "expID", "ObsID"]) : Honours a ⟨ctx, tid, param, value, o⟩ := by
  have hset : a.set ⟨ctx, tid, param, value, o⟩ = some (a, -1) := by
    simp only [List.mem_cons, List.not_mem_nil, or_false, not_or] at hp
    simp [Agent.set, Agent.setParam, Agent.withServer, hdir, hp]
  exact (honours_of_failed hset).mpr fun _ => rfl

theorem honours_denied (hd : a.Denied tid) : Honours a ⟨ctx, tid, param, value, o⟩ := by
  have hset : a.set ⟨ctx, tid, param, value, o⟩ = some (a, -1) := by
    simp [Agent.set, Agent.setParam, Agent.withServer, hd]
  exact (honours_of_failed hset).mpr fun _ => rfl

/-- A request is right just when the condition for its name is met. -/
theorem honours_iff (a : Agent) (r : SetRequest) : Honours a r ↔ Accords a r := by
  obtain ⟨ctx, tid, param, value, o⟩ := r
  unfold Accords
  dsimp only
  by_cases hd : a.Denied tid
  · exact iff_of_true (honours_denied hd) (.inl hd)
  rw [or_iff_right hd]
  by_cases hdir : strncmpEq (chars param) (chars "directory") 3 = true
  · rw [if_pos hdir]
    exact honours_directory hd hdir
  rw [if_neg hdir]
  by_cases hints : param ∈ ["reqlevel", "debug", "imindex"]
  · rw [if_pos hints]
    simp only [List.mem_cons, List.not_mem_nil, or_false] at hints
    rcases hints with rfl | rfl | rfl
    · exact honours_reqlevel hd
    · exact honours_debug hd
    · exact honours_imindex hd
  rw [if_neg hints]
  by_cases hdebugfile : param = "debugfile"
  · rw [if_pos hdebugfile, hdebugfile]
    exact honours_debugfile hd
  rw [if_neg hdebugfile]
  by_cases himformat : param = "imformat"
  · rw [if_pos himformat, himformat]
    exact honours_imformat hd
  rw [if_neg himformat]
  by_cases hktm : param = "ktm"
  · rw [if_pos hktm, hktm]
    exact honours_ktm hd
  rw [if_neg hktm]
  by_cases hclobber : param = "clobber"
  · rw [if_pos hclobber, hclobber]
    exact honours_clobber hd
  rw [if_neg hclobber]
  by_cases hmaxkw : param = "maxkw"
  · rw [if_pos hmaxkw, hmaxkw]
    exact honours_maxkw hd
  rw [if_neg hmaxkw]
  by_cases hp : param ∈ ["maxkw_global", "maxkw_image", "expID", "ObsID"]
  · exact iff_of_false (not_honours_unread hd hp) fun hn => hn hp
  · refine iff_of_true (honours_unknown (Bool.not_eq_true _ ▸ hdir) ?_) hp
    simp only [List.mem_cons, List.not_mem_nil, or_false, not_or] at hints hp ⊢
    exact ⟨hints.1, hints.2.1, hints.2.2, hdebugfile, himformat, hktm, hclobber, hmaxkw, hp⟩

end Branches

/-- For all requests that a server is given: each one that succeeds can be read back, each one that fails changes nothing,
and none changes what it does not name, if and only if each one meets the condition for its name. -/
theorem params_iff (a : Agent) (rs : List SetRequest) :
    Steps Honours Agent.step a rs ↔ Steps Accords Agent.step a rs :=
  steps_iff (I := fun _ => True) (fun _ _ _ _ _ _ => trivial) (fun a r _ => honours_iff a r) trivial

/-- A log file is named, and can be opened. -/
def nameLog : SetRequest where
  ctx := none
  tid := 1
  param := "debugfile"
  value := ['l', 'o', 'g']
  outcome := ⟨true, none, true⟩

/-- The log goes to the file, and -1 is returned. -/
theorem params_not : ¬ ∀ (a : Agent) (rs : List SetRequest), Steps Honours Agent.step a rs := by
  intro h
  have hd : ¬ Agent.Denied ⟨.start ⟨2, 0, 0, none, ['/'], [], [], 1, [], false, 512, 512, 0⟩, ['/']⟩ 1 := by decide
  obtain ⟨-, hsame⟩ := (honours_debugfile hd).mp (h _ [nameLog]).1
  cases hsame

/-! ## The server of `Server` -/

/-- The server that a call leaves, if it has a result -/
def Leaves (res : Option (Agent × Int)) (s : Server) : Prop := ∀ t status, res = some (t, status) → t.server = s

section Server

variable {a : Agent} {res res' : Option (Agent × Int)} {s s' : Server}

theorem leaves_withServer {status : Int} : Leaves (a.withServer s status) s := by
  intro t st h
  cases h
  rfl

theorem Leaves.copied {value : Str} (h : Leaves res s) : Leaves (Agent.copied value res) s := by
  unfold Agent.copied
  split
  · exact h
  · intro t st hn
    cases hn

theorem Leaves.ite {c : Prop} [Decidable c] (ht : c → Leaves res s) (hf : ¬ c → Leaves res' s') :
    Leaves (if c then res else res') (if c then s else s') := by
  split
  · next hc => exact ht hc
  · next hc => exact hf hc

/-- What `SetParam` sets is what `Server.setParam` does. -/
theorem setParam_leaves (ctx : Option Slot) (tid : Int) (param : String) {value : Str} (o : SetOutcome) :
    Leaves (a.setParam ctx tid param value o) (a.server.setParam ctx tid param value
      (if strncmpEq (chars param) (chars "directory") 3 then o.mkstemp && o.chdir.isSome else o.fopen)) := by
  unfold Agent.setParam Server.setParam
  dsimp only
  refine .ite (fun _ => leaves_withServer) fun _ => .ite (fun hdir => ?_) fun hdir => ?_
  · rw [if_pos hdir]
    refine .ite (fun _ => leaves_withServer) fun _ => .copied ?_
    intro t st h
    split at h
    · next cwd hm hc =>
      cases h
      rw [hm, hc]
      rfl
    · next hn =>
      cases h
      cases hm : o.mkstemp with
      | false => rfl
      | true =>
        cases hc : o.chdir with
        | none => rfl
        | some cwd => exact absurd hc (hn cwd hm)
  · rw [if_neg hdir]
    cases ctx
    all_goals
      repeat' refine .ite (fun _ => ?_) fun _ => ?_
      all_goals first
        | exact leaves_withServer
        | exact .copied leaves_withServer
        | split <;> exact leaves_withServer

/-- What `GetParam` returns is what `Server.getParam` does, if the directory is the one that was set. -/
theorem getParam_server (ctx : Option Slot) (param : String) (hcwd : a.cwd = a.server.par.curdir)
    (hlen : a.cwd.length < szPathname) : (a.getParam ctx param).getD [] = a.server.getParam ctx param := by
  unfold Agent.getParam Server.getParam
  dsimp only
  rw [if_pos hlen, hcwd]
  cases ctx <;> simp only [apply_ite (fun text : Option Str => text.getD []), Option.getD_some, Option.getD_none]

end Server

end Ndhs.Mosdca
