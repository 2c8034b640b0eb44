import Ndhs.Lib.Run
import Ndhs.Dca.Contexts

/-!
# The file of a readout (`mosdca/mosdca.c`, `mosdca/dsim.c`)

`StartReadout` makes a file name from `imformat` (`MakeFileName`), changes it if there is such a file, and has
`dsim_Open` create the file. In `Dca/Server.lean` what it makes of the name is an outcome of the message; here it is
computed, from the files that there are.

A `Site` is a server and the disk. `Disk.log` has what was done to the disk by name, in order. A text that does not fit
its buffer ends the program. `sprintf fmt n` is the text for the conversion `fmt`, `none` if it is not one of an
integer.

* `dsimOpen_harmless`: only a file that was not there is opened for creation.
* `startFile_harmless`: the same of `StartReadout`, with clobber disabled.
* `harmless_run`: every request of a run, whatever else happens between the requests; after a run of such requests
  alone all files that there were hold what they held.
-/

namespace Ndhs.Mosdca

open Function Machine Text

/-- What is done to the disk by name -/
inductive Access where
  | unlink (path : List Str)
  | create (path : List Str)
  deriving DecidableEq

/-- The files by their paths, and what was done -/
structure Disk where
  files : List Str → Option (List UInt8)
  log : List Access

/-- `access (path, 0) == 0` -/
def Disk.access (d : Disk) (path : List Str) : Bool := (d.files path).isSome

/-- `unlink`, which may fail -/
def Disk.unlink (d : Disk) (path : List Str) (ok : Bool) : Disk where
  files := if ok then update d.files path none else d.files
  log := d.log ++ [.unlink path]

/-- `open (path, O_RDWR|O_CREAT|O_TRUNC, 0644)`, which may fail -/
def Disk.create (d : Disk) (path : List Str) (ok : Bool) : Disk where
  files := if ok then update d.files path (some []) else d.files
  log := d.log ++ [.create path]

/-- What the calls in `StartReadout` give. `tail` are the bytes behind the null of `imformat`. -/
structure FileEnv where
  tail : List Char
  unlinked : Bool
  opened : Bool
  calloc : Bool

/-- `SZ_NAME` -/
def szName : Nat := 128

/-- `SZ_PATHNAME` -/
def szPathname : Nat := 256

/-- The size of `buf` and `fmt` in `MakeFileName` -/
def szFmt : Nat := 80

/-- `MakeFileName`, from `ip` on: the name, and the next `imindex`. There is none if it reads behind the array. -/
def makeFileName (sprintf : Str → Int → Option Str) (imagename imagetype : Str) :
    List Char → Int → Option (Str × Int)
  | [], _ => none
  | [c], n => if c = '\x00' then some ([], n) else none
  | c :: c' :: ip, n =>
    if c = '\x00' then some ([], n)
    else if c = '%' ∧ c' = 'N' then
      (makeFileName sprintf imagename imagetype ip n).map fun r => (imagename ++ r.1, r.2)
    else if c = '%' ∧ c' = 'T' then
      (makeFileName sprintf imagename imagetype ip n).map fun r => (imagetype ++ r.1, r.2)
    else if c = '%' ∧ (c'.isDigit ∨ c' = 'I') then
      let width := (c' :: ip).takeWhile fun c => c.isDigit || c == '-'
      match _h : (c' :: ip).dropWhile fun c => c.isDigit || c == '-' with
      | [] => none
      | conv :: ip' =>
        let fmt := '%' :: width ++ (if conv = 'I' then ['d'] else if conv = '\x00' then [] else [conv])
        if szFmt < width.length + 3 then none
        else (sprintf fmt n).bind fun buf =>
          if szFmt ≤ buf.length then none
          else (makeFileName sprintf imagename imagetype ip' (n + 1)).map fun r => (buf ++ r.1, r.2)
    else (makeFileName sprintf imagename imagetype (c' :: ip) n).map fun r => (c :: r.1, r.2)
  termination_by ip => ip.length
  decreasing_by
    · simp only [List.length_cons]; omega
    · simp only [List.length_cons]; omega
    · have hle := (List.dropWhile_suffix (l := c' :: ip) fun c => c.isDigit || c == '-').length_le
      rw [_h] at hle
      simp only [List.length_cons] at hle ⊢
      omega
    · simp only [List.length_cons]; omega

/-- The text before the last dot of `oname`, and the text behind it -/
def splitExtn (oname : Str) : Str × Str :=
  if '.' ∈ oname then
    let extn := (oname.reverse.takeWhile (· != '.')).reverse
    (oname.take (oname.length - extn.length - 1), extn)
  else (oname, [])

/-- `'a'` to `'z'` -/
def letters : List Char := (List.range 26).map fun k => Char.ofNat ('a'.toNat + k)

/-- The first of the names with a letter for which there is no file, else the last of them -/
def changeName (d : Disk) (cwd : List Str) (oname : Str) : Str :=
  let (root, extn) := splitExtn oname
  let fname := fun c : Char => root ++ c :: '.' :: extn
  fname ((letters.find? fun c => !d.access (Path.resolve cwd (fname c))).getD 'z')

/-- `dsim_Open`, to create the file: the disk, and whether there is a descriptor -/
def dsimOpen (d : Disk) (cwd : List Str) (objectname : Str) (e : FileEnv) : Option (Disk × Bool) :=
  let path := Path.resolve cwd (dsimFileName objectname)
  if szPathname ≤ (dsimFileName objectname).length then none
  else if d.access path then some (d, false)
  else some (d.create path e.opened, e.opened && e.calloc)

/-- The existing file is unlinked or, if it is not to be clobbered, the name is changed. -/
def avoidFile (par : Params) (d : Disk) (fname : Str) (e : FileEnv) : Disk × Str :=
  let newfile := dsimFileName fname
  if d.access (Path.resolve par.cwd newfile) then
    if par.clobber then (d.unlink (Path.resolve par.cwd newfile) e.unlinked, fname)
    else (d, changeName d par.cwd newfile)
  else (d, fname)

/-- The part of `StartReadout` that makes the file: the disk, and the outcome; no outcome if the program ends. -/
def startFile (sprintf : Str → Int → Option Str) (par : Params) (d : Disk) (imagename imagetype : Str)
    (e : FileEnv) : Disk × Option StartOutcome :=
  if szName ≤ imagename.length ∨ szName ≤ imagetype.length then (d, none)
  else match makeFileName sprintf imagename imagetype (par.imformat ++ '\x00' :: e.tail) par.imindex with
  | none => (d, none)
  | some (fname, imindex) =>
    if szPathname ≤ (dsimFileName fname).length then (d, none)
    else
      let (d, fname) := avoidFile par d fname e
      match dsimOpen d par.cwd fname e with
      | none => (d, none)
      | some (d, opened) => (d, some ⟨fname, imindex, opened⟩)

/-! ## One request -/

/-- What may happen to a disk if no file is to be clobbered: every file opened for creation was not there, and
nothing is unlinked. Either such a file was created, or all files are as before, and `created` does not hold. -/
structure Harmless (d d' : Disk) (created : Prop) : Prop where
  log : ∃ new, d'.log = d.log ++ new ∧ ∀ a ∈ new, ∃ path, a = .create path ∧ d.files path = none
  files : (d'.files = d.files ∧ ¬ created) ∨ ∃ path, d.files path = none ∧ d'.files = update d.files path (some [])

variable {sprintf : Str → Int → Option Str} {d : Disk} {e : FileEnv}

theorem Harmless.unchanged (d : Disk) {created : Prop} (h : ¬ created) : Harmless d d created :=
  ⟨⟨[], (List.append_nil _).symm, nofun⟩, .inl ⟨rfl, h⟩⟩

/-- A file that was there keeps what it held. -/
theorem Harmless.kept {d d' : Disk} {created : Prop} (h : Harmless d d' created) {path : List Str} {bytes : List UInt8}
    (hp : d.files path = some bytes) : d'.files path = some bytes := by
  rcases h.files with ⟨hsame, -⟩ | ⟨new, hnew, hfiles⟩
  · rw [hsame, hp]
  · have hne : path ≠ new := by
      rintro rfl
      rw [hnew] at hp
      cases hp
    rw [hfiles, update_of_ne hne, hp]

theorem Harmless.create {path : List Str} (h : d.access path = false) (ok : Bool) {created : Prop} (hc : created → ok = true) :
    Harmless d (d.create path ok) created := by
  have hnone : d.files path = none := Option.not_isSome_iff_eq_none.mp (by simpa [Disk.access] using h)
  refine ⟨⟨[.create path], rfl, ?_⟩, ?_⟩
  · intro a ha
    exact ⟨path, List.mem_singleton.mp ha, hnone⟩
  · cases ok with
    | true => exact .inr ⟨path, hnone, rfl⟩
    | false => exact .inl ⟨rfl, fun h => Bool.false_ne_true (hc h)⟩

theorem dsimOpen_harmless {cwd : List Str} {objectname : Str} {opened : Bool} {d' : Disk}
    (h : dsimOpen d cwd objectname e = some (d', opened)) : Harmless d d' (opened = true) := by
  unfold dsimOpen at h
  dsimp only at h
  split at h
  · cases h
  · split at h
    · cases h
      exact .unchanged d Bool.false_ne_true
    · rename_i haccess
      cases h
      refine .create (by simpa using haccess) e.opened fun hc => ?_
      exact ((Bool.and_eq_true _ _).mp hc).1

/-- The readout has a new file. -/
def Opened (o : Option StartOutcome) : Prop := ∃ r, o = some r ∧ r.opened = true

theorem avoidFile_disk {par : Params} (hc : par.clobber = false) (fname : Str) : (avoidFile par d fname e).1 = d := by
  unfold avoidFile
  dsimp only
  rw [hc]
  split <;> rfl

theorem startFile_harmless {par : Params} (hc : par.clobber = false) (imagename imagetype : Str) :
    Harmless d (startFile sprintf par d imagename imagetype e).1
      (Opened (startFile sprintf par d imagename imagetype e).2) := by
  have hnone : ¬ Opened none := fun ⟨_, h, _⟩ => nomatch h
  unfold startFile
  split
  · exact .unchanged d hnone
  · split
    · exact .unchanged d hnone
    · rename_i fname imindex _
      split
      · exact .unchanged d hnone
      · dsimp only
        rw [avoidFile_disk hc]
        split
        · exact .unchanged d hnone
        · rename_i opened hopen
          have hd := dsimOpen_harmless hopen
          refine ⟨hd.log, hd.files.imp_left ?_⟩
          rintro ⟨hsame, hn⟩
          refine ⟨hsame, ?_⟩
          rintro ⟨r, hr, ho⟩
          cases hr
          exact hn ho

/-! ## Runs of the server -/

/-- The server and the disk -/
structure Site where
  server : Server
  disk : Disk

/-- A request to start a readout, any other message, or what others do to the files -/
inductive Event where
  | startReadout (tid seqno : Int) (imagename imagetype : Str) (e : FileEnv)
  | message (r : Request)
  | others (files : List Str → Option (List UInt8))

/-- `DCA_StartReadout`. `StartReadout` is called if the readout gets a context. -/
def Site.startReadout (sprintf : Str → Int → Option Str) (s : Site) (seqno : Int) (imagename imagetype : Str)
    (e : FileEnv) : Disk × Option StartOutcome :=
  match s.server.setContext seqno with
  | none => (s.disk, none)
  | some (_, t) => startFile sprintf t.par s.disk imagename imagetype e

/-- The site after an event, if the program goes on -/
def Site.step (sprintf : Str → Int → Option Str) (s : Site) : Event → Option Site
  | .startReadout tid seqno imagename imagetype e =>
    match s.server.setContext seqno, s.startReadout sprintf seqno imagename imagetype e with
    | none, _ => some s
    | some _, (_, none) => none
    | some _, (d, some o) => (s.server.step ⟨tid, .startReadout seqno imagename imagetype o⟩).map fun t => ⟨t, d⟩
  | .message r =>
    match r.msg with
    | .startReadout .. => none
    | _ => (s.server.step r).map fun t => { s with server := t }
  | .others files => some { s with disk := { s.disk with files := files } }

/-- A request to start a readout, while clobber is disabled, does no harm. -/
def Event.Harmless (sprintf : Str → Int → Option Str) (s : Site) : Event → Prop
  | .startReadout _ seqno imagename imagetype e => s.server.par.clobber = false →
    Mosdca.Harmless s.disk (s.startReadout sprintf seqno imagename imagetype e).1
      (Opened (s.startReadout sprintf seqno imagename imagetype e).2)
  | .message _ => True
  | .others _ => True

theorem setContext_par {s t : Server} {q : Int} {i : Slot} (h : s.setContext q = some (i, t)) : t.par = s.par := by
  obtain ⟨-, -, rfl⟩ := Server.setContext_cases h
  rfl

theorem event_harmless (sprintf : Str → Int → Option Str) (s : Site) (a : Event) : a.Harmless sprintf s := by
  cases a with
  | startReadout tid seqno imagename imagetype e =>
    intro hc
    unfold Site.startReadout
    rcases hset : s.server.setContext seqno with _ | ⟨i, t⟩
    · exact .unchanged _ fun ⟨_, h, _⟩ => nomatch h
    · exact startFile_harmless (by rw [setContext_par hset, hc]) imagename imagetype
  | message r => trivial
  | others files => trivial

/-- A request to start a readout -/
def Event.IsStart : Event → Prop
  | .startReadout .. => True
  | .message _ => False
  | .others _ => False

theorem handleStartReadout_clobber (s : Server) (q : Int) (imagename imagetype : Str) (o : StartOutcome) :
    (s.handleStartReadout q imagename imagetype o).1.par.clobber = s.par.clobber := by
  unfold Server.handleStartReadout
  rcases hset : s.setContext q with _ | ⟨i, t⟩
  · rfl
  · have ht : t.par.clobber = s.par.clobber := congrArg Params.clobber (setContext_par hset)
    dsimp only
    split
    · exact ht
    · unfold Server.freeContext
      split
      · exact ht
      · exact ht

/-- What a run of requests to start a readout keeps: clobber is disabled, the files are still there, and only files
that were not there have been opened for creation. -/
structure Kept (s t : Site) : Prop where
  clobber : t.server.par.clobber = false
  files : ∀ path bytes, s.disk.files path = some bytes → t.disk.files path = some bytes
  log : ∃ new, t.disk.log = s.disk.log ++ new ∧ ∀ a ∈ new, ∃ path, a = .create path ∧ s.disk.files path = none

theorem Kept.step {s t u : Site} {a : Event} (h : Kept s t) (ha : a.IsStart) (hs : t.step sprintf a = some u) :
    Kept s u := by
  cases a with
  | startReadout tid seqno imagename imagetype e =>
    have hharm := event_harmless sprintf t (.startReadout tid seqno imagename imagetype e) h.clobber
    unfold Site.step at hs
    dsimp only at hs
    split at hs
    · cases hs
      exact h
    · cases hs
    · rename_i hset d o hstart
      rw [hstart] at hharm
      obtain ⟨v, hv, rfl⟩ := Option.map_eq_some_iff.mp hs
      cases hv
      refine ⟨(handleStartReadout_clobber ..).trans h.clobber, fun path bytes hp => hharm.kept (h.files path bytes hp), ?_⟩
      obtain ⟨new, hnew, hcreate⟩ := h.log
      obtain ⟨new', hnew', hcreate'⟩ := hharm.log
      refine ⟨new ++ new', by rw [hnew', hnew, List.append_assoc], fun a ha => ?_⟩
      rcases List.mem_append.mp ha with ha | ha
      · exact hcreate a ha
      · obtain ⟨path, rfl, hnone⟩ := hcreate' a ha
        refine ⟨path, rfl, ?_⟩
        -- a file that was there at the start would still be there
        rcases hfile : s.disk.files path with _ | bytes
        · rfl
        · rw [h.files path bytes hfile] at hnone
          cases hnone
  | message r => exact ha.elim
  | others files => exact ha.elim

/-- Every request of a run, and the run of requests alone -/
theorem harmless_run (sprintf : Str → Int → Option Str) (s : Site) (as : List Event) :
    Steps (Event.Harmless sprintf) (Site.step sprintf) s as ∧
    (s.server.par.clobber = false → (∀ a ∈ as, a.IsStart) →
      ∀ t, run (Site.step sprintf) s as = some t → Kept s t) := by
  refine ⟨steps_of_all (event_harmless sprintf) s as, fun hc hstart t hr => ?_⟩
  have h0 : Kept s s := ⟨hc, fun _ _ h => h, [], (List.append_nil _).symm, nofun⟩
  exact (steps_of_forall hstart).run_inv (fun u a v hu ha huv => hu.step ha huv) h0 hr

/-- The server makes the name `a.fits`, and there is such a file. -/
def oldFile : Site where
  server := .start { Params.default with imformat := chars "a.fits", clobber := false, cwd := [] }
  disk := ⟨update (fun _ => none) [chars "a.fits"] (some [1, 2]), []⟩

/-- `a.fits` is there, and `aa.fits` is not. -/
theorem oldFile_startFile : startFile (fun _ _ => none) oldFile.server.par oldFile.disk [] [] ⟨[], true, true, true⟩ =
    (oldFile.disk.create [chars "aa.fits"] true, some ⟨chars "aa.fits", oldFile.server.par.imindex, true⟩) := by
  have hname : makeFileName (fun _ _ => none) [] [] (oldFile.server.par.imformat ++ ['\x00'])
      oldFile.server.par.imindex = some (chars "a.fits", oldFile.server.par.imindex) := by
    simp [oldFile, Server.start, chars, makeFileName]
  have havoid : avoidFile oldFile.server.par oldFile.disk (chars "a.fits") ⟨[], true, true, true⟩ =
      (oldFile.disk, chars "aa.fits") :=
    Prod.ext (avoidFile_disk rfl _) (by decide +kernel)
  have hopen : dsimOpen oldFile.disk oldFile.server.par.cwd (chars "aa.fits") ⟨[], true, true, true⟩ =
      some (oldFile.disk.create [chars "aa.fits"] true, true) := by
    have hpath : Path.resolve oldFile.server.par.cwd (dsimFileName (chars "aa.fits")) = [chars "aa.fits"] := by
      decide +kernel
    simp only [dsimOpen, hpath]
    rw [if_neg (by decide +kernel), if_neg (by decide +kernel)]
    rfl
  unfold startFile
  simp only [hname, havoid, hopen]
  rw [if_neg (by decide), if_neg (by decide +kernel)]

/-- The new file gets another name, and the old one is not touched. -/
theorem harmless_run_oldFile :
    ∃ t, run (Site.step fun _ _ => none) oldFile [.startReadout 1 5 [] [] ⟨[], true, true, true⟩] = some t ∧
      Kept oldFile t ∧ t.disk.files [chars "a.fits"] = some [1, 2] ∧ t.disk.log = [.create [chars "aa.fits"]] := by
  have hset : (oldFile.server.setContext 5).isSome = true := by decide +kernel
  obtain ⟨⟨i, u⟩, hset⟩ := Option.isSome_iff_exists.mp hset
  obtain ⟨t, ht⟩ : ∃ t, run (Site.step fun _ _ => none) oldFile [.startReadout 1 5 [] [] ⟨[], true, true, true⟩] =
      some ⟨t, oldFile.disk.create [chars "aa.fits"] true⟩ := by
    rw [run_cons]
    simp only [Site.step, Site.startReadout, hset, setContext_par hset, oldFile_startFile]
    exact ⟨_, rfl⟩
  have hkept := (harmless_run (fun _ _ => none) oldFile _).2 rfl (by simp [Event.IsStart]) _ ht
  exact ⟨_, ht, hkept, hkept.files _ _ (by decide +kernel), rfl⟩

end Ndhs.Mosdca
