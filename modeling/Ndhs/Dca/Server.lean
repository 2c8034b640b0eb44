import Ndhs.Lib.Ints
import Ndhs.Lib.Path
import Ndhs.Lib.Run
import Ndhs.Smc.ExpID
import Mathlib.Logic.Function.Basic
import Mathlib.Data.Fintype.Defs

/-!
# The data capture agent (`mosdca/mosdca.c`)

The DCA is a server that takes one message after another (`dca_handle`). A readout has an entry of
`dca_context` from its `StartReadout` to its `EndReadout` or `AbortReadout`, and the messages in between
name it by its sequence number.

`Server.handle` is one round of the loop. What the code asks of the system and of the image library (is
there memory, was the file created, could the image be configured) comes with the message, as its
outcome. A message may end the program: `Stop` says how.

* A value that the code sends without having set it is `none` in a reply (`Out`).
* Memory is a table of the blocks that are allocated, with the message that allocated each. Block
  numbers are never used again, so a pointer to a released block is not one to a new block.
* Events for subscribers are left out (`Ndhs.Dca.Clients` has their list), and so are log texts.
-/

namespace Ndhs.Mosdca

open Text Function

/-- An entry of `dca_context`; `MAX_CONTEXT` is 8. -/
abbrev Slot := Fin 8

/-- The first entry. -/
def Slot.first : Slot := 0

/-- `MAX_KWDB` -/
def maxKwdb : Nat := 64

/-- The mode of a readout, `M_INACTIVE` to `M_DONE`. -/
inductive Mode where
  | inactive | start | ready | writing | finish | done
  deriving DecidableEq, Repr

def Mode.code : Mode → Int
  | .inactive => 0
  | .start => 1
  | .ready => 2
  | .writing => 3
  | .finish => 4
  | .done => 5

/-- The message that allocated a block: its sequence number, and the number of its first block. -/
structure Header where
  seqno : Int
  number : Nat
  deriving DecidableEq

/-- An open image file: the directory of the process and the name it was created with, the number of images in it,
and the pixel blocks written to it. -/
structure Image where
  dir : List Str
  name : Str
  nimages : Int
  writes : List Header
  deriving DecidableEq

/-- `DEF_EXTENSION` -/
def defExtension : Str := ['.', 'f', 'i', 't', 's']

/-- `dsim_FileName`: the file extension is added if it is missing. -/
def dsimFileName (objectname : Str) : Str :=
  if objectname.length < defExtension.length ∨
      objectname.drop (objectname.length - defExtension.length) ≠ defExtension then objectname ++ defExtension
  else objectname

/-- The path of the image file, which `dsim_Open` creates. -/
def Image.path (img : Image) : List Str := Path.resolve img.dir (dsimFileName img.name)

/-- `DCA_Keyword` -/
structure Keyword where
  keyword : Str
  value : Str
  type : Str
  comment : Str
  deriving DecidableEq

/-- A keyword group of a readout and its keywords. -/
structure KeywordGroup where
  name : Str
  keywords : List Keyword
  deriving DecidableEq

/-- `struct context`. A pointer is `none` when it is `NULL`. -/
structure Context where
  seqno : Int
  mode : Mode
  iostat : Int
  kwdbs : List KeywordGroup
  maxkwGlobal : Int
  maxkwImage : Int
  synchronized : Int
  nhdrpkt : Int
  npixpkt : Int
  thdrpkt : Int
  tpixpkt : Int
  dsim : Option Image
  imagename : Str
  imagetype : Str
  fname : Str
  ktm : Str
  datalen : Int
  swapped : Int
  nstreams : Int
  streams : Option Nat
  pixels : Option Nat
  expID : ExpID
  deriving DecidableEq

/-- `memset (ctx, 0, sizeof (Context))` -/
def Context.zero : Context where
  seqno := 0
  mode := .inactive
  iostat := 0
  kwdbs := []
  maxkwGlobal := 0
  maxkwImage := 0
  synchronized := 0
  nhdrpkt := 0
  npixpkt := 0
  thdrpkt := 0
  tpixpkt := 0
  dsim := none
  imagename := []
  imagetype := []
  fname := []
  ktm := []
  datalen := 0
  swapped := 0
  nstreams := 0
  streams := none
  pixels := none
  expID := 0

/-- The options of the server that are not of one readout. `debugOut` is the file of the log, `none` for
the standard output. `cwd` is the directory that the process is in, `curdir` the text by which it entered it. -/
structure Params where
  requestLevel : Int
  console : Int
  debug : Int
  debugOut : Option Str
  curdir : Str
  cwd : List Str
  imformat : Str
  imindex : Int
  defktm : Str
  clobber : Bool
  maxkwGlobal : Int
  maxkwImage : Int
  expID : ExpID

/-- The DCA. `live` has the blocks that are allocated and `next` is the number of the next one. -/
structure Server where
  par : Params
  ctx : Slot → Context
  last : Option Slot
  live : Nat → Option Header
  next : Nat

/-- How a message can end the program: a request to quit, or an access through a null context, through
the null image of a context, or to a block that is not allocated. -/
inductive Stop where
  | quit | nullContext | nullImage | badBlock
  deriving DecidableEq

/-- What the DCA sends: a reply to the client, or a message to the supervisor. -/
inductive Out where
  | reply (vals : List (Option Int))
  | value (text : Str)
  | status (text : String)
  | transDone (seqno : Int)
  | trans (counts : Option (Int × Int))
  | done (x : ExpID) (file : Option (Str))
  deriving DecidableEq

namespace Server

/-! ## Contexts -/

/-- Write `last_context`. -/
def withLast (s : Server) (last : Option Slot) : Server := { s with last := last }

/-- Write the options. -/
def withPar (s : Server) (par : Params) : Server := { s with par := par }

/-- Write an entry. -/
def modify (s : Server) (i : Slot) (f : Context → Context) : Server :=
  { s with ctx := update s.ctx i (f (s.ctx i)) }

/-- The first entry with the sequence number. -/
def scan (s : Server) (seqno : Int) : Option Slot :=
  (List.finRange 8).find? fun i => decide ((s.ctx i).seqno = seqno)

/-- The answer of `getContext`: the entry used last if it has the number, else the first that has. -/
def lookup (s : Server) (seqno : Int) : Option Slot :=
  match s.last with
  | some i => if (s.ctx i).seqno = seqno then some i else s.scan seqno
  | none => s.scan seqno

/-- `seqno ? getContext (seqno) : NULL`. The entry found is the one used last. -/
def getContext (s : Server) (seqno : Int) : Option (Slot × Server) :=
  if seqno = 0 then none else (s.lookup seqno).map fun i => (i, s.withLast (some i))

/-- `setContext`: take the first free entry. It does not look for the number. -/
def setContext (s : Server) (seqno : Int) : Option (Slot × Server) :=
  if seqno = 0 then none
  else (s.scan 0).map fun i =>
    (i, (s.modify i fun _ =>
      { Context.zero with
        seqno := seqno
        maxkwGlobal := s.par.maxkwGlobal
        maxkwImage := s.par.maxkwImage
        ktm := s.par.defktm }).withLast (some i))

/-- `freeContext`: the first entry with the number. What `streams` and `pixels` point to is kept. -/
def freeContext (s : Server) (seqno : Int) : Server :=
  match s.scan seqno with
  | none => s
  | some i =>
    (s.modify i fun c => { c with kwdbs := [], dsim := none, seqno := 0 }).withLast
      (if s.last = some i then none else s.last)

/-! ## Memory -/

/-- `malloc`, for a header; the block is `s.next`. -/
def alloc (s : Server) (h : Header) : Server :=
  { s with live := update s.live s.next (some h), next := s.next + 1 }

/-- `free` of an allocated block. -/
def release (s : Server) (b : Nat) : Server := { s with live := update s.live b none }

end Server

/-! ## Messages -/

/-- The outcome of `StartReadout`: the file name made, the next index, and whether the file was created. -/
structure StartOutcome where
  fname : Str
  imindex : Int
  opened : Bool

/-- The outcome of the function `EndReadout`: whether the image could be synced, and its status. -/
structure EndOutcome where
  synced : Bool
  status : Int

/-- The outcome of `ConfigureImage`: whether there was memory, and the status of `dsim_Configure`. -/
structure ConfigureOutcome where
  memory : Bool
  status : Int

/-- The outcome of `WriteHeaderData`: memory for the strings and for the list, whether a keyword database
could be opened, and how many keywords were added before one was refused. -/
structure HeaderOutcome where
  sbuf : Bool
  kwl : Bool
  opened : Bool
  refused : Option Nat

/-- The outcome of a pixel message: memory for the streams and for the pixels, and the number of errors
while the streams were written to the image. -/
structure PixelOutcome where
  streams : Bool
  pixels : Bool
  errors : Nat

/-- The messages of `dca_handle`, with their outcomes. -/
inductive Msg where
  | quit
  | requestConsole
  | releaseConsole
  | setParam (seqno : Int) (param : String) (value : Str) (ok : Bool)
  | getParam (seqno : Int) (param : String)
  | getStatus (seqno : Int)
  | startReadout (seqno : Int) (imagename imagetype : Str) (o : StartOutcome)
  | transferComplete (seqno : Int)
  | endReadout (seqno : Int) (o : EndOutcome)
  | abortReadout (seqno : Int) (o : EndOutcome)
  | configureImage (seqno : Int) (imagename imagetype : Str) (nimages : Int) (o : ConfigureOutcome)
  | writeHeaderData (seqno : Int) (kwgroup : Str) (kwl : List Keyword) (o : HeaderOutcome)
  | writePixelData (seqno datalen swapped nstreams : Int) (o : PixelOutcome)
  | writePixHeader (seqno datalen swapped nstreams : Int) (o : PixelOutcome)
  | writePixPixels (seqno : Int) (errors : Nat)
  | synchronize (seqno : Int) (synced : Bool)

/-- A message and the task it comes from. -/
structure Request where
  tid : Int
  msg : Msg

/-- `atoi`, with a `long` of four bytes -/
def atoiInt (value : Str) : Int := CInt.atoi 32 value

namespace Server

/-- The reply of a handler, and the state after it. -/
abbrev Result := Except Stop (Server × List Out)

/-! ## Parameters -/

/-- `SetParam`: only the console may set a parameter, or anyone, or nobody. With a context the limits, the
translation module and the exposure id are those of the readout; the exposure id is the server's as
well. `ok`: the directory could be entered, or the log file opened. -/
def setParam (s : Server) (ctx : Option Slot) (tid : Int) (param : String) (value : Str) (ok : Bool) :
    Server :=
  if s.par.requestLevel = 0 ∨ (s.par.requestLevel = 1 ∧ tid ≠ s.par.console) then s
  else if strncmpEq (chars param) (chars "directory") 3 then
    if value = s.par.curdir then s
    else if ok then s.withPar { s.par with curdir := value, cwd := Path.resolve s.par.cwd value }
    else s
  else if param = "reqlevel" then s.withPar { s.par with requestLevel := atoiInt value }
  else if param = "debug" then s.withPar { s.par with debug := atoiInt value }
  else if param = "debugfile" then
    s.withPar { s.par with debugOut := if ok then some value else none }
  else if param = "imformat" then s.withPar { s.par with imformat := value }
  else if param = "imindex" then s.withPar { s.par with imindex := atoiInt value }
  else if param = "ktm" then
    match ctx with
    | some i => s.modify i fun c => { c with ktm := value }
    | none => s.withPar { s.par with defktm := value }
  else if param = "clobber" then s.withPar { s.par with clobber := streq value (chars "yes") }
  else if param = "maxkw_global" then
    match ctx with
    | some i => s.modify i fun c => { c with maxkwGlobal := atoiInt value }
    | none => s.withPar { s.par with maxkwGlobal := atoiInt value }
  else if param = "maxkw_image" then
    match ctx with
    | some i => s.modify i fun c => { c with maxkwImage := atoiInt value }
    | none => s.withPar { s.par with maxkwImage := atoiInt value }
  else if param = "maxkw" then
    match ctx with
    | some i => s.modify i fun c => { c with maxkwGlobal := atoiInt value, maxkwImage := atoiInt value }
    | none => s.withPar { s.par with maxkwGlobal := atoiInt value, maxkwImage := atoiInt value }
  else if param = "expID" then
    match ctx with
    | some i =>
      (s.modify i fun c => { c with expID := atof value }).withPar { s.par with expID := atof value }
    | none => s.withPar { s.par with expID := atof value }
  else s

/-- `GetParam`; a parameter that is not known has the empty text. The directory is the one last entered,
under the name that `SetParam` was given for it. -/
def getParam (s : Server) (ctx : Option Slot) (param : String) : Str :=
  if strncmpEq (chars param) (chars "directory") 3 then s.par.curdir
  else if param = "reqlevel" then printInt s.par.requestLevel
  else if param = "debug" then printInt s.par.debug
  else if param = "debugfile" then s.par.debugOut.getD (chars "stdout")
  else if param = "imformat" then s.par.imformat
  else if param = "imindex" then printInt s.par.imindex
  else if param = "ktm" then
    match ctx with
    | some i => (s.ctx i).ktm
    | none => s.par.defktm
  else if param = "clobber" then if s.par.clobber then chars "yes" else chars "no"
  else if param = "maxkw" then printInt (min s.par.maxkwGlobal s.par.maxkwImage)
  else if param = "maxgkw" then
    match ctx with
    | some i => printInt (s.ctx i).maxkwGlobal
    | none => printInt s.par.maxkwGlobal
  else if param = "maxikw" then
    match ctx with
    | some i => printInt (s.ctx i).maxkwImage
    | none => printInt s.par.maxkwImage
  else []

/-! ## Handlers -/

/-- `ctx->synchronized++` -/
def synced (s : Server) (i : Slot) : Server :=
  s.modify i fun c => { c with synchronized := c.synchronized + 1 }

/-- `ctx->iostat++` -/
def failed (s : Server) (i : Slot) : Server :=
  s.modify i fun c => { c with iostat := c.iostat + 1 }

def handleSetParam (s : Server) (tid seqno : Int) (param : String) (value : Str) (ok : Bool) :
    Server :=
  match s.getContext seqno with
  | some (i, s) => s.setParam (some i) tid param value ok
  | none => s.setParam none tid param value ok

def handleGetParam (s : Server) (seqno : Int) (param : String) : Server × List Out :=
  match s.getContext seqno with
  | some (i, s) => (s.synced i, [.value (s.getParam (some i) param)])
  | none => (s, [.value (s.getParam none param)])

def handleGetStatus (s : Server) (seqno : Int) : Server × List Out :=
  match s.getContext seqno with
  | some (i, s) => (s.synced i, [.reply [some (s.ctx i).mode.code, some (s.ctx i).iostat]])
  | none => (s, [.reply [some Mode.inactive.code, some 0]])

/-- `StartReadout` in the entry `i`. The image is created in the current directory. -/
def startReadout (s : Server) (i : Slot) (imagename imagetype : Str) (o : StartOutcome) : Server :=
  let s := s.modify i fun c =>
    { c with
      mode := if o.opened then .start else .inactive
      imagename := imagename
      imagetype := imagetype
      fname := o.fname
      dsim := if o.opened then some ⟨s.par.cwd, o.fname, 0, []⟩ else none }
  s.withPar { s.par with imindex := o.imindex }

def handleStartReadout (s : Server) (seqno : Int) (imagename imagetype : Str) (o : StartOutcome) :
    Server × List Out :=
  match s.setContext seqno with
  | some (i, s) =>
    let s := s.startReadout i imagename imagetype o
    if o.opened then
      ((s.synced i).modify i fun c =>
          { c with nhdrpkt := 0, npixpkt := 0, thdrpkt := 0, tpixpkt := 0 },
        [.status "active", .reply [some 0, some 0]])
    else (s.freeContext seqno, [.status "active", .reply [some (-1), some (-1)]])
  | none => (s, [.status "active", .reply [some (-1), some (-1)]])

/-- `EndReadout`: the keyword databases and the image are closed. -/
def endReadout (s : Server) (i : Slot) (o : EndOutcome) : Server :=
  s.modify i fun c =>
    { c with
      mode := .done
      iostat := if o.synced then c.iostat else c.iostat + 1
      kwdbs := []
      dsim := none }

/-- `DCA_EndReadout`. What follows the reply is sent whether or not there was a context, with the
exposure id of the server. -/
def handleEndReadout (s : Server) (seqno : Int) (o : EndOutcome) : Result :=
  match s.getContext seqno with
  | some (i, s) =>
    if (s.ctx i).dsim = none then .error .nullImage
    else
      let s := s.endReadout i o
      let c := s.ctx i
      .ok ((s.freeContext seqno).synced i,
        [.reply [some o.status, some c.iostat],
          .trans (some (c.thdrpkt, c.tpixpkt)),
          .done (fmt6 s.par.expID) (some (s.par.curdir ++ '/' :: c.fname)),
          .status "inactive",
          .status "Readout complete..."])
  | none =>
    .ok (s,
      [.reply [some (-1), none],
        .trans none,
        .done (fmt6 s.par.expID) none,
        .status "inactive",
        .status "Readout complete..."])

def handleAbortReadout (s : Server) (seqno : Int) (o : EndOutcome) : Result :=
  match s.getContext seqno with
  | some (i, s) =>
    if (s.ctx i).dsim = none then .error .nullImage
    else
      let s := s.endReadout i o
      .ok ((s.freeContext seqno).synced i, [.reply [some o.status, some (s.ctx i).iostat]])
  | none => .ok (s, [.reply [some (-1), none]])

/-- The context of a readout that is being configured. An empty name or type leaves the one from the
start. -/
def configured (imagename imagetype : Str) (nimages : Int) (c : Context) : Context :=
  { c with
    mode := .ready
    imagename := if imagename = [] then c.imagename else imagename
    imagetype := if imagetype = [] then c.imagetype else imagetype
    dsim := c.dsim.map fun img => { img with nimages := nimages } }

/-- `ConfigureImage`. If the image cannot be configured the context is freed. -/
def configureImage (s : Server) (i : Slot) (imagename imagetype : Str) (nimages status : Int) : Server :=
  let s := s.modify i (configured imagename imagetype nimages)
  if status < 0 then
    (s.freeContext (s.ctx i).seqno).modify i fun c => { c with mode := .done }
  else s

/-- `DCA_ConfigureImage`. The reply has the `iostat` of the context, also where there is none. -/
def handleConfigureImage (s : Server) (seqno : Int) (imagename imagetype : Str) (nimages : Int)
    (o : ConfigureOutcome) : Result :=
  match s.getContext seqno with
  | some (i, s) =>
    if !o.memory then .ok (s.synced i, [.reply [some (-1), some (s.ctx i).iostat]])
    else if (s.ctx i).dsim = none then .error .nullImage
    else
      let s := s.configureImage i imagename imagetype nimages o.status
      .ok (s.synced i, [.reply [some o.status, some (s.ctx i).iostat]])
  | none => .error .nullContext

/-- `GetKWDB`: the groups of a readout with a group of the name; `none` if there is no room or memory for
a new one. -/
def withGroup (kwdbs : List KeywordGroup) (kwgroup : Str) (opened : Bool) : Option (List KeywordGroup) :=
  if kwdbs.any fun g => g.name = kwgroup then some kwdbs
  else if maxKwdb ≤ kwdbs.length + 1 then none
  else if opened then some (kwdbs ++ [⟨kwgroup, []⟩])
  else none

/-- Append keywords to the first group of the name. -/
def addKeywords (kwgroup : Str) (kwl : List Keyword) : List KeywordGroup → List KeywordGroup
  | [] => []
  | g :: gs =>
    if g.name = kwgroup then { g with keywords := g.keywords ++ kwl } :: gs
    else g :: addKeywords kwgroup kwl gs

/-- `WriteHeaderData` -/
def writeHeaderData (c : Context) (kwgroup : Str) (kwl : List Keyword) (o : HeaderOutcome) : Context :=
  let c := { c with mode := .writing }
  match withGroup c.kwdbs kwgroup o.opened with
  | none => { c with iostat := c.iostat + 1 }
  | some kwdbs =>
    match o.refused with
    | some n => { c with kwdbs := addKeywords kwgroup (kwl.take n) kwdbs, iostat := c.iostat + 1 }
    | none =>
      { c with
        kwdbs := addKeywords kwgroup kwl kwdbs
        synchronized := 0
        nhdrpkt := c.nhdrpkt + 1
        thdrpkt := c.thdrpkt + 1 }

def handleWriteHeaderData (s : Server) (seqno : Int) (kwgroup : Str) (kwl : List Keyword)
    (o : HeaderOutcome) : Server :=
  match s.getContext seqno with
  | some (i, s) =>
    if o.sbuf && o.kwl then s.modify i fun c => writeHeaderData c kwgroup kwl o else s.failed i
  | none => s

/-- `DCA_WritePixHeader`, and the first part of `DCA_WritePixelData`: allocate the stream table and the
pixel buffer. What the context pointed to before is not looked at. Also whether both were allocated. -/
def pixHeader (s : Server) (i : Slot) (seqno datalen swapped nstreams : Int) (o : PixelOutcome) :
    Server × Bool :=
  let h : Header := ⟨seqno, s.next⟩
  let s := s.modify i fun c => { c with datalen := datalen, swapped := swapped, nstreams := nstreams }
  if o.streams then
    let a := s.next
    let s := (s.alloc h).modify i fun c => { c with streams := some a }
    if o.pixels then
      let b := s.next
      ((s.alloc h).modify i fun c => { c with pixels := some b }, true)
    else (((s.modify i fun c => { c with pixels := none }).release a).failed i, false)
  else ((s.modify i fun c => { c with streams := none }).failed i, false)

/-- `DCA_WritePixPixels`, and the second part of `DCA_WritePixelData`: write the pixels to the image and
free both blocks. The pointers stay. -/
def pixPixels (s : Server) (i : Slot) (errors : Nat) : Result :=
  let c := s.ctx i
  match c.pixels, c.streams with
  | some b, some a =>
    match s.live b, s.live a, c.dsim with
    | some _, some h, some img =>
      let s := s.modify i fun c =>
        { c with
          mode := .writing
          dsim := some { img with writes := img.writes ++ [h] }
          synchronized := 0
          npixpkt := c.npixpkt + 1
          tpixpkt := c.tpixpkt + 1
          iostat := if errors = 0 then c.iostat else c.iostat + errors + 1 }
      .ok ((s.release b).release a, [])
    | some _, some _, none => .error .nullImage
    | _, _, _ => .error .badBlock
  | _, _ => .error .badBlock

def handleWritePixHeader (s : Server) (seqno datalen swapped nstreams : Int) (o : PixelOutcome) :
    Server :=
  match s.getContext seqno with
  | some (i, s) => (s.pixHeader i seqno datalen swapped nstreams o).1
  | none => s

def handleWritePixelData (s : Server) (seqno datalen swapped nstreams : Int) (o : PixelOutcome) :
    Result :=
  match s.getContext seqno with
  | some (i, s) =>
    let (s, both) := s.pixHeader i seqno datalen swapped nstreams o
    if both then s.pixPixels i o.errors else .ok (s, [])
  | none => .ok (s, [])

def handleWritePixPixels (s : Server) (seqno : Int) (errors : Nat) : Result :=
  match s.getContext seqno with
  | some (i, s) => s.pixPixels i errors
  | none => .ok (s, [])

def handleSynchronize (s : Server) (seqno : Int) (ok : Bool) : Result :=
  match s.getContext seqno with
  | some (i, s) =>
    if (s.ctx i).dsim = none then .error .nullImage
    else
      let c := s.ctx i
      .ok (s.modify i fun c =>
          { c with
            iostat := if ok then c.iostat else c.iostat + 1
            synchronized := c.synchronized + 1
            nhdrpkt := 0
            npixpkt := 0 },
        [.reply [], .trans (some (c.thdrpkt, c.tpixpkt))])
  | none => .ok (s, [.reply []])

/-- `dca_handle`: one message. -/
def handle (s : Server) (r : Request) : Result :=
  match r.msg with
  | .quit => .error .quit
  | .requestConsole =>
    let s := if s.par.console = 0 then s.withPar { s.par with console := r.tid } else s
    .ok (s, [.reply [some (if s.par.console = r.tid then 0 else -1)]])
  | .releaseConsole =>
    .ok (if s.par.console = r.tid then s.withPar { s.par with console := 0 } else s, [])
  | .setParam seqno param value ok => .ok (s.handleSetParam r.tid seqno param value ok, [])
  | .getParam seqno param => .ok (s.handleGetParam seqno param)
  | .getStatus seqno => .ok (s.handleGetStatus seqno)
  | .startReadout seqno imagename imagetype o => .ok (s.handleStartReadout seqno imagename imagetype o)
  | .transferComplete seqno => .ok (s, [.transDone seqno])
  | .endReadout seqno o => s.handleEndReadout seqno o
  | .abortReadout seqno o => s.handleAbortReadout seqno o
  | .configureImage seqno imagename imagetype nimages o =>
    s.handleConfigureImage seqno imagename imagetype nimages o
  | .writeHeaderData seqno kwgroup kwl o => .ok (s.handleWriteHeaderData seqno kwgroup kwl o, [])
  | .writePixelData seqno datalen swapped nstreams o =>
    s.handleWritePixelData seqno datalen swapped nstreams o
  | .writePixHeader seqno datalen swapped nstreams o =>
    .ok (s.handleWritePixHeader seqno datalen swapped nstreams o, [])
  | .writePixPixels seqno errors => s.handleWritePixPixels seqno errors
  | .synchronize seqno ok => s.handleSynchronize seqno ok

/-- The server as it starts: with any options, and no readout. -/
def start (par : Params) : Server := ⟨par, fun _ => .zero, none, fun _ => none, 0⟩

/-- The state after a message, if the program goes on. -/
def step (s : Server) (r : Request) : Option Server :=
  match s.handle r with
  | .ok (s, _) => some s
  | .error _ => none

theorem step_eq_some {s t : Server} {r : Request} (h : s.step r = some t) :
    ∃ out, s.handle r = .ok (t, out) := by
  unfold step at h
  split at h
  · rename_i out heq
    cases h
    exact ⟨out, heq⟩
  · cases h

end Server

end Ndhs.Mosdca
