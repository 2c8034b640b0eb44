import Ndhs.Pipeline.Dca
import Ndhs.Smc.Table
import Ndhs.Sup.Fifo

/-!
# The exposure pipeline: Supervisor, SMC managers, PXF clients and DCA

One exposure at a time goes through the system. The Supervisor starts it (`supProcNext` of
`dhssup/supClient.c`), the `n` SMC managers prepare its pages and report its image type
(`smcmgr/mbusMsgHandler.c`, `smcProcess.c`), the PXF clients send the pages to the DCA
(`pxf/mbusMsgHandler.c`, `pxfProcess.c`, `pxfDCA.c`), the DCA closes the image (`mosdca/mosdca.c`) and
the managers delete the pages. `supIOHandler` of `dhssup/supIO.c` takes the reports in between.

Every pair of processes has a channel that keeps the order of its sender, and any channel may deliver
next. A request to the DCA is sent to a task id: it is lost if no DCA has that id. The options of the
programs are those of their command lines and do not change.

* `Net n`: the processes, the channels between them, and what was sent and received so far (`log`,
  `readouts`: no process reads them).
* `Net.step`: one input from a PAN, the GUI or the interpreter's timer (`procNext`), a page that a
  Collector adds to a cache, or the delivery of the oldest message of one channel.
* `Net.connected`, `Net.alone`: the start with every client connected, and with the managers only.
-/

namespace Ndhs

open Function Text

/-! ## Pages -/

/-- `TY_VOID`, `TY_DATA`, `TY_META` -/
inductive PageType where
  | tyVoid
  | tyData
  | tyMeta
  deriving DecidableEq, Repr

/-- What the pipeline reads of a page and its segment. The data of a `tyMeta` page are `nkeyw` cards. -/
structure ExpPage where
  expID : ExpID
  type : PageType
  colID : String
  expPageNum : Int
  nkeyw : Nat
  seqno : Int
  deriving DecidableEq

namespace ExpPage

/-- The page is of the exposure, and a program with the option `procPages` is to process it. -/
def isSelected (p : ExpPage) (procPages : Option String) (expID : ExpID) : Bool :=
  passes procPages p.colID && smcEqualExpID p.expID expID

/-- The name of the page's keyword database. -/
def kwdb (p : ExpPage) : String := p.colID ++ if p.expPageNum = 0 then "_Pre" else "_Post"

/-- The requests of `procDCAMetaData`, 16 cards in each, or of `procDCAData`, 32 rows in each. -/
def requests (p : ExpPage) : List DcaReq :=
  match p.type with
  | .tyMeta => List.replicate ((p.nkeyw + 15) / 16) (.writeHeaderData p.seqno)
  | .tyVoid | .tyData =>
    (List.range 64).flatMap (fun j =>
      .writePixelData p.seqno :: if j % 16 = 0 then [.synchronize p.seqno] else []) ++ [.synchronize p.seqno]

end ExpPage

/-! ## The SMC manager -/

/-- An SMC manager: its options, its global `seqno`, and the pages of its node's cache. -/
structure Mgr where
  procPages : Option String
  imtypeDB : String
  seqno : Int := 0
  pages : List ExpPage

/-- The page gives the image type of the exposure. -/
def Mgr.isType (m : Mgr) (expID : ExpID) (p : ExpPage) : Bool :=
  p.isSelected m.procPages expID && decide (p.type = .tyMeta) && streq m.imtypeDB.toList p.kwdb.toList

/-- `smcProcess`: give the pages the sequence number, report the image type of each page that has
it, and report the end. -/
def Mgr.smcProcess (m : Mgr) (expID : ExpID) : Mgr × List Msg :=
  ({ m with pages := m.pages.map fun p =>
      if p.isSelected m.procPages expID then { p with seqno := m.seqno } else p },
    (m.pages.filter (m.isType expID)).map (fun _ => ⟨.set, .imagetype (fmt6 expID)⟩) ++
      [⟨.set, .smcDone (fmt6 expID)⟩])

/-- `smcDelExpID` -/
def Mgr.smcDelExpID (m : Mgr) (expID : ExpID) : Mgr :=
  { m with pages := m.pages.filter fun p => !p.isSelected m.procPages expID }

/-- The cache gets a page, behind `k` others. -/
def Mgr.collect (m : Mgr) (k : Nat) (p : ExpPage) : Mgr :=
  { m with pages := m.pages.take k ++ p :: m.pages.drop k }

/-- `myHandler` of the SMC manager: its new state and what it sends to the Supervisor. -/
def Mgr.myHandler (m : Mgr) : Msg → Mgr × List Msg
  | ⟨.start, .process x⟩ => m.smcProcess x
  | ⟨.finish, .expID x⟩ => (m.smcDelExpID x, [⟨.set, .cleanDone x⟩])
  | ⟨.set, .optionSeqno k⟩ => ({ m with seqno := k }, [])
  | _ => (m, [])

/-! ## The PXF client -/

/-- The globals `dca_tid` and `seqno` of a PXF client. -/
structure Pxf where
  dcaTid : Int := 0
  seqno : Int := 0

/-- `pxfProcess`: the requests for the pages of the exposure, the headers in the first pass and the pixels
in the second. -/
def pxfProcess (procPages : Option String) (pages : List ExpPage) (expID : ExpID) : List DcaReq :=
  let own := pages.filter fun p => p.isSelected procPages expID
  (own.filter (fun p => p.type = .tyMeta) ++ own.filter (fun p => p.type ≠ .tyMeta)).flatMap ExpPage.requests

/-- `myHandler` of the PXF client: its new state, its requests to the DCA `dca_tid` and what it sends to
the Supervisor. Every request leaves its number in `seqno`. A `dca_tid` under the subject `MB_START` is not
looked at. -/
def Pxf.myHandler (p : Pxf) (procPages : Option String) (pages : List ExpPage) : Msg → Pxf × List DcaReq × List Msg
  | ⟨.start, .process x⟩ =>
    let sent := pxfProcess procPages pages x
    let seqno := ((sent.getLast?).map DcaReq.seqno).getD p.seqno
    ({ p with seqno := seqno }, sent ++ [.transferComplete seqno], [⟨.set, .pxfDone (fmt6 x)⟩])
  | ⟨.set, .dcaTid t⟩ => ({ p with dcaTid := t }, [], [])
  | ⟨.set, .seqno k⟩ => ({ p with seqno := k }, [], [])
  | _ => (p, [], [])

/-! ## The Supervisor and the network -/

/-- The Supervisor: its task id, the trigger host and its own, its queue, the fields of `supData` and the
counters of `supIOHandler`. -/
structure Sup where
  tid : Int
  triggerHost : Str
  host : Str
  queue : ProcQueue := pqStart
  imgSeqNo : Int := 0
  dcaTid : Int := 0
  npxfStarted : Int := 0
  npxfFinished : Int := 0
  npxfTransferred : Int := 0
  dcaDone : Int := -999

/-- `isTriggerHost`: the PAN on `procHost` decides when an exposure is opened and closed. -/
def Sup.isTriggerHost (sup : Sup) (procHost : Str) : Bool :=
  (streq sup.triggerHost (chars "localhost") && streq sup.host procHost) || streq sup.triggerHost procHost

/-- What the pipeline did. -/
inductive Event (n : Nat) where
  /-- The Supervisor broadcast `process` to the managers. -/
  | procBcast (e : ExpID)
  /-- The Supervisor took the exposure out of the queue. -/
  | removed (e : ExpID)
  /-- The Supervisor received `process smc done` from manager `i`. -/
  | smcDone (i : Fin n) (x : ExpID)
  /-- The Supervisor broadcast `process` to the PXF clients. -/
  | pxfBcast (x : ExpID)
  /-- The DCA received the `TransferComplete` of PXF client `i`. -/
  | transferComplete (i : Fin n)
  /-- The Supervisor sent `EndReadout`. -/
  | endReadout
  /-- The Supervisor received `dca_done`. -/
  | dcaDone (x : ExpID)
  /-- The Supervisor received `clean done` from manager `i`. -/
  | cleanDone (i : Fin n) (x : ExpID)
  deriving DecidableEq

/-- The system with `n` managers and at most `n` PXF clients, one on each node. `pxfPages` is the option
`procPages` of the client of a node. -/
structure Net (n : Nat) where
  sup : Sup
  mgr : Fin n → Mgr
  pxfPages : Fin n → Option String
  pxf : Fin n → Option Pxf
  dca : Option Dca
  toMgr : Fin n → List Msg := fun _ => []
  fromMgr : Fin n → List Msg := fun _ => []
  toPxf : Fin n → List Msg := fun _ => []
  fromPxf : Fin n → List Msg := fun _ => []
  toDca : List DcaReq := []
  pxfToDca : Fin n → List DcaReq := fun _ => []
  fromDca : List Msg := []
  log : List (Event n) := []
  /-- The exposure and the sequence number of every `ndhsStartReadout`, the newest first. -/
  readouts : List (ExpID × Int) := []

namespace Net

variable {n : Nat}

/-- `mbusBcast ("SMCMgr", …)` -/
def bcastMgr (s : Net n) (m : Msg) : Net n := { s with toMgr := fun i => s.toMgr i ++ [m] }

/-- `mbusBcast ("PXF", …)`: to the clients that are connected. -/
def bcastPxf (s : Net n) (m : Msg) : Net n :=
  { s with toPxf := fun i => if (s.pxf i).isSome then s.toPxf i ++ [m] else s.toPxf i }

/-- Requests of the Supervisor to the task `dca_tid`. -/
def sendDca (s : Net n) (rs : List DcaReq) : Net n :=
  { s with toDca := if s.dca.map Dca.tid = some s.sup.dcaTid then s.toDca ++ rs else s.toDca }

def note (s : Net n) (evs : List (Event n)) : Net n := { s with log := evs ++ s.log }

/-- `s` with the queue `q`. -/
def setQueue (s : Net n) (q : ProcQueue) : Net n := { s with sup := { s.sup with queue := q } }

/-- `setOption seqno v` of the GUI. -/
def setOptionSeqno (s : Net n) (v : Int) : Net n :=
  { s with sup := { s.sup with imgSeqNo := v } }.bcastMgr ⟨.set, .optionSeqno v⟩

/-- The `if` block of `supProcNext`, after `pqSetStat` made the queue `q`. -/
def startExposure (s : Net n) (expID : ExpID) (q : ProcQueue) : Net n :=
  let k := s.sup.imgSeqNo + 1
  let sup := { s.sup with queue := q, imgSeqNo := k, dcaDone := max (s.sup.dcaDone - n) 0 }
  let s := { s with sup := sup }.bcastPxf ⟨.set, .seqno k⟩
  let s := (s.bcastMgr ⟨.set, .optionSeqno k⟩).bcastMgr ⟨.start, .process (fmt6 expID)⟩
  s.note [.procBcast expID]

/-- `supProcNext`: process the next exposure. -/
def supProcNext (s : Net n) : Option (Net n) :=
  let expID := pqNext s.sup.queue
  if 0 < expID ∧ (s.sup.dcaDone < 0 ∨ n ≤ s.sup.dcaDone) then
    (pqSetStat s.sup.queue expID .active).map (s.startExposure expID)
  else some s

/-- The `dca_tid` branch of `supIOHandler`. -/
def onDcaTid (s : Net n) (t : Int) : Net n :=
  { s with sup := { s.sup with dcaTid := t } }.bcastPxf ⟨.set, .dcaTid t⟩

/-- The exposure that `PQ_DONE` took out: the one at `qFirst`, if the count went down. -/
def removed (q q' : ProcQueue) : Option ExpID :=
  if q'.qCount < q.qCount then some (q.queue q.qFirst).expID else none

/-- The `dca_done` branch, after `pqSetStat` made the queue `q`. -/
def onDcaDone (s : Net n) (x : ExpID) (q : ProcQueue) : Net n :=
  let evs := ((removed s.sup.queue q).map Event.removed).toList ++ [.dcaDone x]
  ((s.setQueue q).note evs).bcastMgr ⟨.finish, .expID (fmt6 x)⟩

/-- `ndhsEndReadout`, `c` the new `npxf_transferred`. -/
def endReadout (s : Net n) (seqno c : Int) : Net n :=
  ({ s with sup := { s.sup with npxfTransferred := c } }.sendDca [.endReadout seqno]).note
    [.endReadout]

/-- The `dca_trans_done` branch. -/
def onTransDone (s : Net n) (seqno : Int) : Net n :=
  let c := s.sup.npxfTransferred + 1
  if (n : Int) ≤ c then s.endReadout seqno (c - n)
  else { s with sup := { s.sup with npxfTransferred := c } }

/-- The requests of the `imagetype` branch, `k` the sequence number of the readout. -/
def readoutRequests (x : ExpID) (k : Int) : List DcaReq :=
  [.setImIndex k k, .startReadout k, .configureImage k, .setExpID k x]

/-- The `imagetype` branch. -/
def onImagetype (s : Net n) (x : ExpID) : Net n :=
  { s with readouts := (x, s.sup.imgSeqNo) :: s.readouts }.sendDca (readoutRequests x s.sup.imgSeqNo)

/-- The `clean done` branch, after `pqSetStat` made the queue `q`. -/
def onCleanDone (s : Net n) (q : ProcQueue) : Net n :=
  { s with sup := { s.sup with queue := q, dcaDone := s.sup.dcaDone + 1 } }

/-- Tell the PXF clients to start, `c` the new `npxf_started`. The task id goes out under the subject
`MB_START`. -/
def startPxf (s : Net n) (x : ExpID) (c : Int) : Net n :=
  let s := { s with sup := { s.sup with npxfStarted := c } }
  let s := (s.bcastPxf ⟨.set, .seqno s.sup.imgSeqNo⟩).bcastPxf ⟨.start, .dcaTid s.sup.dcaTid⟩
  (s.bcastPxf ⟨.start, .process (fmt6 x)⟩).note [.pxfBcast (fmt6 x)]

/-- The `process smc done` branch. -/
def onSmcDone (s : Net n) (x : ExpID) : Net n :=
  let c := s.sup.npxfStarted + 1
  if (n : Int) ≤ c then s.startPxf x (c - n)
  else { s with sup := { s.sup with npxfStarted := c } }

/-- The `process pxf done` branch. -/
def onPxfDone (s : Net n) : Net n :=
  let c := s.sup.npxfFinished + 1
  { s with sup := { s.sup with npxfFinished := if (n : Int) ≤ c then c - n else c } }

/-- `supIOHandler`: a message to the Supervisor; `none` if it stopped the Supervisor. The file of a
`dca_done` is looked up from the end of the message, back to a slash: without one the search leaves the
message. -/
def supIOHandler (s : Net n) : Msg → Option (Net n)
  | ⟨.set, .dcaTid t⟩ => some (s.onDcaTid t)
  | ⟨.set, .dcaDone x fname⟩ =>
    if '/' ∈ fname then (pqSetStat s.sup.queue x .done).map (s.onDcaDone x) else none
  | ⟨.set, .dcaTransDone k⟩ => some (s.onTransDone k)
  | ⟨.set, .imagetype x⟩ => some (s.onImagetype x)
  | ⟨.set, .cleanDone x⟩ => (pqSetStat s.sup.queue x .available).map s.onCleanDone
  | ⟨.set, .smcDone x⟩ => some (s.onSmcDone x)
  | ⟨.set, .pxfDone _⟩ => some s.onPxfDone
  | _ => some s

/-- What the delivery of a manager's message to the Supervisor adds to the log. -/
def report (i : Fin n) : Msg → List (Event n)
  | ⟨.set, .smcDone x⟩ => [.smcDone i x]
  | ⟨.set, .cleanDone x⟩ => [.cleanDone i x]
  | _ => []

/-- A Collector adds the page to the cache of node `i`, behind `k` others. -/
def collect (s : Net n) (i : Fin n) (k : Nat) (p : ExpPage) : Net n :=
  { s with mgr := update s.mgr i ((s.mgr i).collect k p) }

/-- The DCA is now `d` and has sent `out`. -/
def dcaTakes (s : Net n) (d : Dca) (out : List Msg) : Net n :=
  { s with dca := some d, fromDca := s.fromDca ++ out }

/-- The DCA stops: it takes no more requests. -/
def dcaStops (s : Net n) (d : Dca) : Net n := { s with dca := some { d with running := false } }

/-- One step of the system. -/
inductive Act (n : Nat) where
  /-- The PAN on `procHost` opened an exposure. -/
  | panOpen (procHost : Str) (e : ExpID)
  /-- The PAN on `procHost` closed an exposure. -/
  | panClose (procHost : Str) (e : ExpID)
  | collect (i : Fin n) (k : Nat) (p : ExpPage)
  | setOptionSeqno (v : Int)
  | procNext
  | dcaConnect (t : Int) (par : Mosdca.Params)
  | pxfConnect (i : Fin n)
  | mgrRecv (i : Fin n)
  | pxfRecv (i : Fin n)
  | dcaFromSup (o : Outcome)
  | dcaFromPxf (i : Fin n) (o : Outcome)
  | supFromMgr (i : Fin n)
  | supFromPxf (i : Fin n)
  | supFromDca

/-- One step; `none` if there is no such step or the Supervisor stopped. -/
def step (s : Net n) : Act n → Option (Net n)
  | .panOpen procHost e =>
    if s.sup.isTriggerHost procHost then (pqAdd s.sup.queue e).map s.setQueue else some s
  | .panClose procHost e =>
    if s.sup.isTriggerHost procHost then (pqSetStat s.sup.queue e .ready).map s.setQueue else some s
  | .collect i k p => some (s.collect i k p)
  | .setOptionSeqno v => some (s.setOptionSeqno v)
  | .procNext => s.supProcNext
  | .dcaConnect t par =>
    match s.dca with
    | none =>
      if 0 < t then
        some { s with dca := some ⟨t, .start par, true⟩, fromDca := s.fromDca ++ [⟨.set, .dcaTid t⟩] }
      else none
    | some _ => none
  | .pxfConnect i =>
    match s.pxf i with
    | none => some { s with pxf := update s.pxf i (some {}) }
    | some _ => none
  | .mgrRecv i =>
    match s.toMgr i with
    | [] => none
    | m :: ms =>
      let r := (s.mgr i).myHandler m
      some { s with
        mgr := update s.mgr i r.1
        toMgr := update s.toMgr i ms
        fromMgr := update s.fromMgr i (s.fromMgr i ++ r.2) }
  | .pxfRecv i =>
    match s.pxf i, s.toPxf i with
    | some p, m :: ms =>
      let r := p.myHandler (s.pxfPages i) (s.mgr i).pages m
      some { s with
        pxf := update s.pxf i (some r.1)
        toPxf := update s.toPxf i ms
        pxfToDca := if s.dca.map Dca.tid = some p.dcaTid then
          update s.pxfToDca i (s.pxfToDca i ++ r.2.1) else s.pxfToDca
        fromPxf := update s.fromPxf i (s.fromPxf i ++ r.2.2) }
    | _, _ => none
  | .dcaFromSup o =>
    match s.dca, s.toDca with
    | some d, r :: rs =>
      if d.running then
        match d.request s.sup.tid o r with
        | some (d', out) => some ({ s with toDca := rs }.dcaTakes d' out)
        | none => some (s.dcaStops d)
      else none
    | _, _ => none
  | .dcaFromPxf i o =>
    match s.dca, s.pxfToDca i with
    | some d, r :: rs =>
      if d.running then
        -- only `SetParam` looks at the task id of the sender
        match d.request 0 o r with
        | some (d', out) =>
          some (({ s with pxfToDca := update s.pxfToDca i rs }.dcaTakes d' out).note
            (if r.isTransfer then [.transferComplete i] else []))
        | none => some (s.dcaStops d)
      else none
    | _, _ => none
  | .supFromMgr i =>
    match s.fromMgr i with
    | [] => none
    | m :: ms => ({ s with fromMgr := update s.fromMgr i ms }.note (report i m)).supIOHandler m
  | .supFromPxf i =>
    match s.fromPxf i with
    | [] => none
    | m :: ms => { s with fromPxf := update s.fromPxf i ms }.supIOHandler m
  | .supFromDca =>
    match s.fromDca with
    | [] => none
    | m :: ms => { s with fromDca := ms }.supIOHandler m

end Net

/-- The options of the programs, the Supervisor's task id and sequence number, and the pages that are in
the caches at the start. -/
structure Setup (n : Nat) where
  tid : Int
  triggerHost : Str
  host : Str
  procPages : Fin n → Option String
  imtypeDB : Fin n → String
  pxfPages : Fin n → Option String
  seqno : Int
  pages : Fin n → List ExpPage

namespace Setup

variable {n : Nat} (c : Setup n)

def sup : Sup := { tid := c.tid, triggerHost := c.triggerHost, host := c.host, imgSeqNo := c.seqno }

def mgr (i : Fin n) : Mgr := { procPages := c.procPages i, imtypeDB := c.imtypeDB i, pages := c.pages i }

/-- The options of the scripts in `dev`, on every node. -/
def scripts (n : Nat) (pages : Fin n → List ExpPage) : Setup n where
  tid := 1
  triggerHost := chars "localhost"
  host := chars "pan"
  procPages _ := some "PanA,NOCS"
  imtypeDB _ := "NOCS_Pre"
  pxfPages _ := some "PanA,NOCS"
  seqno := 0
  pages := pages

end Setup

/-- A page of keywords with the image type of the exposure. -/
def ExpPage.typePage (expID : ExpID) : ExpPage := ⟨expID, .tyMeta, "NOCS", 0, 3, 0⟩

/-- The options of the DCA of the scripts: any task may set a parameter. -/
def Dca.options : Mosdca.Params := { Mosdca.Params.default with requestLevel := 2 }

namespace Net

variable {n : Nat}

/-- Every client is connected and knows the DCA, the task `t` with the options `par`. -/
def connected (c : Setup n) (t : Int) (par : Mosdca.Params) : Net n where
  sup := { c.sup with dcaTid := t }
  mgr := c.mgr
  pxfPages := c.pxfPages
  pxf _ := some { dcaTid := t }
  dca := some ⟨t, .start par, true⟩

/-- Only the managers are connected. -/
def alone (c : Setup n) : Net n where
  sup := c.sup
  mgr := c.mgr
  pxfPages := c.pxfPages
  pxf _ := none
  dca := none

end Net

end Ndhs
