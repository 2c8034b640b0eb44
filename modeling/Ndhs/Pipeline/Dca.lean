import Ndhs.Dca.Readout
import Ndhs.Smc.ExpID

/-!
# The messages of the pipeline, and the DCA

A message has a subject and a text; here the text is an inductive type, and a number in it is the number that the text
stands for (`fmt6` where the source prints `%.6lf`). The Supervisor and the PXF clients send requests to the DCA.

* `Msg`: a message between the Supervisor and its clients.
* `DcaReq`, `DcaReq.msg`: a request as the server of `Ndhs.Dca.Server` gets it. What that server asks of the system, and
  what a request holds that the pipeline does not look at, comes with the `Outcome`.
* `Dca.request`: the DCA takes a request. `request_quiet`, `request_end` and `request_transfer` say what it does then.
-/

namespace Ndhs

open Text Mosdca

/-- The subjects of the messages below (`MB_SET`, `MB_START`, `MB_FINISH`). -/
inductive Subject where
  | set
  | start
  | finish
  deriving DecidableEq, Repr

/-- The text of a message. -/
inductive Body where
  /-- `seqno %d` -/
  | seqno (k : Int)
  /-- `option seqno %d` -/
  | optionSeqno (k : Int)
  /-- `dca_tid %d` -/
  | dcaTid (t : Int)
  /-- `process %.6lf` -/
  | process (x : ExpID)
  /-- `ExpID %.6lf` -/
  | expID (x : ExpID)
  /-- `imagetype %.6lf …` -/
  | imagetype (x : ExpID)
  /-- `process smc done %.6lf` -/
  | smcDone (x : ExpID)
  /-- `process pxf done %.6lf` -/
  | pxfDone (x : ExpID)
  /-- `clean done …` -/
  | cleanDone (x : ExpID)
  /-- `dca_trans_done %d` -/
  | dcaTransDone (k : Int)
  /-- `dca_trans  %d %d` -/
  | dcaTrans (thdrpkt tpixpkt : Int)
  /-- `dca_done %.6lf  %s` -/
  | dcaDone (x : ExpID) (fname : Str)
  /-- Any other text -/
  | other
  deriving DecidableEq

structure Msg where
  subj : Subject
  body : Body
  deriving DecidableEq

/-- A request to the DCA, with its sequence number. -/
inductive DcaReq where
  /-- `SetParam` of `imindex` -/
  | setImIndex (seqno index : Int)
  | startReadout (seqno : Int)
  | configureImage (seqno : Int)
  /-- `SetParam` of `expID` -/
  | setExpID (seqno : Int) (x : ExpID)
  | endReadout (seqno : Int)
  | writeHeaderData (seqno : Int)
  | writePixelData (seqno : Int)
  | synchronize (seqno : Int)
  | transferComplete (seqno : Int)
  deriving DecidableEq

namespace DcaReq

def seqno : DcaReq → Int
  | setImIndex k _ | startReadout k | configureImage k | setExpID k _ | endReadout k | writeHeaderData k
  | writePixelData k | synchronize k | transferComplete k => k

def isEnd : DcaReq → Bool
  | endReadout _ => true
  | _ => false

def isTransfer : DcaReq → Bool
  | transferComplete _ => true
  | _ => false

/-- The Supervisor sends such requests; the others are from the PXF clients. -/
def isSup : DcaReq → Bool
  | setImIndex .. | startReadout _ | configureImage _ | setExpID .. | endReadout _ => true
  | _ => false

/-- The exposure id that a request tells the DCA. -/
def newID : DcaReq → Option ExpID
  | setExpID _ x => some (fmt6 x)
  | _ => none

end DcaReq

/-- What the DCA finds when it takes a request: the names, keywords and so on of the request, and what comes of the
system calls. The texts `buf` and `fname` are what two buffers of `DCA_EndReadout` hold if they are not set. -/
structure Outcome where
  imagename : Str := []
  imagetype : Str := []
  start : StartOutcome := ⟨[], 1, true⟩
  configure : ConfigureOutcome := ⟨true, 0⟩
  close : EndOutcome := ⟨true, 0⟩
  kwgroup : Str := []
  kwl : List Keyword := []
  header : HeaderOutcome := ⟨true, true, true, none⟩
  pixels : PixelOutcome := ⟨true, true, 0⟩
  synced : Bool := true
  buf : Body := .other
  fname : Str := []

/-- The request as the DCA unpacks it. `ndhsConfigureImage` asks for four images, and `procDCAData` sends 32 rows. -/
def DcaReq.msg (o : Outcome) : DcaReq → Mosdca.Msg
  | setImIndex k index => .setParam k "imindex" (printInt index) true
  | startReadout k => .startReadout k o.imagename o.imagetype o.start
  | configureImage k => .configureImage k o.imagename o.imagetype 4 o.configure
  | setExpID k x => .setParam k "expID" (printf6 x) true
  | endReadout k => .endReadout k o.close
  | writeHeaderData k => .writeHeaderData k o.kwgroup o.kwl o.header
  | writePixelData k => .writePixelData k 270336 1 1 o.pixels
  | synchronize k => .synchronize k o.synced
  | transferComplete k => .transferComplete k

/-- What the DCA tells the Supervisor with `MB_SET`. Its replies are not looked at, nor is its status. -/
def Outcome.toSup (o : Outcome) : Out → Option Msg
  | .transDone k => some ⟨.set, .dcaTransDone k⟩
  | .trans (some (thdrpkt, tpixpkt)) => some ⟨.set, .dcaTrans thdrpkt tpixpkt⟩
  | .trans none => some ⟨.set, o.buf⟩
  | .done x file => some ⟨.set, .dcaDone x (file.getD o.fname)⟩
  | .reply _ | .value _ | .status _ => none

/-- The DCA: its task id, its state, and whether it goes on. -/
structure Dca where
  tid : Int
  server : Server
  running : Bool := true

namespace Dca

/-- The global `expID`. -/
def expID (d : Dca) : ExpID := d.server.par.expID

/-- The DCA takes a request of the task `tid`: its new state and what it sends to the Supervisor; `none` if the request
ends the program. -/
def request (d : Dca) (tid : Int) (o : Outcome) (r : DcaReq) : Option (Dca × List Msg) :=
  match d.server.handle ⟨tid, r.msg o⟩ with
  | .ok (server, out) => some ({ d with server := server }, out.filterMap o.toSup)
  | .error _ => none

/-- The request is not for the end of a readout that the DCA does not have. -/
def Finds (d : Dca) (r : DcaReq) : Prop := r.isEnd = true → (d.server.getContext r.seqno).isSome = true

/-- The request is not for an exposure id that the task may not set. -/
def Allows (d : Dca) (tid : Int) (r : DcaReq) : Prop := r.newID.isSome = true → d.server.Grants tid

instance (d : Dca) (r : DcaReq) : Decidable (d.Finds r) :=
  inferInstanceAs (Decidable (r.isEnd = true → (d.server.getContext r.seqno).isSome = true))

instance (d : Dca) (tid : Int) (r : DcaReq) : Decidable (d.Allows tid r) :=
  inferInstanceAs (Decidable (r.newID.isSome = true → d.server.Grants tid))

end Dca

end Ndhs

/-! ## The exposure id of the server -/

namespace Ndhs.Mosdca.Server

open Text

variable {s t u : Server} {i : Slot} {q : Int}

@[simp] theorem withLast_par (s : Server) (l : Option Slot) : (s.withLast l).par = s.par := rfl
@[simp] theorem withPar_par (s : Server) (p : Params) : (s.withPar p).par = p := rfl
@[simp] theorem modify_par (s : Server) (i : Slot) (f : Context → Context) : (s.modify i f).par = s.par := rfl
@[simp] theorem synced_par (s : Server) (i : Slot) : (s.synced i).par = s.par := rfl
@[simp] theorem failed_par (s : Server) (i : Slot) : (s.failed i).par = s.par := rfl
@[simp] theorem alloc_par (s : Server) (h : Header) : (s.alloc h).par = s.par := rfl
@[simp] theorem release_par (s : Server) (b : Nat) : (s.release b).par = s.par := rfl

@[simp] theorem freeContext_par (s : Server) (q : Int) : (s.freeContext q).par = s.par := by
  unfold freeContext
  split <;> rfl

theorem getContext_par (h : s.getContext q = some (i, t)) : t.par = s.par := by
  obtain ⟨-, -, rfl⟩ := getContext_eq_some h
  rfl

theorem pixHeader_par (s : Server) (i : Slot) (seqno datalen swapped nstreams : Int) (o : PixelOutcome) :
    (s.pixHeader i seqno datalen swapped nstreams o).1.par = s.par := by
  unfold pixHeader
  dsimp only
  split
  · split <;> rfl
  · rfl

theorem pixPixels_par {errors : Nat} {out : List Out} (h : s.pixPixels i errors = .ok (t, out)) : t.par = s.par := by
  unfold pixPixels at h
  dsimp only at h
  split at h
  · split at h
    · cases h
      rfl
    · cases h
    · cases h
  · cases h

theorem setContext_par (h : s.setContext q = some (i, t)) : t.par = s.par := by
  obtain ⟨-, -, rfl⟩ := setContext_cases h
  rfl

/-- `SetParam` of the image index leaves the exposure id. -/
theorem setParam_imindex (s : Server) (ctx : Option Slot) (tid : Int) (value : Str) (ok : Bool) :
    (s.setParam ctx tid "imindex" value ok).par.expID = s.par.expID := by
  have hdir : ¬ strncmpEq (chars "imindex") (chars "directory") 3 = true := by decide +kernel
  unfold setParam
  by_cases hg : s.Grants tid
  · rw [if_neg hg, if_neg hdir, if_neg (by decide), if_neg (by decide), if_neg (by decide), if_neg (by decide),
      if_pos rfl]
    rfl
  · rw [if_pos (not_not.mp hg)]

/-- `SetParam` of the exposure id, if it is allowed. -/
theorem setParam_expID (ctx : Option Slot) {tid : Int} (hg : s.Grants tid) (value : Str) (ok : Bool) :
    (s.setParam ctx tid "expID" value ok).par.expID = atof value := by
  have hdir : ¬ strncmpEq (chars "expID") (chars "directory") 3 = true := by decide +kernel
  unfold setParam
  rw [if_neg hg, if_neg hdir, if_neg (by decide), if_neg (by decide), if_neg (by decide), if_neg (by decide),
    if_neg (by decide), if_neg (by decide), if_neg (by decide), if_neg (by decide), if_neg (by decide),
    if_pos rfl]
  cases ctx <;> rfl

/-- Only `SetParam` changes the exposure id. -/
theorem handleStartReadout_expID (imagename imagetype : Str) (o : StartOutcome) :
    (s.handleStartReadout q imagename imagetype o).1.par.expID = s.par.expID := by
  unfold handleStartReadout
  split
  · rename_i i t hset
    have hpar : t.par.expID = s.par.expID := congrArg Params.expID (setContext_par hset)
    dsimp only
    split
    · exact hpar
    · rw [freeContext_par]
      exact hpar
  · rfl

theorem configureImage_par (s : Server) (i : Slot) (imagename imagetype : Str) (nimages status : Int) :
    (s.configureImage i imagename imagetype nimages status).par = s.par := by
  unfold configureImage
  dsimp only
  split
  · rw [modify_par, freeContext_par, modify_par]
  · rfl

end Ndhs.Mosdca.Server

namespace Ndhs

open Text Mosdca

/-! ## What the DCA does when it takes a request -/

namespace Dca

variable {d d' : Dca} {tid : Int} {o : Outcome} {r : DcaReq} {out : List Msg}

/-- A request that the server has handled. -/
theorem request_eq_some (h : d.request tid o r = some (d', out)) :
    ∃ server outs, d.server.handle ⟨tid, r.msg o⟩ = .ok (server, outs) ∧ d' = { d with server := server } ∧
      out = outs.filterMap o.toSup := by
  unfold request at h
  split at h
  · rename_i server outs heq
    cases h
    exact ⟨server, outs, heq, rfl, rfl⟩
  · cases h

/-- Nothing but how much was transferred, and that once. -/
def Traffic (out : List Msg) : Prop := out = [] ∨ ∃ thdrpkt tpixpkt, out = [⟨.set, .dcaTrans thdrpkt tpixpkt⟩]

theorem Traffic.nil : Traffic [] := .inl rfl

theorem Traffic.mem (h : Traffic out) {m : Msg} (hm : m ∈ out) :
    ∃ thdrpkt tpixpkt, m = ⟨.set, .dcaTrans thdrpkt tpixpkt⟩ := by
  rcases h with rfl | ⟨a, b, rfl⟩
  · cases hm
  · exact ⟨a, b, List.mem_singleton.mp hm⟩

/-- What a request leaves as it is. -/
theorem request_same (h : d.request tid o r = some (d', out)) : d'.tid = d.tid ∧ d'.running = d.running := by
  obtain ⟨srv, outs, -, rfl, -⟩ := request_eq_some h
  exact ⟨rfl, rfl⟩

/-- A request that neither ends a readout nor a transfer only sets the exposure id, if it is for that. -/
theorem request_quiet (h : d.request tid o r = some (d', out)) (he : r.isEnd = false) (ht : r.isTransfer = false) :
    (d.Allows tid r → d'.expID = r.newID.getD d.expID) ∧ Traffic out := by
  obtain ⟨srv, outs, heq, rfl, rfl⟩ := request_eq_some h
  obtain ⟨dtid, s, running⟩ := d
  change s.handle ⟨tid, r.msg o⟩ = _ at heq
  change ((r.newID.isSome = true → s.Grants tid) → srv.par.expID = r.newID.getD s.par.expID) ∧ _
  cases r with
  | setImIndex k index =>
    cases heq
    refine ⟨fun _ => ?_, .nil⟩
    show (s.handleSetParam tid k "imindex" (printInt index) true).par.expID = s.par.expID
    unfold Server.handleSetParam
    split
    · rename_i hget
      rw [Server.setParam_imindex, Server.getContext_par hget]
    · exact Server.setParam_imindex ..
  | startReadout k =>
    have heq : s.handleStartReadout k o.imagename o.imagetype o.start = (srv, outs) := Except.ok.inj heq
    refine ⟨fun _ => ?_, ?_⟩
    · have hid := s.handleStartReadout_expID (q := k) o.imagename o.imagetype o.start
      rw [heq] at hid
      exact hid
    · unfold Server.handleStartReadout at heq
      split at heq
      · dsimp only at heq
        split at heq <;> cases heq <;> exact .nil
      · cases heq
        exact .nil
  | configureImage k =>
    have heq : s.handleConfigureImage k o.imagename o.imagetype 4 o.configure = .ok (srv, outs) := heq
    unfold Server.handleConfigureImage at heq
    split at heq
    · rename_i hget
      have hpar := Server.getContext_par hget
      split at heq
      · cases heq
        exact ⟨fun _ => congrArg Params.expID hpar, .nil⟩
      · split at heq
        · cases heq
        · cases heq
          refine ⟨fun _ => ?_, .nil⟩
          rw [Server.synced_par, Server.configureImage_par]
          exact congrArg Params.expID hpar
    · cases heq
  | setExpID k x =>
    cases heq
    refine ⟨fun hs => ?_, .nil⟩
    show (s.handleSetParam tid k "expID" (printf6 x) true).par.expID = fmt6 x
    unfold Server.handleSetParam
    split
    · rename_i u hget
      have hg : u.Grants tid := by
        rw [Server.Grants, Server.getContext_par hget]
        exact hs rfl
      rw [Server.setParam_expID _ hg, atof_printf6]
    · rw [Server.setParam_expID _ (hs rfl), atof_printf6]
  | endReadout k => cases he
  | writeHeaderData k =>
    cases heq
    refine ⟨fun _ => ?_, .nil⟩
    show (s.handleWriteHeaderData k o.kwgroup o.kwl o.header).par.expID = s.par.expID
    unfold Server.handleWriteHeaderData
    split
    · rename_i hget
      have hpar := Server.getContext_par hget
      split <;> exact congrArg Params.expID hpar
    · rfl
  | writePixelData k =>
    have heq : s.handleWritePixelData k 270336 1 1 o.pixels = .ok (srv, outs) := heq
    unfold Server.handleWritePixelData at heq
    split at heq
    · rename_i i u hget
      have hpar := (Server.pixHeader_par u i k 270336 1 1 o.pixels).trans (Server.getContext_par hget)
      dsimp only at heq
      split at heq
      · obtain rfl := Server.pixPixels_out heq
        exact ⟨fun _ => congrArg Params.expID ((Server.pixPixels_par heq).trans hpar), .nil⟩
      · cases heq
        exact ⟨fun _ => congrArg Params.expID hpar, .nil⟩
    · cases heq
      exact ⟨fun _ => rfl, .nil⟩
  | synchronize k =>
    have heq : s.handleSynchronize k o.synced = .ok (srv, outs) := heq
    unfold Server.handleSynchronize at heq
    split at heq
    · rename_i hget
      have hpar := congrArg Params.expID (Server.getContext_par hget)
      split at heq
      · cases heq
      · cases heq
        exact ⟨fun _ => hpar, .inr ⟨_, _, rfl⟩⟩
    · cases heq
      exact ⟨fun _ => rfl, .nil⟩
  | transferComplete k => cases ht

/-- The end of a readout: the DCA tells how much was transferred, and its exposure id with the file. -/
theorem request_end {k : Int} (h : d.request tid o (.endReadout k) = some (d', out))
    (hs : d.Finds (.endReadout k)) :
    d'.expID = d.expID ∧ ∃ thdrpkt tpixpkt fname, '/' ∈ fname ∧
      out = [⟨.set, .dcaTrans thdrpkt tpixpkt⟩, ⟨.set, .dcaDone (fmt6 d.expID) fname⟩] := by
  obtain ⟨srv, outs, heq, rfl, rfl⟩ := request_eq_some h
  have hfound : (d.server.getContext k).isSome = true := hs rfl
  obtain ⟨⟨i, u⟩, hget⟩ := Option.isSome_iff_exists.mp hfound
  have heq : d.server.handleEndReadout k o.close = .ok (srv, outs) := heq
  have hpar := Server.getContext_par hget
  unfold Server.handleEndReadout at heq
  rw [hget] at heq
  dsimp only at heq
  split at heq
  · cases heq
  · cases heq
    have hid : u.par.expID = d.server.par.expID := congrArg Params.expID hpar
    refine ⟨?_, ((u.endReadout i o.close).ctx i).thdrpkt, ((u.endReadout i o.close).ctx i).tpixpkt,
      u.par.curdir ++ '/' :: ((u.endReadout i o.close).ctx i).fname,
      List.mem_append_right _ List.mem_cons_self, ?_⟩
    · show ((((u.endReadout i o.close).freeContext k).synced i)).par.expID = _
      rw [Server.synced_par, Server.freeContext_par]
      exact hid
    · show [_, Msg.mk .set (.dcaDone (fmt6 u.par.expID) _)] = _
      rw [hid]
      rfl

/-- A transfer that is complete is reported. -/
theorem request_transfer {k : Int} (d : Dca) (tid : Int) (o : Outcome) :
    d.request tid o (.transferComplete k) = some (d, [⟨.set, .dcaTransDone k⟩]) := rfl

end Dca

end Ndhs
