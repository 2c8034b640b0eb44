import Ndhs.Dca.Contexts

/-!
# Ends of readouts, and requests for no readout

`EndReadout` tells the supervisor which exposure was written to which file, in a message `dca_done`. The
supervisor deletes the pages of that exposure. The message has the exposure id of the server, which the
last `SetParam` for any readout has set, and it is sent for an unknown sequence number as well.

* `Traced`: the server, and the exposure id that `SetParam` last gave each context.
* `Traced.Reports`: a message is reported as it should be: an `EndReadout` that finds its context once,
  with the id and the file of that context, and no other message.
* `done_iff`: the runs in which every message is reported so.
* `unknown_answered_iff`: the requests that are answered, with a status and without an effect on the
  contexts, where no context has their sequence number.
-/

namespace Ndhs.Mosdca

open Text Function Machine

/-! ## Names of images -/

/-- The image of a context was created under the file name of the context. -/
def Context.Named (c : Context) : Prop := ∀ img, c.dsim = some img → img.name = c.fname

namespace Server

variable {s t u : Server} {i j : Slot} {q : Int} {f : Context → Context}

/-- The images have the names of their contexts. -/
def Named (s : Server) : Prop := ∀ i, (s.ctx i).Named

theorem Named.modify (h : s.Named) (hf : (f (s.ctx i)).Named) : (s.modify i f).Named := by
  intro j
  rw [modify_ctx]
  split
  · exact hf
  · exact h j

theorem Named.withLast (h : s.Named) (l : Option Slot) : (s.withLast l).Named := h

theorem Named.withPar (h : s.Named) (p : Params) : (s.withPar p).Named := h

theorem Named.release (h : s.Named) (b : Nat) : (s.release b).Named := h

/-- A context without an image. -/
theorem named_of_none {c : Context} (h : c.dsim = none) : c.Named := by
  intro img himg
  rw [h] at himg
  cases himg

theorem Same.named (hs : Same s t) (h : s.Named) : t.Named := by
  intro i img himg
  have hkey := hs.key i
  simp only [Context.key, Prod.mk.injEq] at hkey
  obtain ⟨-, -, -, hname, hdsim⟩ := hkey
  rw [himg] at hdsim
  obtain ⟨img', himg', heq⟩ := Option.map_eq_some_iff.mp hdsim.symm
  rw [hname, ← h i img' himg']
  exact (Prod.mk.inj heq).2.symm

theorem Named.freeContext (h : s.Named) (q : Int) : (s.freeContext q).Named := by
  unfold Server.freeContext
  split
  · exact h
  · exact (h.modify (named_of_none rfl)).withLast _

theorem Named.setContext (h : s.Named) (hc : s.setContext q = some (i, t)) : t.Named := by
  obtain ⟨-, -, rfl⟩ := setContext_cases hc
  exact (h.modify (named_of_none rfl)).withLast _

theorem Named.startReadout (h : s.Named) (i : Slot) (imagename imagetype : Str) (o : StartOutcome) :
    (s.startReadout i imagename imagetype o).Named := by
  unfold Server.startReadout
  refine (h.modify ?_).withPar _
  intro img himg
  cases hopen : o.opened with
  | true =>
    simp only [hopen, if_true, Option.some.injEq] at himg
    rw [← himg]
  | false =>
    simp [hopen] at himg

theorem Named.endReadout (h : s.Named) (i : Slot) (o : EndOutcome) : (s.endReadout i o).Named :=
  h.modify (named_of_none rfl)

theorem Named.synced (h : s.Named) (i : Slot) : (s.synced i).Named := (synced_same s i).named h

theorem configured_named {c : Context} (imagename imagetype : Str) (nimages : Int) (h : c.Named) :
    (configured imagename imagetype nimages c).Named := by
  intro img himg
  obtain ⟨img', himg', rfl⟩ := Option.map_eq_some_iff.mp himg
  exact h img' himg'

theorem Named.configureImage (h : s.Named) (i : Slot) (imagename imagetype : Str) (nimages status : Int) :
    (s.configureImage i imagename imagetype nimages status).Named := by
  have hready := h.modify (configured_named imagename imagetype nimages (h i))
  unfold Server.configureImage
  dsimp only
  split
  · exact (hready.freeContext _).modify (hready.freeContext _ i)
  · exact hready

theorem Named.pixHeader (h : s.Named) (i : Slot) (seqno datalen swapped nstreams : Int)
    (o : PixelOutcome) : (s.pixHeader i seqno datalen swapped nstreams o).1.Named := by
  intro j img himg
  obtain ⟨hname, hdsim⟩ := Prod.mk.inj (pixHeader_image s i seqno datalen swapped nstreams o j)
  rw [hdsim] at himg
  rw [hname]
  exact h j img himg

theorem Named.pixPixels (h : s.Named) {errors : Nat} {out : List Out}
    (hp : s.pixPixels i errors = .ok (t, out)) : t.Named := by
  unfold Server.pixPixels at hp
  dsimp only at hp
  split at hp
  · split at hp
    · rename_i img _ _ himg
      cases hp
      refine ((h.modify ?_).release _).release _
      intro img' himg'
      cases himg'
      exact h i img himg
    · cases hp
    · cases hp
  · cases hp

theorem Named.handleStartReadout (h : s.Named) (imagename imagetype : Str) (o : StartOutcome)
    (hset : s.setContext q = some (i, u)) : (s.handleStartReadout q imagename imagetype o).1.Named := by
  have hu := (h.setContext hset).startReadout i imagename imagetype o
  unfold Server.handleStartReadout
  rw [hset]
  dsimp only
  split
  · dsimp only
    refine (hu.synced i).modify ?_
    exact hu.synced i i
  · exact hu.freeContext q

/-- Every message keeps the names. -/
theorem Named.step (h : s.Named) {r : Request} (hr : s.step r = some t) : t.Named := by
  obtain ⟨out, hr⟩ := step_eq_some hr
  have he := handle_effect hr
  generalize r.msg = m at he
  cases he with
  | same hs => exact hs.named h
  | start hset => exact h.handleStartReadout _ _ _ hset
  | ended hm hget himg =>
    exact ((((getContext_same hget).named h).endReadout _ _).freeContext _).synced _
  | configured hget hmem himg =>
    exact (((getContext_same hget).named h).configureImage _ _ _ _ _).synced _
  | header hm hget => exact ((getContext_same hget).named h).pixHeader _ _ _ _ _ _
  | pixels hget hp => exact ((getContext_same hget).named h).pixPixels hp
  | both hget ho hp => exact (((getContext_same hget).named h).pixHeader _ _ _ _ _ _).pixPixels hp

end Server

/-! ## Completion messages -/

/-- The messages `dca_done`: the exposure id and the file. -/
def dones (out : List Out) : List (ExpID × Option Str) :=
  out.filterMap fun o =>
    match o with
    | .done x file => some (x, file)
    | _ => none

/-- The server, and the exposure id that `SetParam` last gave each context. -/
structure Traced where
  srv : Server
  assigned : Slot → Option ExpID

/-- The directory that the server names in a report. -/
def Params.dir (par : Params) : List Str := Path.resolve par.cwd (par.curdir ++ ['/'])

/-- In the directory that the server names, the name of the image is that of its file. If it is the plain name of an
entry, then it has the extension, and the image was created in that directory. -/
def Params.Locates (par : Params) (img : Image) : Prop :=
  if Path.Plain img.name then dsimFileName img.name = img.name ∧ par.dir = img.dir
  else Path.walk par.dir img.name = img.path

/-- `SetParam` is allowed to the task. -/
def Server.Grants (s : Server) (tid : Int) : Prop :=
  ¬ (s.par.requestLevel = 0 ∨ (s.par.requestLevel = 1 ∧ tid ≠ s.par.console))

instance (s : Server) (tid : Int) : Decidable (s.Grants tid) := instDecidableNot

namespace Traced

/-- The ids after a message: a new context has none, and `SetParam` of `expID` gives one. -/
def assign (s : Traced) (r : Request) : Slot → Option ExpID :=
  match r.msg with
  | .startReadout q _ _ _ =>
    match s.srv.setContext q with
    | some (i, _) => update s.assigned i none
    | none => s.assigned
  | .setParam q param value _ =>
    match s.srv.getContext q with
    | some (i, _) =>
      if param = "expID" ∧ s.srv.Grants r.tid then update s.assigned i (some (atof value)) else s.assigned
    | none => s.assigned
  | _ => s.assigned

def step (s : Traced) (r : Request) : Option Traced := (s.srv.step r).map fun t => ⟨t, s.assign r⟩

def start (par : Params) : Traced := ⟨Server.start par, fun _ => none⟩

/-- `EndReadout` reports the readout that it found, with the id that was given to it and the file that
it was written to. It reports nothing where it found none, and no other message reports anything. -/
def Reports (s : Traced) (r : Request) : Prop :=
  match r.msg with
  | .endReadout q _ =>
    match s.srv.getContext q with
    | some (i, _) =>
      ∃ t out img x f, s.srv.handle r = .ok (t, out) ∧ (s.srv.ctx i).dsim = some img ∧
        dones out = [(x, some f)] ∧ Path.resolve s.srv.par.cwd f = img.path ∧ ∀ e, s.assigned i = some e → x = fmt6 e
    | none => ∃ t out, s.srv.handle r = .ok (t, out) ∧ dones out = []
  | _ => ∀ t out, s.srv.handle r = .ok (t, out) → dones out = []

/-- An `EndReadout` finds a context with an open image, whose file has its name in the directory that the server names,
and whose exposure id, if it has one, prints as the last one that was set for any readout. -/
def Ok (s : Traced) (r : Request) : Prop :=
  match r.msg with
  | .endReadout q _ =>
    match s.srv.getContext q with
    | some (i, _) =>
      (∃ img, (s.srv.ctx i).dsim = some img ∧ s.srv.par.Locates img) ∧
        ∀ e, s.assigned i = some e → fmt6 s.srv.par.expID = fmt6 e
    | none => False
  | _ => True

end Traced

/-- Only an `EndReadout` sends `dca_done`. -/
theorem Server.handle_dones {s t : Server} {r : Request} {out : List Out}
    (hne : ∀ q o, r.msg ≠ .endReadout q o) (h : s.handle r = .ok (t, out)) : dones out = [] := by
  obtain ⟨tid, msg⟩ := r
  cases msg with
  | quit => cases h
  | requestConsole => cases h; rfl
  | releaseConsole => cases h; rfl
  | setParam q param value ok => cases h; rfl
  | getParam q param =>
    have h : s.handleGetParam q param = (t, out) := Except.ok.inj h
    unfold handleGetParam at h
    split at h <;> cases h <;> rfl
  | getStatus q =>
    have h : s.handleGetStatus q = (t, out) := Except.ok.inj h
    unfold handleGetStatus at h
    split at h <;> cases h <;> rfl
  | startReadout q imagename imagetype o =>
    have h : s.handleStartReadout q imagename imagetype o = (t, out) := Except.ok.inj h
    unfold handleStartReadout at h
    split at h
    · dsimp only at h
      split at h <;> cases h <;> rfl
    · cases h; rfl
  | transferComplete q => cases h; rfl
  | endReadout q o => exact absurd rfl (hne q o)
  | abortReadout q o =>
    have h : s.handleAbortReadout q o = .ok (t, out) := h
    unfold handleAbortReadout at h
    split at h
    · split at h <;> cases h
      rfl
    · cases h; rfl
  | configureImage q imagename imagetype nimages o =>
    have h : s.handleConfigureImage q imagename imagetype nimages o = .ok (t, out) := h
    unfold handleConfigureImage at h
    split at h
    · split at h
      · cases h; rfl
      · split at h <;> cases h
        rfl
    · cases h
  | writeHeaderData q kwgroup kwl o => cases h; rfl
  | writePixelData q datalen swapped nstreams o =>
    have h : s.handleWritePixelData q datalen swapped nstreams o = .ok (t, out) := h
    unfold handleWritePixelData at h
    split at h
    · dsimp only at h
      split at h
      · rw [pixPixels_out h]; rfl
      · cases h; rfl
    · cases h; rfl
  | writePixHeader q datalen swapped nstreams o => cases h; rfl
  | writePixPixels q errors =>
    have h : s.handleWritePixPixels q errors = .ok (t, out) := h
    unfold handleWritePixPixels at h
    split at h
    · rw [pixPixels_out h]; rfl
    · cases h; rfl
  | synchronize q ok =>
    have h : s.handleSynchronize q ok = .ok (t, out) := h
    unfold handleSynchronize at h
    split at h
    · split at h <;> cases h
      rfl
    · cases h; rfl

theorem dsimFileName_plain {name : Str} (h : Path.Plain name) : Path.Plain (dsimFileName name) := by
  unfold dsimFileName
  split
  · have hne (special : Str) (hs : special.length < 5) : name ++ defExtension ≠ special := by
      intro heq
      have hlen := congrArg List.length heq
      rw [List.length_append] at hlen
      have hext : defExtension.length = 5 := rfl
      omega
    refine ⟨fun hmem => ?_, hne _ (by decide), hne _ (by decide), hne _ (by decide)⟩
    rcases List.mem_append.mp hmem with hmem | hmem
    · exact h.1 hmem
    · exact absurd hmem (by decide)
  · exact h

/-- The file that `EndReadout` names. -/
theorem Params.locates_iff (par : Params) (img : Image) :
    Path.resolve par.cwd (par.curdir ++ '/' :: img.name) = img.path ↔ par.Locates img := by
  rw [Path.resolve_slash, ← Params.dir, Params.Locates]
  split
  · next hp =>
    rw [Path.walk_plain hp, Image.path, Path.resolve_plain (dsimFileName_plain hp), List.append_singleton_inj, and_comm,
      eq_comm]
  · rfl

/-- `EndReadout` of a context with an open image. -/
theorem Server.handleEndReadout_found {s u : Server} {q : Int} {i : Slot} {img : Image} (o : EndOutcome)
    (hget : s.getContext q = some (i, u)) (himg : (s.ctx i).dsim = some img) :
    ∃ t out, s.handleEndReadout q o = .ok (t, out) ∧
      dones out = [(fmt6 s.par.expID, some (s.par.curdir ++ '/' :: (s.ctx i).fname))] := by
  obtain ⟨-, -, rfl⟩ := getContext_eq_some hget
  unfold handleEndReadout
  rw [hget]
  dsimp only
  rw [if_neg (by rw [withLast_ctx, himg]; exact Option.some_ne_none img), endReadout, modify_ctx_self]
  exact ⟨_, _, rfl, rfl⟩

namespace Traced

theorem reports_end_iff {s : Traced} (hn : s.srv.Named) (tid q : Int) (o : EndOutcome) :
    s.Reports ⟨tid, .endReadout q o⟩ ↔ s.Ok ⟨tid, .endReadout q o⟩ := by
  show (match s.srv.getContext q with | some (i, _) => _ | none => _) ↔
    (match s.srv.getContext q with | some (i, _) => _ | none => _)
  cases hget : s.srv.getContext q with
  | none =>
    refine iff_of_false ?_ not_false
    rintro ⟨t, out, hr, hd⟩
    have hr : s.srv.handleEndReadout q o = .ok (t, out) := hr
    rw [Server.handleEndReadout, hget] at hr
    cases hr
    cases hd
  | some p =>
    obtain ⟨i, u⟩ := p
    constructor
    · rintro ⟨t, out, img, x, f, hr, himg, hd, hf, hx⟩
      have hr : s.srv.handleEndReadout q o = .ok (t, out) := hr
      obtain ⟨t', out', hr', hd'⟩ := Server.handleEndReadout_found o hget himg
      rw [hr] at hr'
      cases hr'
      rw [hd] at hd'
      obtain ⟨rfl, hfile⟩ := Prod.mk.inj (List.cons.inj hd').1
      obtain rfl := Option.some.inj hfile
      rw [← hn i img himg] at hf
      exact ⟨⟨img, himg, (Params.locates_iff _ img).mp hf⟩, hx⟩
    · rintro ⟨⟨img, himg, hloc⟩, hx⟩
      obtain ⟨t, out, hr, hd⟩ := Server.handleEndReadout_found o hget himg
      have hf := (Params.locates_iff _ img).mpr hloc
      rw [hn i img himg] at hf
      exact ⟨t, out, img, _, _, hr, himg, hd, hf, hx⟩

theorem reports_iff {s : Traced} (hn : s.srv.Named) (r : Request) : s.Reports r ↔ s.Ok r := by
  obtain ⟨tid, msg⟩ := r
  cases msg with
  | endReadout q o => exact reports_end_iff hn tid q o
  | _ => exact iff_of_true (fun t out h => Server.handle_dones (by simp) h) trivial

theorem Named.step {s t : Traced} {r : Request} (hn : s.srv.Named) (h : s.step r = some t) :
    t.srv.Named := by
  obtain ⟨u, hu, rfl⟩ := Option.map_eq_some_iff.mp h
  exact hn.step hu

end Traced

/-- Two readouts at a time, with the ids 1 and 2. Then the first one ends. -/
def doneRun : List Request :=
  [⟨1, .requestConsole⟩,
    ⟨1, .startReadout 7 [] [] ⟨chars "a.fits", 2, true⟩⟩,
    ⟨1, .setParam 7 "expID" ['1'] true⟩,
    ⟨1, .startReadout 8 [] [] ⟨chars "b.fits", 3, true⟩⟩,
    ⟨1, .setParam 8 "expID" ['2'] true⟩]

/-- What the end of the first readout reports. -/
def doneReport (s : Traced) : Option (List (ExpID × Option Str)) :=
  (s.srv.handle ⟨1, .endReadout 7 ⟨true, 0⟩⟩).toOption.map fun r => dones r.2

/-- The sequence number of a request that needs a readout. -/
def Msg.seqno? : Msg → Option Int
  | .setParam q .. | .getParam q .. | .getStatus q | .endReadout q .. | .abortReadout q .. => some q
  | .configureImage q .. | .writeHeaderData q .. | .writePixelData q .. | .writePixHeader q .. => some q
  | .writePixPixels q .. | .synchronize q .. => some q
  | _ => none

/-- The first value in the reply to a request for no readout: an error, or for `GetStatus` the mode. -/
def Msg.refusal : Msg → Option Int
  | .getStatus _ => some Mode.inactive.code
  | .endReadout .. | .abortReadout .. | .configureImage .. => some (-1)
  | _ => none

/-- No context has the sequence number. -/
def Server.Inactive (s : Server) (q : Int) : Prop := q = 0 ∨ ∀ i, (s.ctx i).seqno ≠ q

/-- The request is answered or dropped: the program goes on, what it sends is defined and refuses the
request, and the contexts with their databases and images are as they were. -/
def Server.Answers (s : Server) (r : Request) : Prop :=
  ∃ t out, s.handle r = .ok (t, out) ∧
    (∀ vals, .reply vals ∈ out → none ∉ vals ∧ vals.head? = r.msg.refusal.map some) ∧
    .trans none ∉ out ∧ (∀ x, .done x none ∉ out) ∧
    t.ctx = s.ctx ∧ t.last = s.last ∧ t.live = s.live ∧ t.next = s.next

theorem Server.Inactive.getContext {s : Server} {q : Int} (h : s.Inactive q) : s.getContext q = none := by
  unfold Server.getContext
  split
  · rfl
  · rename_i hq
    have hne := h.resolve_left hq
    have hscan : s.scan q = none := first_eq_none.mpr hne
    have hlook : s.lookup q = none := by
      unfold Server.lookup
      split
      · rename_i i _
        rw [if_neg (hne i)]
        exact hscan
      · exact hscan
    rw [hlook]
    rfl

/-- `SetParam` for no readout sets an option of the server, or nothing. -/
theorem Server.setParam_none (s : Server) (tid : Int) (param : String) (value : Str) (ok : Bool) :
    ∃ p, s.setParam none tid param value ok = s.withPar p := by
  have hite : ∀ (c : Prop) [Decidable c] (t u : Server), (∃ p, t = s.withPar p) → (∃ p, u = s.withPar p) →
      ∃ p, (if c then t else u) = s.withPar p := by
    intro c _ t u ht hu
    split
    · exact ht
    · exact hu
  unfold setParam
  repeat' apply hite
  all_goals first
    | exact ⟨s.par, rfl⟩
    | exact ⟨_, rfl⟩

/-- Where no context has its sequence number a request is answered unless it ends, aborts or configures a
readout. -/
theorem unknown_answered_iff {s : Server} {r : Request} {q : Int} (hm : r.msg.seqno? = some q)
    (hq : s.Inactive q) :
    s.Answers r ↔
      (∀ o, r.msg ≠ .endReadout q o) ∧ (∀ o, r.msg ≠ .abortReadout q o) ∧
        ∀ imagename imagetype nimages o, r.msg ≠ .configureImage q imagename imagetype nimages o := by
  obtain ⟨tid, msg⟩ := r
  have hget := hq.getContext
  -- a handler that leaves the state as it is, with the reply `out`
  have hkept : ∀ {msg : Msg} (out : List Out), s.handle ⟨tid, msg⟩ = .ok (s, out) →
      (∀ vals, .reply vals ∈ out → none ∉ vals ∧ vals.head? = msg.refusal.map some) →
      .trans none ∉ out → (∀ x, .done x none ∉ out) → s.Answers ⟨tid, msg⟩ :=
    fun out h hr ht hd => ⟨s, out, h, hr, ht, hd, rfl, rfl, rfl, rfl⟩
  cases msg with
  | setParam p param value ok =>
    cases hm
    refine iff_of_true ?_ (by simp)
    obtain ⟨par, hpar⟩ := s.setParam_none tid param value ok
    refine ⟨s.withPar par, [], ?_, by simp, by simp, by simp, rfl, rfl, rfl, rfl⟩
    show Except.ok (s.handleSetParam tid q param value ok, []) = _
    rw [Server.handleSetParam, hget, ← hpar]
  | getParam p param =>
    cases hm
    refine iff_of_true (hkept [.value (s.getParam none param)] ?_ (by simp) (by simp) (by simp)) (by simp)
    show Except.ok (s.handleGetParam q param) = _
    rw [Server.handleGetParam, hget]
  | getStatus p =>
    cases hm
    refine iff_of_true (hkept [.reply [some Mode.inactive.code, some 0]] ?_ ?_ (by simp) (by simp)) (by simp)
    · show Except.ok (s.handleGetStatus q) = _
      rw [Server.handleGetStatus, hget]
    · simp [Msg.refusal]
  | writeHeaderData p kwgroup kwl o =>
    cases hm
    refine iff_of_true (hkept [] ?_ (by simp) (by simp) (by simp)) (by simp)
    show Except.ok (s.handleWriteHeaderData q kwgroup kwl o, []) = _
    rw [Server.handleWriteHeaderData, hget]
  | writePixelData p datalen swapped nstreams o =>
    cases hm
    refine iff_of_true (hkept [] ?_ (by simp) (by simp) (by simp)) (by simp)
    show s.handleWritePixelData q datalen swapped nstreams o = _
    rw [Server.handleWritePixelData, hget]
  | writePixHeader p datalen swapped nstreams o =>
    cases hm
    refine iff_of_true (hkept [] ?_ (by simp) (by simp) (by simp)) (by simp)
    show Except.ok (s.handleWritePixHeader q datalen swapped nstreams o, []) = _
    rw [Server.handleWritePixHeader, hget]
  | writePixPixels p errors =>
    cases hm
    refine iff_of_true (hkept [] ?_ (by simp) (by simp) (by simp)) (by simp)
    show s.handleWritePixPixels q errors = _
    rw [Server.handleWritePixPixels, hget]
  | synchronize p ok =>
    cases hm
    refine iff_of_true (hkept [.reply []] ?_ (by simp [Msg.refusal]) (by simp) (by simp)) (by simp)
    show s.handleSynchronize q ok = _
    rw [Server.handleSynchronize, hget]
  | endReadout p o =>
    cases hm
    refine iff_of_false ?_ fun h => h.1 o rfl
    rintro ⟨t, out, h, hr, -⟩
    have h : s.handleEndReadout q o = .ok (t, out) := h
    rw [Server.handleEndReadout, hget] at h
    cases h
    exact (hr _ List.mem_cons_self).1 (by simp)
  | abortReadout p o =>
    cases hm
    refine iff_of_false ?_ fun h => h.2.1 o rfl
    rintro ⟨t, out, h, hr, -⟩
    have h : s.handleAbortReadout q o = .ok (t, out) := h
    rw [Server.handleAbortReadout, hget] at h
    cases h
    exact (hr _ List.mem_cons_self).1 (by simp)
  | configureImage p imagename imagetype nimages o =>
    cases hm
    refine iff_of_false ?_ fun h => h.2.2 imagename imagetype nimages o rfl
    rintro ⟨t, out, h, -⟩
    have h : s.handleConfigureImage q imagename imagetype nimages o = .ok (t, out) := h
    rw [Server.handleConfigureImage, hget] at h
    cases h
  | _ => cases hm

/-- Two readouts that are in progress -/
def busyRequests : List Request :=
  [⟨1, .startReadout 5 ['o'] ['d'] ⟨['a'], 1, true⟩⟩, ⟨1, .startReadout 6 ['o'] ['d'] ⟨['b'], 2, true⟩⟩]

/-- During two readouts the status of a third one is asked for, and pixels for it are dropped. -/
theorem unknown_answered_busy :
    ∃ s, run Server.step (.start .default) busyRequests = some s ∧
      (s.ctx 0).seqno = 5 ∧ (s.ctx 1).seqno = 6 ∧ s.Inactive 7 ∧
      s.Answers ⟨1, .getStatus 7⟩ ∧ s.Answers ⟨2, .writePixelData 7 64 0 1 ⟨true, true, 0⟩⟩ := by
  obtain ⟨s, hr⟩ : ∃ s, run Server.step (.start .default) busyRequests = some s := ⟨_, rfl⟩
  have hctx : ((run Server.step (.start .default) busyRequests).map fun s =>
      decide (∀ i, (s.ctx i).seqno = if i = 0 then 5 else if i = 1 then 6 else 0)) = some true := by decide +kernel
  rw [hr, Option.map_some, Option.some.injEq, decide_eq_true_eq] at hctx
  have hq : s.Inactive 7 := .inr fun i => by
    rw [hctx]
    split_ifs <;> decide
  exact ⟨s, hr, hctx 0, hctx 1, hq,
    (unknown_answered_iff (r := ⟨1, .getStatus 7⟩) rfl hq).mpr ⟨nofun, nofun, nofun⟩,
    (unknown_answered_iff (r := ⟨2, .writePixelData 7 64 0 1 ⟨true, true, 0⟩⟩) rfl hq).mpr ⟨nofun, nofun, nofun⟩⟩

/-- Before any readout a `ConfigureImage` for the number 7 reads through a null pointer, and an
`EndReadout` replies with a status that was not set. -/
theorem unknown_not_answered :
    (Server.start .default).Inactive 7 ∧
      (Server.start .default).handle ⟨1, .configureImage 7 [] [] 0 ⟨true, 0⟩⟩ = .error .nullContext ∧
      (∃ t out, (Server.start .default).handle ⟨1, .endReadout 7 ⟨true, 0⟩⟩ = .ok (t, out) ∧
        .reply [some (-1), none] ∈ out) ∧
      ¬ ∀ (s : Server) (r : Request) (q : Int), r.msg.seqno? = some q → s.Inactive q → s.Answers r := by
  have hq : (Server.start .default).Inactive 7 := .inr fun _ h => nomatch h
  have hc : (Server.start .default).handle ⟨1, .configureImage 7 [] [] 0 ⟨true, 0⟩⟩ = .error .nullContext :=
    rfl
  refine ⟨hq, hc, ⟨_, _, rfl, List.mem_cons_self⟩, fun h => ?_⟩
  obtain ⟨t, out, hr, -⟩ := h _ ⟨1, .configureImage 7 [] [] 0 ⟨true, 0⟩⟩ 7 rfl hq
  rw [hc] at hr
  cases hr

end Ndhs.Mosdca
