import Ndhs.Pipeline.Pipe

/-!
# The system moves along the abstract pipeline

* `Net.Typed`: which messages a channel can hold.
* `Net.Trans`, `Typed.step_cases`: what one step can do, one constructor for each message that some
  process acts on. The proofs about the system go by cases on it.
* `Net.pipe`: the work on its way in the system. `Trans.sim`: a step of the system is a move of the
  abstract pipeline or leaves it as it is, so that every state reached is in a stage
  (`Ok.trans`).
-/

namespace Ndhs

open Function Machine Round

/-! ## What the messages are to their receivers -/

/-- The work that a message is for a manager. -/
def Msg.job : Msg → Option Job
  | ⟨.start, .process x⟩ => some (.process x)
  | ⟨.finish, .expID x⟩ => some (.finish x)
  | _ => none

/-- The sequence number that a message sets at a manager. -/
def Msg.optSeqno : Msg → Option Int
  | ⟨.set, .optionSeqno k⟩ => some k
  | _ => none

/-- The exposure that a message starts at a PXF client. -/
def Msg.feed : Msg → Option ExpID
  | ⟨.start, .process x⟩ => some x
  | _ => none

/-- The task id that a message sets at a PXF client. -/
def Msg.setTid : Msg → Option Int
  | ⟨.set, .dcaTid t⟩ => some t
  | _ => none

/-- The answer that a message is to the Supervisor. -/
def Msg.reply : Msg → Option Reply
  | ⟨.set, .imagetype x⟩ => some (.imagetype x)
  | ⟨.set, .smcDone x⟩ => some (.smcDone x)
  | ⟨.set, .cleanDone x⟩ => some (.cleanDone x)
  | _ => none

def Msg.transDone : Msg → Option Int
  | ⟨.set, .dcaTransDone k⟩ => some k
  | _ => none

def Msg.dcaDone : Msg → Option ExpID
  | ⟨.set, .dcaDone x _⟩ => some x
  | _ => none

theorem Mgr.myHandler_other (g : Mgr) {m : Msg} (h : m.job = none) :
    g.myHandler m = ({ g with seqno := m.optSeqno.getD g.seqno }, []) := by
  obtain ⟨subj, body⟩ := m
  cases subj <;> cases body <;> first | rfl | cases h

theorem Pxf.myHandler_other (p : Pxf) (procPages : Option String) (pages : List ExpPage) {m : Msg}
    (h : m.feed = none) : (p.myHandler procPages pages m).1.dcaTid = m.setTid.getD p.dcaTid ∧
      (p.myHandler procPages pages m).2 = ([], []) := by
  obtain ⟨subj, body⟩ := m
  cases subj <;> cases body <;> first | exact ⟨rfl, rfl⟩ | cases h

theorem Msg.job_eq_some {m : Msg} {j : Job} (h : m.job = some j) :
    (∃ x, m = ⟨.start, .process x⟩) ∨ ∃ x, m = ⟨.finish, .expID x⟩ := by
  obtain ⟨subj, body⟩ := m
  cases subj <;> cases body <;> first | exact .inl ⟨_, rfl⟩ | exact .inr ⟨_, rfl⟩ | cases h

theorem Msg.feed_eq_some {m : Msg} {x : ExpID} (h : m.feed = some x) : m = ⟨.start, .process x⟩ := by
  obtain ⟨subj, body⟩ := m
  cases subj <;> cases body <;> cases h
  rfl

/-! ## What is sent for the pages -/

section Requests

variable {p : ExpPage} {pages : List ExpPage} {procPages : Option String} {x : ExpID} {r : DcaReq}

/-- The requests for a page are for its data, under its number. -/
theorem ExpPage.mem_requests (h : r ∈ p.requests) :
    r.seqno = p.seqno ∧ r.isSup = false ∧ r.isTransfer = false := by
  unfold requests at h
  split at h
  · rw [List.eq_of_mem_replicate h]
    exact ⟨rfl, rfl, rfl⟩
  all_goals
    rcases List.mem_append.mp h with h | h
    · obtain ⟨j, -, h⟩ := List.mem_flatMap.mp h
      rcases List.mem_cons.mp h with rfl | h
      · exact ⟨rfl, rfl, rfl⟩
      · split at h
        · rw [List.mem_singleton.mp h]
          exact ⟨rfl, rfl, rfl⟩
        · cases h
    · rw [List.mem_singleton.mp h]
      exact ⟨rfl, rfl, rfl⟩

theorem mem_pxfProcess (h : r ∈ pxfProcess procPages pages x) :
    ∃ p ∈ pages, p.isSelected procPages x = true ∧ r ∈ p.requests := by
  obtain ⟨p, hp, hr⟩ := List.mem_flatMap.mp h
  have hown : p ∈ pages.filter fun p => p.isSelected procPages x :=
    (List.mem_append.mp hp).elim List.mem_of_mem_filter List.mem_of_mem_filter
  obtain ⟨hmem, hsel⟩ := List.mem_filter.mp hown
  exact ⟨p, hmem, hsel, hr⟩

end Requests

namespace Net

variable {n : Nat} {s t : Net n} {a : Act n}

/-! ## What one step can do -/

/-- The messages that each channel can hold. -/
structure Typed (s : Net n) : Prop where
  fromMgr : ∀ i, ∀ m ∈ s.fromMgr i, (∃ x, m = ⟨.set, .imagetype x⟩) ∨ (∃ x, m = ⟨.set, .smcDone x⟩) ∨
    ∃ x, m = ⟨.set, .cleanDone x⟩
  fromPxf : ∀ i, ∀ m ∈ s.fromPxf i, ∃ x, m = ⟨.set, .pxfDone x⟩
  fromDca : ∀ m ∈ s.fromDca, (∃ t, m = ⟨.set, .dcaTid t⟩) ∨ (∃ k, m = ⟨.set, .dcaTransDone k⟩) ∨
    (∃ a b, m = ⟨.set, .dcaTrans a b⟩) ∨ ∃ x fname, '/' ∈ fname ∧ m = ⟨.set, .dcaDone x fname⟩
  toDca : ∀ r ∈ s.toDca, r.isSup = true
  pxfToDca : ∀ i, ∀ r ∈ s.pxfToDca i, r.isSup = false

/-- No `EndReadout` is taken for which the DCA has no readout: its answer to such a request is not what it
was meant to be. -/
def Answered (s : Net n) : Act n → Prop
  | .dcaFromSup _ => ∀ d, s.dca = some d → ∀ r ∈ s.toDca.head?, d.Finds r
  | _ => True

/-- The oldest message to manager `i` is taken; the manager is now `g` and sends `out`. -/
def mgrTakes (s : Net n) (i : Fin n) (ms : List Msg) (g : Mgr) (out : List Msg) : Net n :=
  { s with
    mgr := update s.mgr i g
    toMgr := update s.toMgr i ms
    fromMgr := update s.fromMgr i (s.fromMgr i ++ out) }

/-- The oldest message of manager `i` to the Supervisor is taken. -/
def supTakes (s : Net n) (i : Fin n) (ms : List Msg) (evs : List (Event n)) : Net n :=
  { s with fromMgr := update s.fromMgr i ms }.note evs

/-- The DCA takes a request. -/
def Act.isDca : Act n → Bool
  | .dcaFromSup _ | .dcaFromPxf _ _ => true
  | _ => false

/-- The DCA goes on as `d'` after a request. -/
structure Goes (s : Net n) (d d' : Dca) : Prop where
  dca : s.dca = some d
  running : d.running = true
  tid : d'.tid = d.tid
  running' : d'.running = true

/-- What one step can do. -/
inductive Trans (s : Net n) : Act n → Net n → Prop where
  | panOpen (h : Str) (e : ExpID) (q : ProcQueue) (hq : pqAdd s.sup.queue e = some q)
    (hh : s.sup.isTriggerHost h = true) : Trans s (.panOpen h e) (s.setQueue q)
  | panClose (h : Str) (e : ExpID) (q : ProcQueue) (hq : pqSetStat s.sup.queue e .ready = some q) :
    Trans s (.panClose h e) (s.setQueue q)
  | openOther (h : Str) (e : ExpID) (hh : ¬ s.sup.isTriggerHost h = true) : Trans s (.panOpen h e) s
  | closeOther (h : Str) (e : ExpID) : Trans s (.panClose h e) s
  | collect (i : Fin n) (k : Nat) (p : ExpPage) : Trans s (.collect i k p) (s.collect i k p)
  | setOptionSeqno (v : Int) : Trans s (.setOptionSeqno v) (s.setOptionSeqno v)
  | wait (hc : ¬ (0 < pqNext s.sup.queue ∧ (s.sup.dcaDone < 0 ∨ n ≤ s.sup.dcaDone))) :
    Trans s .procNext s
  | start (q : ProcQueue) (h0 : 0 < pqNext s.sup.queue)
    (hc : s.sup.dcaDone < 0 ∨ n ≤ s.sup.dcaDone)
    (hq : pqSetStat s.sup.queue (pqNext s.sup.queue) .active = some q) :
    Trans s .procNext (s.startExposure (pqNext s.sup.queue) q)
  | dcaConnect (t : Int) (par : Mosdca.Params) (hd : s.dca = none) :
    Trans s (.dcaConnect t par)
      { s with dca := some ⟨t, .start par, true⟩, fromDca := s.fromDca ++ [⟨.set, .dcaTid t⟩] }
  | pxfConnect (i : Fin n) (hp : s.pxf i = none) :
    Trans s (.pxfConnect i) { s with pxf := update s.pxf i (some {}) }
  | mgrOther (i : Fin n) (m : Msg) (ms : List Msg) (hm : s.toMgr i = m :: ms) (hj : m.job = none) :
    Trans s (.mgrRecv i)
      (s.mgrTakes i ms { s.mgr i with seqno := m.optSeqno.getD (s.mgr i).seqno } [])
  | mgrProcess (i : Fin n) (x : ExpID) (ms : List Msg)
    (hm : s.toMgr i = ⟨.start, .process x⟩ :: ms) :
    Trans s (.mgrRecv i)
      (s.mgrTakes i ms ((s.mgr i).smcProcess x).1 ((s.mgr i).smcProcess x).2)
  | mgrFinish (i : Fin n) (x : ExpID) (ms : List Msg) (hm : s.toMgr i = ⟨.finish, .expID x⟩ :: ms) :
    Trans s (.mgrRecv i) (s.mgrTakes i ms ((s.mgr i).smcDelExpID x) [⟨.set, .cleanDone x⟩])
  | pxfOther (i : Fin n) (p p' : Pxf) (m : Msg) (ms : List Msg) (hp : s.pxf i = some p)
    (hm : s.toPxf i = m :: ms) (hf : m.feed = none) (ht : p'.dcaTid = m.setTid.getD p.dcaTid) :
    Trans s (.pxfRecv i)
      { s with pxf := update s.pxf i (some p'), toPxf := update s.toPxf i ms }
  | pxfProcess (i : Fin n) (p p' : Pxf) (x : ExpID) (ms : List Msg) (sent : List DcaReq)
    (hp : s.pxf i = some p) (hm : s.toPxf i = ⟨.start, .process x⟩ :: ms) (ht : p'.dcaTid = p.dcaTid)
    (hs : sent = [] ∨ ∃ k, sent = pxfProcess (s.pxfPages i) (s.mgr i).pages x ++ [.transferComplete k]) :
    Trans s (.pxfRecv i)
      { s with
        pxf := update s.pxf i (some p')
        toPxf := update s.toPxf i ms
        pxfToDca := update s.pxfToDca i (s.pxfToDca i ++ sent)
        fromPxf := update s.fromPxf i (s.fromPxf i ++ [⟨.set, .pxfDone (fmt6 x)⟩]) }
  | dcaQuiet (o : Outcome) (d d' : Dca) (r : DcaReq) (rs : List DcaReq) (out : List Msg)
    (hd : s.Goes d d') (hr : s.toDca = r :: rs) (he : r.isEnd = false) (hout : Dca.Traffic out)
    (hid : d.Allows s.sup.tid r → d'.expID = r.newID.getD d.expID) :
    Trans s (.dcaFromSup o) ({ s with toDca := rs }.dcaTakes d' out)
  | dcaEnd (o : Outcome) (d d' : Dca) (k a b : Int) (fname : Str) (rs : List DcaReq) (hd : s.Goes d d')
    (hr : s.toDca = .endReadout k :: rs) (hid : d'.expID = d.expID) (hf : '/' ∈ fname) :
    Trans s (.dcaFromSup o) ({ s with toDca := rs }.dcaTakes d'
      [⟨.set, .dcaTrans a b⟩, ⟨.set, .dcaDone (fmt6 d.expID) fname⟩])
  | dcaData (i : Fin n) (o : Outcome) (d d' : Dca) (r : DcaReq) (rs : List DcaReq) (out : List Msg)
    (hd : s.Goes d d') (hr : s.pxfToDca i = r :: rs) (ht : r.isTransfer = false) (hout : Dca.Traffic out)
    (hid : d'.expID = d.expID) :
    Trans s (.dcaFromPxf i o) ({ s with pxfToDca := update s.pxfToDca i rs }.dcaTakes d' out)
  | dcaTransfer (i : Fin n) (o : Outcome) (d : Dca) (k : Int) (rs : List DcaReq) (hd : s.Goes d d)
    (hr : s.pxfToDca i = .transferComplete k :: rs) :
    Trans s (.dcaFromPxf i o) (({ s with pxfToDca := update s.pxfToDca i rs }.dcaTakes d
      [⟨.set, .dcaTransDone k⟩]).note [.transferComplete i])
  | dcaStops (a : Act n) (d : Dca) (ha : a.isDca = true) (hd : s.dca = some d) (hrun : d.running = true) :
    Trans s a (s.dcaStops d)
  | imagetype (i : Fin n) (x : ExpID) (ms : List Msg) (hm : s.fromMgr i = ⟨.set, .imagetype x⟩ :: ms) :
    Trans s (.supFromMgr i) ((s.supTakes i ms []).onImagetype x)
  | smcDone (i : Fin n) (x : ExpID) (ms : List Msg) (hm : s.fromMgr i = ⟨.set, .smcDone x⟩ :: ms)
    (hc : ¬ (n : Int) ≤ s.sup.npxfStarted + 1) :
    Trans s (.supFromMgr i)
      { s.supTakes i ms [.smcDone i x] with
        sup := { s.sup with npxfStarted := s.sup.npxfStarted + 1 } }
  | startPxf (i : Fin n) (x : ExpID) (ms : List Msg) (hm : s.fromMgr i = ⟨.set, .smcDone x⟩ :: ms)
    (hc : (n : Int) ≤ s.sup.npxfStarted + 1) :
    Trans s (.supFromMgr i)
      ((s.supTakes i ms [.smcDone i x]).startPxf x (s.sup.npxfStarted + 1 - n))
  | cleanDone (i : Fin n) (x : ExpID) (ms : List Msg) (q : ProcQueue)
    (hm : s.fromMgr i = ⟨.set, .cleanDone x⟩ :: ms)
    (hq : pqSetStat s.sup.queue x .available = some q) :
    Trans s (.supFromMgr i) ((s.supTakes i ms [.cleanDone i x]).onCleanDone q)
  | pxfDone (i : Fin n) (m : Msg) (ms : List Msg) (hm : s.fromPxf i = m :: ms) :
    Trans s (.supFromPxf i) { s with fromPxf := update s.fromPxf i ms }.onPxfDone
  | dcaTid (t : Int) (ms : List Msg) (hm : s.fromDca = ⟨.set, .dcaTid t⟩ :: ms) :
    Trans s .supFromDca ({ s with fromDca := ms }.onDcaTid t)
  | dcaTrans (a b : Int) (ms : List Msg) (hm : s.fromDca = ⟨.set, .dcaTrans a b⟩ :: ms) :
    Trans s .supFromDca { s with fromDca := ms }
  | transDone (k : Int) (ms : List Msg) (hm : s.fromDca = ⟨.set, .dcaTransDone k⟩ :: ms)
    (hc : ¬ (n : Int) ≤ s.sup.npxfTransferred + 1) :
    Trans s .supFromDca
      { s with
        fromDca := ms
        sup := { s.sup with npxfTransferred := s.sup.npxfTransferred + 1 } }
  | endReadout (k : Int) (ms : List Msg) (hm : s.fromDca = ⟨.set, .dcaTransDone k⟩ :: ms)
    (hc : (n : Int) ≤ s.sup.npxfTransferred + 1) :
    Trans s .supFromDca ({ s with fromDca := ms }.endReadout k (s.sup.npxfTransferred + 1 - n))
  | dcaDone (x : ExpID) (fname : Str) (ms : List Msg) (q : ProcQueue)
    (hm : s.fromDca = ⟨.set, .dcaDone x fname⟩ :: ms) (hq : pqSetStat s.sup.queue x .done = some q) :
    Trans s .supFromDca ({ s with fromDca := ms }.onDcaDone x q)

theorem mgrTakes_nil (i : Fin n) (ms : List Msg) (g : Mgr) :
    s.mgrTakes i ms g [] = { s with mgr := update s.mgr i g, toMgr := update s.toMgr i ms } := by
  rw [mgrTakes, List.append_nil, update_eq_self]

theorem onSmcDone_last {x : ExpID} (hc : (n : Int) ≤ s.sup.npxfStarted + 1) :
    s.onSmcDone x = s.startPxf x (s.sup.npxfStarted + 1 - n) := if_pos hc

theorem onSmcDone_wait {x : ExpID} (hc : ¬ (n : Int) ≤ s.sup.npxfStarted + 1) :
    s.onSmcDone x = { s with sup := { s.sup with npxfStarted := s.sup.npxfStarted + 1 } } :=
  if_neg hc

theorem onTransDone_last {k : Int} (hc : (n : Int) ≤ s.sup.npxfTransferred + 1) :
    s.onTransDone k = s.endReadout k (s.sup.npxfTransferred + 1 - n) := if_pos hc

theorem onTransDone_wait {k : Int} (hc : ¬ (n : Int) ≤ s.sup.npxfTransferred + 1) :
    s.onTransDone k = { s with sup := { s.sup with npxfTransferred := s.sup.npxfTransferred + 1 } } :=
  if_neg hc

/-- The DCA takes a request of the Supervisor. -/
theorem Typed.dcaFromSup_cases (h : s.Typed) {o : Outcome} (hk : s.Answered (.dcaFromSup o))
    (hst : s.step (.dcaFromSup o) = some t) : Trans s (.dcaFromSup o) t := by
  simp only [step] at hst
  split at hst
  · rename_i d r rs hd hr
    split at hst
    · rename_i hrun
      split at hst
      · rename_i d' out hreq
        cases hst
        obtain ⟨htid, hrun'⟩ := Dca.request_same hreq
        have hgo : s.Goes d d' := ⟨hd, hrun, htid, hrun'.trans hrun⟩
        have hsup := h.toDca r (hr ▸ List.mem_cons_self)
        have hfind := hk d hd r (hr ▸ rfl)
        cases he : r.isEnd with
        | false =>
          have htr : r.isTransfer = false := by
            cases r <;> first | rfl | cases hsup
          obtain ⟨hid, hout⟩ := Dca.request_quiet hreq he htr
          exact .dcaQuiet o d d' r rs out hgo hr he hout hid
        | true =>
          obtain ⟨k, rfl⟩ : ∃ k, r = .endReadout k := by
            cases r <;> first | exact ⟨_, rfl⟩ | cases he
          obtain ⟨hid, a, b, fname, hf, rfl⟩ := Dca.request_end hreq hfind
          exact .dcaEnd o d d' k a b fname rs hgo hr hid hf
      · cases hst
        exact .dcaStops _ d rfl hd hrun
    · cases hst
  · cases hst

/-- The DCA takes a request of a PXF client. -/
theorem Typed.dcaFromPxf_cases (h : s.Typed) {i : Fin n} {o : Outcome} (hst : s.step (.dcaFromPxf i o) = some t) :
    Trans s (.dcaFromPxf i o) t := by
  simp only [step] at hst
  split at hst
  · rename_i d r rs hd hr
    split at hst
    · rename_i hrun
      split at hst
      · rename_i d' out hreq
        cases hst
        obtain ⟨htid, hrun'⟩ := Dca.request_same hreq
        have hgo : s.Goes d d' := ⟨hd, hrun, htid, hrun'.trans hrun⟩
        have hsup := h.pxfToDca i r (hr ▸ List.mem_cons_self)
        cases htr : r.isTransfer with
        | false =>
          have he : r.isEnd = false ∧ r.newID = none := by
            cases r <;> first | exact ⟨rfl, rfl⟩ | cases hsup
          obtain ⟨hid, hout⟩ := Dca.request_quiet hreq he.1 htr
          have hallow : d.Allows 0 r := fun hn => by rw [he.2] at hn; cases hn
          have hid := hid hallow
          rw [he.2] at hid
          exact .dcaData i o d d' r rs out hgo hr htr hout hid
        | true =>
          obtain ⟨k, rfl⟩ : ∃ k, r = .transferComplete k := by
            cases r <;> first | exact ⟨_, rfl⟩ | cases htr
          rw [Dca.request_transfer] at hreq
          cases hreq
          exact .dcaTransfer i o d k rs hgo hr
      · cases hst
        exact .dcaStops _ d rfl hd hrun
    · cases hst
  · cases hst

/-- Every step is one of these. -/
theorem Typed.step_cases (h : s.Typed) (hk : s.Answered a) (hst : s.step a = some t) : Trans s a t := by
  cases a with
  | panOpen host e =>
    simp only [step] at hst
    split at hst
    · rename_i hh
      obtain ⟨q, hq, rfl⟩ := Option.map_eq_some_iff.mp hst
      exact .panOpen host e q hq hh
    · rename_i hh
      cases hst; exact .openOther host e hh
  | panClose host e =>
    simp only [step] at hst
    split at hst
    · obtain ⟨q, hq, rfl⟩ := Option.map_eq_some_iff.mp hst
      exact .panClose host e q hq
    · cases hst; exact .closeOther host e
  | collect i k p => cases hst; exact .collect i k p
  | setOptionSeqno v => cases hst; exact .setOptionSeqno v
  | procNext =>
    simp only [step, supProcNext] at hst
    split at hst
    · rename_i hc
      obtain ⟨q, hq, rfl⟩ := Option.map_eq_some_iff.mp hst
      exact .start q hc.1 hc.2 hq
    · rename_i hc
      cases hst; exact .wait hc
  | dcaConnect k par =>
    simp only [step] at hst
    split at hst
    · rename_i hd
      split at hst
      · cases hst; exact .dcaConnect k par hd
      · cases hst
    · cases hst
  | pxfConnect i =>
    simp only [step] at hst
    split at hst
    · rename_i hp
      cases hst; exact .pxfConnect i hp
    · cases hst
  | mgrRecv i =>
    simp only [step] at hst
    split at hst
    · cases hst
    · rename_i m ms hm
      cases hst
      cases hj : m.job with
      | none =>
        show Trans s _ (s.mgrTakes i ms ((s.mgr i).myHandler m).1 ((s.mgr i).myHandler m).2)
        rw [Mgr.myHandler_other _ hj]
        exact .mgrOther i m ms hm hj
      | some j =>
        rcases Msg.job_eq_some hj with ⟨x, rfl⟩ | ⟨x, rfl⟩
        · exact .mgrProcess i x ms hm
        · exact .mgrFinish i x ms hm
  | pxfRecv i =>
    simp only [step] at hst
    split at hst
    · rename_i p m ms hp hm
      cases hst
      cases hf : m.feed with
      | none =>
        obtain ⟨ht, hout⟩ := Pxf.myHandler_other p (s.pxfPages i) (s.mgr i).pages hf
        rw [hout]
        simp only [List.append_nil, update_eq_self, ite_self]
        exact .pxfOther i p _ m ms hp hm hf ht
      | some x =>
        obtain rfl := Msg.feed_eq_some hf
        by_cases hd : s.dca.map Dca.tid = some p.dcaTid
        · rw [if_pos hd]
          exact .pxfProcess i p _ x ms _ hp hm rfl (.inr ⟨_, rfl⟩)
        · rw [if_neg hd, ← update_eq_self i s.pxfToDca, ← List.append_nil (s.pxfToDca i)]
          exact .pxfProcess i p _ x ms _ hp hm rfl (.inl rfl)
    · cases hst
  | dcaFromSup o => exact h.dcaFromSup_cases hk hst
  | dcaFromPxf i o => exact h.dcaFromPxf_cases hst
  | supFromMgr i =>
    simp only [step] at hst
    split at hst
    · cases hst
    · rename_i m ms hm
      rcases h.fromMgr i m (hm ▸ List.mem_cons_self) with ⟨x, rfl⟩ | ⟨x, rfl⟩ | ⟨x, rfl⟩
      · cases hst; exact .imagetype i x ms hm
      · cases hst
        by_cases hc : (n : Int) ≤ s.sup.npxfStarted + 1
        · rw [onSmcDone_last]
          · exact .startPxf i x ms hm hc
          · exact hc
        · rw [onSmcDone_wait]
          · exact .smcDone i x ms hm hc
          · exact hc
      · obtain ⟨q, hq, rfl⟩ := Option.map_eq_some_iff.mp hst
        exact .cleanDone i x ms q hm hq
  | supFromPxf i =>
    simp only [step] at hst
    split at hst
    · cases hst
    · rename_i m ms hm
      obtain ⟨x, rfl⟩ := h.fromPxf i m (hm ▸ List.mem_cons_self)
      cases hst; exact .pxfDone i _ ms hm
  | supFromDca =>
    simp only [step] at hst
    split at hst
    · cases hst
    · rename_i m ms hm
      rcases h.fromDca m (hm ▸ List.mem_cons_self) with ⟨k, rfl⟩ | ⟨k, rfl⟩ | ⟨b, c, rfl⟩ | ⟨x, fname, hf, rfl⟩
      · cases hst; exact .dcaTid k ms hm
      · cases hst
        by_cases hc : (n : Int) ≤ s.sup.npxfTransferred + 1
        · rw [onTransDone_last]
          · exact .endReadout k ms hm hc
          · exact hc
        · rw [onTransDone_wait]
          · exact .transDone k ms hm hc
          · exact hc
      · cases hst; exact .dcaTrans b c ms hm
      · simp only [supIOHandler, if_pos hf] at hst
        obtain ⟨q, hq, rfl⟩ := Option.map_eq_some_iff.mp hst
        exact .dcaDone x fname ms q hm hq

/-! ## The channels keep their types -/

section Typing

variable {α : Type} {P : α → Prop}

theorem forall_update {f : Fin n → List α} {L : List α} (i : Fin n) (h : ∀ j, ∀ m ∈ f j, P m)
    (hL : ∀ m ∈ L, P m) (j : Fin n) : ∀ m ∈ update f i L j, P m := by
  by_cases hj : j = i
  · subst hj
    rwa [update_self]
  · rw [update_of_ne hj]
    exact h j

theorem forall_tail {L : List α} {m : α} {ms : List α} (h : ∀ m ∈ L, P m) (hm : L = m :: ms) :
    ∀ m ∈ ms, P m := fun x hx => h x (hm ▸ List.mem_cons_of_mem m hx)

theorem forall_append {L L' : List α} (h : ∀ m ∈ L, P m) (h' : ∀ m ∈ L', P m) : ∀ m ∈ L ++ L', P m :=
  fun m hm => (List.mem_append.mp hm).elim (h m) (h' m)

theorem forall_snoc {L : List α} {m : α} (h : ∀ m ∈ L, P m) (hm : P m) : ∀ x ∈ L ++ [m], P x :=
  forall_append h fun _ hx => List.mem_singleton.mp hx ▸ hm

end Typing

theorem mem_sendDca {r : DcaReq} {rs : List DcaReq} (h : r ∈ (s.sendDca rs).toDca) :
    r ∈ s.toDca ∨ r ∈ rs := by
  unfold sendDca at h
  simp only at h
  split at h
  · simpa using h
  · exact .inl h

theorem Typed.trans (h : s.Typed) (ht : Trans s a t) : t.Typed := by
  cases ht with
  | panOpen | panClose | setOptionSeqno | pxfConnect | pxfOther | collect | dcaStops =>
    exact ⟨h.fromMgr, h.fromPxf, h.fromDca, h.toDca, h.pxfToDca⟩
  | wait | openOther | closeOther => exact h
  | start q h0 hc hq => exact ⟨h.fromMgr, h.fromPxf, h.fromDca, h.toDca, h.pxfToDca⟩
  | dcaConnect k par hd =>
    exact ⟨h.fromMgr, h.fromPxf, forall_snoc h.fromDca (.inl ⟨k, rfl⟩), h.toDca, h.pxfToDca⟩
  | mgrOther i m ms hm hj =>
    rw [mgrTakes_nil]
    exact ⟨h.fromMgr, h.fromPxf, h.fromDca, h.toDca, h.pxfToDca⟩
  | mgrProcess i x ms hm =>
    refine ⟨forall_update i h.fromMgr fun m hx => ?_, h.fromPxf, h.fromDca, h.toDca, h.pxfToDca⟩
    rcases List.mem_append.mp hx with hx | hx
    · exact h.fromMgr i m hx
    · rcases List.mem_append.mp hx with hx | hx
      · obtain ⟨p, -, rfl⟩ := List.mem_map.mp hx
        exact .inl ⟨_, rfl⟩
      · exact .inr (.inl ⟨_, List.mem_singleton.mp hx⟩)
  | mgrFinish i x ms hm =>
    exact ⟨forall_update i h.fromMgr (forall_snoc (h.fromMgr i) (.inr (.inr ⟨x, rfl⟩))), h.fromPxf,
      h.fromDca, h.toDca, h.pxfToDca⟩
  | pxfProcess i p p' x ms sent hp hm ht hs =>
    refine ⟨h.fromMgr, forall_update i h.fromPxf (forall_snoc (h.fromPxf i) ⟨_, rfl⟩), h.fromDca,
      h.toDca, forall_update i h.pxfToDca ?_⟩
    rcases hs with rfl | ⟨k, rfl⟩
    · rw [List.append_nil]
      exact h.pxfToDca i
    · refine forall_append (h.pxfToDca i) (forall_snoc (fun r hr => ?_) rfl)
      obtain ⟨p, -, -, hr⟩ := mem_pxfProcess hr
      exact (ExpPage.mem_requests hr).2.1
  | dcaQuiet o d d' r rs out hd hr he hout hid =>
    refine ⟨h.fromMgr, h.fromPxf, forall_append h.fromDca fun m hm => ?_, forall_tail h.toDca hr, h.pxfToDca⟩
    exact .inr (.inr (.inl (hout.mem hm)))
  | dcaEnd o d d' k a b fname rs hd hr hid hf =>
    refine ⟨h.fromMgr, h.fromPxf, forall_append h.fromDca fun m hm => ?_, forall_tail h.toDca hr, h.pxfToDca⟩
    rcases List.mem_cons.mp hm with rfl | hm
    · exact .inr (.inr (.inl ⟨a, b, rfl⟩))
    · exact .inr (.inr (.inr ⟨_, fname, hf, List.mem_singleton.mp hm⟩))
  | dcaData i o d d' r rs out hd hr htr hout hid =>
    refine ⟨h.fromMgr, h.fromPxf, forall_append h.fromDca fun m hm => ?_, h.toDca,
      forall_update i h.pxfToDca (forall_tail (h.pxfToDca i) hr)⟩
    exact .inr (.inr (.inl (hout.mem hm)))
  | dcaTransfer i o d k rs hd hr =>
    exact ⟨h.fromMgr, h.fromPxf, forall_snoc h.fromDca (.inr (.inl ⟨k, rfl⟩)), h.toDca,
      forall_update i h.pxfToDca (forall_tail (h.pxfToDca i) hr)⟩
  | imagetype i x ms hm =>
    refine ⟨forall_update i h.fromMgr (forall_tail (h.fromMgr i) hm), h.fromPxf, h.fromDca,
      fun r hr => ?_, h.pxfToDca⟩
    rcases mem_sendDca hr with hr | hr
    · exact h.toDca r hr
    · simp only [readoutRequests, List.mem_cons, List.not_mem_nil, or_false] at hr
      rcases hr with rfl | rfl | rfl | rfl <;> rfl
  | smcDone i x ms hm hc | startPxf i x ms hm hc | cleanDone i x ms q hm hq =>
    exact ⟨forall_update i h.fromMgr (forall_tail (h.fromMgr i) hm), h.fromPxf, h.fromDca, h.toDca,
      h.pxfToDca⟩
  | pxfDone i m ms hm =>
    exact ⟨h.fromMgr, forall_update i h.fromPxf (forall_tail (h.fromPxf i) hm), h.fromDca, h.toDca,
      h.pxfToDca⟩
  | dcaTid k ms hm | dcaTrans _ _ ms hm | transDone k ms hm hc | dcaDone _ _ ms q hm hq =>
    exact ⟨h.fromMgr, h.fromPxf, forall_tail h.fromDca hm, h.toDca, h.pxfToDca⟩
  | endReadout k ms hm hc =>
    refine ⟨h.fromMgr, h.fromPxf, forall_tail h.fromDca hm, fun r hr => ?_, h.pxfToDca⟩
    rcases mem_sendDca hr with hr | hr
    · exact h.toDca r hr
    · rw [List.mem_singleton.mp hr]
      rfl

/-! ## The abstract pipeline of a state -/

/-- The work on its way. -/
def pipe (s : Net n) : Pipe n where
  jobs i := (s.toMgr i).filterMap Msg.job
  replies i := (s.fromMgr i).filterMap Msg.reply
  feeds i := (s.toPxf i).filterMap Msg.feed
  xfers i := (s.pxfToDca i).countP DcaReq.isTransfer
  trans := (s.fromDca.filterMap Msg.transDone).length
  ends := s.toDca.countP DcaReq.isEnd
  dones := s.fromDca.filterMap Msg.dcaDone
  started := s.sup.npxfStarted
  transferred := s.sup.npxfTransferred
  cleaned := s.sup.dcaDone
  log := s.log

theorem map_update {α β : Type} (f : α → β) (g : Fin n → α) (i : Fin n) (v : α) :
    (fun j => f (update g i v j)) = update (fun j => f (g j)) i (f v) := by
  funext j
  exact apply_update (fun _ => f) g i v j

/-- What a broadcast to the PXF clients adds to the work of one of them. -/
theorem feeds_bcastPxf (m : Msg) (i : Fin n) : (s.bcastPxf m).pipe.feeds i =
    if (s.pxf i).isSome then s.pipe.feeds i ++ m.feed.toList else s.pipe.feeds i := by
  simp only [pipe, bcastPxf]
  split
  · rw [List.filterMap_append]
    cases hf : m.feed with
    | none => rw [List.filterMap_cons_none hf]; rfl
    | some x => rw [List.filterMap_cons_some hf]; rfl
  · rfl

theorem pipe_bcastPxf {m : Msg} (h : m.feed = none) : (s.bcastPxf m).pipe = s.pipe := by
  refine Pipe.ext rfl rfl (funext fun i => ?_) rfl rfl rfl rfl rfl rfl rfl rfl
  rw [feeds_bcastPxf, h, Option.toList_none, List.append_nil, ite_self]

theorem ends_sendDca (rs : List DcaReq) : (s.sendDca rs).pipe.ends =
    s.pipe.ends + if s.dca.map Dca.tid = some s.sup.dcaTid then rs.countP DcaReq.isEnd else 0 := by
  simp only [pipe, sendDca]
  split
  · exact List.countP_append
  · rfl

theorem pipe_sendDca {rs : List DcaReq} (h : rs.countP DcaReq.isEnd = 0) : (s.sendDca rs).pipe = s.pipe := by
  refine Pipe.ext rfl rfl rfl rfl rfl ?_ rfl rfl rfl rfl rfl
  rw [ends_sendDca, h, ite_self]
  rfl

/-- What the DCA tells about its traffic is no work. -/
theorem filterMap_traffic {out : List Msg} (h : Dca.Traffic out) :
    out.filterMap Msg.transDone = [] ∧ out.filterMap Msg.dcaDone = [] := by
  constructor
  all_goals
    refine List.filterMap_eq_nil_iff.mpr fun m hm => ?_
    obtain ⟨a, b, rfl⟩ := h.mem hm
    rfl

/-- The requests for pages are no transfers. -/
theorem countP_pxfProcess (procPages : Option String) (pages : List ExpPage) (x : ExpID) :
    (pxfProcess procPages pages x).countP DcaReq.isTransfer = 0 := by
  refine List.countP_eq_zero.mpr fun r hr => ?_
  obtain ⟨p, -, -, hr⟩ := mem_pxfProcess hr
  rw [(ExpPage.mem_requests hr).2.2]
  exact Bool.false_ne_true

theorem replies_smcProcess (g : Mgr) (x : ExpID) : (g.smcProcess x).2.filterMap Msg.reply =
    List.replicate (g.pages.filter (g.isType x)).length (.imagetype (fmt6 x)) ++
      [.smcDone (fmt6 x)] := by
  simp only [Mgr.smcProcess]
  rw [List.filterMap_append, List.map_const', List.filterMap_replicate]
  rfl

/-- A step of the system is a move of the pipeline, or the pipeline stays. -/
theorem Trans.sim (ht : Trans s a t) : t.pipe = s.pipe ∨ ∃ m, s.pipe.step m = some t.pipe := by
  cases ht with
  | panOpen | panClose | openOther | closeOther | collect | wait | dcaStops => exact .inl rfl
  | setOptionSeqno v =>
    refine .inl (Pipe.ext (funext fun i => ?_) rfl rfl rfl rfl rfl rfl rfl rfl rfl rfl)
    exact List.filterMap_append.trans (List.append_nil _)
  | start q h0 hc hq =>
    refine .inr ⟨.bcast (pqNext s.sup.queue), (if_pos hc).trans (congrArg some ?_)⟩
    refine Pipe.ext (funext fun i => ?_) rfl (funext fun i => ?_) rfl rfl rfl rfl rfl rfl rfl rfl
    · show _ = ((s.toMgr i ++ [_]) ++ [_]).filterMap Msg.job
      rw [List.filterMap_append, List.filterMap_append]
      exact congrArg (· ++ _) (List.append_nil _).symm
    · exact (congrFun (congrArg Pipe.feeds (pipe_bcastPxf (s := s) rfl)) i).symm
  | dcaConnect k par hd =>
    left
    simp [pipe, Msg.transDone, Msg.dcaDone]
  | pxfConnect i hp => exact .inl rfl
  | mgrOther i m ms hm hj =>
    left
    rw [mgrTakes_nil]
    simp only [pipe, Pipe.mk.injEq, and_true]
    rw [map_update (List.filterMap Msg.job)]
    refine update_eq_iff.mpr ⟨?_, fun _ _ => rfl⟩
    rw [hm, List.filterMap_cons_none hj]
  | mgrProcess i x ms hm =>
    refine .inr ⟨.process i ((s.mgr i).pages.filter ((s.mgr i).isType x)).length, ?_⟩
    have hj : s.pipe.jobs i = .process x :: ms.filterMap Msg.job := by
      simp [pipe, hm, Msg.job]
    simp only [Pipe.step, hj]
    refine congrArg some (Pipe.ext ?_ ?_ rfl rfl rfl rfl rfl rfl rfl rfl rfl)
    · exact (map_update (List.filterMap Msg.job) s.toMgr i ms).symm
    · refine Eq.trans ?_ (map_update (List.filterMap Msg.reply) s.fromMgr i _).symm
      rw [List.filterMap_append, replies_smcProcess]
      rfl
  | mgrFinish i x ms hm =>
    refine .inr ⟨.finish i, ?_⟩
    have hj : s.pipe.jobs i = .finish x :: ms.filterMap Msg.job := by
      simp [pipe, hm, Msg.job]
    simp only [Pipe.step, hj]
    refine congrArg some (Pipe.ext ?_ ?_ rfl rfl rfl rfl rfl rfl rfl rfl rfl)
    · exact (map_update (List.filterMap Msg.job) s.toMgr i ms).symm
    · refine Eq.trans ?_ (map_update (List.filterMap Msg.reply) s.fromMgr i _).symm
      rw [List.filterMap_append]
      rfl
  | pxfOther i p p' m ms hp hm hf ht =>
    left
    simp only [pipe, Pipe.mk.injEq, and_true, true_and]
    rw [map_update (List.filterMap Msg.feed)]
    refine update_eq_iff.mpr ⟨?_, fun _ _ => rfl⟩
    rw [hm, List.filterMap_cons_none hf]
  | pxfProcess i p p' x ms sent hp hm ht hs =>
    refine .inr ⟨.feed i (!sent.isEmpty), ?_⟩
    have hf : s.pipe.feeds i = x :: ms.filterMap Msg.feed := by
      simp [pipe, hm, Msg.feed]
    simp only [Pipe.step, hf]
    refine congrArg some (Pipe.ext rfl rfl ?_ ?_ rfl rfl rfl rfl rfl rfl rfl)
    · exact (map_update (List.filterMap Msg.feed) s.toPxf i ms).symm
    · refine Eq.trans ?_ (map_update (List.countP DcaReq.isTransfer) s.pxfToDca i _).symm
      rw [List.countP_append]
      rcases hs with rfl | ⟨k, rfl⟩
      · rfl
      · rw [List.countP_append, countP_pxfProcess,
          List.isEmpty_eq_false_iff.mpr (List.append_ne_nil_of_right_ne_nil _ (List.cons_ne_nil _ _))]
        rfl
  | dcaQuiet o d d' r rs out hd hr he hout hid =>
    obtain ⟨h1, h2⟩ := filterMap_traffic hout
    left
    simp [pipe, dcaTakes, hr, he, h1, h2]
  | dcaEnd o d d' k a b fname rs hd hr hid hf =>
    refine .inr ⟨.endReadout (fmt6 d.expID), ?_⟩
    have he : s.pipe.ends = rs.countP DcaReq.isEnd + 1 := by
      simp only [pipe, hr]
      exact List.countP_cons_of_pos rfl
    simp only [Pipe.step, he]
    refine congrArg some (Pipe.ext rfl rfl rfl rfl ?_ rfl ?_ rfl rfl rfl rfl)
    · simp [pipe, dcaTakes, Msg.transDone]
    · show _ = (s.fromDca ++ [_, _]).filterMap Msg.dcaDone
      rw [List.filterMap_append]
      rfl
  | dcaData i o d d' r rs out hd hr htr hout hid =>
    obtain ⟨h1, h2⟩ := filterMap_traffic hout
    left
    refine Pipe.ext rfl rfl rfl ?_ ?_ rfl ?_ rfl rfl rfl rfl
    · refine (map_update (List.countP DcaReq.isTransfer) s.pxfToDca i rs).trans
        (update_eq_iff.mpr ⟨?_, fun _ _ => rfl⟩)
      show _ = (s.pxfToDca i).countP DcaReq.isTransfer
      rw [hr, List.countP_cons_of_neg (by rw [htr]; exact Bool.false_ne_true)]
    · simp [pipe, dcaTakes, h1]
    · simp [pipe, dcaTakes, h2]
  | dcaTransfer i o d k rs hd hr =>
    refine .inr ⟨.transfer i, ?_⟩
    have hx : s.pipe.xfers i = rs.countP DcaReq.isTransfer + 1 := by
      simp only [pipe, hr]
      exact List.countP_cons_of_pos rfl
    simp only [Pipe.step, hx]
    refine congrArg some (Pipe.ext rfl rfl rfl ?_ ?_ rfl ?_ rfl rfl rfl rfl)
    · exact (map_update (List.countP DcaReq.isTransfer) s.pxfToDca i rs).symm
    · simp [pipe, note, dcaTakes, Msg.transDone]
    · simp [pipe, note, dcaTakes, Msg.dcaDone]
  | imagetype i x ms hm =>
    refine .inr ⟨.imagetype i, ?_⟩
    have hr : s.pipe.replies i = .imagetype x :: ms.filterMap Msg.reply := by
      simp [pipe, hm, Msg.reply]
    simp only [Pipe.step, hr]
    refine congrArg some (Pipe.ext rfl ?_ rfl rfl rfl ?_ rfl rfl rfl rfl rfl)
    · exact (map_update (List.filterMap Msg.reply) s.fromMgr i ms).symm
    · exact (congrArg Pipe.ends (pipe_sendDca rfl)).symm
  | smcDone i x ms hm hc =>
    refine .inr ⟨.smcDone i fun _ => false, ?_⟩
    have hr : s.pipe.replies i = .smcDone x :: ms.filterMap Msg.reply := by
      simp [pipe, hm, Msg.reply]
    simp only [Pipe.step, hr]
    refine congrArg some ((if_neg hc).trans (Pipe.ext rfl ?_ rfl rfl rfl rfl rfl rfl rfl rfl rfl))
    exact (map_update (List.filterMap Msg.reply) s.fromMgr i ms).symm
  | startPxf i x ms hm hc =>
    refine .inr ⟨.smcDone i fun j => (s.pxf j).isSome, ?_⟩
    have hr : s.pipe.replies i = .smcDone x :: ms.filterMap Msg.reply := by
      simp [pipe, hm, Msg.reply]
    simp only [Pipe.step, hr]
    refine congrArg some ((if_pos hc).trans (Pipe.ext rfl ?_ ?_ rfl rfl rfl rfl rfl rfl rfl rfl))
    · exact (map_update (List.filterMap Msg.reply) s.fromMgr i ms).symm
    · funext j
      refine Eq.symm ((feeds_bcastPxf _ j).trans ?_)
      rw [pipe_bcastPxf rfl, pipe_bcastPxf rfl]
      rfl
  | cleanDone i x ms q hm hq =>
    refine .inr ⟨.cleanDone i, ?_⟩
    have hr : s.pipe.replies i = .cleanDone x :: ms.filterMap Msg.reply := by
      simp [pipe, hm, Msg.reply]
    simp only [Pipe.step, hr]
    refine congrArg some (Pipe.ext rfl ?_ rfl rfl rfl rfl rfl rfl rfl rfl rfl)
    exact (map_update (List.filterMap Msg.reply) s.fromMgr i ms).symm
  | pxfDone i m ms hm => exact .inl rfl
  | dcaTid k ms hm =>
    refine .inl ((pipe_bcastPxf rfl).trans (Pipe.ext rfl rfl rfl rfl ?_ rfl ?_ rfl rfl rfl rfl))
    · exact (congrArg (fun L => (L.filterMap Msg.transDone).length) hm).symm
    · exact (congrArg (List.filterMap Msg.dcaDone) hm).symm
  | dcaTrans a b ms hm =>
    refine .inl (Pipe.ext rfl rfl rfl rfl ?_ rfl ?_ rfl rfl rfl rfl)
    · exact (congrArg (fun L => (L.filterMap Msg.transDone).length) hm).symm
    · exact (congrArg (List.filterMap Msg.dcaDone) hm).symm
  | transDone k ms hm hc =>
    refine .inr ⟨.transDone false, ?_⟩
    have ht : s.pipe.trans = (ms.filterMap Msg.transDone).length + 1 := by
      simp [pipe, hm, Msg.transDone]
    simp only [Pipe.step, ht]
    refine congrArg some ((if_neg hc).trans (Pipe.ext rfl rfl rfl rfl rfl rfl ?_ rfl rfl rfl rfl))
    exact (congrArg (List.filterMap Msg.dcaDone) hm).trans rfl
  | endReadout k ms hm hc =>
    refine .inr ⟨.transDone (s.dca.map Dca.tid = some s.sup.dcaTid), ?_⟩
    have ht : s.pipe.trans = (ms.filterMap Msg.transDone).length + 1 := by
      simp [pipe, hm, Msg.transDone]
    simp only [Pipe.step, ht]
    refine congrArg some ((if_pos hc).trans (Pipe.ext rfl rfl rfl rfl rfl ?_ ?_ rfl rfl rfl rfl))
    · refine Eq.symm ((ends_sendDca _).trans (congrArg (s.pipe.ends + ·) ?_))
      show (if s.dca.map Dca.tid = some s.sup.dcaTid then 1 else 0) = _
      split
      · rename_i h
        rw [decide_eq_true h]
        rfl
      · rename_i h
        rw [decide_eq_false h]
        rfl
    · exact (congrArg (List.filterMap Msg.dcaDone) hm).trans rfl
  | dcaDone x fname ms q hm hq =>
    refine .inr ⟨.dcaDone (removed s.sup.queue q), ?_⟩
    have hd : s.pipe.dones = x :: ms.filterMap Msg.dcaDone := by
      simp [pipe, hm, Msg.dcaDone]
    simp only [Pipe.step, hd]
    refine congrArg some (Pipe.ext (funext fun i => ?_) rfl rfl rfl ?_ rfl rfl rfl rfl rfl ?_)
    · show _ = (s.toMgr i ++ [_]).filterMap Msg.job
      rw [List.filterMap_append]
      rfl
    · exact congrArg (fun L => (L.filterMap Msg.transDone).length) hm
    · exact (List.append_assoc _ [_] s.log).symm

/-! ## Every state reached -/

/-- The channels hold what they can hold, and the pipeline is in a stage. -/
structure Ok (s : Net n) : Prop where
  typed : s.Typed
  pipe : s.pipe.Inv

theorem Ok.trans (h : s.Ok) (ht : Trans s a t) : t.Ok := by
  refine ⟨h.typed.trans ht, ?_⟩
  rcases ht.sim with he | ⟨m, hm⟩
  · rw [he]
    exact h.pipe
  · exact h.pipe.step m hm

theorem Ok.connected (c : Setup n) (t : Int) (par : Mosdca.Params) : (Net.connected c t par).Ok where
  typed := ⟨fun _ _ h => (nomatch h), fun _ _ h => (nomatch h), fun _ h => (nomatch h),
    fun _ h => (nomatch h), fun _ _ h => (nomatch h)⟩
  pipe := Pipe.Inv.init

theorem Ok.alone (c : Setup n) : (Net.alone c).Ok where
  typed := ⟨fun _ _ h => (nomatch h), fun _ _ h => (nomatch h), fun _ h => (nomatch h),
    fun _ h => (nomatch h), fun _ _ h => (nomatch h)⟩
  pipe := Pipe.Inv.init

end Net

end Ndhs
