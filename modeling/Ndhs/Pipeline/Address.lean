import Ndhs.Lib.Channel
import Ndhs.Pipeline.ImageType

/-!
# The readout that the pixel data goes to

A PXF client sends the pages of an exposure to the task `dca_tid` under the sequence number of the
page. Both are copies: the task id comes from the Supervisor's `dca_tid` messages, the sequence
number of the pages from the manager, which has it from the Supervisor's `option seqno` messages.
The readout itself is started with the number that the Supervisor has when the image type arrives.

* `Addressed`: when a PXF client is about to process an exposure, its task id is the Supervisor's and
  the numbers it will use are the one that the readout of the exposure was started with.
* `AddrOk`: the steps that keep the addresses right. `readout_addressed`: in every run of such steps they
  are right.
* `readout_late_client`: a client that connects after the DCA is known keeps the task id `0`. The Supervisor
  repeats the task id with every exposure, but under a subject at which the clients do not look.
-/

namespace Ndhs

/-- The exposure whose image type a message reports. -/
def Msg.imtype : Msg → Option ExpID
  | ⟨.set, .imagetype x⟩ => some x
  | _ => none

namespace ExpPage

/-- A client with the option `procPages` sends something for the page when it processes `x`. -/
def isSent (p : ExpPage) (procPages : Option String) (x : ExpID) : Bool :=
  p.isSelected procPages x && !p.requests.isEmpty

end ExpPage

namespace Net

open Channel Function Machine Round Text

variable {n : Nat} {s t : Net n} {a : Act n}

/-- The sequence number of the last `ndhsStartReadout` for the exposure. -/
def readoutOf (s : Net n) (x : ExpID) : Option Int :=
  (s.readouts.find? fun r => r.1 = x).map Prod.snd

/-- A PXF client that is about to process an exposure sends its data to the Supervisor's DCA, under
the sequence number of the exposure's readout. -/
def Addressed (s : Net n) : Prop :=
  ∀ i p x ms, s.pxf i = some p → s.toPxf i = ⟨.start, .process x⟩ :: ms →
    p.dcaTid = s.sup.dcaTid ∧
    ∀ r ∈ pxfProcess (s.pxfPages i) (s.mgr i).pages x, s.readoutOf x = some r.seqno

/-- Client `i` has been told to process `x`, and it has nothing of it left to process. -/
def Fed (s : Net n) (i : Fin n) (x : ExpID) : Prop :=
  .pxfBcast x ∈ sinceProc s.log ∧ ⟨.start, .process x⟩ ∉ s.toPxf i

/-- The page that node `i` gets is not of the exposure in process, or it comes in time: before the manager
processes the exposure, and if it has the image type, before the Supervisor's number changes; or after the
client has sent the pages of the exposure, if the client is to send it. -/
def Timely (s : Net n) (i : Fin n) (p : ExpPage) : Prop :=
  ∀ e ∈ lastProc s.log,
    (⟨.start, .process (fmt6 e)⟩ ∈ s.toMgr i → (s.mgr i).isType (fmt6 e) p = true →
      s.TypePending (fmt6 e) ∨ s.readoutOf (fmt6 e) = some s.sup.imgSeqNo) ∧
    (⟨.start, .process (fmt6 e)⟩ ∉ s.toMgr i → p.isSent (s.pxfPages i) (fmt6 e) = true → s.Fed i (fmt6 e))

/-- If manager `i` is about to process an exposure, it processes the pages that the client of the node is to
send. -/
def Covers (s : Net n) (i : Fin n) : Prop :=
  ∀ x ∈ (s.toMgr i).head?.bind Msg.feed, ∀ p ∈ (s.mgr i).pages,
    p.isSent (s.pxfPages i) x = true → p.isSelected (s.mgr i).procPages x = true

/-- The steps that keep the addresses right. -/
def AddrOk (s : Net n) : Act n → Prop
  | .procNext => Regular s .procNext
  | .dcaFromSup o => Answered s (.dcaFromSup o)
  | .collect i _ p => s.Timely i p
  | .mgrRecv i => s.Covers i
  | .setOptionSeqno v => v = s.sup.imgSeqNo ∨ ¬ ∃ x, s.TypePending x
  | .pxfConnect _ => s.sup.dcaTid = 0
  | .supFromDca => ∀ t ∈ s.fromDca.head?.bind Msg.setTid,
    t = s.sup.dcaTid ∨ ∀ i, (s.toPxf i).filterMap Msg.feed = []
  | _ => True

theorem AddrOk.answered (h : s.AddrOk a) : s.Answered a := by
  cases a with
  | dcaFromSup o => exact h
  | _ => trivial

/-- The exposures whose image type node `i` is still to report. -/
def typesAt (s : Net n) (i : Fin n) : List ExpID :=
  ((s.toMgr i).filterMap Msg.feed).filter (fun x => decide ((s.mgr i).HasType x)) ++
    (s.fromMgr i).filterMap Msg.imtype

theorem mem_typesAt {i : Fin n} {x : ExpID} : x ∈ s.typesAt i ↔
    (⟨.start, .process x⟩ ∈ s.toMgr i ∧ (s.mgr i).HasType x) ∨ ⟨.set, .imagetype x⟩ ∈ s.fromMgr i := by
  have hf : ∀ m : Msg, m.feed = some x ↔ m = ⟨.start, .process x⟩ := fun m =>
    ⟨Msg.feed_eq_some, fun h => h ▸ rfl⟩
  have hi : ∀ m : Msg, m.imtype = some x ↔ m = ⟨.set, .imagetype x⟩ := by
    rintro ⟨subj, body⟩
    cases subj <;> cases body <;> simp [Msg.imtype]
  simp [typesAt, hf, hi]

instance (s : Net n) : Decidable (∃ x, s.TypePending x) :=
  have : Decidable (∃ i, s.typesAt i ≠ []) := Fintype.decidableExistsFintype
  decidable_of_iff (∃ i, s.typesAt i ≠ []) (by
    constructor
    · rintro ⟨i, hne⟩
      obtain ⟨x, hx⟩ := List.exists_mem_of_ne_nil _ hne
      exact ⟨x, i, mem_typesAt.mp hx⟩
    · rintro ⟨x, i, h⟩
      exact ⟨i, List.ne_nil_of_mem (mem_typesAt.mpr h)⟩)

instance (s : Net n) (x : ExpID) : Decidable (s.TypePending x) := Fintype.decidableExistsFintype

instance (s : Net n) (i : Fin n) (x : ExpID) : Decidable (s.Fed i x) := instDecidableAnd

instance (s : Net n) (i : Fin n) (p : ExpPage) : Decidable (s.Timely i p) :=
  inferInstanceAs (Decidable (∀ e ∈ lastProc s.log, _ ∧ _))

instance (s : Net n) (i : Fin n) : Decidable (s.Covers i) :=
  inferInstanceAs (Decidable (∀ x ∈ (s.toMgr i).head?.bind Msg.feed, ∀ p ∈ (s.mgr i).pages, _ → _))

instance (s : Net n) (a : Act n) : Decidable (AddrOk s a) :=
  match a with
  | .procNext => inferInstanceAs (Decidable (Regular s .procNext))
  | .dcaFromSup o => inferInstanceAs (Decidable (Answered s (.dcaFromSup o)))
  | .collect i _ p => inferInstanceAs (Decidable (s.Timely i p))
  | .mgrRecv i => inferInstanceAs (Decidable (s.Covers i))
  | .setOptionSeqno v => inferInstanceAs (Decidable (v = s.sup.imgSeqNo ∨ ¬ ∃ x, s.TypePending x))
  | .pxfConnect _ => inferInstanceAs (Decidable (s.sup.dcaTid = 0))
  | .supFromDca =>
    have : Decidable (∀ i, (s.toPxf i).filterMap Msg.feed = []) := Fintype.decidableForallFintype
    inferInstanceAs (Decidable (∀ t ∈ s.fromDca.head?.bind Msg.setTid,
      t = s.sup.dcaTid ∨ ∀ i, (s.toPxf i).filterMap Msg.feed = []))
  | .panOpen .. | .panClose .. | .dcaConnect .. | .pxfRecv _ | .dcaFromPxf .. | .supFromMgr _
  | .supFromPxf _ => .isTrue trivial

/-! ## The task id -/

/-- A client that is connected has or will get the task id `k`, before every exposure that it is to
process; `L` is what was sent to it. -/
def TidOk (k : Int) (c : Option Pxf) (L : List Msg) : Prop :=
  match c with
  | none => L = []
  | some p => after Msg.setTid p.dcaTid L = k ∧
    Sees Msg.setTid (·.feed.isSome = true) p.dcaTid L k

/-- A broadcast that does not set the task id. -/
theorem TidOk.bcast {k : Int} {c : Option Pxf} {L : List Msg} (h : TidOk k c L) {m : Msg}
    (hm : m.setTid = none) : TidOk k c (if c.isSome then L ++ [m] else L) := by
  cases c with
  | none => exact h
  | some p => exact ⟨(after_snoc_of_none hm).trans h.1, h.2.send fun _ => h.1⟩

/-- A broadcast of a new task id, while the client has no exposure to process. -/
theorem TidOk.bcastTid {k k' : Int} {c : Option Pxf} {L : List Msg} (h : TidOk k c L)
    (hk : k' = k ∨ L.filterMap Msg.feed = []) :
    TidOk k' c (if c.isSome then L ++ [⟨.set, .dcaTid k'⟩] else L) := by
  cases c with
  | none => exact h
  | some p =>
    refine ⟨after_snoc, Sees.send ?_ fun hx => nomatch hx⟩
    rcases hk with rfl | hno
    · exact h.2
    · refine Sees.of_none fun m hm hf => ?_
      rw [List.filterMap_eq_nil_iff.mp hno m hm] at hf
      cases hf

/-- The client takes a message. -/
theorem TidOk.deliver {k : Int} {p p' : Pxf} {m : Msg} {ms : List Msg}
    (h : TidOk k (some p) (m :: ms)) (ht : p'.dcaTid = m.setTid.getD p.dcaTid) :
    TidOk k (some p') ms := by
  refine ⟨?_, ?_⟩
  · rw [ht]
    exact h.1
  · rw [ht]
    exact h.2.deliver

/-- Every client has or will get the Supervisor's task id. -/
def Tids (s : Net n) : Prop := ∀ i, TidOk s.sup.dcaTid (s.pxf i) (s.toPxf i)

theorem Tids.update {k : Int} {c : Fin n → Option Pxf} {L : Fin n → List Msg}
    (h : ∀ i, TidOk k (c i) (L i)) {i : Fin n} {p : Pxf} {ms : List Msg}
    (hi : TidOk k (some p) ms) (j : Fin n) :
    TidOk k (Function.update c i (some p) j) (Function.update L i ms j) := by
  by_cases hj : j = i
  · subst hj
    rwa [update_self, update_self]
  · rw [update_of_ne hj, update_of_ne hj]
    exact h j

theorem Tids.trans (h : s.Tids) (ht : Trans s a t) (hk : AddrOk s a) : t.Tids := by
  cases ht with
  | start q h0 hc hq => exact fun i => (h i).bcast rfl
  | pxfConnect i hp =>
    have hL := h i
    rw [hp] at hL
    have hnew : TidOk s.sup.dcaTid (some {}) (s.toPxf i) := by
      rw [show s.toPxf i = [] from hL]
      exact ⟨Eq.symm hk, Sees.of_none fun m hm => nomatch hm⟩
    have h' := Tids.update (i := i) h hnew
    rwa [update_eq_self] at h'
  | pxfOther i p p' m ms hp hm hf ht' =>
    have hi := h i
    rw [hp, hm] at hi
    exact Tids.update h (hi.deliver ht')
  | pxfProcess i p p' x ms sent hp hm ht' hs =>
    have hi := h i
    rw [hp, hm] at hi
    exact Tids.update h (hi.deliver ht')
  | startPxf i x ms hm hc =>
    intro j
    have h₁ := (h j).bcast (m := ⟨.set, .seqno s.sup.imgSeqNo⟩) rfl
    have h₂ := h₁.bcast (m := ⟨.start, .dcaTid s.sup.dcaTid⟩) rfl
    exact h₂.bcast rfl
  | dcaTid k ms hm => exact fun i => (h i).bcastTid ((hk k (by rw [hm]; rfl)).imp_right fun hno => hno i)
  | _ => exact h

/-! ## The sequence number -/

/-- A manager processes `x` with the sequence number `k`: it will do so if the exposure is among the
messages `L` that were sent to it, and did so if not. The pages that count are those that a client with the
option `procPages` sends. -/
def SeqOk (procPages : Option String) (x : ExpID) (k : Int) (g : Mgr) (L : List Msg) : Prop :=
  Sees Msg.optSeqno (· = ⟨.start, .process x⟩) g.seqno L k ∧
  (⟨.start, .process x⟩ ∉ L → ∀ p ∈ g.pages, p.isSent procPages x = true → p.seqno = k)

section SeqOk

variable {procPages : Option String} {x : ExpID} {k : Int} {g : Mgr} {L ms : List Msg} {m : Msg}

theorem SeqOk.bcast (h : SeqOk procPages x k g L) (hm : m ≠ ⟨.start, .process x⟩) :
    SeqOk procPages x k g (L ++ [m]) :=
  ⟨h.1.send fun he => absurd he hm, fun hno => h.2 fun hmem => hno (List.mem_append_left _ hmem)⟩

theorem SeqOk.other (h : SeqOk procPages x k g (m :: ms)) (hj : m.job = none) :
    SeqOk procPages x k { g with seqno := m.optSeqno.getD g.seqno } ms := by
  refine ⟨h.1.deliver, fun hno => h.2 fun hmem => ?_⟩
  rcases List.mem_cons.mp hmem with rfl | hmem
  · cases hj
  · exact hno hmem

theorem SeqOk.process (h : SeqOk procPages x k g (⟨.start, .process x⟩ :: ms))
    (hms : ⟨.start, .process x⟩ ∉ ms)
    (hsel : ∀ p ∈ g.pages, p.isSent procPages x = true → p.isSelected g.procPages x = true) :
    SeqOk procPages x k (g.smcProcess x).1 ms := by
  refine ⟨Sees.of_none fun m hm he => hms (he ▸ hm), fun _ p hp hx => ?_⟩
  obtain ⟨p₀, hp₀, rfl⟩ := mem_smcProcess hp
  by_cases hx₀ : p₀.isSelected g.procPages x = true
  · rw [if_pos hx₀]
    exact h.1.head rfl
  · rw [if_neg hx₀] at hx
    exact absurd (hsel p₀ hp₀ hx) hx₀

theorem SeqOk.finish {y : ExpID} (h : SeqOk procPages x k g (⟨.finish, .expID y⟩ :: ms)) :
    SeqOk procPages x k (g.smcDelExpID y) ms := by
  refine ⟨h.1.deliver, fun hno p hp => h.2 (fun hmem => ?_) p (List.mem_of_mem_filter hp)⟩
  rcases List.mem_cons.mp hmem with he | hmem
  · cases he
  · exact hno hmem

/-- A page comes in time, or the client does not send it. -/
theorem SeqOk.collect (h : SeqOk procPages x k g L) (j : Nat) {p : ExpPage}
    (hp : ⟨.start, .process x⟩ ∈ L ∨ p.isSent procPages x = false) : SeqOk procPages x k (g.collect j p) L := by
  refine ⟨h.1, fun hno q hq hx => ?_⟩
  rcases Mgr.mem_collect.mp hq with rfl | hq
  · rw [hp.resolve_left hno] at hx
    cases hx
  · exact h.2 hno q hq hx

/-- A manager took a message. -/
theorem SeqOk.update {f : Fin n → Mgr} {L : Fin n → List Msg} {i j : Fin n} (h : SeqOk procPages x k (f i) (L i))
    (hj : i = j → SeqOk procPages x k g ms) : SeqOk procPages x k (update f j g i) (update L j ms i) := by
  by_cases hij : i = j
  · subst hij
    rw [update_self, update_self]
    exact hj rfl
  · rwa [update_of_ne hij, update_of_ne hij]

end SeqOk

/-- A client that has nothing left to process of the exposure in process gets nothing more of it. -/
theorem Fed.trans {i : Fin n} {x : ExpID} (h : s.Fed i x) (hok : s.Ok) (ht : Trans s a t)
    (hne : ¬ (a = .procNext ∧ s.Starts)) : t.Fed i x := by
  obtain ⟨hb, hno⟩ := h
  have htail : ∀ {j : Fin n} {m : Msg} {ms : List Msg}, s.toPxf j = m :: ms →
      ⟨.start, .process x⟩ ∉ update s.toPxf j ms i := fun hm hmem => hno (mem_of_update_tail hm hmem)
  cases ht with
  | start q h0 hc hq => exact absurd ⟨rfl, h0, hc⟩ hne
  | startPxf j y ms hm hc =>
    -- the clients are told to process an exposure once
    obtain ⟨st, hi⟩ := hok.pipe.stage
    have hr : s.pipe.replies j = .smcDone y :: ms.filterMap Msg.reply := by
      simp [pipe, hm, Msg.reply]
    obtain ⟨H, rfl, -⟩ := hi.of_smcDone hr
    exact absurd hb (hi.logged.2.1 x)
  | pxfOther j p p' m ms hp hm hf ht' => exact ⟨hb, htail hm⟩
  | pxfProcess j p p' y ms sent hp hm ht' hs => exact ⟨hb, htail hm⟩
  | dcaTid k ms hm =>
    refine ⟨hb, fun hmem => ?_⟩
    simp only [onDcaTid, bcastPxf] at hmem
    split at hmem
    · simp only [List.mem_append, List.mem_singleton] at hmem
      rcases hmem with hmem | hmem
      · exact hno hmem
      · cases hmem
    · exact hno hmem
  | dcaDone y fname ms q hm hq =>
    refine ⟨?_, hno⟩
    have hb' : .pxfBcast x ∈ sinceProc (.dcaDone y :: s.log) := (mem_since_cons rfl).mpr (.inr hb)
    show .pxfBcast x ∈ sinceProc ((((removed s.sup.queue q).map Event.removed).toList ++ [.dcaDone y]) ++ s.log)
    cases removed s.sup.queue q with
    | none => exact hb'
    | some e => exact (mem_since_cons rfl).mpr (.inr hb')
  | dcaTransfer | smcDone | cleanDone | endReadout => exact ⟨(mem_since_cons rfl).mpr (.inr hb), hno⟩
  | _ => exact ⟨hb, hno⟩

/-- The exposure `x` in process goes by the sequence number `k`. -/
structure Stamped (s : Net n) (x : ExpID) (k : Int) : Prop where
  /-- As long as the image type is to be reported, the readout will be started with `k`. -/
  pending : s.TypePending x → s.sup.imgSeqNo = k
  /-- After that it was. -/
  started : n = 0 ∨ s.TypePending x ∨ s.readoutOf x = some k
  mgr : ∀ i, s.Fed i x ∨ SeqOk (s.pxfPages i) x k (s.mgr i) (s.toMgr i)

/-- A manager after a step that does not start an exposure. -/
theorem Stamped.mgr_trans {e : ExpID} {k : Int} (h : s.Stamped (fmt6 e) k) (hok : s.Ok)
    (he : lastProc s.log = some e) (ht : Trans s a t) (hne : ¬ (a = .procNext ∧ s.Starts)) (hk : AddrOk s a)
    (i : Fin n) : t.Fed i (fmt6 e) ∨ SeqOk (t.pxfPages i) (fmt6 e) k (t.mgr i) (t.toMgr i) := by
  rcases h.mgr i with hf | hi
  · exact .inl (hf.trans hok ht hne)
  cases ht with
  | start q h0 hc hq => exact absurd ⟨rfl, h0, hc⟩ hne
  | collect j c p =>
    by_cases hij : i = j
    · subst hij
      rw [collect_mgr_self]
      obtain ⟨-, hlate⟩ := hk e he
      by_cases hmem : ⟨.start, .process (fmt6 e)⟩ ∈ s.toMgr i
      · exact .inr (hi.collect c (.inl hmem))
      · cases hx : p.isSent (s.pxfPages i) (fmt6 e) with
        | false => exact .inr (hi.collect c (.inr hx))
        | true => exact .inl (hlate hmem hx)
    · rw [collect_mgr_ne hij]
      exact .inr hi
  | setOptionSeqno v => exact .inr (hi.bcast (by simp))
  | mgrOther j m ms hm hj =>
    refine .inr (hi.update fun hij => ?_)
    subst hij
    rw [hm] at hi
    exact hi.other hj
  | mgrProcess j y ms hm =>
    refine .inr (hi.update fun hij => ?_)
    subst hij
    obtain ⟨hj, -, e', he', rfl⟩ := hok.jobs_eq (hm ▸ List.mem_cons_self)
    obtain rfl := Option.some.inj (he'.symm.trans he)
    rw [hm] at hi
    refine hi.process (fun hmem => ?_) (hk _ (by rw [hm]; rfl))
    -- a manager has an exposure to process once
    simp only [pipe, hm, List.filterMap_cons, Msg.job, List.cons.injEq, true_and] at hj
    cases List.filterMap_eq_nil_iff.mp hj _ hmem
  | mgrFinish j y ms hm =>
    refine .inr (hi.update fun hij => ?_)
    subst hij
    rw [hm] at hi
    exact hi.finish
  | dcaDone y fname ms q hm hq => exact .inr (hi.bcast (by simp))
  | _ => exact .inr hi

/-- Only the GUI changes the Supervisor's number, and not while a report is pending. -/
theorem Trans.imgSeqNo_eq (ht : Trans s a t) (hne : ¬ (a = .procNext ∧ s.Starts)) (hk : AddrOk s a)
    {x : ExpID} (hp : s.TypePending x) : t.sup.imgSeqNo = s.sup.imgSeqNo := by
  cases ht with
  | start q h0 hc hq => exact absurd ⟨rfl, h0, hc⟩ hne
  | setOptionSeqno v =>
    rcases hk with hv | hno
    · exact hv
    · exact absurd ⟨x, hp⟩ hno
  | _ => rfl

theorem Trans.readouts_eq (ht : Trans s a t) : t.readouts = s.readouts ∨
    ∃ i x ms, s.fromMgr i = ⟨.set, .imagetype x⟩ :: ms ∧
      t.readouts = (x, s.sup.imgSeqNo) :: s.readouts := by
  cases ht with
  | imagetype i x ms hm => exact .inr ⟨i, x, ms, hm, rfl⟩
  | _ => exact .inl rfl

theorem readoutOf_cons {x : ExpID} {k : Int} (h : t.readouts = (x, k) :: s.readouts) :
    t.readoutOf x = some k := by
  rw [readoutOf, h, List.find?_cons_of_pos (by simp)]
  rfl

/-- A report that becomes pending has the Supervisor's number. -/
theorem Stamped.pending_trans {e : ExpID} {k : Int} (h : s.Stamped (fmt6 e) k) (hok : s.Ok)
    (he : lastProc s.log = some e) (ht : Trans s a t) (hne : ¬ (a = .procNext ∧ s.Starts)) (hk : AddrOk s a)
    (hp : t.TypePending (fmt6 e)) : t.sup.imgSeqNo = k := by
  rcases ht.typePending_new hok hne hp with hp | ⟨i, c, p, rfl, hmem, hx⟩
  · exact (ht.imgSeqNo_eq hne hk hp).trans (h.pending hp)
  · have hnum : s.sup.imgSeqNo = k := by
      rcases (hk e he).1 hmem hx with hp | hr
      · exact h.pending hp
      · rcases h.started with h0 | hp | hr'
        · exact absurd h0 (by have := i.pos; omega)
        · exact h.pending hp
        · exact Option.some.inj (hr.symm.trans hr')
    generalize hb : Act.collect i c p = b at ht
    cases ht with
    | collect => exact hnum
    | dcaStops b d ha hd hrun =>
      subst hb
      cases ha
    | _ => cases hb

/-- The exposure in process keeps its number. -/
theorem Stamped.trans {e : ExpID} {k : Int} (h : s.Stamped (fmt6 e) k) (hok : s.Ok)
    (he : lastProc s.log = some e) (ht : Trans s a t) (hne : ¬ (a = .procNext ∧ s.Starts))
    (hk : AddrOk s a) : t.Stamped (fmt6 e) k where
  pending := h.pending_trans hok he ht hne hk
  started := by
    rcases h.started with h0 | hp | hr
    · exact .inl h0
    · rcases ht.typePending hok hp with hp' | ⟨i, ms, hm, rfl⟩
      · exact .inr (.inl hp')
      · exact .inr (.inr ((readoutOf_cons rfl).trans (congrArg some (h.pending hp))))
    · rcases ht.readouts_eq with heq | ⟨i, x, ms, hm, heq⟩
      · exact .inr (.inr (by rw [readoutOf, heq]; exact hr))
      · -- one more report of the same image type
        have hmem : ⟨.set, .imagetype x⟩ ∈ s.fromMgr i := hm ▸ List.mem_cons_self
        obtain ⟨H, hi⟩ := hok.imagetype_eq hmem
        obtain ⟨e', he', rfl⟩ := hi.logged.1
        cases he'.symm.trans he
        exact .inr (.inr ((readoutOf_cons heq).trans (congrArg some (h.pending ⟨i, .inr hmem⟩))))
  mgr := h.mgr_trans hok he ht hne hk

/-- An exposure that is started gets the next number. -/
theorem Stamped.start (hok : s.Ok) (hs : s.Starts) (q : ProcQueue)
    (hk : n = 0 ∨ s.HasType (fmt6 (pqNext s.sup.queue))) :
    (s.startExposure (pqNext s.sup.queue) q).Stamped (fmt6 (pqNext s.sup.queue))
      (s.sup.imgSeqNo + 1) where
  pending _ := rfl
  started := hk.imp_right fun hty => .inl (typePending_start q hty)
  mgr i := by
    have hno : ⟨.start, .process (fmt6 (pqNext s.sup.queue))⟩ ∉ s.toMgr i := by
      intro hmem
      have := mem_jobs hmem
      rw [((hok.idle hs).lane i).1] at this
      cases this
    refine .inr ⟨Sees.send (Sees.send (Sees.of_none fun m hm he => hno (he ▸ hm)) ?_) fun _ => after_snoc,
      fun hno' => ?_⟩
    · exact fun he => nomatch he
    · exact absurd (List.mem_append_right _ List.mem_cons_self) hno'

/-! ## Every run -/

structure AddrInv (s : Net n) : Prop where
  ok : s.Ok
  tids : s.Tids
  stamped : ∀ e, lastProc s.log = some e → ∃ k, s.Stamped (fmt6 e) k

theorem AddrInv.alone (c : Setup n) : (Net.alone c).AddrInv where
  ok := Ok.alone c
  tids _ := rfl
  stamped _ he := nomatch he

theorem AddrInv.step (h : s.AddrInv) (hk : AddrOk s a) (hst : s.step a = some t) : t.AddrInv := by
  have ht := h.ok.typed.step_cases hk.answered hst
  refine ⟨h.ok.trans ht, h.tids.trans ht hk, fun e he => ?_⟩
  rcases ht.keeps_or_starts with ⟨hl, hne⟩ | ⟨rfl, hs, q, rfl⟩
  · rw [hl] at he
    obtain ⟨k, hstamp⟩ := h.stamped e he
    exact ⟨k, hstamp.trans h.ok he ht hne hk⟩
  · cases he
    exact ⟨_, Stamped.start h.ok hs q (hk hs)⟩

theorem AddrInv.addressed (h : s.AddrInv) : s.Addressed := by
  intro i p x ms hp hm
  have htid : p.dcaTid = s.sup.dcaTid := by
    have hi := h.tids i
    rw [hp, hm] at hi
    exact hi.2.head rfl
  -- a client has an exposure to process only after the managers have reported everything
  obtain ⟨st, hi⟩ := h.ok.pipe.stage
  have hf : s.pipe.feeds i = x :: ms.filterMap Msg.feed := by
    simp [pipe, hm, Msg.feed]
  obtain ⟨H, rfl, -, -, -⟩ := hi.of_feed hf
  obtain ⟨⟨e, he, rfl⟩, -, -⟩ := hi.logged
  obtain ⟨k, hstamp⟩ := h.stamped e he
  have hread : s.readoutOf (fmt6 e) = some k := by
    rcases hstamp.started with h0 | hpend | hr
    · exact absurd h0 (by have := i.pos; omega)
    · exact absurd hpend (not_typePending (fun j => (hi.lane j).1) fun j => (hi.lane j).2)
    · exact hr
  have hno : ⟨.start, .process (fmt6 e)⟩ ∉ s.toMgr i := by
    intro hmem
    have := mem_jobs hmem
    rw [(hi.lane i).1] at this
    cases this
  have hseq := (hstamp.mgr i).resolve_left fun hf => hf.2 (hm ▸ List.mem_cons_self)
  refine ⟨htid, fun r hr => ?_⟩
  obtain ⟨g, hg, hsel, hr⟩ := mem_pxfProcess hr
  have hsent : g.isSent (s.pxfPages i) (fmt6 e) = true := by
    rw [ExpPage.isSent, hsel, List.isEmpty_eq_false_iff.mpr (List.ne_nil_of_mem hr)]
    rfl
  rw [hread, (ExpPage.mem_requests hr).1, hseq.2 hno g hg hsent]

/-- The data of an exposure goes to its own readout, in every run whose steps keep the addresses
right. -/
theorem readout_addressed (c : Setup n) (as : List (Act n)) (t : Net n)
    (hk : Steps AddrOk step (Net.alone c) as) (hr : run step (Net.alone c) as = some t) : t.Addressed := by
  have h : t.AddrInv := Steps.run_inv (fun s a t h hk hst => h.step hk hst) (AddrInv.alone c) hk hr
  exact h.addressed

/-- The client connects before the DCA is known, and the page is collected while exposure `1` is read:
exposure `1` goes to the task `7`, to the readout with the number `1`. -/
theorem readout_addressed_one :
    let start := Net.alone (Setup.scripts 1 fun _ => [])
    let as := [.pxfConnect 0, .dcaConnect 7 Dca.options, .supFromDca, .panOpen (chars "pan") 1,
      .collect 0 0 (.typePage 1), .panClose (chars "pan") 1, .procNext, .mgrRecv 0, .mgrRecv 0, .supFromMgr 0,
      .supFromMgr 0, .pxfRecv 0, .pxfRecv 0, .pxfRecv 0, .pxfRecv 0]
    Steps AddrOk step start as ∧ ∃ t, run step start as = some t ∧
      (t.toPxf 0).head? = some ⟨.start, .process 1⟩ ∧ t.Addressed := by
  intro start as
  have hk : Steps AddrOk step start as := by decide +kernel
  have hnext : (run step start as).map (fun t => (t.toPxf 0).head?) =
      some (some ⟨.start, .process 1⟩) := by decide +kernel
  obtain ⟨t, hr, ht⟩ := Option.map_eq_some_iff.mp hnext
  exact ⟨hk, t, hr, ht, readout_addressed _ as t hk hr⟩

/-- The DCA is known when the client connects: the client processes exposure `1` with the task id `0`,
while the Supervisor has the task id `7`. -/
theorem readout_late_client :
    ∃ t, run step (Net.alone (Setup.scripts 1 fun _ => [.typePage 1])) [.dcaConnect 7 Dca.options,
      .supFromDca, .pxfConnect 0, .panOpen (chars "pan") 1, .panClose (chars "pan") 1, .procNext, .mgrRecv 0,
      .mgrRecv 0, .supFromMgr 0, .supFromMgr 0, .pxfRecv 0, .pxfRecv 0, .pxfRecv 0] = some t ∧
      ¬ t.Addressed := by
  have hend : (run step (Net.alone (Setup.scripts 1 fun _ => [.typePage 1])) [.dcaConnect 7 Dca.options,
      .supFromDca, .pxfConnect 0, .panOpen (chars "pan") 1, .panClose (chars "pan") 1, .procNext, .mgrRecv 0,
      .mgrRecv 0, .supFromMgr 0, .supFromMgr 0, .pxfRecv 0, .pxfRecv 0, .pxfRecv 0]).map
      (fun t => (t.toPxf 0, (t.pxf 0).map Pxf.dcaTid, t.sup.dcaTid)) =
      some ([⟨.start, .process 1⟩], some 0, 7) := by decide +kernel
  obtain ⟨t, hr, ht⟩ := Option.map_eq_some_iff.mp hend
  obtain ⟨hm, ht⟩ := Prod.mk.inj ht
  obtain ⟨hp, hd⟩ := Prod.mk.inj ht
  obtain ⟨p, hp, h0⟩ := Option.map_eq_some_iff.mp hp
  refine ⟨t, hr, fun h => ?_⟩
  have htid := (h 0 p 1 [] hp hm).1
  rw [h0, hd] at htid
  exact absurd htid (by decide)

end Net
end Ndhs
