import Mathlib.Algebra.Order.BigOperators.Group.Finset
import Ndhs.Lib.Variant
import Ndhs.Pipeline.Tally

/-!
# Every exposure gets through

In the connected system nothing is lost: the exposure in process has `n` tokens, one for each node,
and every step hands a token on. A token is a `process` job or its report at a manager, a job at a
PXF client, its `TransferComplete` at the DCA, a count of the Supervisor, or one of the `n` that an
`EndReadout` and a `dca_done` carry. After the `dca_done` the same `n` tokens are the clean-up of the
nodes.

* `inWork`, `inClean`: the tokens of an exposure before and after its `dca_done`.
  `tokens_conserved`: there are `n` of them for the exposure in flight, in every state reached.
* `cost`: what is still to be delivered. Every delivery lowers it (`Conserved.deliver`).
* `pipeline_completes`: from every state reached, the deliveries come to an end, and then the
  exposure in process is out of the queue and cleaned up by all nodes, or the DCA has stopped.
-/

namespace Ndhs

open Function Machine Round Text

variable {n : Nat}

/-! ## The tokens -/

/-- The tokens of an exposure before its `dca_done`. -/
@[simps] def Worth.exposure (n : Nat) : Worth where
  toMgr m := match m.job with
    | some (.process _) => 1
    | _ => 0
  fromMgr m := match m.reply with
    | some (.smcDone _) => 1
    | _ => 0
  toPxf m := if m.feed.isSome then 1 else 0
  fromPxf _ := 0
  pxfToDca r := if r.isTransfer then 1 else 0
  toDca r := if r.isEnd then n else 0
  fromDca m := if m.dcaDone.isSome then n else if m.transDone.isSome then 1 else 0

/-- The tokens of an exposure after its `dca_done`. -/
@[simps] def Worth.cleanup : Worth where
  toMgr m := match m.job with
    | some (.finish _) => 1
    | _ => 0
  fromMgr m := match m.reply with
    | some (.cleanDone _) => 1
    | _ => 0
  toPxf _ := 0
  fromPxf _ := 0
  pxfToDca _ := 0
  toDca _ := 0
  fromDca _ := 0

/-- What a message costs: the deliveries that it and its answers can still cause, if no manager reports more
than `b` image types and no client sends more than `b` requests for its pages. -/
@[simps] def Worth.cost (n b : Nat) : Worth where
  toMgr m := match m.job with
    | some (.process _) => 9 * b + (n * (2 * b + 2 * n + 9) + 2)
    | some (.finish _) => 2
    | none => 1
  fromMgr m := match m.reply with
    | some (.imagetype _) => 9
    | some (.smcDone _) => n * (2 * b + 2 * n + 9) + 1
    | _ => 1
  toPxf m := if m.feed.isSome then 2 * b + 2 * n + 7 else 1
  fromPxf _ := 1
  pxfToDca r := if r.isTransfer then 2 * n + 5 else 2
  toDca r := if r.isEnd then 2 * n + 3 else 2
  fromDca m := if m.dcaDone.isSome then 2 * n + 1 else if m.transDone.isSome then 2 * n + 4 else 1

/-- What `smcProcess` sends: its report, and nothing else that counts. -/
theorem Worth.sum_smcProcess (w : Worth) (g : Mgr) (x : ExpID) :
    ((g.smcProcess x).2.map w.fromMgr).sum =
      (g.pages.filter (g.isType x)).length * w.fromMgr ⟨.set, .imagetype (fmt6 x)⟩ +
        w.fromMgr ⟨.set, .smcDone (fmt6 x)⟩ := by
  simp [Mgr.smcProcess, List.map_const', List.sum_replicate]

/-- The requests for the pages are all worth the same. -/
theorem Worth.sum_pxfProcess (w : Worth) {c : Nat} (hc : ∀ r : DcaReq, r.isTransfer = false → w.pxfToDca r = c)
    (procPages : Option String) (pages : List ExpPage) (x : ExpID) :
    ((pxfProcess procPages pages x).map w.pxfToDca).sum = (pxfProcess procPages pages x).length * c := by
  have hall : ∀ r ∈ pxfProcess procPages pages x, w.pxfToDca r = c := fun r hr => by
    obtain ⟨p, -, -, hr⟩ := mem_pxfProcess hr
    exact hc r (ExpPage.mem_requests hr).2.2
  rw [List.map_congr_left hall, List.map_const', List.sum_replicate, smul_eq_mul]

/-- What the DCA tells about its traffic is not worth more than one message of it. -/
theorem Worth.sum_traffic (w : Worth) {c : Nat} (hc : ∀ a b, w.fromDca ⟨.set, .dcaTrans a b⟩ = c) {out : List Msg}
    (hout : Dca.Traffic out) : (out.map w.fromDca).sum ≤ c := by
  rcases hout with rfl | ⟨a, b, rfl⟩
  · exact Nat.zero_le _
  · rw [List.map_singleton, List.sum_singleton, hc]

/-! ## The pages of a node -/

/-- A page, and the requests that a client sends for it. -/
def ExpPage.weight (p : ExpPage) : Nat := p.requests.length + 1

theorem ExpPage.weight_seqno (p : ExpPage) (k : Int) : weight { p with seqno := k } = p.weight := by
  obtain ⟨e, ty, col, num, nkeyw, q⟩ := p
  unfold weight requests
  cases ty <;> simp [List.length_flatMap, apply_ite List.length]

/-- The pages of a manager. -/
def Mgr.weight (g : Mgr) : Nat := (g.pages.map ExpPage.weight).sum

theorem Mgr.length_le_weight (g : Mgr) : g.pages.length ≤ g.weight := by
  have h := List.sum_le_sum (l := g.pages) (f := fun _ => 1) (g := ExpPage.weight) fun p _ => Nat.succ_pos _
  rwa [List.map_const', List.sum_replicate, smul_eq_mul, Nat.mul_one] at h

theorem Mgr.weight_filter_le (g : Mgr) (q : ExpPage → Bool) :
    ((g.pages.filter q).map ExpPage.weight).sum ≤ g.weight :=
  (List.filter_sublist.map ExpPage.weight).sum_le_sum fun _ _ => Nat.zero_le _

/-- No client sends more than that. -/
theorem Mgr.length_pxfProcess_le (g : Mgr) (procPages : Option String) (x : ExpID) :
    (pxfProcess procPages g.pages x).length ≤ g.weight := by
  have hperm := List.filter_append_perm (fun p : ExpPage => decide (p.type = .tyMeta))
    (g.pages.filter fun p => p.isSelected procPages x)
  calc (pxfProcess procPages g.pages x).length
      = ((g.pages.filter fun p => p.isSelected procPages x).map fun p => p.requests.length).sum := by
        rw [pxfProcess, List.length_flatMap, ← (hperm.map fun p => p.requests.length).sum_eq]
        simp only [decide_not]
    _ ≤ ((g.pages.filter fun p => p.isSelected procPages x).map ExpPage.weight).sum :=
        List.sum_le_sum fun p _ => Nat.le_succ _
    _ ≤ g.weight := g.weight_filter_le _

theorem Mgr.weight_smcProcess (g : Mgr) (x : ExpID) : (g.smcProcess x).1.weight = g.weight := by
  unfold Mgr.weight
  rw [Mgr.smcProcess, List.map_map]
  refine congrArg List.sum (List.map_congr_left fun p _ => ?_)
  rw [Function.comp_apply]
  split
  · exact p.weight_seqno g.seqno
  · rfl

namespace Net

variable {s t : Net n} {a : Act n}

def inWork (s : Net n) : Int :=
  (Worth.exposure n).total s + s.sup.npxfStarted + s.sup.npxfTransferred

def inClean (s : Net n) : Int := Worth.cleanup.total s + s.sup.dcaDone

/-- A client that knows the DCA sends its `TransferComplete`. -/
theorem Linked.sends (h : s.Linked) (hn : s.Named) {i : Fin n} {x : ExpID} {ms : List Msg}
    (hm : s.toPxf i = ⟨.start, .process x⟩ :: ms) (hst : s.step (.pxfRecv i) = some t) :
    ∃ k, t.pxfToDca i = s.pxfToDca i ++
      (pxfProcess (s.pxfPages i) (s.mgr i).pages x ++ [.transferComplete k]) := by
  obtain ⟨p, hp, htid⟩ := h.pxf i
  have hsend := hn.sends
  rw [← htid] at hsend
  simp only [step, hp, hm, if_pos hsend] at hst
  cases hst
  exact ⟨_, update_self ..⟩

/-- The tokens are handed on, and the log names the same exposure. -/
structure Handed (s t : Net n) : Prop where
  work : t.inWork = s.inWork
  clean : t.inClean = s.inClean
  flight : inFlight t.log = inFlight s.log
  proc : lastProc t.log = lastProc s.log

/-- A step that changes no counter. -/
theorem Handed.of_total (h1 : (Worth.exposure n).total t = (Worth.exposure n).total s)
    (h2 : Worth.cleanup.total t = Worth.cleanup.total s)
    (hs : t.sup.npxfStarted = s.sup.npxfStarted) (ht : t.sup.npxfTransferred = s.sup.npxfTransferred)
    (hd : t.sup.dcaDone = s.sup.dcaDone) (hf : inFlight t.log = inFlight s.log)
    (hp : lastProc t.log = lastProc s.log) : Handed s t :=
  ⟨by rw [inWork, h1, hs, ht, inWork], by rw [inClean, h2, hd, inClean], hf, hp⟩

/-! ### A step hands the tokens on -/

section Steps

variable {i : Fin n} {m : Msg} {ms : List Msg} {x : ExpID}

theorem handed_mgrOther (hm : s.toMgr i = m :: ms) (hj : m.job = none) (g : Mgr) :
    Handed s (s.mgrTakes i ms g []) := by
  have h := fun w : Worth => w.total_mgrTakes (o := []) hm g
  refine .of_total ?_ ?_ rfl rfl rfl rfl rfl
  · simpa [hj] using h (Worth.exposure n)
  · simpa [hj] using h Worth.cleanup

theorem handed_mgrProcess (hm : s.toMgr i = ⟨.start, .process x⟩ :: ms) :
    Handed s (s.mgrTakes i ms ((s.mgr i).smcProcess x).1 ((s.mgr i).smcProcess x).2) := by
  have h := fun w : Worth => w.total_mgrTakes (o := ((s.mgr i).smcProcess x).2) hm
    ((s.mgr i).smcProcess x).1
  refine .of_total ?_ ?_ rfl rfl rfl rfl rfl
  · simpa [Worth.sum_smcProcess, Msg.job, Msg.reply] using h (Worth.exposure n)
  · simpa [Worth.sum_smcProcess, Msg.job, Msg.reply] using h Worth.cleanup

theorem handed_mgrFinish (hm : s.toMgr i = ⟨.finish, .expID x⟩ :: ms) (g : Mgr) :
    Handed s (s.mgrTakes i ms g [⟨.set, .cleanDone x⟩]) := by
  have h := fun w : Worth => w.total_mgrTakes (o := [⟨.set, .cleanDone x⟩]) hm g
  refine .of_total ?_ ?_ rfl rfl rfl rfl rfl
  · simpa [Msg.job, Msg.reply] using h (Worth.exposure n)
  · simpa [Msg.job, Msg.reply] using h Worth.cleanup

theorem handed_pxfOther (hm : s.toPxf i = m :: ms) (hf : m.feed = none) (p : Option Pxf) :
    Handed s { s with pxf := update s.pxf i p, toPxf := update s.toPxf i ms } := by
  have h := fun w : Worth => w.total_pxfOther hm p
  refine .of_total ?_ ?_ rfl rfl rfl rfl rfl
  · simpa [hf] using h (Worth.exposure n)
  · simpa using h Worth.cleanup

theorem handed_pxfProcess (hm : s.toPxf i = ⟨.start, .process x⟩ :: ms) (p : Option Pxf) (k : Int) :
    Handed s { s with
      pxf := update s.pxf i p
      toPxf := update s.toPxf i ms
      pxfToDca := update s.pxfToDca i (s.pxfToDca i ++
        (pxfProcess (s.pxfPages i) (s.mgr i).pages x ++ [.transferComplete k]))
      fromPxf := update s.fromPxf i (s.fromPxf i ++ [⟨.set, .pxfDone (fmt6 x)⟩]) } := by
  have h := fun w : Worth => w.total_pxfTakes
    (l := pxfProcess (s.pxfPages i) (s.mgr i).pages x ++ [.transferComplete k])
    (o := [⟨.set, .pxfDone (fmt6 x)⟩]) hm p
  have hsum := fun (w : Worth) hw => w.sum_pxfProcess (c := 0) hw (s.pxfPages i) (s.mgr i).pages x
  refine .of_total ?_ ?_ rfl rfl rfl rfl rfl
  · simpa [Msg.feed, hsum (Worth.exposure n) fun r hr => by simp [hr], DcaReq.isTransfer] using h (Worth.exposure n)
  · simpa [hsum Worth.cleanup fun _ _ => rfl] using h Worth.cleanup

/-- A request of the Supervisor: only the end of a readout is worth something. -/
theorem handed_dcaRequest {r : DcaReq} {rs : List DcaReq} (hr : s.toDca = r :: rs) (d : Dca)
    (out : List Msg) (h0 : (out.map (Worth.exposure n).fromDca).sum = if r.isEnd then n else 0) :
    Handed s ({ s with toDca := rs }.dcaTakes d out) := by
  have h := fun w : Worth => w.total_dcaRequest (o := out) hr d
  refine .of_total ?_ ?_ rfl rfl rfl rfl rfl
  · have h1 := h (Worth.exposure n)
    rw [h0] at h1
    exact Nat.add_right_cancel h1
  · have h0 : (out.map fun _ => 0).sum = 0 := by simp
    exact (h Worth.cleanup).trans (congrArg _ h0)

/-- A request of a client: only the end of its transfer is worth something. -/
theorem handed_dcaData {r : DcaReq} {rs : List DcaReq} (hr : s.pxfToDca i = r :: rs) (d : Dca)
    (out : List Msg) (h0 : (out.map (Worth.exposure n).fromDca).sum = if r.isTransfer then 1 else 0)
    (evs : List (Event n)) (he : inFlight (evs ++ s.log) = inFlight s.log)
    (hp : lastProc (evs ++ s.log) = lastProc s.log) :
    Handed s (({ s with pxfToDca := update s.pxfToDca i rs }.dcaTakes d out).note evs) := by
  have h := fun w : Worth => w.total_dcaData (o := out) hr d
  refine .of_total ?_ ?_ rfl rfl rfl he hp
  · have h1 := h (Worth.exposure n)
    rw [h0] at h1
    exact Nat.add_right_cancel h1
  · have h0 : (out.map fun _ => 0).sum = 0 := by simp
    exact (h Worth.cleanup).trans (congrArg _ h0)

theorem handed_imagetype (hn : s.Named) (hm : s.fromMgr i = ⟨.set, .imagetype x⟩ :: ms) :
    Handed s ((s.supTakes i ms []).onImagetype x) := by
  have h1 := fun w : Worth => w.total_supTakes hm []
  have h2 := fun w : Worth => w.total_onImagetype (s := s.supTakes i ms []) hn.sends x
  refine .of_total ?_ ?_ rfl rfl rfl rfl rfl
  · simpa [h2, Msg.reply, DcaReq.isEnd, readoutRequests] using h1 (Worth.exposure n)
  · simpa [h2, Msg.reply, readoutRequests] using h1 Worth.cleanup

theorem handed_smcDone (hm : s.fromMgr i = ⟨.set, .smcDone x⟩ :: ms) :
    Handed s { s.supTakes i ms [.smcDone i x] with
      sup := { s.sup with npxfStarted := s.sup.npxfStarted + 1 } } := by
  have h1 := (Worth.exposure n).total_supTakes hm [.smcDone i x]
  have h2 := Worth.cleanup.total_supTakes hm [.smcDone i x]
  simp only [Worth.exposure_fromMgr, Worth.cleanup_fromMgr, Msg.reply, Nat.add_zero] at h1 h2
  refine ⟨?_, ?_, rfl, rfl⟩
  · show ((Worth.exposure n).total (s.supTakes i ms [.smcDone i x]) : Int) +
      (s.sup.npxfStarted + 1) + s.sup.npxfTransferred = s.inWork
    rw [inWork]
    omega
  · show (Worth.cleanup.total (s.supTakes i ms [.smcDone i x]) : Int) + s.sup.dcaDone = s.inClean
    rw [inClean, h2]

theorem handed_startPxf (hl : s.Linked) (hm : s.fromMgr i = ⟨.set, .smcDone x⟩ :: ms) :
    Handed s ((s.supTakes i ms [.smcDone i x]).startPxf x (s.sup.npxfStarted + 1 - n)) := by
  have h1 := (Worth.exposure n).total_supTakes hm [.smcDone i x]
  have h2 := Worth.cleanup.total_supTakes hm [.smcDone i x]
  have h3 := fun w : Worth => w.total_startPxf (s := s.supTakes i ms [.smcDone i x]) hl.isSome x
    (s.sup.npxfStarted + 1 - n)
  simp only [Worth.exposure_fromMgr, Worth.cleanup_fromMgr, Msg.reply, Nat.add_zero] at h1 h2
  refine ⟨?_, ?_, rfl, rfl⟩
  · show ((Worth.exposure n).total ((s.supTakes i ms [.smcDone i x]).startPxf x _) : Int) +
      (s.sup.npxfStarted + 1 - n) + s.sup.npxfTransferred = s.inWork
    rw [inWork, h3]
    simp only [Worth.exposure_toPxf, Msg.feed, Option.isSome, Bool.false_eq_true, if_false, if_true]
    omega
  · show (Worth.cleanup.total ((s.supTakes i ms [.smcDone i x]).startPxf x _) : Int) +
      s.sup.dcaDone = s.inClean
    rw [inClean, h3, h2]
    simp only [Worth.cleanup_toPxf, Nat.add_zero, Nat.mul_zero]

theorem handed_cleanDone (hm : s.fromMgr i = ⟨.set, .cleanDone x⟩ :: ms) (q : ProcQueue) :
    Handed s ((s.supTakes i ms [.cleanDone i x]).onCleanDone q) := by
  have h1 := (Worth.exposure n).total_supTakes hm [.cleanDone i x]
  have h2 := Worth.cleanup.total_supTakes hm [.cleanDone i x]
  simp only [Worth.exposure_fromMgr, Worth.cleanup_fromMgr, Msg.reply, Nat.add_zero] at h1 h2
  refine ⟨?_, ?_, rfl, rfl⟩
  · show ((Worth.exposure n).total (s.supTakes i ms [.cleanDone i x]) : Int) +
      s.sup.npxfStarted + s.sup.npxfTransferred = s.inWork
    rw [inWork, h1]
  · show (Worth.cleanup.total (s.supTakes i ms [.cleanDone i x]) : Int) + (s.sup.dcaDone + 1) =
      s.inClean
    rw [inClean]
    omega

theorem handed_transDone {k : Int} (hm : s.fromDca = ⟨.set, .dcaTransDone k⟩ :: ms) :
    Handed s { s with
      fromDca := ms
      sup := { s.sup with npxfTransferred := s.sup.npxfTransferred + 1 } } := by
  have h1 := (Worth.exposure n).total_fromDca hm
  have h2 := Worth.cleanup.total_fromDca hm
  simp only [Worth.exposure_fromDca, Worth.cleanup_fromDca, Msg.dcaDone, Msg.transDone, Option.isSome,
    Bool.false_eq_true, if_false, if_true, Nat.add_zero] at h1 h2
  refine ⟨?_, ?_, rfl, rfl⟩
  · show ((Worth.exposure n).total { s with fromDca := ms } : Int) + s.sup.npxfStarted +
      (s.sup.npxfTransferred + 1) = s.inWork
    rw [inWork]
    omega
  · show (Worth.cleanup.total { s with fromDca := ms } : Int) + s.sup.dcaDone = s.inClean
    rw [inClean, h2]

theorem onDcaDone_started (x : ExpID) (q : ProcQueue) :
    (s.onDcaDone x q).sup.npxfStarted = s.sup.npxfStarted := rfl

theorem onDcaDone_transferred (x : ExpID) (q : ProcQueue) :
    (s.onDcaDone x q).sup.npxfTransferred = s.sup.npxfTransferred := rfl

theorem onDcaDone_cleaned (x : ExpID) (q : ProcQueue) :
    (s.onDcaDone x q).sup.dcaDone = s.sup.dcaDone := rfl

theorem onDcaDone_log (x : ExpID) (q : ProcQueue) : (s.onDcaDone x q).log =
    (((removed s.sup.queue q).map Event.removed).toList ++ [.dcaDone x]) ++ s.log := rfl

theorem endReadout_started (k c : Int) : (s.endReadout k c).sup.npxfStarted = s.sup.npxfStarted := rfl

theorem endReadout_transferred (k c : Int) : (s.endReadout k c).sup.npxfTransferred = c := rfl

theorem endReadout_cleaned (k c : Int) : (s.endReadout k c).sup.dcaDone = s.sup.dcaDone := rfl

theorem handed_endReadout (hn : s.Named) {k : Int} (hm : s.fromDca = ⟨.set, .dcaTransDone k⟩ :: ms) :
    Handed s ({ s with fromDca := ms }.endReadout k (s.sup.npxfTransferred + 1 - n)) := by
  have h1 := (Worth.exposure n).total_fromDca hm
  have h2 := Worth.cleanup.total_fromDca hm
  have h3 := fun w : Worth => w.total_endReadout (s := { s with fromDca := ms }) hn.sends k
    (s.sup.npxfTransferred + 1 - n)
  simp only [Worth.exposure_fromDca, Worth.cleanup_fromDca, Msg.dcaDone, Msg.transDone, Option.isSome,
    Bool.false_eq_true, if_false, if_true, Nat.add_zero] at h1 h2
  refine ⟨?_, ?_, rfl, rfl⟩
  · have h4 := h3 (Worth.exposure n)
    rw [Worth.exposure_toDca, DcaReq.isEnd, if_pos rfl] at h4
    simp only [inWork, endReadout_started, endReadout_transferred]
    omega
  · have h4 := h3 Worth.cleanup
    rw [Worth.cleanup_toDca, Nat.add_zero, h2] at h4
    rw [inClean, h4, endReadout_cleaned, inClean]

end Steps

/-- Every step hands the tokens on, except for the start of an exposure and its `dca_done`. -/
theorem Trans.tokens (ht : Trans s a t) (hn : s.Named) (hl : s.Linked) (hst : s.step a = some t) :
    Handed s t ∨
    (s.Starts ∧ ∃ q, pqSetStat s.sup.queue (pqNext s.sup.queue) .active = some q ∧
      t = s.startExposure (pqNext s.sup.queue) q) ∨
    ∃ x fname ms q, s.fromDca = ⟨.set, .dcaDone x fname⟩ :: ms ∧ pqSetStat s.sup.queue x .done = some q ∧
      t = { s with fromDca := ms }.onDcaDone x q := by
  cases ht with
  | panOpen | panClose | openOther | closeOther | collect | wait | dcaStops => exact .inl ⟨rfl, rfl, rfl, rfl⟩
  | setOptionSeqno v =>
    refine .inl (.of_total ?_ ?_ rfl rfl rfl rfl rfl)
    · exact (Worth.exposure n).total_bcastMgr (s := s) ⟨.set, .optionSeqno v⟩
    · exact Worth.cleanup.total_bcastMgr (s := s) ⟨.set, .optionSeqno v⟩
  | start q h0 hc hq => exact .inr (.inl ⟨⟨h0, hc⟩, q, hq, rfl⟩)
  | dcaConnect k par hd =>
    obtain ⟨d, hd', -⟩ := hn.dca
    rw [hd] at hd'
    cases hd'
  | pxfConnect i hp =>
    obtain ⟨p, hp', -⟩ := hl.pxf i
    rw [hp] at hp'
    cases hp'
  | mgrOther i m ms hm hj => exact .inl (handed_mgrOther hm hj _)
  | mgrProcess i x ms hm => exact .inl (handed_mgrProcess hm)
  | mgrFinish i x ms hm => exact .inl (handed_mgrFinish hm _)
  | pxfOther i p p' m ms hp hm hf hset => exact .inl (handed_pxfOther hm hf _)
  | pxfProcess i p p' x ms sent hp hm hset hs =>
    obtain ⟨k, hk⟩ := hl.sends hn hm hst
    obtain rfl : sent = Ndhs.pxfProcess (s.pxfPages i) (s.mgr i).pages x ++ [.transferComplete k] :=
      List.append_cancel_left ((update_self i _ s.pxfToDca).symm.trans hk)
    exact .inl (handed_pxfProcess hm _ k)
  | dcaQuiet o d d' r rs out hgo hr he hout hid =>
    refine .inl (handed_dcaRequest hr d' out ?_)
    rw [he, if_neg Bool.false_ne_true]
    exact Nat.le_zero.mp ((Worth.exposure n).sum_traffic (fun _ _ => rfl) hout)
  | dcaEnd o d d' k b c fname rs hgo hr hid hf => exact .inl (handed_dcaRequest hr d' _ (Nat.zero_add n))
  | dcaData i o d d' r rs out hgo hr htr hout hid =>
    refine .inl (handed_dcaData hr d' out ?_ [] rfl rfl)
    rw [htr, if_neg Bool.false_ne_true]
    exact Nat.le_zero.mp ((Worth.exposure n).sum_traffic (fun _ _ => rfl) hout)
  | dcaTransfer i o d k rs hgo hr => exact .inl (handed_dcaData hr d _ rfl [.transferComplete i] rfl rfl)
  | imagetype i x ms hm => exact .inl (handed_imagetype hn hm)
  | smcDone i x ms hm hc => exact .inl (handed_smcDone hm)
  | startPxf i x ms hm hc => exact .inl (handed_startPxf hl hm)
  | cleanDone i x ms q hm hq => exact .inl (handed_cleanDone hm q)
  | pxfDone i m ms hm =>
    have h := fun w : Worth => w.total_fromPxf hm
    refine .inl (.of_total ?_ ?_ rfl rfl rfl rfl rfl)
    · simpa using h (Worth.exposure n)
    · simpa using h Worth.cleanup
  | dcaTid k ms hm => exact absurd (hm ▸ List.mem_cons_self) (hn.noTid k)
  | transDone k ms hm hc => exact .inl (handed_transDone hm)
  | endReadout k ms hm hc => exact .inl (handed_endReadout hn hm)
  | dcaTrans b c ms hm =>
    have h := fun w : Worth => w.total_fromDca hm
    refine .inl (.of_total ?_ ?_ rfl rfl rfl rfl rfl)
    · simpa [Msg.dcaDone, Msg.transDone] using h (Worth.exposure n)
    · simpa using h Worth.cleanup
  | dcaDone x fname ms q hm hq => exact .inr (.inr ⟨x, fname, ms, q, hm, hq, rfl⟩)

/-! ### The exposure in flight has `n` tokens -/

/-- Nothing is on its way between two exposures. -/
theorem total_idle (h : s.pipe.In .idle) :
    (Worth.exposure n).total s = 0 ∧ Worth.cleanup.total s = 0 := by
  obtain ⟨-, -, ⟨ht, -⟩, he, hd⟩ := h.counts
  have hjob : ∀ i, ∀ m ∈ s.toMgr i, m.job = none := fun i =>
    List.filterMap_eq_nil_iff.mp (h.lane i).1
  have hreply : ∀ i, ∀ m ∈ s.fromMgr i, m.reply = none := fun i =>
    List.filterMap_eq_nil_iff.mp (h.lane i).2
  have hfeed : ∀ i, ∀ m ∈ s.toPxf i, m.feed = none := fun i =>
    List.filterMap_eq_nil_iff.mp (h.feed i).1
  have hx : ∀ i, ∀ r ∈ s.pxfToDca i, r.isTransfer = false := fun i r hr => by
    simpa using List.countP_eq_zero.mp (h.feed i).2 r hr
  have hends : ∀ r ∈ s.toDca, r.isEnd = false := fun r hr => by
    simpa using List.countP_eq_zero.mp he r hr
  have htrans : ∀ m ∈ s.fromDca, m.transDone = none :=
    List.filterMap_eq_nil_iff.mp (List.length_eq_zero_iff.mp ht)
  have hdone : ∀ m ∈ s.fromDca, m.dcaDone = none := List.filterMap_eq_nil_iff.mp hd
  constructor
  · refine (Worth.exposure n).total_eq_zero (fun i m hm => ?_) (fun i m hm => ?_) (fun i m hm => ?_)
      (fun _ _ _ => rfl) (fun i r hr => ?_) (fun r hr => ?_) fun m hm => ?_
    · simp [hjob i m hm]
    · simp [hreply i m hm]
    · simp [hfeed i m hm]
    · simp [hx i r hr]
    · simp [hends r hr]
    · simp [htrans m hm, hdone m hm]
  · refine Worth.cleanup.total_eq_zero (fun i m hm => ?_) (fun i m hm => ?_) (fun _ _ _ => rfl)
      (fun _ _ _ => rfl) (fun _ _ _ => rfl) (fun _ _ => rfl) fun _ _ => rfl
    · simp [hjob i m hm]
    · simp [hreply i m hm]

structure Conserved (s : Net n) : Prop where
  serial : s.SerialInv
  linked : s.Linked
  /-- The exposure in flight has `n` tokens. -/
  work : s.inWork = n * (inFlight s.log).length
  /-- Nothing is lost in the clean-up. -/
  all : lastProc s.log ≠ none → s.inWork + s.inClean = n
  turn : 0 ≤ s.sup.npxfTransferred ∧ s.sup.npxfTransferred < n

/-! ### The start of an exposure and its `dca_done` -/

theorem Trans.turn (ht : Trans s a t) (h : 0 ≤ s.sup.npxfTransferred ∧ s.sup.npxfTransferred < n) :
    0 ≤ t.sup.npxfTransferred ∧ t.sup.npxfTransferred < n := by
  cases ht with
  | transDone k ms hm hc =>
    show 0 ≤ s.sup.npxfTransferred + 1 ∧ s.sup.npxfTransferred + 1 < (n : Int)
    omega
  | endReadout k ms hm hc =>
    show 0 ≤ s.sup.npxfTransferred + 1 - n ∧ s.sup.npxfTransferred + 1 - n < (n : Int)
    omega
  | _ => exact h

/-- A start gives the exposure its tokens. -/
theorem Conserved.start_tokens (h : s.Conserved) (hn : 0 < n) (hs : s.Starts) (q : ProcQueue) :
    (s.startExposure (pqNext s.sup.queue) q).inWork =
        n * (inFlight (s.startExposure (pqNext s.sup.queue) q).log).length ∧
      (s.startExposure (pqNext s.sup.queue) q).inWork +
        (s.startExposure (pqNext s.sup.queue) q).inClean = n := by
  have hi := h.serial.ok.idle hs
  obtain ⟨h1, h2⟩ := total_idle hi
  obtain ⟨hstart, hclean, ⟨-, htrans⟩, -⟩ := hi.counts
  have hstart' : s.sup.npxfStarted = 0 := hstart
  have htrans' : s.sup.npxfTransferred = 0 := htrans
  have hclean' : s.sup.dcaDone < 0 ∨ s.sup.dcaDone = n := hclean
  have hempty : inFlight s.log = [] := by
    have hw := h.work
    rw [inWork, h1, hstart', htrans'] at hw
    have hmul : (n : Int) * (inFlight s.log).length = 0 := by simpa using hw.symm
    rcases Int.mul_eq_zero.mp hmul with h0 | h0
    · omega
    · exact List.length_eq_zero_iff.mp (by omega)
  have hflight : inFlight (s.startExposure (pqNext s.sup.queue) q).log = [pqNext s.sup.queue] := by
    show (inFlight s.log).insert (pqNext s.sup.queue) = _
    rw [hempty]
    rfl
  have hw1 := (Worth.exposure n).total_startExposure h.linked.isSome (pqNext s.sup.queue) q
  have hw2 := Worth.cleanup.total_startExposure h.linked.isSome (pqNext s.sup.queue) q
  simp only [Worth.exposure_toPxf, Worth.exposure_toMgr, Msg.feed, Msg.job, Option.isSome,
    Bool.false_eq_true, if_false, Nat.mul_zero, Nat.mul_one, Nat.add_zero, h1, Nat.zero_add] at hw1
  simp only [Worth.cleanup_toPxf, Worth.cleanup_toMgr, Msg.job, Nat.mul_zero, Nat.add_zero, h2] at hw2
  have hwork : (s.startExposure (pqNext s.sup.queue) q).inWork = n := by
    show ((Worth.exposure n).total (s.startExposure (pqNext s.sup.queue) q) : Int) +
      s.sup.npxfStarted + s.sup.npxfTransferred = n
    rw [hw1, hstart', htrans']
    omega
  refine ⟨?_, ?_⟩
  · rw [hwork, hflight]
    simp
  · rw [hwork]
    show (n : Int) + ((Worth.cleanup.total (s.startExposure (pqNext s.sup.queue) q) : Int) +
      max (s.sup.dcaDone - n) 0) = n
    rw [hw2]
    omega

/-- A `dca_done` is about the exposure in flight, the oldest one of the queue. -/
theorem Conserved.flight (h : s.Conserved) (hn : 0 < n) {x : ExpID} {fname : Str} {ms : List Msg}
    (hm : s.fromDca = ⟨.set, .dcaDone x fname⟩ :: ms) :
    ∃ e, inFlight s.log = [e] ∧ x = fmt6 e ∧
      (s.sup.queue.entries.map PqEntry.expID).head? = some e := by
  obtain ⟨st, hi⟩ := h.serial.ok.pipe.stage
  have hd : s.pipe.dones = x :: ms.filterMap Msg.dcaDone := by
    simp [Net.pipe, hm, Msg.dcaDone]
  obtain ⟨rfl, -, -⟩ := hi.of_dones hd
  obtain ⟨hstart, -, ⟨-, htrans⟩, -⟩ := hi.counts
  have hstart' : s.sup.npxfStarted = 0 := hstart
  have htrans' : s.sup.npxfTransferred = 0 := htrans
  have htotal := (Worth.exposure n).total_fromDca hm
  simp only [Worth.exposure_fromDca, Msg.dcaDone, Option.isSome, if_true] at htotal
  have hw := h.work
  rw [inWork, hstart', htrans'] at hw
  rcases h.serial.track.flight.head with hl | ⟨e, hl, hp, hh⟩
  · rw [hl] at hw
    simp only [List.length_nil] at hw
    omega
  · exact ⟨e, hl, h.serial.named.dones x fname (hm ▸ List.mem_cons_self) e hp, hh⟩

/-- The tokens of the exposure become those of its clean-up. -/
theorem Conserved.dcaDone_tokens (h : s.Conserved) (hn : 0 < n) {x : ExpID} {fname : Str} {ms : List Msg}
    {q : ProcQueue} (hm : s.fromDca = ⟨.set, .dcaDone x fname⟩ :: ms)
    (hq : pqSetStat s.sup.queue x .done = some q) :
    ({ s with fromDca := ms }.onDcaDone x q).inWork =
        (n : Int) * (inFlight ({ s with fromDca := ms }.onDcaDone x q).log).length ∧
      ({ s with fromDca := ms }.onDcaDone x q).inWork +
        ({ s with fromDca := ms }.onDcaDone x q).inClean = s.inWork + s.inClean := by
  obtain ⟨e, hl, rfl, hh⟩ := h.flight hn hm
  have hwf := h.serial.track.flight.wf
  have hflight : inFlight ({ s with fromDca := ms }.onDcaDone (fmt6 e) q).log = [] := by
    rw [onDcaDone_log, removed, if_pos (hwf.pqSetStat_head hh hq), hwf.head_expID hh]
    show (inFlight s.log).erase e = []
    rw [hl, List.erase_cons_head]
  have hw1 := (Worth.exposure n).total_onDcaDone (s := { s with fromDca := ms }) (fmt6 e) q
  have hw2 := Worth.cleanup.total_onDcaDone (s := { s with fromDca := ms }) (fmt6 e) q
  have ht1 := (Worth.exposure n).total_fromDca hm
  have ht2 := Worth.cleanup.total_fromDca hm
  simp only [Worth.exposure_fromDca, Worth.cleanup_fromDca, Msg.dcaDone, Option.isSome, if_true,
    Nat.add_zero] at ht1 ht2
  simp only [Worth.exposure_toMgr, Worth.cleanup_toMgr, Msg.job, Nat.mul_zero, Nat.mul_one,
    Nat.add_zero] at hw1 hw2
  have hwork : ({ s with fromDca := ms }.onDcaDone (fmt6 e) q).inWork = s.inWork - n := by
    simp only [inWork, onDcaDone_started, onDcaDone_transferred]
    omega
  have hclean : ({ s with fromDca := ms }.onDcaDone (fmt6 e) q).inClean = s.inClean + n := by
    simp only [inClean, onDcaDone_cleaned]
    omega
  refine ⟨?_, ?_⟩
  · rw [hwork, hflight, h.work, hl]
    simp
  · rw [hwork, hclean]
    omega

theorem Conserved.step (h : s.Conserved) (hn : 0 < n) (hk : Regular s a)
    (hst : s.step a = some t) : t.Conserved := by
  have ht := h.serial.ok.typed.step_cases hk.answered hst
  have hs' := h.serial.step hk hst
  have hl := h.linked.trans h.serial.named ht
  have hturn := ht.turn h.turn
  have hproc := ht.keeps_or_starts
  rcases ht.tokens h.serial.named h.linked hst with hh | ⟨hs, q, -, rfl⟩ | ⟨x, fname, ms, q, hm, hq, rfl⟩
  · refine ⟨hs', hl, ?_, ?_, hturn⟩
    · rw [hh.work, hh.flight]
      exact h.work
    · rw [hh.work, hh.clean, hh.proc]
      exact h.all
  · obtain ⟨h1, h2⟩ := h.start_tokens hn hs q
    exact ⟨hs', hl, h1, fun _ => h2, hturn⟩
  · obtain ⟨h1, h2⟩ := h.dcaDone_tokens hn hm hq
    refine ⟨hs', hl, h1, fun hne => h2.trans (h.all ?_), hturn⟩
    rcases hproc with ⟨hp, -⟩ | ⟨-, hs, -⟩
    · rwa [hp] at hne
    · -- nothing is on its way when an exposure is started
      have hd := (h.serial.ok.idle hs).counts.2.2.2.2
      simp [Net.pipe, hm, Msg.dcaDone] at hd

/-! ## A quiet state -/

/-- Nothing is on its way. -/
structure Quiet (s : Net n) : Prop where
  toMgr : ∀ i, s.toMgr i = []
  fromMgr : ∀ i, s.fromMgr i = []
  toPxf : ∀ i, s.toPxf i = []
  fromPxf : ∀ i, s.fromPxf i = []
  pxfToDca : ∀ i, s.pxfToDca i = []
  toDca : s.toDca = []
  fromDca : s.fromDca = []

theorem Quiet.total (h : s.Quiet) (w : Worth) : w.total s = 0 := by
  refine w.total_eq_zero (fun i m hm => ?_) (fun i m hm => ?_) (fun i m hm => ?_) (fun i m hm => ?_)
    (fun i r hr => ?_) (fun r hr => ?_) fun m hm => ?_
  · rw [h.toMgr i] at hm; cases hm
  · rw [h.fromMgr i] at hm; cases hm
  · rw [h.toPxf i] at hm; cases hm
  · rw [h.fromPxf i] at hm; cases hm
  · rw [h.pxfToDca i] at hr; cases hr
  · rw [h.toDca] at hr; cases hr
  · rw [h.fromDca] at hm; cases hm

theorem Conserved.connected (hn : 0 < n) (c : Setup n) (tid : Int) (par : Mosdca.Params) :
    (Net.connected c tid par).Conserved where
  serial := SerialInv.connected c tid par
  linked := ⟨fun _ => ⟨_, rfl, rfl⟩, fun _ _ hm => nomatch hm⟩
  work := by
    have hq : (Net.connected c tid par).Quiet :=
      ⟨fun _ => rfl, fun _ => rfl, fun _ => rfl, fun _ => rfl, fun _ => rfl, rfl, rfl⟩
    show ((Worth.exposure n).total (Net.connected c tid par) : Int) + 0 + 0 = n * (0 : Nat)
    rw [hq.total]
    simp
  all h := absurd rfl h
  turn := ⟨le_refl (0 : Int), by show (0 : Int) < n; omega⟩

/-- When nothing is on its way, the pipeline is between two exposures. -/
theorem Conserved.idle_of_quiet (h : s.Conserved) (hq : s.Quiet) : s.pipe.In .idle := by
  obtain ⟨st, hi⟩ := h.serial.ok.pipe.stage
  have hjobs : ∀ i, s.pipe.jobs i = [] := fun i => by simp [Net.pipe, hq.toMgr i]
  have hreplies : ∀ i, s.pipe.replies i = [] := fun i => by simp [Net.pipe, hq.fromMgr i]
  have hwork : s.inWork = s.sup.npxfStarted + s.sup.npxfTransferred := by
    rw [inWork, hq.total]
    omega
  have hclean : s.inClean = s.sup.dcaDone := by
    rw [inClean, hq.total]
    omega
  have hturn := h.turn
  cases st with
  | idle => exact hi
  | smc x H =>
    have hall : ∀ i, i ∈ H := by
      intro i
      obtain ⟨-, hj, -⟩ | ⟨-, -, k, hr⟩ | ⟨hm, -⟩ := hi.lane i
      · rw [hjobs i] at hj
        cases hj
      · rw [hreplies i] at hr
        simp at hr
      · exact hm
    have hlt := hi.counts.1.2
    rw [(Finset.card_eq_iff_eq_univ H).mpr (Finset.eq_univ_iff_forall.mpr hall)] at hlt
    exact absurd hlt (lt_irrefl _)
  | pxf x H =>
    obtain ⟨hs, hc, -⟩ := hi.counts
    have hs' : s.sup.npxfStarted = 0 := hs
    have hc' : s.sup.dcaDone = 0 := hc
    obtain ⟨e, he, -⟩ := hi.logged.1
    have hall := h.all (by rw [show lastProc s.log = some e from he]; exact Option.some_ne_none e)
    omega
  | ending =>
    obtain ⟨hs, hc, ⟨-, htr⟩, -, hn⟩ := hi.counts
    have hs' : s.sup.npxfStarted = 0 := hs
    have hc' : s.sup.dcaDone = 0 := hc
    have htr' : s.sup.npxfTransferred = 0 := htr
    have hall := h.all hi.logged
    omega
  | clean y H =>
    have hall : ∀ i, i ∈ H := by
      intro i
      obtain ⟨-, hj, -⟩ | ⟨-, -, hr⟩ | ⟨hm, -⟩ := hi.lane i
      · rw [hjobs i] at hj
        cases hj
      · rw [hreplies i] at hr
        cases hr
      · exact hm
    have hlt := hi.counts.2.1.2
    rw [(Finset.card_eq_iff_eq_univ H).mpr (Finset.eq_univ_iff_forall.mpr hall)] at hlt
    exact absurd hlt (lt_irrefl _)

/-- Nothing is on its way, the exposure started last is done and out of the queue, all nodes have
cleaned it up, and the Supervisor may start the next one. -/
structure Settled (s : Net n) : Prop where
  quiet : s.Quiet
  flight : inFlight s.log = []
  done : ∀ e, lastProc s.log = some e →
    .dcaDone (fmt6 e) ∈ sinceProc s.log ∧ ∀ i, .cleanDone i (fmt6 e) ∈ sinceProc s.log
  next : s.sup.dcaDone < 0 ∨ n ≤ s.sup.dcaDone

theorem Conserved.settled (h : s.Conserved) (hn : 0 < n) (hq : s.Quiet) : s.Settled := by
  have hi := h.idle_of_quiet hq
  obtain ⟨hstart, hclean, ⟨-, htrans⟩, -⟩ := hi.counts
  have hstart' : s.sup.npxfStarted = 0 := hstart
  have htrans' : s.sup.npxfTransferred = 0 := htrans
  refine ⟨hq, ?_, fun e he => ?_, hclean.imp_right fun hc => hc.ge⟩
  · rcases h.serial.track.flight.head with hl | ⟨e, hl, -⟩
    · exact hl
    · have hw := h.work
      rw [inWork, hq.total, hstart', htrans', hl, List.length_singleton] at hw
      omega
  · obtain ⟨y, hy, hall⟩ := hi.logged (by rw [show s.pipe.log = s.log from rfl, he]; exact Option.some_ne_none e) hn
    have hname := (h.serial.track.orderly s.log (List.suffix_refl _)).1 e y he hy
    rw [hname, fmt6_fmt6] at hall
    exact ⟨hname ▸ hy, hall⟩

/-! ## Deliveries -/

/-- The delivery of a message -/
def Act.IsDelivery : Act n → Prop
  | .mgrRecv _ | .pxfRecv _ | .dcaFromSup _ | .dcaFromPxf .. | .supFromMgr _ | .supFromPxf _
  | .supFromDca => True
  | .panOpen .. | .panClose .. | .collect .. | .setOptionSeqno _ | .procNext | .dcaConnect .. | .pxfConnect _ => False

/-- The DCA has stopped, or the request that it is to take is not one for it. -/
def Down (s : Net n) : Prop :=
  ∃ d, s.dca = some d ∧ (d.running = false ∨ ∃ r ∈ s.toDca.head?, ¬ (d.Finds r ∧ d.Allows s.sup.tid r))

/-- A status other than `PQ_DONE` does not stop the Supervisor. -/
theorem exists_setStat {q : ProcQueue} (h : q.Wf) (e : ExpID) (st : PqStat) (hst : st ≠ .done) :
    ∃ q', pqSetStat q e st = some q' := by
  obtain ⟨_, _, _, _, _, q', he, -⟩ | ⟨-, -, -, hc⟩ | ⟨-, -, he⟩ := h.pqSetStat_cases e st
  · exact ⟨q', he⟩
  · rw [if_neg fun h => hst h.1] at hc
    obtain ⟨q', he, -⟩ := hc
    exact ⟨q', he⟩
  · exact ⟨q, he⟩

/-- Nor does `PQ_DONE` while an exposure is queued. -/
theorem exists_setDone {q : ProcQueue} (h : q.Wf) (e : ExpID) (hne : q.entries ≠ []) :
    ∃ q', pqSetStat q e .done = some q' := by
  obtain ⟨_, _, _, _, _, q', he, -⟩ | ⟨-, -, -, hc⟩ | ⟨-, -, he⟩ := h.pqSetStat_cases e .done
  · exact ⟨q', he⟩
  · rw [if_neg fun h => hne h.2] at hc
    obtain ⟨q', he, -⟩ := hc
    exact ⟨q', he⟩
  · exact ⟨q, he⟩

/-- A running DCA takes what a client sends. -/
theorem exists_dcaFromPxf {d : Dca} {i : Fin n} {r : DcaReq} {rs : List DcaReq} (hd : s.dca = some d)
    (hrun : d.running = true) (hr : s.pxfToDca i = r :: rs) (o : Outcome) : ∃ t, s.step (.dcaFromPxf i o) = some t := by
  simp only [Net.step, hd, hr, if_pos hrun]
  split
  · exact ⟨_, rfl⟩
  · exact ⟨_, rfl⟩

theorem exists_dcaFromSup {d : Dca} {r : DcaReq} {rs : List DcaReq} (hd : s.dca = some d)
    (hrun : d.running = true) (hr : s.toDca = r :: rs) (o : Outcome) : ∃ t, s.step (.dcaFromSup o) = some t := by
  simp only [Net.step, hd, hr, if_pos hrun]
  split
  · exact ⟨_, rfl⟩
  · exact ⟨_, rfl⟩

/-- As long as a message is on its way and the DCA is not down, one can be delivered, and the Supervisor goes
on. -/
theorem Conserved.quiet_of_stuck (h : s.Conserved) (hn : 0 < n) (hdown : ¬ s.Down)
    (hs : Stuck Act.IsDelivery (restrict Regular Net.step) s) : s.Quiet := by
  obtain ⟨d, hd, -⟩ := h.serial.named.dca
  have hrun : d.running = true := by
    by_contra hno
    exact hdown ⟨d, hd, .inl (Bool.not_eq_true _ ▸ hno)⟩
  have hwf := h.serial.track.flight.wf
  have htyped := h.serial.ok.typed
  have hno : ∀ a : Act n, a.IsDelivery → Regular s a → s.step a = none := fun a ha hk =>
    restrict_eq_none.mp (hs a ha) hk
  refine ⟨fun i => ?_, fun i => ?_, fun i => ?_, fun i => ?_, fun i => ?_, ?_, ?_⟩
  · cases hL : s.toMgr i with
    | nil => rfl
    | cons m ms =>
      have hno := hno (.mgrRecv i) trivial trivial
      simp [Net.step, hL] at hno
  · cases hL : s.fromMgr i with
    | nil => rfl
    | cons m ms =>
      have hno := hno (.supFromMgr i) trivial trivial
      simp only [Net.step, hL] at hno
      rcases htyped.fromMgr i m (hL ▸ List.mem_cons_self) with ⟨x, rfl⟩ | ⟨x, rfl⟩ | ⟨x, rfl⟩
      · cases hno
      · cases hno
      · obtain ⟨q, hq⟩ := exists_setStat hwf x .available (by decide)
        have hq' : (pqSetStat s.sup.queue x .available).map
          ({ s with fromMgr := update s.fromMgr i ms }.note (report i ⟨.set, .cleanDone x⟩)).onCleanDone =
            none := hno
        rw [hq] at hq'
        cases hq'
  · cases hL : s.toPxf i with
    | nil => rfl
    | cons m ms =>
      obtain ⟨p, hp, -⟩ := h.linked.pxf i
      have hno := hno (.pxfRecv i) trivial trivial
      simp [Net.step, hL, hp] at hno
  · cases hL : s.fromPxf i with
    | nil => rfl
    | cons m ms =>
      have hno := hno (.supFromPxf i) trivial trivial
      simp only [Net.step, hL] at hno
      obtain ⟨x, rfl⟩ := htyped.fromPxf i m (hL ▸ List.mem_cons_self)
      cases hno
  · cases hL : s.pxfToDca i with
    | nil => rfl
    | cons r rs =>
      obtain ⟨t, ht⟩ := exists_dcaFromPxf hd hrun hL {}
      rw [hno (.dcaFromPxf i {}) trivial trivial] at ht
      cases ht
  · cases hL : s.toDca with
    | nil => rfl
    | cons r rs =>
      obtain ⟨t, ht⟩ := exists_dcaFromSup hd hrun hL {}
      have hreg : Regular s (.dcaFromSup {}) := by
        intro d' hd' r' hr'
        by_contra hbad
        exact hdown ⟨d', hd', .inr ⟨r', hr', hbad⟩⟩
      rw [hno (.dcaFromSup {}) trivial hreg] at ht
      cases ht
  · cases hL : s.fromDca with
    | nil => rfl
    | cons m ms =>
      have hno := hno .supFromDca trivial trivial
      simp only [Net.step, hL] at hno
      rcases htyped.fromDca m (hL ▸ List.mem_cons_self) with ⟨k, rfl⟩ | ⟨k, rfl⟩ | ⟨b, c, rfl⟩ | ⟨x, fname, hf, rfl⟩
      · cases hno
      · cases hno
      · cases hno
      · obtain ⟨e, -, -, hh⟩ := h.flight hn hL
        have hne : s.sup.queue.entries ≠ [] := by
          intro h0
          rw [h0] at hh
          cases hh
        obtain ⟨q, hq⟩ := exists_setDone hwf x hne
        have hq' : (if '/' ∈ fname then (pqSetStat s.sup.queue x .done).map ({ s with fromDca := ms }.onDcaDone x)
          else none) = none := hno
        rw [if_pos hf, hq] at hq'
        cases hq'

/-! ## What is still to be delivered -/

section Cost

variable {i : Fin n} {m : Msg} {ms : List Msg} {x : ExpID} {b : Nat}

theorem cost_mgrOther (hm : s.toMgr i = m :: ms) (hj : m.job = none) (g : Mgr) :
    (Worth.cost n b).total (s.mgrTakes i ms g []) < (Worth.cost n b).total s := by
  have h := (Worth.cost n b).total_mgrTakes (o := []) hm g
  simp only [Worth.cost_toMgr, hj, List.map_nil, List.sum_nil] at h
  omega

theorem cost_mgrProcess (hm : s.toMgr i = ⟨.start, .process x⟩ :: ms)
    (hb : (s.mgr i).weight ≤ b) :
    (Worth.cost n b).total (s.mgrTakes i ms ((s.mgr i).smcProcess x).1 ((s.mgr i).smcProcess x).2) <
      (Worth.cost n b).total s := by
  have h := (Worth.cost n b).total_mgrTakes (o := ((s.mgr i).smcProcess x).2) hm
    ((s.mgr i).smcProcess x).1
  have hle := (((s.mgr i).pages.length_filter_le ((s.mgr i).isType x)).trans (s.mgr i).length_le_weight).trans hb
  simp only [Worth.sum_smcProcess, Worth.cost_toMgr, Worth.cost_fromMgr, Msg.job, Msg.reply] at h
  omega

theorem cost_pxfProcess (hm : s.toPxf i = ⟨.start, .process x⟩ :: ms) (p : Option Pxf) (hb : (s.mgr i).weight ≤ b)
    {l : List DcaReq} (hl : l = [] ∨ ∃ k, l = pxfProcess (s.pxfPages i) (s.mgr i).pages x ++ [.transferComplete k]) :
    (Worth.cost n b).total { s with
      pxf := update s.pxf i p
      toPxf := update s.toPxf i ms
      pxfToDca := update s.pxfToDca i (s.pxfToDca i ++ l)
      fromPxf := update s.fromPxf i (s.fromPxf i ++ [⟨.set, .pxfDone (fmt6 x)⟩]) } <
      (Worth.cost n b).total s := by
  have h := (Worth.cost n b).total_pxfTakes (l := l) (o := [⟨.set, .pxfDone (fmt6 x)⟩]) hm p
  rcases hl with rfl | ⟨k, rfl⟩
  · simp [Msg.feed] at h ⊢
    omega
  · have hle := ((s.mgr i).length_pxfProcess_le (s.pxfPages i) x).trans hb
    have hsum := (Worth.cost n b).sum_pxfProcess (c := 2) (fun r hr => by simp [hr]) (s.pxfPages i) (s.mgr i).pages x
    simp only [List.map_append, List.sum_append, hsum, List.map_singleton, List.sum_singleton, Worth.cost_toPxf,
      Worth.cost_fromPxf, Worth.cost_pxfToDca, DcaReq.isTransfer, Msg.feed, Option.isSome, if_true] at h
    omega

theorem cost_dcaRequest {r : DcaReq} {rs : List DcaReq} (hr : s.toDca = r :: rs) (d : Dca)
    {out : List Msg} (h0 : (out.map (Worth.cost n b).fromDca).sum < (Worth.cost n b).toDca r) :
    (Worth.cost n b).total ({ s with toDca := rs }.dcaTakes d out) < (Worth.cost n b).total s := by
  have h := (Worth.cost n b).total_dcaRequest (o := out) hr d
  omega

theorem cost_dcaData {r : DcaReq} {rs : List DcaReq} (hr : s.pxfToDca i = r :: rs) (d : Dca)
    {out : List Msg} (h0 : (out.map (Worth.cost n b).fromDca).sum < (Worth.cost n b).pxfToDca r)
    (evs : List (Event n)) :
    (Worth.cost n b).total (({ s with pxfToDca := update s.pxfToDca i rs }.dcaTakes d out).note evs) <
      (Worth.cost n b).total s := by
  have h := (Worth.cost n b).total_dcaData (o := out) hr d
  rw [Worth.total_note]
  omega

theorem cost_imagetype (hn : s.Named) (hm : s.fromMgr i = ⟨.set, .imagetype x⟩ :: ms) :
    (Worth.cost n b).total ((s.supTakes i ms []).onImagetype x) < (Worth.cost n b).total s := by
  have h1 := (Worth.cost n b).total_supTakes hm []
  have h2 := (Worth.cost n b).total_onImagetype (s := s.supTakes i ms []) hn.sends x
  simp [Msg.reply, DcaReq.isEnd, readoutRequests] at h1 h2
  omega

theorem cost_startPxf (hl : s.Linked) (hm : s.fromMgr i = ⟨.set, .smcDone x⟩ :: ms) (c : Int) :
    (Worth.cost n b).total ((s.supTakes i ms [.smcDone i x]).startPxf x c) <
      (Worth.cost n b).total s := by
  have h1 := (Worth.cost n b).total_supTakes hm [.smcDone i x]
  have h2 := (Worth.cost n b).total_startPxf (s := s.supTakes i ms [.smcDone i x]) hl.isSome x c
  simp only [Worth.cost_fromMgr, Worth.cost_toPxf, Msg.reply, Msg.feed, Option.isSome,
    Bool.false_eq_true, if_false, if_true] at h1 h2
  rw [show 1 + 1 + (2 * b + 2 * n + 7) = 2 * b + 2 * n + 9 by omega] at h2
  omega

theorem cost_endReadout (hn : s.Named) {k : Int} (hm : s.fromDca = ⟨.set, .dcaTransDone k⟩ :: ms)
    (c : Int) :
    (Worth.cost n b).total ({ s with fromDca := ms }.endReadout k c) < (Worth.cost n b).total s := by
  have h1 := (Worth.cost n b).total_fromDca hm
  have h2 := (Worth.cost n b).total_endReadout (s := { s with fromDca := ms }) hn.sends k c
  simp only [Worth.cost_fromDca, Worth.cost_toDca, Msg.dcaDone, Msg.transDone, DcaReq.isEnd,
    Option.isSome, Bool.false_eq_true, if_false, if_true] at h1 h2
  omega

theorem cost_dcaDone {fname : Str} (hm : s.fromDca = ⟨.set, .dcaDone x fname⟩ :: ms) (q : ProcQueue) :
    (Worth.cost n b).total ({ s with fromDca := ms }.onDcaDone x q) < (Worth.cost n b).total s := by
  have h1 := (Worth.cost n b).total_fromDca hm
  have h2 := (Worth.cost n b).total_onDcaDone (s := { s with fromDca := ms }) x q
  simp only [Worth.cost_fromDca, Worth.cost_toMgr, Msg.dcaDone, Msg.job, Option.isSome, if_true]
    at h1 h2
  omega

/-- Every delivery lowers the cost of what is on its way, or it stops the DCA. -/
theorem Trans.cost_lt (ht : Trans s a t) (ha : a.IsDelivery) (hn : s.Named) (hl : s.Linked)
    (hb : ∀ i, (s.mgr i).weight ≤ b) :
    (Worth.cost n b).total t < (Worth.cost n b).total s ∨
      ∃ d, s.dca = some d ∧ d.running = true ∧ t = s.dcaStops d := by
  cases ht with
  | panOpen | panClose | openOther | closeOther | collect | setOptionSeqno | wait | start | dcaConnect
  | pxfConnect => exact ha.elim
  | mgrOther i m ms hm hj => exact .inl (cost_mgrOther hm hj _)
  | mgrProcess i x ms hm => exact .inl (cost_mgrProcess hm (hb i))
  | mgrFinish i x ms hm =>
    have h := (Worth.cost n b).total_mgrTakes (o := [⟨.set, .cleanDone x⟩]) hm
      ((s.mgr i).smcDelExpID x)
    simp only [Worth.cost_toMgr, Worth.cost_fromMgr, Msg.job, Msg.reply, List.map_singleton,
      List.sum_singleton] at h
    omega
  | pxfOther i p p' m ms hp hm hf hset =>
    have h := (Worth.cost n b).total_pxfOther hm (some p')
    simp only [Worth.cost_toPxf, hf, Option.isSome, Bool.false_eq_true, if_false] at h
    omega
  | pxfProcess i p p' x ms sent hp hm hset hs => exact .inl (cost_pxfProcess hm _ (hb i) hs)
  | dcaQuiet o d d' r rs out hgo hr he hout hid =>
    have hle := (Worth.cost n b).sum_traffic (fun _ _ => rfl) hout
    refine .inl (cost_dcaRequest hr d' (hle.trans_lt ?_))
    simp [he]
  | dcaEnd o d d' k c e fname rs hgo hr hid hf =>
    exact .inl (cost_dcaRequest hr d' (by simp [DcaReq.isEnd, Msg.dcaDone, Msg.transDone]; omega))
  | dcaData i o d d' r rs out hgo hr htr hout hid =>
    have hle := (Worth.cost n b).sum_traffic (fun _ _ => rfl) hout
    refine .inl (cost_dcaData hr d' (hle.trans_lt ?_) [])
    simp [htr]
  | dcaTransfer i o d k rs hgo hr =>
    exact .inl (cost_dcaData hr d (by simp [DcaReq.isTransfer, Msg.dcaDone, Msg.transDone]) _)
  | dcaStops a d ha hd hrun => exact .inr ⟨d, hd, hrun, rfl⟩
  | imagetype i x ms hm => exact .inl (cost_imagetype hn hm)
  | smcDone i x ms hm hc =>
    have h := (Worth.cost n b).total_supTakes hm [.smcDone i x]
    simp only [Worth.cost_fromMgr, Msg.reply] at h
    left
    show (Worth.cost n b).total (s.supTakes i ms [.smcDone i x]) < _
    omega
  | startPxf i x ms hm hc => exact .inl (cost_startPxf hl hm _)
  | cleanDone i x ms q hm hq =>
    have h := (Worth.cost n b).total_supTakes hm [.cleanDone i x]
    simp only [Worth.cost_fromMgr, Msg.reply] at h
    rw [Worth.total_onCleanDone]
    omega
  | pxfDone i m ms hm =>
    have h := (Worth.cost n b).total_fromPxf hm
    rw [Worth.cost_fromPxf] at h
    rw [Worth.total_onPxfDone]
    omega
  | dcaTid k ms hm => exact absurd (hm ▸ List.mem_cons_self) (hn.noTid k)
  | dcaTrans c e ms hm =>
    have h := (Worth.cost n b).total_fromDca hm
    simp only [Worth.cost_fromDca, Msg.dcaDone, Msg.transDone, Option.isSome, Bool.false_eq_true,
      if_false] at h
    omega
  | transDone k ms hm hc =>
    have h := (Worth.cost n b).total_fromDca hm
    simp only [Worth.cost_fromDca, Msg.dcaDone, Msg.transDone, Option.isSome, Bool.false_eq_true,
      if_false, if_true] at h
    left
    show (Worth.cost n b).total { s with fromDca := ms } < _
    omega
  | endReadout k ms hm hc => exact .inl (cost_endReadout hn hm _)
  | dcaDone x fname ms q hm hq => exact .inl (cost_dcaDone hm q)

end Cost

/-- `1` while the DCA runs. -/
def live (s : Net n) : Nat := if s.dca.any Dca.running then 1 else 0

/-- A DCA that has stopped is not started again. -/
theorem Trans.live_le (ht : Trans s a t) (hd : s.dca ≠ none) : t.live ≤ s.live := by
  cases ht with
  | dcaConnect k par hd' => exact absurd hd' hd
  | dcaQuiet o d d' _ _ _ hgo | dcaEnd o d d' _ _ _ _ _ hgo | dcaData i o d d' _ _ _ hgo
  | dcaTransfer i o d _ _ hgo =>
    have hs : s.live = 1 := by rw [live, hgo.dca, Option.any_some, hgo.running, if_pos rfl]
    rw [hs, live]
    split <;> omega
  | dcaStops a d ha hd' hrun => exact Nat.zero_le _
  | _ => exact Nat.le_refl _

theorem weight_mgrTakes {g : Mgr} {i : Fin n} {ms out : List Msg} (hg : g.weight ≤ (s.mgr i).weight) (j : Fin n) :
    ((s.mgrTakes i ms g out).mgr j).weight ≤ (s.mgr j).weight := by
  show (update s.mgr i g j).weight ≤ _
  by_cases hj : j = i
  · subst hj
    rwa [update_self]
  · rw [update_of_ne hj]

/-- The managers get no new pages with a delivery. -/
theorem Trans.weight_le (ht : Trans s a t) (ha : a.IsDelivery) (i : Fin n) : (t.mgr i).weight ≤ (s.mgr i).weight := by
  cases ht with
  | collect => exact ha.elim
  | mgrOther j m ms hm hj =>
    refine weight_mgrTakes ?_ i
    exact Nat.le_refl _
  | mgrProcess j x ms hm => exact weight_mgrTakes (Nat.le_of_eq (Mgr.weight_smcProcess ..)) i
  | mgrFinish j x ms hm =>
    have h : ((s.mgr j).smcDelExpID x).weight ≤ (s.mgr j).weight := (s.mgr j).weight_filter_le _
    exact weight_mgrTakes h i
  | _ => exact Nat.le_refl _

/-- The cost of what is on its way, if no manager has more than `b`, and one more while the DCA runs. -/
def costOf (s : Net n) (b : Nat) : Nat := (Worth.cost n b).total s + s.live

/-- The cost of what is on its way, with the pages that the managers have. -/
def cost (s : Net n) : Nat := s.costOf (∑ i, (s.mgr i).weight)

/-- A regular delivery keeps the tokens and lowers the cost. -/
theorem Conserved.deliver (h : s.Conserved) (hn : 0 < n) {b : Nat} (hb : ∀ i, (s.mgr i).weight ≤ b)
    (ha : a.IsDelivery) (hst : restrict Regular Net.step s a = some t) :
    (t.Conserved ∧ ∀ i, (t.mgr i).weight ≤ b) ∧ t.costOf b < s.costOf b := by
  obtain ⟨hk, hst⟩ := restrict_eq_some.mp hst
  have ht := h.serial.ok.typed.step_cases hk.answered hst
  refine ⟨⟨h.step hn hk hst, fun i => (ht.weight_le ha i).trans (hb i)⟩, ?_⟩
  obtain ⟨d, hd, -⟩ := h.serial.named.dca
  have hlive := ht.live_le (by rw [hd]; exact Option.some_ne_none d)
  unfold costOf
  rcases ht.cost_lt ha h.serial.named h.linked hb with hlt | ⟨d, hd, hrun, rfl⟩
  · omega
  · have hs : s.live = 1 := by rw [live, hd, Option.any_some, hrun, if_pos rfl]
    have htot : (Worth.cost n b).total (s.dcaStops d) = (Worth.cost n b).total s := rfl
    rw [htot, hs]
    exact Nat.lt_succ_self _

/-- The tokens in every state reached: the exposure in flight has `n` of them, and from the first start
on there are `n` in all, so that no message of an exposure is lost, doubled or left over from the one
before. -/
theorem tokens_conserved (hn : 0 < n) (c : Setup n) (tid : Int) (par : Mosdca.Params)
    (as : List (Act n)) (s : Net n) (hk : Steps Regular step (Net.connected c tid par) as)
    (hr : run step (Net.connected c tid par) as = some s) :
    s.inWork = n * (inFlight s.log).length ∧ (lastProc s.log ≠ none → s.inWork + s.inClean = n) := by
  have hs : s.Conserved := Steps.run_inv (fun s a t h hk hst => h.step hn hk hst)
    (Conserved.connected hn c tid par) hk hr
  exact ⟨hs.work, hs.all⟩

/-- Two nodes, and a page for the first one comes after the start: one node has reported, and the other has not
processed the exposure yet. -/
theorem tokens_conserved_two :
    let start := Net.connected (Setup.scripts 2 fun _ => [.typePage 1]) 7 Dca.options
    let as : List (Act 2) := [.panOpen (chars "pan") 1, .panClose (chars "pan") 1, .procNext,
      .collect 0 1 ⟨1, .tyData, "PanA", 0, 0, 0⟩, .mgrRecv 0, .mgrRecv 0, .supFromMgr 0, .supFromMgr 0]
    ∃ s, run step start as = some s ∧ s.inWork = 2 * (inFlight s.log).length := by
  intro start as
  have hk : Steps Regular step start as := by decide +kernel
  have hsome : (run step start as).isSome = true := by decide +kernel
  obtain ⟨s, hs⟩ := Option.isSome_iff_exists.mp hsome
  exact ⟨s, hs, (tokens_conserved (by decide) _ 7 _ as s hk hs).1⟩

/-- In the connected system with at least one node, nothing gets stuck: from every state reached, no
run of regular deliveries is longer than the cost of that state, some such run ends, and where one
ends the DCA is down, or the exposure that was started last is done, out of the queue and cleaned up by every
node, and the Supervisor may start the next one. -/
theorem pipeline_completes (hn : 0 < n) (c : Setup n) (tid : Int) (par : Mosdca.Params)
    (as : List (Act n)) (s : Net n) (hk : Steps Regular step (Net.connected c tid par) as)
    (hr : run step (Net.connected c tid par) as = some s) :
    (∀ ds t, (∀ a ∈ ds, a.IsDelivery) → Steps Regular step s ds → run step s ds = some t →
      ds.length ≤ s.cost ∧ (Stuck Act.IsDelivery (restrict Regular step) t → t.Down ∨ t.Settled)) ∧
    ∃ ds t, (∀ a ∈ ds, a.IsDelivery) ∧ Steps Regular step s ds ∧ run step s ds = some t ∧
      Stuck Act.IsDelivery (restrict Regular step) t := by
  have hs : s.Conserved := Steps.run_inv (fun s a t h hk hst => h.step hn hk hst)
    (Conserved.connected hn c tid par) hk hr
  -- the pages that the managers have now bound what they will report and what the clients will send
  have hpages : ∀ i, (s.mgr i).weight ≤ ∑ i, (s.mgr i).weight := fun i =>
    Finset.single_le_sum (f := fun i => (s.mgr i).weight) (fun _ _ => Nat.zero_le _) (Finset.mem_univ i)
  have hstep : ∀ (u : Net n) a v, (u.Conserved ∧ ∀ i, (u.mgr i).weight ≤ ∑ i, (s.mgr i).weight) →
      a.IsDelivery → restrict Regular step u a = some v →
      (v.Conserved ∧ ∀ i, (v.mgr i).weight ≤ ∑ i, (s.mgr i).weight) ∧
        v.costOf (∑ i, (s.mgr i).weight) < u.costOf (∑ i, (s.mgr i).weight) :=
    fun u a v hu ha hst => hu.1.deliver hn hu.2 ha hst
  refine ⟨fun ds t hds hreg hrun => ?_, ?_⟩
  · obtain ⟨⟨ht, -⟩, hlen⟩ := run_variant hstep ⟨hs, hpages⟩ hds (run_restrict.mpr ⟨hreg, hrun⟩)
    refine ⟨(Nat.le_add_right _ _).trans hlen, fun hstuck => ?_⟩
    by_cases hdown : t.Down
    · exact .inl hdown
    · exact .inr (ht.settled hn (ht.quiet_of_stuck hn hdown hstuck))
  · obtain ⟨ds, t, hds, hrun, hstuck⟩ := exists_stuck hstep ⟨hs, hpages⟩
    obtain ⟨hreg, hrun⟩ := run_restrict.mp hrun
    exact ⟨ds, t, hds, hreg, hrun, hstuck⟩

/-- Two nodes, and the first one has the image type: exposure `1` has just been started. -/
theorem pipeline_completes_two :
    let start := Net.connected (Setup.scripts 2 fun i => if i = 0 then [.typePage 1] else []) 7 Dca.options
    ∃ s, run step start [.panOpen (chars "pan") 1, .panClose (chars "pan") 1, .procNext] = some s ∧
      ∃ ds t, (∀ a ∈ ds, a.IsDelivery) ∧ run step s ds = some t ∧ ds.length ≤ s.cost ∧ (t.Down ∨ t.Settled) := by
  intro start
  have hk : Steps Regular step start [.panOpen (chars "pan") 1, .panClose (chars "pan") 1, .procNext] := by
    decide +kernel
  have hsome : (run step start [.panOpen (chars "pan") 1, .panClose (chars "pan") 1, .procNext]).isSome = true := by
    decide +kernel
  obtain ⟨s, hs⟩ := Option.isSome_iff_exists.mp hsome
  obtain ⟨hall, ds, t, hds, hreg, hrun, hstuck⟩ := pipeline_completes (by decide) _ 7 _ _ s hk hs
  obtain ⟨hlen, hend⟩ := hall ds t hds hreg hrun
  exact ⟨s, hs, ds, t, hds, hrun, hlen, hend hstuck⟩

end Net

end Ndhs
