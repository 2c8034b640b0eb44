import Ndhs.Lib.Channel
import Ndhs.Pipeline.ImageType

/-!
# One exposure at a time

* `Serial`: what the log of a run has to look like. At most one exposure is between its `process`
  broadcast and its removal from the queue, and every broadcast and every `EndReadout` comes after
  the answers of all nodes that it waits for.
* `pipeline_serial`: the log is serial in every regular run of the connected system: some manager reports
  the image type of every exposure that is started, and the DCA has the readouts that it is to end and
  accepts the ids that it is given.
* `pipeline_overlaps`: if no manager reports it, the DCA is not told the id of the exposure and answers
  `dca_done` with the id it had before. The managers then clean up that one, and the next exposure
  starts while the pages of the one before are still there.

The counters alone order the stages (`Pipe.Inv`). What is left is that the DCA names the exposure in
process: `Named` says so of the id that the DCA will have when it gets the `EndReadout`.
-/

namespace Ndhs

open Channel Function Machine Round Text

variable {n : Nat}

/-! ## A serial log -/

/-- The exposures between their `process` broadcast and their removal from the queue. -/
def inFlight : List (Event n) → List ExpID
  | [] => []
  | .procBcast e :: l => (inFlight l).insert e
  | .removed e :: l => (inFlight l).erase e
  | _ :: l => inFlight l

/-- What comes before an event: before a `process` broadcast, the `clean done` of all managers for
the exposure before; before the broadcast to the PXF clients, the `smc done` of all managers;
before `EndReadout`, the transfers of all PXF clients. -/
def Allowed (ev : Event n) (l : List (Event n)) : Prop :=
  match ev with
  | .procBcast _ => ∀ e, lastProc l = some e → ∀ i, .cleanDone i (fmt6 e) ∈ sinceProc l
  | .pxfBcast x => ∃ e, lastProc l = some e ∧ x = fmt6 e ∧ ∀ i, .smcDone i x ∈ sinceProc l
  | .endReadout => ∃ e, lastProc l = some e ∧ .pxfBcast (fmt6 e) ∈ sinceProc l ∧
    ∀ i, .transferComplete i ∈ sinceFeed l
  | _ => True

/-- One exposure at a time. -/
def Serial (l : List (Event n)) : Prop :=
  AtEach (fun ev l => Allowed ev l ∧ (inFlight (ev :: l)).length ≤ 1) l

/-- The DCA was done with the exposure under its own name. -/
def NamedIn (l : List (Event n)) : Prop :=
  ∀ e y, lastProc l = some e → .dcaDone y ∈ sinceProc l → y = fmt6 e

/-- A log that the counters order and in which the DCA uses the right names is serial. -/
theorem serial_of_gated {l : List (Event n)} (hg : AtEach Gated l)
    (hn : ∀ l', l' <:+ l → NamedIn l' ∧ (inFlight l').length ≤ 1) : Serial l := by
  refine hg.map fun ev l' hs h => ⟨?_, (hn _ hs).2⟩
  cases ev with
  | procBcast e' =>
    intro e he i
    obtain ⟨y, hy, hall⟩ := h (by rw [he]; exact Option.some_ne_none e) i.pos
    have hname := (hn l' ((List.suffix_cons _ l').trans hs)).1 e y he hy
    rw [hname, fmt6_fmt6] at hall
    exact hall i
  | pxfBcast x => exact h
  | endReadout => exact h
  | removed | smcDone | transferComplete | dcaDone | cleanDone => trivial

/-! ## The queue and the exposure in process -/

/-- Nothing is in flight, or the exposure in process is, and it is the oldest one of the queue. -/
structure Flight (q : ProcQueue) (l : List (Event n)) : Prop where
  wf : q.Wf
  head : inFlight l = [] ∨ ∃ e, inFlight l = [e] ∧ lastProc l = some e ∧
    (q.entries.map PqEntry.expID).head? = some e

namespace Flight

variable {q q' : ProcQueue} {l : List (Event n)}

theorem length_le (h : Flight q l) : (inFlight l).length ≤ 1 := by
  rcases h.head with hl | ⟨e, hl, -⟩ <;> rw [hl] <;> simp

/-- An event that neither starts nor removes an exposure. -/
theorem cons (h : Flight q l) {ev : Event n} (hp : ev.isProc = false) (hr : ∀ e, ev ≠ .removed e) :
    Flight q (ev :: l) := by
  have hf : inFlight (ev :: l) = inFlight l := by
    cases ev with
    | procBcast e => cases hp
    | removed e => exact absurd rfl (hr e)
    | smcDone | pxfBcast | transferComplete | endReadout | dcaDone | cleanDone => rfl
  exact ⟨h.wf, by rw [hf, lastProc_cons hp]; exact h.head⟩

theorem pqAdd (h : Flight q l) {e : ExpID} (hq : Ndhs.pqAdd q e = some q') : Flight q' l := by
  obtain ⟨hw, he⟩ := h.wf.pqAdd_some hq
  refine ⟨hw, h.head.imp_right ?_⟩
  rintro ⟨e', hl, hp, hh⟩
  refine ⟨e', hl, hp, ?_⟩
  rw [he, List.map_append, List.head?_append, hh]
  rfl

theorem pqSetStat (h : Flight q l) {e : ExpID} {st : PqStat} (hst : st ≠ .done)
    (hq : Ndhs.pqSetStat q e st = some q') : Flight q' l :=
  ⟨h.wf.pqSetStat hq, by rw [h.wf.pqSetStat_ids hst hq]; exact h.head⟩

/-- The next exposure is started. -/
theorem start (h : Flight q l) (h0 : 0 < pqNext q)
    (hq : Ndhs.pqSetStat q (pqNext q) .active = some q') :
    Flight q' (.procBcast (pqNext q) :: l) := by
  have hhead := h.wf.pqNext_head h0
  refine ⟨h.wf.pqSetStat hq, .inr ⟨pqNext q, ?_, rfl, ?_⟩⟩
  · show (inFlight l).insert (pqNext q) = [pqNext q]
    rcases h.head with hl | ⟨e, hl, -, hh⟩
    · rw [hl]
      rfl
    · -- the exposure in flight is the oldest one, so it is started once more
      obtain rfl : e = pqNext q := Option.some.inj (hh.symm.trans hhead)
      rw [hl]
      exact List.insert_of_mem List.mem_cons_self
  · rw [h.wf.pqSetStat_ids (by decide) hq]
    exact hhead

/-- The DCA is done with the exposure in process, and it leaves the queue. -/
theorem dcaDone (h : Flight q l) {y : ExpID} (hy : ∀ e, lastProc l = some e → y = fmt6 e)
    (hq : Ndhs.pqSetStat q y .done = some q') :
    Flight q' (((Net.removed q q').map Event.removed).toList ++ .dcaDone y :: l) := by
  refine ⟨h.wf.pqSetStat hq, .inl ?_⟩
  rcases h.head with hl | ⟨e, hl, hp, hh⟩
  · unfold Net.removed
    split
    · show (inFlight l).erase _ = []
      rw [hl]
      rfl
    · exact hl
  · obtain rfl := hy e hp
    rw [Net.removed, if_pos (h.wf.pqSetStat_head hh hq), h.wf.head_expID hh]
    show (inFlight l).erase e = []
    rw [hl, List.erase_cons_head]

end Flight

/-- At every moment so far the DCA used the right names and at most one exposure was in flight. -/
def Orderly (l : List (Event n)) : Prop := ∀ l', l' <:+ l → NamedIn l' ∧ (inFlight l').length ≤ 1

theorem Orderly.nil : Orderly ([] : List (Event n)) := by
  intro l' hs
  obtain rfl := List.suffix_nil.mp hs
  exact ⟨(fun _ _ h => nomatch h), Nat.zero_le 1⟩

theorem Orderly.cons {l : List (Event n)} {ev : Event n} (h : Orderly l) (hn : NamedIn (ev :: l))
    (hl : (inFlight (ev :: l)).length ≤ 1) : Orderly (ev :: l) := by
  intro l' hs
  rcases List.suffix_cons_iff.mp hs with rfl | hs
  · exact ⟨hn, hl⟩
  · exact h l' hs

theorem NamedIn.cons {l : List (Event n)} {ev : Event n} (h : NamedIn l) (hp : ev.isProc = false)
    (hd : ∀ y, ev = .dcaDone y → ∀ e, lastProc l = some e → y = fmt6 e) : NamedIn (ev :: l) := by
  intro e y he hy
  rw [lastProc_cons hp] at he
  rcases (mem_since_cons hp).mp hy with hy | hy
  · exact hd y hy.symm e he
  · exact h e y he hy

/-- The queue, the log and the exposure in process fit together. -/
structure Track (q : ProcQueue) (l : List (Event n)) : Prop where
  flight : Flight q l
  orderly : Orderly l

namespace Track

variable {q q' : ProcQueue} {l : List (Event n)}

/-- An event that does not concern the queue. -/
theorem cons (h : Track q l) (ev : Event n) (hp : ev.isProc = false) (hr : ∀ e, ev ≠ .removed e)
    (hd : ∀ y, ev ≠ .dcaDone y) : Track q (ev :: l) := by
  have hf := h.flight.cons hp hr
  have hn := (h.orderly l (List.suffix_refl l)).1
  exact ⟨hf, h.orderly.cons (hn.cons hp fun y he => absurd he (hd y)) hf.length_le⟩

theorem start (h : Track q l) (h0 : 0 < pqNext q)
    (hq : Ndhs.pqSetStat q (pqNext q) .active = some q') :
    Track q' (.procBcast (pqNext q) :: l) := by
  have hf := h.flight.start h0 hq
  exact ⟨hf, h.orderly.cons (fun _ _ _ hy => nomatch hy) hf.length_le⟩

theorem dcaDone (h : Track q l) {y : ExpID} (hy : ∀ e, lastProc l = some e → y = fmt6 e)
    (hq : Ndhs.pqSetStat q y .done = some q') :
    Track q' (((Net.removed q q').map Event.removed).toList ++ .dcaDone y :: l) := by
  have hf := h.flight.dcaDone hy hq
  have hn := (h.orderly l (List.suffix_refl l)).1
  have hn' : NamedIn (.dcaDone y :: l) := hn.cons rfl fun y' he => by cases he; exact hy
  have ho : Orderly (.dcaDone y :: l) := h.orderly.cons hn' h.flight.length_le
  refine ⟨hf, ?_⟩
  cases hr : Net.removed q q' with
  | none => exact ho
  | some e =>
    rw [hr] at hf
    exact ho.cons (hn'.cons rfl fun y he => nomatch he) hf.length_le

end Track

/-! ## The id that the DCA has -/

namespace Net

variable {s t : Net n} {a : Act n}

/-- The id that the DCA has. -/
def dcaID (s : Net n) : ExpID := (s.dca.map Dca.expID).getD 0

/-- The DCA is connected and known, and will be told the id of the exposure in process, or is to be
told; at an `EndReadout` it has that id. -/
structure Named (s : Net n) : Prop where
  dca : ∃ d, s.dca = some d ∧ d.tid = s.sup.dcaTid
  noTid : ∀ k, ⟨.set, .dcaTid k⟩ ∉ s.fromDca
  known : ∀ e, lastProc s.log = some e →
    n = 0 ∨ s.TypePending (fmt6 e) ∨ after DcaReq.newID s.dcaID s.toDca = fmt6 e
  ends : ∀ e, lastProc s.log = some e →
    Sees DcaReq.newID (·.isEnd = true) s.dcaID s.toDca (fmt6 e)
  dones : ∀ y f, ⟨.set, .dcaDone y f⟩ ∈ s.fromDca → ∀ e, lastProc s.log = some e → y = fmt6 e

/-- The Supervisor's requests reach the DCA. -/
theorem Named.sends (h : s.Named) : s.dca.map Dca.tid = some s.sup.dcaTid := by
  obtain ⟨d, hd, htid⟩ := h.dca
  rw [hd, ← htid]
  rfl

theorem Named.toDca_imagetype (h : s.Named) (i : Fin n) (ms : List Msg) (x : ExpID) :
    ((s.supTakes i ms []).onImagetype x).toDca = s.toDca ++ readoutRequests x s.sup.imgSeqNo := if_pos h.sends

/-- The requests for a readout leave the DCA with the id of the exposure. -/
theorem after_readoutRequests {v : ExpID} {L : List DcaReq} (x : ExpID) (k : Int) :
    after DcaReq.newID v (L ++ readoutRequests x k) = fmt6 x := after_append

theorem Named.toDca_endReadout (h : s.Named) (ms : List Msg) (k c : Int) :
    ({ s with fromDca := ms }.endReadout k c).toDca = s.toDca ++ [.endReadout k] := if_pos h.sends

/-- Only the report of an image type changes the id that the DCA will have. -/
theorem Named.after_trans (h : s.Named) (ht : Trans s a t) (hk : Regular s a) :
    after DcaReq.newID t.dcaID t.toDca = after DcaReq.newID s.dcaID s.toDca ∨
    ∃ i x ms, s.fromMgr i = ⟨.set, .imagetype x⟩ :: ms ∧
      after DcaReq.newID t.dcaID t.toDca = fmt6 x := by
  obtain ⟨d, hd, -⟩ := h.dca
  cases ht with
  | dcaConnect k par hn => rw [hn] at hd; cases hd
  | dcaQuiet o d' d'' r rs out hgo hr he hout hid =>
    left
    have hid := hid (hk d' hgo.dca r (hr ▸ rfl)).2
    simp only [dcaTakes, dcaID, hr, hgo.dca, after_cons, Option.map_some, Option.getD_some, hid]
  | dcaEnd o d' d'' k b c fname rs hgo hr hid hf =>
    left
    simp only [dcaTakes, dcaID, hr, hgo.dca, after_cons, Option.map_some, Option.getD_some, hid]
    rfl
  | dcaData i o d' d'' r rs out hgo hr htr hout hid =>
    left
    simp only [dcaTakes, dcaID, hgo.dca, Option.map_some, Option.getD_some, hid]
  | dcaTransfer i o d' k rs hgo hr =>
    left
    simp only [dcaTakes, note, dcaID, hgo.dca]
  | dcaStops a d' ha hd' hrun =>
    left
    simp only [dcaStops, dcaID, hd']
    rfl
  | imagetype i x ms hm =>
    refine .inr ⟨i, x, ms, hm, ?_⟩
    rw [h.toDca_imagetype, after_readoutRequests]
  | endReadout k ms hm hc =>
    left
    rw [h.toDca_endReadout, after_snoc]
    rfl
  | _ => exact .inl rfl

/-- The DCA is or will be told the id of the exposure in process. -/
theorem Named.known_trans (h : s.Named) (hok : s.Ok) (ht : Trans s a t) (hk : Regular s a) :
    ∀ e, lastProc t.log = some e →
      n = 0 ∨ t.TypePending (fmt6 e) ∨ after DcaReq.newID t.dcaID t.toDca = fmt6 e := by
  intro e he
  rcases ht.keeps_or_starts with ⟨hl, -⟩ | ⟨rfl, hs, q, rfl⟩
  · -- a report names the exposure in process
    have hreport : ∀ i x ms, s.fromMgr i = ⟨.set, .imagetype x⟩ :: ms → x = fmt6 e := by
      intro i x ms hm
      obtain ⟨H, hi⟩ := hok.imagetype_eq (hm ▸ List.mem_cons_self)
      obtain ⟨e', he', rfl⟩ := hi.logged.1
      rw [hl] at he
      cases he'.symm.trans he
      rfl
    rcases h.known e (hl ▸ he) with h0 | hp | hid
    · exact .inl h0
    · rcases ht.typePending hok hp with hp' | ⟨i, ms, hm, rfl⟩
      · exact .inr (.inl hp')
      · refine .inr (.inr ?_)
        rw [h.toDca_imagetype, after_readoutRequests]
        exact fmt6_fmt6 e
    · rcases h.after_trans ht hk with hsame | ⟨i, x, ms, hm, hx⟩
      · exact .inr (.inr (hsame.trans hid))
      · rw [hreport i x ms hm, fmt6_fmt6] at hx
        exact .inr (.inr hx)
  · cases he
    rcases hk hs with h0 | hty
    · exact .inl h0
    · exact .inr (.inl (typePending_start q hty))

theorem mem_dones {y : ExpID} {f : Str} (h : ⟨.set, .dcaDone y f⟩ ∈ s.fromDca) : y ∈ s.pipe.dones :=
  List.mem_filterMap.mpr ⟨_, h, rfl⟩

theorem not_isEnd (h : s.pipe.ends = 0) : ∀ r ∈ s.toDca, ¬ r.isEnd = true :=
  List.countP_eq_zero.mp h

/-- An `EndReadout` is sent when the managers have reported everything. -/
theorem Ok.pxf_stage (h : s.Ok) {k : Int} {ms : List Msg}
    (hm : s.fromDca = ⟨.set, .dcaTransDone k⟩ :: ms) : ∃ x H, s.pipe.In (.pxf x H) := by
  obtain ⟨st, hi⟩ := h.pipe.stage
  have ht : s.pipe.trans = (ms.filterMap Msg.transDone).length + 1 := by
    simp [Net.pipe, hm, Msg.transDone]
  obtain ⟨x, H, rfl⟩ := hi.of_transDone ht
  exact ⟨x, H, hi⟩

/-- At an `EndReadout` the DCA has the id of the exposure in process. -/
theorem Named.ends_trans (h : s.Named) (hok : s.Ok) (ht : Trans s a t) (hk : Regular s a) :
    ∀ e, lastProc t.log = some e →
      Sees DcaReq.newID (·.isEnd = true) t.dcaID t.toDca (fmt6 e) := by
  intro e he
  obtain ⟨d, hd, -⟩ := h.dca
  rcases ht.keeps_or_starts with ⟨hl, -⟩ | ⟨rfl, hs, q, rfl⟩
  · rw [hl] at he
    have hends := h.ends e he
    cases ht with
    | dcaConnect k par hn => rw [hn] at hd; cases hd
    | dcaQuiet o d' d'' r rs out hgo hr hend hout hid =>
      have hid := hid (hk d' hgo.dca r (hr ▸ rfl)).2
      rw [hr, dcaID, hgo.dca] at hends
      show Sees _ _ d''.expID rs _
      rw [hid]
      exact hends.deliver
    | dcaEnd o d' d'' k b c fname rs hgo hr hid hf =>
      rw [hr, dcaID, hgo.dca] at hends
      show Sees _ _ d''.expID rs _
      rw [hid]
      exact hends.deliver
    | dcaData i o d' d'' r rs out hgo hr htr hout hid =>
      rw [dcaID, hgo.dca] at hends
      show Sees _ _ d''.expID s.toDca _
      rw [hid]
      exact hends
    | dcaTransfer i o d' k rs hgo hr =>
      rw [dcaID, hgo.dca] at hends
      exact hends
    | dcaStops a d' ha hd' hrun =>
      rw [dcaID, hd'] at hends
      exact hends
    | imagetype i x ms hm =>
      rw [h.toDca_imagetype]
      refine hends.append fun r hr => ?_
      simp only [readoutRequests, List.mem_cons, List.not_mem_nil, or_false] at hr
      rcases hr with rfl | rfl | rfl | rfl <;> exact Bool.false_ne_true
    | endReadout k ms hm hc =>
      rw [h.toDca_endReadout]
      refine hends.send fun _ => ?_
      -- no report of an image type is pending any more
      obtain ⟨x, H, hi⟩ := hok.pxf_stage hm
      rcases h.known e he with h0 | hp | hid
      · exact absurd h0 (by have := hi.counts.2.2.1.2; omega)
      · exact absurd hp (not_typePending (fun i => (hi.lane i).1) fun i => (hi.lane i).2)
      · exact hid
    | _ => exact hends
  · exact Sees.of_none (not_isEnd (s := s) (hok.idle hs).counts.2.2.2.1)

/-- The DCA names the exposure in process. -/
theorem Named.dones_trans (h : s.Named) (hok : s.Ok) (ht : Trans s a t) :
    ∀ y f, ⟨.set, .dcaDone y f⟩ ∈ t.fromDca → ∀ e, lastProc t.log = some e → y = fmt6 e := by
  intro y f hy e he
  rcases ht.keeps_or_starts with ⟨hl, -⟩ | ⟨rfl, hs, q, rfl⟩
  · rw [hl] at he
    cases ht with
    | dcaConnect k par hn =>
      obtain ⟨d, hd, -⟩ := h.dca
      rw [hn] at hd
      cases hd
    | dcaQuiet o d d' r rs out hgo hr hend hout hid | dcaData i o d d' r rs out hgo hr htr hout hid =>
      rcases List.mem_append.mp hy with hy | hy
      · exact h.dones y f hy e he
      · obtain ⟨b, c, hx⟩ := hout.mem hy
        cases hx
    | dcaEnd o d d' k b c fname rs hgo hr hid hf =>
      rcases List.mem_append.mp hy with hy | hy
      · exact h.dones y f hy e he
      · have hends := h.ends e he
        rw [hr, dcaID, hgo.dca] at hends
        rcases List.mem_cons.mp hy with hx | hx
        · cases hx
        · cases List.mem_singleton.mp hx
          rw [show d.expID = fmt6 e from hends.head rfl, fmt6_fmt6]
    | dcaTransfer i o d k rs hgo hr =>
      rcases List.mem_append.mp hy with hy | hy
      · exact h.dones y f hy e he
      · cases List.mem_singleton.mp hy
    | dcaTid k ms hm | dcaTrans _ _ ms hm | transDone k ms hm hc | endReadout k ms hm hc
    | dcaDone _ _ ms q hm hq =>
      exact h.dones y f (hm ▸ List.mem_cons_of_mem _ hy) e he
    | _ => exact h.dones y f hy e he
  · have := mem_dones (s := s) hy
    rw [(hok.idle hs).counts.2.2.2.2] at this
    cases this

theorem Named.dca_trans (h : s.Named) (ht : Trans s a t) :
    (∃ d, t.dca = some d ∧ d.tid = t.sup.dcaTid) ∧ ∀ k, ⟨.set, .dcaTid k⟩ ∉ t.fromDca := by
  obtain ⟨d, hd, htid⟩ := h.dca
  cases ht with
  | dcaConnect k par hn => rw [hn] at hd; cases hd
  | dcaQuiet o d' d'' r rs out hgo hr hend hout hid | dcaData i o d' d'' r rs out hgo hr htr hout hid =>
    obtain rfl := Option.some.inj (hgo.dca.symm.trans hd)
    refine ⟨⟨d'', rfl, hgo.tid.trans htid⟩, fun k hk => ?_⟩
    rcases List.mem_append.mp hk with hk | hk
    · exact h.noTid k hk
    · obtain ⟨b, c, hx⟩ := hout.mem hk
      cases hx
  | dcaEnd o d' d'' k b c fname rs hgo hr hid hf =>
    obtain rfl := Option.some.inj (hgo.dca.symm.trans hd)
    exact ⟨⟨d'', rfl, hgo.tid.trans htid⟩, fun k hk => h.noTid k (by simpa [dcaTakes] using hk)⟩
  | dcaTransfer i o d' k rs hgo hr =>
    obtain rfl := Option.some.inj (hgo.dca.symm.trans hd)
    exact ⟨⟨d', rfl, htid⟩, fun k hk => h.noTid k (by simpa [note, dcaTakes] using hk)⟩
  | dcaStops a d' ha hd' hrun =>
    obtain rfl := Option.some.inj (hd'.symm.trans hd)
    exact ⟨⟨_, rfl, htid⟩, h.noTid⟩
  | dcaTid k ms hm => exact absurd (hm ▸ List.mem_cons_self) (h.noTid k)
  | dcaTrans _ _ ms hm | transDone k ms hm hc | endReadout k ms hm hc | dcaDone _ _ ms q hm hq =>
    exact ⟨⟨d, hd, htid⟩, fun k hk => h.noTid k (hm ▸ List.mem_cons_of_mem _ hk)⟩
  | _ => exact ⟨⟨d, hd, htid⟩, h.noTid⟩

theorem Named.trans (h : s.Named) (hok : s.Ok) (ht : Trans s a t) (hk : Regular s a) : t.Named where
  dca := (h.dca_trans ht).1
  noTid := (h.dca_trans ht).2
  known := h.known_trans hok ht hk
  ends := h.ends_trans hok ht hk
  dones := h.dones_trans hok ht

/-- The queue and the log after a step. -/
theorem Trans.track (ht : Trans s a t) (h : Track s.sup.queue s.log) (hn : s.Named) :
    Track t.sup.queue t.log := by
  cases ht with
  | panOpen host e q hq hh => exact ⟨h.flight.pqAdd hq, h.orderly⟩
  | panClose host e q hq => exact ⟨h.flight.pqSetStat (by decide) hq, h.orderly⟩
  | start q h0 hc hq => exact h.start h0 hq
  | dcaTransfer i o d k rs hgo hr => exact h.cons _ rfl (fun _ => nofun) fun _ => nofun
  | smcDone i x ms hm hc => exact h.cons _ rfl (fun _ => nofun) fun _ => nofun
  | startPxf i x ms hm hc =>
    have h' := h.cons (.smcDone i x) rfl (fun _ => nofun) fun _ => nofun
    exact h'.cons _ rfl (fun _ => nofun) fun _ => nofun
  | cleanDone i x ms q hm hq =>
    have h' := h.cons (.cleanDone i x) rfl (fun _ => nofun) fun _ => nofun
    exact ⟨h'.flight.pqSetStat (by decide) hq, h'.orderly⟩
  | endReadout k ms hm hc => exact h.cons _ rfl (fun _ => nofun) fun _ => nofun
  | dcaDone x fname ms q hm hq =>
    have hd := h.dcaDone (hn.dones x fname (hm ▸ List.mem_cons_self)) hq
    rwa [← List.singleton_append, ← List.append_assoc] at hd
  | _ => exact h

/-! ## Every run -/

structure SerialInv (s : Net n) : Prop where
  ok : s.Ok
  named : s.Named
  track : Track s.sup.queue s.log

theorem SerialInv.step (h : s.SerialInv) (hk : Regular s a) (hst : s.step a = some t) :
    t.SerialInv := by
  have ht := h.ok.typed.step_cases hk.answered hst
  exact ⟨h.ok.trans ht, h.named.trans h.ok ht hk, ht.track h.track h.named⟩

theorem SerialInv.connected (c : Setup n) (tid : Int) (par : Mosdca.Params) :
    (Net.connected c tid par).SerialInv where
  ok := Ok.connected c tid par
  named := ⟨⟨_, rfl, rfl⟩, (fun _ h => nomatch h), (fun _ h => nomatch h),
    (fun _ h => nomatch h), (fun _ _ h => nomatch h)⟩
  track := ⟨⟨ProcQueue.Wf.init rfl, .inl rfl⟩, Orderly.nil⟩

/-- One exposure at a time, in every regular run of the connected system. -/
theorem pipeline_serial (c : Setup n) (tid : Int) (par : Mosdca.Params) (as : List (Act n)) (t : Net n)
    (hk : Steps Regular step (Net.connected c tid par) as)
    (hr : run step (Net.connected c tid par) as = some t) : Serial t.log := by
  have h : t.SerialInv := Steps.run_inv (fun s a t h hk hst => h.step hk hst)
    (SerialInv.connected c tid par) hk hr
  exact serial_of_gated h.ok.pipe.gated h.track.orderly

/-- Two nodes, and the first one has the image type: exposure `1` goes through to its removal. -/
theorem pipeline_serial_two :
    let start := Net.connected (Setup.scripts 2 fun i => if i = 0 then [.typePage 1] else []) 7 Dca.options
    let as : List (Act 2) := [.panOpen (chars "pan") 1, .panClose (chars "pan") 1, .procNext, .mgrRecv 0, .mgrRecv 1,
      .mgrRecv 0, .mgrRecv 1, .supFromMgr 1, .supFromMgr 0, .supFromMgr 0, .pxfRecv 0, .pxfRecv 1, .pxfRecv 0,
      .pxfRecv 1, .pxfRecv 0, .pxfRecv 1, .pxfRecv 0, .pxfRecv 1, .dcaFromSup {}, .dcaFromSup {}, .dcaFromSup {},
      .dcaFromSup {}, .dcaFromPxf 0 {}, .dcaFromPxf 1 {}, .dcaFromPxf 0 {}, .supFromDca, .supFromDca,
      .dcaFromSup {}, .supFromDca, .supFromDca]
    Steps Regular step start as ∧ ∃ t, run step start as = some t ∧ Event.removed 1 ∈ t.log ∧ Serial t.log := by
  intro start as
  have hk : Steps Regular step start as := by decide +kernel
  have hlog : (run step start as).map Net.log = some [.removed 1, .dcaDone 1, .endReadout, .transferComplete 0,
      .transferComplete 1, .pxfBcast 1, .smcDone 0 1, .smcDone 1 1, .procBcast 1] := by decide +kernel
  obtain ⟨t, hr, ht⟩ := Option.map_eq_some_iff.mp hlog
  exact ⟨hk, t, hr, by rw [ht]; exact List.mem_cons_self, pipeline_serial _ 7 _ as t hk hr⟩

/-- The manager is to process the pages of PanB, and the image type is on a page of the NOCS. No readout is
started, so that the DCA finds none to end; it names the exposure `0.0`. The queue drops exposure `1`, and
exposure `2` is started although no manager has cleaned up exposure `1`. -/
theorem pipeline_overlaps :
    ∃ t, run step (Net.connected { Setup.scripts 1 fun _ => [.typePage 1] with
        procPages := fun _ => some "PanB", pxfPages := fun _ => some "PanB" } 7 Dca.options)
      [.panOpen (chars "pan") 1, .panClose (chars "pan") 1, .panOpen (chars "pan") 2, .panClose (chars "pan") 2,
      .procNext, .mgrRecv 0, .mgrRecv 0, .supFromMgr 0, .pxfRecv 0, .pxfRecv 0, .pxfRecv 0, .pxfRecv 0,
      .dcaFromPxf 0 {}, .supFromDca, .dcaFromSup { fname := chars "/d/a.fits" }, .supFromDca, .supFromDca,
      .mgrRecv 0, .supFromMgr 0, .procNext] = some t ∧ ¬ Serial t.log := by
  have hlog : (run step (Net.connected { Setup.scripts 1 fun _ => [.typePage 1] with
        procPages := fun _ => some "PanB", pxfPages := fun _ => some "PanB" } 7 Dca.options)
      [.panOpen (chars "pan") 1, .panClose (chars "pan") 1, .panOpen (chars "pan") 2, .panClose (chars "pan") 2,
      .procNext, .mgrRecv 0, .mgrRecv 0, .supFromMgr 0, .pxfRecv 0, .pxfRecv 0, .pxfRecv 0, .pxfRecv 0,
      .dcaFromPxf 0 {}, .supFromDca, .dcaFromSup { fname := chars "/d/a.fits" }, .supFromDca, .supFromDca,
      .mgrRecv 0, .supFromMgr 0, .procNext]).map Net.log = some [.procBcast 2, .cleanDone 0 0, .removed 1, .dcaDone 0,
      .endReadout, .transferComplete 0, .pxfBcast 1, .smcDone 0 1, .procBcast 1] := by decide +kernel
  obtain ⟨t, hr, ht⟩ := Option.map_eq_some_iff.mp hlog
  refine ⟨t, hr, fun hs => ?_⟩
  rw [ht] at hs
  have hclean := (hs _ _ (List.suffix_refl _)).1 1 rfl 0
  revert hclean
  decide +kernel

end Net

end Ndhs
