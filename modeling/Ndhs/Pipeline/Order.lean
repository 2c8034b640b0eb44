import Ndhs.Pipeline.Pages

/-!
# The order of the exposures

The Supervisor's queue is a queue: in every run the exposures that have left it and those that are
still in it are, one after another, the exposures that the PAN on the trigger host opened
(`exposures_in_order`). What the DCA and the other processes send, and how the channels deliver, makes no
difference to that.
-/

namespace Ndhs

open Function Machine Round Text

variable {n : Nat}

/-- The exposures that have left the queue, the first one first. -/
def left : List (Event n) → List ExpID
  | [] => []
  | .removed e :: l => left l ++ [e]
  | _ :: l => left l

/-- The ids of the queued exposures, the oldest one first. -/
def ProcQueue.ids (q : ProcQueue) : List ExpID := q.entries.map PqEntry.expID

/-- `PQ_DONE` drops the oldest exposure or none. -/
theorem ProcQueue.Wf.ids_setDone {q q' : ProcQueue} {x : ExpID} (h : q.Wf)
    (hq : Ndhs.pqSetStat q x .done = some q') : q.ids = (Net.removed q q').toList ++ q'.ids := by
  have hdrop : q.entries ≠ [] → q'.Wf → q'.ids = q.ids.tail →
      q.ids = (Net.removed q q').toList ++ q'.ids := by
    intro hne hw ht
    cases hL : q.ids with
    | nil => exact absurd (List.map_eq_nil_iff.mp hL) hne
    | cons e L =>
      have hhead : (q.entries.map PqEntry.expID).head? = some e := by
        rw [show q.entries.map PqEntry.expID = e :: L from hL]
        rfl
      have hlen := congrArg List.length ht
      rw [hL] at hlen
      have hl := congrArg List.length hL
      simp only [ProcQueue.ids, List.length_map, List.length_cons, List.tail_cons,
        h.entries_length, hw.entries_length] at hlen hl
      have h0 := h.nonneg
      have h0' := hw.nonneg
      rw [Net.removed, if_pos (by omega), h.head_expID hhead, ht, hL]
      rfl
  obtain ⟨k, hk, -, -, -, q₁, he, hw, hent⟩ | ⟨-, -, -, hc⟩ | ⟨-, -, he⟩ := h.pqSetStat_cases x .done
  · obtain rfl := Option.some.inj (he.symm.trans hq)
    refine hdrop (fun h0 => ?_) hw ?_
    · rw [h0] at hk
      exact absurd hk (Nat.not_lt_zero k)
    · rw [if_pos rfl] at hent
      rw [ProcQueue.ids, hent, List.map_tail, ProcQueue.ids]
      congr 1
      refine List.ext_getElem (by simp) fun i h₁ h₂ => ?_
      rw [List.getElem_map, List.getElem_map, List.getElem_modify]
      split <;> rfl
  · by_cases hempty : q.entries = []
    · rw [if_pos ⟨rfl, hempty⟩] at hc
      rw [hc] at hq
      cases hq
    · rw [if_neg fun h => hempty h.2] at hc
      obtain ⟨q₁, he, hw, hent⟩ := hc
      obtain rfl := Option.some.inj (he.symm.trans hq)
      refine hdrop hempty hw ?_
      rw [if_pos rfl] at hent
      rw [ProcQueue.ids, hent, List.map_tail, ProcQueue.ids]
  · obtain rfl := Option.some.inj (he.symm.trans hq)
    rw [Net.removed, if_neg (lt_irrefl _)]
    rfl

namespace Net

variable {s t : Net n} {a : Act n} {m : Msg}

/-- The exposure that the PAN on the trigger host opens. -/
def Act.opens (sup : Sup) : Act n → Option ExpID
  | .panOpen procHost e => if sup.isTriggerHost procHost then some e else none
  | _ => none

/-- The trigger host and the Supervisor's own do not change. -/
def SameHosts (sup sup' : Sup) : Prop := sup'.triggerHost = sup.triggerHost ∧ sup'.host = sup.host

theorem SameHosts.opens {sup sup' : Sup} (h : SameHosts sup sup') : Act.opens (n := n) sup' = Act.opens sup := by
  obtain ⟨ht, hh⟩ := h
  funext a
  cases a with
  | panOpen procHost e =>
    have hhost : sup'.isTriggerHost procHost = sup.isTriggerHost procHost := by
      rw [Sup.isTriggerHost, Sup.isTriggerHost, ht, hh]
    rw [Act.opens, Act.opens, hhost]
  | _ => rfl

theorem left_append (evs l : List (Event n)) : left (evs ++ l) = left l ++ left evs := by
  induction evs with
  | nil => exact (List.append_nil _).symm
  | cons ev evs ih =>
    cases ev with
    | removed e =>
      show left (evs ++ l) ++ [e] = left l ++ (left evs ++ [e])
      rw [ih, List.append_assoc]
    | procBcast | smcDone | pxfBcast | transferComplete | endReadout | dcaDone | cleanDone => exact ih

theorem left_report (i : Fin n) (m : Msg) : left (report i m) = [] := by
  obtain ⟨subj, body⟩ := m
  cases subj <;> cases body <;> rfl

/-- What is out of the queue and what is in it, one after the other. -/
def passed (s : Net n) : List ExpID := left s.log ++ s.sup.queue.ids

/-- The queue is well formed, and nothing changed its order. -/
structure InOrder (s t : Net n) : Prop where
  wf : t.sup.queue.Wf
  hosts : SameHosts s.sup t.sup
  passed : t.passed = s.passed

theorem InOrder.refl (h : s.sup.queue.Wf) : InOrder s s := ⟨h, ⟨rfl, rfl⟩, rfl⟩

/-- A status other than `PQ_DONE` -/
theorem InOrder.setStat (h : s.sup.queue.Wf) {q : ProcQueue} {x : ExpID} {st : PqStat} (hst : st ≠ .done)
    (hq : pqSetStat s.sup.queue x st = some q) (hqt : t.sup.queue = q) (hh : SameHosts s.sup t.sup)
    (hl : left t.log = left s.log) : InOrder s t := by
  subst hqt
  have hids : t.sup.queue.ids = s.sup.queue.ids := h.pqSetStat_ids hst hq
  exact ⟨h.pqSetStat hq, hh, congrArg₂ (· ++ ·) hl hids⟩

/-- The removal of the oldest exposure -/
theorem InOrder.setDone (h : s.sup.queue.Wf) {q : ProcQueue} {x : ExpID}
    (hq : pqSetStat s.sup.queue x .done = some q) : InOrder s (s.onDcaDone x q) := by
  refine ⟨h.pqSetStat hq, ⟨rfl, rfl⟩, ?_⟩
  show left ((((removed s.sup.queue q).map Event.removed).toList ++ [.dcaDone x]) ++ s.log) ++ q.ids =
    left s.log ++ s.sup.queue.ids
  rw [left_append, left_append, h.ids_setDone hq, ← List.append_assoc]
  cases removed s.sup.queue q with
  | none => simp [left]
  | some e => simp [left]

/-- A message to the Supervisor removes from the front, if at all. -/
theorem supIOHandler_order (hst : s.supIOHandler m = some t) (h : s.sup.queue.Wf) : InOrder s t := by
  unfold supIOHandler at hst
  split at hst
  · cases hst
    exact ⟨h, ⟨rfl, rfl⟩, rfl⟩
  · split at hst
    · obtain ⟨q, hq, rfl⟩ := Option.map_eq_some_iff.mp hst
      exact .setDone h hq
    · cases hst
  · cases hst
    unfold onTransDone
    dsimp only
    split <;> exact ⟨h, ⟨rfl, rfl⟩, rfl⟩
  · cases hst
    exact ⟨h, ⟨rfl, rfl⟩, rfl⟩
  · obtain ⟨q, hq, rfl⟩ := Option.map_eq_some_iff.mp hst
    exact .setStat h (by decide) hq rfl ⟨rfl, rfl⟩ rfl
  · cases hst
    unfold onSmcDone
    dsimp only
    split <;> exact ⟨h, ⟨rfl, rfl⟩, rfl⟩
  · cases hst
    exact ⟨h, ⟨rfl, rfl⟩, rfl⟩
  · cases hst
    exact .refl h

/-- The start of an exposure leaves the queue in its order. -/
theorem supProcNext_order (h : s.sup.queue.Wf) (hst : s.supProcNext = some t) : InOrder s t := by
  simp only [supProcNext] at hst
  split at hst
  · obtain ⟨q, hq, rfl⟩ := Option.map_eq_some_iff.mp hst
    exact .setStat h (by decide) hq rfl ⟨rfl, rfl⟩ rfl
  · cases hst
    exact .refl h

/-- A step adds the exposure that it opens at the end, and a removal takes from the front. -/
theorem step_order (h : s.sup.queue.Wf) (hst : s.step a = some t) :
    t.sup.queue.Wf ∧ SameHosts s.sup t.sup ∧ t.passed = s.passed ++ (Act.opens s.sup a).toList := by
  have same : InOrder s t → Act.opens s.sup a = none →
      t.sup.queue.Wf ∧ SameHosts s.sup t.sup ∧ t.passed = s.passed ++ (Act.opens s.sup a).toList := by
    rintro ⟨hw, hh, hp⟩ ho
    rw [ho, hp]
    exact ⟨hw, hh, (List.append_nil _).symm⟩
  cases a with
  | panOpen procHost e =>
    simp only [step] at hst
    split at hst
    · rename_i hhost
      obtain ⟨q, hq, rfl⟩ := Option.map_eq_some_iff.mp hst
      obtain ⟨hw, he⟩ := h.pqAdd_some hq
      refine ⟨hw, ⟨rfl, rfl⟩, ?_⟩
      show left s.log ++ q.ids = left s.log ++ s.sup.queue.ids ++ _
      rw [Act.opens, if_pos hhost, ProcQueue.ids, he, List.map_append, List.append_assoc]
      rfl
    · rename_i hhost
      cases hst
      exact same (.refl h) (if_neg hhost)
  | panClose procHost e =>
    simp only [step] at hst
    split at hst
    · obtain ⟨q, hq, rfl⟩ := Option.map_eq_some_iff.mp hst
      exact same (.setStat h (by decide) hq rfl ⟨rfl, rfl⟩ rfl) rfl
    · cases hst
      exact same (.refl h) rfl
  | collect i k p => cases hst; exact same ⟨h, ⟨rfl, rfl⟩, rfl⟩ rfl
  | setOptionSeqno v => cases hst; exact same ⟨h, ⟨rfl, rfl⟩, rfl⟩ rfl
  | procNext => exact same (supProcNext_order h hst) rfl
  | dcaConnect k par =>
    simp only [step] at hst
    split at hst
    · split at hst
      · cases hst
        exact same ⟨h, ⟨rfl, rfl⟩, rfl⟩ rfl
      · cases hst
    · cases hst
  | pxfConnect i =>
    simp only [step] at hst
    split at hst
    · cases hst
      exact same ⟨h, ⟨rfl, rfl⟩, rfl⟩ rfl
    · cases hst
  | mgrRecv i =>
    simp only [step] at hst
    split at hst
    · cases hst
    · cases hst
      exact same ⟨h, ⟨rfl, rfl⟩, rfl⟩ rfl
  | pxfRecv i =>
    simp only [step] at hst
    split at hst
    · cases hst
      exact same ⟨h, ⟨rfl, rfl⟩, rfl⟩ rfl
    · cases hst
  | dcaFromSup o =>
    simp only [step] at hst
    split at hst
    · split at hst
      · split at hst <;> cases hst <;> exact same ⟨h, ⟨rfl, rfl⟩, rfl⟩ rfl
      · cases hst
    · cases hst
  | dcaFromPxf i o =>
    simp only [step] at hst
    split at hst
    · rename_i d r rs hd hr
      split at hst
      · split at hst
        · cases hst
          refine same ⟨h, ⟨rfl, rfl⟩, ?_⟩ rfl
          show left ((if r.isTransfer then [Event.transferComplete i] else []) ++ s.log) ++ s.sup.queue.ids = s.passed
          split <;> rfl
        · cases hst
          exact same ⟨h, ⟨rfl, rfl⟩, rfl⟩ rfl
      · cases hst
    · cases hst
  | supFromMgr i =>
    simp only [step] at hst
    split at hst
    · cases hst
    · rename_i m ms hm
      obtain ⟨hw, hh, hp⟩ := supIOHandler_order hst h
      refine same ⟨hw, hh, hp.trans ?_⟩ rfl
      show left (report i m ++ s.log) ++ s.sup.queue.ids = s.passed
      rw [left_append, left_report, List.append_nil, passed]
  | supFromPxf i =>
    simp only [step] at hst
    split at hst
    · cases hst
    · obtain ⟨hw, hh, hp⟩ := supIOHandler_order hst h
      exact same ⟨hw, hh, hp⟩ rfl
  | supFromDca =>
    simp only [step] at hst
    split at hst
    · cases hst
    · obtain ⟨hw, hh, hp⟩ := supIOHandler_order hst h
      exact same ⟨hw, hh, hp⟩ rfl

/-- In every run of the connected system the exposures that have left the queue, in the order in which
they left it, and then those in the queue are the exposures that the PAN on the trigger host opened, in the
order in which it opened them: none is lost, doubled or overtaken. -/
theorem exposures_in_order (c : Setup n) (tid : Int) (par : Mosdca.Params) (as : List (Act n))
    (t : Net n) (hr : run step (Net.connected c tid par) as = some t) :
    left t.log ++ t.sup.queue.ids = as.filterMap (Act.opens c.sup) := by
  have hrun : ∀ (as : List (Act n)) (s : Net n), s.sup.queue.Wf → run step s as = some t →
      t.passed = s.passed ++ as.filterMap (Act.opens s.sup) := by
    intro as
    induction as with
    | nil =>
      intro s _ hr
      cases hr
      exact (List.append_nil _).symm
    | cons a as ih =>
      intro s hw hr
      rw [run_cons] at hr
      obtain ⟨u, hu, hr⟩ := Option.bind_eq_some_iff.mp hr
      obtain ⟨hw', hh, he⟩ := step_order hw hu
      rw [ih u hw' hr, he, hh.opens, List.append_assoc]
      refine congrArg _ ?_
      cases ho : Act.opens s.sup a with
      | none => rw [List.filterMap_cons_none ho]; rfl
      | some e => rw [List.filterMap_cons_some ho]; rfl
  have h := hrun as _ (ProcQueue.Wf.init rfl) hr
  have hempty : (Net.connected c tid par).passed = [] := by
    show [] ++ pqStart.ids = []
    decide
  rwa [hempty] at h

/-- Exposure `1` is through, and `2` and `3` wait; the exposure of another PAN is not queued. -/
theorem exposures_in_order_three :
    ∃ t, run step (Net.connected (Setup.scripts 1 fun _ => [.typePage 1]) 7 Dca.options)
      [.panOpen (chars "pan") 1, .panOpen (chars "panb") 1, .panOpen (chars "pan") 2, .panClose (chars "pan") 1,
      .procNext, .mgrRecv 0, .mgrRecv 0, .supFromMgr 0, .supFromMgr 0, .panOpen (chars "pan") 3, .pxfRecv 0,
      .pxfRecv 0, .pxfRecv 0, .pxfRecv 0, .dcaFromPxf 0 {}, .dcaFromPxf 0 {}, .supFromDca, .dcaFromSup {},
      .dcaFromSup {}, .dcaFromSup {}, .dcaFromSup {}, .dcaFromSup {}, .supFromDca, .supFromDca] = some t ∧
      left t.log ++ t.sup.queue.ids = [1, 2, 3] := by
  let as : List (Act 1) := [.panOpen (chars "pan") 1, .panOpen (chars "panb") 1, .panOpen (chars "pan") 2,
    .panClose (chars "pan") 1, .procNext, .mgrRecv 0, .mgrRecv 0, .supFromMgr 0, .supFromMgr 0,
    .panOpen (chars "pan") 3, .pxfRecv 0, .pxfRecv 0, .pxfRecv 0, .pxfRecv 0, .dcaFromPxf 0 {}, .dcaFromPxf 0 {},
    .supFromDca, .dcaFromSup {}, .dcaFromSup {}, .dcaFromSup {}, .dcaFromSup {}, .dcaFromSup {}, .supFromDca,
    .supFromDca]
  have hsome : (run step (Net.connected (Setup.scripts 1 fun _ => [.typePage 1]) 7 Dca.options) as).isSome = true := by
    decide +kernel
  obtain ⟨t, ht⟩ := Option.isSome_iff_exists.mp hsome
  exact ⟨t, ht, (exposures_in_order _ 7 _ as t ht).trans (by decide +kernel)⟩

end Net

end Ndhs
