import Ndhs.Pipeline.Sim

/-!
# The image type of an exposure

The Supervisor starts the readout of an exposure, and tells the DCA its id, when a manager reports
the image type. A manager does so if its cache has a page with the image type that the manager is to
process; no other message takes its place.

* `Regular`: an exposure is only started if some manager has such a page, and the DCA has the readout that
  it is to end and accepts the exposure id that it is given.
* `TypePending s x`: the image type of `x` will still be reported.
* `Trans.typePending`: it stays so until the report is delivered.
-/

namespace Ndhs

/-- The manager will report an image type for `x`. -/
def Mgr.HasType (m : Mgr) (x : ExpID) : Prop := ∃ p ∈ m.pages, m.isType x p = true

instance (m : Mgr) (x : ExpID) : Decidable (m.HasType x) := inferInstanceAs (Decidable (∃ p ∈ m.pages, _))

namespace Net

open Function Round

variable {n : Nat} {s t : Net n} {a : Act n} {x : ExpID} {i : Fin n}

/-- Some manager will report an image type for `x`. -/
def HasType (s : Net n) (x : ExpID) : Prop := ∃ i, (s.mgr i).HasType x

/-- `supProcNext` starts an exposure. -/
def Starts (s : Net n) : Prop :=
  0 < pqNext s.sup.queue ∧ (s.sup.dcaDone < 0 ∨ n ≤ s.sup.dcaDone)

/-- If the step starts an exposure, some manager will report its image type. If it is a request to the DCA, the
DCA has the readout that is to be ended, or accepts the exposure id. -/
def Regular (s : Net n) : Act n → Prop
  | .procNext => s.Starts → n = 0 ∨ s.HasType (fmt6 (pqNext s.sup.queue))
  | .dcaFromSup _ => ∀ d, s.dca = some d → ∀ r ∈ s.toDca.head?, d.Finds r ∧ d.Allows s.sup.tid r
  | _ => True

instance (s : Net n) (x : ExpID) : Decidable (s.HasType x) := Fintype.decidableExistsFintype

instance (s : Net n) : Decidable s.Starts := instDecidableAnd

/-- What is to hold of the DCA and the request that it takes. -/
instance (s : Net n) (P : Dca → DcaReq → Prop) [∀ d r, Decidable (P d r)] :
    Decidable (∀ d, s.dca = some d → ∀ r ∈ s.toDca.head?, P d r) :=
  decidable_of_iff (∀ d ∈ s.dca, ∀ r ∈ s.toDca.head?, P d r) Iff.rfl

instance (s : Net n) (a : Act n) : Decidable (Answered s a) :=
  match a with
  | .dcaFromSup _ => inferInstanceAs (Decidable (∀ d, s.dca = some d → ∀ r ∈ s.toDca.head?, d.Finds r))
  | .procNext | .panOpen .. | .panClose .. | .collect .. | .setOptionSeqno _ | .dcaConnect .. | .pxfConnect _
  | .mgrRecv _ | .pxfRecv _ | .dcaFromPxf .. | .supFromMgr _ | .supFromPxf _ | .supFromDca => .isTrue trivial

instance (s : Net n) (a : Act n) : Decidable (Regular s a) :=
  match a with
  | .procNext =>
    inferInstanceAs (Decidable (s.Starts → n = 0 ∨ s.HasType (fmt6 (pqNext s.sup.queue))))
  | .dcaFromSup _ =>
    inferInstanceAs (Decidable (∀ d, s.dca = some d → ∀ r ∈ s.toDca.head?, d.Finds r ∧ d.Allows s.sup.tid r))
  | .panOpen .. | .panClose .. | .collect .. | .setOptionSeqno _ | .dcaConnect .. | .pxfConnect _
  | .mgrRecv _ | .pxfRecv _ | .dcaFromPxf .. | .supFromMgr _ | .supFromPxf _ | .supFromDca => .isTrue trivial

theorem Regular.answered (h : s.Regular a) : s.Answered a := by
  cases a with
  | dcaFromSup o => exact fun d hd r hr => (h d hd r hr).1
  | _ => trivial

/-- The report of the image type of `x` is still to come: a manager that has the page has not
processed the exposure, or the report is on its way. -/
def TypePending (s : Net n) (x : ExpID) : Prop :=
  ∃ i, (⟨.start, .process x⟩ ∈ s.toMgr i ∧ (s.mgr i).HasType x) ∨ ⟨.set, .imagetype x⟩ ∈ s.fromMgr i

/-! ## What a message in a channel says about the stage -/

theorem mem_jobs (h : ⟨.start, .process x⟩ ∈ s.toMgr i) : .process x ∈ s.pipe.jobs i :=
  List.mem_filterMap.mpr ⟨_, h, rfl⟩

theorem mem_replies {m : Msg} {r : Reply} (h : m ∈ s.fromMgr i) (hr : m.reply = some r) :
    r ∈ s.pipe.replies i := List.mem_filterMap.mpr ⟨m, h, hr⟩

/-- A manager that has not processed the exposure has nothing else to do. -/
theorem Ok.jobs_eq (h : s.Ok) (hm : ⟨.start, .process x⟩ ∈ s.toMgr i) :
    s.pipe.jobs i = [.process x] ∧ s.pipe.replies i = [] ∧ ∃ e, lastProc s.log = some e ∧ x = fmt6 e := by
  obtain ⟨st, hi⟩ := h.pipe.stage
  have hmem := mem_jobs hm
  cases hj : s.pipe.jobs i with
  | nil => rw [hj] at hmem; cases hmem
  | cons j js =>
    rw [hj] at hmem
    cases j with
    | process y =>
      obtain ⟨H, rfl, -, rfl, hr⟩ := hi.of_process hj
      obtain rfl : x = y := by simpa using hmem
      exact ⟨rfl, hr, hi.logged.1⟩
    | finish y =>
      obtain ⟨_, H, -, -, -, rfl, -⟩ := hi.of_finish hj
      simp at hmem

/-- A report of the image type names the exposure in process. -/
theorem Ok.imagetype_eq (h : s.Ok) (hm : ⟨.set, .imagetype x⟩ ∈ s.fromMgr i) :
    ∃ H, s.pipe.In (.smc x H) := by
  obtain ⟨st, hi⟩ := h.pipe.stage
  have hmem := mem_replies hm rfl
  cases hr : s.pipe.replies i with
  | nil => rw [hr] at hmem; cases hmem
  | cons r rs =>
    rw [hr] at hmem
    cases r with
    | imagetype y =>
      obtain ⟨H, k, rfl, -, -, rfl⟩ := hi.of_imagetype hr
      obtain rfl : x = y := by
        rcases List.mem_cons.mp hmem with hx | hx
        · cases hx
          rfl
        · simp only [List.mem_append, List.mem_replicate, List.mem_singleton, Reply.imagetype.injEq,
            reduceCtorEq, or_false] at hx
          exact hx.2
      exact ⟨H, hi⟩
    | smcDone y =>
      obtain ⟨H, -, -, -, rfl⟩ := hi.of_smcDone hr
      simp at hmem
    | cleanDone y =>
      obtain ⟨_, H, -, -, -, -, rfl⟩ := hi.of_cleanDone hr
      simp at hmem

theorem TypePending.exposure (h : s.TypePending x) (hok : s.Ok) :
    ∃ e, lastProc s.log = some e ∧ x = fmt6 e := by
  obtain ⟨i, ⟨hm, -⟩ | hm⟩ := h
  · exact (hok.jobs_eq hm).2.2
  · obtain ⟨H, hi⟩ := hok.imagetype_eq hm
    exact hi.logged.1

/-- When the managers have no work and no report is on its way, nothing is pending. -/
theorem not_typePending (hj : ∀ i, s.pipe.jobs i = []) (hr : ∀ i, s.pipe.replies i = []) :
    ¬ s.TypePending x := by
  rintro ⟨i, ⟨hm, -⟩ | hm⟩
  · have := mem_jobs hm
    rw [hj i] at this
    cases this
  · have := mem_replies hm rfl
    rw [hr i] at this
    cases this

/-! ## The report stays pending until it is delivered -/

theorem mem_update_append {f : Fin n → List Msg} {m : Msg} {j : Fin n} (out : List Msg)
    (h : m ∈ f i) : m ∈ update f j (f j ++ out) i := by
  by_cases hij : i = j
  · subst hij
    rw [update_self]
    exact List.mem_append_left _ h
  · rwa [update_of_ne hij]

theorem mem_update_tail {f : Fin n → List Msg} {m m' : Msg} {ms : List Msg} {j : Fin n}
    (hf : f j = m' :: ms) (hne : m ≠ m') (h : m ∈ f i) : m ∈ update f j ms i := by
  by_cases hij : i = j
  · subst hij
    rw [update_self]
    rw [hf] at h
    exact (List.mem_cons.mp h).resolve_left hne
  · rwa [update_of_ne hij]

theorem TypePending.mgrTakes (h : s.TypePending x) {j : Fin n} {m : Msg} {ms out : List Msg} {g : Mgr}
    (hm : s.toMgr j = m :: ms) (hne : m ≠ ⟨.start, .process x⟩)
    (hp : ⟨.start, .process x⟩ ∈ s.toMgr j → (s.mgr j).HasType x → g.HasType x) :
    (s.mgrTakes j ms g out).TypePending x := by
  obtain ⟨i, ⟨hmem, hpage⟩ | hmem⟩ := h
  · refine ⟨i, .inl ⟨mem_update_tail hm hne.symm hmem, ?_⟩⟩
    by_cases hij : i = j
    · subst hij
      simpa [Net.mgrTakes] using hp hmem hpage
    · simpa [Net.mgrTakes, update_of_ne hij] using hpage
  · exact ⟨i, .inr (mem_update_append out hmem)⟩

/-- A page with the image type makes the manager report it. -/
theorem typePending_mgrProcess (hok : s.Ok) (h : s.TypePending x) {j : Fin n} {y : ExpID}
    {ms : List Msg} (hm : s.toMgr j = ⟨.start, .process y⟩ :: ms) :
    (s.mgrTakes j ms ((s.mgr j).smcProcess y).1 ((s.mgr j).smcProcess y).2).TypePending x := by
  obtain ⟨e, -, rfl⟩ := h.exposure hok
  obtain ⟨i, ⟨hmem, p, hp, hx⟩ | hmem⟩ := h
  · by_cases hij : i = j
    · subst hij
      have hy : y = fmt6 e := by
        have hj := (hok.jobs_eq hmem).1
        simp only [Net.pipe, hm, List.filterMap_cons, Msg.job] at hj
        simpa using (List.cons.inj hj).1
      subst hy
      refine ⟨i, .inr ?_⟩
      simp only [Net.mgrTakes, update_self]
      refine List.mem_append_right _ (List.mem_append_left _ ?_)
      rw [fmt6_fmt6]
      exact List.mem_map.mpr ⟨p, List.mem_filter.mpr ⟨hp, hx⟩, rfl⟩
    · refine ⟨i, .inl ⟨?_, ?_⟩⟩
      · simpa [Net.mgrTakes, update_of_ne hij] using hmem
      · simpa [Net.mgrTakes, update_of_ne hij] using ⟨p, hp, hx⟩
  · exact ⟨i, .inr (mem_update_append _ hmem)⟩

/-- What is collected comes to the pages that are there. -/
theorem Mgr.mem_collect {m : Mgr} {k : Nat} {p q : ExpPage} : q ∈ (m.collect k p).pages ↔ q = p ∨ q ∈ m.pages := by
  have hmem : q ∈ m.pages ↔ q ∈ m.pages.take k ∨ q ∈ m.pages.drop k := by
    rw [← List.mem_append, List.take_append_drop]
  rw [hmem, Mgr.collect, List.mem_append, List.mem_cons]
  tauto

theorem collect_mgr_self (j : Fin n) (k : Nat) (p : ExpPage) : (s.collect j k p).mgr j = (s.mgr j).collect k p :=
  update_self ..

theorem collect_mgr_ne {j : Fin n} (h : i ≠ j) (k : Nat) (p : ExpPage) : (s.collect j k p).mgr i = s.mgr i :=
  update_of_ne h ..

theorem TypePending.collect (h : s.TypePending x) (j : Fin n) (k : Nat) (p : ExpPage) :
    (s.collect j k p).TypePending x := by
  obtain ⟨i, ⟨hmem, q, hq, hx⟩ | hmem⟩ := h
  · refine ⟨i, .inl ⟨hmem, q, ?_⟩⟩
    by_cases hij : i = j
    · subst hij
      rw [collect_mgr_self]
      exact ⟨Mgr.mem_collect.mpr (.inr hq), hx⟩
    · rw [collect_mgr_ne hij]
      exact ⟨hq, hx⟩
  · exact ⟨i, .inr hmem⟩

theorem TypePending.supTakes (h : s.TypePending x) {j : Fin n} {m : Msg} {ms : List Msg}
    (hm : s.fromMgr j = m :: ms) (hne : m ≠ ⟨.set, .imagetype x⟩) :
    (s.supTakes j ms []).TypePending x := by
  obtain ⟨i, hmem | hmem⟩ := h
  · exact ⟨i, .inl hmem⟩
  · exact ⟨i, .inr (mem_update_tail hm hne.symm hmem)⟩

theorem TypePending.bcastMgr (h : s.TypePending x) (m : Msg) : (s.bcastMgr m).TypePending x := by
  obtain ⟨i, ⟨hmem, hp⟩ | hmem⟩ := h
  · exact ⟨i, .inl ⟨List.mem_append_left _ hmem, hp⟩⟩
  · exact ⟨i, .inr hmem⟩

/-- Every step but the delivery of the report leaves it pending. -/
theorem Trans.typePending (hok : s.Ok) (ht : Trans s a t) (h : s.TypePending x) :
    t.TypePending x ∨ ∃ i ms, s.fromMgr i = ⟨.set, .imagetype x⟩ :: ms ∧
      t = (s.supTakes i ms []).onImagetype x := by
  cases ht with
  | setOptionSeqno v => exact .inl (h.bcastMgr _)
  | start q h0 hc hq => exact .inl ((h.bcastMgr _).bcastMgr _)
  | mgrOther i m ms hm hj =>
    refine .inl (h.mgrTakes hm (fun he => ?_) fun _ h => h)
    rw [he] at hj
    cases hj
  | mgrProcess i y ms hm => exact .inl (typePending_mgrProcess hok h hm)
  | mgrFinish i y ms hm =>
    refine .inl (h.mgrTakes hm (by simp) fun hmem => ?_)
    -- a manager that is to delete pages has nothing left to process
    have hj := (hok.jobs_eq hmem).1
    simp [Net.pipe, hm, Msg.job] at hj
  | imagetype i y ms hm =>
    by_cases hxy : y = x
    · subst hxy
      exact .inr ⟨i, ms, hm, rfl⟩
    · exact .inl (h.supTakes hm fun he => hxy (by cases he; rfl))
  | smcDone i y ms hm hc => exact .inl (h.supTakes hm (by simp))
  | startPxf i y ms hm hc => exact .inl (h.supTakes hm (by simp))
  | cleanDone i y ms q hm hq => exact .inl (h.supTakes hm (by simp))
  | dcaDone y fname ms q hm hq => exact .inl (h.bcastMgr _)
  | collect i k p => exact .inl (h.collect i k p)
  | panOpen | panClose | openOther | closeOther | wait | dcaConnect | pxfConnect | pxfOther | pxfProcess
  | dcaQuiet | dcaEnd | dcaData | dcaTransfer | dcaStops | pxfDone | dcaTid | dcaTrans | transDone
  | endReadout => exact .inl h

/-! ## A report becomes pending when the exposure is started -/

theorem TypePending.of_bcastMgr {m : Msg} (h : (s.bcastMgr m).TypePending x)
    (hne : ⟨.start, .process x⟩ ≠ m) : s.TypePending x := by
  obtain ⟨i, ⟨hmem, hp⟩ | hmem⟩ := h
  · rcases List.mem_append.mp hmem with hmem | hmem
    · exact ⟨i, .inl ⟨hmem, hp⟩⟩
    · exact absurd (List.mem_singleton.mp hmem) hne
  · exact ⟨i, .inr hmem⟩

theorem mem_of_update_tail {f : Fin n → List Msg} {m m' : Msg} {ms : List Msg} {j : Fin n}
    (hf : f j = m' :: ms) (h : m ∈ update f j ms i) : m ∈ f i := by
  by_cases hij : i = j
  · subst hij
    rw [update_self] at h
    rw [hf]
    exact List.mem_cons_of_mem m' h
  · rwa [update_of_ne hij] at h

theorem TypePending.of_supTakes {j : Fin n} {m : Msg} {ms : List Msg} (hm : s.fromMgr j = m :: ms)
    (h : (s.supTakes j ms []).TypePending x) : s.TypePending x := by
  obtain ⟨i, h | h⟩ := h
  · exact ⟨i, .inl h⟩
  · exact ⟨i, .inr (mem_of_update_tail hm h)⟩

theorem TypePending.of_mgrTakes {j : Fin n} {m : Msg} {ms out : List Msg} {g : Mgr}
    (h : (s.mgrTakes j ms g out).TypePending x) (hm : s.toMgr j = m :: ms)
    (hg : g.HasType x → (s.mgr j).HasType x)
    (hout : ⟨.set, .imagetype x⟩ ∈ out → s.TypePending x) : s.TypePending x := by
  obtain ⟨i, ⟨hmem, hp⟩ | hmem⟩ := h
  · refine ⟨i, .inl ⟨mem_of_update_tail hm hmem, ?_⟩⟩
    by_cases hij : i = j
    · subst hij
      exact hg (by simpa [Net.mgrTakes] using hp)
    · simpa [Net.mgrTakes, update_of_ne hij] using hp
  · by_cases hij : i = j
    · subst hij
      simp only [Net.mgrTakes, update_self, List.mem_append] at hmem
      exact hmem.elim (fun hmem => ⟨i, .inr hmem⟩) hout
    · exact ⟨i, .inr (by simpa [Net.mgrTakes, update_of_ne hij] using hmem)⟩

/-- `smcProcess` changes no page but for its sequence number. -/
theorem mem_smcProcess {g : Mgr} {y : ExpID} {p : ExpPage} (h : p ∈ (g.smcProcess y).1.pages) :
    ∃ p₀ ∈ g.pages, p = if p₀.isSelected g.procPages y then { p₀ with seqno := g.seqno } else p₀ := by
  obtain ⟨p₀, hp₀, rfl⟩ := List.mem_map.mp h
  exact ⟨p₀, hp₀, rfl⟩

theorem typePending_of_mgrProcess (hok : s.Ok) {j : Fin n} {y : ExpID} {ms : List Msg}
    (hm : s.toMgr j = ⟨.start, .process y⟩ :: ms)
    (h : (s.mgrTakes j ms ((s.mgr j).smcProcess y).1 ((s.mgr j).smcProcess y).2).TypePending x) :
    s.TypePending x := by
  refine h.of_mgrTakes hm (fun ⟨p, hp, hx⟩ => ?_) fun hout => ?_
  · obtain ⟨p₀, hp₀, rfl⟩ := mem_smcProcess hp
    refine ⟨p₀, hp₀, ?_⟩
    split at hx
    · exact hx
    · exact hx
  · rcases List.mem_append.mp hout with hout | hout
    · obtain ⟨p, hp, he⟩ := List.mem_map.mp hout
      obtain ⟨hp', hx⟩ := List.mem_filter.mp hp
      obtain ⟨-, -, e, -, rfl⟩ := hok.jobs_eq (hm ▸ List.mem_cons_self)
      obtain rfl : fmt6 (fmt6 e) = x := by cases he; rfl
      rw [fmt6_fmt6]
      exact ⟨j, .inl ⟨hm ▸ List.mem_cons_self, p, hp', hx⟩⟩
    · cases List.mem_singleton.mp hout

/-- A step starts an exposure, or the exposure in process stays. -/
theorem Trans.keeps_or_starts (ht : Trans s a t) :
    (lastProc t.log = lastProc s.log ∧ ¬ (a = .procNext ∧ s.Starts)) ∨
    (a = .procNext ∧ s.Starts ∧ ∃ q, t = s.startExposure (pqNext s.sup.queue) q) := by
  cases ht with
  | start q h0 hc hq => exact .inr ⟨rfl, ⟨h0, hc⟩, q, rfl⟩
  | wait hc => exact .inl ⟨rfl, fun h => hc h.2⟩
  | dcaDone y fname ms q hm hq =>
    refine .inl ⟨?_, nofun⟩
    show lastProc ((((removed s.sup.queue q).map Event.removed).toList ++ [.dcaDone y]) ++ s.log) = _
    cases removed s.sup.queue q <;> rfl
  | dcaStops a d ha hd hrun =>
    refine .inl ⟨rfl, fun h => ?_⟩
    rw [h.1] at ha
    cases ha
  | _ => exact .inl ⟨rfl, nofun⟩

/-- Otherwise a report becomes pending only if a page with the image type is collected in time. -/
theorem Trans.typePending_new (hok : s.Ok) (ht : Trans s a t) (hne : ¬ (a = .procNext ∧ s.Starts))
    (h : t.TypePending x) : s.TypePending x ∨
    ∃ i k p, a = .collect i k p ∧ ⟨.start, .process x⟩ ∈ s.toMgr i ∧ (s.mgr i).isType x p = true := by
  cases ht with
  | start q h0 hc hq => exact absurd ⟨rfl, h0, hc⟩ hne
  | collect j k p =>
    obtain ⟨i, ⟨hmem, q, hq, hx⟩ | hmem⟩ := h
    · by_cases hij : i = j
      · subst hij
        rw [collect_mgr_self] at hq hx
        rcases Mgr.mem_collect.mp hq with rfl | hq
        · exact .inr ⟨i, k, q, rfl, hmem, hx⟩
        · exact .inl ⟨i, .inl ⟨hmem, q, hq, hx⟩⟩
      · rw [collect_mgr_ne hij] at hq hx
        exact .inl ⟨i, .inl ⟨hmem, q, hq, hx⟩⟩
    · exact .inl ⟨i, .inr hmem⟩
  | setOptionSeqno v => exact .inl (h.of_bcastMgr fun he => nomatch he)
  | mgrOther i m ms hm hj => exact .inl (h.of_mgrTakes hm (fun h => h) fun hout => nomatch hout)
  | mgrProcess i y ms hm => exact .inl (typePending_of_mgrProcess hok hm h)
  | mgrFinish i y ms hm =>
    refine .inl (h.of_mgrTakes hm (fun ⟨p, hp, hx⟩ => ⟨p, List.mem_of_mem_filter hp, hx⟩) fun hout => ?_)
    cases List.mem_singleton.mp hout
  | imagetype i y ms hm => exact .inl (TypePending.of_supTakes hm h)
  | smcDone i y ms hm hc => exact .inl (TypePending.of_supTakes hm h)
  | startPxf i y ms hm hc => exact .inl (TypePending.of_supTakes hm h)
  | cleanDone i y ms q hm hq => exact .inl (TypePending.of_supTakes hm h)
  | dcaDone y fname ms q hm hq => exact .inl (h.of_bcastMgr fun he => nomatch he)
  | panOpen | panClose | openOther | closeOther | wait | dcaConnect | pxfConnect | pxfOther | pxfProcess
  | dcaQuiet | dcaEnd | dcaData | dcaTransfer | dcaStops | pxfDone | dcaTid | dcaTrans | transDone
  | endReadout => exact .inl h

/-- When an exposure is started, nothing of the one before is on its way. -/
theorem Ok.idle (h : s.Ok) (hs : s.Starts) : s.pipe.In .idle := by
  obtain ⟨st, hi⟩ := h.pipe.stage
  obtain rfl := hi.of_bcast hs.2
  exact hi

/-- An exposure with a known image type has its report pending when it is started. -/
theorem typePending_start {e : ExpID} (q : ProcQueue) (h : s.HasType (fmt6 e)) :
    (s.startExposure e q).TypePending (fmt6 e) := by
  obtain ⟨i, hp⟩ := h
  exact ⟨i, .inl ⟨List.mem_append_right _ List.mem_cons_self, hp⟩⟩

end Net
end Ndhs
