import Ndhs.Pipeline.Progress
import Ndhs.Smc.TableInv

/-!
# The pages of the nodes

The managers delete the pages of an exposure when the Supervisor tells them that the DCA is done
with it. Here is what that does to the pages of the caches in any run.

* `collect_getPage`, `smcDelExpID_livePages`: the pages of a manager are the live pages of the table of
  `Ndhs.Smc.Table`.
* `Cleaned`, `clean_done_cleans`: a node that reports `clean done` has deleted the pages of the exposure that it is
  to process; what it has of them later was added later.
* `Kept`, `other_pages_kept`: the pages of an exposure that was never started stay as they were,
  whatever is processed and cleaned up in between.
-/

namespace Ndhs

open Cells Function Machine Round Text

/-! ## The pages and the table of the cache -/

section Table

variable {smc smc' : SmCache} {view : SmcPage → ExpPage}

/-- A new page is put between the pages that the cache has. -/
theorem collect_getPage (h : smc.Shape) {type size : Int} {attach lock : Bool} {env : GetEnv} {pnum : Nat}
    (hg : smcGetPage smc type size attach lock env = some (smc', .page pnum)) {g : Mgr}
    (hp : g.pages = smc.livePages.map view) :
    ∃ k, (g.collect k (view (smc'.pdata pnum))).pages = smc'.livePages.map view := by
  obtain ⟨-, hr⟩ | ⟨i, -, hi, -, -, hv, ho⟩ := smcGetPage_spec h hg
  · cases hr
  · obtain ⟨hother, -, -, ⟨-, -, -, hr⟩ | ⟨hl, -, -, -, hr, -⟩⟩ := openPage_spec ho
    · cases hr
    · obtain hr | hr := hr <;> cases hr
      have hnew : smc'.pdata = update smc.pdata pnum (smc'.pdata pnum) :=
        (update_eq_iff.mpr ⟨rfl, fun j hj => (hother j hj).symm⟩).symm
      obtain ⟨k, hk⟩ := filter_cells_update (a := smc'.pdata pnum) hi hv hl
      refine ⟨k, ?_⟩
      rw [SmCache.livePages, hnew, update_self, hk, Mgr.collect, hp, List.map_append, List.map_cons, List.map_take,
        List.map_drop]
      rfl

/-- The pages that `smcDelExpID` leaves in the table. -/
theorem smcDelExpID_livePages (h : smc.Shape) (hid : ∀ p, (view p).expID = p.expID)
    (hcol : ∀ p, (view p).colID = p.colID) (pid : Nat) (x : ExpID) {g : Mgr} (hp : g.pages = smc.livePages.map view) :
    (g.smcDelExpID x).pages = (smcDelExpID smc pid x g.procPages).livePages.map view := by
  have hsel : ∀ p, (view p).isSelected g.procPages x = p.matches x g.procPages := fun p => by
    rw [ExpPage.isSelected, hid, hcol, SmcPage.matches]
  have hlive : (smcDelExpID smc pid x g.procPages).livePages =
      smc.livePages.filter fun p => !p.matches x g.procPages := by
    refine filter_cells_clear (fun j _ => ?_) fun j _ hj => ?_
    · rw [delExpID_pdata]
      split
      · rename_i hc
        rw [freedPage_live, hc.2]
        exact (Bool.and_false _).symm
      · rename_i hc
        cases hl : (smc.pdata j).live with
        | false => rfl
        | true =>
          have hj := h.below j hl
          cases hm : (smc.pdata j).matches x g.procPages with
          | false => rfl
          | true => exact absurd ⟨by omega, hm⟩ hc
    · rw [delExpID_pdata] at hj ⊢
      split
      · rename_i hc
        rw [if_pos hc] at hj
        cases hj
      · rfl
  have hview : (smc.livePages.map view).filter (fun p => !p.isSelected g.procPages x) =
      (smc.livePages.filter fun p => !p.matches x g.procPages).map view := by
    rw [List.filter_map]
    simp only [Function.comp_def, hsel]
  rw [hlive, ← hview, ← hp]
  rfl

end Table

variable {n : Nat}

theorem mem_of_lastProc {e : ExpID} {l : List (Event n)} (h : lastProc l = some e) :
    .procBcast e ∈ l := by
  induction l with
  | nil => cases h
  | cons ev l ih =>
    cases ev with
    | procBcast e' =>
      cases h
      exact List.mem_cons_self
    | removed | smcDone | pxfBcast | transferComplete | endReadout | dcaDone | cleanDone =>
      exact List.mem_cons_of_mem _ (ih h)

namespace Net

variable {s t : Net n} {a : Act n}

/-! ## A node that is done has no page left -/

theorem forall_pages_update {P : Fin n → ExpPage → Prop} {j : Fin n} {g : Mgr}
    (h : ∀ i, ∀ p ∈ (s.mgr i).pages, P i p) (hg : ∀ p ∈ g.pages, P j p) (i : Fin n) :
    ∀ p ∈ (update s.mgr j g i).pages, P i p := by
  by_cases hi : i = j
  · subst hi
    rwa [update_self]
  · rw [update_of_ne hi]
    exact h i

/-- A page of a manager was there before, but for its number, or a Collector has added it. -/
theorem Trans.pages_from (ht : Trans s a t) (i : Fin n) :
    ∀ p ∈ (t.mgr i).pages, (∃ q ∈ (s.mgr i).pages, p = { q with seqno := p.seqno }) ∨ ∃ k, a = .collect i k p := by
  have hsame : ∀ i, ∀ p ∈ (s.mgr i).pages,
      (∃ q ∈ (s.mgr i).pages, p = { q with seqno := p.seqno }) ∨ ∃ k, a = .collect i k p :=
    fun i p hp => .inl ⟨p, hp, rfl⟩
  cases ht with
  | collect j k p₀ =>
    refine forall_pages_update (P := fun i p => (∃ q ∈ (s.mgr i).pages, p = { q with seqno := p.seqno }) ∨
      ∃ k', Act.collect j k p₀ = .collect i k' p) hsame (fun p hp => ?_) i
    rcases Mgr.mem_collect.mp hp with rfl | hp
    · exact .inr ⟨k, rfl⟩
    · exact .inl ⟨p, hp, rfl⟩
  | mgrOther j m ms hm hj =>
    refine forall_pages_update (P := fun i p => (∃ q ∈ (s.mgr i).pages, p = { q with seqno := p.seqno }) ∨
      ∃ k', Act.mgrRecv j = .collect i k' p) hsame ?_ i
    exact hsame j
  | mgrProcess j x ms hm =>
    refine forall_pages_update (P := fun i p => (∃ q ∈ (s.mgr i).pages, p = { q with seqno := p.seqno }) ∨
      ∃ k', Act.mgrRecv j = .collect i k' p) hsame (fun p hp => ?_) i
    obtain ⟨q, hq, rfl⟩ := List.mem_map.mp hp
    refine .inl ⟨q, hq, ?_⟩
    split <;> rfl
  | mgrFinish j x ms hm =>
    exact forall_pages_update (P := fun i p => (∃ q ∈ (s.mgr i).pages, p = { q with seqno := p.seqno }) ∨
      ∃ k', Act.mgrRecv j = .collect i k' p) hsame (fun p hp => hsame j p (List.mem_of_mem_filter hp)) i
  | _ => exact hsame i

/-- The options of the managers do not change. -/
theorem Trans.procPages (ht : Trans s a t) (i : Fin n) : (t.mgr i).procPages = (s.mgr i).procPages := by
  have hupd : ∀ (j : Fin n) (g : Mgr), g.procPages = (s.mgr j).procPages →
      (update s.mgr j g i).procPages = (s.mgr i).procPages := fun j g hg => by
    by_cases hi : i = j
    · subst hi
      rwa [update_self]
    · rw [update_of_ne hi]
  cases ht with
  | collect j k p => exact hupd j _ rfl
  | mgrOther j m ms hm hj => exact hupd j _ rfl
  | mgrProcess j x ms hm => exact hupd j _ rfl
  | mgrFinish j x ms hm => exact hupd j _ rfl
  | _ => rfl

/-- The report of a node that it deleted the pages of `x` was sent. -/
def Reported (s : Net n) (i : Fin n) (x : ExpID) : Prop :=
  .cleanDone i x ∈ s.log ∨ ⟨.set, .cleanDone x⟩ ∈ s.fromMgr i

theorem Reported.mgrTakes {i j : Fin n} {x : ExpID} {ms out : List Msg} {g : Mgr}
    (h : (s.mgrTakes j ms g out).Reported i x) :
    s.Reported i x ∨ i = j ∧ ⟨.set, .cleanDone x⟩ ∈ out := by
  rcases h with h | h
  · exact .inl (.inl h)
  · by_cases hi : i = j
    · subst hi
      rw [show (s.mgrTakes i ms g out).fromMgr i = s.fromMgr i ++ out from update_self ..] at h
      rcases List.mem_append.mp h with h | h
      · exact .inl (.inr h)
      · exact .inr ⟨rfl, h⟩
    · rw [show (s.mgrTakes j ms g out).fromMgr i = s.fromMgr i from update_of_ne hi ..] at h
      exact .inl (.inr h)

/-- A report that is taken goes to the log. -/
theorem Reported.supTakes {i j : Fin n} {x : ExpID} {m : Msg} {ms : List Msg} {e : List (Event n)}
    (hm : s.fromMgr j = m :: ms) (hev : .cleanDone i x ∈ e → i = j ∧ m = ⟨.set, .cleanDone x⟩)
    (h : (s.supTakes j ms e).Reported i x) : s.Reported i x := by
  rcases h with h | h
  · rcases List.mem_append.mp h with h | h
    · obtain ⟨rfl, rfl⟩ := hev h
      exact .inr (hm ▸ List.mem_cons_self)
    · exact .inl h
  · by_cases hi : i = j
    · subst hi
      rw [show (s.supTakes i ms e).fromMgr i = ms from update_self ..] at h
      exact .inr (hm ▸ List.mem_cons_of_mem m h)
    · rw [show (s.supTakes j ms e).fromMgr i = s.fromMgr i from update_of_ne hi ..] at h
      exact .inr h

/-- Only a manager that deletes the pages reports it. -/
theorem Trans.reported (ht : Trans s a t) {i : Fin n} {x : ExpID} (h : t.Reported i x) :
    s.Reported i x ∨ t.mgr i = (s.mgr i).smcDelExpID x := by
  -- an event that is no report
  have other : ∀ {ev : Event n}, (∀ i x, ev ≠ .cleanDone i x) →
      .cleanDone i x ∈ ev :: s.log ∨ ⟨.set, .cleanDone x⟩ ∈ s.fromMgr i → s.Reported i x := by
    intro ev hev h
    rcases h with h | h
    · rcases List.mem_cons.mp h with h | h
      · exact absurd h.symm (hev i x)
      · exact .inl h
    · exact .inr h
  cases ht with
  | start q h0 hc hq => exact .inl (other (by simp) h)
  | mgrOther j m ms hm hj =>
    refine .inl (h.mgrTakes.resolve_right ?_)
    rintro ⟨-, ho⟩
    cases ho
  | mgrProcess j y ms hm =>
    refine .inl (h.mgrTakes.resolve_right ?_)
    rintro ⟨-, ho⟩
    rcases List.mem_append.mp ho with ho | ho
    · obtain ⟨p, -, hp⟩ := List.mem_map.mp ho
      cases hp
    · cases List.mem_singleton.mp ho
  | mgrFinish j y ms hm =>
    rcases h.mgrTakes with h | ⟨rfl, ho⟩
    · exact .inl h
    · cases List.mem_singleton.mp ho
      exact .inr (update_self ..)
  | dcaTransfer j o d k rs hgo hr => exact .inl (other (by simp) h)
  | imagetype j y ms hm => exact .inl (Reported.supTakes (e := []) hm (by simp) h)
  | smcDone j y ms hm hc =>
    exact .inl (Reported.supTakes (e := [.smcDone j y]) hm (fun he => by simp at he) h)
  | startPxf j y ms hm hc =>
    have h' : (s.supTakes j ms [.smcDone j y]).Reported i x := by
      rcases h with h | h
      · rcases List.mem_cons.mp h with h | h
        · cases h
        · exact .inl h
      · exact .inr h
    exact .inl (Reported.supTakes hm (fun he => by simp at he) h')
  | cleanDone j y ms q hm hq =>
    refine .inl (Reported.supTakes (e := [.cleanDone j y]) hm (fun he => ?_) h)
    cases List.mem_singleton.mp he
    exact ⟨rfl, rfl⟩
  | endReadout k ms hm hc => exact .inl (other (by simp) h)
  | dcaDone y fname ms q hm hq =>
    left
    rcases h with h | h
    · rcases List.mem_append.mp h with h | h
      · rcases List.mem_append.mp h with h | h
        · simp at h
        · cases List.mem_singleton.mp h
      · exact .inl h
    · exact .inr h
  | _ => exact .inl h

/-- The pages that Collectors have added to the cache of node `i`. -/
def collected (i : Fin n) (as : List (Act n)) : List ExpPage :=
  as.filterMap fun
    | .collect j _ p => if j = i then some p else none
    | _ => none

theorem collected_append (i : Fin n) (as bs : List (Act n)) : collected i (as ++ bs) = collected i as ++ collected i bs :=
  List.filterMap_append

theorem collected_self (i : Fin n) (k : Nat) (p : ExpPage) : collected i [.collect i k p] = [p] := by
  simp [collected]

theorem collected_of_ne {i j : Fin n} (h : j ≠ i) (k : Nat) (p : ExpPage) : collected i [.collect j k p] = [] := by
  simp [collected, h]

/-- After the inputs `as`, what node `i` has of the pages of `x` that it is to process was added after a time when
it had none. -/
def Cleaned (start : Net n) (as : List (Act n)) (s : Net n) (i : Fin n) (x : ExpID) : Prop :=
  ∃ bs ds u, as = bs ++ ds ∧ run step start bs = some u ∧
    (∀ p ∈ (u.mgr i).pages, p.isSelected (start.mgr i).procPages x = false) ∧
    ∀ p ∈ (s.mgr i).pages, p.isSelected (start.mgr i).procPages x = true →
      ∃ q ∈ collected i ds, p = { q with seqno := p.seqno }

/-- A page that was added is there, but for its number. -/
theorem Cleaned.trans {start : Net n} {as : List (Act n)} {i : Fin n} {x : ExpID} (h : Cleaned start as s i x)
    (ht : Trans s a t) : Cleaned start (as ++ [a]) t i x := by
  obtain ⟨bs, ds, u, rfl, hu, hno, hall⟩ := h
  refine ⟨bs, ds ++ [a], u, List.append_assoc .., hu, hno, fun p hp hsel => ?_⟩
  rw [collected_append]
  rcases ht.pages_from i p hp with ⟨q, hq, he⟩ | ⟨k, rfl⟩
  · have hselq : q.isSelected (start.mgr i).procPages x = true := by
      rw [he] at hsel
      exact hsel
    obtain ⟨q', hq', he'⟩ := hall q hq hselq
    refine ⟨q', List.mem_append_left _ hq', ?_⟩
    rw [he, he']
  · exact ⟨p, List.mem_append_right _ (by rw [collected_self]; exact List.mem_cons_self), rfl⟩

/-- The Supervisor takes a `clean done`. -/
theorem step_cleanDone {s : Net n} {i : Fin n} {x : ExpID} {ms : List Msg}
    (hm : s.fromMgr i = ⟨.set, .cleanDone x⟩ :: ms) (hq : 0 ≤ s.sup.queue.qCount) :
    ∃ t, step s (.supFromMgr i) = some t ∧ t.log = .cleanDone i x :: s.log := by
  have hset : ∃ q, pqSetStat s.sup.queue x .available = some q := by
    unfold pqSetStat
    split
    · exact ⟨_, if_neg (Int.not_lt.mpr hq)⟩
    · exact ⟨_, if_neg (Int.not_lt.mpr hq)⟩
  obtain ⟨q, he⟩ := hset
  refine ⟨({ s with fromMgr := update s.fromMgr i ms }.note
    (report i ⟨.set, .cleanDone x⟩)).onCleanDone q, ?_, rfl⟩
  simp only [step, hm]
  change (pqSetStat s.sup.queue x .available).map _ = _
  rw [he]
  rfl

/-- After the inputs `as`, the pages that no started exposure has are those at the start and those that were added, each
once, and those at the start are in their order: `U` may select any of them. -/
def Kept (pages : Fin n → List ExpPage) (as : List (Act n)) (s : Net n) : Prop :=
  ∀ i (U : ExpPage → Bool), (∀ p, U p = true → ∀ e, .procBcast e ∈ s.log →
    smcEqualExpID p.expID (fmt6 e) = false) →
    ((s.mgr i).pages.filter U).Perm ((pages i ++ collected i as).filter U) ∧
      ((pages i).filter U).Sublist ((s.mgr i).pages.filter U)

section Keeping

variable {pages : Fin n → List ExpPage} {x : ExpID} {g : Mgr} {U : ExpPage → Bool}

theorem isSelected_eq_false {p : ExpPage} (h : smcEqualExpID p.expID x = false) (procPages : Option String) :
    p.isSelected procPages x = false := by
  rw [ExpPage.isSelected, h, Bool.and_false]

theorem filter_smcProcess (hU : ∀ p, U p = true → smcEqualExpID p.expID x = false) :
    (g.smcProcess x).1.pages.filter U = g.pages.filter U := by
  show (g.pages.map _).filter U = _
  induction g.pages with
  | nil => rfl
  | cons p L ih =>
    rw [List.map_cons]
    by_cases hx : p.isSelected g.procPages x = true
    · -- a page of the exposure is not selected by `U`, before or after
      have h1 : ¬ U p = true := fun h => by
        rw [isSelected_eq_false (hU p h)] at hx
        cases hx
      have h2 : ¬ U { p with seqno := g.seqno } = true := fun h => by
        have hid : smcEqualExpID p.expID x = false := hU { p with seqno := g.seqno } h
        rw [isSelected_eq_false hid] at hx
        cases hx
      rw [if_pos hx, List.filter_cons_of_neg h1, List.filter_cons_of_neg h2, ih]
    · rw [if_neg hx, List.filter_cons, List.filter_cons, ih]

theorem filter_smcDelExpID (hU : ∀ p, U p = true → smcEqualExpID p.expID x = false) :
    (g.smcDelExpID x).pages.filter U = g.pages.filter U := by
  show (g.pages.filter _).filter U = _
  rw [List.filter_filter]
  refine List.filter_congr fun p _ => ?_
  cases h : U p with
  | false => rfl
  | true => simp [isSelected_eq_false (hU p h)]

/-- An added page is there once, and the others are in their order. -/
theorem filter_collect (k : Nat) (p : ExpPage) :
    ((g.collect k p).pages.filter U).Perm (g.pages.filter U ++ [p].filter U) ∧
      (g.pages.filter U).Sublist ((g.collect k p).pages.filter U) := by
  have hsplit := List.take_append_drop k g.pages
  constructor
  · rw [← List.filter_append]
    refine List.Perm.filter U ?_
    conv_rhs => rw [← hsplit]
    exact List.perm_middle.trans (@List.perm_append_comm _ [p] _)
  · refine List.Sublist.filter U ?_
    conv_lhs => rw [← hsplit]
    exact (List.Sublist.refl _).append (List.sublist_cons_self p _)

/-- A manager took a message, and its new state has the same pages that `U` selects. -/
theorem filter_mgrTakes {j : Fin n} {ms out : List Msg} (hg : g.pages.filter U = (s.mgr j).pages.filter U)
    (i : Fin n) : ((s.mgrTakes j ms g out).mgr i).pages.filter U = (s.mgr i).pages.filter U := by
  by_cases hi : i = j
  · subst hi
    rw [show (s.mgrTakes i ms g out).mgr i = g from update_self ..]
    exact hg
  · rw [show (s.mgrTakes j ms g out).mgr i = s.mgr i from update_of_ne hi ..]

/-- A job of a manager is about an exposure that was started. -/
theorem SerialInv.started (h : s.SerialInv) {i : Fin n} {m : Msg} {ms : List Msg} {j : Job}
    (hm : s.toMgr i = m :: ms) (hj : m.job = some j) :
    ∃ e, .procBcast e ∈ s.log ∧ (j = .process (fmt6 e) ∨ j = .finish (fmt6 e)) := by
  obtain ⟨st, hi⟩ := h.ok.pipe.stage
  have hjobs : s.pipe.jobs i = j :: ms.filterMap Msg.job := by
    simp [Net.pipe, hm, hj]
  cases j with
  | process x =>
    obtain ⟨H, rfl, -⟩ := hi.of_process hjobs
    obtain ⟨⟨e, he, rfl⟩, -⟩ := hi.logged
    exact ⟨e, mem_of_lastProc he, .inl rfl⟩
  | finish x =>
    obtain ⟨y, H, rfl, rfl, -⟩ := hi.of_finish hjobs
    obtain ⟨hne, hy, -⟩ := hi.logged
    obtain ⟨e, he⟩ := Option.ne_none_iff_exists'.mp hne
    have hname := (h.track.orderly s.log (List.suffix_refl _)).1 e y he hy
    exact ⟨e, mem_of_lastProc he, .inr (by rw [hname, fmt6_fmt6])⟩

theorem Trans.log_suffix (ht : Trans s a t) : s.log <:+ t.log := by
  cases ht with
  | start | dcaTransfer | endReadout => exact List.suffix_cons _ _
  | imagetype | smcDone | cleanDone => exact List.suffix_append _ _
  | startPxf => exact (List.suffix_cons _ _).trans (List.suffix_cons _ _)
  | dcaDone => exact List.suffix_append _ _
  | _ => exact List.suffix_refl _

/-- A step that adds no page changes none of them. -/
theorem Trans.filter_pages (ht : Trans s a t) (hs : s.SerialInv) (ha : ∀ j k p, a ≠ .collect j k p) (i : Fin n)
    (hU : ∀ p, U p = true → ∀ e, .procBcast e ∈ s.log → smcEqualExpID p.expID (fmt6 e) = false) :
    (t.mgr i).pages.filter U = (s.mgr i).pages.filter U := by
  cases ht with
  | collect j k p => exact absurd rfl (ha j k p)
  | mgrOther j m ms hm hj =>
    refine filter_mgrTakes ?_ i
    rfl
  | mgrProcess j x ms hm =>
    obtain ⟨e, he, hx⟩ := hs.started hm rfl
    obtain rfl : x = fmt6 e := by
      rcases hx with hx | hx <;> cases hx
      rfl
    exact filter_mgrTakes (filter_smcProcess fun p hp => hU p hp e he) i
  | mgrFinish j x ms hm =>
    obtain ⟨e, he, hx⟩ := hs.started hm rfl
    obtain rfl : x = fmt6 e := by
      rcases hx with hx | hx <;> cases hx
      rfl
    exact filter_mgrTakes (filter_smcDelExpID fun p hp => hU p hp e he) i
  | _ => rfl

theorem Kept.trans {as : List (Act n)} (h : Kept pages as s) (hs : s.SerialInv) (ht : Trans s a t) :
    Kept pages (as ++ [a]) t := by
  intro i U hU
  have hU' : ∀ p, U p = true → ∀ e, .procBcast e ∈ s.log → smcEqualExpID p.expID (fmt6 e) = false :=
    fun p hp e he => hU p hp e (ht.log_suffix.subset he)
  obtain ⟨hperm, hsub⟩ := h i U hU'
  rw [collected_append, ← List.append_assoc, List.filter_append]
  by_cases ha : ∀ j k p, a ≠ .collect j k p
  · have hnone : collected i [a] = [] := by
      cases a with
      | collect j k p => exact absurd rfl (ha j k p)
      | _ => rfl
    rw [ht.filter_pages hs ha i hU', hnone, List.filter_nil, List.append_nil]
    exact ⟨hperm, hsub⟩
  · push Not at ha
    obtain ⟨j, k, p, rfl⟩ := ha
    cases ht with
    | collect j k p =>
      by_cases hi : j = i
      · subst hi
        rw [collected_self]
        show ((update s.mgr j ((s.mgr j).collect k p) j).pages.filter U).Perm _ ∧ List.Sublist _
          ((update s.mgr j ((s.mgr j).collect k p) j).pages.filter U)
        rw [update_self]
        obtain ⟨hperm', hsub'⟩ := filter_collect (g := s.mgr j) (U := U) k p
        exact ⟨hperm'.trans (hperm.append_right _), hsub.trans hsub'⟩
      · rw [collected_of_ne hi, List.filter_nil, List.append_nil]
        show ((update s.mgr j ((s.mgr j).collect k p) i).pages.filter U).Perm _ ∧ List.Sublist _
          ((update s.mgr j ((s.mgr j).collect k p) i).pages.filter U)
        rw [update_of_ne (Ne.symm hi)]
        exact ⟨hperm, hsub⟩
    | dcaStops a d ha hd hrun => cases ha

end Keeping

/-- In every regular run, the pages of the exposures that were never started stay in the caches as they were or
as they were added, none lost, doubled or changed. -/
theorem other_pages_kept (c : Setup n) (tid : Int) (par : Mosdca.Params) (as : List (Act n)) (t : Net n)
    (hk : Steps Regular step (Net.connected c tid par) as)
    (hr : run step (Net.connected c tid par) as = some t) (i : Fin n) (U : ExpPage → Bool)
    (hU : ∀ p, U p = true → ∀ e, .procBcast e ∈ t.log → smcEqualExpID p.expID (fmt6 e) = false) :
    ((t.mgr i).pages.filter U).Perm ((c.pages i ++ collected i as).filter U) ∧
      ((c.pages i).filter U).Sublist ((t.mgr i).pages.filter U) := by
  let H (as : List (Act n)) (u : Net n) : Prop := u.SerialInv ∧ Kept c.pages as u
  have hH : H ([] ++ as) t := by
    refine Steps.run_hist (H := H) (fun as u a v hu hk hst => ?_) ?_ hk hr
    · have ht := hu.1.ok.typed.step_cases hk.answered hst
      exact ⟨hu.1.step hk hst, hu.2.trans hu.1 ht⟩
    · refine ⟨SerialInv.connected c tid par, fun i U _ => ⟨?_, List.Sublist.refl _⟩⟩
      rw [show collected i ([] : List (Act n)) = [] from rfl, List.append_nil]
      exact List.Perm.refl _
  exact hH.2 i U hU

/-- One node: exposure `1` was processed and cleaned up, and the pages of exposure `2` are there, one from the start
and one that was added. -/
theorem other_pages_kept_one :
    let start := Net.connected (Setup.scripts 1 fun _ => [.typePage 1, .typePage 2]) 7 Dca.options
    let as : List (Act 1) := [.panOpen (chars "pan") 1, .panClose (chars "pan") 1, .procNext, .mgrRecv 0, .mgrRecv 0,
      .supFromMgr 0, .supFromMgr 0, .collect 0 0 ⟨2, .tyData, "PanA", 0, 0, 0⟩, .pxfRecv 0, .pxfRecv 0, .pxfRecv 0,
      .pxfRecv 0, .dcaFromPxf 0 {}, .dcaFromPxf 0 {}, .supFromDca, .dcaFromSup {}, .dcaFromSup {}, .dcaFromSup {},
      .dcaFromSup {}, .dcaFromSup {}, .supFromDca, .supFromDca, .mgrRecv 0]
    ∃ t, run step start (as ++ [.supFromMgr 0]) = some t ∧ Event.cleanDone 0 1 ∈ t.log ∧
      ((t.mgr 0).pages.filter fun p => p.expID = 2).Perm [.typePage 2, ⟨2, .tyData, "PanA", 0, 0, 0⟩] := by
  intro start as
  have hk : Steps Regular step start as := by decide +kernel
  have hsent : (run step start as).any fun s => decide (s.fromMgr 0 = [⟨.set, .cleanDone 1⟩] ∧
      0 ≤ s.sup.queue.qCount ∧ s.log = [.removed 1, .dcaDone 1, .endReadout, .transferComplete 0, .pxfBcast 1,
        .smcDone 0 1, .procBcast 1]) := by decide +kernel
  obtain ⟨s, hs, hsent⟩ := (Option.any_eq_true _ _).mp hsent
  obtain ⟨hm, hq, hslog⟩ := of_decide_eq_true hsent
  obtain ⟨t, ht, hlog⟩ := step_cleanDone hm hq
  have hrun := (run_snoc hs (.supFromMgr 0)).trans ht
  have hk' := hk.snoc (a := Act.supFromMgr 0) fun _ _ => trivial
  refine ⟨t, hrun, hlog ▸ List.mem_cons_self,
    ((other_pages_kept _ 7 _ _ t hk' hrun 0 (fun p => p.expID = 2) fun p hp e he => ?_).1).trans ?_⟩
  · have hid : p.expID = 2 := of_decide_eq_true hp
    rw [hlog, hslog] at he
    obtain rfl : e = 1 := by simpa using he
    rw [hid]
    decide +kernel
  · exact List.Perm.of_eq (by decide +kernel)

end Net

end Ndhs
