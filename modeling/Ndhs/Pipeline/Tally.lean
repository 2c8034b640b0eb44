import Mathlib.Algebra.BigOperators.Fin
import Ndhs.Pipeline.Serial

/-!
# What the messages on their way are worth

A step of the system takes a message from one channel and adds messages to others. Give every
message a worth, and the total of all channels changes by what was taken and what was sent.

* `Worth`, `Worth.total`: a price list for the channels, and the worth of everything on its way.
* `Linked`: every PXF client is connected and knows the DCA, so that no message is lost.
* `total_bcastMgr`, `total_mgrTakes` and so on: how the total changes.
-/

namespace Ndhs

open Function Machine Round

/-- What a message is worth, by its channel. -/
structure Worth where
  toMgr : Msg → Nat
  fromMgr : Msg → Nat
  toPxf : Msg → Nat
  fromPxf : Msg → Nat
  pxfToDca : DcaReq → Nat
  toDca : DcaReq → Nat
  fromDca : Msg → Nat

namespace Worth

variable {n : Nat} {s t : Net n} {a : Net.Act n} {i : Fin n} (w : Worth)

/-- The messages of node `i`. -/
def lane (s : Net n) (i : Fin n) : Nat :=
  ((s.toMgr i).map w.toMgr).sum + ((s.fromMgr i).map w.fromMgr).sum +
    ((s.toPxf i).map w.toPxf).sum + ((s.fromPxf i).map w.fromPxf).sum +
    ((s.pxfToDca i).map w.pxfToDca).sum

/-- The messages between the Supervisor and the DCA. -/
def link (s : Net n) : Nat := (s.toDca.map w.toDca).sum + (s.fromDca.map w.fromDca).sum

/-- Everything on its way. -/
def total (s : Net n) : Nat := ∑ i, w.lane s i + w.link s

/-- Only the lane of node `i` and the link have changed. -/
theorem total_eq (i : Fin n) (hne : ∀ j, j ≠ i → w.lane t j = w.lane s j) :
    w.total t + (w.lane s i + w.link s) = w.total s + (w.lane t i + w.link t) := by
  have hrest : ∑ j ∈ Finset.univ.erase i, w.lane t j = ∑ j ∈ Finset.univ.erase i, w.lane s j :=
    Finset.sum_congr rfl fun j hj => hne j (Finset.ne_of_mem_erase hj)
  have hs := Finset.add_sum_erase Finset.univ (w.lane s) (Finset.mem_univ i)
  have ht := Finset.add_sum_erase Finset.univ (w.lane t) (Finset.mem_univ i)
  unfold total
  omega

/-- Every lane got `c` more. -/
theorem total_add {c : Nat} (hl : ∀ i, w.lane t i = w.lane s i + c) (hk : w.link t = w.link s) :
    w.total t = w.total s + n * c := by
  unfold total
  rw [Finset.sum_congr rfl fun i _ => hl i, Finset.sum_add_distrib, Finset.sum_const, hk,
    Finset.card_univ, Fintype.card_fin, smul_eq_mul]
  omega

theorem sum_eq_zero {α : Type} {c : α → Nat} {L : List α} (h : ∀ m ∈ L, c m = 0) :
    (L.map c).sum = 0 := by
  refine List.sum_eq_zero fun k hk => ?_
  obtain ⟨m, hm, rfl⟩ := List.mem_map.mp hk
  exact h m hm

/-- Nothing that is on its way has a worth. -/
theorem total_eq_zero (h1 : ∀ i, ∀ m ∈ s.toMgr i, w.toMgr m = 0)
    (h2 : ∀ i, ∀ m ∈ s.fromMgr i, w.fromMgr m = 0) (h3 : ∀ i, ∀ m ∈ s.toPxf i, w.toPxf m = 0)
    (h4 : ∀ i, ∀ m ∈ s.fromPxf i, w.fromPxf m = 0)
    (h5 : ∀ i, ∀ r ∈ s.pxfToDca i, w.pxfToDca r = 0) (h6 : ∀ r ∈ s.toDca, w.toDca r = 0)
    (h7 : ∀ m ∈ s.fromDca, w.fromDca m = 0) : w.total s = 0 := by
  have hlane : ∀ i, w.lane s i = 0 := by
    intro i
    rw [lane, sum_eq_zero (h1 i), sum_eq_zero (h2 i), sum_eq_zero (h3 i), sum_eq_zero (h4 i),
      sum_eq_zero (h5 i)]
  rw [total, Finset.sum_eq_zero fun i _ => hlane i, link, sum_eq_zero h6, sum_eq_zero h7]

/-! ## Sending -/

@[simp] theorem total_note (evs : List (Event n)) : w.total (s.note evs) = w.total s := rfl

@[simp] theorem total_onPxfDone : w.total s.onPxfDone = w.total s := rfl

@[simp] theorem total_onCleanDone (q : ProcQueue) : w.total (s.onCleanDone q) = w.total s := rfl

theorem total_bcastMgr (m : Msg) : w.total (s.bcastMgr m) = w.total s + n * w.toMgr m := by
  refine w.total_add (fun i => ?_) rfl
  simp only [lane, Net.bcastMgr, List.map_append, List.sum_append, List.map_singleton,
    List.sum_singleton]
  omega

end Worth

namespace Net

variable {n : Nat} {s t : Net n} {a : Act n}

/-- Every PXF client is connected and knows the DCA. -/
structure Linked (s : Net n) : Prop where
  pxf : ∀ i, ∃ p, s.pxf i = some p ∧ p.dcaTid = s.sup.dcaTid
  noTid : ∀ i, ∀ m ∈ s.toPxf i, m.setTid = none

theorem Linked.isSome (h : s.Linked) (i : Fin n) : (s.pxf i).isSome := by
  obtain ⟨p, hp, -⟩ := h.pxf i
  rw [hp]
  rfl

theorem Linked.bcastPxf (h : s.Linked) {m : Msg} (hm : m.setTid = none) : (s.bcastPxf m).Linked := by
  refine ⟨h.pxf, fun i => ?_⟩
  obtain ⟨p, hp, -⟩ := h.pxf i
  simp only [Net.bcastPxf, hp, Option.isSome_some, if_true]
  exact forall_snoc (h.noTid i) hm

/-- A client that took a message keeps the task id. -/
theorem Linked.takes (h : s.Linked) {i : Fin n} {p : Pxf} {m : Msg} {ms : List Msg}
    (hp : p.dcaTid = s.sup.dcaTid) (hm : s.toPxf i = m :: ms) :
    { s with pxf := update s.pxf i (some p), toPxf := update s.toPxf i ms }.Linked := by
  refine ⟨fun j => ?_, forall_update i h.noTid (forall_tail (h.noTid i) hm)⟩
  by_cases hj : j = i
  · subst hj
    exact ⟨p, update_self .., hp⟩
  · obtain ⟨q, hq, ht⟩ := h.pxf j
    exact ⟨q, (update_of_ne hj ..).trans hq, ht⟩

theorem Linked.trans (h : s.Linked) (hn : s.Named) (ht : Trans s a t) : t.Linked := by
  cases ht with
  | dcaConnect k par hd =>
    obtain ⟨d, hd', -⟩ := hn.dca
    rw [hd] at hd'
    cases hd'
  | pxfConnect i hp =>
    obtain ⟨p, hp', -⟩ := h.pxf i
    rw [hp] at hp'
    cases hp'
  | start q h0 hc hq =>
    obtain ⟨h1, h2⟩ := h.bcastPxf (m := ⟨.set, .seqno (s.sup.imgSeqNo + 1)⟩) rfl
    exact ⟨h1, h2⟩
  | pxfOther i p p' m ms hp hm hf hset =>
    obtain ⟨q, hq, htid⟩ := h.pxf i
    obtain rfl := Option.some.inj (hp.symm.trans hq)
    rw [h.noTid i m (hm ▸ List.mem_cons_self)] at hset
    exact h.takes (hset.trans htid) hm
  | pxfProcess i p p' x ms sent hp hm hset hs =>
    obtain ⟨q, hq, htid⟩ := h.pxf i
    obtain rfl := Option.some.inj (hp.symm.trans hq)
    obtain ⟨h1, h2⟩ := h.takes (hset.trans htid) hm
    exact ⟨h1, h2⟩
  | startPxf i x ms hm hc =>
    have h' : { s.supTakes i ms [.smcDone i x] with
        sup := { s.sup with npxfStarted := s.sup.npxfStarted + 1 - n } }.Linked := ⟨h.pxf, h.noTid⟩
    obtain ⟨h1, h2⟩ := ((h'.bcastPxf (m := ⟨.set, .seqno s.sup.imgSeqNo⟩) rfl).bcastPxf
      (m := ⟨.start, .dcaTid s.sup.dcaTid⟩) rfl).bcastPxf (m := ⟨.start, .process (fmt6 x)⟩) rfl
    exact ⟨h1, h2⟩
  | dcaTid k ms hm => exact absurd (hm ▸ List.mem_cons_self) (hn.noTid k)
  | _ => exact ⟨h.pxf, h.noTid⟩

end Net

namespace Worth

variable {n : Nat} {s t : Net n} {a : Net.Act n} {i : Fin n} (w : Worth)

theorem total_bcastPxf (h : ∀ i, (s.pxf i).isSome) (m : Msg) :
    w.total (s.bcastPxf m) = w.total s + n * w.toPxf m := by
  refine w.total_add (fun i => ?_) rfl
  simp only [lane, Net.bcastPxf, h i, if_true, List.map_append, List.sum_append,
    List.map_singleton, List.sum_singleton]
  omega

theorem total_startExposure (h : ∀ i, (s.pxf i).isSome) (e : ExpID) (q : ProcQueue) :
    w.total (s.startExposure e q) = w.total s + n * w.toPxf ⟨.set, .seqno (s.sup.imgSeqNo + 1)⟩ +
      n * w.toMgr ⟨.set, .optionSeqno (s.sup.imgSeqNo + 1)⟩ +
      n * w.toMgr ⟨.start, .process (fmt6 e)⟩ := by
  unfold Net.startExposure
  rw [total_note, total_bcastMgr, total_bcastMgr, total_bcastPxf]
  · rfl
  · exact h

theorem total_startPxf (h : ∀ i, (s.pxf i).isSome) (x : ExpID) (c : Int) :
    w.total (s.startPxf x c) = w.total s + n * (w.toPxf ⟨.set, .seqno s.sup.imgSeqNo⟩ +
      w.toPxf ⟨.start, .dcaTid s.sup.dcaTid⟩ + w.toPxf ⟨.start, .process (fmt6 x)⟩) := by
  let u : Net n := { s with sup := { s.sup with npxfStarted := c } }
  have h1 := w.total_bcastPxf (s := u) h ⟨.set, .seqno s.sup.imgSeqNo⟩
  have h2 := w.total_bcastPxf (s := u.bcastPxf ⟨.set, .seqno s.sup.imgSeqNo⟩) h
    ⟨.start, .dcaTid s.sup.dcaTid⟩
  have h3 := w.total_bcastPxf (s := (u.bcastPxf ⟨.set, .seqno s.sup.imgSeqNo⟩).bcastPxf
    ⟨.start, .dcaTid s.sup.dcaTid⟩) h ⟨.start, .process (fmt6 x)⟩
  rw [h2, h1] at h3
  rw [Nat.mul_add, Nat.mul_add, ← Nat.add_assoc, ← Nat.add_assoc]
  exact h3

theorem total_sendDca (h : s.dca.map Dca.tid = some s.sup.dcaTid) (rs : List DcaReq) :
    w.total (s.sendDca rs) = w.total s + (rs.map w.toDca).sum := by
  have hr : (s.sendDca rs).toDca = s.toDca ++ rs := if_pos h
  unfold total link
  rw [hr, List.map_append, List.sum_append]
  show ∑ i, w.lane s i + (_ + (s.fromDca.map w.fromDca).sum) = _
  omega

theorem total_onImagetype (h : s.dca.map Dca.tid = some s.sup.dcaTid) (x : ExpID) :
    w.total (s.onImagetype x) = w.total s + ((Net.readoutRequests x s.sup.imgSeqNo).map w.toDca).sum :=
  w.total_sendDca (s := { s with readouts := (x, s.sup.imgSeqNo) :: s.readouts }) h _

theorem total_endReadout (h : s.dca.map Dca.tid = some s.sup.dcaTid) (k c : Int) :
    w.total (s.endReadout k c) = w.total s + w.toDca (.endReadout k) :=
  w.total_sendDca (s := { s with sup := { s.sup with npxfTransferred := c } }) h [.endReadout k]

theorem total_onDcaDone (x : ExpID) (q : ProcQueue) :
    w.total (s.onDcaDone x q) = w.total s + n * w.toMgr ⟨.finish, .expID (fmt6 x)⟩ := by
  unfold Net.onDcaDone
  rw [total_bcastMgr]
  rfl

/-! ## Taking -/

variable {m : Msg} {ms o : List Msg} {r : DcaReq} {rs l : List DcaReq}

theorem total_mgrTakes (hm : s.toMgr i = m :: ms) (g : Mgr) :
    w.total (s.mgrTakes i ms g o) + w.toMgr m = w.total s + (o.map w.fromMgr).sum := by
  have h := w.total_eq (s := s) (t := s.mgrTakes i ms g o) i fun j hj => by
    simp only [lane, Net.mgrTakes, update_of_ne hj]
  simp only [lane, link, Net.mgrTakes, update_self, hm, List.map_append, List.sum_append,
    List.map_cons, List.sum_cons] at h ⊢
  omega

theorem total_pxfTakes (hm : s.toPxf i = m :: ms) (p : Option Pxf) :
    w.total { s with
      pxf := update s.pxf i p
      toPxf := update s.toPxf i ms
      pxfToDca := update s.pxfToDca i (s.pxfToDca i ++ l)
      fromPxf := update s.fromPxf i (s.fromPxf i ++ o) } + w.toPxf m =
    w.total s + (l.map w.pxfToDca).sum + (o.map w.fromPxf).sum := by
  have h := w.total_eq (s := s) (t := { s with
      pxf := update s.pxf i p
      toPxf := update s.toPxf i ms
      pxfToDca := update s.pxfToDca i (s.pxfToDca i ++ l)
      fromPxf := update s.fromPxf i (s.fromPxf i ++ o) }) i fun j hj => by
    simp only [lane, update_of_ne hj]
  simp only [lane, link, update_self, hm, List.map_append, List.sum_append, List.map_cons,
    List.sum_cons] at h ⊢
  omega

theorem total_pxfOther (hm : s.toPxf i = m :: ms) (p : Option Pxf) :
    w.total { s with pxf := update s.pxf i p, toPxf := update s.toPxf i ms } + w.toPxf m =
      w.total s := by
  have h := w.total_pxfTakes (l := []) (o := []) hm p
  simpa only [List.append_nil, update_eq_self, List.map_nil, List.sum_nil, Nat.add_zero] using h

theorem total_dcaRequest (hr : s.toDca = r :: rs) (d : Dca) :
    w.total ({ s with toDca := rs }.dcaTakes d o) + w.toDca r = w.total s + (o.map w.fromDca).sum := by
  simp only [total, link, Net.dcaTakes, hr, List.map_append, List.sum_append, List.map_cons,
    List.sum_cons]
  show ∑ i, w.lane s i + _ + _ = _
  omega

theorem total_dcaData (hr : s.pxfToDca i = r :: rs) (d : Dca) :
    w.total ({ s with pxfToDca := update s.pxfToDca i rs }.dcaTakes d o) + w.pxfToDca r =
      w.total s + (o.map w.fromDca).sum := by
  have h := w.total_eq (s := s) (t := { s with pxfToDca := update s.pxfToDca i rs }.dcaTakes d o) i
    fun j hj => by simp only [lane, Net.dcaTakes, update_of_ne hj]
  simp only [lane, link, Net.dcaTakes, update_self, hr, List.map_append, List.sum_append, List.map_cons,
    List.sum_cons] at h ⊢
  omega

theorem total_supTakes (hm : s.fromMgr i = m :: ms) (evs : List (Event n)) :
    w.total (s.supTakes i ms evs) + w.fromMgr m = w.total s := by
  have h := w.total_eq (s := s) (t := s.supTakes i ms evs) i fun j hj => by
    simp only [lane, Net.supTakes, Net.note, update_of_ne hj]
  simp only [lane, link, Net.supTakes, Net.note, update_self, hm, List.map_cons,
    List.sum_cons] at h ⊢
  omega

theorem total_fromPxf (hm : s.fromPxf i = m :: ms) :
    w.total { s with fromPxf := update s.fromPxf i ms } + w.fromPxf m = w.total s := by
  have h := w.total_eq (s := s) (t := { s with fromPxf := update s.fromPxf i ms }) i fun j hj => by
    simp only [lane, update_of_ne hj]
  simp only [lane, link, update_self, hm, List.map_cons, List.sum_cons] at h ⊢
  omega

theorem total_fromDca (hm : s.fromDca = m :: ms) :
    w.total { s with fromDca := ms } + w.fromDca m = w.total s := by
  simp only [total, link, hm, List.map_cons, List.sum_cons]
  show ∑ i, w.lane s i + _ + _ = _
  omega

end Worth

end Ndhs
