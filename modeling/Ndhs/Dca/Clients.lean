import Ndhs.Lib.Loop
import Ndhs.Lib.Run
import Mathlib.Data.List.Nodup
import Mathlib.Data.List.Perm.Subperm

/-!
# Event subscriptions of the DCA (`mosdca/mosdca.c`)

A client subscribes to the DCA's events with a message and unsubscribes with another. The DCA keeps
the task ids of the subscribers in an array of `MAX_CLIENTS` slots, and `broadcast` sends an event to
the first `nclients` of them.

A subscription goes to the first empty slot. An unsubscription empties the client's slots and moves
the others to the front, and it leaves what was in the slots behind them.

* `Subs.Exact`: `broadcast` reaches the tasks whose last request was an accepted subscription, each
  once.
* `Subs.Inv`: the invariant. Every slot in use holds a subscribed task, also behind `nclients`.
* `subscriptions_iff`: the runs along which the list is exact are those whose messages meet
  `SubOp.Ok`: no task subscribes twice, and no copy of another task is left behind `nclients`.
-/

namespace Ndhs

open Function Machine Loop

/-- `MAX_CLIENTS` -/
def maxClients : Nat := 16

/-- The id of a task on the message bus. -/
abbrev Tid := { t : Int // 0 < t }

/-- `clients` and `nclients` -/
structure EventList where
  clients : List Int
  nclients : Nat
  len : clients.length = maxClients

namespace EventList

/-- `DCA_SubscribeEvents`: enter the task in the first empty slot. Also whether there was one. -/
def subscribe (ev : EventList) (tid : Int) : EventList × Bool :=
  match ev.clients.findIdx? fun c => c == 0 with
  | some slot =>
    ({ clients := ev.clients.set slot tid
       nclients := ev.nclients + 1
       len := by rw [List.length_set, ev.len] }, true)
  | none => (ev, false)

/-- Clear any slots used by the task. -/
def cleared (ev : EventList) (tid : Int) : List Int :=
  ev.clients.map fun c => if c = tid then 0 else c

/-- `DCA_UnsubscribeEvents`: clear the slots of the task and compact the list. -/
def unsubscribe (ev : EventList) (tid : Int) : EventList where
  clients := (compact (fun c => 0 < c) (ev.cleared tid)).1
  nclients := (compact (fun c => 0 < c) (ev.cleared tid)).2
  len := by
    have hle := List.length_filter_le (fun c : Int => decide (0 < c)) (ev.cleared tid)
    rw [compact_eq, List.length_append, List.length_drop]
    rw [cleared, List.length_map, ev.len] at hle ⊢
    omega

/-- The tasks that `broadcast` passes to `pvm_mcast`. -/
def mcast (ev : EventList) : List Int := ev.clients.take ev.nclients

end EventList

/-! ## Messages -/

/-- A request, with the task it comes from. -/
inductive SubOp where
  | subscribe (tid : Tid)
  | unsubscribe (tid : Tid)

/-- The DCA's list, and for each task whether its last request was an accepted subscription. -/
structure Subs where
  ev : EventList
  last : Int → Bool

def Subs.step (s : Subs) : SubOp → Option Subs
  | .subscribe t => some ⟨(s.ev.subscribe t).1, update s.last t (s.ev.subscribe t).2⟩
  | .unsubscribe t => some ⟨s.ev.unsubscribe t, update s.last t false⟩

def Subs.start : Subs := ⟨⟨List.replicate maxClients 0, 0, List.length_replicate⟩, fun _ => false⟩

/-- `broadcast` reaches the subscribed tasks, each once. -/
structure Subs.Exact (s : Subs) : Prop where
  bound : s.ev.nclients ≤ maxClients
  once : s.ev.mcast.Nodup
  tasks : ∀ t, t ∈ s.ev.mcast ↔ s.last t = true

/-- A request after which the list is still exact. -/
def SubOp.Ok (s : Subs) : SubOp → Prop
  | .subscribe t =>
    s.last t = false ∧ (s.ev.clients[s.ev.nclients]? = some 0 ∨ 0 ∉ s.ev.clients)
  | .unsubscribe t => ∀ c ∈ s.ev.clients.drop s.ev.nclients, c = 0 ∨ c = t

/-- The invariant. A slot behind `nclients` may be in use, but only by a subscribed task. -/
structure Subs.Inv (s : Subs) : Prop where
  exact : s.Exact
  used : ∀ c ∈ s.ev.clients, c ≠ 0 → 0 < c ∧ s.last c = true
  zero : s.last 0 = false

theorem Subs.Inv.start : Subs.start.Inv where
  exact := ⟨by decide, by simp [Subs.start, EventList.mcast], by simp [Subs.start, EventList.mcast]⟩
  used c hc hne := absurd (List.eq_of_mem_replicate hc) hne
  zero := rfl

namespace EventList

variable {ev : EventList} {tid : Int}

theorem subscribe_full (h : 0 ∉ ev.clients) : ev.subscribe tid = (ev, false) := by
  have hn : ev.clients.findIdx? (fun c => c == 0) = none := by
    rw [List.findIdx?_eq_none_iff]
    intro c hc
    simp only [beq_eq_false_iff_ne]
    rintro rfl
    exact h hc
  rw [subscribe, hn]

theorem subscribe_slot (tid : Int) (h : 0 ∈ ev.clients) :
    ∃ slot, ∃ hs : slot < ev.clients.length, ev.clients[slot] = 0 ∧
      (∀ j (hj : j < slot), ev.clients[j] ≠ 0) ∧
      (ev.subscribe tid).1.clients = ev.clients.set slot tid ∧
      (ev.subscribe tid).1.nclients = ev.nclients + 1 ∧ (ev.subscribe tid).2 = true := by
  cases hf : ev.clients.findIdx? (fun c => c == 0) with
  | none => simpa using List.findIdx?_eq_none_iff.mp hf 0 h
  | some slot =>
    obtain ⟨hs, h0, hlt⟩ := List.findIdx?_eq_some_iff_getElem.mp hf
    refine ⟨slot, hs, by simpa using h0, fun j hj => by simpa using hlt j hj, ?_⟩
    rw [subscribe, hf]
    exact ⟨rfl, rfl, rfl⟩

/-- The tasks that keep their subscription, wherever they stand in the array. -/
def kept (tid : Int) (l : List Int) : List Int := l.filter fun c => decide (0 < c) && c != tid

theorem mem_kept {l : List Int} {c : Int} : c ∈ kept tid l ↔ c ∈ l ∧ 0 < c ∧ c ≠ tid := by
  simp [kept]

theorem filter_cleared : (ev.cleared tid).filter (fun c => 0 < c) = kept tid ev.clients := by
  rw [cleared, kept]
  induction ev.clients with
  | nil => rfl
  | cons c cs ih =>
    rw [List.map_cons, List.filter_cons, List.filter_cons, ih]
    by_cases h : c = tid <;> simp [h]

theorem unsubscribe_clients : (ev.unsubscribe tid).clients =
    kept tid ev.clients ++ (ev.cleared tid).drop (kept tid ev.clients).length := by
  show (compact _ _).1 = _
  rw [compact_eq, filter_cleared]

theorem unsubscribe_nclients : (ev.unsubscribe tid).nclients = (kept tid ev.clients).length := by
  show (compact _ _).2 = _
  rw [compact_eq, filter_cleared]

/-- After an unsubscription `broadcast` reaches all that is left in the array. -/
theorem unsubscribe_mcast :
    (ev.unsubscribe tid).mcast = kept tid ev.mcast ++ kept tid (ev.clients.drop ev.nclients) := by
  rw [mcast, unsubscribe_clients, unsubscribe_nclients, List.take_left', mcast, kept, kept, kept,
    ← List.filter_append, List.take_append_drop]
  rfl

end EventList

namespace Subs.Inv

open EventList

variable {s s' : Subs}

theorem pos_of_mem (h : s.Inv) {c : Int} (hc : c ∈ s.ev.mcast) : 0 < c := by
  refine (h.used c (List.mem_of_mem_take hc) ?_).1
  rintro rfl
  have := (h.exact.tasks 0).mp hc
  rw [h.zero] at this
  cases this

/-- The slots below `nclients` are in use. -/
theorem getElem_ne_zero (h : s.Inv) {j : Nat} (hj : j < s.ev.nclients) (hl : j < s.ev.clients.length) :
    s.ev.clients[j] ≠ 0 := by
  have := h.pos_of_mem (List.mem_take_iff_getElem.mpr ⟨j, by omega, rfl⟩)
  omega

theorem mcast_length (h : s.Inv) : s.ev.mcast.length = s.ev.nclients := by
  have := h.exact.bound
  rw [mcast, List.length_take, s.ev.len]
  omega

/-! ### A subscription -/

theorem subscribe_ok (h : s.Inv) {t : Tid} (hok : (SubOp.subscribe t).Ok s) :
    ∃ s', s.step (.subscribe t) = some s' ∧ s'.Inv := by
  refine ⟨_, rfl, ?_⟩
  obtain ⟨hnew, hslot⟩ := hok
  by_cases h0 : 0 ∈ s.ev.clients
  · obtain ⟨slot, hs, hz, hlt, hc, hn, ha⟩ := subscribe_slot t h0
    obtain ⟨hnl, hnz⟩ := List.getElem?_eq_some_iff.mp (hslot.resolve_right fun hno => hno h0)
    -- The first empty slot is the one behind the subscribers.
    obtain rfl : slot = s.ev.nclients := by
      rcases Nat.lt_trichotomy slot s.ev.nclients with hl | he | hg
      · exact absurd hz (h.getElem_ne_zero hl hs)
      · exact he
      · exact absurd hnz (hlt _ hg)
    have hm : (s.ev.subscribe t).1.mcast = s.ev.mcast ++ [t.1] := by
      rw [mcast, hc, hn, List.take_succ_eq_append_getElem (by rwa [List.length_set]),
        List.getElem_set_self, List.take_set_of_le (Nat.le_refl _)]
      rfl
    have hnot : t.1 ∉ s.ev.mcast := by
      intro hmem
      rw [(h.exact.tasks t).mp hmem] at hnew
      cases hnew
    refine ⟨⟨?_, ?_, fun x => ?_⟩, fun c hcm hne => ?_, ?_⟩
    · rw [hn, ← s.ev.len]
      exact hs
    · rw [hm]
      exact List.nodup_append.mpr ⟨h.exact.once, List.nodup_singleton _, fun a ha b hb hab =>
        hnot (List.mem_singleton.mp hb ▸ hab ▸ ha)⟩
    · by_cases hx : x = t.1
      · simp [hm, hx, ha]
      · show _ ↔ update s.last t _ x = true
        rw [hm, update_of_ne hx, ← h.exact.tasks x]
        simp [hx]
    · rw [hc] at hcm
      show _ ∧ update s.last t _ c = true
      rcases List.mem_or_eq_of_mem_set hcm with hold | rfl
      · refine ⟨(h.used c hold hne).1, ?_⟩
        by_cases hx : c = t.1
        · rw [hx, update_self, ha]
        · rw [update_of_ne hx, (h.used c hold hne).2]
      · exact ⟨t.2, by rw [update_self, ha]⟩
    · have h0 : (0 : Int) ≠ t.1 := by have := t.2; omega
      exact (update_of_ne h0 _ _).trans h.zero
  · rw [subscribe_full h0, update_eq_self_iff.mpr hnew.symm]
    exact h

theorem subscribe_bad (h : s.Inv) {t : Tid} (hok : ¬ (SubOp.subscribe t).Ok s) :
    ¬ Exact ⟨(s.ev.subscribe t).1, update s.last t (s.ev.subscribe t).2⟩ := by
  intro hx
  by_cases h0 : 0 ∈ s.ev.clients
  · obtain ⟨slot, hs, hz, hlt, hc, hn, ha⟩ := subscribe_slot t h0
    by_cases hnew : s.last t = false
    · -- Slot `nclients` holds a subscribed task, and the new one goes behind it.
      have hnz : s.ev.clients[s.ev.nclients]? ≠ some 0 := fun hz' => hok ⟨hnew, .inl hz'⟩
      have hgt : s.ev.nclients < slot := by
        by_contra hle
        rcases Nat.lt_or_eq_of_le (Nat.not_lt.mp hle) with hl | rfl
        · exact h.getElem_ne_zero hl hs hz
        · exact hnz (by rw [List.getElem?_eq_getElem hs, hz])
      have hnl : s.ev.nclients < s.ev.clients.length := Nat.lt_trans hgt hs
      have hdup : s.ev.clients[s.ev.nclients] ∈ s.ev.mcast :=
        (h.exact.tasks _).mpr (h.used _ (List.getElem_mem hnl) (hlt _ hgt)).2
      have hm : (s.ev.subscribe t).1.mcast = s.ev.mcast ++ [s.ev.clients[s.ev.nclients]] := by
        rw [mcast, hc, hn, List.take_set_of_le (by omega), List.take_succ_eq_append_getElem hnl]
        rfl
      have := hx.once
      rw [hm, List.nodup_append] at this
      exact this.2.2 _ hdup _ (List.mem_singleton_self _) rfl
    · -- One more slot for the same tasks.
      have hsub : (s.ev.subscribe t).1.mcast ⊆ s.ev.mcast := by
        intro c hcm
        have hlast : update s.last t _ c = true := (hx.tasks c).mp hcm
        rw [h.exact.tasks]
        by_cases hct : c = t.1
        · simpa [hct] using hnew
        · rwa [update_of_ne hct] at hlast
      have hle := (hx.once.subperm hsub).length_le
      have hbound := hx.bound
      rw [h.mcast_length, mcast, List.length_take, (s.ev.subscribe t).1.len] at hle
      simp only [hn] at hle hbound
      omega
  · have hlast : s.last t = true := by
      by_contra hf
      exact hok ⟨Bool.eq_false_iff.mpr hf, .inr h0⟩
    rw [subscribe_full h0] at hx
    have : update s.last t false t = true := (hx.tasks t).mp ((h.exact.tasks t).mpr hlast)
    rw [update_self] at this
    cases this

/-! ### An unsubscription -/

theorem unsubscribe_ok (h : s.Inv) {t : Tid} (hok : (SubOp.unsubscribe t).Ok s) :
    ∃ s', s.step (.unsubscribe t) = some s' ∧ s'.Inv := by
  refine ⟨_, rfl, ?_⟩
  have hrest : kept t (s.ev.clients.drop s.ev.nclients) = [] := by
    rw [kept, List.filter_eq_nil_iff]
    intro c hc
    rcases hok c hc with rfl | rfl <;> simp
  have hm : (s.ev.unsubscribe t).mcast = kept t s.ev.mcast := by
    rw [unsubscribe_mcast, hrest, List.append_nil]
  refine ⟨⟨?_, ?_, fun x => ?_⟩, fun c hc hne => ?_, ?_⟩
  · rw [unsubscribe_nclients, ← s.ev.len]
    exact List.length_filter_le _ _
  · rw [hm]
    exact h.exact.once.filter _
  · rw [hm, mem_kept, h.exact.tasks]
    by_cases hx : x = t.1
    · simp [hx]
    · show _ ↔ update s.last t _ x = true
      rw [update_of_ne hx]
      refine ⟨fun h' => h'.1, fun hl => ⟨hl, h.pos_of_mem ((h.exact.tasks x).mpr hl), hx⟩⟩
  · have hmem : c ∈ s.ev.clients ∧ c ≠ t.1 := by
      rw [unsubscribe_clients, List.mem_append] at hc
      rcases hc with hc | hc
      · exact ⟨(mem_kept.mp hc).1, (mem_kept.mp hc).2.2⟩
      · obtain ⟨c', hc', rfl⟩ := List.mem_map.mp (List.mem_of_mem_drop hc)
        by_cases he : c' = t.1
        · simp [he] at hne
        · rw [if_neg he]
          exact ⟨hc', he⟩
    have hu := h.used c hmem.1 hne
    exact ⟨hu.1, (update_of_ne hmem.2 _ _).trans hu.2⟩
  · have h0 : (0 : Int) ≠ t.1 := by have := t.2; omega
    exact (update_of_ne h0 _ _).trans h.zero

theorem unsubscribe_bad (h : s.Inv) {t : Tid} (hok : ¬ (SubOp.unsubscribe t).Ok s) :
    ¬ Exact ⟨s.ev.unsubscribe t, update s.last t false⟩ := by
  intro hx
  simp only [SubOp.Ok, not_forall, not_or] at hok
  obtain ⟨c, hc, h0, ht⟩ := hok
  -- A copy of a subscribed task behind `nclients` is moved to the front with the others.
  obtain ⟨hpos, hlast⟩ := h.used c (List.mem_of_mem_drop hc) h0
  have hfront : c ∈ kept t s.ev.mcast := mem_kept.mpr ⟨(h.exact.tasks c).mpr hlast, hpos, ht⟩
  have hback : c ∈ kept t (s.ev.clients.drop s.ev.nclients) := mem_kept.mpr ⟨hc, hpos, ht⟩
  have := hx.once
  rw [unsubscribe_mcast, List.nodup_append] at this
  exact this.2.2 _ hfront _ hback rfl

end Subs.Inv

/-- `broadcast` reaches the subscribed tasks along a run exactly if every request of the run meets the
condition. -/
theorem subscriptions_iff (ops : List SubOp) :
    Always Subs.Exact Subs.step Subs.start ops ↔
      Steps (fun s op => op.Ok s) Subs.step Subs.start ops := by
  refine always_iff_steps (fun _ h => h.exact) (fun s op h hok => ?_) (fun s op s' h hok hst => ?_)
    Subs.Inv.start
  · cases op with
    | subscribe t => exact h.subscribe_ok hok
    | unsubscribe t => exact h.unsubscribe_ok hok
  · cases op with
    | subscribe t =>
      cases hst
      exact h.subscribe_bad hok
    | unsubscribe t =>
      cases hst
      exact h.unsubscribe_bad hok

/-- The first of two subscribers leaves and a third one comes: `broadcast` sends to the second one
twice and not to the third. -/
theorem subscriptions_stale_slot :
    ¬ Always Subs.Exact Subs.step Subs.start [.subscribe ⟨1, by decide⟩, .subscribe ⟨2, by decide⟩,
      .unsubscribe ⟨1, by decide⟩, .subscribe ⟨3, by decide⟩] := by
  intro h
  obtain ⟨s, hs, hx⟩ := h.last
  have hrun : (run Subs.step Subs.start [.subscribe ⟨1, by decide⟩, .subscribe ⟨2, by decide⟩,
      .unsubscribe ⟨1, by decide⟩, .subscribe ⟨3, by decide⟩]).map (fun s => s.ev.mcast) =
        some [2, 2] := by decide +kernel
  rw [hs] at hrun
  have hm : s.ev.mcast = [2, 2] := Option.some.inj hrun
  have := hx.once
  rw [hm] at this
  simp at this

end Ndhs
