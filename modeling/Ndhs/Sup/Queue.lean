import Ndhs.Lib.Loop
import Ndhs.Lib.Ring
import Ndhs.Smc.ExpID

/-!
# The Supervisor's processing queue (`dhssup/supQueue.c`)

The queue is a fixed array of `SZ_PROC_QUEUE` nodes whose `next` pointers make it a ring, with a
pointer to the first and to the last entry and a count. A pointer is the index of its node. The
time stamps of a node and the messages to the GUI are left out: no function here reads them.

`exit (1)` is `none`.

* `Wf`: the ring. It holds after `pqInit`, and every call keeps it (`Wf.init`, `Wf.pqAdd`,
  `Wf.pqSetStat`): the `next` pointers, the place of `qLast`, the range of `qCount`, and the id
  `0.0` of the free nodes.
* `pqScan_eq`: the scan of `pqSetStat` looks at the first `SZ_PROC_QUEUE - 1` nodes from `qFirst`
  on, used or free.
* `Wf.pqAdd`, `Wf.pqSetStat_cases`: what a call does to the queued entries.
-/

namespace Ndhs

open Function Ring

/-- `SZ_PROC_QUEUE` -/
def szProcQueue : Nat := 512

/-- The status of a job in the queue (`PQ_AVAILABLE`, …, `PQ_DONE`). -/
inductive PqStat where
  | available
  | start
  | ready
  | active
  | done
  deriving DecidableEq, Repr

/-- `struct qnode` -/
structure PqNode where
  expID : ExpID := 0
  status : PqStat := .available
  next : Nat := 0

/-- The part of `supData` that is the queue. -/
structure ProcQueue where
  queue : Nat → PqNode := fun _ => {}
  qFirst : Nat := 0
  qLast : Nat := 0
  qCount : Int := 0

/-- `pqInit`: set the `next` pointers so that the array is a circular list. -/
def pqInit (q : ProcQueue) : ProcQueue :=
  let nodes := (List.range (szProcQueue - 1)).foldl
    (fun f i => update f i { f i with next := i + 1, expID := 0, status := .available }) q.queue
  { queue := update nodes (szProcQueue - 1) { nodes (szProcQueue - 1) with next := 0 }
    qFirst := 0
    qLast := szProcQueue - 1
    qCount := 0 }

/-- `pqAdd`: add an entry at the tail and set an initial status. -/
def pqAdd (q : ProcQueue) (expID : ExpID) : Option ProcQueue :=
  let p := (q.queue q.qLast).next
  if q.qCount = szProcQueue then none
  else
    let q' := { q with
      queue := update q.queue p { q.queue p with expID := expID, status := .start }
      qLast := p
      qCount := q.qCount + 1 }
    if (szProcQueue : Int) < q'.qCount then none else some q'

/-- `pqNext`: the id of the next exposure to be processed, `0.0` if there is none. -/
def pqNext (q : ProcQueue) : ExpID :=
  if (q.queue q.qFirst).status = .ready then (q.queue q.qFirst).expID else 0

/-- The loop of `pqSetStat`: the first of `k` nodes from `p` on with the id. -/
def pqScan (q : ProcQueue) (expID : ExpID) : Nat → Nat → Option Nat
  | 0, _ => none
  | k + 1, p =>
    if smcEqualExpID (q.queue p).expID expID then some p else pqScan q expID k (q.queue p).next

/-- `p->status = status` -/
def ProcQueue.mark (q : ProcQueue) (p : Nat) (status : PqStat) : ProcQueue :=
  { q with queue := update q.queue p { q.queue p with status := status } }

/-- The `PQ_DONE` block of `pqSetStat`: it frees the node at `qFirst`, whichever node matched. -/
def ProcQueue.pop (q : ProcQueue) : ProcQueue :=
  let first := q.qFirst
  { q with
    queue := update q.queue first { q.queue first with expID := 0, status := .available }
    qFirst := (q.queue first).next
    qCount := q.qCount - 1 }

/-- `pqSetStat`: set the status for the element identified by the id. -/
def pqSetStat (q : ProcQueue) (expID : ExpID) (status : PqStat) : Option ProcQueue :=
  let q' := match pqScan q expID (szProcQueue - 1) q.qFirst with
    | none => q
    | some p => if status = .done then (q.mark p status).pop else q.mark p status
  if q'.qCount < 0 then none else some q'

/-! ## The ring -/

/-- The pointer after `k` steps along `next` from `p`. -/
def ProcQueue.follow (q : ProcQueue) : Nat → Nat → Nat
  | p, 0 => p
  | p, k + 1 => q.follow (q.queue p).next k

/-- What the queue says of one exposure. -/
structure PqEntry where
  expID : ExpID
  status : PqStat
  deriving DecidableEq

def PqNode.entry (n : PqNode) : PqEntry := ⟨n.expID, n.status⟩

/-- The entries of the `qCount` nodes from `qFirst` on. -/
def ProcQueue.entries (q : ProcQueue) : List PqEntry :=
  (List.range q.qCount.toNat).map fun k => (q.queue (q.follow q.qFirst k)).entry

/-- The ring is in order. -/
structure ProcQueue.Wf (q : ProcQueue) : Prop where
  next : ∀ i < szProcQueue, (q.queue i).next = (i + 1) % szProcQueue
  first : q.qFirst < szProcQueue
  last : q.qLast = (q.qFirst + q.qCount.toNat + (szProcQueue - 1)) % szProcQueue
  nonneg : 0 ≤ q.qCount
  bound : q.qCount ≤ szProcQueue
  free : ∀ k, q.qCount.toNat ≤ k → k < szProcQueue → (view szProcQueue q.queue q.qFirst k).expID = 0

namespace ProcQueue.Wf

variable {q q' : ProcQueue} {e : ExpID} {s : PqStat}

theorem follow_eq (h : q.Wf) (k p : Nat) (hp : p < szProcQueue) :
    q.follow p k = (p + k) % szProcQueue := by
  induction k generalizing p with
  | zero => exact (Nat.mod_eq_of_lt hp).symm
  | succ k ih =>
    rw [ProcQueue.follow, h.next p hp, ih _ (Nat.mod_lt _ (by decide)), Nat.mod_add_mod,
      Nat.add_assoc, Nat.add_comm 1 k]

theorem entries_eq (h : q.Wf) :
    q.entries = (window szProcQueue q.queue q.qFirst q.qCount.toNat).map PqNode.entry := by
  unfold ProcQueue.entries window
  rw [List.map_map]
  refine List.map_congr_left fun k _ => ?_
  rw [h.follow_eq k _ h.first]
  rfl

theorem entries_length (h : q.Wf) : q.entries.length = q.qCount.toNat := by
  simp [h.entries_eq]

theorem entries_getElem (h : q.Wf) {k : Nat} (hk : k < q.entries.length) :
    q.entries[k] = (view szProcQueue q.queue q.qFirst k).entry := by
  simp [h.entries_eq]

/-- The scan looks at the nodes from `qFirst` on, in order. -/
theorem pqScan_view (h : q.Wf) (e : ExpID) (k j : Nat) :
    pqScan q e k ((q.qFirst + j) % szProcQueue) =
      ((List.range' j k).find? fun i => smcEqualExpID (view szProcQueue q.queue q.qFirst i).expID e).map
        fun i => (q.qFirst + i) % szProcQueue := by
  induction k generalizing j with
  | zero => rfl
  | succ k ih =>
    rw [pqScan, List.range'_succ, List.find?_cons, h.next _ (Nat.mod_lt _ (by decide)),
      Nat.mod_add_mod, Nat.add_assoc, ih (j + 1)]
    show (if smcEqualExpID (view szProcQueue q.queue q.qFirst j).expID e then _ else _) = _
    cases smcEqualExpID (view szProcQueue q.queue q.qFirst j).expID e <;> rfl

theorem pqScan_eq (h : q.Wf) (e : ExpID) :
    pqScan q e (szProcQueue - 1) q.qFirst =
      ((List.range (szProcQueue - 1)).find? fun i =>
        smcEqualExpID (view szProcQueue q.queue q.qFirst i).expID e).map
        fun i => (q.qFirst + i) % szProcQueue := by
  have := h.pqScan_view e (szProcQueue - 1) 0
  rwa [Nat.add_zero, Nat.mod_eq_of_lt h.first, ← List.range_eq_range'] at this

/-! ## The calls keep the ring -/

/-- What `pqInit` sets in a node. -/
def initNode (i : Nat) (n : PqNode) : PqNode :=
  { n with next := i + 1, expID := 0, status := .available }

/-- After `pqInit`, if the last node had the id `0.0`: `pqInit` does not set it. -/
theorem init {q : ProcQueue} (h : (q.queue (szProcQueue - 1)).expID = 0) : (pqInit q).Wf := by
  have hn : ∀ i < szProcQueue, ((pqInit q).queue i).next = (i + 1) % szProcQueue ∧
      ((pqInit q).queue i).expID = 0 := by
    intro i hi
    have hloop := Loop.foldl_update initNode q.queue (szProcQueue - 1)
    simp only [initNode] at hloop
    simp only [pqInit]
    by_cases hl : i = szProcQueue - 1
    · rw [hl, update_self, hloop]
      exact ⟨rfl, h⟩
    · have hlt : i < szProcQueue - 1 := by omega
      rw [update_of_ne hl, hloop, if_pos hlt]
      exact ⟨(Nat.mod_eq_of_lt (by simp only; omega)).symm, rfl⟩
  have hc : (pqInit q).qCount = 0 := rfl
  have hf : (pqInit q).qFirst = 0 := rfl
  have hl : (pqInit q).qLast = szProcQueue - 1 := rfl
  refine ⟨fun i hi => (hn i hi).1, ?_, ?_, hc.ge, ?_, fun k _ _ => ?_⟩
  · rw [hf]; decide
  · rw [hl, hf, hc]; rfl
  · rw [hc]; decide
  · exact (hn _ (Nat.mod_lt _ (by decide))).2

theorem last_next (h : q.Wf) :
    (q.queue q.qLast).next = (q.qFirst + q.qCount.toNat) % szProcQueue := by
  rw [h.next _ (by rw [h.last]; exact Nat.mod_lt _ (by decide)), h.last, Nat.mod_add_mod]
  show (q.qFirst + q.qCount.toNat + szProcQueue) % szProcQueue = _
  rw [Nat.add_mod_right]

/-- `pqAdd` with room: one more entry at the end. -/
theorem pqAdd (h : q.Wf) (hc : q.qCount < szProcQueue) (e : ExpID) :
    ∃ q', Ndhs.pqAdd q e = some q' ∧ q'.Wf ∧ q'.entries = q.entries ++ [⟨e, .start⟩] := by
  have h0 := h.nonneg
  set n := q.qCount.toNat with hn
  have hn' : n < szProcQueue := by omega
  let f := update q.queue ((q.qFirst + n) % szProcQueue)
    { q.queue ((q.qFirst + n) % szProcQueue) with expID := e, status := .start }
  let q' : ProcQueue := { queue := f, qFirst := q.qFirst, qLast := (q.qFirst + n) % szProcQueue,
                          qCount := q.qCount + 1 }
  have hadd : Ndhs.pqAdd q e = some q' := by
    simp only [Ndhs.pqAdd, h.last_next]
    rw [if_neg (by omega), if_neg (by omega)]
  have hview : ∀ k < szProcQueue, view szProcQueue f q.qFirst k =
      if k = n then { view szProcQueue q.queue q.qFirst n with expID := e, status := .start }
      else view szProcQueue q.queue q.qFirst k := fun k hk => view_update _ hk hn'
  have hcount : q'.qCount.toNat = n + 1 := by
    show (q.qCount + 1).toNat = n + 1
    omega
  have hwf : q'.Wf := by
    refine ⟨fun i hi => ?_, h.first, ?_, ?_, ?_, fun k hk hk' => ?_⟩
    · show (f i).next = _
      by_cases hi' : i = (q.qFirst + n) % szProcQueue
      · rw [← h.next i hi, hi']
        simp [f]
      · simp only [f, update_of_ne hi', h.next i hi]
    · show (q.qFirst + n) % szProcQueue = (q.qFirst + q'.qCount.toNat + (szProcQueue - 1)) % szProcQueue
      rw [hcount]
      show _ = (q.qFirst + n + szProcQueue) % szProcQueue
      rw [Nat.add_mod_right]
    · show 0 ≤ q.qCount + 1
      omega
    · show q.qCount + 1 ≤ szProcQueue
      omega
    · rw [hcount] at hk
      show (view szProcQueue f q.qFirst k).expID = 0
      rw [hview k hk', if_neg (by omega)]
      exact h.free k (by omega) hk'
  refine ⟨q', hadd, hwf, ?_⟩
  rw [hwf.entries_eq, h.entries_eq, hcount, window_succ, List.map_append]
  congr 1
  · congr 1
    refine window_congr fun k hk => ?_
    exact (hview k (by omega)).trans (if_neg (by omega))
  · show [(view szProcQueue f q.qFirst n).entry] = _
    rw [hview n hn', if_pos rfl]
    rfl

theorem pqAdd_full (hc : q.qCount = szProcQueue) (e : ExpID) : Ndhs.pqAdd q e = none := by
  simp [Ndhs.pqAdd, hc]

theorem mark_view (s : PqStat) {j k : Nat} (hj : j < szProcQueue) (hk : k < szProcQueue) :
    view szProcQueue (q.mark ((q.qFirst + k) % szProcQueue) s).queue q.qFirst j =
      if j = k then { view szProcQueue q.queue q.qFirst k with status := s }
      else view szProcQueue q.queue q.qFirst j :=
  view_update _ hj hk

theorem mark (h : q.Wf) {k : Nat} (hk : k < szProcQueue) (s : PqStat) :
    (q.mark ((q.qFirst + k) % szProcQueue) s).Wf := by
  refine ⟨fun i hi => ?_, h.first, h.last, h.nonneg, h.bound, fun j hj hj' => ?_⟩
  · simp only [ProcQueue.mark]
    by_cases hi' : i = (q.qFirst + k) % szProcQueue
    · rw [← h.next i hi, hi']
      simp
    · rw [update_of_ne hi', h.next i hi]
  · have hf := h.free j hj hj'
    show (view szProcQueue (q.mark _ s).queue q.qFirst j).expID = 0
    rw [mark_view s hj' hk]
    split
    · subst_vars; exact hf
    · exact hf

/-- Writing the status of the `k`-th node changes the `k`-th entry, if there is one. -/
theorem entries_mark (h : q.Wf) {k : Nat} (hk : k < szProcQueue) (s : PqStat) :
    (q.mark ((q.qFirst + k) % szProcQueue) s).entries =
      q.entries.modify k ({ · with status := s }) := by
  have hwf := h.mark hk s
  have hlen : (q.mark ((q.qFirst + k) % szProcQueue) s).entries.length = q.entries.length := by
    rw [hwf.entries_length, h.entries_length]
    rfl
  refine List.ext_getElem (by rw [hlen, List.length_modify]) fun j h₁ h₂ => ?_
  have hj : j < szProcQueue := by
    have := h.bound
    rw [hlen, h.entries_length] at h₁
    omega
  rw [hwf.entries_getElem, List.getElem_modify, h.entries_getElem]
  show (view szProcQueue (q.mark _ s).queue q.qFirst j).entry = _
  rw [mark_view s hj hk]
  by_cases hjk : j = k
  · rw [if_pos hjk, if_pos hjk.symm, hjk]
    rfl
  · rw [if_neg hjk, if_neg (Ne.symm hjk)]

theorem pop_view (h : q.Wf) {k : Nat} (hk : k < szProcQueue) :
    view szProcQueue q.pop.queue q.pop.qFirst k =
      if k + 1 = szProcQueue then { q.queue q.qFirst with expID := 0, status := .available }
      else view szProcQueue q.queue q.qFirst (k + 1) := by
  have hfirst : q.qFirst = (q.qFirst + 0) % szProcQueue := (Nat.mod_eq_of_lt h.first).symm
  have hq : q.pop.qFirst = (q.qFirst + 1) % szProcQueue := h.next _ h.first
  rw [hq, view_succ]
  simp only [ProcQueue.pop]
  split
  · rename_i hlast
    rw [hlast, view_cap, view, ← hfirst, update_self]
  · rename_i hlast
    have hu : view szProcQueue (update q.queue ((q.qFirst + 0) % szProcQueue)
        { q.queue q.qFirst with expID := 0, status := .available }) q.qFirst (k + 1) = _ :=
      view_update _ (show k + 1 < szProcQueue by omega) (show 0 < szProcQueue by decide)
    rwa [← hfirst, if_neg (Nat.succ_ne_zero k)] at hu

theorem pop (h : q.Wf) (hc : 0 < q.qCount) : q.pop.Wf := by
  have hb := h.bound
  have hqc : q.pop.qCount.toNat = q.qCount.toNat - 1 := by
    show (q.qCount - 1).toNat = _
    omega
  refine ⟨fun i hi => ?_, ?_, ?_, ?_, ?_, fun k hk hk' => ?_⟩
  · simp only [ProcQueue.pop]
    by_cases hi' : i = q.qFirst
    · rw [hi', update_self]
      exact h.next _ h.first
    · rw [update_of_ne hi', h.next i hi]
  · show (q.queue q.qFirst).next < _
    rw [h.next _ h.first]
    exact Nat.mod_lt _ (by decide)
  · show q.qLast = ((q.queue q.qFirst).next + q.pop.qCount.toNat + (szProcQueue - 1)) % szProcQueue
    have hsum : q.qFirst + q.qCount.toNat + (szProcQueue - 1) =
        q.qFirst + 1 + (q.qCount.toNat - 1 + (szProcQueue - 1)) := by omega
    rw [h.last, h.next _ h.first, hqc, Nat.add_assoc ((q.qFirst + 1) % szProcQueue),
      Nat.mod_add_mod, hsum]
  · show 0 ≤ q.qCount - 1
    omega
  · show q.qCount - 1 ≤ szProcQueue
    omega
  · rw [h.pop_view hk']
    split
    · rfl
    · exact h.free (k + 1) (by omega) (by omega)

/-- Freeing the node at `qFirst` drops the oldest entry. -/
theorem entries_pop (h : q.Wf) (hc : 0 < q.qCount) : q.pop.entries = q.entries.tail := by
  have hwf := h.pop hc
  have hb := h.bound
  have hqc : q.pop.qCount.toNat = q.qCount.toNat - 1 := by
    show (q.qCount - 1).toNat = _
    omega
  refine List.ext_getElem ?_ fun j h₁ h₂ => ?_
  · rw [hwf.entries_length, List.length_tail, h.entries_length, hqc]
  · rw [hwf.entries_length, hqc] at h₁
    rw [hwf.entries_getElem, List.getElem_tail, h.entries_getElem, h.pop_view (by omega),
      if_neg (by omega)]

/-! ## What `pqSetStat` does -/

/-- The node that `pqSetStat` marks, and the entry it drops if the status is `PQ_DONE`. -/
theorem mark_pop (h : q.Wf) {k : Nat} (hk : k < szProcQueue) (hc : 0 < q.qCount) (s : PqStat) :
    (q.mark ((q.qFirst + k) % szProcQueue) s).pop.Wf ∧
      (q.mark ((q.qFirst + k) % szProcQueue) s).pop.entries =
        (q.entries.modify k ({ · with status := s })).tail := by
  have hm := h.mark hk s
  exact ⟨hm.pop hc, by rw [hm.entries_pop hc, h.entries_mark hk s]⟩

/-- The three outcomes of a call. It finds a queued entry, the `k`-th: it writes the entry's status
and for `PQ_DONE` drops the oldest entry. Or it finds a free node, which has the id `0.0`: the
entries stay, but for `PQ_DONE` the oldest one is dropped, and without one the count runs under.
Or it finds nothing. The scan does not reach the last of `SZ_PROC_QUEUE` entries. -/
theorem pqSetStat_cases (h : q.Wf) (e : ExpID) (s : PqStat) :
    (∃ k, ∃ hk : k < q.entries.length, k < szProcQueue - 1 ∧
      smcEqualExpID q.entries[k].expID e = true ∧
      (∀ j, ∀ hj : j < k, smcEqualExpID q.entries[j].expID e = false) ∧
      ∃ q', pqSetStat q e s = some q' ∧ q'.Wf ∧
        q'.entries = if s = .done then (q.entries.modify k ({ · with status := s })).tail
          else q.entries.modify k ({ · with status := s })) ∨
    (q.entries.length < szProcQueue - 1 ∧ smcEqualExpID 0 e = true ∧
      (∀ x ∈ q.entries, smcEqualExpID x.expID e = false) ∧
      if s = .done ∧ q.entries = [] then pqSetStat q e s = none
      else ∃ q', pqSetStat q e s = some q' ∧ q'.Wf ∧
        q'.entries = if s = .done then q.entries.tail else q.entries) ∨
    ((∀ k, ∀ hk : k < q.entries.length, k < szProcQueue - 1 →
        smcEqualExpID q.entries[k].expID e = false) ∧
      (q.entries.length < szProcQueue - 1 → smcEqualExpID 0 e = false) ∧
      pqSetStat q e s = some q) := by
  have h0 := h.nonneg
  have hlen := h.entries_length
  have hscan := h.pqScan_eq e
  cases hf : (List.range (szProcQueue - 1)).find? fun i =>
      smcEqualExpID (view szProcQueue q.queue q.qFirst i).expID e with
  | none =>
    rw [hf] at hscan
    rw [List.find?_eq_none] at hf
    have hno : ∀ k < szProcQueue - 1,
        smcEqualExpID (view szProcQueue q.queue q.qFirst k).expID e = false := fun k hk => by
      simpa using hf k (List.mem_range.mpr hk)
    refine .inr (.inr ⟨fun k hk hk' => ?_, fun hl => ?_, ?_⟩)
    · rw [h.entries_getElem hk]
      exact hno k hk'
    · have := hno _ hl
      rwa [h.free _ (by omega) (by omega)] at this
    · simp only [pqSetStat, hscan, Option.map_none]
      rw [if_neg (by omega)]
  | some k =>
    rw [hf] at hscan
    obtain ⟨hm, hk, hbefore⟩ := List.find?_range_eq_some.mp hf
    rw [List.mem_range] at hk
    have hk' : k < szProcQueue := by omega
    have hset : pqSetStat q e s = if (if s = .done then (q.mark ((q.qFirst + k) % szProcQueue) s).pop
        else q.mark ((q.qFirst + k) % szProcQueue) s).qCount < 0 then none
        else some (if s = .done then (q.mark ((q.qFirst + k) % szProcQueue) s).pop
        else q.mark ((q.qFirst + k) % szProcQueue) s) := by
      simp only [pqSetStat, hscan, Option.map_some]
    have hmq : (q.mark ((q.qFirst + k) % szProcQueue) s).qCount = q.qCount := rfl
    have hpq : (q.mark ((q.qFirst + k) % szProcQueue) s).pop.qCount = q.qCount - 1 := rfl
    by_cases hlk : k < q.entries.length
    · refine .inl ⟨k, hlk, hk, ?_, fun j hj => ?_, ?_⟩
      · rw [h.entries_getElem hlk]
        exact hm
      · rw [h.entries_getElem (by omega)]
        simpa [PqNode.entry] using hbefore j hj
      · by_cases hs : s = .done
        · obtain ⟨hw, he⟩ := h.mark_pop hk' (by omega) s
          simp only [if_pos hs] at hset ⊢
          exact ⟨_, by rw [hset, if_neg (by omega)], hw, he⟩
        · simp only [if_neg hs] at hset ⊢
          exact ⟨_, by rw [hset, if_neg (by omega)], h.mark hk' s, h.entries_mark hk' s⟩
    · have hfree : (view szProcQueue q.queue q.qFirst k).expID = 0 := h.free k (by omega) hk'
      refine .inr (.inl ⟨by omega, by rw [← hfree]; exact hm, fun x hx => ?_, ?_⟩)
      · obtain ⟨j, hj, rfl⟩ := List.mem_iff_getElem.mp hx
        rw [h.entries_getElem hj]
        simpa [PqNode.entry] using hbefore j (by omega)
      · have hmod : q.entries.modify k ({ · with status := s }) = q.entries :=
          List.modify_eq_self (by omega)
        by_cases hs : s = .done
        · simp only [if_pos hs] at hset ⊢
          by_cases he : q.entries = []
          · rw [if_pos ⟨hs, he⟩, hset, if_pos]
            rw [he, List.length_nil] at hlen
            omega
          · have hpos : 0 < q.entries.length := List.length_pos_iff.mpr he
            obtain ⟨hw, he'⟩ := h.mark_pop hk' (by omega) s
            rw [if_neg fun hc => he hc.2]
            exact ⟨_, by rw [hset, if_neg (by omega)], hw, by rw [he', hmod]⟩
        · simp only [if_neg hs] at hset ⊢
          rw [if_neg fun hc => hs hc.1]
          exact ⟨_, by rw [hset, if_neg (by omega)], h.mark hk' s, by
            rw [h.entries_mark hk' s, hmod]⟩

/-- A call that does not stop the program keeps the ring. -/
theorem pqSetStat (h : q.Wf) (hs : Ndhs.pqSetStat q e s = some q') : q'.Wf := by
  obtain ⟨_, _, _, _, _, q₁, he, hw, -⟩ | ⟨-, -, -, hc⟩ | ⟨-, -, he⟩ := h.pqSetStat_cases e s
  · rw [he] at hs; cases hs; exact hw
  · split at hc
    · rw [hc] at hs; cases hs
    · obtain ⟨q₁, he, hw, -⟩ := hc
      rw [he] at hs; cases hs; exact hw
  · rw [he] at hs; cases hs; exact h

end ProcQueue.Wf

end Ndhs
