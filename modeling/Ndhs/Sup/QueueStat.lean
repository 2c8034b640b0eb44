import Ndhs.Sup.Fifo

/-!
# The status that `pqGetStat` answers (`dhssup/supQueue.c`)

`pqGetStat` walks the ring from `qFirst` to the node behind `qLast`, where `pqSetStat` counts nodes. The node
behind `qLast` is `qFirst` itself if the ring is empty, and also if it is full.

* `pqGetStat_eq`: short of a full ring, `pqGetStat` answers from the first entry with the id.
  `pqGetStat_full`: of a full ring it answers `0` for every id.
* `StatHistory`: the ring, the first-in first-out queue of `Sup/Fifo.lean` and the calls so far. `lastSet`: the
  status that the latest call with an id set.
* `FirstIs L last`: in the list `L`, the first entry with an id has the status that `last` gives. `firstIs_add`,
  `firstIs_set`, `firstIs_tail`: what each call needs to keep it.
* `status_iff`: the runs along which every answer is right are those whose calls all meet `StatusOk`.
-/

namespace Ndhs

open Machine Ring

/-- The number of a status (`#define PQ_AVAILABLE 0`, …). -/
def PqStat.code : PqStat → Int
  | .available => 0
  | .start => 1
  | .ready => 2
  | .active => 3
  | .done => 4

theorem PqStat.code_inj {s t : PqStat} (h : s.code = t.code) : s = t := by
  cases s <;> cases t <;> first | rfl | cases h

/-- The loop of `pqGetStat` from `p` on. The fuel bounds the rounds; `none` if the loop does not end. -/
def pqGetLoop (q : ProcQueue) (expID : ExpID) : Nat → Nat → Option Int
  | 0, _ => none
  | k + 1, p =>
    if p = (q.queue q.qLast).next then some 0
    else if smcEqualExpID (q.queue p).expID expID then some (q.queue p).status.code
    else pqGetLoop q expID k (q.queue p).next

/-- `pqGetStat`: get the status for the element identified by the id. -/
def pqGetStat (q : ProcQueue) (expID : ExpID) : Option Int := pqGetLoop q expID szProcQueue q.qFirst

/-- The status of the first entry with the id. -/
def fifoStatus (L : List PqEntry) (e : ExpID) : Option PqStat :=
  (L.find? fun x => smcEqualExpID x.expID e).map PqEntry.status

theorem fifoStatus_cons (x : PqEntry) (L : List PqEntry) (e : ExpID) :
    fifoStatus (x :: L) e = if smcEqualExpID x.expID e then some x.status else fifoStatus L e := by
  rw [fifoStatus, List.find?_cons]
  cases smcEqualExpID x.expID e <;> rfl

theorem fifoFind_cons (x : PqEntry) (L : List PqEntry) (e : ExpID) :
    fifoFind (x :: L) e = if smcEqualExpID x.expID e then some 0 else (fifoFind L e).map (· + 1) := by
  rw [fifoFind, List.findIdx?_cons]
  rfl

theorem fifoStatus_eq_none {L : List PqEntry} {e : ExpID} :
    fifoStatus L e = none ↔ ∀ x ∈ L, smcEqualExpID x.expID e = false := by
  simp [fifoStatus]

theorem fifoFind_none_iff {L : List PqEntry} {e : ExpID} : fifoFind L e = none ↔ fifoStatus L e = none := by
  rw [fifoFind_eq_none, fifoStatus_eq_none]

theorem fifoStatus_append (L : List PqEntry) (x : PqEntry) (e : ExpID) :
    fifoStatus (L ++ [x]) e =
      (fifoStatus L e).or (if smcEqualExpID x.expID e then some x.status else none) := by
  induction L with
  | nil => rw [List.nil_append, fifoStatus_cons]; rfl
  | cons y L ih =>
    rw [List.cons_append, fifoStatus_cons, fifoStatus_cons, ih]
    cases smcEqualExpID y.expID e <;> rfl

/-- A new status for the `k`-th entry shows where the `k`-th entry is the first one with the id. -/
theorem fifoStatus_modify (L : List PqEntry) (k : Nat) (s : PqStat) (e : ExpID) :
    fifoStatus (L.modify k ({ · with status := s })) e =
      if fifoFind L e = some k then some s else fifoStatus L e := by
  induction L generalizing k with
  | nil => rw [List.modify_nil, if_neg (by simp [fifoFind])]
  | cons x L ih =>
    cases k with
    | zero =>
      rw [List.modify_zero_cons, fifoStatus_cons, fifoStatus_cons, fifoFind_cons]
      cases smcEqualExpID x.expID e <;> simp
    | succ k =>
      rw [List.modify_succ_cons, fifoStatus_cons, fifoStatus_cons, fifoFind_cons, ih]
      cases smcEqualExpID x.expID e <;> simp

namespace ProcQueue.Wf

variable {q : ProcQueue}

/-- The walk from the `j`-th entry on -/
theorem pqGetLoop_eq (h : q.Wf) (hlen : q.entries.length < szProcQueue) (e : ExpID) (k j : Nat)
    (hj : j ≤ q.entries.length) (hk : q.entries.length - j < k) :
    pqGetLoop q e k ((q.qFirst + j) % szProcQueue) =
      some ((fifoStatus (q.entries.drop j) e).elim 0 PqStat.code) := by
  induction k generalizing j with
  | zero => omega
  | succ k ih =>
    have hlast : (q.queue q.qLast).next = (q.qFirst + q.entries.length) % szProcQueue := by
      rw [h.last_next, h.entries_length]
    rw [pqGetLoop, hlast]
    by_cases hend : j = q.entries.length
    · rw [if_pos (by rw [hend]), hend, List.drop_length]
      rfl
    · have hlt : j < q.entries.length := by omega
      have hnode : (q.queue ((q.qFirst + j) % szProcQueue)).entry = q.entries[j] :=
        (h.entries_getElem hlt).symm
      have hid : (q.queue ((q.qFirst + j) % szProcQueue)).expID = q.entries[j].expID := congrArg PqEntry.expID hnode
      have hst : (q.queue ((q.qFirst + j) % szProcQueue)).status = q.entries[j].status :=
        congrArg PqEntry.status hnode
      rw [if_neg fun heq => hend (add_mod_inj (by omega) hlen heq), h.next _ (Nat.mod_lt _ (by decide)),
        Nat.mod_add_mod, Nat.add_assoc, ih (j + 1) hlt (by omega), List.drop_eq_getElem_cons hlt, fifoStatus_cons,
        hid, hst]
      cases smcEqualExpID q.entries[j].expID e <;> rfl

/-- Short of a full ring the getter answers from the first entry with the id. -/
theorem pqGetStat_eq (h : q.Wf) (hlen : q.entries.length < szProcQueue) (e : ExpID) :
    pqGetStat q e = some ((fifoStatus q.entries e).elim 0 PqStat.code) := by
  have hloop := h.pqGetLoop_eq hlen e szProcQueue 0 (Nat.zero_le _) (by omega)
  rwa [Nat.add_zero, Nat.mod_eq_of_lt h.first, List.drop_zero] at hloop

/-- In a full ring the walk ends before its first node. -/
theorem pqGetStat_full (h : q.Wf) (hlen : q.entries.length = szProcQueue) (e : ExpID) : pqGetStat q e = some 0 := by
  have hlast : (q.queue q.qLast).next = q.qFirst := by
    rw [h.last_next, ← h.entries_length, hlen, Nat.add_mod_right, Nat.mod_eq_of_lt h.first]
  rw [pqGetStat, show szProcQueue = 511 + 1 from rfl, pqGetLoop, if_pos hlast.symm]

end ProcQueue.Wf

/-! ## The status last set -/

/-- The ring and the list, and the calls so far, the latest one first. -/
abbrev StatHistory := (ProcQueue × List PqEntry) × List PqOp

def statStep (c : StatHistory) (op : PqOp) : Option StatHistory := (fifoStep c.1 op).map fun c' => (c', op :: c.2)

def statStart : StatHistory := (fifoStart, [])

/-- The status that the latest call with the id set: `pqAdd` sets `PQ_START`. -/
def lastSet (e : ExpID) : List PqOp → PqStat
  | [] => .available
  | .add e₀ :: ops => if smcEqualExpID e₀ e then .start else lastSet e ops
  | .setStat e₀ s :: ops => if smcEqualExpID e₀ e then s else lastSet e ops
  | .next :: ops => lastSet e ops

/-- Every answer of `pqGetStat` is right: the status last set for an id that is queued, `0` for any other. -/
structure StatusRight (c : StatHistory) : Prop where
  queued : ∀ e, (∃ x ∈ c.1.2, smcEqualExpID x.expID e = true) → pqGetStat c.1.1 e = some (lastSet e c.2).code
  other : ∀ e, (∀ x ∈ c.1.2, smcEqualExpID x.expID e = false) → pqGetStat c.1.1 e = some 0

/-- `PQ_DONE` is set for the oldest entry, or for an id that no entry and no free node in the scan has. -/
def HeadDone (c : StatHistory) : PqOp → Prop
  | .setStat e .done => SetStatOk c.1.2 e .done
  | _ => True

/-- A call after which the answers are right. `pqAdd` leaves a free node, and every entry that comes first for an id
equal to the new one has the status `PQ_START`. `PQ_DONE` for the oldest entry: no other entry stands for an id equal
to the one given, and what comes up for another id has the oldest entry's status. Any other call: the ids equal to the
one given are those that share its entry, or the entry has the status already. -/
def StatusOk (c : StatHistory) : PqOp → Prop
  | .add e₀ => c.1.2.length + 1 < szProcQueue ∧
      ∀ e, smcEqualExpID e₀ e = true → ∀ t ∈ fifoStatus c.1.2 e, t = .start
  | .setStat e₀ s =>
    if s = .done ∧ fifoFind c.1.2 e₀ = some 0 then
      (∀ e, smcEqualExpID e₀ e = true → fifoStatus c.1.2.tail e = none) ∧
        ∀ e, smcEqualExpID e₀ e = false → fifoFind c.1.2 e = some 0 →
          ∀ t ∈ fifoStatus c.1.2.tail e, fifoStatus c.1.2 e = some t
    else ∀ e, fifoFind c.1.2 e ≠ none →
      (fifoFind c.1.2 e₀ = fifoFind c.1.2 e ↔ smcEqualExpID e₀ e = true) ∨ fifoStatus c.1.2 e = some s
  | .next => True

/-! ## Lists -/

/-- The first entry with an id has the status that `last` gives. -/
def FirstIs (L : List PqEntry) (last : ExpID → PqStat) : Prop := ∀ e, ∀ t ∈ fifoStatus L e, t = last e

/-- A status set for the ids equal to `e₀` -/
def setLast (last : ExpID → PqStat) (e₀ : ExpID) (s : PqStat) (e : ExpID) : PqStat :=
  if smcEqualExpID e₀ e then s else last e

section Lists

variable {L : List PqEntry} {last : ExpID → PqStat} {e₀ : ExpID} {s : PqStat}

theorem setLast_near {e : ExpID} (h : smcEqualExpID e₀ e = true) : setLast last e₀ s e = s := if_pos h

theorem setLast_far {e : ExpID} (h : smcEqualExpID e₀ e = false) : setLast last e₀ s e = last e :=
  if_neg (by simp [h])

theorem FirstIs.exists (h : FirstIs L last) {e : ExpID} (he : fifoFind L e ≠ none) :
    fifoStatus L e = some (last e) := by
  obtain ⟨t, ht⟩ := Option.ne_none_iff_exists'.mp (mt fifoFind_none_iff.mpr he)
  rw [ht, h e t ht]

theorem firstIs_add (h : FirstIs L last) :
    FirstIs (L ++ [⟨e₀, .start⟩]) (setLast last e₀ .start) ↔
      ∀ e, smcEqualExpID e₀ e = true → ∀ t ∈ fifoStatus L e, t = .start := by
  refine forall_congr' fun e => ?_
  rw [fifoStatus_append]
  cases hn : smcEqualExpID e₀ e with
  | false =>
    rw [if_neg (by simp), Option.or_none, setLast_far hn]
    simpa using h e
  | true =>
    rw [if_pos rfl, setLast_near hn]
    cases fifoStatus L e <;> simp

/-- A new status for the first entry with the id `e₀` -/
theorem firstIs_set (h : FirstIs L last) :
    FirstIs (match fifoFind L e₀ with
        | none => L
        | some k => L.modify k ({ · with status := s })) (setLast last e₀ s) ↔
      ∀ e, fifoFind L e ≠ none →
        (fifoFind L e₀ = fifoFind L e ↔ smcEqualExpID e₀ e = true) ∨ fifoStatus L e = some s := by
  have hst : ∀ e, fifoStatus (match fifoFind L e₀ with
        | none => L
        | some k => L.modify k ({ · with status := s })) e =
      if fifoFind L e ≠ none ∧ fifoFind L e₀ = fifoFind L e then some s else fifoStatus L e := by
    intro e
    cases fifoFind L e₀ with
    | none => rw [if_neg fun hc => hc.1 hc.2.symm]
    | some k =>
      rw [fifoStatus_modify]
      exact if_congr ⟨fun hk => ⟨by simp [hk], hk.symm⟩, fun hk => hk.2.symm⟩ rfl rfl
  refine forall_congr' fun e => ?_
  rw [hst e]
  by_cases he : fifoFind L e = none
  · rw [if_neg fun hc => hc.1 he, fifoFind_none_iff.mp he]
    exact ⟨fun _ hc => absurd he hc, fun _ t ht => by cases ht⟩
  · rw [h.exists he]
    cases hn : smcEqualExpID e₀ e with
    | true =>
      rw [setLast_near hn]
      by_cases hk : fifoFind L e₀ = fifoFind L e
      · rw [if_pos ⟨he, hk⟩]
        simp [hk]
      · rw [if_neg fun hc => hk hc.2]
        simp [hk, he]
    | false =>
      rw [setLast_far hn]
      by_cases hk : fifoFind L e₀ = fifoFind L e
      · rw [if_pos ⟨he, hk⟩]
        simp only [Option.mem_def, Option.some.injEq, forall_eq']
        exact ⟨fun hs _ => .inr hs.symm, fun hs => ((hs he).resolve_left fun hc => by cases hc.mp hk).symm⟩
      · rw [if_neg fun hc => hk hc.2]
        simp [hk]

/-- The oldest entry leaves, and `PQ_DONE` is the status last set for its id. -/
theorem firstIs_tail (h : FirstIs L last) (hnd : ∀ x ∈ L, x.status ≠ .done) :
    FirstIs L.tail (setLast last e₀ .done) ↔
      (∀ e, smcEqualExpID e₀ e = true → fifoStatus L.tail e = none) ∧
        ∀ e, smcEqualExpID e₀ e = false → fifoFind L e = some 0 →
          ∀ t ∈ fifoStatus L.tail e, fifoStatus L e = some t := by
  have hne : ∀ e, fifoStatus L.tail e ≠ some .done := by
    intro e hd
    obtain ⟨x, hx, hxs⟩ := Option.map_eq_some_iff.mp hd
    exact hnd x (List.mem_of_mem_tail (List.mem_of_find?_eq_some hx)) hxs
  have htail : ∀ e, fifoFind L e ≠ some 0 → fifoStatus L e = fifoStatus L.tail e := by
    intro e he
    cases L with
    | nil => rfl
    | cons x L =>
      rw [fifoFind_cons] at he
      rw [fifoStatus_cons, List.tail_cons]
      exact if_neg fun hx => he (if_pos hx)
  constructor
  · intro hf
    refine ⟨fun e hn => ?_, fun e hn h0 t ht => ?_⟩
    · cases ht : fifoStatus L.tail e with
      | none => rfl
      | some t =>
        have htd := hf e t ht
        rw [setLast_near hn] at htd
        exact absurd (htd ▸ ht) (hne e)
    · have htl := hf e t ht
      rw [setLast_far hn] at htl
      rw [h.exists (by simp [h0]), htl]
  · rintro ⟨hnear, hfar⟩ e t ht
    cases hn : smcEqualExpID e₀ e with
    | true =>
      rw [hnear e hn] at ht
      cases ht
    | false =>
      rw [setLast_far hn]
      by_cases h0 : fifoFind L e = some 0
      · exact h e t (hfar e hn h0 t ht)
      · exact h e t ((htail e h0).trans ht)

end Lists

/-! ## Whole runs -/

/-- What holds along a run whose calls all meet the condition -/
structure StatInv (c : StatHistory) : Prop where
  ring : FifoInv c.1
  room : c.1.2.length < szProcQueue
  waiting : ∀ x ∈ c.1.2, x.status ≠ .done
  first : FirstIs c.1.2 fun e => lastSet e c.2

section Step

variable {c : StatHistory} {op : PqOp}

theorem statusRight_iff (h : FifoInv c.1) (hlen : c.1.2.length < szProcQueue) :
    StatusRight c ↔ FirstIs c.1.2 fun e => lastSet e c.2 := by
  obtain ⟨⟨q, L⟩, ops⟩ := c
  obtain ⟨hw, rfl⟩ : q.Wf ∧ q.entries = L := h
  have hget := hw.pqGetStat_eq hlen
  constructor
  · intro hr e t ht
    have hq : ∃ x ∈ q.entries, smcEqualExpID x.expID e = true := by
      obtain ⟨x, hx, -⟩ := Option.map_eq_some_iff.mp ht
      exact ⟨x, List.mem_of_find?_eq_some hx, List.find?_some (p := fun x : PqEntry => smcEqualExpID x.expID e) hx⟩
    have hr := hr.queued e hq
    rw [hget, ht] at hr
    exact PqStat.code_inj (Option.some.inj hr)
  · intro hf
    refine ⟨fun e ⟨x, hx, hxe⟩ => ?_, fun e hno => ?_⟩
    · have hne : fifoFind q.entries e ≠ none := fun hn => by
        rw [fifoFind_eq_none.mp hn x hx] at hxe
        cases hxe
      show pqGetStat q e = _
      rw [hget, hf.exists hne]
      rfl
    · show pqGetStat q e = _
      rw [hget, fifoStatus_eq_none.mpr hno]
      rfl

/-- What a call leaves queued is not done. -/
theorem StatInv.waiting_step (h : StatInv c) (op : PqOp) : ∀ x ∈ fifoApply c.1.2 op, x.status ≠ .done := by
  cases op with
  | add e =>
    intro x hx
    obtain hx | hx := List.mem_append.mp hx
    · exact h.waiting x hx
    · obtain rfl := List.mem_singleton.mp hx
      exact nofun
  | next => exact h.waiting
  | setStat e s =>
    intro x hx
    rw [fifoApply, fifoSetStat] at hx
    split at hx
    · exact h.waiting x hx
    · split at hx
      · exact h.waiting x (List.mem_of_mem_eraseIdx hx)
      · rename_i k hs
        obtain ⟨i, hi, rfl⟩ := List.mem_iff_getElem.mp hx
        rw [List.getElem_modify]
        split
        · exact hs
        · exact h.waiting _ (List.getElem_mem _)

/-- The condition says that the answers are right after the call. -/
theorem StatInv.ok_iff (h : StatInv c) (hd : HeadDone c op) :
    StatusOk c op ↔ (fifoApply c.1.2 op).length < szProcQueue ∧
      FirstIs (fifoApply c.1.2 op) fun e => lastSet e (op :: c.2) := by
  have hroom := h.room
  cases op with
  | add e₀ =>
    have hadd := @firstIs_add c.1.2 _ e₀ h.first
    show (_ ∧ _) ↔ (c.1.2 ++ [_]).length < _ ∧ FirstIs (c.1.2 ++ [_]) (setLast _ e₀ .start)
    rw [hadd, List.length_append]
    rfl
  | next => exact ⟨fun _ => ⟨hroom, h.first⟩, fun _ => trivial⟩
  | setStat e₀ s =>
    show (if s = .done ∧ fifoFind c.1.2 e₀ = some 0 then _ else _) ↔
      (fifoSetStat c.1.2 e₀ s).length < _ ∧ FirstIs (fifoSetStat c.1.2 e₀ s) (setLast _ e₀ s)
    by_cases hdone : s = .done ∧ fifoFind c.1.2 e₀ = some 0
    · obtain ⟨rfl, hf⟩ := hdone
      have htail : fifoSetStat c.1.2 e₀ .done = c.1.2.tail := by
        rw [fifoSetStat, hf]
        exact (if_pos rfl).trans List.eraseIdx_zero
      rw [if_pos ⟨rfl, hf⟩, htail, firstIs_tail h.first h.waiting, List.length_tail]
      exact (and_iff_right (by omega)).symm
    · have hset : fifoSetStat c.1.2 e₀ s = match fifoFind c.1.2 e₀ with
          | none => c.1.2
          | some k => c.1.2.modify k ({ · with status := s }) := by
        rw [fifoSetStat]
        cases hf : fifoFind c.1.2 e₀ with
        | none => rfl
        | some k =>
          refine if_neg fun hs => ?_
          -- `PQ_DONE` for an entry is for the oldest one
          subst hs
          have hd : SetStatOk c.1.2 e₀ .done := hd
          rw [SetStatOk, if_pos rfl, hf] at hd
          obtain hk | ⟨hk, -⟩ := hd
          · exact hdone ⟨rfl, hf.trans hk⟩
          · cases hk
      have hlen : (fifoSetStat c.1.2 e₀ s).length = c.1.2.length := by
        rw [hset]
        split
        · rfl
        · exact List.length_modify _ _ _
      rw [if_neg hdone, hlen, and_iff_right hroom, hset, firstIs_set h.first]

theorem StatInv.step (h : StatInv c) (hd : HeadDone c op) :
    ∃ q, statStep c op = some ((q, fifoApply c.1.2 op), op :: c.2) ∧ FifoInv (q, fifoApply c.1.2 op) := by
  obtain ⟨⟨q, L⟩, ops⟩ := c
  have hroom : L.length < szProcQueue := h.room
  have hok : Room (q, L) op ∧ op.Ok (q, L) := by
    cases op with
    | add e => exact ⟨hroom, trivial⟩
    | next => exact ⟨trivial, trivial⟩
    | setStat e s =>
      refine ⟨trivial, ?_⟩
      by_cases hs : s = .done
      · subst hs
        exact hd
      · show SetStatOk L e s
        rw [SetStatOk, if_neg hs]
        intro hf
        obtain ⟨hk, -⟩ := fifoFind_eq_some.mp hf
        omega
  obtain ⟨c', hst, hi⟩ := h.ring.step_ok hok
  obtain ⟨q', hq', rfl⟩ := Option.map_eq_some_iff.mp hst
  exact ⟨q', by rw [statStep, hst]; rfl, hi⟩

/-- The call that fills the ring -/
theorem not_statusRight_full {q : ProcQueue} {L : List PqEntry} {e₀ : ExpID} {ops : List PqOp}
    (h : FifoInv (q, L ++ [⟨e₀, .start⟩])) (hlen : (L ++ [(⟨e₀, .start⟩ : PqEntry)]).length = szProcQueue) :
    ¬ StatusRight ((q, L ++ [⟨e₀, .start⟩]), .add e₀ :: ops) := by
  intro hr
  have hq := hr.queued e₀ ⟨_, List.mem_append_right _ (List.mem_singleton_self _), smcEqualExpID_self e₀⟩
  have hlast : lastSet e₀ (.add e₀ :: ops) = .start := if_pos (smcEqualExpID_self e₀)
  obtain ⟨hw, he⟩ := h
  have hfull := hw.pqGetStat_full (by rw [he]; exact hlen) e₀
  rw [hlast] at hq
  cases hq.symm.trans hfull

end Step

/-- In a run of calls that set `PQ_DONE` for the oldest entry only, every answer of `pqGetStat` is right exactly if
every call meets the condition. -/
theorem status_iff (ops : List PqOp) (hd : Steps HeadDone statStep statStart ops) :
    Always StatusRight statStep statStart ops ↔ Steps StatusOk statStep statStart ops := by
  refine always_iff_steps_of_legal (I := StatInv) (fun c h => (statusRight_iff h.ring h.room).mpr h.first)
    (fun c op h hl hok => ?_) (fun c op c' h hl hbad hst hr => ?_) ?_ hd
  · obtain ⟨q, hst, hi⟩ := h.step hl
    obtain ⟨hlen, hf⟩ := (h.ok_iff hl).mp hok
    exact ⟨_, hst, hi, hlen, h.waiting_step op, hf⟩
  · obtain ⟨q, hq, hi⟩ := h.step hl
    rw [hq] at hst
    cases hst
    by_cases hlen : (fifoApply c.1.2 op).length < szProcQueue
    · exact hbad ((h.ok_iff hl).mpr ⟨hlen, (statusRight_iff hi hlen).mp hr⟩)
    · have hroom := h.room
      cases op with
      | add e =>
        simp only [fifoApply] at hi hr hlen
        refine not_statusRight_full hi ?_ hr
        rw [List.length_append, List.length_singleton] at hlen ⊢
        omega
      | next => exact hlen hroom
      | setStat e s =>
        refine hlen (Nat.lt_of_le_of_lt ?_ hroom)
        rw [fifoApply, fifoSetStat]
        split
        · exact Nat.le_refl _
        · split
          · exact List.length_eraseIdx_le _ _
          · rw [List.length_modify]
  · exact ⟨⟨ProcQueue.Wf.init rfl, rfl⟩, by decide, List.forall_mem_nil _, fun e t ht => by cases ht⟩

/-- Additions to a ring with room for them -/
theorem run_adds (l : List ExpID) {c : StatHistory} (h : FifoInv c.1)
    (hlen : c.1.2.length + l.length ≤ szProcQueue) :
    ∃ q, run statStep c (l.map .add) =
        some ((q, c.1.2 ++ l.map fun e => ⟨e, .start⟩), (l.map .add).reverse ++ c.2) ∧
      FifoInv (q, c.1.2 ++ l.map fun e => ⟨e, .start⟩) := by
  induction l generalizing c with
  | nil => exact ⟨c.1.1, by simp, by simpa using h⟩
  | cons e l ih =>
    rw [List.length_cons] at hlen
    have hok : Room c.1 (.add e) ∧ (PqOp.add e).Ok c.1 := ⟨by show _ < _; omega, trivial⟩
    obtain ⟨c', hst, hi⟩ := h.step_ok hok
    obtain ⟨q', hq', rfl⟩ := Option.map_eq_some_iff.mp hst
    have hlen' : (fifoApply c.1.2 (.add e)).length + l.length ≤ szProcQueue := by
      rw [fifoApply, List.length_append, List.length_singleton]
      omega
    obtain ⟨q, hr, hi'⟩ := ih (c := ((q', fifoApply c.1.2 (.add e)), .add e :: c.2)) hi hlen'
    simp only [fifoApply, List.append_assoc, List.singleton_append] at hr hi'
    refine ⟨q, ?_, hi'⟩
    rw [List.map_cons, run_cons, statStep, hst]
    simpa [fifoApply] using hr

/-- Whichever exposures fill the ring, the answer for the last one is wrong. -/
theorem not_always_full {l : List ExpID} {e : ExpID} (hl : l.length + 1 = szProcQueue) :
    Steps HeadDone statStep statStart ((l ++ [e]).map .add) ∧
      ¬ Always StatusRight statStep statStart ((l ++ [e]).map .add) := by
  have hadds : Steps (fun _ op => ∃ e, op = PqOp.add e) statStep statStart ((l ++ [e]).map .add) := by
    refine steps_of_forall fun op hop => ?_
    obtain ⟨e, -, rfl⟩ := List.mem_map.mp hop
    exact ⟨e, rfl⟩
  refine ⟨Steps.mono (I := fun _ => True) (fun _ _ _ _ _ _ => trivial) ?_ trivial hadds, fun h => ?_⟩
  · rintro c _ - ⟨e, rfl⟩
    trivial
  · have hids : (l ++ [e]).length = szProcQueue := by rw [List.length_append, List.length_singleton, hl]
    obtain ⟨c, hc, hr⟩ := h.last
    obtain ⟨q, hq, hi⟩ := run_adds (l ++ [e]) (c := statStart) ⟨ProcQueue.Wf.init rfl, rfl⟩
      (by rw [hids]; exact (Nat.zero_add _).le)
    rw [hq] at hc
    cases hc
    simp only [List.map_append, List.map_cons, List.map_nil, List.reverse_append, List.reverse_cons, List.reverse_nil,
      List.nil_append, List.cons_append, ← List.append_assoc] at hr hi
    refine not_statusRight_full hi ?_ hr
    rw [← hids]
    simp [statStart, fifoStart]

/-- `SZ_PROC_QUEUE` exposures are added: then `pqGetStat` answers `0` for each of them. -/
theorem status_not : ¬ ∀ ops, Steps HeadDone statStep statStart ops → Always StatusRight statStep statStart ops := by
  intro h
  have hno : ∀ l : List ExpID, l.length + 1 = szProcQueue → False := fun l hl => by
    obtain ⟨hd, hno⟩ := not_always_full (e := 512) hl
    exact hno (h _ hd)
  refine hno ((List.range (szProcQueue - 1)).map fun i : Nat => ((i + 1 : Nat) : ExpID)) ?_
  rw [List.length_map, List.length_range]
  decide

/-- A run with an exposure that is added, ready and done -/
theorem status_one :
    Steps HeadDone statStep statStart [.add 1, .setStat 1 .ready, .setStat 1 .done] ∧
      (Always StatusRight statStep statStart [.add 1, .setStat 1 .ready, .setStat 1 .done] ↔
        Steps StatusOk statStep statStart [.add 1, .setStat 1 .ready, .setStat 1 .done]) := by
  have hd : Steps HeadDone statStep statStart [.add 1, .setStat 1 .ready, .setStat 1 .done] := by
    refine ⟨trivial, fun c hc => ⟨trivial, fun c' hc' => ⟨?_, fun _ _ => trivial⟩⟩⟩
    obtain ⟨d, hd, rfl⟩ := Option.map_eq_some_iff.mp hc
    obtain ⟨q, -, rfl⟩ := Option.map_eq_some_iff.mp hd
    obtain ⟨d', hd', rfl⟩ := Option.map_eq_some_iff.mp hc'
    obtain ⟨q', -, rfl⟩ := Option.map_eq_some_iff.mp hd'
    have hset : fifoSetStat [⟨1, .start⟩] 1 .ready = [⟨1, .ready⟩] := by decide +kernel
    show SetStatOk (fifoSetStat [⟨1, .start⟩] 1 .ready) 1 .done
    rw [hset, SetStatOk, if_pos rfl]
    exact .inl (by decide +kernel)
  exact ⟨hd, status_iff _ hd⟩

end Ndhs
