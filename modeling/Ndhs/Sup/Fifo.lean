import Ndhs.Lib.Run
import Ndhs.Sup.Queue

/-!
# The processing queue and the first-in first-out queue it stands for

`Sup/Queue.lean` is the ring of `dhssup/supQueue.c`. The abstract queue is a list of entries in
order of addition: `add` appends, `setStat` acts on the first entry with the id and takes it out of
the list if the new status is `PQ_DONE`.

* `pqStep`: the calls on the ring. `fifoStep`: the ring and the list, given the same calls.
* `Refines`: the ring holds the list.
* `pqSetStat_find`: what `pqSetStat` does, in terms of the list's own search.
* `refines_iff`: the runs along which the ring holds the list are those whose `pqSetStat` calls all
  meet `SetStatOk`. The ring drops its oldest entry on `PQ_DONE`, whichever entry matched; a free
  node matches the id `0.0`; and the scan stops one node short of a full ring.
* `pqSetStat_done_iff`: in a reachable state, `PQ_DONE` takes out the entry it names exactly if
  that entry is the oldest one.
-/

namespace Ndhs

open Machine

/-- A call on the queue. -/
inductive PqOp where
  | add (e : ExpID)
  | setStat (e : ExpID) (s : PqStat)
  | next

/-- One call; `none` if it stopped the program. -/
def pqStep (q : ProcQueue) : PqOp → Option ProcQueue
  | .add e => pqAdd q e
  | .setStat e s => pqSetStat q e s
  | .next => some q

/-- The queue at the start of the Supervisor: `supData` is zeroed memory. -/
def pqStart : ProcQueue := pqInit {}

/-! ## The abstract queue -/

/-- The place of the first entry with the id. -/
def fifoFind (L : List PqEntry) (e : ExpID) : Option Nat :=
  L.findIdx? fun x => smcEqualExpID x.expID e

/-- Set the status of the first entry with the id; an entry that is done leaves the queue. -/
def fifoSetStat (L : List PqEntry) (e : ExpID) (s : PqStat) : List PqEntry :=
  match fifoFind L e with
  | none => L
  | some k => if s = .done then L.eraseIdx k else L.modify k ({ · with status := s })

/-- The oldest entry's id if it is ready. -/
def fifoNext (L : List PqEntry) : ExpID :=
  match L with
  | [] => 0
  | x :: _ => if x.status = .ready then x.expID else 0

def fifoApply (L : List PqEntry) : PqOp → List PqEntry
  | .add e => L ++ [⟨e, .start⟩]
  | .setStat e s => fifoSetStat L e s
  | .next => L

/-- The ring and the list, given the same call. -/
def fifoStep (c : ProcQueue × List PqEntry) (op : PqOp) : Option (ProcQueue × List PqEntry) :=
  (pqStep c.1 op).map fun q => (q, fifoApply c.2 op)

def fifoStart : ProcQueue × List PqEntry := (pqStart, [])

/-- The ring holds the list: the nodes from `qFirst` to `qLast` are its entries, `qCount` is their
number, and `pqNext` answers from the oldest one. -/
structure Refines (c : ProcQueue × List PqEntry) : Prop where
  entries : c.1.entries = c.2
  count : c.1.qCount = c.2.length
  bound : c.2.length ≤ szProcQueue
  last : c.2 ≠ [] → c.1.follow c.1.qFirst (c.2.length - 1) = c.1.qLast
  next : pqNext c.1 = fifoNext c.2

/-- No entry is added to a full queue. -/
def Room (c : ProcQueue × List PqEntry) : PqOp → Prop
  | .add _ => c.2.length < szProcQueue
  | _ => True

/-- A call of `pqSetStat` that the ring gets right. `PQ_DONE` names the oldest entry, or it names no
entry and the scan meets no free node with that id. Another status is not new to the last entry
of a full queue. -/
def SetStatOk (L : List PqEntry) (e : ExpID) (s : PqStat) : Prop :=
  if s = .done then
    fifoFind L e = some 0 ∨
      (fifoFind L e = none ∧ (smcEqualExpID 0 e = false ∨ szProcQueue - 1 ≤ L.length))
  else fifoFind L e = some (szProcQueue - 1) → ∀ x ∈ L[szProcQueue - 1]?, x.status = s

def PqOp.Ok (c : ProcQueue × List PqEntry) : PqOp → Prop
  | .setStat e s => SetStatOk c.2 e s
  | _ => True

instance (c : ProcQueue × List PqEntry) (op : PqOp) : Decidable (Room c op) :=
  match op with
  | .add _ => inferInstanceAs (Decidable (c.2.length < szProcQueue))
  | .setStat .. | .next => .isTrue trivial

instance (L : List PqEntry) (e : ExpID) (s : PqStat) : Decidable (SetStatOk L e s) :=
  inferInstanceAs (Decidable (if s = .done then _ ∨ _ else _ → ∀ x ∈ L[szProcQueue - 1]?, _))

instance (c : ProcQueue × List PqEntry) (op : PqOp) : Decidable (op.Ok c) :=
  match op with
  | .setStat e s => inferInstanceAs (Decidable (SetStatOk c.2 e s))
  | .add _ | .next => .isTrue trivial

/-! ## The ring against the list's search -/

theorem fifoFind_eq_some {L : List PqEntry} {e : ExpID} {k : Nat} :
    fifoFind L e = some k ↔ ∃ h : k < L.length, smcEqualExpID L[k].expID e = true ∧
      ∀ j, ∀ hj : j < k, smcEqualExpID L[j].expID e = false := by
  simp [fifoFind, List.findIdx?_eq_some_iff_getElem]

theorem fifoFind_eq_none {L : List PqEntry} {e : ExpID} :
    fifoFind L e = none ↔ ∀ x ∈ L, smcEqualExpID x.expID e = false := by
  simp [fifoFind, List.findIdx?_eq_none_iff]

namespace ProcQueue.Wf

variable {q : ProcQueue}

/-- `pqSetStat` in terms of the first entry with the id. -/
theorem pqSetStat_find (h : q.Wf) (e : ExpID) (s : PqStat) :
    (∃ k < szProcQueue - 1, fifoFind q.entries e = some k ∧
      ∃ q', Ndhs.pqSetStat q e s = some q' ∧ q'.Wf ∧
        q'.entries = if s = .done then (q.entries.modify k ({ · with status := s })).tail
          else q.entries.modify k ({ · with status := s })) ∨
    (q.entries.length < szProcQueue - 1 ∧ smcEqualExpID 0 e = true ∧ fifoFind q.entries e = none ∧
      if s = .done ∧ q.entries = [] then Ndhs.pqSetStat q e s = none
      else ∃ q', Ndhs.pqSetStat q e s = some q' ∧ q'.Wf ∧
        q'.entries = if s = .done then q.entries.tail else q.entries) ∨
    ((∀ k, fifoFind q.entries e = some k → szProcQueue - 1 ≤ k) ∧
      (q.entries.length < szProcQueue - 1 → smcEqualExpID 0 e = false) ∧
      Ndhs.pqSetStat q e s = some q) := by
  obtain ⟨k, hk, hlt, hm, hb, hq⟩ | ⟨hlt, h0, hno, hq⟩ | ⟨hno, h0, hq⟩ := h.pqSetStat_cases e s
  · exact .inl ⟨k, hlt, fifoFind_eq_some.mpr ⟨hk, hm, hb⟩, hq⟩
  · exact .inr (.inl ⟨hlt, h0, fifoFind_eq_none.mpr hno, hq⟩)
  · refine .inr (.inr ⟨fun k hk => ?_, h0, hq⟩)
    obtain ⟨hk, hm, -⟩ := fifoFind_eq_some.mp hk
    by_contra hlt
    rw [hno k hk (by omega)] at hm
    cases hm

theorem follow_last (h : q.Wf) (hne : q.entries ≠ []) :
    q.follow q.qFirst (q.entries.length - 1) = q.qLast := by
  have hpos := List.length_pos_iff.mpr hne
  have hsum : q.qFirst + q.entries.length + (szProcQueue - 1) =
      q.qFirst + (q.entries.length - 1) + szProcQueue := by
    have : 0 < szProcQueue := by decide
    omega
  rw [h.follow_eq _ _ h.first, h.last, ← h.entries_length, hsum, Nat.add_mod_right]

theorem view_first (h : q.Wf) : Ring.view szProcQueue q.queue q.qFirst 0 = q.queue q.qFirst := by
  rw [Ring.view, Nat.add_zero, Nat.mod_eq_of_lt h.first]

/-- A free node at `qFirst` has the id `0.0`, so `pqNext` answers `0.0` for an empty queue, also if
the free node was marked ready. -/
theorem pqNext_eq (h : q.Wf) : pqNext q = fifoNext q.entries := by
  cases hL : q.entries with
  | nil =>
    have hlen := h.entries_length
    rw [hL, List.length_nil] at hlen
    have hfree := h.free 0 (by omega) (by decide)
    rw [h.view_first] at hfree
    simp only [pqNext, fifoNext, hfree, ite_self]
  | cons x L =>
    have hx := h.entries_getElem (k := 0) (by simp [hL])
    simp only [hL, List.getElem_cons_zero, h.view_first] at hx
    simp only [pqNext, fifoNext, hx, PqNode.entry]

/-! The ids of the entries, the oldest first, change by `pqAdd` and by `PQ_DONE` only. -/

theorem pqAdd_some (h : q.Wf) {e : ExpID} {q' : ProcQueue} (hq : Ndhs.pqAdd q e = some q') :
    q'.Wf ∧ q'.entries = q.entries ++ [⟨e, .start⟩] := by
  by_cases hc : q.qCount = szProcQueue
  · rw [pqAdd_full hc] at hq
    cases hq
  · obtain ⟨q₁, hq₁, hw, he⟩ := h.pqAdd (by have := h.bound; omega) e
    rw [hq₁] at hq
    cases hq
    exact ⟨hw, he⟩

theorem pqSetStat_ids (h : q.Wf) {e : ExpID} {s : PqStat} {q' : ProcQueue} (hs : s ≠ .done)
    (hq : Ndhs.pqSetStat q e s = some q') :
    q'.entries.map PqEntry.expID = q.entries.map PqEntry.expID := by
  rcases h.pqSetStat_find e s with ⟨k, -, -, q₁, hq₁, -, he⟩ | ⟨-, -, -, hc⟩ | ⟨-, -, hq₁⟩
  · rw [hq₁] at hq
    cases hq
    rw [he, if_neg hs]
    refine List.ext_getElem (by simp) fun i h₁ h₂ => ?_
    rw [List.getElem_map, List.getElem_map, List.getElem_modify]
    split <;> rfl
  · rw [if_neg fun hd => hs hd.1] at hc
    obtain ⟨q₁, hq₁, -, he⟩ := hc
    rw [hq₁] at hq
    cases hq
    rw [he, if_neg hs]
  · rw [hq₁] at hq
    cases hq
    rfl

/-- The id at `qFirst`. -/
theorem head_expID (h : q.Wf) {e : ExpID} (he : (q.entries.map PqEntry.expID).head? = some e) :
    (q.queue q.qFirst).expID = e := by
  cases hL : q.entries with
  | nil => rw [hL] at he; cases he
  | cons x L =>
    have hx := h.entries_getElem (k := 0) (by simp [hL])
    simp only [hL, List.getElem_cons_zero, h.view_first] at hx
    rw [hL, List.map_cons, List.head?_cons, hx] at he
    exact Option.some.inj he

/-- `PQ_DONE` for the text of the oldest id takes that entry out. -/
theorem pqSetStat_head (h : q.Wf) {e : ExpID} {q' : ProcQueue}
    (he : (q.entries.map PqEntry.expID).head? = some e)
    (hq : Ndhs.pqSetStat q (fmt6 e) .done = some q') : q'.qCount < q.qCount := by
  cases hL : q.entries with
  | nil => rw [hL] at he; cases he
  | cons x L =>
    rw [hL] at he
    obtain rfl : x.expID = e := Option.some.inj he
    have hf : fifoFind q.entries (fmt6 x.expID) = some 0 := by
      rw [fifoFind_eq_some]
      refine ⟨by simp [hL], ?_, fun j hj => absurd hj (Nat.not_lt_zero j)⟩
      simp only [hL, List.getElem_cons_zero]
      exact smcEqualExpID_fmt6 x.expID
    have hlen := h.entries_length
    rcases h.pqSetStat_find (fmt6 x.expID) .done with
      ⟨k, -, -, q₁, hq₁, hw, he'⟩ | ⟨-, -, hn, -⟩ | ⟨hn, -, -⟩
    · rw [hq₁] at hq
      cases hq
      have hlen' := hw.entries_length
      rw [he', if_pos rfl, List.length_tail, List.length_modify] at hlen'
      rw [hL, List.length_cons] at hlen hlen'
      have := hw.nonneg
      omega
    · rw [hf] at hn
      cases hn
    · exact absurd (hn 0 hf) (by decide)

/-- The exposure that `pqNext` answers is the oldest one. -/
theorem pqNext_head (h : q.Wf) (h0 : 0 < Ndhs.pqNext q) :
    (q.entries.map PqEntry.expID).head? = some (Ndhs.pqNext q) := by
  rw [h.pqNext_eq] at h0 ⊢
  cases hL : q.entries with
  | nil => rw [hL] at h0; exact absurd h0 (lt_irrefl _)
  | cons x L =>
    rw [hL, fifoNext] at h0
    rw [fifoNext]
    split at h0
    · rename_i hr
      rw [if_pos hr]
      rfl
    · exact absurd h0 (lt_irrefl _)

/-- A ring in order holds its own entries. -/
theorem refines (h : q.Wf) : Refines (q, q.entries) := by
  have hn := h.nonneg
  have hb := h.bound
  have hlen := h.entries_length
  have hcount : q.qCount = q.entries.length := by omega
  have hbound : q.entries.length ≤ szProcQueue := by omega
  exact ⟨rfl, hcount, hbound, h.follow_last, h.pqNext_eq⟩

/-- Every reachable ring is in order. -/
theorem of_reach (h : Reach pqStep pqStart q) : q.Wf := by
  refine Reach.inv (fun q op q' hw hst => ?_) (ProcQueue.Wf.init rfl) h
  cases op with
  | add e => exact (hw.pqAdd_some hst).1
  | setStat e s => exact hw.pqSetStat hst
  | next =>
    cases hst
    exact hw

end ProcQueue.Wf

/-! ## One call -/

section Step

variable {q : ProcQueue} {e : ExpID} {s : PqStat}

/-- A call that meets the condition goes through and keeps the ring at the list. -/
theorem pqSetStat_refines (h : q.Wf) (hok : SetStatOk q.entries e s) :
    ∃ q', pqSetStat q e s = some q' ∧ q'.Wf ∧ q'.entries = fifoSetStat q.entries e s := by
  unfold SetStatOk at hok
  unfold fifoSetStat
  obtain ⟨k, hlt, hf, q', hq, hw, he⟩ | ⟨hlt, h0, hf, hq⟩ | ⟨hno, h0, hq⟩ := h.pqSetStat_find e s
  · refine ⟨q', hq, hw, ?_⟩
    rw [he, hf]
    by_cases hs : s = .done
    · -- the dropped entry is the oldest one: it has to be the one that matched
      rw [if_pos hs, hf] at hok
      obtain hk | ⟨hk, -⟩ := hok <;> cases hk
      simp only [if_pos hs]
      cases q.entries <;> simp
    · simp only [if_neg hs]
  · rw [hf] at hok ⊢
    by_cases hs : s = .done
    · rw [if_pos hs] at hok
      obtain hk | ⟨-, hz | hl⟩ := hok
      · cases hk
      · rw [h0] at hz; cases hz
      · omega
    · rw [if_neg fun hc => hs hc.1, if_neg hs] at hq
      exact hq
  · refine ⟨q, hq, h, ?_⟩
    cases hf : fifoFind q.entries e with
    | none => rfl
    | some k =>
      obtain ⟨hk, -⟩ := fifoFind_eq_some.mp hf
      have hk' := hno k hf
      have hlen := h.entries_length
      have hb := h.bound
      -- the only entry out of the scan's reach is the last of a full ring
      obtain rfl : k = szProcQueue - 1 := by omega
      by_cases hs : s = .done
      · rw [if_pos hs, hf] at hok
        obtain hk | ⟨hk, -⟩ := hok <;> cases hk
      · rw [if_neg hs] at hok
        simp only [if_neg hs]
        have hx := hok hf _ (List.getElem?_eq_getElem hk)
        refine List.ext_getElem (by simp) fun i h₁ h₂ => ?_
        rw [List.getElem_modify]
        split
        · rename_i hi
          subst hi hx
          rfl
        · rfl

/-- A call that does not meet the condition stops the program or leaves the list. -/
theorem pqSetStat_differs (h : q.Wf) (hok : ¬ SetStatOk q.entries e s) {q' : ProcQueue}
    (hst : pqSetStat q e s = some q') : q'.entries ≠ fifoSetStat q.entries e s := by
  unfold SetStatOk at hok
  unfold fifoSetStat
  intro heq
  obtain ⟨k, hlt, hf, q₁, hq, hw, he⟩ | ⟨hlt, h0, hf, hq⟩ | ⟨hno, h0, hq⟩ := h.pqSetStat_find e s
  · rw [hq] at hst
    cases hst
    by_cases hs : s = .done
    · rw [if_pos hs, hf] at hok
      rw [he, hf] at heq
      simp only [if_pos hs] at heq
      obtain ⟨hk, hm, hb⟩ := fifoFind_eq_some.mp hf
      cases k with
      | zero => exact hok (.inl rfl)
      | succ k =>
        -- entry `k` of the ring matches the id, entry `k` of the list comes before the match
        have hb' := hb k (Nat.lt_succ_self k)
        have hx : ((q.entries.modify (k + 1) ({ · with status := s })).tail)[k]? =
            (q.entries.eraseIdx (k + 1))[k]? := by rw [heq]
        rw [List.getElem?_tail, List.getElem?_eraseIdx_of_lt (Nat.lt_succ_self k),
          List.getElem?_modify_eq, List.getElem?_eq_getElem hk,
          List.getElem?_eq_getElem (by omega)] at hx
        simp only [Option.map_eq_map, Option.map_some, Option.some.injEq] at hx
        rw [← hx, hm] at hb'
        cases hb'
    · rw [if_neg hs, hf] at hok
      exact hok fun hk => absurd (Option.some.inj hk) (by omega)
  · simp only [hf] at heq
    by_cases hs : s = .done
    · by_cases he : q.entries = []
      · rw [if_pos ⟨hs, he⟩, hst] at hq
        cases hq
      · rw [if_neg fun hc => he hc.2, if_pos hs] at hq
        obtain ⟨q₁, hq, -, he'⟩ := hq
        rw [hq] at hst
        cases hst
        have hlen := congrArg List.length (he'.symm.trans heq)
        rw [List.length_tail] at hlen
        have := List.length_pos_iff.mpr he
        omega
    · rw [if_neg hs, hf] at hok
      exact hok fun hk => nomatch hk
  · rw [hq] at hst
    cases hst
    cases hf : fifoFind q.entries e with
    | none =>
      rw [hf] at hok
      by_cases hs : s = .done
      · rw [if_pos hs] at hok
        refine hok (.inr ⟨rfl, ?_⟩)
        by_cases hl : q.entries.length < szProcQueue - 1
        · exact .inl (h0 hl)
        · exact .inr (by omega)
      · rw [if_neg hs] at hok
        exact hok fun hk => nomatch hk
    | some k =>
      obtain ⟨hk, -⟩ := fifoFind_eq_some.mp hf
      rw [hf] at heq
      by_cases hs : s = .done
      · simp only [if_pos hs] at heq
        have hlen := congrArg List.length heq
        rw [List.length_eraseIdx_of_lt hk] at hlen
        omega
      · rw [if_neg hs] at hok
        simp only [if_neg hs] at heq
        refine hok fun hf' x hx => ?_
        rw [hf] at hf'
        cases hf'
        rw [heq, List.getElem?_modify_eq, List.getElem?_eq_getElem hk] at hx
        simp only [Option.map_eq_map, Option.map_some, Option.mem_def, Option.some.injEq] at hx
        rw [← hx]

end Step

/-! ## Whole runs -/

/-- The ring in order, with the list as its entries. -/
def FifoInv (c : ProcQueue × List PqEntry) : Prop := c.1.Wf ∧ c.1.entries = c.2

theorem FifoInv.step_ok {c : ProcQueue × List PqEntry} (h : FifoInv c) {op : PqOp}
    (hok : Room c op ∧ op.Ok c) : ∃ c', fifoStep c op = some c' ∧ FifoInv c' := by
  obtain ⟨q, L⟩ := c
  obtain ⟨hw, rfl⟩ : q.Wf ∧ q.entries = L := h
  cases op with
  | add e =>
    have hroom : q.entries.length < szProcQueue := hok.1
    obtain ⟨q', hq, hw', he⟩ := hw.pqAdd (by have := hw.entries_length; omega) e
    exact ⟨_, by simp only [fifoStep, pqStep, hq, Option.map_some]; rfl, hw', he⟩
  | setStat e s =>
    obtain ⟨q', hq, hw', he⟩ := pqSetStat_refines hw hok.2
    exact ⟨_, by simp only [fifoStep, pqStep, hq, Option.map_some]; rfl, hw', he⟩
  | next => exact ⟨_, rfl, hw, rfl⟩

theorem FifoInv.step_bad {c c' : ProcQueue × List PqEntry} (h : FifoInv c) {op : PqOp}
    (hok : ¬ (Room c op ∧ op.Ok c)) (hst : fifoStep c op = some c') : ¬ Refines c' := by
  obtain ⟨q, L⟩ := c
  obtain ⟨hw, rfl⟩ : q.Wf ∧ q.entries = L := h
  intro hr
  cases op with
  | add e =>
    have hfull : ¬ q.entries.length < szProcQueue := fun hlt => hok ⟨hlt, trivial⟩
    have hlen := hw.entries_length
    have hb := hw.bound
    have hc : q.qCount = szProcQueue := by
      have := hw.nonneg
      omega
    rw [fifoStep, pqStep, ProcQueue.Wf.pqAdd_full hc] at hst
    cases hst
  | setStat e s =>
    rw [fifoStep, pqStep] at hst
    obtain ⟨q', hq, rfl⟩ := Option.map_eq_some_iff.mp hst
    exact pqSetStat_differs hw (fun ho => hok ⟨trivial, ho⟩) hq hr.entries
  | next => exact hok ⟨trivial, trivial⟩

/-- The ring refines the first-in first-out queue along a run exactly if every `pqSetStat` call of
the run meets the condition. -/
theorem refines_iff (ops : List PqOp) (hroom : Steps Room fifoStep fifoStart ops) :
    Always Refines fifoStep fifoStart ops ↔ Steps (fun c op => op.Ok c) fifoStep fifoStart ops := by
  have hP : ∀ c, FifoInv c → Refines c := by
    rintro ⟨q, L⟩ ⟨hw, he⟩
    obtain rfl : q.entries = L := he
    exact hw.refines
  rw [always_iff_steps hP (fun c op h hok => h.step_ok hok) (fun c op c' h hok => h.step_bad hok)
    ⟨ProcQueue.Wf.init rfl, rfl⟩, steps_and]
  exact ⟨fun h => h.2, fun h => ⟨hroom, h⟩⟩

/-- Two exposures are queued and the second one is done first: the ring drops the first one. -/
theorem refines_fails_second_done :
    Steps Room fifoStep fifoStart [.add 1, .add 2, .setStat 2 .done] ∧
      ¬ Always Refines fifoStep fifoStart [.add 1, .add 2, .setStat 2 .done] := by
  have hrun : (run fifoStep fifoStart [.add 1, .add 2, .setStat 2 .done]).map
      (fun c => (c.1.entries, c.2)) = some ([⟨2, .done⟩], [⟨1, .start⟩]) := by decide +kernel
  refine ⟨⟨(by decide : 0 < szProcQueue), fun c hc => ⟨?_, fun _ _ => ⟨trivial, fun _ _ => trivial⟩⟩⟩, fun h => ?_⟩
  · obtain ⟨q, -, rfl⟩ := Option.map_eq_some_iff.mp hc
    exact (by decide : 1 < szProcQueue)
  · obtain ⟨c, hc, hr⟩ := h.last
    rw [hc] at hrun
    obtain ⟨h₁, h₂⟩ := Prod.mk.inj (Option.some.inj hrun)
    have := h₁.symm.trans (hr.entries.trans h₂)
    simp at this

/-- A run in which three exposures are queued, and the oldest one is done each time. -/
theorem refines_in_turn :
    Steps Room fifoStep fifoStart
        [.add 1, .add 2, .next, .setStat 1 .active, .setStat 1 .done, .add 3, .setStat 2 .ready, .setStat 2 .done, .next] ∧
      Always Refines fifoStep fifoStart
        [.add 1, .add 2, .next, .setStat 1 .active, .setStat 1 .done, .add 3, .setStat 2 .ready, .setStat 2 .done, .next] := by
  have hroom : Steps Room fifoStep fifoStart
      [.add 1, .add 2, .next, .setStat 1 .active, .setStat 1 .done, .add 3, .setStat 2 .ready, .setStat 2 .done, .next] := by
    decide +kernel
  have hok : Steps (fun c op => op.Ok c) fifoStep fifoStart
      [.add 1, .add 2, .next, .setStat 1 .active, .setStat 1 .done, .add 3, .setStat 2 .ready, .setStat 2 .done, .next] := by
    decide +kernel
  exact ⟨hroom, (refines_iff _ hroom).mpr hok⟩

/-! ## `PQ_DONE` for an id that is queued once -/

theorem fifoSetStat_done (L : List PqEntry) (e : ExpID) :
    fifoSetStat L e .done = L.eraseP fun x => smcEqualExpID x.expID e := by
  rw [List.eraseP_eq_eraseIdx, fifoSetStat, fifoFind]
  rfl

/-- In a reachable state with the id queued once, `PQ_DONE` takes out that entry and nothing else
exactly if it is the oldest one. -/
theorem pqSetStat_done_iff (q : ProcQueue) (e : ExpID) (hq : Reach pqStep pqStart q)
    (honce : q.entries.countP (fun x => smcEqualExpID x.expID e) = 1) :
    (∃ q', pqSetStat q e .done = some q' ∧
        q'.entries = q.entries.eraseP (fun x => smcEqualExpID x.expID e) ∧
        q'.qCount = q.qCount - 1) ↔
      fifoFind q.entries e = some 0 := by
  have hw := ProcQueue.Wf.of_reach hq
  have hne : fifoFind q.entries e ≠ none := by
    intro hn
    rw [fifoFind_eq_none] at hn
    rw [List.countP_eq_zero.mpr fun x hx => by simp [hn x hx]] at honce
    cases honce
  have hok : SetStatOk q.entries e .done ↔ fifoFind q.entries e = some 0 := by
    rw [SetStatOk, if_pos rfl]
    exact ⟨fun h => h.resolve_right fun hc => hne hc.1, .inl⟩
  rw [← hok, ← fifoSetStat_done]
  constructor
  · rintro ⟨q', hst, he, -⟩
    by_contra hno
    exact pqSetStat_differs hw hno hst he
  · intro h
    obtain ⟨q', hst, hw', he⟩ := pqSetStat_refines hw h
    refine ⟨q', hst, he, ?_⟩
    obtain ⟨hlt, -⟩ := fifoFind_eq_some.mp (hok.mp h)
    have hlen := hw.entries_length
    have hlen' := hw'.entries_length
    have h0 := hw.nonneg
    have h0' := hw'.nonneg
    rw [he, fifoSetStat, hok.mp h] at hlen'
    simp only [if_pos, List.length_eraseIdx_of_lt hlt] at hlen'
    omega

/-- The second of two queued exposures is queued once, and `PQ_DONE` for it drops the first. -/
theorem pqSetStat_done_drops_first :
    ∃ q, Reach pqStep pqStart q ∧
      q.entries.countP (fun x => smcEqualExpID x.expID 2) = 1 ∧
      ¬ ∃ q', pqSetStat q 2 .done = some q' ∧
        q'.entries = q.entries.eraseP (fun x => smcEqualExpID x.expID 2) ∧
        q'.qCount = q.qCount - 1 := by
  have hrun : (run pqStep pqStart [.add 1, .add 2]).map (fun q =>
      (q.entries, (pqSetStat q 2 .done).map ProcQueue.entries)) =
        some ([⟨1, .start⟩, ⟨2, .start⟩], some [⟨2, .done⟩]) := by decide +kernel
  obtain ⟨q, hq, he⟩ := Option.map_eq_some_iff.mp hrun
  obtain ⟨he₁, he₂⟩ := Prod.mk.inj he
  refine ⟨q, ⟨_, hq⟩, by rw [he₁]; decide +kernel, ?_⟩
  rintro ⟨q', hst, he', -⟩
  rw [hst] at he₂
  have hdone : q'.entries = [⟨2, .done⟩] := Option.some.inj he₂
  rw [hdone, he₁] at he'
  revert he'
  decide +kernel

/-- The first of two queued exposures. -/
theorem pqSetStat_done_first :
    ∃ q, Reach pqStep pqStart q ∧
      q.entries.countP (fun x => smcEqualExpID x.expID 1) = 1 ∧
      ∃ q', pqSetStat q 1 .done = some q' ∧
        q'.entries = q.entries.eraseP (fun x => smcEqualExpID x.expID 1) ∧
        q'.qCount = q.qCount - 1 := by
  have hrun : (run pqStep pqStart [.add 1, .add 2]).map ProcQueue.entries =
      some [⟨1, .start⟩, ⟨2, .start⟩] := by decide +kernel
  obtain ⟨q, hq, he⟩ := Option.map_eq_some_iff.mp hrun
  have honce : q.entries.countP (fun x => smcEqualExpID x.expID 1) = 1 := by
    rw [he]
    decide +kernel
  refine ⟨q, ⟨_, hq⟩, honce, (pqSetStat_done_iff q 1 ⟨_, hq⟩ honce).mpr ?_⟩
  rw [he]
  decide +kernel

end Ndhs
