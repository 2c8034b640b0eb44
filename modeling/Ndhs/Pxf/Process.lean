import Ndhs.Smc.TableInv

/-!
# The pages of an exposure (`pxf/pxfProcess.c`)

`pxfProcess` goes over the page table twice. In the first pass it processes the pages with meta-data of an exposure, in
the second one those with pixels. Between two iterations other processes may call `smcGetPage`, give the new page its
id, and free pages of other exposures.

* `noop` is off. What is done for a page (`procDCAData`, …) is left out; `log` has the pages for which it is called.
* A page of any other type is not processed: there is a warning.

`pxfProcess_order`: the pages that are there at the start are processed once each, the ones with meta-data first.
-/

namespace Ndhs

open Function Machine

/-- The cache, the variables of the loops, and the pages that were processed, by slot -/
structure PxfState where
  smc : SmCache
  pcount : Nat := 0
  i : Nat := 0
  log : List (Nat × SmcPage) := []

/-- The `switch` on the type of the page: whether it is processed in this pass. -/
def processed (pcount : Nat) (type : Int) : Bool :=
  if type = tyVoid ∨ type = tyData then pcount == 1
  else if type = tyMeta then pcount == 0
  else false

/-- One iteration of the inner loop, or the end of it -/
def PxfState.iter (s : PxfState) (pid : Nat) (expID : ExpID) : PxfState :=
  if s.pcount < 2 then
    if (s.i : Int) < s.smc.top then
      let page := s.smc.pdata s.i
      if page.memKey = 0 then { s with i := s.i + 1 }
      else if smcEqualExpID page.expID expID then
        { s with
          smc := smcDetach s.smc pid s.i false
          i := s.i + 1
          log := if processed s.pcount page.type then s.log ++ [(s.i, page)] else s.log }
      else { s with i := s.i + 1 }
    else { s with pcount := s.pcount + 1, i := 0 }
  else s

/-- An iteration, or a call of another process -/
def PxfState.step (pid : Nat) (expID : ExpID) (s : PxfState) : Option SmcOp → Option PxfState
  | none => some (s.iter pid expID)
  | some op => (s.smc.step op).map fun smc => { s with smc := smc }

/-- The call concerns only other exposures. -/
def SmcOp.Other (expID : ExpID) (smc : SmCache) : SmcOp → Prop
  | .getPage _ _ _ _ _ => True
  | .detach _ i _ | .setExpID i _ | .setColID i _ => smcEqualExpID (smc.pdata i).expID expID = false
  | _ => False

/-- The calls of other processes concern only other exposures. -/
def PxfState.Legal (expID : ExpID) (s : PxfState) (a : Option SmcOp) : Prop := ∀ op ∈ a, op.Other expID s.smc

/-- The slot has a page of the exposure. -/
def SmCache.HasPage (smc : SmCache) (expID : ExpID) (j : Nat) : Prop :=
  (smc.pdata j).live = true ∧ smcEqualExpID (smc.pdata j).expID expID = true

/-! ## Other calls -/

section Other

variable {smc smc' : SmCache} {e : ExpID} {j : Nat}

/-- Calls for other exposures do not touch a page of the exposure. -/
theorem SmcOp.Other.kept (h : smc.Shape) {op : SmcOp} (ho : op.Other e smc) (hst : smc.step op = some smc')
    (hj : smc.HasPage e j) : smc'.pdata j = smc.pdata j := by
  obtain ⟨hl, he⟩ := hj
  have hne : ∀ i : Nat, smcEqualExpID (smc.pdata i).expID e = false → j ≠ i := by
    rintro i hi rfl
    rw [hi] at he
    cases he
  cases op with
  | getPage type size attach lock env =>
    obtain ⟨⟨s, r⟩, hg, rfl⟩ := Option.map_eq_some_iff.mp hst
    obtain ⟨rfl, -⟩ | ⟨pnum, -, -, -, -, hv, hopen⟩ := smcGetPage_spec h hg
    · rfl
    · refine (openPage_spec hopen).1 j ?_
      rintro rfl
      rw [hv] at hl
      cases hl
  | detach pid i free =>
    cases hst
    cases free with
    | true => rw [detach_pdata, update_of_ne (hne i ho)]
    | false => exact update_of_ne (hne i ho) _ _
  | setExpID i x =>
    cases hst
    exact update_of_ne (hne i ho) _ _
  | setColID i c =>
    cases hst
    exact update_of_ne (hne i ho) _ _
  | delExpID pid x pp => exact ho.elim
  | reset pid => exact ho.elim
  | smcInit pid => exact ho.elim
  | prune => exact ho.elim

/-- `smcDetach` without free -/
theorem detach_false_pdata (pid i : Nat) :
    ((smcDetach smc pid i false).pdata j).ident = (smc.pdata j).ident ∧
      ((smcDetach smc pid i false).pdata j).expID = (smc.pdata j).expID ∧
      ((smcDetach smc pid i false).pdata j).live = (smc.pdata j).live := by
  by_cases hj : j = i
  · subst hj
    simp only [smcDetach, Bool.false_eq_true, if_false, SmCache.setPage, update_self]
    split
    · exact ⟨rfl, rfl, rfl⟩
    · exact ⟨rfl, rfl, rfl⟩
  · have hsame : (smcDetach smc pid i false).pdata j = smc.pdata j := update_of_ne hj _ _
    rw [hsame]
    exact ⟨rfl, rfl, rfl⟩

end Other

/-! ## One pass after the other -/

/-- The pass in which a page is processed -/
def passOf (type : Int) : Option Nat :=
  if type = tyVoid ∨ type = tyData then some 1 else if type = tyMeta then some 0 else none

theorem processed_iff {pcount : Nat} {type : Int} : processed pcount type = true ↔ passOf type = some pcount := by
  unfold processed passOf
  split
  · rw [beq_iff_eq, Option.some.injEq, eq_comm]
  · split
    · rw [beq_iff_eq, Option.some.injEq, eq_comm]
    · exact iff_of_false Bool.false_ne_true nofun

theorem passOf_zero {type : Int} : passOf type = some 0 ↔ type = tyMeta := by
  unfold passOf
  constructor
  · intro h
    split at h
    · cases h
    · split at h
      · assumption
      · cases h
  · rintro rfl
    rfl

/-- The loops have been at the slot `j` in the pass for pages of the type. -/
def Visited (pcount i : Nat) (type : Int) (j : Nat) : Prop :=
  ∃ q, passOf type = some q ∧ (q < pcount ∨ q = pcount ∧ j < i)

/-- The entries of a slot in the log -/
def PxfState.entries (s : PxfState) (j : Nat) : List (Nat × SmcPage) := s.log.filter (·.1 == j)

/-- What holds between two steps, for the pages that were there at the `start`: they are in their slots, and are in the
log once the loops have been there. -/
structure PxfState.Inv (start : SmCache) (e : ExpID) (s : PxfState) : Prop where
  shape : s.smc.Shape
  index : s.i ≤ maxSegs
  count : s.pcount ≤ 2
  page : ∀ j, start.HasPage e j → s.smc.HasPage e j ∧ (s.smc.pdata j).ident = (start.pdata j).ident
  visited : ∀ j, start.HasPage e j → Visited s.pcount s.i (start.pdata j).type j →
    (s.entries j).map (·.2.ident) = [(start.pdata j).ident]
  unvisited : ∀ j, start.HasPage e j → ¬ Visited s.pcount s.i (start.pdata j).type j → s.entries j = []
  order : ∃ metas rest, s.log = metas ++ rest ∧ (∀ x ∈ metas, x.2.type = tyMeta) ∧ (∀ x ∈ rest, x.2.type ≠ tyMeta) ∧
    (s.pcount = 0 → rest = [])

section Inv

variable {start : SmCache} {e : ExpID} {pid : Nat} {s : PxfState}

theorem PxfState.Inv.begin (h : start.Shape) (e : ExpID) : PxfState.Inv start e ⟨start, 0, 0, []⟩ where
  shape := h
  index := Nat.zero_le _
  count := Nat.zero_le _
  page j hj := ⟨hj, rfl⟩
  visited j _ hv := by
    obtain ⟨q, -, hlt | ⟨-, hlt⟩⟩ := hv
    · cases hlt
    · cases hlt
  unvisited j _ _ := rfl
  order := ⟨[], [], rfl, List.forall_mem_nil _, List.forall_mem_nil _, fun _ => rfl⟩

/-- A call for other exposures. -/
theorem PxfState.Inv.other (h : s.Inv start e) {op : SmcOp} (ho : op.Other e s.smc) {smc' : SmCache}
    (hst : s.smc.step op = some smc') : PxfState.Inv start e { s with smc := smc' } := by
  refine ⟨h.shape.step hst, h.index, h.count, fun j hj => ?_, h.visited, h.unvisited, h.order⟩
  obtain ⟨hp, hid⟩ := h.page j hj
  rw [SmCache.HasPage, ho.kept h.shape hst hp]
  exact ⟨hp, hid⟩

/-- The slot of an iteration is behind the loops afterwards, and no other slot is. -/
theorem visited_succ {pcount i j : Nat} {type : Int} :
    Visited pcount (i + 1) type j ↔ Visited pcount i type j ∨ j = i ∧ passOf type = some pcount := by
  constructor
  · rintro ⟨q, hq, hlt | ⟨rfl, hlt⟩⟩
    · exact .inl ⟨q, hq, .inl hlt⟩
    · obtain hlt | rfl := Nat.lt_succ_iff_lt_or_eq.mp hlt
      · exact .inl ⟨q, hq, .inr ⟨rfl, hlt⟩⟩
      · exact .inr ⟨rfl, hq⟩
  · rintro (⟨q, hq, hlt | ⟨rfl, hlt⟩⟩ | ⟨rfl, hq⟩)
    · exact ⟨q, hq, .inl hlt⟩
    · exact ⟨q, hq, .inr ⟨rfl, by omega⟩⟩
    · exact ⟨pcount, hq, .inr ⟨rfl, Nat.lt_succ_self _⟩⟩

/-- An iteration over a slot without a page of the exposure. -/
theorem PxfState.Inv.skip (h : s.Inv start e) (hi : (s.i : Int) < s.smc.top) (hno : ¬ s.smc.HasPage e s.i) :
    PxfState.Inv start e { s with i := s.i + 1 } := by
  have hb := h.shape.bound
  have hsame : ∀ j, start.HasPage e j → ∀ type, (Visited s.pcount (s.i + 1) type j ↔ Visited s.pcount s.i type j) := by
    intro j hj type
    rw [visited_succ, or_iff_left]
    rintro ⟨rfl, -⟩
    exact hno (h.page _ hj).1
  refine ⟨h.shape, ?_, h.count, h.page, fun j hj hv => ?_, fun j hj hv => ?_, h.order⟩
  · show s.i + 1 ≤ maxSegs
    omega
  · exact h.visited j hj ((hsame j hj _).mp hv)
  · exact h.unvisited j hj fun hv' => hv ((hsame j hj _).mpr hv')

/-- An iteration over a page of the exposure. -/
theorem PxfState.Inv.page_iter (h : s.Inv start e) (hi : (s.i : Int) < s.smc.top) :
    PxfState.Inv start e { s with
      smc := smcDetach s.smc pid s.i false
      i := s.i + 1
      log := if processed s.pcount (s.smc.pdata s.i).type then s.log ++ [(s.i, s.smc.pdata s.i)] else s.log } := by
  have hb := h.shape.bound
  have htype : ∀ hs : start.HasPage e s.i, (s.smc.pdata s.i).type = (start.pdata s.i).type :=
    fun hs => congrArg (·.2.2.2.1) (h.page s.i hs).2
  have hnew : ∀ {type : Int}, ¬ (Visited s.pcount s.i type s.i ∧ passOf type = some s.pcount) := by
    rintro type ⟨⟨q, hq, hlt⟩, hq'⟩
    rw [hq, Option.some.injEq] at hq'
    omega
  refine ⟨?_, ?_, h.count, fun j hj => ?_, fun j hj hv => ?_, fun j hj hv => ?_, ?_⟩
  · have hdetach : s.smc.step (.detach pid ⟨s.i, by omega⟩ false) = some (smcDetach s.smc pid s.i false) := rfl
    exact h.shape.step hdetach
  · show s.i + 1 ≤ maxSegs
    omega
  · obtain ⟨⟨hl, he⟩, hid⟩ := h.page j hj
    obtain ⟨hid', he', hl'⟩ := @detach_false_pdata s.smc j pid s.i
    exact ⟨⟨hl'.trans hl, he' ▸ he⟩, hid'.trans hid⟩
  · rw [visited_succ] at hv
    by_cases hpass : j = s.i ∧ passOf (start.pdata j).type = some s.pcount
    · -- the page is processed now
      obtain ⟨rfl, hpass⟩ := hpass
      have hlog := h.unvisited s.i hj fun hv => hnew ⟨hv, hpass⟩
      unfold PxfState.entries at hlog ⊢
      rw [if_pos (processed_iff.mpr (htype hj ▸ hpass)), List.filter_append, hlog]
      simp [(h.page s.i hj).2]
    · have hold := h.visited j hj (hv.resolve_right hpass)
      unfold PxfState.entries at hold ⊢
      rw [← hold]
      congr 1
      split
      · next hproc =>
        have hne : s.i ≠ j := fun he => hpass ⟨he.symm, he ▸ htype (he ▸ hj) ▸ processed_iff.mp hproc⟩
        simp [hne]
      · rfl
  · rw [visited_succ, not_or] at hv
    have hold := h.unvisited j hj hv.1
    unfold PxfState.entries at hold ⊢
    refine Eq.trans ?_ hold
    split
    · next hproc =>
      have hne : s.i ≠ j := fun he => hv.2 ⟨he.symm, he ▸ htype (he ▸ hj) ▸ processed_iff.mp hproc⟩
      simp [hne]
    · rfl
  · obtain ⟨metas, rest, hlog, hmetas, hrest, hzero⟩ := h.order
    split
    · next hproc =>
      have hpass := processed_iff.mp hproc
      by_cases hc : s.pcount = 0
      · rw [hc] at hpass
        refine ⟨metas ++ [(s.i, s.smc.pdata s.i)], [], ?_, ?_, List.forall_mem_nil _, fun _ => rfl⟩
        · rw [hlog, hzero hc, List.append_nil, List.append_nil]
        · rw [List.forall_mem_append]
          exact ⟨hmetas, by simpa using passOf_zero.mp hpass⟩
      · refine ⟨metas, rest ++ [(s.i, s.smc.pdata s.i)], ?_, hmetas, ?_, fun h0 => absurd h0 hc⟩
        · rw [hlog, List.append_assoc]
        · rw [List.forall_mem_append]
          refine ⟨hrest, ?_⟩
          have hne : (s.smc.pdata s.i).type ≠ tyMeta := by
            intro hm
            rw [passOf_zero.mpr hm, Option.some.injEq] at hpass
            exact hc hpass.symm
          simpa using hne
    · exact ⟨metas, rest, hlog, hmetas, hrest, hzero⟩

/-- The end of a pass. -/
theorem PxfState.Inv.next_pass (h : s.Inv start e) (hi : ¬ (s.i : Int) < s.smc.top) (hc : s.pcount < 2) :
    PxfState.Inv start e { s with pcount := s.pcount + 1, i := 0 } := by
  have hsame : ∀ j, start.HasPage e j → ∀ type,
      (Visited (s.pcount + 1) 0 type j ↔ Visited s.pcount s.i type j) := by
    intro j hj type
    have hlt := h.shape.below j (h.page j hj).1.1
    exact exists_congr fun q => and_congr_right fun _ => by omega
  refine ⟨h.shape, Nat.zero_le _, hc, h.page, fun j hj hv => ?_, fun j hj hv => ?_, ?_⟩
  · exact h.visited j hj ((hsame j hj _).mp hv)
  · exact h.unvisited j hj fun hv' => hv ((hsame j hj _).mpr hv')
  · obtain ⟨metas, rest, hlog, hmetas, hrest, -⟩ := h.order
    exact ⟨metas, rest, hlog, hmetas, hrest, fun h0 => absurd h0 (Nat.succ_ne_zero _)⟩

/-- Every step keeps the invariant. -/
theorem PxfState.Inv.step (h : s.Inv start e) {a : Option SmcOp} (ha : s.Legal e a) {s' : PxfState}
    (hst : s.step pid e a = some s') : s'.Inv start e := by
  cases a with
  | some op =>
    obtain ⟨smc', hop, rfl⟩ := Option.map_eq_some_iff.mp hst
    exact h.other (ha op rfl) hop
  | none =>
    obtain rfl := Option.some.inj hst
    unfold PxfState.iter
    split
    · next hc =>
      split
      · next hi =>
        dsimp only
        split
        · next hv => exact h.skip hi fun hp => live_iff.mp hp.1 hv
        · next hv =>
          split
          · exact h.page_iter hi
          · next he => exact h.skip hi fun hp => he hp.2
      · next hi => exact h.next_pass hi hc
    · exact h

/-! ## The end of the loops -/

/-- How far the loops are -/
def PxfState.progress (s : PxfState) : Nat := s.pcount * (maxSegs + 1) + s.i

/-- Every iteration goes on, until the second pass has ended. -/
theorem PxfState.iter_progress (h : s.Inv start e) :
    (s.iter pid e).pcount = 2 ∨ s.progress + 1 ≤ (s.iter pid e).progress := by
  have hb := h.shape.bound
  have hc := h.count
  have hi := h.index
  unfold iter
  split
  · right
    split
    · have hnext : s.progress + 1 = s.pcount * (maxSegs + 1) + (s.i + 1) := Nat.add_assoc _ _ _
      rw [hnext]
      dsimp only
      split
      · exact Nat.le_refl _
      · split
        · exact Nat.le_refl _
        · exact Nat.le_refl _
    · have hnext : (s.pcount + 1) * (maxSegs + 1) = s.pcount * (maxSegs + 1) + (maxSegs + 1) := Nat.succ_mul _ _
      show s.pcount * (maxSegs + 1) + s.i + 1 ≤ (s.pcount + 1) * (maxSegs + 1) + 0
      omega
  · left
    omega

end Inv

/-! ## Runs -/

/-- The second pass has ended, and stays so. -/
theorem PxfState.step_ended {pid : Nat} {e : ExpID} {s s' : PxfState} {a : Option SmcOp} (h : s.pcount = 2)
    (hst : s.step pid e a = some s') : s'.pcount = 2 := by
  cases a with
  | some op =>
    obtain ⟨smc', -, rfl⟩ := Option.map_eq_some_iff.mp hst
    exact h
  | none =>
    obtain rfl := Option.some.inj hst
    unfold PxfState.iter
    rw [if_neg (by omega)]
    exact h

/-- The loops end after so many iterations, whatever other processes do. -/
theorem PxfState.run_progress {start : SmCache} {e : ExpID} {pid : Nat} {as : List (Option SmcOp)} {s s' : PxfState}
    (h : s.Inv start e) (hl : Steps (PxfState.Legal e) (PxfState.step pid e) s as)
    (hr : run (PxfState.step pid e) s as = some s') :
    s'.pcount = 2 ∨ s.progress + as.countP Option.isNone ≤ s'.progress := by
  induction as generalizing s with
  | nil =>
    cases hr
    exact .inr (by simp)
  | cons a as ih =>
    rw [run_cons] at hr
    obtain ⟨t, ht, hr⟩ := Option.bind_eq_some_iff.mp hr
    have hrest := ih (h.step hl.1 ht) (hl.2 t ht) hr
    cases a with
    | some op =>
      obtain ⟨smc', -, rfl⟩ := Option.map_eq_some_iff.mp ht
      rw [List.countP_cons_of_neg (by simp)]
      exact hrest
    | none =>
      obtain rfl := Option.some.inj ht
      rw [List.countP_cons_of_pos (by simp)]
      obtain hend | hone : (s.iter pid e).pcount = 2 ∨ s.progress + 1 ≤ (s.iter pid e).progress := iter_progress h
      · exact .inl (run_inv (I := fun s : PxfState => s.pcount = 2) (fun _ _ _ hs hst => step_ended hs hst) hend hr)
      · omega

/-- While other processes allocate pages and free pages of other exposures, `pxfProcess` processes each page of the
exposure once that is there at the start and has one of the three types, and no page with pixels before one with
meta-data; and it ends. -/
theorem pxfProcess_order (start : SmCache) (h : start.Shape) (e : ExpID) (pid : Nat) (as : List (Option SmcOp))
    (hl : Steps (PxfState.Legal e) (PxfState.step pid e) ⟨start, 0, 0, []⟩ as) (s : PxfState)
    (hr : run (PxfState.step pid e) ⟨start, 0, 0, []⟩ as = some s) :
    (2 * (maxSegs + 1) ≤ as.countP Option.isNone → s.pcount = 2) ∧
      (s.pcount = 2 → ∀ j, start.HasPage e j →
        ((start.pdata j).type ∈ [tyVoid, tyData, tyMeta] →
          (s.entries j).map (·.2.ident) = [(start.pdata j).ident]) ∧
        ((start.pdata j).type ∉ [tyVoid, tyData, tyMeta] → s.entries j = [])) ∧
      ∃ metas rest, s.log = metas ++ rest ∧ (∀ x ∈ metas, x.2.type = tyMeta) ∧ ∀ x ∈ rest, x.2.type ≠ tyMeta := by
  have hstart := PxfState.Inv.begin h e
  have hs : s.Inv start e := Steps.run_inv (fun _ _ _ hi hok hst => hi.step hok hst) hstart hl hr
  refine ⟨fun hn => ?_, fun hend j hj => ⟨fun htype => ?_, fun htype => ?_⟩, ?_⟩
  · obtain hend | hle := PxfState.run_progress hstart hl hr
    · exact hend
    · have hc := hs.count
      have hi := hs.index
      by_contra hne
      have hprog : s.pcount * (maxSegs + 1) ≤ 1 * (maxSegs + 1) := Nat.mul_le_mul_right _ (by omega)
      unfold PxfState.progress at hle
      omega
  · refine hs.visited j hj ?_
    rw [hend]
    simp only [List.mem_cons, List.not_mem_nil, or_false] at htype
    unfold Visited passOf
    obtain ht | ht | ht := htype
    · exact ⟨1, if_pos (.inl ht), .inl (by decide)⟩
    · exact ⟨1, if_pos (.inr ht), .inl (by decide)⟩
    · exact ⟨0, by rw [ht]; rfl, .inl (by decide)⟩
  · refine hs.unvisited j hj ?_
    rintro ⟨q, hq, -⟩
    simp only [List.mem_cons, List.not_mem_nil, or_false, not_or] at htype
    unfold passOf at hq
    rw [if_neg (not_or.mpr ⟨htype.1, htype.2.1⟩), if_neg htype.2.2] at hq
    cases hq
  · obtain ⟨metas, rest, hlog, hmetas, hrest, -⟩ := hs.order
    exact ⟨metas, rest, hlog, hmetas, hrest⟩

theorem maxSegs_pos : 0 < maxSegs := by decide

/-- A page of an exposure -/
def exposurePage (type : Int) : List SmcOp :=
  [.getPage type 1000 true true ⟨100, 0, true, true, 17, true⟩, .setExpID ⟨0, maxSegs_pos⟩ 5]

/-- A page with pixels is processed in the second pass; between the passes another page is allocated. -/
theorem pxfProcess_one :
    ∃ start s, run SmCache.step (SmCache.start "/tmp/.smc" 200 0 0) (exposurePage tyData) = some start ∧
      run (PxfState.step 300 5) ⟨start, 0, 0, []⟩
        [none, none, some (.getPage tyMeta 1000 true true ⟨200, 1, true, true, 18, true⟩), none, none, none] = some s ∧
      (s.entries 0).map (·.2.ident) = [(start.pdata 0).ident] := by
  have hrun : ((run SmCache.step (SmCache.start "/tmp/.smc" 200 0 0) (exposurePage tyData)).map fun start =>
      ((start.pdata 0).live, smcEqualExpID (start.pdata 0).expID 5, (start.pdata 0).type,
        (run (PxfState.step 300 5) ⟨start, 0, 0, []⟩ [none, none,
          some (.getPage tyMeta 1000 true true ⟨200, 1, true, true, 18, true⟩), none, none, none]).map (·.pcount))) =
      some (true, true, 2, some 2) := by decide +kernel
  obtain ⟨start, hs, he⟩ := Option.map_eq_some_iff.mp hrun
  simp only [Prod.mk.injEq] at he
  obtain ⟨hl, hid, htype, hend⟩ := he
  obtain ⟨s, hr, hend⟩ := Option.map_eq_some_iff.mp hend
  have hlegal : Steps (PxfState.Legal 5) (PxfState.step 300 5) ⟨start, 0, 0, []⟩
      [none, none, some (.getPage tyMeta 1000 true true ⟨200, 1, true, true, 18, true⟩), none, none, none] := by
    have hnone : ∀ s, PxfState.Legal 5 s none := fun s op hop => nomatch hop
    have hget : ∀ s, PxfState.Legal 5 s (some (.getPage tyMeta 1000 true true ⟨200, 1, true, true, 18, true⟩)) := by
      intro s op hop
      obtain rfl := Option.some.inj hop
      trivial
    exact ⟨hnone _, fun _ _ => ⟨hnone _, fun _ _ => ⟨hget _, fun _ _ => ⟨hnone _, fun _ _ => ⟨hnone _, fun _ _ =>
      ⟨hnone _, fun _ _ => trivial⟩⟩⟩⟩⟩⟩
  have horder := pxfProcess_order start (.of_reach ⟨_, hs⟩) 5 300 _ hlegal s hr
  refine ⟨start, s, hs, hr, (horder.2.1 hend 0 ⟨hl, hid⟩).1 ?_⟩
  rw [htype]
  decide

/-- A page of another type is not processed. -/
theorem pxfProcess_not :
    ∃ start s, run SmCache.step (SmCache.start "/tmp/.smc" 200 0 0) (exposurePage 0) = some start ∧ start.HasPage 5 0 ∧
      run (PxfState.step 300 5) ⟨start, 0, 0, []⟩ [none, none, none, none] = some s ∧ s.pcount = 2 ∧ s.entries 0 = [] := by
  have hrun : ((run SmCache.step (SmCache.start "/tmp/.smc" 200 0 0) (exposurePage 0)).map fun start =>
      ((start.pdata 0).live, smcEqualExpID (start.pdata 0).expID 5,
        (run (PxfState.step 300 5) ⟨start, 0, 0, []⟩ [none, none, none, none]).map fun s =>
          (s.pcount, (s.entries 0).length))) = some (true, true, some (2, 0)) := by decide +kernel
  obtain ⟨start, hs, he⟩ := Option.map_eq_some_iff.mp hrun
  simp only [Prod.mk.injEq] at he
  obtain ⟨hl, hid, hend⟩ := he
  obtain ⟨s, hr, hend⟩ := Option.map_eq_some_iff.mp hend
  obtain ⟨hpass, hlen⟩ := Prod.mk.inj hend
  exact ⟨start, s, hs, ⟨hl, hid⟩, hr, hpass, List.length_eq_zero_iff.mp hlen⟩

end Ndhs
