import Ndhs.Smc.TableInv

/-!
# The page count

`npages` is meant to be the number of live slots: `smcGetPage` relies on it to stay inside the array.
`smcDetach` counts down for every slot it is given, live or not.

* `SmCache.drift`: the number of live slots less `npages`. Each call adds to it the number of voids
  that it detaches (`drift_detach`, `drift_reset`, `drift_delExpID`); nothing takes from it.
* `accounted_iff`: the count is right along a run exactly if no call of the run detaches a void.
-/

namespace Ndhs

open Function Machine Cells

/-- The number of live slots. -/
def SmCache.liveCount (smc : SmCache) : Nat := (cells smc.pdata maxSegs).countP SmcPage.live

/-- The pages that are not counted. -/
def SmCache.drift (smc : SmCache) : Int := smc.liveCount - smc.npages

/-- The page count and the bounds of the table. -/
structure SmCache.Accounted (smc : SmCache) : Prop where
  npages : smc.npages = smc.liveCount
  nonneg : 0 ≤ smc.npages
  below : ∀ i, (smc.pdata i).live = true → (i : Int) < smc.top
  top : 0 ≤ smc.top ∧ smc.top ≤ smc.npMax
  npMax : smc.npMax = maxSegs

/-- The call does not detach a void. -/
def SmcOp.Ok (smc : SmCache) : SmcOp → Prop
  | .detach _ i free => free = true → (smc.pdata i).live = true
  | .delExpID _ expID procPages => ∀ i : Nat, (i : Int) < smc.top →
      (smc.pdata i).matches expID procPages = true → (smc.pdata i).live = true
  | .reset _ => ∀ i : Nat, (i : Int) < smc.top → (smc.pdata i).live = true
  | _ => True

theorem SmCache.Shape.accounted_iff_drift {smc : SmCache} (h : smc.Shape) :
    smc.Accounted ↔ smc.drift = 0 := by
  unfold SmCache.drift
  constructor
  · intro ha
    have := ha.npages
    omega
  · intro hd
    exact ⟨by omega, by omega, h.below, ⟨h.nonneg, h.npMax ▸ h.bound⟩, h.npMax⟩

/-! ## What a call adds to the drift -/

section Drift

variable {smc smc' : SmCache} {pid i : Nat}

theorem drift_congr (hn : smc'.npages = smc.npages)
    (hl : ∀ j, (smc'.pdata j).live = (smc.pdata j).live) : smc'.drift = smc.drift := by
  have hc : smc'.liveCount = smc.liveCount := by
    unfold SmCache.liveCount cells
    rw [List.countP_map, List.countP_map]
    exact List.countP_congr fun j _ => by simp [hl j]
  rw [SmCache.drift, hc, hn, SmCache.drift]

theorem setPage_live (smc : SmCache) {p : SmcPage} (h : p.memKey = (smc.pdata i).memKey) (j : Nat) :
    ((smc.setPage i p).pdata j).live = (smc.pdata j).live := by
  by_cases hj : j = i
  · subst hj; simp [SmCache.setPage, SmcPage.live, h]
  · simp [SmCache.setPage, hj]

/-- Detaching a void leaves one page more uncounted. -/
theorem drift_detach (smc : SmCache) (pid : Nat) (hi : i < maxSegs) :
    (smcDetach smc pid i true).drift =
      smc.drift + if (smc.pdata i).live = true then 0 else 1 := by
  have hc := countP_cells_update (f := smc.pdata) (p := SmcPage.live) freedPage hi
  simp only [SmCache.drift, SmCache.liveCount, detach_pdata, detach_npages]
  simp only [freedPage_live, Bool.false_eq_true, if_false, Nat.add_zero] at hc
  split at hc <;> rename_i hl
  · rw [if_pos hl]; omega
  · rw [if_neg hl]; omega

theorem drift_getPage {type size : Int} {attach lock : Bool} {env : GetEnv} {r : GetResult}
    (h : smc.Shape) (hg : smcGetPage smc type size attach lock env = some (smc', r)) :
    smc'.drift = smc.drift := by
  obtain ⟨rfl, -⟩ | ⟨pnum, -, hlt, -, -, hv, ho⟩ := smcGetPage_spec h hg
  · rfl
  · obtain ⟨hother, -, -, hcase⟩ := openPage_spec ho
    have hupd : smc'.pdata = update smc.pdata pnum (smc'.pdata pnum) :=
      Function.eq_update_iff.mpr ⟨rfl, hother⟩
    have hc := countP_cells_update (f := smc.pdata) (p := SmcPage.live) (smc'.pdata pnum) hlt
    rw [← hupd, hv] at hc
    simp only [SmCache.drift, SmCache.liveCount]
    obtain ⟨hl, hn, -⟩ | ⟨hl, -, hn, -⟩ := hcase
    · simp only [hl, Bool.false_eq_true, if_false] at hc
      omega
    · simp only [hl, Bool.false_eq_true, if_false, if_true] at hc
      omega

theorem drift_initRounds (smc : SmCache) (pid n : Nat) (hn : n ≤ maxSegs) :
    ((List.range n).foldl (initializeRound pid) smc).drift = smc.drift := by
  refine Loop.foldl_range_inv (n := n) (fun _ (s : SmCache) => s.drift = smc.drift) rfl
    fun i s hi hs => ?_
  unfold initializeRound
  split
  · exact hs
  · rename_i hk
    have hd := drift_detach s pid (show i < maxSegs by omega)
    rw [if_pos (live_iff.mpr hk)] at hd
    have hf : (smcFreePage (smcDetach s pid i true) i).drift = (smcDetach s pid i true).drift :=
      drift_congr rfl (setPage_live _ (by simp [detach_pdata, freedPage]))
    omega

theorem liveCount_eq (smc : SmCache) : smc.liveCount = smc.livePages.length := by
  unfold SmCache.liveCount SmCache.livePages
  exact List.countP_eq_length_filter

theorem drift_prune (h : smc.Shape) : (smcPrune smc).drift = smc.drift := by
  have hn : (smcPrune smc).npages = smc.npages :=
    prune_inv (fun s => s.npages = smc.npages) rfl fun i s hs => by
      unfold pruneRound
      split
      · exact hs
      · exact hs
  have hc : (smcPrune smc).liveCount = smc.liveCount := by
    rw [liveCount_eq, prune_livePages h, liveCount_eq]
  rw [SmCache.drift, hn, hc, SmCache.drift]

theorem drift_smcInit (h : smc.Shape) (pid : Nat) : (smcInitialize smc pid).drift = smc.drift := by
  have hr := h.initRounds pid smc.npMax.toNat
  show (smcPrune _).drift = smc.drift
  rw [drift_prune hr, drift_initRounds smc pid _ (by rw [h.npMax]; simp)]

/-- `smcReset` detaches every slot below `top`. -/
theorem drift_reset (h : smc.Shape) (pid : Nat) :
    (smcReset smc pid).drift =
      smc.drift + (cells smc.pdata smc.top.toNat).countP fun p => !p.live := by
  have hb := h.bound
  refine (Loop.foldl_range_inv (n := smc.top.toNat) (fun k (s : SmCache) =>
    (∀ j, k ≤ j → s.pdata j = smc.pdata j) ∧
      s.drift = smc.drift + (cells smc.pdata k).countP fun p => !p.live) ?_ fun i s hi hs => ?_).2
  · exact ⟨fun _ _ => rfl, by simp [cells]⟩
  · obtain ⟨hp, hd⟩ := hs
    refine ⟨fun j hj => ?_, ?_⟩
    · rw [detach_pdata, update_of_ne (by omega), hp j (by omega)]
    · rw [drift_detach s pid (by omega), hd, hp i (Nat.le_refl i), cells_succ, List.countP_append,
        List.countP_singleton]
      cases (smc.pdata i).live <;> simp [Int.add_assoc]

/-- `smcDelExpID` detaches every slot below `top` that matches. -/
theorem drift_delExpID (h : smc.Shape) (pid : Nat) (e : ExpID) (pp : Option String) :
    (smcDelExpID smc pid e pp).drift =
      smc.drift + (cells smc.pdata smc.top.toNat).countP fun p => p.matches e pp && !p.live := by
  have hb := h.bound
  have hloop : ∀ k ≤ smc.top.toNat, ((List.range k).foldl (delRound pid e pp) smc).drift =
      smc.drift + (cells smc.pdata k).countP fun p => p.matches e pp && !p.live := by
    intro k hk
    induction k with
    | zero => simp [cells]
    | succ k ih =>
      have ih := ih (by omega)
      obtain ⟨hp, ht⟩ := delRounds_inv smc pid e pp k (by omega)
      rw [List.range_succ, List.foldl_append, List.foldl_cons, List.foldl_nil, cells_succ,
        List.countP_append, List.countP_singleton]
      generalize (List.range k).foldl (delRound pid e pp) smc = s at hp ht ih
      have ht := ht (by omega)
      have hpk : s.pdata k = smc.pdata k := by rw [hp, if_neg (by omega)]
      unfold delRound
      by_cases hm : (smc.pdata k).matches e pp = true
      · have hset : (s.setPage k { s.pdata k with acLocked := false }).drift = s.drift :=
          drift_congr rfl (setPage_live s rfl)
        have hlive := setPage_live (i := k) s (p := { s.pdata k with acLocked := false }) rfl k
        rw [if_pos ⟨by omega, hpk ▸ hm⟩, drift_detach _ pid (by omega), hset, hlive, hpk, ih, hm]
        cases (smc.pdata k).live <;> simp [Int.add_assoc]
      · rw [if_neg fun hc => hm (hpk ▸ hc.2), ih]
        simp [hm]
  exact hloop _ (Nat.le_refl _)

end Drift

/-! ## Runs -/

/-- A call adds to the drift exactly if it detaches a void. -/
theorem SmCache.Shape.drift_step {smc smc' : SmCache} (h : smc.Shape) {op : SmcOp}
    (hst : smc.step op = some smc') :
    smc.drift ≤ smc'.drift ∧ (smc'.drift = smc.drift ↔ op.Ok smc) := by
  have h0 := h.nonneg
  cases op with
  | getPage type size attach lock env =>
    obtain ⟨⟨s, r⟩, hg, rfl⟩ := Option.map_eq_some_iff.mp hst
    exact ⟨(drift_getPage h hg).ge, iff_of_true (drift_getPage h hg) trivial⟩
  | detach pid i free =>
    cases hst
    cases free with
    | true =>
      rw [drift_detach smc pid i.isLt]
      simp only [SmcOp.Ok, true_imp_iff]
      split
      · rename_i hl
        exact ⟨by omega, iff_of_true (by omega) hl⟩
      · rename_i hl
        exact ⟨by omega, iff_of_false (by omega) hl⟩
    | false =>
      have hd : (smcDetach smc pid i false).drift = smc.drift :=
        drift_congr rfl (setPage_live smc (by split <;> rfl))
      exact ⟨hd.ge, iff_of_true hd fun hc => nomatch hc⟩
  | delExpID pid e pp =>
    cases hst
    rw [drift_delExpID h]
    refine ⟨by omega, ?_⟩
    have hzero : smc.drift + ((cells smc.pdata smc.top.toNat).countP fun p =>
        p.matches e pp && !p.live : Nat) = smc.drift ↔
        (cells smc.pdata smc.top.toNat).countP (fun p => p.matches e pp && !p.live) = 0 := by omega
    rw [hzero, List.countP_eq_zero]
    simp only [mem_cells, forall_exists_index, and_imp, forall_apply_eq_imp_iff₂, Bool.and_eq_true,
      Bool.not_eq_true', not_and, Bool.not_eq_false, SmcOp.Ok]
    exact forall_congr' fun i => imp_congr_left (by omega)
  | reset pid =>
    cases hst
    rw [drift_reset h]
    refine ⟨by omega, ?_⟩
    have hzero : smc.drift + ((cells smc.pdata smc.top.toNat).countP fun p => !p.live : Nat) =
        smc.drift ↔ (cells smc.pdata smc.top.toNat).countP (fun p => !p.live) = 0 := by omega
    rw [hzero, List.countP_eq_zero]
    simp only [mem_cells, forall_exists_index, and_imp, forall_apply_eq_imp_iff₂,
      Bool.not_eq_true', Bool.not_eq_false, SmcOp.Ok]
    exact forall_congr' fun i => imp_congr_left (by omega)
  | smcInit pid =>
    cases hst
    exact ⟨(drift_smcInit h pid).ge, iff_of_true (drift_smcInit h pid) trivial⟩
  | prune =>
    cases hst
    exact ⟨(drift_prune h).ge, iff_of_true (drift_prune h) trivial⟩
  | setExpID i e =>
    cases hst
    have hd : (smc.setPage i { smc.pdata i with expID := e }).drift = smc.drift :=
      drift_congr rfl (setPage_live smc rfl)
    exact ⟨hd.ge, iff_of_true hd trivial⟩
  | setColID i c =>
    cases hst
    have hd : (smc.setPage i { smc.pdata i with colID := c }).drift = smc.drift :=
      drift_congr rfl (setPage_live smc rfl)
    exact ⟨hd.ge, iff_of_true hd trivial⟩

/-- While the count is right, a slot for a new page is inside the array. -/
theorem SmCache.Shape.step_some {smc : SmCache} (h : smc.Shape) (hd : smc.drift = 0) (op : SmcOp) :
    ∃ smc', smc.step op = some smc' := by
  cases op with
  | getPage type size attach lock env =>
    simp only [SmCache.step, smcGetPage]
    split
    · exact ⟨_, rfl⟩
    · split
      · exact ⟨_, rfl⟩
      · rename_i hnp
        obtain ⟨i, hi, hle, -, hall⟩ := findSlot_spec h
        have hb := h.bound
        have hmax := h.npMax
        have hlt : i < maxSegs := by
          by_contra hge
          -- all of the slots are live, so `npages` is at its limit
          have hfull : smc.liveCount = maxSegs := by
            have hi' : i = maxSegs := by omega
            have hall := hall (by omega)
            rw [SmCache.liveCount, List.countP_eq_length.mpr, cells_length]
            intro p hp
            obtain ⟨j, hj, rfl⟩ := mem_cells.mp hp
            exact hall j (by omega)
          unfold SmCache.drift at hd
          omega
        rw [hi, if_pos ⟨by omega, by omega⟩]
        exact ⟨_, rfl⟩
  | _ => exact ⟨_, rfl⟩

/-- `npages` is the number of live slots, and the table is inside its bounds, along a run exactly if
no call of the run detaches a void. -/
theorem accounted_iff (cachePath : String) (segHdr : Int) (memAllocated memAvail : BitVec 32)
    (ops : List SmcOp) :
    Always SmCache.Accounted SmCache.step (SmCache.start cachePath segHdr memAllocated memAvail) ops ↔
      Steps (fun smc op => op.Ok smc) SmCache.step
        (SmCache.start cachePath segHdr memAllocated memAvail) ops := by
  refine always_iff_steps (I := fun smc : SmCache => smc.Shape ∧ smc.drift = 0)
    (fun smc h => h.1.accounted_iff_drift.mpr h.2) (fun smc op h hok => ?_)
    (fun smc op smc' h hok hst ha => ?_) ⟨SmCache.Shape.start _ _ _ _, ?_⟩
  · obtain ⟨smc', hst⟩ := h.1.step_some h.2 op
    exact ⟨smc', hst, h.1.step hst, ((h.1.drift_step hst).2.mpr hok).trans h.2⟩
  · have hd := ((h.1.step hst).accounted_iff_drift.mp ha).trans h.2.symm
    exact hok ((h.1.drift_step hst).2.mp hd)
  · have hzero : (cells (fun _ => ({} : SmcPage)) maxSegs).countP SmcPage.live = 0 := by
      rw [List.countP_eq_zero]
      intro p hp
      obtain ⟨j, -, rfl⟩ := mem_cells.mp hp
      simp [SmcPage.live]
    simp only [SmCache.drift, SmCache.liveCount, SmCache.start, hzero]
    rfl

/-- Two pages, the first is freed, then the cache is reset: the void is counted down a second time. -/
theorem accounted_fails_reset_void :
    ¬ Always SmCache.Accounted SmCache.step (SmCache.start "/tmp/.smc" 200 0 0)
      [.getPage 2 1000 true true ⟨100, 0, true, true, 17, true⟩,
       .getPage 2 1000 true true ⟨100, 1, true, true, 18, true⟩,
       .detach 100 ⟨0, by decide⟩ true, .reset 100] := by
  intro h
  obtain ⟨smc, hs, ha⟩ := h.last
  have hrun : (run SmCache.step (SmCache.start "/tmp/.smc" 200 0 0)
      [.getPage 2 1000 true true ⟨100, 0, true, true, 17, true⟩,
       .getPage 2 1000 true true ⟨100, 1, true, true, 18, true⟩,
       .detach 100 ⟨0, by decide⟩ true, .reset 100]).map SmCache.npages = some (-1) := by decide +kernel
  rw [hs] at hrun
  have hn := ha.nonneg
  rw [Option.some.inj hrun] at hn
  exact absurd hn (by decide)

end Ndhs
