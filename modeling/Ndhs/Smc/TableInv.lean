import Ndhs.Lib.Loop
import Ndhs.Smc.Table

/-!
# What every call keeps of the page table

* `SmCache.Shape`: the live slots are below `top`, which is inside the array, and a live slot is not
  marked free. Every call keeps it, whatever happened to `npages` (`Shape.step`).
* `openPage_spec`, `smcDetach_spec` and one lemma for each loop: what a call does to the slots.
* `live_pages_kept`: no live page is overwritten or lost.
-/

namespace Ndhs

open Function Machine Cells

/-- The live slots are below `top` and not free. -/
structure SmCache.Shape (smc : SmCache) : Prop where
  npMax : smc.npMax = maxSegs
  nonneg : 0 ≤ smc.top
  bound : smc.top ≤ maxSegs
  below : ∀ i, (smc.pdata i).live = true → (i : Int) < smc.top
  owned : ∀ i, (smc.pdata i).live = true → (smc.pdata i).free = false

theorem SmCache.Shape.start (cachePath : String) (segHdr : Int) (memAllocated memAvail : BitVec 32) :
    (SmCache.start cachePath segHdr memAllocated memAvail).Shape :=
  ⟨rfl, Int.le_refl 0, (by decide : (0 : Int) ≤ maxSegs), (fun _ h => nomatch h),
    fun _ h => nomatch h⟩

theorem live_iff {p : SmcPage} : p.live = true ↔ p.memKey ≠ 0 := by simp [SmcPage.live]

theorem live_eq_false {p : SmcPage} : p.live = false ↔ p.memKey = 0 := by simp [SmcPage.live]

/-! ## `smcGetPage` -/

section GetPage

variable {smc smc' : SmCache} {pnum : Nat} {type size : Int} {attach lock : Bool} {env : GetEnv}
  {r : GetResult}

/-- What `smcGetPage` does to the slot it found: a page is set up there and counted, or it fails and
the slot is void. -/
theorem openPage_spec (h : smc.openPage pnum type size attach lock env = (smc', r)) :
    (∀ j, j ≠ pnum → smc'.pdata j = smc.pdata j) ∧ smc'.npMax = smc.npMax ∧
    smc'.cachePath = smc.cachePath ∧
    (((smc'.pdata pnum).live = false ∧ smc'.npages = smc.npages ∧ smc'.top = smc.top ∧ r = .null) ∨
      ((smc'.pdata pnum).live = true ∧ (smc'.pdata pnum).free = false ∧
        smc'.npages = smc.npages + 1 ∧
        smc'.top = (if (pnum : Int) = smc.top then smc.top + 1 else smc.top) ∧
        (r = .page pnum ∨ r = .crash) ∧
        (env.fopen = true → (smc'.pdata pnum).lockFile = lockName smc.cachePath pnum ∧
          (smc'.pdata pnum).memKey = env.ftok))) := by
  unfold SmCache.openPage at h
  simp only at h
  by_cases hc : env.calloc = true
  · simp only [hc, Bool.not_true, Bool.false_eq_true, if_false] at h
    split at h
    · rename_i hk
      cases h
      refine ⟨fun j hj => ?_, rfl, rfl, .inl ⟨?_, rfl, rfl, rfl⟩⟩
      · simp [SmCache.setPage, hj]
      · simpa [SmCache.setPage, SmcPage.live] using hk
    · rename_i hk
      have hlock : env.fopen = true →
          (smUtilInitSegment (newPage smc pnum type size env).lockFile env).2 =
              lockName smc.cachePath pnum ∧
            (smUtilInitSegment (newPage smc pnum type size env).lockFile env).1 = env.ftok := by
        intro hf
        simp [smUtilInitSegment, hf, newPage]
      split at h
      · cases h
        refine ⟨fun j hj => ?_, rfl, rfl, .inr ⟨?_, ?_, rfl, rfl, .inr rfl, fun hf => ?_⟩⟩
        · simp [SmCache.setPage, hj]
        · simpa [SmCache.setPage, SmcPage.live] using hk
        · simp [SmCache.setPage, newPage]
        · simpa [SmCache.setPage] using hlock hf
      · cases h
        refine ⟨fun j hj => ?_, rfl, rfl, .inr ⟨?_, ?_, rfl, rfl, .inl rfl, fun hf => ?_⟩⟩
        · simp [SmCache.setPage, hj]
        · simpa [SmCache.setPage, SmcPage.live] using hk
        · simp [SmCache.setPage]
        · simpa [SmCache.setPage] using hlock hf
  · simp only [hc, Bool.not_false, if_true] at h
    cases h
    refine ⟨fun j hj => ?_, rfl, rfl, .inl ⟨?_, rfl, rfl, rfl⟩⟩
    · simp [SmCache.setPage, hj]
    · simp [SmCache.setPage, newPage, SmcPage.live]

/-- The search ends at a void slot; it ends at `top` only if every slot below is live. -/
theorem findSlot_spec (h : smc.Shape) :
    ∃ i : Nat, smc.findSlot = i ∧ (i : Int) ≤ smc.top ∧ (smc.pdata i).live = false ∧
      ((i : Int) = smc.top → ∀ j < i, (smc.pdata j).live = true) := by
  have htop := h.nonneg
  unfold SmCache.findSlot
  split
  · rename_i i hf
    obtain ⟨hi, hlt, -⟩ := List.find?_range_eq_some.mp hf
    rw [List.mem_range] at hlt
    refine ⟨i, rfl, by omega, ?_, fun heq => by omega⟩
    rw [Bool.eq_false_iff]
    intro hl
    have hk := live_iff.mp hl
    simp [hk, h.owned i hl] at hi
  · rename_i hf
    rw [List.find?_eq_none] at hf
    refine ⟨smc.top.toNat, by omega, by omega, ?_, fun _ j hj => ?_⟩
    · rw [Bool.eq_false_iff]
      intro hl
      have := h.below _ hl
      omega
    · have := hf j (List.mem_range.mpr hj)
      rw [live_iff]
      simp only [Bool.or_eq_true, not_or, beq_iff_eq] at this
      exact this.1

/-- `smcGetPage` does nothing, or it works on a void slot of the array. -/
theorem smcGetPage_spec (h : smc.Shape)
    (hg : smcGetPage smc type size attach lock env = some (smc', r)) :
    (smc' = smc ∧ r = .null) ∨
    ∃ pnum : Nat, smc.findSlot = pnum ∧ pnum < maxSegs ∧ (pnum : Int) ≤ smc.top ∧
      smc.npages < smc.npMax ∧ (smc.pdata pnum).live = false ∧
      smc.openPage pnum type size attach lock env = (smc', r) := by
  unfold smcGetPage at hg
  split at hg
  · cases hg; exact .inl ⟨rfl, rfl⟩
  · split at hg
    · cases hg; exact .inl ⟨rfl, rfl⟩
    · rename_i hnp
      obtain ⟨i, hi, hle, hv, -⟩ := findSlot_spec h
      simp only [hi] at hg
      obtain ⟨hb, hg⟩ := Option.ite_none_right_eq_some.mp hg
      rw [Int.toNat_natCast] at hg
      exact .inr ⟨i, hi, by omega, hle, by omega, hv, Option.some.inj hg⟩

theorem SmCache.Shape.getPage (h : smc.Shape)
    (hg : smcGetPage smc type size attach lock env = some (smc', r)) : smc'.Shape := by
  obtain ⟨rfl, -⟩ | ⟨pnum, -, hlt, hle, -, hv, ho⟩ := smcGetPage_spec h hg
  · exact h
  · have h0 := h.nonneg
    have hb := h.bound
    obtain ⟨hother, hmax, -, ⟨hl, -, htop, -⟩ | ⟨hl, hfree, -, htop, -⟩⟩ := openPage_spec ho
    · refine ⟨hmax.trans h.npMax, htop ▸ h0, htop ▸ hb, fun i hi => ?_, fun i hi => ?_⟩
      · have hne : i ≠ pnum := by rintro rfl; rw [hl] at hi; cases hi
        rw [hother i hne] at hi
        exact htop ▸ h.below i hi
      · have hne : i ≠ pnum := by rintro rfl; rw [hl] at hi; cases hi
        rw [hother i hne] at hi ⊢
        exact h.owned i hi
    · refine ⟨hmax.trans h.npMax, ?_, ?_, fun i hi => ?_, fun i hi => ?_⟩
      · rw [htop]; split <;> omega
      · rw [htop]; split <;> omega
      · rw [htop]
        by_cases hne : i = pnum
        · subst hne; split <;> omega
        · rw [hother i hne] at hi
          have := h.below i hi
          split <;> omega
      · by_cases hne : i = pnum
        · subst hne; exact hfree
        · rw [hother i hne] at hi ⊢
          exact h.owned i hi

end GetPage

/-! ## `smcDetach` and the loops over it -/

section Detach

variable {smc smc' : SmCache} {pid i : Nat}

/-- The slot after `smcDetach` with free. -/
def freedPage : SmcPage := { free := true }

@[simp] theorem freedPage_live : freedPage.live = false := rfl

theorem detach_pdata (smc : SmCache) (pid i : Nat) :
    (smcDetach smc pid i true).pdata = update smc.pdata i freedPage := rfl

@[simp] theorem detach_npages (smc : SmCache) (pid i : Nat) :
    (smcDetach smc pid i true).npages = smc.npages - 1 := rfl

theorem detach_top (smc : SmCache) (pid i : Nat) :
    (smcDetach smc pid i true).top = if (i : Int) = smc.top - 1 then smc.top - 1 else smc.top := rfl

theorem SmCache.Shape.detach (h : smc.Shape) (pid i : Nat) : (smcDetach smc pid i true).Shape := by
  have h0 := h.nonneg
  have hb := h.bound
  have hother : ∀ j, ((smcDetach smc pid i true).pdata j).live = true →
      j ≠ i ∧ (smcDetach smc pid i true).pdata j = smc.pdata j := by
    intro j hj
    have hne : j ≠ i := by
      rintro rfl
      rw [detach_pdata, update_self] at hj
      cases hj
    exact ⟨hne, by rw [detach_pdata, update_of_ne hne]⟩
  refine ⟨h.npMax, ?_, ?_, fun j hj => ?_, fun j hj => ?_⟩
  · rw [detach_top]; split <;> omega
  · rw [detach_top]; split <;> omega
  · obtain ⟨hne, he⟩ := hother j hj
    rw [he] at hj
    have := h.below j hj
    rw [detach_top]; split <;> omega
  · obtain ⟨-, he⟩ := hother j hj
    rw [he] at hj ⊢
    exact h.owned j hj

/-- A slot is written, but its page is the same one. -/
theorem SmCache.Shape.setPage (h : smc.Shape) (i : Nat) {p : SmcPage}
    (hk : p.memKey = (smc.pdata i).memKey) (hf : p.free = (smc.pdata i).free) :
    (smc.setPage i p).Shape := by
  have hlive : ∀ j, ((smc.setPage i p).pdata j).live = (smc.pdata j).live ∧
      ((smc.setPage i p).pdata j).free = (smc.pdata j).free := by
    intro j
    by_cases hj : j = i
    · subst hj
      simp [SmCache.setPage, SmcPage.live, hk, hf]
    · simp [SmCache.setPage, hj]
  refine ⟨h.npMax, h.nonneg, h.bound, fun j hj => ?_, fun j hj => ?_⟩
  · rw [(hlive j).1] at hj
    exact h.below j hj
  · rw [(hlive j).1] at hj
    rw [(hlive j).2]
    exact h.owned j hj

theorem SmCache.Shape.reset (h : smc.Shape) (pid : Nat) : (smcReset smc pid).Shape :=
  Loop.foldl_range_inv (fun _ (s : SmCache) => s.Shape) h fun i _ _ hs => hs.detach pid i

theorem SmCache.Shape.delExpID (h : smc.Shape) (pid : Nat) (e : ExpID) (pp : Option String) :
    (smcDelExpID smc pid e pp).Shape := by
  refine Loop.foldl_range_inv (fun _ (s : SmCache) => s.Shape) h fun i s _ hs => ?_
  unfold delRound
  split
  · refine SmCache.Shape.detach (hs.setPage i ?_ ?_) pid i <;> rfl
  · exact hs

theorem SmCache.Shape.initRounds (h : smc.Shape) (pid n : Nat) :
    ((List.range n).foldl (initializeRound pid) smc).Shape := by
  refine Loop.foldl_range_inv (fun _ (s : SmCache) => s.Shape) h fun i s _ hs => ?_
  unfold initializeRound
  split
  · exact hs
  · refine (hs.detach pid i).setPage i ?_ ?_ <;> simp [detach_pdata, freedPage]

/-- `smcReset` writes the slots below `top`, and those only. -/
theorem reset_pdata (smc : SmCache) (pid j : Nat) :
    (smcReset smc pid).pdata j = if j < smc.top.toNat then freedPage else smc.pdata j := by
  refine Loop.foldl_range_inv (n := smc.top.toNat)
    (fun k (s : SmCache) => s.pdata j = if j < k then freedPage else smc.pdata j) rfl fun i s _ hs => ?_
  rw [detach_pdata]
  by_cases hj : j = i
  · subst hj; simp
  · rw [update_of_ne hj, hs]
    exact if_congr (by omega) rfl rfl

/-- The loop of `smcInitialize` frees the live slots. -/
theorem initRounds_pdata (smc : SmCache) (pid n j : Nat) :
    ((List.range n).foldl (initializeRound pid) smc).pdata j =
      if j < n ∧ (smc.pdata j).live = true then freedPage else smc.pdata j := by
  refine Loop.foldl_range_inv (n := n) (fun k (s : SmCache) => s.pdata j =
    if j < k ∧ (smc.pdata j).live = true then freedPage else smc.pdata j) ?_ fun i s _ hs => ?_
  · simp
  · unfold initializeRound
    by_cases hj : j = i
    · subst hj
      rw [if_neg (by omega)] at hs
      rw [hs]
      split
      · rename_i hk
        rw [hs, if_neg]
        rintro ⟨-, hl⟩
        exact live_iff.mp hl hk
      · rename_i hk
        rw [if_pos ⟨Nat.lt_succ_self j, live_iff.mpr hk⟩]
        simp [smcFreePage, SmCache.setPage, freedPage]
    · have hif : (if j < i + 1 ∧ (smc.pdata j).live = true then freedPage else smc.pdata j) =
          if j < i ∧ (smc.pdata j).live = true then freedPage else smc.pdata j :=
        if_congr (by constructor <;> rintro ⟨h1, h2⟩ <;> exact ⟨by omega, h2⟩) rfl rfl
      rw [hif, ← hs]
      split
      · rfl
      · simp [smcFreePage, SmCache.setPage, detach_pdata, hj]

/-- `smcDelExpID` reaches every slot below `top`: only the last round lowers `top`. -/
theorem delRounds_inv (smc : SmCache) (pid : Nat) (e : ExpID) (pp : Option String) (k : Nat)
    (hk : k ≤ smc.top.toNat) :
    let s := (List.range k).foldl (delRound pid e pp) smc
    (∀ j, s.pdata j = if j < k ∧ (smc.pdata j).matches e pp = true then freedPage
      else smc.pdata j) ∧ (k < smc.top.toNat → s.top = smc.top) := by
  induction k with
  | zero => exact ⟨fun j => by simp, fun _ => rfl⟩
  | succ k ih =>
    obtain ⟨hp, ht⟩ := ih (by omega)
    have ht := ht (by omega)
    rw [List.range_succ, List.foldl_append, List.foldl_cons, List.foldl_nil]
    set s := (List.range k).foldl (delRound pid e pp) smc
    have hpk : s.pdata k = smc.pdata k := by rw [hp, if_neg (by omega)]
    have hlt : (k : Int) < s.top := by omega
    unfold delRound
    by_cases hm : (smc.pdata k).matches e pp = true
    · rw [if_pos ⟨hlt, hpk ▸ hm⟩]
      refine ⟨fun j => ?_, fun hlt' => ?_⟩
      · rw [detach_pdata]
        by_cases hj : j = k
        · subst hj
          rw [update_self, if_pos ⟨Nat.lt_succ_self j, hm⟩]
        · rw [update_of_ne hj]
          simp only [SmCache.setPage, update_of_ne hj, hp]
          exact if_congr (by constructor <;> rintro ⟨h1, h2⟩ <;> exact ⟨by omega, h2⟩) rfl rfl
      · rw [detach_top]
        show (if (k : Int) = s.top - 1 then s.top - 1 else s.top) = smc.top
        rw [if_neg (by omega), ht]
    · rw [if_neg fun hc => hm (hpk ▸ hc.2)]
      refine ⟨fun j => ?_, fun _ => ht⟩
      rw [hp]
      by_cases hj : j = k
      · subst hj
        rw [if_neg (by omega), if_neg fun hc => hm hc.2]
      · exact if_congr (by constructor <;> rintro ⟨h1, h2⟩ <;> exact ⟨by omega, h2⟩) rfl rfl

theorem delExpID_pdata (smc : SmCache) (pid : Nat) (e : ExpID) (pp : Option String) (j : Nat) :
    (smcDelExpID smc pid e pp).pdata j =
      if j < smc.top.toNat ∧ (smc.pdata j).matches e pp = true then freedPage else smc.pdata j :=
  (delRounds_inv smc pid e pp _ (Nat.le_refl _)).1 j

end Detach

/-! ## `smcPrune` -/

section Prune

variable {smc : SmCache}

/-- A round that closes a void. -/
theorem pruneRound_pdata {i : Nat} (hi : (i : Int) < smc.top) (hk : (smc.pdata i).memKey = 0)
    (j : Nat) :
    (pruneRound smc i).pdata j =
      if j < i then smc.pdata j
      else if j + 1 < smc.top.toNat then smc.pdata (j + 1)
      else if j + 1 = smc.top.toNat then {} else smc.pdata j := by
  rw [pruneRound, if_pos ⟨hi, hk⟩]
  exact shiftDown_apply _ (by omega) j

theorem SmCache.Shape.pruneRound (h : smc.Shape) (i : Nat) : (pruneRound smc i).Shape := by
  have hb := h.bound
  by_cases hc : (i : Int) < smc.top ∧ (smc.pdata i).memKey = 0
  · have htop : (Ndhs.pruneRound smc i).top = smc.top - 1 := by
      rw [Ndhs.pruneRound, if_pos hc]
    have hmax : (Ndhs.pruneRound smc i).npMax = smc.npMax := by
      rw [Ndhs.pruneRound, if_pos hc]
    have hp := pruneRound_pdata hc.1 hc.2
    -- where a live slot of the new table comes from
    have hfrom : ∀ j, ((Ndhs.pruneRound smc i).pdata j).live = true →
        (j : Int) < smc.top - 1 ∧ ∃ k, (Ndhs.pruneRound smc i).pdata j = smc.pdata k := by
      intro j hj
      rw [hp] at hj ⊢
      split at hj
      · rename_i hlt
        exact ⟨by omega, j, if_pos hlt⟩
      · rename_i hlt
        rw [if_neg hlt]
        split at hj
        · rename_i hlt'
          exact ⟨by omega, j + 1, if_pos hlt'⟩
        · rename_i hlt'
          rw [if_neg hlt']
          split at hj
          · cases hj
          · rename_i hlast
            have := h.below j hj
            omega
    refine ⟨hmax.trans h.npMax, ?_, ?_, fun j hj => ?_, fun j hj => ?_⟩
    · rw [htop]; omega
    · rw [htop]; omega
    · rw [htop]; exact (hfrom j hj).1
    · obtain ⟨-, k, hk⟩ := hfrom j hj
      rw [hk] at hj ⊢
      exact h.owned k hj
  · rw [Ndhs.pruneRound, if_neg hc]
    exact h

/-- A round keeps the live pages, in their order. -/
theorem pruneRound_livePages (h : smc.Shape) (i : Nat) :
    (pruneRound smc i).livePages = smc.livePages := by
  have h0 := h.nonneg
  have hb := h.bound
  unfold pruneRound
  split
  · rename_i hc
    exact filter_cells_shiftDown (by omega) (by omega) (live_eq_false.mpr hc.2) rfl
  · rfl

/-- The rounds of `smcPrune` keep what each of them keeps. -/
theorem prune_inv (I : SmCache → Prop) (h0 : I { smc with
      npHiwater := if smc.npHiwater < smc.top then smc.top else smc.npHiwater })
    (hs : ∀ i s, I s → I (pruneRound s i)) : I (smcPrune smc) :=
  Loop.foldl_range_inv (fun _ s => I s) h0 fun i s _ hI => hs i s hI

theorem SmCache.Shape.prune (h : smc.Shape) : (smcPrune smc).Shape :=
  prune_inv SmCache.Shape ⟨h.npMax, h.nonneg, h.bound, h.below, h.owned⟩
    fun i _ hs => hs.pruneRound i

theorem prune_livePages (h : smc.Shape) : (smcPrune smc).livePages = smc.livePages :=
  (prune_inv (fun s => s.Shape ∧ s.livePages = smc.livePages)
    ⟨⟨h.npMax, h.nonneg, h.bound, h.below, h.owned⟩, rfl⟩
    fun i _ hs => ⟨hs.1.pruneRound i, (pruneRound_livePages hs.1 i).trans hs.2⟩).2

theorem SmCache.Shape.smcInit (h : smc.Shape) (pid : Nat) : (smcInitialize smc pid).Shape := by
  have hp := (h.initRounds pid smc.npMax.toNat).prune
  exact ⟨hp.npMax, hp.nonneg, hp.bound, hp.below, hp.owned⟩

/-- `smcInitialize` leaves no live page. -/
theorem smcInit_livePages (h : smc.Shape) (pid : Nat) :
    (smcInitialize smc pid).livePages = [] := by
  have hr := h.initRounds pid smc.npMax.toNat
  show (smcPrune _).livePages = []
  rw [prune_livePages hr, SmCache.livePages, List.filter_eq_nil_iff]
  intro p hp
  obtain ⟨j, hj, rfl⟩ := mem_cells.mp hp
  rw [initRounds_pdata, h.npMax]
  split
  · simp
  · rename_i hc
    exact fun hl => hc ⟨by simpa using hj, hl⟩

end Prune

/-- Every call keeps the shape of the table. -/
theorem SmCache.Shape.step {smc smc' : SmCache} (h : smc.Shape) {op : SmcOp}
    (hst : smc.step op = some smc') : smc'.Shape := by
  cases op with
  | getPage type size attach lock env =>
    obtain ⟨⟨s, r⟩, hg, rfl⟩ := Option.map_eq_some_iff.mp hst
    exact h.getPage hg
  | detach pid i free =>
    cases hst
    cases free with
    | true => exact h.detach pid i
    | false =>
      refine h.setPage i ?_ ?_ <;> split <;> rfl
  | delExpID pid e pp => cases hst; exact h.delExpID pid e pp
  | reset pid => cases hst; exact h.reset pid
  | smcInit pid => cases hst; exact h.smcInit pid
  | prune => cases hst; exact h.prune
  | setExpID i e => cases hst; exact h.setPage i rfl rfl
  | setColID i c => cases hst; exact h.setPage i rfl rfl

theorem SmCache.Shape.of_reach {cachePath : String} {segHdr : Int}
    {memAllocated memAvail : BitVec 32} {smc : SmCache}
    (h : Reach SmCache.step (SmCache.start cachePath segHdr memAllocated memAvail) smc) :
    smc.Shape :=
  Reach.inv (fun _ _ _ hs hst => hs.step hst) (SmCache.Shape.start _ _ _ _) h

/-! ## Live pages -/

/-- What makes a page this page: the members that no call changes while it is in the table. -/
def SmcPage.ident (p : SmcPage) : Int × String × BitVec 32 × Int × Rat × Nat :=
  (p.memKey, p.lockFile, p.size, p.type, p.ctime, p.cpid)

/-- The call frees the page in slot `j`. -/
def SmcOp.Frees (smc : SmCache) (j : Nat) : SmcOp → Prop
  | .detach _ i free => free = true ∧ (i : Nat) = j
  | .delExpID _ expID procPages => (smc.pdata j).matches expID procPages = true
  | .reset _ | .smcInit _ => True
  | _ => False

/-- Writing members that are not part of what makes the page this page. -/
theorem setPage_ident (smc : SmCache) (i j : Nat) {p : SmcPage}
    (h : p.ident = (smc.pdata i).ident) :
    ((smc.setPage i p).pdata j).ident = (smc.pdata j).ident := by
  by_cases hj : j = i
  · subst hj; simpa [SmCache.setPage] using h
  · simp [SmCache.setPage, hj]

/-- A live page that a call does not free is still in the table, in its slot unless the call is
`smcPrune`. -/
theorem SmCache.Shape.page_kept {smc smc' : SmCache} (h : smc.Shape) {op : SmcOp}
    (hst : smc.step op = some smc') {j : Nat} (hl : (smc.pdata j).live = true)
    (hf : ¬ op.Frees smc j) :
    ∃ k, (op ≠ .prune → k = j) ∧ (smc'.pdata k).ident = (smc.pdata j).ident := by
  have hlt := h.below j hl
  have hb := h.bound
  cases op with
  | getPage type size attach lock env =>
    obtain ⟨⟨s, r⟩, hg, rfl⟩ := Option.map_eq_some_iff.mp hst
    obtain ⟨rfl, -⟩ | ⟨pnum, -, -, -, -, hv, ho⟩ := smcGetPage_spec h hg
    · exact ⟨j, fun _ => rfl, rfl⟩
    · have hne : j ≠ pnum := by rintro rfl; rw [hv] at hl; cases hl
      exact ⟨j, fun _ => rfl, by rw [(openPage_spec ho).1 j hne]⟩
  | detach pid i free =>
    cases hst
    refine ⟨j, fun _ => rfl, ?_⟩
    cases free with
    | true => rw [detach_pdata, update_of_ne fun he => hf ⟨rfl, he.symm⟩]
    | false => refine setPage_ident smc i j ?_; split <;> rfl
  | delExpID pid e pp =>
    cases hst
    exact ⟨j, fun _ => rfl, by rw [delExpID_pdata, if_neg fun hc => hf hc.2]⟩
  | reset pid => exact absurd trivial hf
  | smcInit pid => exact absurd trivial hf
  | prune =>
    cases hst
    have hmem : smc.pdata j ∈ smc.livePages :=
      List.mem_filter.mpr ⟨mem_cells.mpr ⟨j, by omega, rfl⟩, hl⟩
    rw [← prune_livePages h] at hmem
    obtain ⟨k, -, hk⟩ := mem_cells.mp (List.mem_filter.mp hmem).1
    exact ⟨k, fun hc => absurd rfl hc, by rw [hk]⟩
  | setExpID i e => cases hst; exact ⟨j, fun _ => rfl, setPage_ident smc i j rfl⟩
  | setColID i c => cases hst; exact ⟨j, fun _ => rfl, setPage_ident smc i j rfl⟩

/-- In every reachable table: a successful `smcGetPage` sets up a slot that was not live and touches
no other slot, `smcPrune` keeps the list of live pages, and a page leaves the table only through
a call that frees it. -/
theorem live_pages_kept (cachePath : String) (segHdr : Int) (memAllocated memAvail : BitVec 32)
    (smc : SmCache)
    (h : Reach SmCache.step (SmCache.start cachePath segHdr memAllocated memAvail) smc) :
    (∀ type size attach lock env smc' pnum,
      smcGetPage smc type size attach lock env = some (smc', .page pnum) →
        (smc.pdata pnum).live = false ∧ (smc'.pdata pnum).live = true ∧
          ∀ j, j ≠ pnum → smc'.pdata j = smc.pdata j) ∧
    (smcPrune smc).livePages = smc.livePages ∧
    (∀ op smc' j, smc.step op = some smc' → (smc.pdata j).live = true → ¬ op.Frees smc j →
      ∃ k, (op ≠ .prune → k = j) ∧ (smc'.pdata k).ident = (smc.pdata j).ident) := by
  have hs := SmCache.Shape.of_reach h
  refine ⟨fun type size attach lock env smc' pnum hg => ?_, prune_livePages hs,
    fun op smc' j hst hl hf => hs.page_kept hst hl hf⟩
  obtain ⟨-, hr⟩ | ⟨i, -, -, -, -, hv, ho⟩ := smcGetPage_spec hs hg
  · cases hr
  · obtain ⟨hother, -, -, ⟨-, -, -, hr⟩ | ⟨hl, -, -, -, hr, -⟩⟩ := openPage_spec ho
    · cases hr
    · obtain hr | hr := hr <;> cases hr
      exact ⟨hv, hl, hother⟩

/-- A table with three pages, of which the second one was freed: the others are kept, whether it is pruned or a new page
is put into the free slot. -/
theorem live_pages_kept_two :
    ∃ smc, Reach SmCache.step (SmCache.start "/tmp/.smc" 200 0 0) smc ∧
      smc.livePages.map SmcPage.memKey = [17, 19] ∧ (smcPrune smc).livePages = smc.livePages ∧
      ∃ smc', smcGetPage smc 1 500 true true ⟨100, 3, true, true, 20, true⟩ = some (smc', .page 1) ∧
        (smc'.pdata 1).live = true ∧ smc'.pdata 0 = smc.pdata 0 ∧ smc'.pdata 2 = smc.pdata 2 := by
  let ops : List SmcOp := [.getPage 2 1000 true true ⟨100, 0, true, true, 17, true⟩,
    .getPage 1 4000 true true ⟨100, 1, true, true, 18, true⟩, .getPage 1 4000 true true ⟨100, 2, true, true, 19, true⟩,
    .detach 100 ⟨1, by decide⟩ true]
  have hrun : (run SmCache.step (SmCache.start "/tmp/.smc" 200 0 0) ops).map (fun smc =>
      (smc.livePages.map SmcPage.memKey,
        (smcGetPage smc 1 500 true true ⟨100, 3, true, true, 20, true⟩).map Prod.snd)) =
      some ([17, 19], some (.page 1)) := by decide +kernel
  obtain ⟨smc, hs, he⟩ := Option.map_eq_some_iff.mp hrun
  obtain ⟨hlive, hget⟩ := Prod.mk.inj he
  obtain ⟨⟨smc', r⟩, hget, rfl⟩ := Option.map_eq_some_iff.mp hget
  obtain ⟨hnew, hprune, -⟩ := live_pages_kept "/tmp/.smc" 200 0 0 smc ⟨ops, hs⟩
  obtain ⟨-, hl, hother⟩ := hnew _ _ _ _ _ _ _ hget
  exact ⟨smc, ⟨ops, hs⟩, hlive, hprune, smc', hget, hl, hother 0 (by decide), hother 2 (by decide)⟩

end Ndhs
