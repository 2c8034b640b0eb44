import Ndhs.Smc.TableInv
import Mathlib.Data.BitVec
import Mathlib.Tactic.Abel

/-!
# The memory counters

`smcGetPage` adds the size of the new page to `mem_allocated` and takes it from `mem_avail`; `smcDetach` with free undoes
it, after it has cleared the slot. The counters have 32 bits.

* `SmCache.Charged`: `mem_allocated` is the size of the cache and of the live pages, a void slot has size zero, and the
  two counters together are what they were.
* `memory_accounted`: this is so throughout every run in which each `smcGetPage` returns a page.
-/

namespace Ndhs

open Function Machine Cells

/-- The sizes of the live pages, added up -/
def SmCache.liveSize (smc : SmCache) : BitVec 32 := (smc.livePages.map (·.size)).sum

/-- The counters of a cache of the size `cacheSize` -/
structure SmCache.MemOk (cacheSize memAvail : BitVec 32) (smc : SmCache) : Prop where
  allocated : smc.memAllocated = cacheSize + smc.liveSize
  total : smc.memAllocated + smc.memAvail = cacheSize + memAvail

/-- If the call is one of `smcGetPage`, it returns a page. -/
def SmcOp.Returns (smc : SmCache) : SmcOp → Bool
  | .getPage type size attach lock env => (smcGetPage smc type size attach lock env).any fun r =>
    match r.2 with
    | .page _ => true
    | _ => false
  | _ => true

/-- The sizes of all slots, added up -/
def SmCache.slotSize (smc : SmCache) : BitVec 32 := ((cells smc.pdata maxSegs).map (·.size)).sum

/-- The counters by the sizes of all slots; a void has no size. -/
structure SmCache.Charged (cacheSize memAvail : BitVec 32) (smc : SmCache) : Prop where
  void : ∀ i, (smc.pdata i).live = false → (smc.pdata i).size = 0
  allocated : smc.memAllocated = cacheSize + smc.slotSize
  total : smc.memAllocated + smc.memAvail = cacheSize + memAvail

section Charged

variable {smc smc' : SmCache} {cacheSize memAvail : BitVec 32} {i pid : Nat}

theorem liveSize_eq (h : ∀ i, (smc.pdata i).live = false → (smc.pdata i).size = 0) : smc.liveSize = smc.slotSize := by
  refine sum_filter_cells fun p hp hl => ?_
  obtain ⟨i, -, rfl⟩ := mem_cells.mp hp
  exact h i hl

theorem SmCache.Charged.memOk (h : smc.Charged cacheSize memAvail) : smc.MemOk cacheSize memAvail :=
  ⟨h.allocated.trans (congrArg (cacheSize + ·) (liveSize_eq h.void).symm), h.total⟩

/-- The members that the counters are about -/
theorem SmCache.Charged.congr (h : smc.Charged cacheSize memAvail)
    (hpage : ∀ j, (smc'.pdata j).live = (smc.pdata j).live ∧ (smc'.pdata j).size = (smc.pdata j).size)
    (ha : smc'.memAllocated = smc.memAllocated) (hv : smc'.memAvail = smc.memAvail) :
    smc'.Charged cacheSize memAvail where
  void j hj := by
    rw [(hpage j).2]
    exact h.void j ((hpage j).1 ▸ hj)
  allocated := by
    rw [ha, h.allocated, SmCache.slotSize, SmCache.slotSize]
    have hsizes : (cells smc'.pdata maxSegs).map (·.size) = (cells smc.pdata maxSegs).map (·.size) := by
      rw [cells, cells, List.map_map, List.map_map]
      exact List.map_congr_left fun j _ => (hpage j).2
    rw [hsizes]
  total := by rw [ha, hv, h.total]

/-- A slot is written, but its page is the same one. -/
theorem SmCache.Charged.setPage (h : smc.Charged cacheSize memAvail) {p : SmcPage}
    (hk : p.memKey = (smc.pdata i).memKey) (hs : p.size = (smc.pdata i).size) :
    (smc.setPage i p).Charged cacheSize memAvail := by
  refine h.congr (fun j => ?_) rfl rfl
  by_cases hj : j = i
  · subst hj
    simp [SmCache.setPage, SmcPage.live, hk, hs]
  · simp [SmCache.setPage, hj]

theorem detach_memory (smc : SmCache) (pid i : Nat) :
    (smcDetach smc pid i true).memAllocated = smc.memAllocated - (smc.pdata i).size ∧
      (smcDetach smc pid i true).memAvail = smc.memAvail + (smc.pdata i).size := by
  by_cases h : (smc.pdata i).cpid = pid <;> simp [smcDetach, h]

/-- `smcDetach` takes back what the slot was charged for, a page or a void. -/
theorem SmCache.Charged.detach (h : smc.Charged cacheSize memAvail) (pid : Nat) (hi : i < maxSegs) :
    (smcDetach smc pid i true).Charged cacheSize memAvail where
  void j hj := by
    rw [detach_pdata] at hj ⊢
    by_cases hne : j = i
    · subst hne
      rw [update_self]
      rfl
    · rw [update_of_ne hne] at hj ⊢
      exact h.void j hj
  allocated := by
    have hsum := sum_cells_update (f := smc.pdata) (fun p : SmcPage => p.size) freedPage hi
    have hsize : (freedPage : SmcPage).size = 0 := rfl
    rw [hsize, add_zero] at hsum
    rw [(detach_memory smc pid i).1, h.allocated, SmCache.slotSize, SmCache.slotSize, detach_pdata, ← hsum]
    abel
  total := by
    rw [(detach_memory smc pid i).1, (detach_memory smc pid i).2, ← h.total]
    abel

theorem SmCache.Charged.reset (hs : smc.Shape) (h : smc.Charged cacheSize memAvail) (pid : Nat) :
    (smcReset smc pid).Charged cacheSize memAvail := by
  have hb := hs.bound
  exact Loop.foldl_range_inv (fun _ (s : SmCache) => s.Charged cacheSize memAvail) h
    fun i s hi hc => hc.detach pid (by omega)

theorem SmCache.Charged.delExpID (hs : smc.Shape) (h : smc.Charged cacheSize memAvail) (pid : Nat) (e : ExpID)
    (pp : Option String) : (smcDelExpID smc pid e pp).Charged cacheSize memAvail := by
  have hb := hs.bound
  refine Loop.foldl_range_inv (fun _ (s : SmCache) => s.Charged cacheSize memAvail) h fun i s hi hc => ?_
  unfold delRound
  split
  · have hlt : i < maxSegs := by omega
    refine SmCache.Charged.detach ?_ pid hlt
    exact hc.setPage rfl rfl
  · exact hc

theorem SmCache.Charged.initRounds (h : smc.Charged cacheSize memAvail) (pid : Nat) {n : Nat} (hn : n ≤ maxSegs) :
    ((List.range n).foldl (initializeRound pid) smc).Charged cacheSize memAvail := by
  refine Loop.foldl_range_inv (fun _ (s : SmCache) => s.Charged cacheSize memAvail) h fun i s hi hc => ?_
  unfold initializeRound
  split
  · exact hc
  · refine (hc.detach pid (by omega)).setPage ?_ ?_ <;> simp [detach_pdata, freedPage]

/-- A void without a size is dropped, and a cleared slot has none. -/
theorem SmCache.Charged.pruneRound (hs : smc.Shape) (h : smc.Charged cacheSize memAvail) (i : Nat) :
    (pruneRound smc i).Charged cacheSize memAvail := by
  by_cases hc : (i : Int) < smc.top ∧ (smc.pdata i).memKey = 0
  · have hvoid : ∀ j, ((Ndhs.pruneRound smc i).pdata j).live = false → ((Ndhs.pruneRound smc i).pdata j).size = 0 := by
      intro j
      rw [pruneRound_pdata hc.1 hc.2]
      split
      · exact h.void j
      · split
        · exact h.void (j + 1)
        · split
          · exact fun _ => rfl
          · exact h.void j
    have hmem : (Ndhs.pruneRound smc i).memAllocated = smc.memAllocated ∧
        (Ndhs.pruneRound smc i).memAvail = smc.memAvail := by
      rw [Ndhs.pruneRound, if_pos hc]
      exact ⟨rfl, rfl⟩
    refine ⟨hvoid, ?_, by rw [hmem.1, hmem.2, h.total]⟩
    rw [hmem.1, h.allocated, ← liveSize_eq hvoid, ← liveSize_eq h.void, SmCache.liveSize, SmCache.liveSize,
      pruneRound_livePages hs]
  · rw [Ndhs.pruneRound, if_neg hc]
    exact h

theorem SmCache.Charged.prune (hs : smc.Shape) (h : smc.Charged cacheSize memAvail) :
    (smcPrune smc).Charged cacheSize memAvail :=
  (prune_inv (fun s => s.Shape ∧ s.Charged cacheSize memAvail)
    ⟨⟨hs.npMax, hs.nonneg, hs.bound, hs.below, hs.owned⟩, h.congr (fun _ => ⟨rfl, rfl⟩) rfl rfl⟩
    fun i _ hc => ⟨hc.1.pruneRound i, hc.2.pruneRound hc.1 i⟩).2

theorem SmCache.Charged.smcInit (hs : smc.Shape) (h : smc.Charged cacheSize memAvail) (pid : Nat) :
    (smcInitialize smc pid).Charged cacheSize memAvail := by
  have hmax : smc.npMax.toNat ≤ maxSegs := by rw [hs.npMax]; exact Nat.le_refl _
  have hp := (h.initRounds pid hmax).prune (hs.initRounds pid _)
  exact hp.congr (fun _ => ⟨rfl, rfl⟩) rfl rfl

/-- A page that `smcGetPage` returns is charged for, once. -/
theorem openPage_memory {pnum k : Nat} {type size : Int} {attach lock : Bool} {env : GetEnv}
    (h : smc.openPage pnum type size attach lock env = (smc', .page k)) :
    smc'.memAllocated = smc.memAllocated + (smc'.pdata pnum).size ∧
      smc'.memAvail = smc.memAvail - (smc'.pdata pnum).size := by
  unfold SmCache.openPage at h
  simp only at h
  split at h
  · cases h
  · split at h
    · cases h
    · split at h
      · cases h
      · cases h
        simp [SmCache.setPage]

theorem SmCache.Charged.getPage (hs : smc.Shape) (h : smc.Charged cacheSize memAvail) {k : Nat} {type size : Int}
    {attach lock : Bool} {env : GetEnv} (hg : smcGetPage smc type size attach lock env = some (smc', .page k)) :
    smc'.Charged cacheSize memAvail := by
  obtain ⟨-, hr⟩ | ⟨pnum, -, hlt, -, -, hv, ho⟩ := smcGetPage_spec hs hg
  · cases hr
  · obtain ⟨hother, -, -, ⟨-, -, -, hr⟩ | ⟨hl, -, -, -, -, -⟩⟩ := openPage_spec ho
    · cases hr
    · obtain ⟨ha, hav⟩ := openPage_memory ho
      have hupd : smc'.pdata = update smc.pdata pnum (smc'.pdata pnum) :=
        Function.eq_update_iff.mpr ⟨rfl, hother⟩
      have hsum := sum_cells_update (f := smc.pdata) (fun p : SmcPage => p.size) (smc'.pdata pnum) hlt
      rw [← hupd, h.void pnum hv, add_zero] at hsum
      refine ⟨fun j hj => ?_, ?_, ?_⟩
      · have hne : j ≠ pnum := by rintro rfl; rw [hl] at hj; cases hj
        rw [hother j hne] at hj ⊢
        exact h.void j hj
      · rw [ha, h.allocated, SmCache.slotSize, SmCache.slotSize, hsum, add_assoc]
      · rw [ha, hav, ← h.total]
        abel

theorem SmCache.Charged.start (cachePath : String) (segHdr : Int) (cacheSize memAvail : BitVec 32) :
    (SmCache.start cachePath segHdr cacheSize memAvail).Charged cacheSize memAvail where
  void _ _ := rfl
  allocated := by
    have hsum : ((cells (fun _ => ({} : SmcPage)) maxSegs).map (·.size)).sum = (0 : BitVec 32) :=
      List.sum_eq_zero fun w hw => by
        obtain ⟨p, hp, rfl⟩ := List.mem_map.mp hw
        obtain ⟨j, -, rfl⟩ := mem_cells.mp hp
        rfl
    show cacheSize = cacheSize + ((cells (fun _ => ({} : SmcPage)) maxSegs).map (·.size)).sum
    rw [hsum, add_zero]
  total := rfl

/-- Every call keeps the counters right. -/
theorem SmCache.Charged.step (hs : smc.Shape) (h : smc.Charged cacheSize memAvail) {op : SmcOp}
    (ho : op.Returns smc = true) : ∃ smc', smc.step op = some smc' ∧ smc'.Charged cacheSize memAvail := by
  cases op with
  | getPage type size attach lock env =>
    obtain ⟨⟨s, r⟩, hg, hr⟩ := (Option.any_eq_true _ _).mp ho
    cases r with
    | page k => exact ⟨s, by rw [SmCache.step, hg]; rfl, h.getPage hs hg⟩
    | null => cases hr
    | crash => cases hr
  | detach pid i free =>
    refine ⟨_, rfl, ?_⟩
    cases free with
    | true => exact h.detach pid i.isLt
    | false => refine h.setPage ?_ ?_ <;> split <;> rfl
  | delExpID pid e pp => exact ⟨_, rfl, h.delExpID hs pid e pp⟩
  | reset pid => exact ⟨_, rfl, h.reset hs pid⟩
  | smcInit pid => exact ⟨_, rfl, h.smcInit hs pid⟩
  | prune => exact ⟨_, rfl, h.prune hs⟩
  | setExpID i e => exact ⟨_, rfl, h.setPage rfl rfl⟩
  | setColID i c => exact ⟨_, rfl, h.setPage rfl rfl⟩

end Charged

/-- From a fresh cache, in every state of a run in which each `smcGetPage` returns a page, `mem_allocated` is the size
of the cache and of the live pages, and the two counters together are what they were. -/
theorem memory_accounted (cachePath : String) (segHdr : Int) (cacheSize memAvail : BitVec 32) (ops : List SmcOp)
    (h : Steps (fun smc op => op.Returns smc = true) SmCache.step
      (SmCache.start cachePath segHdr cacheSize memAvail) ops) :
    Always (SmCache.MemOk cacheSize memAvail) SmCache.step
      (SmCache.start cachePath segHdr cacheSize memAvail) ops := by
  refine (always_of_steps (I := fun smc : SmCache => smc.Shape ∧ smc.Charged cacheSize memAvail)
    (fun smc op hi ho => ?_) ⟨.start .., .start ..⟩ h).mono fun smc hi => hi.2.memOk
  obtain ⟨smc', hst, hc⟩ := hi.2.step hi.1 ho
  exact ⟨smc', hst, hi.1.step hst, hc⟩

/-- A page that is freed, and a second one; then the cache is reset, with the void in it, and pruned. -/
theorem memory_accounted_reset :
    Always (SmCache.MemOk 5000 90000) SmCache.step (SmCache.start "/tmp/.smc" 200 5000 90000)
      [.getPage 2 1000 true true ⟨100, 0, true, true, 17, true⟩,
       .getPage 2 3000 true true ⟨100, 1, true, true, 18, true⟩,
       .detach 100 ⟨0, by decide⟩ true, .prune, .reset 100] :=
  memory_accounted "/tmp/.smc" 200 5000 90000 _ (by decide +kernel)

end Ndhs
