import Ndhs.Lib.Sweep
import Ndhs.Smc.TableInv

/-!
# Void slots below `top`

A page that is freed leaves a void in its slot, unless it is the last one. Three functions walk over such a table.

* `smcPrune` goes on behind the slot that has moved up into a void: `prune_complete_iff`.
* `smcFindPage` looks at as many slots as there are pages, and returns the last one it looked at: `smcFindPage_iff`.
* `smcDelExpID` compares the id of a void too: `smcDelExpID_iff`.
-/

namespace Ndhs

open Function Machine Cells Sweep

/-! ## `smcPrune` -/

/-- After `smcPrune`, the slots below `top` are live, and `top` is the number of the pages that were live. -/
structure PruneComplete (smc smc' : SmCache) : Prop where
  live : ∀ i : Nat, (i : Int) < smc'.top → (smc'.pdata i).live = true
  count : smc'.top = (cells smc.pdata smc.top.toNat).countP SmcPage.live

/-- The slots below `top` -/
def SmCache.slots (smc : SmCache) : List SmcPage := cells smc.pdata smc.top.toNat

section Prune

variable {smc : SmCache} {i : Nat}

theorem length_slots : smc.slots.length = smc.top.toNat := cells_length

theorem slots_getElem (hi : i < smc.slots.length) : smc.slots[i] = smc.pdata i := cells_getElem hi

theorem mem_slots {p : SmcPage} : p ∈ smc.slots ↔ ∃ j : Nat, (j : Int) < smc.top ∧ smc.pdata j = p := by
  rw [SmCache.slots, mem_cells]
  exact exists_congr fun j => and_congr_left' (by omega)

/-- A round closes the void in its slot, if there is one. -/
theorem pruneRound_slots (hi : (i : Int) < smc.top) (hv : (smc.pdata i).live = false) :
    (pruneRound smc i).slots = smc.slots.eraseIdx i ∧ (pruneRound smc i).top = smc.top - 1 := by
  have htop : (smc.top - 1).toNat = smc.top.toNat - 1 := by omega
  have hlast : smc.top.toNat = smc.top.toNat - 1 + 1 := by omega
  have hshift := cells_shiftDown (f := smc.pdata) (n := smc.top.toNat) {} (show i < smc.top.toNat by omega)
  rw [hlast, cells_succ, ← hlast] at hshift
  rw [pruneRound, if_pos ⟨hi, live_eq_false.mp hv⟩]
  refine ⟨?_, rfl⟩
  show cells _ (smc.top - 1).toNat = _
  rw [htop]
  exact (List.append_inj' hshift rfl).1

/-- One round of the loop is one round of the scan. -/
theorem pruneRound_swept (h0 : 0 ≤ smc.top) :
    0 ≤ (pruneRound smc i).top ∧
      swept SmcPage.live (i + 1) (pruneRound smc i).slots = swept SmcPage.live i smc.slots := by
  by_cases hi : (i : Int) < smc.top
  · have hlen : i < smc.slots.length := by
      rw [length_slots]
      omega
    cases hl : (smc.pdata i).live with
    | true =>
      have hsame : pruneRound smc i = smc := if_neg fun hc => live_iff.mp hl hc.2
      rw [hsame]
      exact ⟨h0, swept_succ hlen (by rw [slots_getElem, hl])⟩
    | false =>
      obtain ⟨hslots, htop⟩ := pruneRound_slots hi hl
      rw [hslots, htop]
      exact ⟨by omega, swept_erase hlen (by rw [slots_getElem, hl])⟩
  · have hsame : pruneRound smc i = smc := if_neg fun hc => hi hc.1
    have hlen : smc.slots.length ≤ i := by
      rw [length_slots]
      omega
    rw [hsame, swept_of_length_le hlen, swept_of_length_le (by omega)]
    exact ⟨h0, rfl⟩

/-- What `smcPrune` leaves below `top`. -/
theorem smcPrune_slots (h0 : 0 ≤ smc.top) :
    0 ≤ (smcPrune smc).top ∧ (smcPrune smc).slots = sweep SmcPage.live smc.slots := by
  have hloop : 0 ≤ (smcPrune smc).top ∧ (smcPrune smc).top ≤ smc.top ∧
      swept SmcPage.live smc.top.toNat (smcPrune smc).slots = sweep SmcPage.live smc.slots := by
    refine Loop.foldl_range_inv (fun k (s : SmCache) => 0 ≤ s.top ∧ s.top ≤ smc.top ∧
      swept SmcPage.live k s.slots = sweep SmcPage.live smc.slots) ⟨h0, Int.le_refl _, swept_zero⟩ fun i s _ hs => ?_
    obtain ⟨hs0, hle, hs⟩ := hs
    obtain ⟨htop, hround⟩ := pruneRound_swept (i := i) hs0
    refine ⟨htop, ?_, hround.trans hs⟩
    unfold pruneRound
    split
    · exact Int.le_trans (Int.sub_le_self _ (by decide)) hle
    · exact hle
  obtain ⟨htop, hle, hswept⟩ := hloop
  refine ⟨htop, ?_⟩
  rw [← hswept, swept_of_length_le]
  rw [length_slots]
  omega

/-- `smcPrune` removes all voids if no two of them are next to each other, and only then. -/
theorem prune_complete_iff (smc : SmCache) (h : 0 ≤ smc.top) :
    PruneComplete smc (smcPrune smc) ↔
      ∀ i : Nat, (i : Int) + 1 < smc.top → (smc.pdata i).live = true ∨ (smc.pdata (i + 1)).live = true := by
  obtain ⟨h0, hslots⟩ := smcPrune_slots h
  have hall : (∀ i : Nat, (i : Int) < (smcPrune smc).top → ((smcPrune smc).pdata i).live = true) ↔
      ∀ p ∈ sweep SmcPage.live smc.slots, p.live = true := by
    rw [← hslots]
    constructor
    · intro hl p hp
      obtain ⟨j, hj, rfl⟩ := mem_slots.mp hp
      exact hl j hj
    · intro hl i hi
      exact hl _ (mem_slots.mpr ⟨i, hi, rfl⟩)
  have hcount : (smcPrune smc).top = (cells smc.pdata smc.top.toNat).countP SmcPage.live ↔
      ∀ p ∈ sweep SmcPage.live smc.slots, p.live = true := by
    rw [← length_sweep_iff, ← hslots, length_slots]
    show _ ↔ _ = (cells smc.pdata smc.top.toNat).countP SmcPage.live
    omega
  have hchain : (∀ p ∈ sweep SmcPage.live smc.slots, p.live = true) ↔
      ∀ i : Nat, (i : Int) + 1 < smc.top → (smc.pdata i).live = true ∨ (smc.pdata (i + 1)).live = true := by
    rw [sweep_all_iff, List.isChain_iff_getElem]
    constructor
    · intro hc i hi
      have hlt : i + 1 < smc.slots.length := by
        rw [length_slots]
        omega
      have hpair := hc i hlt
      rwa [slots_getElem, slots_getElem] at hpair
    · intro hc i hi
      rw [slots_getElem, slots_getElem]
      rw [length_slots] at hi
      exact hc i (by omega)
  rw [← hchain]
  exact ⟨fun hp => hall.mp hp.live, fun hl => ⟨hall.mpr hl, hcount.mpr hl⟩⟩

end Prune

/-- A void below the last page: it is closed. -/
theorem prune_complete_one :
    PruneComplete { SmCache.start "/tmp/.smc" 200 0 0 with
      pdata := fun i => if i = 1 then { memKey := 17 } else {}, top := 2 }
      (smcPrune { SmCache.start "/tmp/.smc" 200 0 0 with
        pdata := fun i => if i = 1 then { memKey := 17 } else {}, top := 2 }) := by
  refine (prune_complete_iff _ (by decide)).mpr fun i hi => .inr ?_
  have h0 : i = 0 := by
    have hi : (i : Int) + 1 < 2 := hi
    omega
  rw [h0]
  rfl

/-- Three pages, of which the first two are freed -/
def twoVoids : List SmcOp :=
  [.getPage 2 1000 true true ⟨100, 0, true, true, 17, true⟩, .getPage 2 1000 true true ⟨100, 1, true, true, 18, true⟩,
    .getPage 2 1000 true true ⟨100, 2, true, true, 19, true⟩, .detach 100 ⟨0, by decide⟩ true,
    .detach 100 ⟨1, by decide⟩ true]

/-- The second void moves down over the first one, and stays. -/
theorem prune_complete_not :
    ∃ smc, run SmCache.step (SmCache.start "/tmp/.smc" 200 0 0) twoVoids = some smc ∧
      ¬ PruneComplete smc (smcPrune smc) := by
  have hrun : (run SmCache.step (SmCache.start "/tmp/.smc" 200 0 0) twoVoids).map (fun smc =>
      ((smcPrune smc).top, ((smcPrune smc).pdata 0).live)) = some (2, false) := by decide +kernel
  obtain ⟨smc, hs, he⟩ := Option.map_eq_some_iff.mp hrun
  obtain ⟨htop, hlive⟩ := Prod.mk.inj he
  refine ⟨smc, hs, fun hp => ?_⟩
  have h0 := hp.live 0 (by rw [htop]; decide)
  rw [hlive] at h0
  cases h0

/-! ## `smcFindPage` -/

/-- The loop of `smcFindPage`: `n` slots are left, from slot `i` on, and `p` is the last one it looked at. -/
def findLoop (smc : SmCache) (memKey : Int) : Nat → Nat → Option Nat → Option Nat
  | 0, _, p => p
  | n + 1, i, _ => if (smc.pdata i).memKey = memKey then some i else findLoop smc memKey n (i + 1) (some i)

/-- `smcFindPage`: the page for a key, by its slot -/
def smcFindPage (smc : SmCache) (memKey : Int) : Option Nat := findLoop smc memKey smc.npages.toNat 0 none

/-- The slot has a live page below `top` with the key. -/
def SmCache.Holds (smc : SmCache) (memKey : Int) (j : Nat) : Prop :=
  (j : Int) < smc.top ∧ (smc.pdata j).live = true ∧ (smc.pdata j).memKey = memKey

/-- The result is a page with the key if there is one, and `NULL` otherwise. -/
structure FindsPage (smc : SmCache) (memKey : Int) (r : Option Nat) : Prop where
  found : (∃ j, smc.Holds memKey j) → ∃ j, r = some j ∧ smc.Holds memKey j
  null : (¬ ∃ j, smc.Holds memKey j) → r = none

section FindPage

variable {smc : SmCache} {memKey : Int} {n i : Nat} {p : Option Nat}

/-- A slot that the loop reaches has the key: the first one is found. -/
theorem findLoop_found (h : ∃ j, i ≤ j ∧ j < i + n ∧ (smc.pdata j).memKey = memKey) :
    ∃ j, findLoop smc memKey n i p = some j ∧ j < i + n ∧ (smc.pdata j).memKey = memKey := by
  induction n generalizing i p with
  | zero =>
    obtain ⟨j, hle, hlt, -⟩ := h
    omega
  | succ n ih =>
    obtain ⟨j, hle, hlt, hk⟩ := h
    rw [findLoop]
    by_cases hi : (smc.pdata i).memKey = memKey
    · exact ⟨i, if_pos hi, by omega, hi⟩
    · have hne : i ≠ j := fun he => hi (he ▸ hk)
      obtain ⟨j', hj', hlt', hk'⟩ := ih (i := i + 1) (p := some i) ⟨j, by omega, by omega, hk⟩
      exact ⟨j', by rw [if_neg hi, hj'], by omega, hk'⟩

/-- None of them has it: the result is the last slot. -/
theorem findLoop_last (h : ∀ j, i ≤ j → j < i + n → (smc.pdata j).memKey ≠ memKey) :
    findLoop smc memKey n i p = if n = 0 then p else some (i + n - 1) := by
  induction n generalizing i p with
  | zero => rfl
  | succ n ih =>
    rw [findLoop, if_neg (h i (Nat.le_refl i) (by omega)), ih fun j hle hlt => h j (by omega) (by omega),
      if_neg (Nat.succ_ne_zero n)]
    split
    · next hn =>
      subst hn
      rfl
    · congr 1
      omega

/-- The result for a key that none of the slots has -/
theorem smcFindPage_last (h : ∀ j, j < smc.npages.toNat → (smc.pdata j).memKey ≠ memKey) :
    smcFindPage smc memKey = if smc.npages.toNat = 0 then none else some (smc.npages.toNat - 1) := by
  have hlast := @findLoop_last smc memKey smc.npages.toNat 0 none fun j _ hlt => h j (by omega)
  rwa [Nat.zero_add] at hlast

/-- The result for a key that one of the slots has -/
theorem smcFindPage_found (h : ∃ j, j < smc.npages.toNat ∧ (smc.pdata j).memKey = memKey) :
    ∃ j, smcFindPage smc memKey = some j ∧ (smc.pdata j).memKey = memKey := by
  obtain ⟨j, hlt, hk⟩ := h
  obtain ⟨j', hr, -, hk'⟩ := @findLoop_found smc memKey smc.npages.toNat 0 none ⟨j, Nat.zero_le j, by omega, hk⟩
  exact ⟨j', hr, hk'⟩

/-- In every reachable table, `smcFindPage` returns the page with a key if a slot that it looks at has one, and `NULL` if
no slot has one and there are no pages. In no other case is the result right. -/
theorem smcFindPage_iff (cachePath : String) (segHdr : Int) (memAllocated memAvail : BitVec 32) (smc : SmCache)
    (h : Reach SmCache.step (SmCache.start cachePath segHdr memAllocated memAvail) smc) (memKey : Int) :
    FindsPage smc memKey (smcFindPage smc memKey) ↔
      (∃ j : Nat, (j : Int) < smc.npages ∧ (smc.pdata j).live = true ∧ (smc.pdata j).memKey = memKey) ∨
        smc.npages ≤ 0 ∧ ¬ ∃ j, (smc.pdata j).live = true ∧ (smc.pdata j).memKey = memKey := by
  have hs := SmCache.Shape.of_reach h
  have hholds : ∀ j, smc.Holds memKey j ↔ (smc.pdata j).live = true ∧ (smc.pdata j).memKey = memKey :=
    fun j => ⟨fun hj => hj.2, fun hj => ⟨hs.below j hj.1, hj⟩⟩
  simp only [← hholds]
  by_cases hkey : ∃ j, smc.Holds memKey j
  · -- the key is one of a page, so it is not that of a void
    have hlive : ∀ j, (smc.pdata j).memKey = memKey → smc.Holds memKey j := by
      intro j hj
      obtain ⟨j', hj'⟩ := hkey
      exact (hholds j).mpr ⟨live_iff.mpr (by rw [hj, ← hj'.2.2]; exact live_iff.mp hj'.2.1), hj⟩
    constructor
    · intro hf
      obtain ⟨j, hr, hj⟩ := hf.found hkey
      refine .inl ?_
      by_contra hnone
      rw [smcFindPage_last fun j' hlt hk => hnone ⟨j', by omega, hlive j' hk⟩] at hr
      split at hr
      · cases hr
      · next hn =>
        obtain rfl := Option.some.inj hr
        exact hnone ⟨_, by omega, hj⟩
    · rintro (⟨j, hlt, hj⟩ | ⟨-, hnone⟩)
      · obtain ⟨j', hr, hk⟩ := smcFindPage_found ⟨j, by omega, hj.2.2⟩
        exact ⟨fun _ => ⟨j', hr, hlive j' hk⟩, fun hn => absurd hkey hn⟩
      · exact absurd hkey hnone
  · constructor
    · intro hf
      refine .inr ⟨?_, hkey⟩
      by_contra hpos
      have hnull := hf.null hkey
      by_cases hslot : ∃ j, j < smc.npages.toNat ∧ (smc.pdata j).memKey = memKey
      · obtain ⟨j, hr, -⟩ := smcFindPage_found hslot
        rw [hr] at hnull
        cases hnull
      · rw [smcFindPage_last fun j hlt hk => hslot ⟨j, hlt, hk⟩, if_neg (by omega)] at hnull
        cases hnull
    · rintro (⟨j, -, hj⟩ | ⟨hle, -⟩)
      · exact absurd ⟨j, hj⟩ hkey
      · have hzero : smc.npages.toNat = 0 := by omega
        exact ⟨fun hc => absurd hc hkey, fun _ => by rw [smcFindPage, hzero, findLoop]⟩

end FindPage

/-- Two pages -/
def twoPages : List SmcOp :=
  [.getPage 2 1000 true true ⟨100, 0, true, true, 17, true⟩, .getPage 2 1000 true true ⟨100, 1, true, true, 18, true⟩]

/-- The second page is found. -/
theorem smcFindPage_two :
    ∃ smc, run SmCache.step (SmCache.start "/tmp/.smc" 200 0 0) twoPages = some smc ∧
      FindsPage smc 18 (smcFindPage smc 18) := by
  have hrun : (run SmCache.step (SmCache.start "/tmp/.smc" 200 0 0) twoPages).map (fun smc =>
      (smc.npages, (smc.pdata 1).live, (smc.pdata 1).memKey)) = some (2, true, 18) := by decide +kernel
  obtain ⟨smc, hs, he⟩ := Option.map_eq_some_iff.mp hrun
  simp only [Prod.mk.injEq] at he
  refine ⟨smc, hs, (smcFindPage_iff "/tmp/.smc" 200 0 0 smc ⟨_, hs⟩ 18).mpr (.inl ⟨1, ?_, he.2⟩)⟩
  rw [he.1]
  decide

/-- Behind a void, the second page is not: the result is the void. -/
theorem smcFindPage_not :
    ∃ smc, run SmCache.step (SmCache.start "/tmp/.smc" 200 0 0) (twoPages ++ [.detach 100 ⟨0, by decide⟩ true]) = some smc ∧
      smc.Holds 18 1 ∧ smcFindPage smc 18 = some 0 ∧ ¬ FindsPage smc 18 (smcFindPage smc 18) := by
  have hrun : (run SmCache.step (SmCache.start "/tmp/.smc" 200 0 0)
      (twoPages ++ [.detach 100 ⟨0, by decide⟩ true])).map (fun smc => (decide ((1 : Int) < smc.top),
        (smc.pdata 1).live, (smc.pdata 1).memKey, (smc.pdata 0).live, smcFindPage smc 18)) =
      some (true, true, 18, false, some 0) := by decide +kernel
  obtain ⟨smc, hs, he⟩ := Option.map_eq_some_iff.mp hrun
  simp only [Prod.mk.injEq, decide_eq_true_eq] at he
  obtain ⟨htop, hlive, hkey, hvoid, hr⟩ := he
  refine ⟨smc, hs, ⟨htop, hlive, hkey⟩, hr, fun hf => ?_⟩
  obtain ⟨j, hj, hh⟩ := hf.found ⟨1, htop, hlive, hkey⟩
  rw [hr] at hj
  obtain rfl := Option.some.inj hj
  exact absurd hh.2.1 (by simp [hvoid])

/-! ## `smcDelExpID` -/

/-- The page is one that `smcDelExpID` is to free. -/
def SmCache.Doomed (smc : SmCache) (expID : ExpID) (procPages : Option String) (j : Nat) : Prop :=
  (j : Int) < smc.top ∧ (smc.pdata j).live = true ∧ (smc.pdata j).matches expID procPages = true

/-- The live pages below `top` that match are freed, and no other slot is changed; they are counted. -/
structure Deletes (smc smc' : SmCache) (expID : ExpID) (procPages : Option String) : Prop where
  freed : ∀ j, smc.Doomed expID procPages j → (smc'.pdata j).live = false ∧ (smc'.pdata j).free = true
  kept : ∀ j, ¬ smc.Doomed expID procPages j → smc'.pdata j = smc.pdata j
  npages : smc'.npages = smc.npages - smc.slots.countP fun p => p.live && p.matches expID procPages

section DelExpID

variable {smc : SmCache} {pid : Nat} {e : ExpID} {pp : Option String}

/-- Every slot that matches is counted down, a page or a void. -/
theorem delExpID_npages : (smcDelExpID smc pid e pp).npages = smc.npages - smc.slots.countP fun p => p.matches e pp := by
  have hloop : ∀ k ≤ smc.top.toNat, ((List.range k).foldl (delRound pid e pp) smc).npages =
      smc.npages - (cells smc.pdata k).countP fun p => p.matches e pp := by
    intro k hk
    induction k with
    | zero => exact (Int.sub_zero _).symm
    | succ k ih =>
      have ih := ih (by omega)
      obtain ⟨hp, ht⟩ := delRounds_inv smc pid e pp k (by omega)
      have ht := ht (by omega)
      have hpk := hp k
      rw [if_neg (by omega)] at hpk
      rw [List.range_succ, List.foldl_append, List.foldl_cons, List.foldl_nil, cells_succ, List.countP_append,
        List.countP_singleton]
      generalize (List.range k).foldl (delRound pid e pp) smc = s at ht ih hpk
      unfold delRound
      rw [hpk]
      by_cases hm : (smc.pdata k).matches e pp = true
      · rw [if_pos ⟨by omega, hm⟩, if_pos hm, detach_npages]
        show s.npages - 1 = _
        omega
      · rw [if_neg fun hc => hm hc.2, if_neg hm]
        exact ih
  exact hloop _ (Nat.le_refl _)

/-- In every table, `smcDelExpID` does what it is for if no void below `top` matches, and only then. -/
theorem smcDelExpID_iff (smc : SmCache) (pid : Nat) (e : ExpID) (pp : Option String) :
    Deletes smc (smcDelExpID smc pid e pp) e pp ↔
      ∀ j : Nat, (j : Int) < smc.top → (smc.pdata j).matches e pp = true → (smc.pdata j).live = true := by
  -- the pages that are counted, and those that are to be
  have hcount : (smc.slots.countP fun p => p.live && p.matches e pp) = (smc.slots.countP fun p => p.matches e pp) ↔
      ∀ j : Nat, (j : Int) < smc.top → (smc.pdata j).matches e pp = true → (smc.pdata j).live = true := by
    rw [← List.countP_filter, List.countP_eq_length_filter (p := fun p => SmcPage.matches p e pp), List.countP_eq_length]
    constructor
    · intro hl j hj hm
      exact hl _ (List.mem_filter.mpr ⟨mem_slots.mpr ⟨j, hj, rfl⟩, hm⟩)
    · intro hl p hp
      obtain ⟨hp, hm⟩ := List.mem_filter.mp hp
      obtain ⟨j, hj, rfl⟩ := mem_slots.mp hp
      exact hl j hj hm
  constructor
  · intro hd
    have hnpages := hd.npages
    rw [delExpID_npages] at hnpages
    exact hcount.mp (by omega)
  · intro hok
    have hdoomed : ∀ j : Nat, j < smc.top.toNat ∧ (smc.pdata j).matches e pp = true ↔ smc.Doomed e pp j := by
      intro j
      constructor
      · rintro ⟨hj, hm⟩
        exact ⟨by omega, hok j (by omega) hm, hm⟩
      · rintro ⟨hj, -, hm⟩
        exact ⟨by omega, hm⟩
    refine ⟨fun j hj => ?_, fun j hj => ?_, ?_⟩
    · rw [delExpID_pdata, if_pos ((hdoomed j).mpr hj)]
      exact ⟨rfl, rfl⟩
    · rw [delExpID_pdata, if_neg fun hc => hj ((hdoomed j).mp hc)]
    · rw [delExpID_npages, hcount.mpr hok]

end DelExpID

/-- The exposures of two pages -/
def twoExposures : List SmcOp :=
  twoPages ++ [.setExpID ⟨0, by decide⟩ 5, .setExpID ⟨1, by decide⟩ 7]

/-- A page is freed, and the exposure with the id zero, which has no pages, is deleted: the void is counted down. -/
theorem smcDelExpID_not :
    ∃ smc, run SmCache.step (SmCache.start "/tmp/.smc" 200 0 0) (twoExposures ++ [.detach 100 ⟨0, by decide⟩ true]) =
        some smc ∧
      smc.npages = 1 ∧ (smcDelExpID smc 100 0 none).npages = 0 ∧ ¬ Deletes smc (smcDelExpID smc 100 0 none) 0 none := by
  have hrun : (run SmCache.step (SmCache.start "/tmp/.smc" 200 0 0)
      (twoExposures ++ [.detach 100 ⟨0, by decide⟩ true])).map (fun smc => (smc.npages,
        (smcDelExpID smc 100 0 none).npages, smc.slots.countP fun p => p.live && p.matches 0 none)) =
      some (1, 0, 0) := by decide +kernel
  obtain ⟨smc, hs, he⟩ := Option.map_eq_some_iff.mp hrun
  simp only [Prod.mk.injEq] at he
  refine ⟨smc, hs, he.1, he.2.1, fun hd => ?_⟩
  have hn := hd.npages
  rw [he.1, he.2.1, he.2.2] at hn
  exact absurd hn (by decide)

end Ndhs
