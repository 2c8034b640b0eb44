import Mathlib
import Ndhs.Smc.TableInv

/-!
# Lock files and segments

A page's lock file is named after the slot it is set up in, and `ftok` makes the key of its shared
segment from that file. `smcPrune` moves pages to other slots and keeps their names.

* `SmCache.Named`: every live page has the lock file of its slot.
* `lock_files_distinct`: if no `smcPrune` of a run moves a page and every lock file could be opened,
  two live pages have different lock files, and different keys if `ftok` tells the files apart.
* `lock_files_clash`: a page that moved down shares its lock file with the page that is set up in its
  old slot next.
-/

namespace Ndhs

open Function Machine Cells

/-- The call does not move a page, and it gets the lock file it asks for. -/
def SmcOp.KeepsNames (smc : SmCache) : SmcOp → Prop
  | .getPage _ _ _ _ env => env.fopen = true
  | .prune => ∀ i j, i < j → (smc.pdata j).live = true → (smc.pdata i).live = true
  | _ => True

/-- The keys that `smcGetPage` gets are `key` of the lock files. -/
def SmcOp.KeyedBy (key : String → Int) (smc : SmCache) : SmcOp → Prop
  | .getPage _ _ _ _ env => env.ftok = key (lockName smc.cachePath smc.findSlot.toNat)
  | _ => True

/-- Every live page has the lock file of its slot. -/
structure SmCache.Named (smc : SmCache) : Prop where
  shape : smc.Shape
  name : ∀ i, (smc.pdata i).live = true → (smc.pdata i).lockFile = lockName smc.cachePath i

/-- Every live page has the key of its lock file. -/
def SmCache.Keyed (key : String → Int) (smc : SmCache) : Prop :=
  ∀ i, (smc.pdata i).live = true → (smc.pdata i).memKey = key (smc.pdata i).lockFile

theorem lockName_inj {cachePath : String} {i j : Nat}
    (h : lockName cachePath i = lockName cachePath j) : i = j :=
  Nat.repr_inj.mp ((String.append_right_inj _).mp h)

/-! ## `smcPrune` without a void below a live page -/

/-- If no void is below a live page, `smcPrune` leaves the live pages where they are. -/
theorem prune_stays {smc : SmCache}
    (hpk : ∀ i j, i < j → (smc.pdata j).live = true → (smc.pdata i).live = true) (j : Nat) :
    ((smc.pdata j).live = true → (smcPrune smc).pdata j = smc.pdata j) ∧
      (((smcPrune smc).pdata j).live = true → (smc.pdata j).live = true) := by
  refine prune_inv (fun s => ∀ j, ((smc.pdata j).live = true → s.pdata j = smc.pdata j) ∧
    ((s.pdata j).live = true → (smc.pdata j).live = true)) (fun _ => ⟨fun _ => rfl, id⟩)
    (fun i s hs => ?_) j
  by_cases hc : (i : Int) < s.top ∧ (s.pdata i).memKey = 0
  · -- the void `i` of this round is above all of the live pages
    have habove : ∀ j, i ≤ j → (smc.pdata j).live = false := by
      intro j hj
      rw [Bool.eq_false_iff]
      intro hl
      have hi : (smc.pdata i).live = true := by
        obtain rfl | hlt := Nat.eq_or_lt_of_le hj
        · exact hl
        · exact hpk i j hlt hl
      exact live_iff.mp hi ((hs i).1 hi ▸ hc.2)
    have hvoid : ∀ j, i ≤ j → (s.pdata j).live = false := fun j hj => by
      rw [Bool.eq_false_iff]
      intro hl
      exact absurd ((hs j).2 hl) (by simp [habove j hj])
    intro j
    rw [pruneRound_pdata hc.1 hc.2]
    by_cases hlt : j < i
    · rw [if_pos hlt]
      exact hs j
    · rw [if_neg hlt]
      refine ⟨fun hl => absurd hl (by simp [habove j (by omega)]), fun hl => ?_⟩
      split at hl
      · exact absurd hl (by simp [hvoid (j + 1) (by omega)])
      · split at hl
        · cases hl
        · exact absurd hl (by simp [hvoid j (by omega)])
  · rw [pruneRound, if_neg hc]
    exact hs

/-! ## Calls that set up no page -/

/-- Every live page of `smc'` is in the same slot of `smc`. -/
structure SmCache.Within (smc smc' : SmCache) : Prop where
  path : smc'.cachePath = smc.cachePath
  page : ∀ j, (smc'.pdata j).live = true → (smc'.pdata j).ident = (smc.pdata j).ident

theorem SmCache.Within.live {smc smc' : SmCache} (h : smc.Within smc') {j : Nat}
    (hl : (smc'.pdata j).live = true) : (smc.pdata j).live = true := by
  have hk := congrArg Prod.fst (h.page j hl)
  rw [live_iff] at hl ⊢
  exact fun hz => hl (hk.trans hz)

theorem SmCache.Within.named {smc smc' : SmCache} (h : smc.Within smc') (hs : smc'.Shape)
    (hn : smc.Named) : smc'.Named := by
  refine ⟨hs, fun i hl => ?_⟩
  have hf : (smc'.pdata i).lockFile = (smc.pdata i).lockFile :=
    congrArg (fun x => x.2.1) (h.page i hl)
  rw [hf, h.path, hn.name i (h.live hl)]

theorem SmCache.Within.keyed {smc smc' : SmCache} (h : smc.Within smc') {key : String → Int}
    (hk : smc.Keyed key) : smc'.Keyed key := by
  intro i hl
  have hf : (smc'.pdata i).lockFile = (smc.pdata i).lockFile :=
    congrArg (fun x => x.2.1) (h.page i hl)
  have hm : (smc'.pdata i).memKey = (smc.pdata i).memKey := congrArg Prod.fst (h.page i hl)
  rw [hf, hm, hk i (h.live hl)]

theorem setPage_within (smc : SmCache) (i : Nat) {p : SmcPage}
    (h : p.ident = (smc.pdata i).ident) : smc.Within (smc.setPage i p) :=
  ⟨rfl, fun j _ => setPage_ident smc i j h⟩

/-- A slot that a call freed is not live. -/
theorem within_of_freed {smc smc' : SmCache} (hp : smc'.cachePath = smc.cachePath)
    (h : ∀ j, smc'.pdata j = freedPage ∨ smc'.pdata j = smc.pdata j) : smc.Within smc' := by
  refine ⟨hp, fun j hl => ?_⟩
  obtain hj | hj := h j
  · rw [hj] at hl
    cases hl
  · rw [hj]

theorem prune_cachePath (smc : SmCache) : (smcPrune smc).cachePath = smc.cachePath :=
  prune_inv (fun s => s.cachePath = smc.cachePath) rfl fun i s hs => by
    unfold pruneRound
    split
    · exact hs
    · exact hs

theorem step_within {smc smc' : SmCache} (hs : smc.Shape) {op : SmcOp} (hok : op.KeepsNames smc)
    (hst : smc.step op = some smc')
    (hget : ∀ type size attach lock env, op ≠ .getPage type size attach lock env) :
    smc.Within smc' := by
  cases op with
  | getPage type size attach lock env => exact absurd rfl (hget type size attach lock env)
  | detach pid i free =>
    cases hst
    cases free with
    | true =>
      refine within_of_freed rfl fun j => ?_
      rw [detach_pdata]
      by_cases hj : j = i
      · rw [hj, update_self]; exact .inl rfl
      · rw [update_of_ne hj]; exact .inr rfl
    | false => refine setPage_within smc i ?_; split <;> rfl
  | delExpID pid e pp =>
    cases hst
    refine within_of_freed ?_ fun j => ?_
    · refine Loop.foldl_range_inv (fun _ (s : SmCache) => s.cachePath = smc.cachePath) rfl
        fun i s _ hp => ?_
      unfold delRound
      split
      · exact hp
      · exact hp
    · rw [delExpID_pdata]
      split
      · exact .inl rfl
      · exact .inr rfl
  | reset pid =>
    cases hst
    refine within_of_freed ?_ fun j => ?_
    · exact Loop.foldl_range_inv (fun _ (s : SmCache) => s.cachePath = smc.cachePath) rfl
        fun i s _ hp => hp
    · rw [reset_pdata]
      split
      · exact .inl rfl
      · exact .inr rfl
  | smcInit pid =>
    cases hst
    refine ⟨?_, fun j hl => ?_⟩
    · show (smcPrune _).cachePath = smc.cachePath
      rw [prune_cachePath]
      refine Loop.foldl_range_inv (fun _ (s : SmCache) => s.cachePath = smc.cachePath) rfl
        fun i s _ hp => ?_
      unfold initializeRound
      split
      · exact hp
      · exact hp
    · -- no page is left
      have hsh := hs.smcInit pid
      have hlt := hsh.below j hl
      have hb := hsh.bound
      have hmem : (smcInitialize smc pid).pdata j ∈ (smcInitialize smc pid).livePages :=
        List.mem_filter.mpr ⟨mem_cells.mpr ⟨j, by omega, rfl⟩, hl⟩
      rw [smcInit_livePages hs] at hmem
      cases hmem
  | prune =>
    cases hst
    exact ⟨prune_cachePath smc, fun j hl => by
      rw [(prune_stays hok j).1 ((prune_stays hok j).2 hl)]⟩
  | setExpID i e => cases hst; exact setPage_within smc i rfl
  | setColID i c => cases hst; exact setPage_within smc i rfl

/-! ## Every call -/

section Step

variable {smc smc' : SmCache} {op : SmcOp} {key : String → Int}

/-- The page that `smcGetPage` sets up has the lock file of its slot. -/
theorem SmCache.Named.getPage (h : smc.Named) (key : String → Int) {type size : Int}
    {attach lock : Bool} {env : GetEnv} {r : GetResult} (hf : env.fopen = true)
    (hg : smcGetPage smc type size attach lock env = some (smc', r)) :
    smc'.Named ∧ (smc.Keyed key → env.ftok = key (lockName smc.cachePath smc.findSlot.toNat) →
      smc'.Keyed key) := by
  have hs' := h.shape.getPage hg
  obtain ⟨rfl, -⟩ | ⟨pnum, hslot, -, -, -, -, ho⟩ := smcGetPage_spec h.shape hg
  · exact ⟨h, fun hk _ => hk⟩
  · obtain ⟨hother, -, hpath, hcase⟩ := openPage_spec ho
    -- the new page, if there is one
    have hnew : (smc'.pdata pnum).live = true →
        (smc'.pdata pnum).lockFile = lockName smc.cachePath pnum ∧
          (smc'.pdata pnum).memKey = env.ftok := by
      intro hl
      obtain ⟨hv, -⟩ | ⟨-, -, -, -, -, hn⟩ := hcase
      · rw [hv] at hl
        cases hl
      · exact hn hf
    refine ⟨⟨hs', fun i hl => ?_⟩, fun hk hkey i hl => ?_⟩
    · rw [hpath]
      by_cases hi : i = pnum
      · subst hi
        exact (hnew hl).1
      · rw [hother i hi] at hl ⊢
        exact h.name i hl
    · by_cases hi : i = pnum
      · subst hi
        rw [hslot, Int.toNat_natCast] at hkey
        rw [(hnew hl).1, (hnew hl).2, hkey]
      · rw [hother i hi] at hl ⊢
        exact hk i hl

theorem SmCache.Named.step (h : smc.Named) (hok : op.KeepsNames smc)
    (hst : smc.step op = some smc') : smc'.Named := by
  by_cases hget : ∃ type size attach lock env, op = .getPage type size attach lock env
  · obtain ⟨type, size, attach, lock, env, rfl⟩ := hget
    obtain ⟨⟨s, r⟩, hg, rfl⟩ := Option.map_eq_some_iff.mp hst
    exact (h.getPage (fun _ => 0) hok hg).1
  · refine (step_within h.shape hok hst ?_).named (h.shape.step hst) h
    exact fun type size attach lock env he => hget ⟨type, size, attach, lock, env, he⟩

theorem SmCache.Named.step_keyed (h : smc.Named) (hk : smc.Keyed key) (hok : op.KeepsNames smc)
    (hkey : op.KeyedBy key smc) (hst : smc.step op = some smc') : smc'.Keyed key := by
  by_cases hget : ∃ type size attach lock env, op = .getPage type size attach lock env
  · obtain ⟨type, size, attach, lock, env, rfl⟩ := hget
    obtain ⟨⟨s, r⟩, hg, rfl⟩ := Option.map_eq_some_iff.mp hst
    exact (h.getPage key hok hg).2 hk hkey
  · refine (step_within h.shape hok hst ?_).keyed hk
    exact fun type size attach lock env he => hget ⟨type, size, attach, lock, env, he⟩

end Step

/-! ## Runs -/

/-- In a run in which no `smcPrune` moves a page and every lock file could be opened, two live pages
never have the same lock file; nor the same key, if `ftok` is injective on the lock files. -/
theorem lock_files_distinct (cachePath : String) (segHdr : Int) (memAllocated memAvail : BitVec 32)
    (ops : List SmcOp)
    (hok : Steps (fun smc op => op.KeepsNames smc) SmCache.step
      (SmCache.start cachePath segHdr memAllocated memAvail) ops)
    (smc : SmCache)
    (hs : run SmCache.step (SmCache.start cachePath segHdr memAllocated memAvail) ops = some smc)
    (i j : Nat) (hi : (smc.pdata i).live = true) (hj : (smc.pdata j).live = true) (hne : i ≠ j) :
    (smc.pdata i).lockFile ≠ (smc.pdata j).lockFile ∧
      ∀ key : String → Int, Injective key →
        Steps (fun smc op => op.KeyedBy key smc) SmCache.step
          (SmCache.start cachePath segHdr memAllocated memAvail) ops →
        (smc.pdata i).memKey ≠ (smc.pdata j).memKey := by
  have hstart : (SmCache.start cachePath segHdr memAllocated memAvail).Named :=
    ⟨SmCache.Shape.start _ _ _ _, fun _ h => nomatch h⟩
  have hn := Steps.run_inv (fun _ _ _ h => h.step) hstart hok hs
  have hfile : (smc.pdata i).lockFile ≠ (smc.pdata j).lockFile := by
    rw [hn.name i hi, hn.name j hj]
    exact fun h => hne (lockName_inj h)
  refine ⟨hfile, fun key hinj hkeyed hmem => ?_⟩
  have hk := Steps.run_inv (I := fun s : SmCache => s.Named ∧ s.Keyed key)
    (fun _ _ _ h hok hst => ⟨h.1.step hok.1 hst, h.1.step_keyed h.2 hok.1 hok.2 hst⟩)
    ⟨hstart, fun _ h => nomatch h⟩ (steps_and.mpr ⟨hok, hkeyed⟩) hs
  rw [hk.2 i hi, hk.2 j hj] at hmem
  exact hfile (hinj hmem)

/-- Two pages; the first is freed, the second moves down to its slot, and the next page is set up in
the second slot with the lock file that the moved page still has. -/
theorem lock_files_clash :
    ∃ smc, run SmCache.step (SmCache.start "/tmp/.smc" 200 0 0)
      [.getPage 2 1000 true true ⟨100, 0, true, true, 17, true⟩,
       .getPage 2 1000 true true ⟨100, 1, true, true, 18, true⟩,
       .detach 100 ⟨0, by decide⟩ true, .prune,
       .getPage 2 1000 true true ⟨100, 2, true, true, 18, true⟩] = some smc ∧
      (smc.pdata 0).live = true ∧ (smc.pdata 1).live = true ∧
      (smc.pdata 0).lockFile = (smc.pdata 1).lockFile := by
  have hrun : (run SmCache.step (SmCache.start "/tmp/.smc" 200 0 0)
      [.getPage 2 1000 true true ⟨100, 0, true, true, 17, true⟩,
       .getPage 2 1000 true true ⟨100, 1, true, true, 18, true⟩,
       .detach 100 ⟨0, by decide⟩ true, .prune,
       .getPage 2 1000 true true ⟨100, 2, true, true, 18, true⟩]).map
        (fun smc => ((smc.pdata 0).live, (smc.pdata 1).live,
          (smc.pdata 0).lockFile, (smc.pdata 1).lockFile)) =
      some (true, true, "/tmp/.smc_1", "/tmp/.smc_1") := by decide +kernel
  obtain ⟨smc, hs, he⟩ := Option.map_eq_some_iff.mp hrun
  simp only [Prod.mk.injEq] at he
  exact ⟨smc, hs, he.1, he.2.1, he.2.2.1.trans he.2.2.2.symm⟩

/-- Two pages. -/
theorem lock_files_distinct_two :
    ∃ smc, run SmCache.step (SmCache.start "/tmp/.smc" 200 0 0)
      [.getPage 2 1000 true true ⟨100, 0, true, true, 17, true⟩,
       .getPage 2 1000 true true ⟨100, 1, true, true, 18, true⟩] = some smc ∧
      (smc.pdata 0).lockFile ≠ (smc.pdata 1).lockFile := by
  have hrun : (run SmCache.step (SmCache.start "/tmp/.smc" 200 0 0)
      [.getPage 2 1000 true true ⟨100, 0, true, true, 17, true⟩,
       .getPage 2 1000 true true ⟨100, 1, true, true, 18, true⟩]).map
        (fun smc => ((smc.pdata 0).live, (smc.pdata 1).live)) = some (true, true) := by
    decide +kernel
  obtain ⟨smc, hs, he⟩ := Option.map_eq_some_iff.mp hrun
  obtain ⟨h0, h1⟩ := Prod.mk.inj he
  refine ⟨smc, hs, (lock_files_distinct "/tmp/.smc" 200 0 0 _ ?_ smc hs 0 1 h0 h1 (by decide)).1⟩
  exact ⟨rfl, fun _ _ => ⟨rfl, fun _ _ => trivial⟩⟩

end Ndhs
