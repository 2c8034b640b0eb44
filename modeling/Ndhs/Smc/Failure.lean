import Ndhs.Smc.TableInv

/-!
# A page that cannot be allocated

`smcGetPage` asks the system for a segment in several places: `calloc` of the header, `fopen` and `ftok` in
`smUtilInitSegment`, and `shmget`, `shmat` and `fopen` in `smUtilAttach` (`lib/smc/smUtil.c`). `SysEnv` has what each
of them returns.

* If `smUtilAttach` fails, the header is written to `NULL`, unless the flag `new`, which has the identifier by then, is
  zero: `SysEnv.getEnv` says whether the process lives on.
* `failed_getPage_iff`: whether the cache is as before after a call that failed.
-/

namespace Ndhs

open Function

/-- What `shmget`, `shmat` and `fopen` return in `smUtilAttach`. `shmget` has the identifier. -/
structure AttachEnv where
  shmget : Option Int
  shmat : Bool
  fopen : Bool

/-- `smUtilAttach`: whether there is an address, and the flag `create` after the call -/
def smUtilAttach (memKey : Int) (size : BitVec 32) (create : Int) (env : AttachEnv) : Bool × Int :=
  if memKey = 0 ∨ size = 0 then (false, create)
  else
    match env.shmget with
    | none => (false, -1)
    | some shmId =>
      if !env.shmat then (false, -1)
      else if !env.fopen then (false, -1)
      else (true, shmId)

/-- What the calls in `smcGetPage` return. `empty`: the lock file is a new one. -/
structure SysEnv where
  pid : Nat
  time : Rat
  calloc : Bool
  fopen : Bool
  empty : Bool
  ftok : Int
  attach : AttachEnv

/-- What `smcGetPage` is told of the calls; the last of them: the header is not written to `NULL`. -/
def SysEnv.getEnv (env : SysEnv) (size : BitVec 32) : GetEnv where
  pid := env.pid
  time := env.time
  calloc := env.calloc
  fopen := env.fopen
  ftok := env.ftok
  attach :=
    let memKey := if env.fopen then env.ftok else -1
    let (sp, new) := smUtilAttach memKey size (if env.fopen && env.empty then 1 else 0) env.attach
    sp || new == 0

/-- The size of the page for a request -/
def SmCache.pageSize (smc : SmCache) (size : Int) : BitVec 32 :=
  BitVec.ofInt 32 ((smc.segHdr + 1) + (size + 1) + 1)

/-- `smcGetPage`, with the calls of the system -/
def getPage (smc : SmCache) (type size : Int) (attach lock : Bool) (env : SysEnv) : Option (SmCache × GetResult) :=
  smcGetPage smc type size attach lock (env.getEnv (smc.pageSize size))

/-- One of the calls in `smUtilAttach` fails. -/
def AttachEnv.Fails (env : AttachEnv) : Prop :=
  env.shmget = none ∨ env.shmat = false ∨ env.fopen = false

/-- `smcGetPage` goes on to allocate a page, and one of the calls that it makes fails. -/
structure SysEnv.Fails (env : SysEnv) (smc : SmCache) (size : Int) (attach : Bool) : Prop where
  small : size ≤ maxSegSize
  room : smc.npages < smc.npMax
  call : env.calloc = false ∨ env.fopen = false ∨ env.ftok = -1 ∨
    attach = true ∧ env.ftok ≠ 0 ∧ smc.pageSize size ≠ 0 ∧ env.attach.Fails

/-- The result is `NULL`, and the counters and the slots are as before. -/
def Unchanged (smc : SmCache) (r : Option (SmCache × GetResult)) : Prop :=
  ∃ smc', r = some (smc', .null) ∧ smc'.npages = smc.npages ∧ smc'.top = smc.top ∧
    smc'.memAllocated = smc.memAllocated ∧ smc'.memAvail = smc.memAvail ∧ smc'.pdata = smc.pdata

section Failure

variable {smc : SmCache} {type size : Int} {attach lock : Bool} {env : SysEnv} {pnum : Nat}

/-- The header is the first thing that is allocated, after the slot and the counters. -/
theorem openPage_calloc {env : GetEnv} (h : env.calloc = false) :
    smc.openPage pnum type size attach lock env =
      ({ smc.setPage pnum (newPage smc pnum type size env) with
        memAllocated := smc.memAllocated + smc.pageSize size
        memAvail := smc.memAvail - smc.pageSize size }, .null) := by
  unfold SmCache.openPage
  dsimp only
  rw [h]
  rfl

/-- No other failure has the result `NULL`. -/
theorem openPage_null {env : GetEnv} (h : env.calloc = true) :
    (smc.openPage pnum type size attach lock env).2 = .null ↔ env.fopen = true ∧ env.ftok = 0 := by
  unfold SmCache.openPage smUtilInitSegment
  cases hf : env.fopen with
  | false =>
    simp only [h, Bool.not_true, Bool.false_eq_true, if_false, show (-1 : Int) ≠ 0 by decide]
    split <;> simp
  | true =>
    simp only [h, Bool.not_true, Bool.false_eq_true, if_false, if_true]
    split
    · next hk => simpa using hk
    · next hk =>
      split
      · simpa using hk
      · simpa using hk

/-- After a failure the result is `NULL` and the cache as before just if the header was not allocated, and the slot had
been set up by a call at the same time, for a page of size zero. -/
theorem failed_getPage_iff (h : env.Fails smc size attach) :
    Unchanged smc (getPage smc type size attach lock env) ↔
      env.calloc = false ∧ (0 ≤ smc.findSlot ∧ smc.findSlot < maxSegs) ∧ smc.pageSize size = 0 ∧
        smc.pdata smc.findSlot.toNat =
          newPage smc smc.findSlot.toNat type size (env.getEnv (smc.pageSize size)) := by
  have hsize := h.small
  have hnpages := h.room
  unfold getPage smcGetPage
  rw [if_neg (by omega), if_neg (by omega)]
  dsimp only
  generalize henv : env.getEnv (smc.pageSize size) = e
  have hcalloc : e.calloc = env.calloc := by rw [← henv]; rfl
  constructor
  · rintro ⟨smc', hr, -, -, hmem, -, hpdata⟩
    obtain ⟨hslot, hr⟩ := Option.ite_none_right_eq_some.mp hr
    have hnull : (smc.openPage smc.findSlot.toNat type size attach lock e).2 = .null := by
      rw [Option.some.inj hr]
    have hfail : env.calloc = false := by
      by_contra hc
      have hc : env.calloc = true := by simpa using hc
      obtain ⟨hf, hk⟩ := (openPage_null (hcalloc.trans hc)).mp hnull
      rw [← henv] at hf hk
      obtain hf' | hf' | hf' | hf' := h.call
      · rw [hf'] at hc
        cases hc
      · exact absurd (hf.symm.trans hf') (by decide)
      · exact absurd (hk.symm.trans hf') (by decide)
      · exact hf'.2.1 hk
    rw [openPage_calloc (hcalloc.trans hfail), Option.some.injEq, Prod.mk.injEq] at hr
    obtain ⟨rfl, -⟩ := hr
    refine ⟨hfail, hslot, by simpa using hmem, ?_⟩
    have hpage := congrFun hpdata smc.findSlot.toNat
    simpa [SmCache.setPage] using hpage.symm
  · rintro ⟨hfail, hslot, hzero, hpage⟩
    rw [if_pos hslot, openPage_calloc (hcalloc.trans hfail)]
    refine ⟨_, rfl, rfl, rfl, ?_, ?_, ?_⟩
    · simp [hzero]
    · simp [hzero]
    · simp only [SmCache.setPage, ← hpage, update_eq_self]

end Failure

/-- The calls at one time, if there is no memory -/
def noMemory : SysEnv := ⟨100, 0, false, true, true, 17, ⟨some 5, true, true⟩⟩

/-- A request for a size that gives a page of size zero, in a slot that is set up for it already -/
theorem failed_getPage_again :
    Unchanged { SmCache.start "/tmp/.smc" 200 0 0 with
        pdata := fun _ => newPage (SmCache.start "/tmp/.smc" 200 0 0) 0 2 (-203) (noMemory.getEnv 0) }
      (getPage { SmCache.start "/tmp/.smc" 200 0 0 with
        pdata := fun _ => newPage (SmCache.start "/tmp/.smc" 200 0 0) 0 2 (-203) (noMemory.getEnv 0) }
        2 (-203) true true noMemory) :=
  (failed_getPage_iff ⟨by decide, by decide, .inl rfl⟩).mpr ⟨rfl, by decide, by decide, rfl⟩

/-- There is no segment to attach to: the process dies, and the page has been counted. -/
theorem failed_getPage_not :
    ∃ env : SysEnv, env.Fails (SmCache.start "/tmp/.smc" 200 0 0) 1000 true ∧
      ((getPage (SmCache.start "/tmp/.smc" 200 0 0) 2 1000 true true env).map fun r => (r.1.npages, r.2)) =
        some (1, .crash) ∧
      ¬ Unchanged (SmCache.start "/tmp/.smc" 200 0 0) (getPage (SmCache.start "/tmp/.smc" 200 0 0) 2 1000 true true env) := by
  have hrun : ((getPage (SmCache.start "/tmp/.smc" 200 0 0) 2 1000 true true
      ⟨100, 0, true, true, true, 17, ⟨none, true, true⟩⟩).map fun r => (r.1.npages, r.2)) = some (1, .crash) := by
    decide +kernel
  refine ⟨⟨100, 0, true, true, true, 17, ⟨none, true, true⟩⟩, ⟨by decide, by decide, ?_⟩, hrun, ?_⟩
  · exact .inr (.inr (.inr ⟨rfl, by decide, by decide, .inl rfl⟩))
  · rintro ⟨smc', hr, -⟩
    rw [hr, Option.map_some, Option.some.injEq, Prod.mk.injEq] at hrun
    cases hrun.2

end Ndhs
