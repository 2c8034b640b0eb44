import Ndhs.Lib.Cells
import Ndhs.Lib.Run
import Ndhs.Smc.ExpID

/-!
# The page table of the shared memory cache (`lib/smc/smCache.c`)

The cache has a fixed array of `MAX_SEGS` page slots. A slot is live if its `memKey` is not zero;
`top` bounds the live slots, and slots below `top` that are not live are voids. The calls run one
at a time, under the cache's lock.

The contents of the shared segments and the process state array of each page (`Smc/State.lean`) are
left out: none of the functions here looks at them to decide what happens to a slot. What the
operating system answers to a call of `smcGetPage` is an argument of it, `GetEnv`.

`smcDelExpID` is from `smcmgr/smcProcess.c`.
-/

namespace Ndhs

open Function Machine Cells

/-- `MAX_SEGS` -/
def maxSegs : Nat := 4096

/-- `MAX_SEG_SIZE` -/
def maxSegSize : Int := 33550336

/-- `TY_VOID`, `TY_DATA`, `TY_META` -/
def tyVoid : Int := 1
def tyData : Int := 2
def tyMeta : Int := 3

/-- `smcPage_t` -/
structure SmcPage where
  memKey : Int := 0
  lockFile : String := ""
  size : BitVec 32 := 0
  free : Bool := false
  type : Int := 0
  ctime : Rat := 0
  cpid : Nat := 0
  nattached : Int := 0
  initialized : Bool := false
  expID : ExpID := 0
  colID : String := ""
  acLocked : Bool := false

/-- The slot holds a page. -/
def SmcPage.live (p : SmcPage) : Bool := p.memKey != 0

/-- `smCache_t`. `cachePath` is `sysConfig.cache_path`, and `segHdr` is `sizeof (smcSegment_t)`. -/
structure SmCache where
  pdata : Nat → SmcPage := fun _ => {}
  npages : Int := 0
  top : Int := 0
  npMax : Int := maxSegs
  npHiwater : Int := 0
  memAllocated : BitVec 32 := 0
  memAvail : BitVec 32 := 0
  cachePath : String := ""
  segHdr : Int := 0
  seqno : Int := 0
  dirpath : String := ""
  froot : String := ""

/-- The result of `smcGetPage`: a page, by its slot; `NULL`; or the process dies on the `NULL` that
`smUtilAttach` returned. -/
inductive GetResult where
  | page (pnum : Nat)
  | null
  | crash
  deriving DecidableEq

/-- What the calls in `smcGetPage` return: `smPid`, `smUtilTime`, `calloc`, `fopen` of the lock file,
`ftok`, `smUtilAttach`. -/
structure GetEnv where
  pid : Nat
  time : Rat
  calloc : Bool
  fopen : Bool
  ftok : Int
  attach : Bool

/-- `sprintf (p->lockFile, "%s_%d", cache_path, pnum)` -/
def lockName (cachePath : String) (pnum : Nat) : String := cachePath ++ "_" ++ toString pnum

/-- `smUtilInitSegment`: the key of the segment, and the lock file's name, which is cleared if the
file cannot be opened. -/
def smUtilInitSegment (lockFile : String) (env : GetEnv) : Int × String :=
  if env.fopen then (env.ftok, lockFile) else (-1, "")

/-- The slot search of `smcGetPage`: the first slot below `top` that is void, or free with nobody
attached; `top` if there is none. -/
def SmCache.findSlot (smc : SmCache) : Int :=
  match (List.range smc.top.toNat).find? fun i =>
      (smc.pdata i).memKey == 0 || ((smc.pdata i).nattached == 0 && (smc.pdata i).free) with
  | some i => i
  | none => smc.top

/-- `smc->pdata[i] = p` -/
def SmCache.setPage (smc : SmCache) (i : Nat) (p : SmcPage) : SmCache :=
  { smc with pdata := update smc.pdata i p }

/-- The page that `smcGetPage` sets up before it opens the segment. -/
def newPage (smc : SmCache) (pnum : Nat) (type size : Int) (env : GetEnv) : SmcPage :=
  { lockFile := lockName smc.cachePath pnum
    size := BitVec.ofInt 32 ((smc.segHdr + 1) + (size + 1) + 1)
    type := type
    ctime := env.time
    cpid := env.pid }

/-- The rest of `smcGetPage`, for the slot `pnum` that the search found. -/
def SmCache.openPage (smc : SmCache) (pnum : Nat) (type size : Int) (attach lock : Bool)
    (env : GetEnv) : SmCache × GetResult :=
  let p := newPage smc pnum type size env
  let smc := { smc.setPage pnum p with
    memAllocated := smc.memAllocated + p.size
    memAvail := smc.memAvail - p.size }
  if !env.calloc then (smc, .null)
  else
    let (memKey, lockFile) := smUtilInitSegment p.lockFile env
    let p := { p with memKey := memKey, lockFile := lockFile }
    let smc := smc.setPage pnum p
    if p.memKey = 0 then (smc, .null)
    else
      let smc := { smc with
        npages := smc.npages + 1
        top := if (pnum : Int) = smc.top then smc.top + 1 else smc.top }
      if attach && !env.attach then (smc, .crash)
      else
        (smc.setPage pnum { p with initialized := attach, free := false, acLocked := lock },
          .page pnum)

/-- `smcGetPage`: get an empty page slot from the cache. `none`: the slot is not in the array. -/
def smcGetPage (smc : SmCache) (type size : Int) (attach lock : Bool) (env : GetEnv) :
    Option (SmCache × GetResult) :=
  if maxSegSize < size then some (smc, .null)
  else if smc.npMax ≤ smc.npages then some (smc, .null)
  else
    let pnum := smc.findSlot
    if 0 ≤ pnum ∧ pnum < maxSegs then some (smc.openPage pnum.toNat type size attach lock env)
    else none

/-- `smcDetach`: detach from the page in slot `i`, by the process `pid`. -/
def smcDetach (smc : SmCache) (pid i : Nat) (free : Bool) : SmCache :=
  let page := smc.pdata i
  let page := if page.cpid = pid then { page with acLocked := false } else page
  if free then
    { smc.setPage i { free := true } with
      npages := smc.npages - 1
      top := if (i : Int) = smc.top - 1 then smc.top - 1 else smc.top
      memAllocated := smc.memAllocated - page.size
      memAvail := smc.memAvail + page.size }
  else smc.setPage i page

/-- One round of `smcPrune`: `top` is the local variable. -/
def pruneRound (smc : SmCache) (i : Nat) : SmCache :=
  if (i : Int) < smc.top ∧ (smc.pdata i).memKey = 0 then
    { smc with pdata := shiftDown {} smc.pdata i smc.top.toNat, top := smc.top - 1 }
  else smc

/-- `smcPrune`: re-order the array to remove any voids. -/
def smcPrune (smc : SmCache) : SmCache :=
  (List.range smc.top.toNat).foldl pruneRound
    { smc with npHiwater := if smc.npHiwater < smc.top then smc.top else smc.npHiwater }

/-- `smcReset`: delete all active pages. -/
def smcReset (smc : SmCache) (pid : Nat) : SmCache :=
  (List.range smc.top.toNat).foldl (fun smc i => smcDetach smc pid i true) smc

/-- `smcFreePage` -/
def smcFreePage (smc : SmCache) (i : Nat) : SmCache := smc.setPage i { free := true }

/-- One round of `smcInitialize`. -/
def initializeRound (pid : Nat) (smc : SmCache) (i : Nat) : SmCache :=
  if (smc.pdata i).memKey = 0 then smc else smcFreePage (smcDetach smc pid i true) i

/-- `DEF_DIRPATH` and `DEF_FROOT` -/
def defDirpath : String := "./"
def defFroot : String := "image"

/-- `smcInitialize`: free the pages that may be left around. -/
def smcInitialize (smc : SmCache) (pid : Nat) : SmCache :=
  let smc := (List.range smc.npMax.toNat).foldl (initializeRound pid) smc
  { smcPrune smc with seqno := 0, dirpath := defDirpath, froot := defFroot }

/-- `strstr (s, sub) != NULL` -/
def strstr : List Char → List Char → Bool
  | [], sub => sub.isEmpty
  | c :: s, sub => sub.isPrefixOf (c :: s) || strstr s sub

/-- `procPages && strstr (procPages, colID) == NULL` is false. -/
def passes (procPages : Option String) (colID : String) : Bool :=
  match procPages with
  | none => true
  | some s => strstr s.toList colID.toList

/-- The page is one that `smcDelExpID` deletes. -/
def SmcPage.matches (p : SmcPage) (expID : ExpID) (procPages : Option String) : Bool :=
  passes procPages p.colID && smcEqualExpID p.expID expID

/-- One round of `smcDelExpID`. -/
def delRound (pid : Nat) (expID : ExpID) (procPages : Option String) (smc : SmCache) (i : Nat) :
    SmCache :=
  if (i : Int) < smc.top ∧ (smc.pdata i).matches expID procPages = true then
    smcDetach (smc.setPage i { smc.pdata i with acLocked := false }) pid i true
  else smc

/-- `smcDelExpID`: delete the pages of an exposure. `smc->top` is read in every round. -/
def smcDelExpID (smc : SmCache) (pid : Nat) (expID : ExpID) (procPages : Option String) : SmCache :=
  (List.range smc.top.toNat).foldl (delRound pid expID procPages) smc

/-! ## Runs -/

/-- A call on the page table. A page is given by its slot; `smcSetExpID` and `smcSetColID` are what
its creator calls after `smcGetPage`. -/
inductive SmcOp where
  | getPage (type size : Int) (attach lock : Bool) (env : GetEnv)
  | detach (pid : Nat) (i : Fin maxSegs) (free : Bool)
  | delExpID (pid : Nat) (expID : ExpID) (procPages : Option String)
  | reset (pid : Nat)
  | smcInit (pid : Nat)
  | prune
  | setExpID (i : Fin maxSegs) (expID : ExpID)
  | setColID (i : Fin maxSegs) (colID : String)

/-- One call; `none` if it writes outside of the array. -/
def SmCache.step (smc : SmCache) : SmcOp → Option SmCache
  | .getPage type size attach lock env => (smcGetPage smc type size attach lock env).map Prod.fst
  | .detach pid i free => some (smcDetach smc pid i free)
  | .delExpID pid expID procPages => some (smcDelExpID smc pid expID procPages)
  | .reset pid => some (smcReset smc pid)
  | .smcInit pid => some (smcInitialize smc pid)
  | .prune => some (smcPrune smc)
  | .setExpID i expID => some (smc.setPage i { smc.pdata i with expID := expID })
  | .setColID i colID => some (smc.setPage i { smc.pdata i with colID := colID })

/-- A new cache. -/
def SmCache.start (cachePath : String) (segHdr : Int) (memAllocated memAvail : BitVec 32) : SmCache :=
  { cachePath, segHdr, memAllocated, memAvail }

/-- The live pages, in slot order. -/
def SmCache.livePages (smc : SmCache) : List SmcPage :=
  (cells smc.pdata maxSegs).filter SmcPage.live

end Ndhs
