import Ndhs.Lib.Text
import Ndhs.Smc.Table

/-!
# Saving the sky frame (`smProcImtype` in `smcmgr/mbusMsgHandler.c`)

On the message `imtype <expID> sky` the pixels of the pages of an exposure are to be copied to the sky frame, for the
subtraction from later frames. `smcAttach` and `smcDetach` are left out: they change neither the pixels of a page nor
what the loop looks at.

`ip`, with which the type is read, is not set before. The text that it points to is an argument here. So is what the
system does (`SkyHeap`): the contents of a new block, whether `realloc` moves a block, which is then lost since its
result is dropped, and the addresses of the segments. An access outside of `frame[]`, of a block, of a text or of the
pixels of a page has no result.

* `slot_iff`: whatever the system does, the code leaves the pixels of a page unchanged if nothing is copied to it, and
  only then. `bcopy` copies from the frame to the page, through a pointer that does not lead to its pixels.
* `saveLoop_eq_some`: the loop over the pages, slot by slot. The frame of a page has the number of its slot.
* `savesSky_iff`: the messages that are answered as they should be.
-/

namespace Ndhs

open Function Text

/-- `MAX_SKY_FRAMES` -/
def maxSkyFrames : Nat := 4

/-- What the `data` pointer of a frame points to; a block that was freed is of no use. -/
inductive SkyData where
  | null
  | block (bytes : List UInt8)
  | freed
  deriving DecidableEq

/-- `skyBuf` -/
structure SkyBuf where
  colID : Str := []
  expPageNum : Int := 0
  dsize : Nat := 0
  data : SkyData := .null
  deriving DecidableEq

/-- `skyFrame` -/
structure SkyFrame where
  expID : ExpID := 0
  obsSetID : Str := []
  frame : Nat → SkyBuf := fun _ => {}

/-- The part of `smcSegment_t` that is used here. `data` is the `dsize` bytes of the data area. -/
structure SkySegment where
  obsetID : Str := []
  colID : Str := []
  expPageNum : Int := 0
  data : List UInt8 := []
  deriving DecidableEq

def SkySegment.dsize (seg : SkySegment) : Nat := seg.data.length

/-- The memory. `malloc i n` is what a new block of `n` bytes has in it, in the round for slot `i`. `realloc` gives the
block with its new size, or `none` if the block was moved. The segment of slot `i` was attached at `creator i` by the
process that made it, and is at `addr i` here; its header has `sizeof` bytes. -/
structure SkyHeap where
  malloc : Nat → Nat → List UInt8
  realloc : List UInt8 → Nat → Option (List UInt8)
  creator : Nat → Nat
  addr : Nat → Nat
  sizeof : Nat
  malloc_length : ∀ i n, (malloc i n).length = n
  realloc_length : ∀ b n b', realloc b n = some b' → b'.length = n
  realloc_take : ∀ b n b', realloc b n = some b' → b'.take b.length = b.take n

/-- `seg->data`, which `smcGetPage` has set to `sp + sizeof (smcSegment_t)`: so many headers behind the start. -/
def SkyHeap.data (h : SkyHeap) (i : Nat) : Nat := h.creator i + h.sizeof * h.sizeof

/-- `smcGetPageData`, where the pixels are -/
def SkyHeap.pageData (h : SkyHeap) (i : Nat) : Nat := h.addr i + h.sizeof

/-- `bcopy (data, seg->data, seg->dsize)`, for the page in slot `i` -/
def SkyHeap.bcopy (h : SkyHeap) (i : Nat) (data : SkyData) (seg : SkySegment) : Option SkySegment :=
  match data with
  | .block b =>
    if b.length < seg.dsize then none
    else if seg.dsize = 0 then some seg
    else if h.data i = h.pageData i then some { seg with data := b.take seg.dsize }
    else none
  | _ => none

/-- `if (dsize != seg->dsize) (void) realloc (data, seg->dsize);` -/
def SkyBuf.realloc (h : SkyHeap) (b : SkyBuf) (n : Nat) : Option SkyBuf :=
  if b.dsize = n then some b
  else match b.data with
    | .block bytes =>
      some { b with data := match h.realloc bytes n with
        | some bytes => .block bytes
        | none => .freed }
    | _ => none

/-- `expPageNum == expnum && strcasecmp (colID, …) == 0` -/
def SkyBuf.isFor (b : SkyBuf) (seg : SkySegment) : Bool :=
  b.expPageNum = seg.expPageNum && streq b.colID seg.colID

/-- `for (j=0; j < MAX_SKY_FRAMES; j++)`, the last `k` rounds of it, for the page in slot `i`. Every round looks at
`frame[i]`, which is `b`. -/
def frameLoop (h : SkyHeap) (i : Nat) : Nat → SkyBuf → SkySegment → Option (SkyBuf × SkySegment)
  | 0, b, seg => some (b, seg)
  | k + 1, b, seg =>
    if b.data = .null then do
      let data := SkyData.block (h.malloc i seg.dsize)
      let seg' ← h.bcopy i data seg
      some (⟨seg.colID, seg.expPageNum, seg.dsize, data⟩, seg')
    else do
      let b ← b.realloc h seg.dsize
      if b.isFor seg then do
        let seg' ← h.bcopy i b.data seg
        some ({ b with dsize := seg.dsize }, seg')
      else frameLoop h i k b seg

/-- A page whose pixels are saved. -/
def SmcPage.isSky (p : SmcPage) (expID : ExpID) (procPages : Option String) : Bool :=
  p.live && p.matches expID procPages && (p.type == tyData || p.type == tyVoid)

/-- The static `skyframe`, and the segments of the pages. -/
structure SmcSky where
  skyframe : Option SkyFrame := none
  seg : Nat → SkySegment := fun _ => {}

section Program

variable (smc : SmCache) (procPages : Option String) (h : SkyHeap)

/-- The round for slot `i` of the loop over the pages. -/
def saveRound (expID : ExpID) (c : SkyFrame × (Nat → SkySegment)) (i : Nat) :
    Option (SkyFrame × (Nat → SkySegment)) :=
  if (smc.pdata i).isSky expID procPages then
    if i < maxSkyFrames then do
      let (b, seg) ← frameLoop h i maxSkyFrames (c.1.frame i) (c.2 i)
      some ({ c.1 with obsSetID := (c.2 i).obsetID, frame := update c.1.frame i b }, update c.2 i seg)
    else none
  else some c

/-- The image type: skip the exposure id and the space behind it. Without a space the text is left, and a long type
does not fit into `type[SZ_FNAME]`. -/
def imageType (ip : Str) : Option Str :=
  match ip.dropWhile fun c => !isSpace c with
  | [] => none
  | _ :: type => if type.length < 64 then some type else none

/-- `SKY` -/
def sky : Str := ['s', 'k', 'y']

/-- `smProcImtype` -/
def smProcImtype (skysub : Int) (ip : Str) (st : SmcSky) (msg : Str) : Option SmcSky := do
  let expID := atof msg
  let type ← imageType ip
  if skysub = 0 ∨ streq sky type = false then some st
  else do
    let skyframe := { st.skyframe.getD {} with expID := expID }
    let (skyframe, seg) ← (List.range smc.top.toNat).foldlM (saveRound smc procPages h expID) (skyframe, st.seg)
    some ⟨some skyframe, seg⟩

end Program

/-! ## One slot -/

/-- A frame that has the pixels of the page, under its collector and page number. -/
structure SkyBuf.Holds (b : SkyBuf) (seg : SkySegment) : Prop where
  isFor : b.isFor seg = true
  dsize : b.dsize = seg.dsize
  data : ∃ bytes, b.data = .block bytes ∧ bytes.take seg.dsize = seg.data

/-- Nothing is copied to the page: it is empty, or the frame is in use, of the page's size, and not for the page. -/
def SlotOk (b : SkyBuf) (seg : SkySegment) : Prop :=
  if b.data = .null then seg.data = []
  else b.dsize = seg.dsize ∧ (b.isFor seg = true → b.Holds seg ∧ seg.data = [])

/-- The frame after a round that copies nothing. -/
def keptBuf (b : SkyBuf) (seg : SkySegment) : SkyBuf :=
  if b.data = .null then ⟨seg.colID, seg.expPageNum, 0, .block []⟩ else b

/-- A memory in which resized blocks are moved, and all segments are where they were made. -/
def SkyHeap.moving : SkyHeap where
  malloc _ n := List.replicate n 0
  realloc _ _ := none
  creator _ := 4096
  addr _ := 4096
  sizeof := 4096
  malloc_length _ _ := List.length_replicate
  realloc_length _ _ _ h := nomatch h
  realloc_take _ _ _ h := nomatch h

section Slot

variable {h : SkyHeap} {i k : Nat} {b : SkyBuf} {seg : SkySegment}

/-- Nothing to copy -/
theorem SkyHeap.bcopy_nil {bytes : List UInt8} (hseg : seg.data = []) : h.bcopy i (.block bytes) seg = some seg := by
  have hsize : seg.dsize = 0 := by rw [SkySegment.dsize, hseg]; rfl
  rw [SkyHeap.bcopy, if_neg (by omega), if_pos hsize]

/-- The pixels are not where the pointer leads to. -/
theorem SkyHeap.bcopy_moving {data : SkyData} (hseg : seg.data ≠ []) : SkyHeap.moving.bcopy i data seg = none := by
  have hsize : seg.dsize ≠ 0 := fun h0 => hseg (List.length_eq_zero_iff.mp h0)
  have hptr : SkyHeap.moving.data i ≠ SkyHeap.moving.pageData i := by
    change 4096 + 4096 * 4096 ≠ 4096 + 4096
    decide
  cases data with
  | block b => rw [SkyHeap.bcopy, if_neg hsize, if_neg hptr, ite_self]
  | _ => rfl

theorem SkyBuf.realloc_same (hd : b.dsize = seg.dsize) : b.realloc h seg.dsize = some b := if_pos hd

theorem frameLoop_null (hn : b.data = .null) :
    frameLoop h i (k + 1) b seg = (h.bcopy i (.block (h.malloc i seg.dsize)) seg).map fun seg' =>
      (⟨seg.colID, seg.expPageNum, seg.dsize, .block (h.malloc i seg.dsize)⟩, seg') := by
  rw [frameLoop, if_pos hn]
  dsimp only
  cases h.bcopy i (.block (h.malloc i seg.dsize)) seg <;> rfl

/-- Another page's frame of the same size -/
theorem frameLoop_other (hn : b.data ≠ .null) (hd : b.dsize = seg.dsize) (hf : b.isFor seg = false) (k : Nat) :
    frameLoop h i k b seg = some (b, seg) := by
  induction k with
  | zero => rfl
  | succ k ih =>
    rw [frameLoop, if_neg hn, SkyBuf.realloc_same hd]
    exact (if_neg (by simp [hf])).trans ih

/-- The page's own frame -/
theorem frameLoop_own (hn : b.data ≠ .null) (hd : b.dsize = seg.dsize) (hf : b.isFor seg = true) :
    frameLoop h i (k + 1) b seg = (h.bcopy i b.data seg).map fun seg' => (b, seg') := by
  rw [frameLoop, if_neg hn, SkyBuf.realloc_same hd]
  refine (if_pos hf).trans ?_
  cases h.bcopy i b.data seg with
  | none => rfl
  | some seg' => rw [Option.map_some, ← hd]; rfl

/-- A frame whose block is gone -/
theorem frameLoop_freed (hn : b.data = .freed) (hd : b.dsize ≠ seg.dsize) : frameLoop h i (k + 1) b seg = none := by
  rw [frameLoop, if_neg (by simp [hn]), SkyBuf.realloc, if_neg hd, hn]
  rfl

/-- A frame of another size is lost if its block is moved. -/
theorem frameLoop_moved (hn : b.data ≠ .null) (hd : b.dsize ≠ seg.dsize) :
    frameLoop .moving i (k + 2) b seg = none := by
  rw [frameLoop, if_neg hn, SkyBuf.realloc, if_neg hd]
  cases hb : b.data with
  | null => exact absurd hb hn
  | freed => rfl
  | block bytes =>
    show (if SkyBuf.isFor { b with data := .freed } seg then _
      else frameLoop .moving i (k + 1) { b with data := .freed } seg) = none
    split
    · rfl
    · exact frameLoop_freed rfl hd

/-- A round that copies nothing -/
theorem SlotOk.frameLoop (hok : SlotOk b seg) : frameLoop h i (k + 1) b seg = some (keptBuf b seg, seg) := by
  by_cases hn : b.data = .null
  · have hempty : seg.data = [] := by rwa [SlotOk, if_pos hn] at hok
    have hsize : seg.dsize = 0 := by rw [SkySegment.dsize, hempty]; rfl
    have hnew : h.malloc i 0 = [] := List.length_eq_zero_iff.mp (h.malloc_length i 0)
    rw [frameLoop_null hn, keptBuf, if_pos hn, SkyHeap.bcopy_nil hempty, hsize, hnew]
    rfl
  · rw [SlotOk, if_neg hn] at hok
    obtain ⟨hd, hold⟩ := hok
    rw [keptBuf, if_neg hn]
    cases hf : b.isFor seg with
    | false => exact frameLoop_other hn hd hf (k + 1)
    | true =>
      obtain ⟨⟨-, -, bytes, hb, -⟩, hempty⟩ := hold hf
      rw [frameLoop_own hn hd hf, hb, SkyHeap.bcopy_nil hempty]
      rfl

/-- The pixels of a page stay, whatever the system does. -/
theorem slot_iff :
    (∀ h, ∃ r, frameLoop h i (k + 2) b seg = some r ∧ r.2.data = seg.data) ↔ SlotOk b seg := by
  refine ⟨fun hall => ?_, fun hok h => ⟨_, hok.frameLoop, rfl⟩⟩
  obtain ⟨r, hr, -⟩ := hall .moving
  by_cases hn : b.data = .null
  · rw [SlotOk, if_pos hn]
    by_contra hne
    rw [frameLoop_null hn, SkyHeap.bcopy_moving hne] at hr
    cases hr
  · rw [SlotOk, if_neg hn]
    have hd : b.dsize = seg.dsize := by
      by_contra hd
      rw [frameLoop_moved hn hd] at hr
      cases hr
    refine ⟨hd, fun hf => ?_⟩
    rw [frameLoop_own hn hd hf] at hr
    have hempty : seg.data = [] := by
      by_contra hne
      rw [SkyHeap.bcopy_moving hne] at hr
      cases hr
    refine ⟨⟨hf, hd, ?_⟩, hempty⟩
    have hsize : seg.dsize = 0 := by rw [SkySegment.dsize, hempty]; rfl
    cases hbd : b.data with
    | null => exact absurd hbd hn
    | freed => rw [hbd] at hr; cases hr
    | block old => exact ⟨old, rfl, by rw [hsize, List.take_zero, hempty]⟩

end Slot

/-! ## The loop over the pages -/

/-- The observation id of the last of the first `n` pages that is saved -/
def lastObsSetID (smc : SmCache) (procPages : Option String) (expID : ExpID) (seg : Nat → SkySegment) (obs : Str) :
    Nat → Str
  | 0 => obs
  | n + 1 =>
    if (smc.pdata n).isSky expID procPages then (seg n).obsetID
    else lastObsSetID smc procPages expID seg obs n

section Pages

variable {smc : SmCache} {procPages : Option String} {expID : ExpID} {h : SkyHeap}

/-- The slots of the saved pages below `n` -/
def SkySlots (smc : SmCache) (procPages : Option String) (expID : ExpID) (n i : Nat) : Prop :=
  i < n ∧ (smc.pdata i).isSky expID procPages = true

theorem skySlots_succ {n i : Nat} :
    SkySlots smc procPages expID (n + 1) i ↔
      SkySlots smc procPages expID n i ∨ i = n ∧ (smc.pdata n).isSky expID procPages = true := by
  constructor
  · rintro ⟨hlt, hs⟩
    rcases Nat.lt_succ_iff_lt_or_eq.mp hlt with hlt | rfl
    · exact .inl ⟨hlt, hs⟩
    · exact .inr ⟨rfl, hs⟩
  · rintro (⟨hlt, hs⟩ | ⟨rfl, hs⟩)
    · exact ⟨Nat.lt_succ_of_lt hlt, hs⟩
    · exact ⟨Nat.lt_succ_self i, hs⟩

/-- The loop, slot by slot: a page and its frame change together. -/
theorem saveLoop_eq_some {f f' : SkyFrame} {seg seg' : Nat → SkySegment} {n : Nat} :
    (List.range n).foldlM (saveRound smc procPages h expID) (f, seg) = some (f', seg') ↔
      (∀ i, SkySlots smc procPages expID n i →
        i < maxSkyFrames ∧ frameLoop h i maxSkyFrames (f.frame i) (seg i) = some (f'.frame i, seg' i)) ∧
      (∀ i, ¬ SkySlots smc procPages expID n i → f'.frame i = f.frame i ∧ seg' i = seg i) ∧
      f'.expID = f.expID ∧ f'.obsSetID = lastObsSetID smc procPages expID seg f.obsSetID n := by
  induction n generalizing f' seg' with
  | zero =>
    simp only [List.range_zero, List.foldlM_nil, SkySlots, Nat.not_lt_zero, false_and, not_false_eq_true,
      true_imp_iff, IsEmpty.forall_iff, implies_true, true_and, lastObsSetID]
    constructor
    · intro heq
      cases heq
      exact ⟨fun _ => ⟨rfl, rfl⟩, rfl, rfl⟩
    · rintro ⟨hsame, he, ho⟩
      obtain ⟨e, o, fr⟩ := f
      obtain ⟨e', o', fr'⟩ := f'
      obtain rfl : e' = e := he
      obtain rfl : o' = o := ho
      obtain rfl : fr' = fr := funext fun i => (hsame i).1
      obtain rfl : seg' = seg := funext fun i => (hsame i).2
      rfl
  | succ n ih =>
    have hlast : ¬ SkySlots smc procPages expID n n := fun hs => Nat.lt_irrefl n hs.1
    rw [List.range_succ, List.foldlM_append]
    simp only [List.foldlM_cons, List.foldlM_nil, bind_pure, Option.bind_eq_bind, Option.bind_eq_some_iff]
    by_cases hn : (smc.pdata n).isSky expID procPages = true
    · simp only [saveRound, hn, if_true, skySlots_succ, and_true, lastObsSetID]
      constructor
      · rintro ⟨⟨f₁, seg₁⟩, hrun, hround⟩
        obtain ⟨hin, hout, he, -⟩ := ih.mp hrun
        obtain ⟨hfn, hsn⟩ := hout n hlast
        split at hround
        · rename_i hlt
          obtain ⟨⟨b, s⟩, hb, hres⟩ := Option.bind_eq_some_iff.mp hround
          cases hres
          simp only [hfn, hsn] at hb
          refine ⟨fun i hi => ?_, fun i hi => ?_, he, congrArg SkySegment.obsetID hsn⟩
          · by_cases hne : i = n
            · subst hne
              simp only [update_self]
              exact ⟨hlt, hb⟩
            · simp only [update_of_ne hne]
              exact hin i (hi.resolve_right hne)
          · have hne : i ≠ n := fun hne => hi (.inr hne)
            simp only [update_of_ne hne]
            exact hout i fun hs => hi (.inl hs)
        · cases hround
      · rintro ⟨hin, hout, he, ho⟩
        obtain ⟨hlt, hb⟩ := hin n (.inr rfl)
        refine ⟨(⟨f.expID, lastObsSetID smc procPages expID seg f.obsSetID n, update f'.frame n (f.frame n)⟩,
          update seg' n (seg n)), ih.mpr ⟨fun i hi => ?_, fun i hi => ?_, rfl, rfl⟩, ?_⟩
        · have hne : i ≠ n := fun hne => hlast (hne ▸ hi)
          simp only [update_of_ne hne]
          exact hin i (.inl hi)
        · by_cases hne : i = n
          · subst hne
            simp only [update_self]
            trivial
          · simp only [update_of_ne hne]
            exact hout i fun hs => hs.elim hi hne
        · simp only [update_self, hb, hlt, if_true, update_idem, ← he, ← ho]
          show some (SkyFrame.mk f'.expID f'.obsSetID (update f'.frame n (f'.frame n)), update seg' n (seg' n)) = _
          rw [update_eq_self, update_eq_self]
    · simp only [saveRound, hn, Bool.false_eq_true, if_false, skySlots_succ, and_false, or_false, lastObsSetID,
        Option.some.injEq, exists_eq_right]
      exact ih

/-- A loop that copies nothing -/
theorem saveLoop_kept (h : SkyHeap) {f : SkyFrame} {seg : Nat → SkySegment} {n : Nat}
    (hok : ∀ i, SkySlots smc procPages expID n i → i < maxSkyFrames ∧ SlotOk (f.frame i) (seg i)) :
    ∃ f', (List.range n).foldlM (saveRound smc procPages h expID) (f, seg) = some (f', seg) ∧
      (∀ i, SkySlots smc procPages expID n i → f'.frame i = keptBuf (f.frame i) (seg i)) ∧
      (∀ i, ¬ SkySlots smc procPages expID n i → f'.frame i = f.frame i) ∧
      f'.expID = f.expID ∧ f'.obsSetID = lastObsSetID smc procPages expID seg f.obsSetID n := by
  classical
  let f' : SkyFrame := ⟨f.expID, lastObsSetID smc procPages expID seg f.obsSetID n,
    fun i => if SkySlots smc procPages expID n i then keptBuf (f.frame i) (seg i) else f.frame i⟩
  have hin : ∀ i, SkySlots smc procPages expID n i → f'.frame i = keptBuf (f.frame i) (seg i) := fun i hi => if_pos hi
  have hout : ∀ i, ¬ SkySlots smc procPages expID n i → f'.frame i = f.frame i := fun i hi => if_neg hi
  refine ⟨f', saveLoop_eq_some.mpr ⟨fun i hi => ⟨(hok i hi).1, ?_⟩, fun i hi => ⟨hout i hi, rfl⟩, rfl, rfl⟩, hin, hout,
    rfl, rfl⟩
  rw [hin i hi]
  exact (hok i hi).2.frameLoop

/-- The pixels of all pages stay, whatever the system does. -/
theorem saveLoop_pixels_iff {f : SkyFrame} {seg : Nat → SkySegment} {n : Nat} :
    (∀ h, ∃ r, (List.range n).foldlM (saveRound smc procPages h expID) (f, seg) = some r ∧
      ∀ i, (r.2 i).data = (seg i).data) ↔
      ∀ i, SkySlots smc procPages expID n i → i < maxSkyFrames ∧ SlotOk (f.frame i) (seg i) := by
  constructor
  · intro hall i hi
    have hslot : ∀ h, ∃ r, frameLoop h i (2 + 2) (f.frame i) (seg i) = some r ∧ r.2.data = (seg i).data := fun h => by
      obtain ⟨⟨f', seg'⟩, hrun, hpix⟩ := hall h
      obtain ⟨-, hloop⟩ := (saveLoop_eq_some.mp hrun).1 i hi
      exact ⟨_, hloop, hpix i⟩
    obtain ⟨⟨f', seg'⟩, hrun, -⟩ := hall .moving
    exact ⟨((saveLoop_eq_some.mp hrun).1 i hi).1, slot_iff.mp hslot⟩
  · intro hok h
    obtain ⟨f', hrun, -⟩ := saveLoop_kept h hok
    exact ⟨_, hrun, fun _ => rfl⟩

end Pages

/-! ## The message -/

/-- Some frame has the pixels of the page. -/
def Saved (f : SkyFrame) (seg : SkySegment) : Prop := ∃ k < maxSkyFrames, (f.frame k).Holds seg

section Message

variable (smc : SmCache) (procPages : Option String) (skysub : Int) (ip msg : Str) (st : SmcSky)

/-- The message has the type `sky`, and the sky is to be subtracted. -/
def SkyWanted : Prop := skysub ≠ 0 ∧ ∃ type, imageType msg = some type ∧ streq sky type = true

/-- The slots of the data pages of the exposure in the message -/
def MsgSlots (i : Nat) : Prop := SkySlots smc procPages (atof msg) smc.top.toNat i

/-- The number of these slots -/
def numSlots : Nat := (List.range smc.top.toNat).countP fun i => (smc.pdata i).isSky (atof msg) procPages

/-- What the answer to a message should be, whatever the system does. For up to `MAX_SKY_FRAMES` pages of a sky
exposure: the pixels of no page change, and each of these pages is saved. For any other image type: nothing changes. -/
def SavesSky : Prop :=
  (SkyWanted skysub msg → numSlots smc procPages msg ≤ maxSkyFrames → ∀ h,
    ∃ st', smProcImtype smc procPages h skysub ip st msg = some st' ∧
      (∀ i, (st'.seg i).data = (st.seg i).data) ∧
      ∀ i, MsgSlots smc procPages msg i → ∃ f, st'.skyframe = some f ∧ Saved f (st.seg i)) ∧
  (¬ SkyWanted skysub msg → ∀ h, smProcImtype smc procPages h skysub ip st msg = some st)

/-- The pages of the exposure are saved already. -/
def AllSaved : Prop := ∀ i, MsgSlots smc procPages msg i → ∃ f, st.skyframe = some f ∧ Saved f (st.seg i)

/-- Nothing is copied to a page, and each page has a frame that holds it, if only the frame of an empty page. -/
def NothingToSave : Prop :=
  (∀ i, MsgSlots smc procPages msg i →
    i < maxSkyFrames ∧ SlotOk ((st.skyframe.getD {}).frame i) (st.seg i)) ∧
  ∀ i, MsgSlots smc procPages msg i → ∃ k < maxSkyFrames,
    ((st.skyframe.getD {}).frame k).Holds (st.seg i) ∨
    (MsgSlots smc procPages msg k ∧ ((st.skyframe.getD {}).frame k).data = .null ∧
      (keptBuf ((st.skyframe.getD {}).frame k) (st.seg k)).Holds (st.seg i))

/-- The sky frame is that of the exposure, no frame of a page of it is free, and nothing is copied. -/
def NothingToDo : Prop :=
  ∃ f, st.skyframe = some f ∧ f.expID = atof msg ∧
    f.obsSetID = lastObsSetID smc procPages (atof msg) st.seg f.obsSetID smc.top.toNat ∧
    ∀ i, MsgSlots smc procPages msg i →
      i < maxSkyFrames ∧ (f.frame i).data ≠ .null ∧ SlotOk (f.frame i) (st.seg i)

/-- `ip` points to a text with an image type. If the message has the type `sky` and the text has it too, there is
nothing to save; if the text has another type, all is saved already. If the text only has it, there is nothing to do. -/
def SkyOk : Prop :=
  (SkyWanted skysub msg → numSlots smc procPages msg ≤ maxSkyFrames → ∃ type, imageType ip = some type ∧
    if streq sky type then NothingToSave smc procPages msg st else AllSaved smc procPages msg st) ∧
  (¬ SkyWanted skysub msg → ∃ type, imageType ip = some type ∧
    (skysub ≠ 0 → streq sky type = true → NothingToDo smc procPages msg st))

end Message

section Answer

variable {smc : SmCache} {procPages : Option String} {skysub : Int} {ip msg type : Str} {st : SmcSky} {h : SkyHeap}

theorem smProcImtype_none (hi : imageType ip = none) : smProcImtype smc procPages h skysub ip st msg = none := by
  rw [smProcImtype, hi]
  rfl

theorem smProcImtype_other (hi : imageType ip = some type) (ht : skysub = 0 ∨ streq sky type = false) :
    smProcImtype smc procPages h skysub ip st msg = some st := by
  rw [smProcImtype, hi]
  exact if_pos ht

theorem smProcImtype_sky (hi : imageType ip = some type) (h0 : skysub ≠ 0) (ht : streq sky type = true) :
    smProcImtype smc procPages h skysub ip st msg =
      ((List.range smc.top.toNat).foldlM (saveRound smc procPages h (atof msg))
        ({ st.skyframe.getD {} with expID := atof msg }, st.seg)).map fun r => ⟨some r.1, r.2⟩ := by
  rw [smProcImtype, hi]
  refine (if_neg (not_or.mpr ⟨h0, by simp [ht]⟩)).trans ?_
  cases (List.range smc.top.toNat).foldlM (saveRound smc procPages h (atof msg))
    ({ st.skyframe.getD {} with expID := atof msg }, st.seg) <;> rfl

theorem SkyBuf.Holds.not_null {b : SkyBuf} {seg : SkySegment} (hb : b.Holds seg) : b.data ≠ .null := by
  obtain ⟨-, -, bytes, hd, -⟩ := hb
  rw [hd]
  exact nofun

/-- A sky message whose type is read as such -/
theorem saves_iff (hi : imageType ip = some type) (h0 : skysub ≠ 0) (ht : streq sky type = true) :
    (∀ h, ∃ st', smProcImtype smc procPages h skysub ip st msg = some st' ∧
      (∀ i, (st'.seg i).data = (st.seg i).data) ∧
      ∀ i, MsgSlots smc procPages msg i → ∃ f, st'.skyframe = some f ∧ Saved f (st.seg i)) ↔
      NothingToSave smc procPages msg st := by
  simp only [smProcImtype_sky hi h0 ht]
  set f : SkyFrame := { st.skyframe.getD {} with expID := atof msg } with hf
  have hsaved : ∀ f' : SkyFrame,
      (∀ i, MsgSlots smc procPages msg i → f'.frame i = keptBuf (f.frame i) (st.seg i)) →
      (∀ i, ¬ MsgSlots smc procPages msg i → f'.frame i = f.frame i) → ∀ i, Saved f' (st.seg i) ↔
        ∃ k < maxSkyFrames, (f.frame k).Holds (st.seg i) ∨ (MsgSlots smc procPages msg k ∧
          (f.frame k).data = .null ∧ (keptBuf (f.frame k) (st.seg k)).Holds (st.seg i)) := by
    intro f' hin hout i
    refine exists_congr fun k => and_congr_right fun _ => ?_
    by_cases hk : MsgSlots smc procPages msg k
    · rw [hin k hk]
      by_cases hn : (f.frame k).data = .null
      · exact ⟨fun hh => .inr ⟨hk, hn, hh⟩, fun hh => hh.elim (fun hb => absurd hn hb.not_null) fun hb => hb.2.2⟩
      · rw [keptBuf, if_neg hn]
        exact ⟨.inl, fun hh => hh.elim id fun hb => absurd hb.2.1 hn⟩
    · rw [hout k hk]
      exact ⟨.inl, fun hh => hh.elim id fun hb => absurd hb.1 hk⟩
  constructor
  · intro hall
    have hok := saveLoop_pixels_iff.mp fun h => by
      obtain ⟨st', hrun, hpix, -⟩ := hall h
      obtain ⟨r, hr, rfl⟩ := Option.map_eq_some_iff.mp hrun
      exact ⟨r, hr, hpix⟩
    refine ⟨hok, fun i hi => ?_⟩
    obtain ⟨f', hr, hin, hout, -⟩ := saveLoop_kept .moving hok
    obtain ⟨st', hrun, -, hall⟩ := hall .moving
    rw [hr] at hrun
    cases hrun
    obtain ⟨f₁, hf₁, hs⟩ := hall i hi
    cases hf₁
    exact (hsaved f' hin hout i).mp hs
  · rintro ⟨hok, hhold⟩ h
    obtain ⟨f', hr, hin, hout, -⟩ := @saveLoop_kept smc procPages (atof msg) h f st.seg smc.top.toNat hok
    exact ⟨⟨some f', st.seg⟩, by rw [hr]; rfl, fun _ => rfl, fun i hi =>
      ⟨f', rfl, (hsaved f' hin hout i).mpr (hhold i hi)⟩⟩

/-- Another message whose type is read as `sky` -/
theorem unchanged_iff (hi : imageType ip = some type) (h0 : skysub ≠ 0) (ht : streq sky type = true) :
    (∀ h, smProcImtype smc procPages h skysub ip st msg = some st) ↔ NothingToDo smc procPages msg st := by
  simp only [smProcImtype_sky hi h0 ht]
  constructor
  · intro hall
    have hok := saveLoop_pixels_iff.mp fun h => by
      obtain ⟨r, hr, heq⟩ := Option.map_eq_some_iff.mp (hall h)
      exact ⟨r, hr, fun i => congrArg (fun st : SmcSky => (st.seg i).data) heq⟩
    obtain ⟨f', hr, hin, -, he, ho⟩ := saveLoop_kept .moving hok
    have hst := hall .moving
    rw [hr] at hst
    have hf' : st.skyframe = some f' := congrArg SmcSky.skyframe (Option.some.inj hst).symm
    rw [hf'] at hok hin ho
    refine ⟨f', hf', he, ho, fun i hi => ⟨(hok i hi).1, fun hn => ?_, (hok i hi).2⟩⟩
    have hk := hin i hi
    simp only [Option.getD_some, keptBuf, hn, if_true] at hk
    rw [hk] at hn
    cases hn
  · rintro ⟨f, hf, he, ho, hok⟩ h
    rw [hf]
    obtain ⟨f', hr, hin, hout, he', ho'⟩ := @saveLoop_kept smc procPages (atof msg) h { f with expID := atof msg }
      st.seg smc.top.toNat fun i hi => ⟨(hok i hi).1, (hok i hi).2.2⟩
    have hframe : f'.frame = f.frame := by
      funext i
      by_cases hs : MsgSlots smc procPages msg i
      · rw [hin i hs, keptBuf, if_neg (hok i hs).2.1]
      · exact hout i hs
    obtain rfl : f' = f := by
      obtain ⟨e, o, fr⟩ := f
      obtain ⟨e', o', fr'⟩ := f'
      obtain rfl : e' = e := he'.trans he.symm
      obtain rfl : o' = o := ho'.trans ho.symm
      obtain rfl : fr' = fr := hframe
      rfl
    refine (congrArg (Option.map _) hr).trans ?_
    rw [Option.map_some, ← hf]

end Answer

/-- When the answer to a message is what it should be. -/
theorem savesSky_iff (smc : SmCache) (procPages : Option String) (skysub : Int) (ip msg : Str) (st : SmcSky) :
    SavesSky smc procPages skysub ip msg st ↔ SkyOk smc procPages skysub ip msg st := by
  refine and_congr (forall_congr' fun hw => forall_congr' fun _ => ?_) (forall_congr' fun _ => ?_)
  · cases hi : imageType ip with
    | none =>
      refine ⟨fun hall => ?_, fun ⟨_, ht, _⟩ => by cases ht⟩
      obtain ⟨st', hrun, -⟩ := hall .moving
      rw [smProcImtype_none hi] at hrun
      cases hrun
    | some type =>
      simp only [Option.some.injEq, exists_eq_left']
      by_cases ht : streq sky type = true
      · rw [saves_iff hi hw.1 ht, if_pos ht]
      · have hrun : ∀ h, smProcImtype smc procPages h skysub ip st msg = some st := fun h =>
          smProcImtype_other hi (.inr (by simpa using ht))
        simp only [hrun, Option.some.injEq, exists_eq_left', if_neg ht]
        exact ⟨fun hall => (hall .moving).2, fun hs _ => ⟨fun _ => trivial, hs⟩⟩
  · cases hi : imageType ip with
    | none =>
      refine ⟨fun hall => ?_, fun ⟨_, ht, _⟩ => by cases ht⟩
      have hrun := hall .moving
      rw [smProcImtype_none hi] at hrun
      cases hrun
    | some type =>
      simp only [Option.some.injEq, exists_eq_left']
      by_cases hs : skysub ≠ 0 ∧ streq sky type = true
      · rw [unchanged_iff hi hs.1 hs.2]
        exact ⟨fun hn _ _ => hn, fun hn => hn hs.1 hs.2⟩
      · refine iff_of_true (fun h => smProcImtype_other hi ?_) fun h0 ht => absurd ⟨h0, ht⟩ hs
        by_cases h0 : skysub = 0
        · exact .inl h0
        · exact .inr (by simpa using fun ht => hs ⟨h0, ht⟩)

/-- A cache with one data page -/
def oneDataPage : SmCache :=
  { pdata := update (fun _ => {}) 0 { memKey := 1, type := tyData, expID := 1, colID := "A" }, npages := 1, top := 1 }

/-- A page of one pixel, no sky frame yet, and `ip` on the message itself: the four bytes of a new block are copied to
where there is no pixel of the page. -/
theorem savesSky_not :
    SkyHeap.moving.data 0 = SkyHeap.moving.pageData 0 + (4096 * 4096 - 4096) ∧
      ¬ SavesSky oneDataPage none 1 ['1', ' ', 's', 'k', 'y'] ['1', ' ', 's', 'k', 'y']
        { seg := update (fun _ => {}) 0 { colID := ['A'], data := [7, 7, 7, 7] } } := by
  refine ⟨by decide, fun hs => ?_⟩
  have hw : SkyWanted 1 ['1', ' ', 's', 'k', 'y'] := ⟨by decide, ['s', 'k', 'y'], by decide, by decide⟩
  obtain ⟨st', hrun, -⟩ := hs.1 hw (by decide +kernel) .moving
  have hlost : (smProcImtype oneDataPage none .moving 1 ['1', ' ', 's', 'k', 'y']
      { seg := update (fun _ => {}) 0 { colID := ['A'], data := [7, 7, 7, 7] } } ['1', ' ', 's', 'k', 'y']).isNone := by
    decide +kernel
  rw [hrun] at hlost
  cases hlost

end Ndhs
