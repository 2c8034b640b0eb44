import Ndhs.Lib.Packet
import Ndhs.Pxf.MetaData

/-!
# Pixels for the DCA (`procDCAData`)

The data of a page with pixels are 2048 rows of 2112 `int`s. They are sent to the DCA in 64 `WritePixelData` messages
of 32 rows each, with a `Synchronize` message after every sixteenth one and after the last one. The replies are awaited
with a timeout, and the pixels are sent in any case.

* The quadrants of the detector go to the images of the file as in the layout that is compiled (`KPNO`). For other
  collectors and pages the number of the image is not set: it is then `unset`.
* `procDCAData_eq`: the message with number `j` has the rows from `32 * j` on.
-/

namespace Ndhs.Pxf

open Text Kwdb

/-- `DCA_Stream` -/
structure Stream where
  offset : Int
  npix : Int
  stride : Int
  destimage : Int
  x0 : Int
  y0 : Int
  xstep : Int
  ystep : Int
  xydir : Int

/-- The descriptor as an array of `int`s. -/
def Stream.ints (st : Stream) : List Int :=
  [st.offset, st.npix, st.stride, st.destimage, st.x0, st.y0, st.xstep, st.ystep, st.xydir]

/-- The messages for pixels -/
inductive PixelTag where
  | writePixelData
  | synchronize
  deriving DecidableEq

/-- A page of pixels, or another page -/
structure PixelPage where
  isMeta : Bool
  seqno : Int
  colID : CStr
  expPageNum : Int
  data : List UInt8

/-- `2112 * 4 * 32` -/
def datalen : Nat := 270336

/-- The loop with `n` rounds to go. -/
def chunkLoop (seqno : Int) (st : Stream) : Nat → Nat → List UInt8 → List (PixelTag × List Packed)
  | 0, _, _ => []
  | n + 1, j, ip =>
    let st := { st with y0 := j * 32, xstep := 1, ystep := 1 }
    let swapped := 1
    let nstreams := 1
    (.writePixelData, .int seqno :: .int datalen :: .int swapped :: .int nstreams ::
        (st.ints.map .int ++ [.bytes (ip.take datalen)])) ::
      ((if j % 16 = 0 then [(.synchronize, [.int seqno])] else []) ++
        chunkLoop seqno st n (j + 1) (ip.drop (4 * st.npix.toNat)))

namespace PixelPage

variable (page : PixelPage)

/-- The page is to be processed. -/
def isSelected (procPages : Option Str) : Bool :=
  match procPages with
  | none => true
  | some s => decide (page.colID.text <:+: s)

/-- The image of the file that the page goes to. -/
def destimage (unset : Int) : Int :=
  if strncmpEq page.colID.text ['P', 'a', 'n', 'A'] 4 ∧ page.expPageNum = 1 then 2
  else if strncmpEq page.colID.text ['P', 'a', 'n', 'A'] 4 ∧ page.expPageNum = 2 then 4
  else if strncmpEq page.colID.text ['P', 'a', 'n', 'B'] 4 ∧ page.expPageNum = 1 then 3
  else if strncmpEq page.colID.text ['P', 'a', 'n', 'B'] 4 ∧ page.expPageNum = 2 then 1
  else unset

/-- The descriptor before the loop; the steps are set in the loop. -/
def stream (unset : Int) : Stream where
  offset := 0
  npix := datalen / 4
  stride := 1
  destimage := page.destimage unset
  x0 := 0
  y0 := 0
  xstep := unset
  ystep := unset
  xydir := 0

/-- `procDCAData`: the messages to the DCA -/
def procDCAData (unset : Int) (procPages : Option Str) : List (PixelTag × List Packed) :=
  if !page.isSelected procPages || page.isMeta then []
  else chunkLoop page.seqno (page.stream unset) 64 0 page.data ++ [(.synchronize, [.int page.seqno])]

/-- The message with the rows from `32 * j` on. -/
def chunk (unset : Int) (j : Nat) : PixelTag × List Packed :=
  let st := { page.stream unset with y0 := j * 32, xstep := 1, ystep := 1 }
  (.writePixelData, .int page.seqno :: .int datalen :: .int 1 :: .int 1 ::
    (st.ints.map .int ++ [.bytes ((page.data.drop (datalen * j)).take datalen)]))

/-- The message `Synchronize` -/
def sync : PixelTag × List Packed := (.synchronize, [.int page.seqno])

theorem chunkLoop_eq (unset : Int) (st : Stream) (n j : Nat)
    (hst : ∃ y0 xstep ystep, st = { page.stream unset with y0, xstep, ystep }) :
    chunkLoop page.seqno st n j (page.data.drop (datalen * j)) =
      (List.range' j n).flatMap fun j => page.chunk unset j :: if j % 16 = 0 then [page.sync] else [] := by
  induction n generalizing st j with
  | zero => rfl
  | succ n ih =>
    obtain ⟨y0, xstep, ystep, rfl⟩ := hst
    rw [chunkLoop, List.range'_succ, List.flatMap_cons]
    dsimp only
    have hdrop : (page.data.drop (datalen * j)).drop (4 * (page.stream unset).npix.toNat) =
        page.data.drop (datalen * (j + 1)) := by
      have hsize : 4 * (page.stream unset).npix.toNat = datalen := by
        show 4 * (((270336 : Nat) : Int) / 4).toNat = 270336
        decide
      rw [List.drop_drop, hsize, Nat.mul_succ]
    rw [hdrop, ih _ (j + 1) ⟨_, _, _, rfl⟩]
    rfl

variable {page} {unset : Int}

/-- The messages of a page of pixels. -/
theorem procDCAData_eq {procPages : Option Str} (hsel : page.isSelected procPages = true) (hm : page.isMeta = false) :
    page.procDCAData unset procPages =
      ((List.range 64).flatMap fun j => page.chunk unset j :: if j % 16 = 0 then [page.sync] else []) ++
        [page.sync] := by
  have hloop := page.chunkLoop_eq unset (page.stream unset) 64 0 ⟨_, _, _, rfl⟩
  rw [Nat.mul_zero, List.drop_zero, ← List.range_eq_range'] at hloop
  rw [procDCAData, hsel, hm, hloop]
  rfl

end PixelPage

end Ndhs.Pxf
