import Ndhs.Dsim.Encode
import Ndhs.Dsim.Geometry
import Ndhs.Lib.Stores

/-!
# Access to the pixels of an imagefile (`dsim_StartIO`, `dsim_Pixel2D`)

The imagefile is mapped to memory. `dsim_StartIO` checks a region of an image against its axes and gives a descriptor,
and `dsim_Pixel2D` is the address of a pixel. Addresses are counted from the start of the file.

* `Sys` is what the functions ask of the host and the system.
* An image that was not configured is configured by the first access. The header that is then written is left out.
* An image has one or two axes: the caller has no more (`IMDIM`).

`startIO_eq`: a region inside the image is given if there is memory for its descriptor.
-/

namespace Ndhs.Dsim

open Stores

/-- The host and the system: whether the host swaps bytes, the size of a `long`, whether a header can be written,
whether the file can be synced, and whether there is memory for a block of a size. -/
structure Sys where
  host : Bool
  sizeofLong : Nat
  hdr : Nat → Bool
  synced : Bool
  heap : Nat → Bool

/-- The pixel type of a code of `dso.h` -/
def PixType.ofCode : Int → Option PixType
  | 1 => some .ubyte
  | 2 => some .char
  | 3 => some .short
  | 4 => some .ushort
  | 5 => some .int
  | 6 => some .long
  | 7 => some .real
  | 8 => some .double
  | _ => none

/-- An open imagefile. `iolist` has the region descriptors, with whether they are in use. -/
structure Mapped where
  ds : DSImage
  configured : Bool
  iolist : List Bool
  mem : Memory

/-- `struct ioregion`: the place of the descriptor, and what is used of it -/
structure IORegion where
  number : Nat
  stride : Nat → Int
  pixsize : Int
  pixels : Int

/-- `sizeof (IORegion)` -/
def sizeofIORegion : Nat := 128

namespace Mapped

variable (sys : Sys) (f : Mapped)

/-- The image with a number, which counts from one. -/
def image? (image : Int) : Option Image := if image < 1 then none else f.ds.images[(image - 1).toNat]?

/-- `dsim_Get` of the length of an axis -/
def axlen (image : Int) (axis : Nat) : Int :=
  match f.image? image with
  | some im => im.axlen axis
  | none => -1

/-- Configure the file if that was not done. -/
def ready : Option Mapped :=
  if f.configured then some f
  else (f.ds.configure sys.sizeofLong sys.hdr).map fun ds => { f with ds, configured := true }

/-- `dsim_EncodePixels` -/
def encodePixels (image : Int) (swapped : Bool) (pixels : List UInt8) : Mapped × List UInt8 :=
  match f.ready sys with
  | none => (f, pixels)
  | some f =>
    match (f.image? image).bind fun im => PixType.ofCode im.pixtype with
    | none => (f, pixels)
    | some pixtype => (f, Dsim.encodePixels sys.host pixtype swapped pixels)

end Mapped

namespace Image

variable (im : Image)

/-- The distance of pixels along an axis -/
def stride : Nat → Int
  | 0 => 1
  | i + 1 => int32 (stride i * im.axlen i)

def ioRegion (number : Nat) : IORegion := ⟨number, im.stride, im.pixsize, im.pixOffset⟩

/-- The region is inside the image. -/
def inbounds (sv nv : Nat → Int) : Bool :=
  (List.range im.naxes).all fun i => 0 ≤ sv i && sv i + nv i ≤ im.axlen i

end Image

namespace Mapped

variable (sys : Sys) (f : Mapped)

/-- `dsim_StartIO` -/
def startIO (image : Int) (sv nv : Nat → Int) : Mapped × Option IORegion :=
  match f.ready sys with
  | none => (f, none)
  | some f =>
    match f.image? image with
    | none => (f, none)
    | some im =>
      if !im.inbounds sv nv then (f, none)
      else
        -- look for an existing unused region descriptor
        let n := f.iolist.findIdx not
        if n < f.iolist.length then ({ f with iolist := f.iolist.set n true }, some (im.ioRegion n))
        else
          let nregions := max 4 (f.iolist.length * 2)
          if !sys.heap (nregions * sizeofIORegion) then (f, none)
          else
            let iolist := f.iolist ++ List.replicate (nregions - f.iolist.length) false
            ({ f with iolist := iolist.set n true }, some (im.ioRegion n))

/-- `dsim_FinishIO` -/
def finishIO (io : IORegion) : Mapped := { f with iolist := f.iolist.set io.number false }

end Mapped

/-- `dsim_Pixel2D` -/
def IORegion.pixel2D (rp : IORegion) (i j : Int) : Int :=
  rp.pixels + int32 (int32 (int32 (j * rp.stride 1) + i) * rp.pixsize)

section Region

variable {sys : Sys} {f : Mapped} {im : Image} {image : Int} {sv nv : Nat → Int}

theorem Mapped.ready_eq (h : f.configured = true) : f.ready sys = some f := if_pos h

/-- A region inside the image -/
theorem Mapped.startIO_eq (hheap : ∀ n, sys.heap n = true) (h : f.configured = true) (him : f.image? image = some im)
    (hin : im.inbounds sv nv = true) :
    ∃ n iolist, f.startIO sys image sv nv = ({ f with iolist }, some (im.ioRegion n)) := by
  unfold startIO
  rw [ready_eq h]
  dsimp only
  rw [him]
  dsimp only
  rw [hin]
  simp only [Bool.not_true, Bool.false_eq_true, if_false, hheap]
  split
  · exact ⟨_, _, rfl⟩
  · exact ⟨_, _, rfl⟩

theorem Mapped.encodePixels_int {swapped : Bool} {pixels : List UInt8} (h : f.configured = true)
    (him : f.image? image = some im) (ht : im.pixtype = 5) :
    f.encodePixels sys image swapped pixels = (f, encodeInt sys.host pixels) := by
  unfold encodePixels
  rw [ready_eq h]
  dsimp only
  rw [him, Option.bind_some, ht]
  rfl

/-- The address of a pixel, if it is an `int`. -/
theorem IORegion.pixel2D_eq {i j : Int} {n : Nat} (hi : 0 ≤ i) (hj : 0 ≤ j) (ha : 0 ≤ im.axlen 0)
    (hp : 0 ≤ im.pixsize) (h : (j * im.axlen 0 + i) * im.pixsize < 2 ^ 31) (h' : j * im.axlen 0 + i < 2 ^ 31)
    (hax : im.axlen 0 < 2 ^ 31) :
    (im.ioRegion n).pixel2D i j = im.pixOffset + (j * im.axlen 0 + i) * im.pixsize := by
  have hstride : im.stride 1 = im.axlen 0 := by
    rw [Image.stride, Image.stride, one_mul, int32_eq ha hax]
  have hmul : 0 ≤ j * im.axlen 0 := Int.mul_nonneg hj ha
  have hprod : 0 ≤ (j * im.axlen 0 + i) * im.pixsize := Int.mul_nonneg (by omega) hp
  rw [pixel2D]
  show im.pixOffset + int32 (int32 (int32 (j * im.stride 1) + i) * im.pixsize) = _
  rw [hstride, int32_eq hmul (by omega), int32_eq (by omega) h', int32_eq hprod h]

theorem Mapped.mem_of_image? (h : f.image? image = some im) : im ∈ f.ds.images := by
  rw [image?] at h
  split at h
  · cases h
  · exact List.mem_of_getElem? h

/-- The pixels of two images of a file are apart. -/
theorem Mapped.pixelArea_apart {image' : Int} {im' : Image} (hlay : f.ds.Layout) (h : f.image? image = some im)
    (h' : f.image? image' = some im') (hne : image ≠ image') :
    im.pixelArea.stop ≤ im'.pixelArea.off ∨ im'.pixelArea.stop ≤ im.pixelArea.off := by
  have hpair := (List.pairwise_flatMap.mp (List.pairwise_cons.mp hlay.disjoint).2).2
  rw [List.pairwise_iff_getElem] at hpair
  have harea : ∀ im : Image, im.pixelArea ∈ im.areas := fun im => List.mem_cons_of_mem _ List.mem_cons_self
  rw [image?] at h h'
  split at h
  · cases h
  split at h'
  · cases h'
  obtain ⟨hlt, rfl⟩ := List.getElem?_eq_some_iff.mp h
  obtain ⟨hlt', rfl⟩ := List.getElem?_eq_some_iff.mp h'
  rcases Nat.lt_or_gt_of_ne (show (image - 1).toNat ≠ (image' - 1).toNat by omega) with hlt₁ | hlt₁
  · exact .inl (hpair _ _ hlt hlt' hlt₁ _ (harea _) _ (harea _))
  · exact .inr (hpair _ _ hlt' hlt hlt₁ _ (harea _) _ (harea _))

end Region

end Ndhs.Dsim
