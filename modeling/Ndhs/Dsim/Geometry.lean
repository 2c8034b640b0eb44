import Ndhs.Lib.Ints
import Ndhs.Lib.Tiling
import Mathlib.Algebra.BigOperators.Intervals
import Mathlib.Algebra.Order.BigOperators.Ring.Finset

/-!
# The layout of an image file (`dsim_Configure`)

An image file has a global header, and for each image a header, the pixels and an area that is kept free behind
them. `dsim_Configure` rounds all sizes up to blocks and puts the areas one behind the other.

* The products are products of `int`s, so they wrap (`int32`), and the offsets are `long`s, which wrap too.
* `hdr i` says whether the keywords of header `i` are written, with zero for the global header.
* `sizeofLong` is the size of a `long` of the host.
* The names of the images and the writing and mapping of the file do not enter into the layout and are left out.
  An image file is always a new one: `dsim_Open` refuses the other modes.

`configure_layout_iff`: the areas follow each other from the start of the file to its end, at multiples of the block
length, if and only if a `long` holds the size of the file (`DSImage.size`).
-/

namespace Ndhs.Dsim

open Tiling

/-- `CARDLEN` -/
def cardlen : Int := 80

/-- `BLKLEN` -/
def blklen : Int := 2880

/-- `DEF_MAXKEYWORDS` -/
def defMaxkeywords : Int := 72

/-- `MAXDIM` -/
def maxdim : Nat := 8

/-- The value of an `int` -/
def int32 (n : Int) : Int := n.bmod (2 ^ 32)

/-- The value of a `long` -/
def long (sizeofLong : Nat) (n : Int) : Int := CInt.wrap (8 * sizeofLong) n

/-- `PixelSize` -/
def pixelSize (sizeofLong : Nat) : Int → Int
  | 1 => 1
  | 2 => 1
  | 3 => 2
  | 4 => 2
  | 5 => 4
  | 6 => sizeofLong
  | 7 => 4
  | 8 => 8
  | _ => 0

/-- `struct image` -/
structure Image where
  maxkeywords : Int
  naxes : Nat
  axlen : Nat → Int
  pixtype : Int
  pixsize : Int
  extend : Int
  hdrOffset : Int
  pixOffset : Int
  extnsize : Int

/-- `struct dsimage` -/
structure DSImage where
  maxkeywords : Int
  images : List Image
  hdrOffset : Int
  hdrLength : Int
  filesize : Int

/-- Round up to an integral number of FITS logical blocks: the number of keywords of a header. -/
def roundKeywords (maxkeywords : Int) : Int :=
  let bytes := int32 (maxkeywords * cardlen)
  let bytes := int32 ((int32 (bytes + blklen - 1)).tdiv blklen * blklen)
  bytes.tdiv cardlen

/-- The product of the lengths of the axes up to axis `i`. -/
def npixLoop (axlen : Nat → Int) : Nat → Int
  | 0 => axlen 0
  | i + 1 => int32 (npixLoop axlen i * axlen (i + 1))

/-- The geometry of an image whose header begins at `filesize`, and the new file size. -/
def Image.configure (sizeofLong : Nat) (maxkw filesize : Int) (im : Image) : Option (Image × Int) :=
  let maxkeywords := roundKeywords (if im.maxkeywords = 0 then maxkw else im.maxkeywords)
  let hdrOffset := filesize
  let pixOffset := long sizeofLong (hdrOffset + int32 (maxkeywords * cardlen))
  -- set the length of the degenerate axes to 1
  let axlen := fun i => if im.naxes ≤ i ∧ i < maxdim then 1 else im.axlen i
  if im.naxes ≠ 0 ∧ im.pixtype = 0 then none
  else
    let pixsize := pixelSize sizeofLong im.pixtype
    let npix := if im.naxes = 0 then 0 else npixLoop axlen (im.naxes - 1)
    let pixblocks := (int32 (int32 (npix * pixsize) + blklen - 1)).tdiv blklen
    let filesize := long sizeofLong (pixOffset + int32 (pixblocks * blklen))
    -- round up the extend area if any
    let extend := long sizeofLong ((long sizeofLong (im.extend + blklen - 1)).tdiv blklen * blklen)
    let filesize := long sizeofLong (filesize + extend)
    let extnsize := long sizeofLong (filesize - hdrOffset)
    some ({ im with maxkeywords, axlen, pixsize, extend, hdrOffset, pixOffset, extnsize }, filesize)

/-- The images from number `image` on. -/
def configureImages (sizeofLong : Nat) (maxkw : Int) (hdr : Nat → Bool) :
    Nat → Int → List Image → Option (List Image × Int)
  | _, filesize, [] => some ([], filesize)
  | image, filesize, im :: ims =>
    (im.configure sizeofLong maxkw filesize).bind fun (im, filesize) =>
      if !hdr image then none
      else (configureImages sizeofLong maxkw hdr (image + 1) filesize ims).map fun (ims, filesize) =>
        (im :: ims, filesize)

/-- `dsim_Configure` -/
def DSImage.configure (sizeofLong : Nat) (hdr : Nat → Bool) (ds : DSImage) : Option DSImage :=
  let maxkeywords := roundKeywords (if ds.maxkeywords = 0 then defMaxkeywords else ds.maxkeywords)
  let hdrLength := int32 (maxkeywords * cardlen)
  if ds.images = [] then some { ds with maxkeywords, hdrOffset := 0, hdrLength, filesize := hdrLength }
  else if !hdr 0 then none
  else
    (configureImages sizeofLong maxkeywords hdr 1 hdrLength ds.images).map fun (images, filesize) =>
      { maxkeywords, images, hdrOffset := 0, hdrLength, filesize }

/-! ## The areas -/

namespace Image

variable (im : Image)

/-- The number of pixels. -/
def npix : Int := if im.naxes = 0 then 0 else ∏ i ∈ Finset.range im.naxes, im.axlen i

def headerArea : Area := ⟨im.hdrOffset, im.maxkeywords * cardlen⟩

/-- The pixels begin at their offset and reach up to the last area. -/
def pixelArea : Area := ⟨im.pixOffset, im.extnsize - im.extend - im.maxkeywords * cardlen⟩

/-- The last `extend` bytes of the extension. -/
def extendArea : Area := ⟨im.hdrOffset + im.extnsize - im.extend, im.extend⟩

def areas : List Area := [im.headerArea, im.pixelArea, im.extendArea]

/-- The offsets are those of blocks, and the pixels fit. -/
structure Aligned : Prop where
  hdrOffset : blklen ∣ im.hdrOffset
  pixOffset : blklen ∣ im.pixOffset
  extend : blklen ∣ im.extend
  pixels : im.npix * im.pixsize ≤ im.pixelArea.size

/-- The choices for an image are not negative, and their products are `int`s, also when they are rounded up. The
number of keywords is `maxkw` if none is chosen. -/
structure Choice (sizeofLong : Nat) (maxkw : Int) : Prop where
  keywords : 0 ≤ im.maxkeywords ∧ (if im.maxkeywords = 0 then maxkw else im.maxkeywords) * cardlen + blklen < 2 ^ 31
  axlen : ∀ i < im.naxes, 0 ≤ im.axlen i
  products : ∀ i < im.naxes, ∏ j ∈ Finset.range (i + 1), im.axlen j < 2 ^ 31
  pixtype : im.naxes ≠ 0 → im.pixtype ≠ 0
  pixels : im.npix * pixelSize sizeofLong im.pixtype + blklen < 2 ^ 31
  extend : 0 ≤ im.extend ∧ CInt.Fits (8 * sizeofLong) im.extend

/-- The bytes of the header, rounded up. The number of keywords is `maxkw` if none is chosen. -/
def headerSize (maxkw : Int) : Int :=
  roundUp blklen ((if im.maxkeywords = 0 then maxkw else im.maxkeywords) * cardlen)

/-- The bytes of the pixels, rounded up -/
def pixelBytes (sizeofLong : Nat) : Int := roundUp blklen (im.npix * pixelSize sizeofLong im.pixtype)

/-- The bytes of the three areas -/
def size (sizeofLong : Nat) (maxkw : Int) : Int :=
  im.headerSize maxkw + im.pixelBytes sizeofLong + roundUp blklen im.extend

end Image

/-- The areas of the file in the order of the file. -/
def DSImage.areas (ds : DSImage) : List Area :=
  ⟨ds.hdrOffset, ds.hdrLength⟩ :: ds.images.flatMap Image.areas

/-- The number of keywords of the global header. -/
def DSImage.keywords (ds : DSImage) : Int :=
  roundKeywords (if ds.maxkeywords = 0 then defMaxkeywords else ds.maxkeywords)

/-- The bytes of the file -/
def DSImage.size (ds : DSImage) (sizeofLong : Nat) : Int :=
  ds.keywords * cardlen + (ds.images.map fun im => im.size sizeofLong ds.keywords).sum

/-- The choices for a file. -/
structure DSImage.Choice (ds : DSImage) (sizeofLong : Nat) : Prop where
  keywords : 0 ≤ ds.maxkeywords ∧ ds.maxkeywords * cardlen + blklen < 2 ^ 31
  images : ∀ im ∈ ds.images, im.Choice sizeofLong ds.keywords

/-- The layout of an image file. -/
structure DSImage.Layout (ds : DSImage) : Prop where
  header : ds.hdrOffset = 0 ∧ ds.hdrLength = ds.maxkeywords * cardlen
  aligned : ∀ im ∈ ds.images, im.Aligned
  filesize : blklen ∣ ds.filesize
  tiles : Tiles 0 ds.areas ds.filesize
  disjoint : ds.areas.Pairwise fun r s => r.stop ≤ s.off

/-! ## The sizes of the areas -/

theorem long_add_long (sizeofLong : Nat) (x y : Int) :
    long sizeofLong (long sizeofLong x + y) = long sizeofLong (x + y) :=
  CInt.wrap_add_wrap _ x y

section Long

variable {sizeofLong : Nat} {n : Int}

/-- A `long` holds what an `int` holds. -/
theorem int_le_long (hlong : 4 ≤ sizeofLong) : (2 : Int) ^ 31 ≤ 2 ^ (8 * sizeofLong - 1) := by
  exact_mod_cast Nat.pow_le_pow_right (by decide : 0 < 2) (by omega : 31 ≤ 8 * sizeofLong - 1)

theorem long_eq (hlong : 4 ≤ sizeofLong) (h0 : 0 ≤ n) (hn : n < 2 ^ (8 * sizeofLong - 1)) : long sizeofLong n = n :=
  CInt.wrap_of_fits (by omega) ⟨by have := int_le_long hlong; omega, hn⟩

theorem long_lt (hlong : 4 ≤ sizeofLong) (n : Int) : long sizeofLong n < 2 ^ (8 * sizeofLong - 1) :=
  (CInt.fits_wrap (by omega) n).2

/-- Rounding up of a `long`. -/
theorem long_roundUp (hlong : 4 ≤ sizeofLong) (h0 : 0 ≤ n) (hn : n + blklen - 1 < 2 ^ (8 * sizeofLong - 1)) :
    long sizeofLong ((long sizeofLong (n + blklen - 1)).tdiv blklen * blklen) = roundUp blklen n := by
  have hb : (0 : Int) < blklen := by decide
  have hle := roundUp_le hb h0
  rw [long_eq hlong (by omega) hn]
  change long sizeofLong (roundUp blklen n) = _
  exact long_eq hlong (roundUp_nonneg hb h0) (by omega)

/-- A `long` that wraps when it is rounded up becomes negative. -/
theorem lt_of_long_roundUp (hlong : 4 ≤ sizeofLong) (h0 : 0 ≤ n) (hn : n < 2 ^ (8 * sizeofLong - 1))
    (hround : 0 ≤ long sizeofLong ((long sizeofLong (n + blklen - 1)).tdiv blklen * blklen)) :
    n + blklen - 1 < 2 ^ (8 * sizeofLong - 1) := by
  by_contra hge
  have hblk : blklen = 2880 := rfl
  have hhalf := int_le_long hlong
  have hdouble : ((2 ^ (8 * sizeofLong) : Nat) : Int) = 2 * 2 ^ (8 * sizeofLong - 1) := by
    obtain ⟨k, hk⟩ : ∃ k, 8 * sizeofLong = k + 1 := ⟨8 * sizeofLong - 1, by omega⟩
    rw [hk, Nat.add_sub_cancel, pow_succ]
    push_cast
    omega
  -- one turn down the sum is far below zero
  have hturn : long sizeofLong (n + blklen - 1) = n + blklen - 1 - 2 * 2 ^ (8 * sizeofLong - 1) := by
    rw [long, CInt.wrap, ← Int.sub_bmod_right, hdouble]
    exact CInt.wrap_of_fits (by omega) ⟨by omega, by omega⟩
  have hneg : (long sizeofLong (n + blklen - 1)).tdiv blklen * blklen < 0 ∧
      long sizeofLong (n + blklen - 1) ≤ (long sizeofLong (n + blklen - 1)).tdiv blklen * blklen := by
    rw [hturn]
    obtain ⟨m, hm⟩ : ∃ m, n + blklen - 1 - 2 * 2 ^ (8 * sizeofLong - 1) = -m := ⟨_, (neg_neg _).symm⟩
    rw [hm, Int.neg_tdiv, Int.tdiv_eq_ediv_of_nonneg (by omega), hblk]
    omega
  rw [long, CInt.wrap_of_fits (by omega) ⟨by omega, by omega⟩] at hround
  omega

end Long

theorem int32_eq {n : Int} (h0 : 0 ≤ n) (hn : n < 2 ^ 31) : int32 n = n :=
  Int.bmod_eq_of_le (by omega) (by omega)

/-- Rounding up of an `int`. -/
theorem int32_roundUp {n : Int} (h0 : 0 ≤ n) (hn : n + blklen < 2 ^ 31) :
    int32 ((int32 (n + blklen - 1)).tdiv blklen * blklen) = roundUp blklen n := by
  have hb : (0 : Int) < blklen := by decide
  have hle := roundUp_le hb h0
  rw [int32_eq (show 0 ≤ n + blklen - 1 by omega) (by omega)]
  change int32 (roundUp blklen n) = _
  exact int32_eq (roundUp_nonneg hb h0) (by omega)

/-- The bytes of a header. -/
theorem roundKeywords_bytes {k : Int} (h0 : 0 ≤ k) (hk : k * cardlen + blklen < 2 ^ 31) :
    0 ≤ roundKeywords k ∧ roundKeywords k * cardlen = roundUp blklen (k * cardlen) ∧
      int32 (roundKeywords k * cardlen) = roundKeywords k * cardlen := by
  have hb : (0 : Int) < blklen := by decide
  have hbytes : 0 ≤ k * cardlen := Int.mul_nonneg h0 (by decide)
  have hle := roundUp_le hb hbytes
  have hnn := roundUp_nonneg hb hbytes
  have hdvd : cardlen ∣ roundUp blklen (k * cardlen) := Int.dvd_trans (by decide) (dvd_roundUp _ _)
  have hround : roundKeywords k = (roundUp blklen (k * cardlen)).tdiv cardlen := by
    unfold roundKeywords
    dsimp only
    rw [int32_eq hbytes (by omega), int32_roundUp hbytes hk]
  have hmul : roundKeywords k * cardlen = roundUp blklen (k * cardlen) := by
    rw [hround, Int.tdiv_mul_cancel hdvd]
  refine ⟨?_, hmul, ?_⟩
  · rw [hround]
    exact Int.tdiv_nonneg hnn (by decide)
  · rw [hmul, int32_eq hnn (by omega)]

theorem pixelSize_nonneg (sizeofLong : Nat) (pixtype : Int) : 0 ≤ pixelSize sizeofLong pixtype := by
  unfold pixelSize
  split <;> omega

/-- The loop computes the number of pixels. -/
theorem npixLoop_eq {axlen : Nat → Int} {n : Nat} (h0 : ∀ i < n + 1, 0 ≤ axlen i)
    (hn : ∀ i < n + 1, ∏ j ∈ Finset.range (i + 1), axlen j < 2 ^ 31) :
    npixLoop axlen n = ∏ j ∈ Finset.range (n + 1), axlen j := by
  induction n with
  | zero => simp [npixLoop]
  | succ n ih =>
    rw [npixLoop, ih (fun i hi => h0 i (by omega)) fun i hi => hn i (by omega), ← Finset.prod_range_succ]
    exact int32_eq (Finset.prod_nonneg fun i hi => h0 i (Finset.mem_range.mp hi)) (hn (n + 1) (by omega))

theorem Image.npix_nonneg {im : Image} (h0 : ∀ i < im.naxes, 0 ≤ im.axlen i) : 0 ≤ im.npix := by
  unfold Image.npix
  split
  · exact le_rfl
  · exact Finset.prod_nonneg fun i hi => h0 i (Finset.mem_range.mp hi)

section Images

variable {sizeofLong : Nat} {maxkw filesize : Int} {im : Image}

theorem Image.Choice.keywords_nonneg (hc : im.Choice sizeofLong maxkw) (hmax : 0 ≤ maxkw) :
    0 ≤ if im.maxkeywords = 0 then maxkw else im.maxkeywords := by
  split
  · exact hmax
  · exact hc.keywords.1

theorem Image.Choice.headerSize_nonneg (hc : im.Choice sizeofLong maxkw) (hmax : 0 ≤ maxkw) :
    0 ≤ im.headerSize maxkw :=
  roundUp_nonneg (by decide) (Int.mul_nonneg (hc.keywords_nonneg hmax) (by decide))

theorem Image.Choice.bytes_nonneg (hc : im.Choice sizeofLong maxkw) :
    0 ≤ im.npix * pixelSize sizeofLong im.pixtype :=
  Int.mul_nonneg (Image.npix_nonneg hc.axlen) (pixelSize_nonneg _ _)

theorem Image.Choice.pixelBytes_nonneg (hc : im.Choice sizeofLong maxkw) : 0 ≤ im.pixelBytes sizeofLong :=
  roundUp_nonneg (by decide) hc.bytes_nonneg

theorem Image.Choice.extend_nonneg (hc : im.Choice sizeofLong maxkw) : 0 ≤ roundUp blklen im.extend :=
  roundUp_nonneg (by decide) hc.extend.1

theorem Image.Choice.size_nonneg (hc : im.Choice sizeofLong maxkw) (hmax : 0 ≤ maxkw) : 0 ≤ im.size sizeofLong maxkw :=
  Int.add_nonneg (Int.add_nonneg (hc.headerSize_nonneg hmax) hc.pixelBytes_nonneg) hc.extend_nonneg

theorem Image.dvd_size (im : Image) (sizeofLong : Nat) (maxkw : Int) : blklen ∣ im.size sizeofLong maxkw :=
  dvd_add (dvd_add (dvd_roundUp _ _) (dvd_roundUp _ _)) (dvd_roundUp _ _)

variable (filesize) in
/-- What is computed for an image, with the sizes of its header and of its pixels, and with the `long`s that may wrap -/
theorem Image.configure_eq (hmax : 0 ≤ maxkw) (hc : im.Choice sizeofLong maxkw) :
    ∃ im' filesize', im.configure sizeofLong maxkw filesize = some (im', filesize') ∧
      im'.npix = im.npix ∧ im'.pixsize = pixelSize sizeofLong im.pixtype ∧ im'.hdrOffset = filesize ∧
      im'.maxkeywords * cardlen = im.headerSize maxkw ∧
      im'.pixOffset = long sizeofLong (filesize + im.headerSize maxkw) ∧
      im'.extend = long sizeofLong ((long sizeofLong (im.extend + blklen - 1)).tdiv blklen * blklen) ∧
      im'.extnsize = long sizeofLong (filesize' - filesize) ∧
      filesize' = long sizeofLong (im'.pixOffset + im.pixelBytes sizeofLong + im'.extend) := by
  obtain ⟨-, hkw, hkwint⟩ := roundKeywords_bytes (hc.keywords_nonneg hmax) hc.keywords.2
  set k := if im.maxkeywords = 0 then maxkw else im.maxkeywords with hk
  -- the pixels
  set axlen := fun i => if im.naxes ≤ i ∧ i < maxdim then 1 else im.axlen i with hax
  have haxlen : ∀ i < im.naxes, axlen i = im.axlen i := fun i hi => if_neg (by omega)
  have hprod : ∀ i < im.naxes, ∏ j ∈ Finset.range (i + 1), axlen j = ∏ j ∈ Finset.range (i + 1), im.axlen j :=
    fun i hi => Finset.prod_congr rfl fun j hj => haxlen j (by have := Finset.mem_range.mp hj; omega)
  have hnpix : (if im.naxes = 0 then 0 else npixLoop axlen (im.naxes - 1)) = im.npix := by
    unfold Image.npix
    split
    · rfl
    · next hne =>
      obtain ⟨n, hn⟩ : ∃ n, im.naxes = n + 1 := ⟨im.naxes - 1, by omega⟩
      rw [hn, Nat.add_sub_cancel, npixLoop_eq, ← hprod n (by omega)]
      · exact fun i hi => haxlen i (by omega) ▸ hc.axlen i (by omega)
      · exact fun i hi => hprod i (by omega) ▸ hc.products i (by omega)
  have hpixbytes : int32 ((int32 (int32 (im.npix * pixelSize sizeofLong im.pixtype) + blklen - 1)).tdiv blklen *
      blklen) = im.pixelBytes sizeofLong := by
    have hpixels := hc.pixels
    rw [int32_eq hc.bytes_nonneg (by have : 0 < blklen := by decide
                                     omega), int32_roundUp hc.bytes_nonneg hpixels]
    rfl
  let pixOffset := long sizeofLong (filesize + im.headerSize maxkw)
  let extend := long sizeofLong ((long sizeofLong (im.extend + blklen - 1)).tdiv blklen * blklen)
  let filesize' := long sizeofLong (pixOffset + im.pixelBytes sizeofLong + extend)
  let im' : Image :=
    { im with
      maxkeywords := roundKeywords k, axlen, pixsize := pixelSize sizeofLong im.pixtype, extend
      hdrOffset := filesize, pixOffset, extnsize := long sizeofLong (filesize' - filesize) }
  refine ⟨im', filesize', ?_, ?_, rfl, rfl, hkw, rfl, rfl, rfl, rfl⟩
  · unfold Image.configure
    rw [if_neg fun h => hc.pixtype h.1 h.2]
    dsimp only
    rw [← hk, hnpix, hpixbytes, hkwint, hkw, long_add_long]
    rfl
  · unfold Image.npix
    split
    · rfl
    · exact Finset.prod_congr rfl fun j hj => haxlen j (Finset.mem_range.mp hj)

/-- Where a `long` holds the end of the image, its areas follow each other from the old to the new file size. -/
theorem Image.configure_areas (hlong : 4 ≤ sizeofLong) (hmax : 0 ≤ maxkw) (hc : im.Choice sizeofLong maxkw)
    (hpos : blklen ≤ filesize) (hfile : blklen ∣ filesize)
    (hfits : CInt.Fits (8 * sizeofLong) (filesize + im.size sizeofLong maxkw)) :
    ∃ im', im.configure sizeofLong maxkw filesize = some (im', filesize + im.size sizeofLong maxkw) ∧ im'.Aligned ∧
      Tiles filesize im'.areas (filesize + im.size sizeofLong maxkw) := by
  have hb : (0 : Int) < blklen := by decide
  obtain ⟨im', filesize', him, hnpix, hpixsize, hoff, hkw, hpix, hext, hextn, hsize'⟩ :=
    Image.configure_eq filesize hmax hc
  have hS := hc.headerSize_nonneg hmax
  have hP := hc.pixelBytes_nonneg
  have hE := hc.extend_nonneg
  have hle := le_roundUp hb hc.extend.1
  have hdvd : blklen ∣ filesize + im.headerSize maxkw := dvd_add hfile (dvd_roundUp _ _)
  unfold Image.size at hfits ⊢
  have hhi := hfits.2
  rw [long_eq hlong (by omega) (by omega)] at hpix
  rw [long_roundUp hlong hc.extend.1 (by omega)] at hext
  rw [hpix, hext, long_eq hlong (by omega) (by omega)] at hsize'
  rw [hsize', long_eq hlong (by omega) (by omega)] at hextn
  have hpixels : im'.pixelArea.size = im.pixelBytes sizeofLong := by
    change im'.extnsize - im'.extend - im'.maxkeywords * cardlen = _
    rw [hextn, hext, hkw]
    omega
  refine ⟨im', ?_, ⟨hoff ▸ hfile, hpix ▸ hdvd, hext ▸ dvd_roundUp _ _, ?_⟩, ?_⟩
  · rw [him, hsize']
    congr 2
    omega
  · rw [hpixels, hnpix, hpixsize]
    exact le_roundUp hb hc.bytes_nonneg
  · refine ⟨hoff, hS.trans_eq hkw.symm, ?_, hpixels ▸ hP, ?_, hE.trans_eq hext.symm, ?_⟩
    · change im'.pixOffset = im'.hdrOffset + im'.maxkeywords * cardlen
      rw [hpix, hoff, hkw]
    · change im'.hdrOffset + im'.extnsize - im'.extend = im'.pixOffset + im'.pixelArea.size
      rw [hpixels, hoff, hextn, hext, hpix]
      omega
    · change im'.hdrOffset + im'.extnsize - im'.extend + im'.extend = _
      rw [hoff, hextn]
      omega

/-- Where the areas of the image follow each other and the pixels fit, nothing has wrapped. -/
theorem Image.fits_of_areas (hlong : 4 ≤ sizeofLong) (hmax : 0 ≤ maxkw) (hc : im.Choice sizeofLong maxkw)
    (hpos : blklen ≤ filesize) {im' : Image} {filesize' : Int}
    (him : im.configure sizeofLong maxkw filesize = some (im', filesize')) (hal : im'.Aligned)
    (htiles : Tiles filesize im'.areas filesize') :
    CInt.Fits (8 * sizeofLong) (filesize + im.size sizeofLong maxkw) := by
  have hb : (0 : Int) < blklen := by decide
  have hhalf := int_le_long hlong
  obtain ⟨im₁, size₁, him₁, hnpix, hpixsize, hoff, hkw, hpix, hext, hextn, hsize'⟩ :=
    Image.configure_eq filesize hmax hc
  obtain ⟨rfl, rfl⟩ : im₁ = im' ∧ size₁ = filesize' := by simpa [him] using him₁.symm
  have hS := hc.headerSize_nonneg hmax
  have hP := hc.pixelBytes_nonneg
  obtain ⟨-, -, hpixoff, hpixels, hextoff, hext0, hend⟩ := htiles
  change im₁.pixOffset = im₁.hdrOffset + im₁.maxkeywords * cardlen at hpixoff
  change im₁.hdrOffset + im₁.extnsize - im₁.extend + im₁.extend = size₁ at hend
  change 0 ≤ im₁.extend at hext0
  rw [hkw, hoff] at hpixoff
  -- the area of the pixels has their bytes: the two differ by whole turns, and both are below one
  have hsize : im₁.pixelArea.size = size₁ - filesize - im₁.extend - im.headerSize maxkw := by
    change im₁.extnsize - im₁.extend - im₁.maxkeywords * cardlen = _
    rw [hkw]
    omega
  have hlt := long_lt hlong (im₁.pixOffset + im.pixelBytes sizeofLong + im₁.extend)
  rw [← hsize'] at hlt
  have hle : im.pixelBytes sizeofLong < 2 ^ 31 := by
    have hround := roundUp_le hb hc.bytes_nonneg
    have hpix31 := hc.pixels
    change roundUp blklen (im.npix * pixelSize sizeofLong im.pixtype) < _
    omega
  have hbytes : im₁.pixelArea.size = im.pixelBytes sizeofLong := by
    have hsum : long sizeofLong size₁ = long sizeofLong (im₁.pixOffset + im.pixelBytes sizeofLong + im₁.extend) := by
      rw [hsize', long, long, CInt.wrap, CInt.wrap, Int.bmod_bmod]
    have hshift : size₁ = im₁.pixOffset + im₁.pixelArea.size + im₁.extend := by omega
    rw [hshift] at hsum
    refine CInt.eq_of_wrap_eq (w := 8 * sizeofLong) (by omega) ⟨by omega, by omega⟩ ⟨by omega, by omega⟩ ?_
    exact (Int.bmod_add_cancel_left _).mp ((Int.bmod_add_cancel_right _).mp hsum)
  -- so the file size is the whole sum, and neither has the rounding of the extend area wrapped
  rw [hext] at hext0
  have hround := lt_of_long_roundUp hlong hc.extend.1 hc.extend.2.2 hext0
  rw [long_roundUp hlong hc.extend.1 hround] at hext
  have hwhole : filesize + im.size sizeofLong maxkw = size₁ := by
    unfold Image.size
    omega
  rw [hwhole, hsize']
  exact CInt.fits_wrap (by omega) _

variable (filesize) in
theorem configureImages_some (hmax : 0 ≤ maxkw) {ims : List Image} (hc : ∀ im ∈ ims, im.Choice sizeofLong maxkw)
    {hdr : Nat → Bool} (image : Nat) (hhdr : ∀ i, image ≤ i → i < image + ims.length → hdr i = true) :
    ∃ ims' filesize', configureImages sizeofLong maxkw hdr image filesize ims = some (ims', filesize') ∧
      ims'.length = ims.length := by
  induction ims generalizing image filesize with
  | nil => exact ⟨[], filesize, rfl, rfl⟩
  | cons im ims ih =>
    obtain ⟨im', size', him, -⟩ := Image.configure_eq filesize hmax (hc im List.mem_cons_self)
    rw [List.length_cons] at hhdr
    obtain ⟨ims', size'', hims, hlen⟩ := ih size' (fun d hd => hc d (List.mem_cons_of_mem im hd))
      (image + 1) fun i h₁ h₂ => hhdr i (by omega) (by omega)
    refine ⟨im' :: ims', size'', ?_, by rw [List.length_cons, hlen, List.length_cons]⟩
    rw [configureImages, him, Option.bind_some]
    dsimp only
    rw [hhdr image le_rfl (by omega), if_neg (by simp), hims]
    rfl

/-- The first of the images that are configured, and the others. -/
theorem configureImages_cons {hdr : Nat → Bool} {image : Nat} {ims ims' : List Image} {filesize' : Int}
    (h : configureImages sizeofLong maxkw hdr image filesize (im :: ims) = some (ims', filesize')) :
    ∃ im₁ size₁ ims₁, im.configure sizeofLong maxkw filesize = some (im₁, size₁) ∧
      configureImages sizeofLong maxkw hdr (image + 1) size₁ ims = some (ims₁, filesize') ∧ ims' = im₁ :: ims₁ := by
  rw [configureImages, Option.bind_eq_some_iff] at h
  obtain ⟨⟨im₁, size₁⟩, him, h⟩ := h
  dsimp only at h
  split at h
  · cases h
  · obtain ⟨⟨ims₁, size'⟩, hims, h⟩ := Option.map_eq_some_iff.mp h
    obtain ⟨rfl, rfl⟩ := Prod.mk.inj h
    exact ⟨im₁, size₁, ims₁, him, hims, rfl⟩

theorem sizes_nonneg (hmax : 0 ≤ maxkw) {ims : List Image} (hc : ∀ im ∈ ims, im.Choice sizeofLong maxkw) :
    0 ≤ (ims.map fun im => im.size sizeofLong maxkw).sum :=
  List.sum_nonneg fun n hn => by
    obtain ⟨im, him, rfl⟩ := List.mem_map.mp hn
    exact (hc im him).size_nonneg hmax

/-- Where a `long` holds the end of the last image, the areas of the images follow each other. -/
theorem configureImages_areas (hlong : 4 ≤ sizeofLong) (hmax : 0 ≤ maxkw) {hdr : Nat → Bool} {ims ims' : List Image}
    (hc : ∀ im ∈ ims, im.Choice sizeofLong maxkw) (hpos : blklen ≤ filesize) (hfile : blklen ∣ filesize)
    (hfits : CInt.Fits (8 * sizeofLong) (filesize + (ims.map fun im => im.size sizeofLong maxkw).sum)) {image : Nat}
    {filesize' : Int} (h : configureImages sizeofLong maxkw hdr image filesize ims = some (ims', filesize')) :
    (∀ im ∈ ims', im.Aligned) ∧ blklen ∣ filesize' ∧ Tiles filesize (ims'.flatMap Image.areas) filesize' := by
  induction ims generalizing image filesize ims' with
  | nil =>
    obtain ⟨rfl, rfl⟩ : [] = ims' ∧ filesize = filesize' := by simpa [configureImages] using h
    exact ⟨by simp, hfile, rfl⟩
  | cons im ims ih =>
    have hrest := fun d hd => hc d (List.mem_cons_of_mem im hd)
    have hsize := (hc im List.mem_cons_self).size_nonneg hmax
    have hsizes := sizes_nonneg hmax hrest
    obtain ⟨im₁, size₁, ims₁, him, hims, rfl⟩ := configureImages_cons h
    rw [List.map_cons, List.sum_cons] at hfits
    obtain ⟨hlo, hhi⟩ := hfits
    obtain ⟨im₂, him₂, hal, htiles⟩ := im.configure_areas hlong hmax (hc im List.mem_cons_self) hpos hfile
      ⟨by have := int_le_long hlong; have : blklen = 2880 := rfl; omega, by omega⟩
    obtain ⟨rfl, rfl⟩ : im₁ = im₂ ∧ size₁ = filesize + im.size sizeofLong maxkw := by simpa [him] using him₂
    obtain ⟨hals, hfile', htiles'⟩ := ih hrest (by omega) (dvd_add hfile (im.dvd_size _ _))
      ⟨by omega, by omega⟩ hims
    rw [List.flatMap_cons]
    exact ⟨List.forall_mem_cons.mpr ⟨hal, hals⟩, hfile', htiles.append htiles'⟩

/-- Where the areas of the images follow each other, nothing has wrapped. -/
theorem fits_of_configureImages (hlong : 4 ≤ sizeofLong) (hmax : 0 ≤ maxkw) {hdr : Nat → Bool} {ims ims' : List Image}
    (hc : ∀ im ∈ ims, im.Choice sizeofLong maxkw) (hpos : blklen ≤ filesize) (hfile : blklen ∣ filesize)
    (hfits : CInt.Fits (8 * sizeofLong) filesize) {image : Nat}
    {filesize' : Int} (h : configureImages sizeofLong maxkw hdr image filesize ims = some (ims', filesize'))
    (hal : ∀ im ∈ ims', im.Aligned) (htiles : Tiles filesize (ims'.flatMap Image.areas) filesize') :
    CInt.Fits (8 * sizeofLong) (filesize + (ims.map fun im => im.size sizeofLong maxkw).sum) := by
  induction ims generalizing image filesize ims' with
  | nil => simpa using hfits
  | cons im ims ih =>
    obtain ⟨im₁, size₁, ims₁, him, hims, rfl⟩ := configureImages_cons h
    rw [List.flatMap_cons] at htiles
    obtain ⟨b, htiles₁, htiles⟩ := htiles.split
    -- the next area begins at the file size
    obtain rfl : b = size₁ := by
      cases ims with
      | nil =>
        obtain ⟨rfl, rfl⟩ : [] = ims₁ ∧ size₁ = filesize' := by simpa [configureImages] using hims
        exact htiles
      | cons d ims =>
        obtain ⟨im₂, size₂, ims₂, hd, -, rfl⟩ := configureImages_cons hims
        obtain ⟨im₃, size₃, hd₃, -, -, hoff, -⟩ := Image.configure_eq size₁ hmax (hc d (by simp))
        obtain ⟨rfl, rfl⟩ : im₂ = im₃ ∧ size₂ = size₃ := by simpa [hd] using hd₃
        exact htiles.1.symm.trans hoff
    obtain ⟨hal₁, hal⟩ := List.forall_mem_cons.mp hal
    have hsize := (hc im List.mem_cons_self).size_nonneg hmax
    have hfits₁ := Image.fits_of_areas hlong hmax (hc im List.mem_cons_self) hpos him hal₁ htiles₁
    obtain ⟨im₂, him₂, -⟩ := im.configure_areas hlong hmax (hc im List.mem_cons_self) hpos hfile hfits₁
    obtain ⟨rfl, rfl⟩ : im₁ = im₂ ∧ b = filesize + im.size sizeofLong maxkw := by simpa [him] using him₂
    rw [List.map_cons, List.sum_cons, ← Int.add_assoc]
    exact ih (fun d hd => hc d (List.mem_cons_of_mem im hd)) (by omega) (dvd_add hfile (im.dvd_size _ _)) hfits₁ hims
      hal htiles

end Images

/-! ## The layout -/

section Layout

variable {sizeofLong : Nat} {hdr : Nat → Bool} {ds : DSImage}

/-- The bytes of the global header -/
theorem DSImage.Choice.keywords_bytes (hc : ds.Choice sizeofLong) :
    0 ≤ ds.keywords ∧ blklen ≤ ds.keywords * cardlen ∧ blklen ∣ ds.keywords * cardlen ∧
      ds.keywords * cardlen < 2 ^ 31 ∧ int32 (ds.keywords * cardlen) = ds.keywords * cardlen := by
  have hb : (0 : Int) < blklen := by decide
  have hk0 : 0 < if ds.maxkeywords = 0 then defMaxkeywords else ds.maxkeywords := by
    split
    · decide
    · have := hc.keywords.1
      omega
  have hk : (if ds.maxkeywords = 0 then defMaxkeywords else ds.maxkeywords) * cardlen + blklen < 2 ^ 31 := by
    split
    · decide
    · exact hc.keywords.2
  obtain ⟨hkw0, hkw, hkwint⟩ := roundKeywords_bytes hk0.le hk
  rw [← DSImage.keywords] at hkw0 hkw hkwint
  have hbytes := Int.mul_pos hk0 (show 0 < cardlen by decide)
  have hle := le_roundUp hb hbytes.le
  have hlt := roundUp_le hb hbytes.le
  have hdvd : blklen ∣ ds.keywords * cardlen := hkw ▸ dvd_roundUp _ _
  exact ⟨hkw0, Int.le_of_dvd (by omega) hdvd, hdvd, by omega, hkwint⟩

theorem DSImage.configure_some (hc : ds.Choice sizeofLong) (hhdr : ∀ i ≤ ds.images.length, hdr i = true) :
    ∃ images filesize, configureImages sizeofLong ds.keywords hdr 1 (ds.keywords * cardlen) ds.images =
        some (images, filesize) ∧ images.length = ds.images.length ∧
      ds.configure sizeofLong hdr = some ⟨ds.keywords, images, 0, ds.keywords * cardlen, filesize⟩ := by
  obtain ⟨hkw0, -, -, -, hkwint⟩ := hc.keywords_bytes
  obtain ⟨images, filesize, himages, hlen⟩ := configureImages_some (ds.keywords * cardlen) hkw0 hc.images 1
    fun i _ h => hhdr i (by omega)
  refine ⟨images, filesize, himages, hlen, ?_⟩
  unfold DSImage.configure
  dsimp only
  rw [← DSImage.keywords, hkwint]
  by_cases hnil : ds.images = []
  · obtain ⟨rfl, rfl⟩ : [] = images ∧ ds.keywords * cardlen = filesize := by
      simpa [hnil, configureImages] using himages
    rw [if_pos hnil, hnil]
  · rw [if_neg hnil, hhdr 0 (Nat.zero_le _), if_neg (by simp), himages]
    rfl

/-- Where a `long` holds the size of the file, the global header and the areas of all images follow each other, at
multiples of the block length, from the start of the file to its end. -/
theorem layout_of_fits (hlong : 4 ≤ sizeofLong) (hc : ds.Choice sizeofLong)
    (hhdr : ∀ i ≤ ds.images.length, hdr i = true) (hfits : CInt.Fits (8 * sizeofLong) (ds.size sizeofLong)) :
    ∃ ds', ds.configure sizeofLong hdr = some ds' ∧ ds'.images.length = ds.images.length ∧ ds'.Layout := by
  obtain ⟨hkw0, hpos, hdvd, -, -⟩ := hc.keywords_bytes
  obtain ⟨images, filesize, himages, hlen, hds⟩ := DSImage.configure_some hc hhdr
  obtain ⟨hal, hfile, htiles⟩ := configureImages_areas hlong hkw0 hc.images hpos hdvd hfits himages
  have htiles' : Tiles 0 (⟨0, ds.keywords * cardlen⟩ :: images.flatMap Image.areas) filesize :=
    ⟨rfl, Int.mul_nonneg hkw0 (by decide), by rwa [Area.stop, zero_add]⟩
  exact ⟨_, hds, hlen, ⟨⟨rfl, rfl⟩, hal, hfile, htiles', htiles'.pairwise⟩⟩

/-- The areas of the file follow each other from the start of the file to its end, at multiples of the block length,
if and only if a `long` holds the size of the file. -/
theorem configure_layout_iff (hlong : 4 ≤ sizeofLong) (hc : ds.Choice sizeofLong)
    (hhdr : ∀ i ≤ ds.images.length, hdr i = true) :
    ∃ ds', ds.configure sizeofLong hdr = some ds' ∧ ds'.images.length = ds.images.length ∧
      (ds'.Layout ↔ CInt.Fits (8 * sizeofLong) (ds.size sizeofLong)) := by
  obtain ⟨hkw0, hpos, hdvd, hlt, -⟩ := hc.keywords_bytes
  obtain ⟨images, filesize, himages, hlen, hds⟩ := DSImage.configure_some hc hhdr
  refine ⟨_, hds, hlen, fun hlay => ?_, fun hfits => ?_⟩
  · obtain ⟨-, -, htiles⟩ := hlay.tiles
    rw [Area.stop, zero_add] at htiles
    have hhalf := int_le_long hlong
    have hblk : blklen = 2880 := rfl
    exact fits_of_configureImages hlong hkw0 hc.images hpos hdvd ⟨by omega, by omega⟩ himages hlay.aligned htiles
  · obtain ⟨ds', hds', -, hlay⟩ := layout_of_fits hlong hc hhdr hfits
    rwa [← Option.some.inj (hds.symm.trans hds')] at hlay

end Layout

/-- Two images of the size that is given with the tests of the interface. -/
def sampleFile : DSImage where
  maxkeywords := 72
  images :=
    [⟨0, 2, fun i => if i = 0 then 517 else 782, 4, 0, 0, 0, 0, 0⟩,
      ⟨0, 2, fun i => if i = 0 then 512 else 1024, 4, 0, 0, 0, 0, 0⟩]
  hdrOffset := 0
  hdrLength := 0
  filesize := 0

/-- The layout of that file, with the file size that is given there. -/
theorem sampleFile_layout :
    ∃ ds', sampleFile.configure 4 (fun _ => true) = some ds' ∧ ds'.Layout ∧ ds'.images.length = 2 ∧
      ds'.filesize = 1877760 := by
  have hchoice : sampleFile.Choice 4 := by
    refine ⟨by decide, ?_⟩
    have hkw : sampleFile.keywords = 72 := by decide
    rw [hkw]
    simp only [sampleFile, List.forall_mem_cons, List.not_mem_nil, false_imp_iff, implies_true, and_true]
    exact ⟨⟨by decide, by decide, by decide, by decide, by decide, by decide⟩,
      ⟨by decide, by decide, by decide, by decide, by decide, by decide⟩⟩
  obtain ⟨ds', hds, hlen, hlay⟩ := configure_layout_iff (by decide) hchoice
    (show ∀ i ≤ _, (fun _ => true) i = true from fun _ _ => rfl)
  have hsize : (sampleFile.configure 4 fun _ => true).map DSImage.filesize = some 1877760 := by decide
  rw [hds] at hsize
  exact ⟨ds', hds, hlay.mpr (by decide), hlen, Option.some.inj hsize⟩

/-- Two images of 1.2e9 bytes, the second with 2e9 bytes behind its pixels. -/
def longFile : DSImage where
  maxkeywords := 72
  images :=
    [⟨0, 2, fun i => if i = 0 then 30000 else 20000, 3, 0, 0, 0, 0, 0⟩,
      ⟨0, 2, fun i => if i = 0 then 30000 else 20000, 3, 0, 2000000000, 0, 0, 0⟩]
  hdrOffset := 0
  hdrLength := 0
  filesize := 0

/-- With a `long` of four bytes that file is laid out with a size of about 105 MB, less than the offset of its second
image. -/
theorem longFile_overlap :
    longFile.Choice 4 ∧ ∃ ds', longFile.configure 4 (fun _ => true) = some ds' ∧ ds'.filesize = 105053504 ∧
      ¬ ds'.Layout := by
  have hchoice : longFile.Choice 4 := by
    refine ⟨by decide, ?_⟩
    have hkw : longFile.keywords = 72 := by decide
    rw [hkw]
    simp only [longFile, List.forall_mem_cons, List.not_mem_nil, false_imp_iff, implies_true, and_true]
    exact ⟨⟨by decide, by decide, by decide, by decide, by decide, by decide⟩,
      ⟨by decide, by decide, by decide, by decide, by decide, by decide⟩⟩
  obtain ⟨images, filesize, -, -, hds⟩ := DSImage.configure_some hchoice
    (show ∀ i ≤ _, (fun _ => true) i = true from fun _ _ => rfl)
  have hvalue : (longFile.configure 4 fun _ => true).map (fun ds => (ds.filesize, ds.images.map Image.hdrOffset)) =
      some (105053504, [5760, 1200012480]) := by decide
  rw [hds] at hvalue
  obtain ⟨rfl, hoff⟩ := Prod.mk.inj (Option.some.inj hvalue)
  refine ⟨hchoice, _, hds, rfl, fun hlay => ?_⟩
  obtain ⟨im, him, hdr⟩ := List.mem_map.mp (show 1200012480 ∈ images.map Image.hdrOffset by simp [hoff])
  have hmem : im.headerArea ∈ images.flatMap Image.areas := List.mem_flatMap.mpr ⟨im, him, List.mem_cons_self⟩
  -- the header would end before the file does
  obtain ⟨-, hsize, hstop⟩ := hlay.tiles.bounds (List.mem_cons_of_mem _ hmem)
  change im.hdrOffset + im.headerArea.size ≤ 105053504 at hstop
  omega

end Ndhs.Dsim
