import Ndhs.Lib.Stats
import Ndhs.Smc.Rectify

/-!
# Statistics of a raster (`rtdPixelStats` in `smcmgr/smcRTD.c`)

A raster has `nx * ny` pixels, and the last 64 columns are reference pixels. `rtdPixelStats` takes the mean, the
deviation and the range of the display columns and of the reference columns, with two scans of the raster.

The sums are exact: a `double` is a rational number. In place of the deviation the model has its square, the argument of
`sqrt`.

* `scanRaster_eq`: a scan is a loop over the display pixels and one over the reference pixels.
* `rtdPixelStats_eq`: the result for each area. The sums over the display area are divided by the number of all pixels.
* `statsRight_iff`: the rasters for which the result is right.
-/

namespace Ndhs

open Stats

/-- What is added up, and the range, of one area. The range starts with values that pixels are thought not to reach. -/
structure AreaSums where
  sum : Rat := 0
  min : Rat := 1000000
  max : Rat := -1000000

/-- `sum += val; if (val < min) min = val; if (val > max) max = val;` -/
def AreaSums.add (a : AreaSums) (val : Rat) : AreaSums where
  sum := a.sum + val
  min := if val < a.min then val else a.min
  max := if a.max < val then val else a.max

/-- `pixStat`, without the name and the display range. `sigma` and `rsigma` are squared. -/
structure PixStat where
  mean : Rat
  sigma2 : Rat
  min : Rat
  max : Rat
  rmean : Rat
  rsigma2 : Rat
  rmin : Rat
  rmax : Rat
  deriving DecidableEq

section Raster

variable (pix : Nat → XLONG) (nx ny : Nat)

/-- `val = pix[k];`, with a `val` of type `int` -/
def pixVal (k : Nat) : Rat := ((pix k).toInt : Rat)

/-- One of the two scans: `for (j=0; j < refpix; j++)` for the display columns, and `for (; j < nx; j++)` for the
reference columns of a row. -/
def scanRaster {σ τ : Type} (f : σ → Rat → σ) (g : τ → Rat → τ) (c : σ × τ) : σ × τ :=
  let refpix := nx - referenceWidth
  (List.range ny).foldl (fun c i =>
    ((List.range refpix).foldl (fun a j => f a (pixVal pix (i * nx + j))) c.1,
      (List.range' refpix (nx - refpix)).foldl (fun a j => g a (pixVal pix (i * nx + j))) c.2)) c

/-- `rtdPixelStats` -/
def rtdPixelStats : Option PixStat := do
  let npix ← imul nx ny
  let nref ← imul referenceWidth ny
  let (disp, ref) := scanRaster pix nx ny AreaSums.add AreaSums.add ({}, {})
  let mean := disp.sum / npix
  let rmean := ref.sum / nref
  let (sum2, rsum2) := scanRaster pix nx ny (fun s val => s + (val - mean) * (val - mean))
    (fun s val => s + (val - rmean) * (val - rmean)) (0, 0)
  some ⟨mean, sum2 / npix, disp.min, disp.max, rmean, rsum2 / nref, ref.min, ref.max⟩

/-! ## The two areas -/

/-- The pixels of the columns `0 .. nx - 65` -/
def displayPixels : List Rat :=
  (List.range ny).flatMap fun i => (List.range (nx - referenceWidth)).map fun j => pixVal pix (i * nx + j)

/-- The pixels of the last 64 columns -/
def refPixels : List Rat :=
  (List.range ny).flatMap fun i =>
    (List.range' (nx - referenceWidth) referenceWidth).map fun j => pixVal pix (i * nx + j)

/-- The true statistics of an area -/
structure AreaRight (l : List Rat) (mean sigma2 min max : Rat) : Prop where
  mean : mean = Stats.mean l
  sigma2 : sigma2 = variance l
  min : IsLeast {v | v ∈ l} min
  max : IsGreatest {v | v ∈ l} max

/-- The true statistics of both areas -/
def StatsRight (s : PixStat) : Prop :=
  AreaRight (displayPixels pix nx ny) s.mean s.sigma2 s.min s.max ∧
    AreaRight (refPixels pix nx ny) s.rmean s.rsigma2 s.rmin s.rmax

end Raster

theorem AreaSums.foldl_add (l : List Rat) (a : AreaSums) :
    l.foldl AreaSums.add a = ⟨a.sum + l.sum, least a.min l, greatest a.max l⟩ := by
  induction l generalizing a with
  | nil => rw [List.foldl_nil, List.sum_nil, add_zero]; rfl
  | cons v l ih =>
    rw [List.foldl_cons, ih, List.sum_cons, ← add_assoc]
    rfl

theorem foldl_sqDev (m : Rat) (l : List Rat) (s : Rat) :
    l.foldl (fun s val => s + (val - m) * (val - m)) s = s + sqDev m l := by
  induction l generalizing s with
  | nil => rw [List.foldl_nil, sqDev, List.map_nil, List.sum_nil, add_zero]
  | cons v l ih => rw [List.foldl_cons, ih, sqDev_cons, add_assoc]

section Areas

variable {pix : Nat → XLONG} {nx ny : Nat}

theorem scanRaster_eq (hx : referenceWidth < nx) {σ τ : Type} (f : σ → Rat → σ) (g : τ → Rat → τ) (c : σ × τ) :
    scanRaster pix nx ny f g c = ((displayPixels pix nx ny).foldl f c.1, (refPixels pix nx ny).foldl g c.2) := by
  have hw : nx - (nx - referenceWidth) = referenceWidth := by omega
  rw [scanRaster, displayPixels, refPixels, List.foldl_flatMap, List.foldl_flatMap, hw]
  generalize List.range ny = rows
  induction rows generalizing c with
  | nil => rfl
  | cons i rows ih =>
    rw [List.foldl_cons, ih]
    simp only [List.foldl_cons, List.foldl_map]

theorem length_displayPixels : (displayPixels pix nx ny).length = ny * (nx - referenceWidth) := by
  simp [displayPixels, List.length_flatMap]

theorem length_refPixels : (refPixels pix nx ny).length = ny * referenceWidth := by
  simp [refPixels, List.length_flatMap]

/-- The result in terms of the two areas -/
theorem rtdPixelStats_eq (hx : referenceWidth < nx) (hn : nx * ny < 2 ^ 31) :
    rtdPixelStats pix nx ny = some
      { mean := (displayPixels pix nx ny).sum / (nx * ny : Nat)
        sigma2 := sqDev ((displayPixels pix nx ny).sum / (nx * ny : Nat)) (displayPixels pix nx ny) / (nx * ny : Nat)
        min := least 1000000 (displayPixels pix nx ny)
        max := greatest (-1000000) (displayPixels pix nx ny)
        rmean := mean (refPixels pix nx ny)
        rsigma2 := variance (refPixels pix nx ny)
        rmin := least 1000000 (refPixels pix nx ny)
        rmax := greatest (-1000000) (refPixels pix nx ny) } := by
  have hr : referenceWidth * ny < 2 ^ 31 := lt_of_le_of_lt (Nat.mul_le_mul_right ny hx.le) hn
  have hlen : ((referenceWidth * ny : Nat) : Rat) = (refPixels pix nx ny).length := by
    rw [length_refPixels, Nat.mul_comm]
  simp only [rtdPixelStats, imul_eq hn, imul_eq hr, Option.bind_eq_bind, Option.bind_some, scanRaster_eq hx,
    AreaSums.foldl_add, foldl_sqDev, zero_add, hlen]
  rfl

/-- A product that overflows -/
theorem rtdPixelStats_none (hn : ¬ nx * ny < 2 ^ 31) : rtdPixelStats pix nx ny = none := by
  rw [rtdPixelStats, imul, if_neg hn]
  rfl

end Areas

/-- The result is right for a raster whose display pixels are all zero, and whose reference pixels are not all above or
all below the start values of their range. -/
theorem statsRight_iff (pix : Nat → XLONG) (nx ny : Nat) (hx : referenceWidth < nx) (hy : 1 ≤ ny) :
    (∃ s, rtdPixelStats pix nx ny = some s ∧ StatsRight pix nx ny s) ↔
      nx * ny < 2 ^ 31 ∧ (∀ v ∈ displayPixels pix nx ny, v = 0) ∧
        (∃ v ∈ refPixels pix nx ny, v ≤ 1000000) ∧ ∃ v ∈ refPixels pix nx ny, -1000000 ≤ v := by
  by_cases hn : nx * ny < 2 ^ 31
  · have hpos : 0 < (displayPixels pix nx ny).length := by
      rw [length_displayPixels]
      exact Nat.mul_pos hy (Nat.sub_pos_of_lt hx)
    have hlt : (displayPixels pix nx ny).length < nx * ny := by
      rw [length_displayPixels, Nat.mul_comm nx]
      exact Nat.mul_lt_mul_of_pos_left (Nat.sub_lt (by omega) (by decide)) hy
    have hwide := wide_iff (List.length_pos_iff.mp hpos) hlt
    simp only [rtdPixelStats_eq hx hn, Option.some.injEq, exists_eq_left', hn, true_and, ← hwide,
      ← isLeast_least_iff, ← isGreatest_greatest_iff]
    constructor
    · rintro ⟨hd, hr⟩
      exact ⟨⟨hd.mean, hd.sigma2⟩, hr.min, hr.max⟩
    · rintro ⟨hd, hmin, hmax⟩
      -- a display area of zeros is within its start values
      have hzero := hwide.mp hd
      obtain ⟨v, hv⟩ := List.exists_mem_of_length_pos hpos
      have hv0 := hzero v hv
      exact ⟨⟨hd.1, hd.2, isLeast_least_iff.mpr ⟨v, hv, by rw [hv0]; decide +kernel⟩,
        isGreatest_greatest_iff.mpr ⟨v, hv, by rw [hv0]; decide +kernel⟩⟩, rfl, rfl, hmin, hmax⟩
  · rw [rtdPixelStats_none hn]
    exact ⟨fun ⟨_, hs, _⟩ => (nomatch hs), fun h => absurd h.1 hn⟩

/-- A raster of one row of 65 pixels, all zero -/
theorem statsRight_zero :
    referenceWidth < 65 ∧ 1 ≤ 1 ∧
      ((∃ s, rtdPixelStats (fun _ => 0) 65 1 = some s ∧ StatsRight (fun _ => 0) 65 1 s) ↔
        65 * 1 < 2 ^ 31 ∧ (∀ v ∈ displayPixels (fun _ => 0) 65 1, v = 0) ∧
          (∃ v ∈ refPixels (fun _ => 0) 65 1, v ≤ 1000000) ∧ ∃ v ∈ refPixels (fun _ => 0) 65 1, -1000000 ≤ v) :=
  ⟨by decide, by decide, statsRight_iff (fun _ => 0) 65 1 (by decide) (by decide)⟩

/-- A raster of 65 pixels with the value 65: the mean of the one display pixel is 1. -/
theorem statsRight_not :
    ¬ ∃ s, rtdPixelStats (fun _ => 65) 65 1 = some s ∧ StatsRight (fun _ => 65) 65 1 s := by
  rintro ⟨s, hs, hd, -⟩
  have hmean : (rtdPixelStats (fun _ => 65) 65 1).map PixStat.mean = some 1 := by decide +kernel
  have htrue : mean (displayPixels (fun _ => 65) 65 1) = 65 := by decide +kernel
  rw [hs, Option.map_some, hd.mean, htrue] at hmean
  revert hmean
  decide +kernel

end Ndhs
