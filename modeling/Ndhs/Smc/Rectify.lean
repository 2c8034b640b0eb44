import Ndhs.Lib.Grid
import Ndhs.Lib.Loop
import Ndhs.Smc.Table
import Mathlib.Data.List.GetD

/-!
# Rectification of a raster (`smcmgr/smcRectify.c`, `smcmgr/rotate.c`)

A data page has a raster of `xSize * ySize` pixels. The last 64 columns of every row are reference
pixels, the columns before them are the display area. `smcRectifyPage` extracts the display area, transforms it by the
place of the detector in the focal plane, and writes it back between the reference columns.

The model has what stays from call to call: the buffer of the extracted pixels and that of the transformed ones, each
with the dimensions for which it was allocated. The transformations are those for pixels of type 4; no other type is
asked for. Products of `int` that overflow, and accesses outside a buffer, have no result.

* `rotate_spec`: every transformation copies each pixel once.
* `smcRectifyPage_spec`, `smcRectifyPages_spec`: the page after one call, and after each of many.
-/

namespace Ndhs

open Grid Loop

/-- `int`, of 32 bits -/
abbrev XLONG := BitVec 32

/-- `REFERENCE_WIDTH` -/
def referenceWidth : Nat := 64

/-- A product of two `int`s -/
def imul (a b : Nat) : Option Nat := if a * b < 2 ^ 31 then some (a * b) else none

theorem imul_eq {a b : Nat} (h : a * b < 2 ^ 31) : imul a b = some (a * b) := if_pos h

/-- A buffer that is kept from call to call: `dpix_buf` of `smcRectifyPage` and `bufl` of `rotate` -/
structure Scratch where
  first_time : Bool := true
  sv_nx : Nat := 0
  sv_ny : Nat := 0
  buf : List XLONG := []
  deriving DecidableEq

/-- The buffer for `nx * ny` pixels, a new one if the last one was for another number -/
def Scratch.alloc (s : Scratch) (nx ny : Nat) : Option Scratch := do
  let n ← imul nx ny
  let sv ← imul s.sv_nx s.sv_ny
  let s := if n ≠ sv then { s with sv_nx := nx, sv_ny := ny, first_time := true } else s
  some { s with first_time := false, buf := if s.first_time then List.replicate n 0 else s.buf }

/-! ## `rotate.c` -/

section Rotate

variable (ulip : List XLONG) (ulop : Cursor XLONG) (nx ny : Nat)

/-- `for (x = nx; x > 0; x--)`, with `x = nx - k` in round `k` -/
def flipx : Option (Cursor XLONG) :=
  (List.range ny).foldlM (fun ulop y =>
    (List.range nx).foldlM (fun ulop k => emit ulip ulop (y * nx + (nx - k) - 1)) ulop) ulop

/-- `for (y = ny - 1; y >= 0; y--)`, with `y = ny - 1 - k` in round `k` -/
def flipy : Option (Cursor XLONG) :=
  (List.range ny).foldlM (fun ulop k =>
    (List.range nx).foldlM (fun ulop x => emit ulip ulop ((ny - 1 - k) * nx + x)) ulop) ulop

/-- `for (y = ny; y > 0; y--)`, with `y = ny - k` in round `k` -/
def transpose2 : Option (Cursor XLONG) :=
  (List.range nx).foldlM (fun ulop x =>
    (List.range ny).foldlM (fun ulop k => emit ulip ulop ((ny - k) * nx - x - 1)) ulop) ulop

def transpose1 : Option (Cursor XLONG) :=
  (List.range nx).foldlM (fun ulop x =>
    (List.range ny).foldlM (fun ulop y => emit ulip ulop (y * nx + x)) ulop) ulop

/-- The second `switch` of `rotate` -/
def transform (dir : Nat) : Option (Cursor XLONG) :=
  match dir with
  | 1 => flipx ulip ulop nx ny
  | 2 => flipy ulip ulop nx ny
  | 3 => transpose1 ulip ulop nx ny
  | 4 => transpose2 ulip ulop nx ny
  | _ => some ulop

end Rotate

/-- The result is in the buffer, to which `*oadr` points. -/
def rotate (s : Scratch) (iadr : List XLONG) (nx ny dir : Nat) : Option Scratch := do
  let s ← s.alloc nx ny
  let ulop ← transform iadr ⟨s.buf, 0⟩ nx ny dir
  some { s with buf := ulop.buf }

/-! ## `smcRectify.c` -/

/-- The part of the focal plane that a page has (`fpConfig_t`) -/
structure FpConfig where
  xSize : Nat
  ySize : Nat
  xStart : Int
  yStart : Int
  deriving DecidableEq

/-- The statics of `smcRectifyPage` and of `rotate` -/
structure RectifyStatics where
  dpix : Scratch := {}
  rot : Scratch := {}
  deriving DecidableEq

/-- Which raster this is. A negative direction has an extra flip of the x axis. -/
def rectifyDir (xs ys : Int) : Int :=
  if xs = 0 ∧ ys = 0 then -3
  else if xs ≠ 0 ∧ ys = 0 then 0
  else if xs = 0 ∧ ys ≠ 0 then -2
  else -4

/-- The display area of a page is extracted, transformed and written back. -/
def rectifyDisplay (s : RectifyStatics) (nx ny : Nat) (dir : Int) (pix : List XLONG) :
    Option (RectifyStatics × List XLONG) := do
  let rowlen := nx - referenceWidth
  let nb ← imul rowlen 4
  let dpix ← (List.range ny).foldlM (fun dpix i =>
    copyCells pix (i * (rowlen + referenceWidth)) dpix (i * rowlen) (nb / 4)) s.dpix.buf
  let npix ← imul rowlen ny
  let nr ← imul npix 4
  let rot ← rotate s.rot dpix rowlen ny dir.natAbs
  let dpix ← copyCells rot.buf 0 dpix 0 (nr / 4)
  let (rot, dpix) ← if dir < 0 then do
      -- an extra flip of the x axis
      let rot ← rotate rot dpix rowlen ny 1
      let dpix ← copyCells rot.buf 0 dpix 0 (nr / 4)
      some (rot, dpix)
    else some (rot, dpix)
  let pix ← (List.range ny).foldlM (fun pix i =>
    copyCells rot.buf (i * rowlen) pix (i * (rowlen + referenceWidth)) (nb / 4)) pix
  some (⟨{ s.dpix with buf := dpix }, rot⟩, pix)

/-- `smcRectifyPage`: the pixels of the page after the call -/
def smcRectifyPage (rotate_enable : Bool) (s : RectifyStatics) (fp : FpConfig) (pix : List XLONG) :
    Option (RectifyStatics × List XLONG) :=
  if rotate_enable = false then some (s, pix) else do
  let dpix ← s.dpix.alloc fp.xSize fp.ySize
  let s := { s with dpix := dpix }
  let dir := rectifyDir fp.xStart fp.yStart
  if dir = 0 then some (s, pix) else rectifyDisplay s fp.xSize fp.ySize dir pix

/-- A page with its raster. The data area has room for it and has a size that `smcGetPage` gives out. -/
structure DataPage where
  fpCfg : FpConfig
  pix : List XLONG
  wide : referenceWidth ≤ fpCfg.xSize
  tall : 1 ≤ fpCfg.ySize
  fits : fpCfg.xSize * fpCfg.ySize ≤ pix.length
  dsize : (pix.length * 4 : Nat) ≤ maxSegSize

/-- One call for each page, in order: the pixels of each page after its call -/
def smcRectifyPages : RectifyStatics → List DataPage → Option (List (List XLONG))
  | _, [] => some []
  | s, p :: ps => do
    let (s, q) ← smcRectifyPage true s p.fpCfg p.pix
    let qs ← smcRectifyPages s ps
    some (q :: qs)

/-! ## The transformations -/

section Transformations

variable {ip buf : List XLONG} {nx ny dir : Nat}

/-- The cells in the order in which `rotate` copies them. -/
def rotated (nx ny : Nat) : Nat → List Nat
  | 1 => grid ny nx fun y k => y * nx + (nx - k) - 1
  | 2 => grid ny nx fun k x => (ny - 1 - k) * nx + x
  | 3 => grid nx ny fun x y => y * nx + x
  | 4 => grid nx ny fun x k => (ny - k) * nx - x - 1
  | _ => []

/-- The index of `transpose2` by its row and column -/
theorem transpose2_index {x k : Nat} (hx : x < nx) (hk : k < ny) :
    (ny - k) * nx - x - 1 = (ny - 1 - k) * nx + (nx - 1 - x) := by
  have hsucc : ny - k = (ny - 1 - k) + 1 := by omega
  rw [hsucc, Nat.succ_mul]
  omega

/-- Every transformation copies each cell once. -/
theorem rotated_perm (hd : 1 ≤ dir) (hd' : dir ≤ 4) : (rotated nx ny dir).Perm (List.range (nx * ny)) := by
  obtain rfl | rfl | rfl | rfl : dir = 1 ∨ dir = 2 ∨ dir = 3 ∨ dir = 4 := by omega
  · rw [Nat.mul_comm]
    refine grid_perm (fun y hy k hk => ?_) (fun y hy k hk y' hy' k' hk' h => ?_)
    · rw [Nat.add_sub_assoc (by omega)]
      exact index_lt hy (by omega)
    · rw [Nat.add_sub_assoc (by omega), Nat.add_sub_assoc (by omega)] at h
      obtain ⟨hyy, hkk⟩ := index_inj (by omega) (by omega) h
      exact ⟨hyy, by omega⟩
  · rw [Nat.mul_comm]
    refine grid_perm (fun k hk x hx => index_lt (by omega) hx) (fun k hk x hx k' hk' x' hx' h => ?_)
    obtain ⟨hkk, hxx⟩ := index_inj hx hx' h
    exact ⟨by omega, hxx⟩
  · refine grid_perm (fun x hx y hy => ?_) (fun x hx y hy x' hx' y' hy' h => ?_)
    · rw [Nat.mul_comm nx]
      exact index_lt hy hx
    · obtain ⟨hyy, hxx⟩ := index_inj hx hx' h
      exact ⟨hxx, hyy⟩
  · refine grid_perm (fun x hx k hk => ?_) (fun x hx k hk x' hx' k' hk' h => ?_)
    · rw [transpose2_index hx hk, Nat.mul_comm nx]
      exact index_lt (by omega) (by omega)
    · rw [transpose2_index hx hk, transpose2_index hx' hk'] at h
      obtain ⟨hkk, hxx⟩ := index_inj (by omega) (by omega) h
      exact ⟨by omega, by omega⟩

theorem rotated_lt (hd : 1 ≤ dir) (hd' : dir ≤ 4) {i : Nat} (hi : i ∈ rotated nx ny dir) : i < nx * ny :=
  List.mem_range.mp ((rotated_perm hd hd').mem_iff.mp hi)

theorem length_rotated (hd : 1 ≤ dir) (hd' : dir ≤ 4) : (rotated nx ny dir).length = nx * ny := by
  rw [(rotated_perm hd hd').length_eq, List.length_range]

/-- The loops of the four transformations -/
theorem transform_eq (hd : 1 ≤ dir) (hd' : dir ≤ 4) (hip : nx * ny ≤ ip.length) (hbuf : buf.length = nx * ny) :
    transform ip ⟨buf, 0⟩ nx ny dir = some ⟨(rotated nx ny dir).map (ip.getD · 0), nx * ny⟩ := by
  have hfill : (rotated nx ny dir).foldlM (emit ip) ⟨buf, 0⟩ =
      some ⟨(rotated nx ny dir).map (ip.getD · 0), (rotated nx ny dir).length⟩ :=
    foldlM_emit_fill 0 (fun i hi => Nat.lt_of_lt_of_le (rotated_lt hd hd' hi) hip)
      (by rw [hbuf, length_rotated hd hd'])
  rw [length_rotated hd hd'] at hfill
  obtain rfl | rfl | rfl | rfl : dir = 1 ∨ dir = 2 ∨ dir = 3 ∨ dir = 4 := by omega
  · exact (foldlM_grid (emit ip) _).trans hfill
  · exact (foldlM_grid (emit ip) _).trans hfill
  · exact (foldlM_grid (emit ip) _).trans hfill
  · exact (foldlM_grid (emit ip) _).trans hfill

/-- The buffer has the size of the dimensions for which it was allocated. -/
structure Scratch.Ok (s : Scratch) : Prop where
  small : s.sv_nx * s.sv_ny < 2 ^ 31
  sized : s.first_time = false → s.buf.length = s.sv_nx * s.sv_ny

theorem Scratch.alloc_spec {s : Scratch} (hs : s.Ok) {nx ny : Nat} (hsmall : nx * ny < 2 ^ 31) :
    ∃ t, s.alloc nx ny = some t ∧ t.buf.length = nx * ny ∧
      ∀ buf : List XLONG, buf.length = nx * ny → Scratch.Ok { t with buf := buf } := by
  unfold alloc
  rw [imul_eq hsmall, imul_eq hs.small]
  by_cases hn : nx * ny = s.sv_nx * s.sv_ny
  · -- the buffer of an earlier call
    refine ⟨{ s with first_time := false, buf := if s.first_time then List.replicate (nx * ny) 0 else s.buf }, ?_, ?_,
      fun buf hbuf => ⟨hs.small, fun _ => hbuf.trans hn⟩⟩
    · simp [hn]
    · cases hf : s.first_time with
      | true => exact List.length_replicate
      | false => exact (hs.sized hf).trans hn.symm
  · refine ⟨⟨false, nx, ny, List.replicate (nx * ny) 0⟩, ?_, List.length_replicate,
      fun buf hbuf => ⟨hsmall, fun _ => hbuf⟩⟩
    simp [hn]

theorem rotate_spec {s : Scratch} (hs : s.Ok) (ip : List XLONG) (dir : Nat) (hsmall : nx * ny < 2 ^ 31)
    (hip : nx * ny ≤ ip.length) (hd : 1 ≤ dir) (hd' : dir ≤ 4) :
    ∃ t, rotate s ip nx ny dir = some t ∧ t.Ok ∧ t.buf = (rotated nx ny dir).map (ip.getD · 0) := by
  obtain ⟨t, ht, hlen, hok⟩ := Scratch.alloc_spec hs hsmall
  refine ⟨{ t with buf := (rotated nx ny dir).map (ip.getD · 0) }, ?_, ?_, rfl⟩
  · rw [rotate, ht]
    exact congrArg (Option.bind · _) (transform_eq hd hd' hip hlen)
  · exact hok _ (by rw [List.length_map, length_rotated hd hd'])

end Transformations

/-! ## The display area -/

section Display

variable {pix dpix : List XLONG} {nx ny w : Nat}

/-- The loop that extracts the display area -/
theorem extract_spec (dpix : List XLONG) (hpix : (w + referenceWidth) * ny ≤ pix.length) (hdpix : w * ny ≤ dpix.length) :
    ∃ d, (List.range ny).foldlM
        (fun dpix i => copyCells pix (i * (w + referenceWidth)) dpix (i * w) w) dpix = some d ∧
      d.length = dpix.length ∧
      ∀ i < ny, ∀ j < w, d.getD (i * w + j) 0 = pix.getD (i * (w + referenceWidth) + j) 0 := by
  refine foldlM_range_inv
    (f := fun dpix i => copyCells pix (i * (w + referenceWidth)) dpix (i * w) w) (s := dpix) (n := ny)
    (fun m d => d.length = dpix.length ∧
      ∀ i < m, ∀ j < w, d.getD (i * w + j) 0 = pix.getD (i * (w + referenceWidth) + j) 0)
    ⟨rfl, fun i hi => absurd hi (Nat.not_lt_zero i)⟩ ?_
  · rintro m d hm ⟨hlen, hcells⟩
    have hw : (m + 1) * w ≤ ny * w := Nat.mul_le_mul_right w hm
    have hp : (m + 1) * (w + referenceWidth) ≤ ny * (w + referenceWidth) := Nat.mul_le_mul_right _ hm
    rw [Nat.succ_mul] at hw hp
    rw [Nat.mul_comm] at hpix hdpix
    obtain ⟨d', hd', hlen', hcells'⟩ := copyCells_eq pix d (s := m * (w + referenceWidth)) (d := m * w) (n := w)
      (0 : XLONG) (by omega) (by omega)
    refine ⟨d', hd', hlen'.trans hlen, fun i hi j hj => ?_⟩
    rw [hcells']
    rcases Nat.lt_succ_iff_lt_or_eq.mp hi with hlt | rfl
    · have hrow : (i + 1) * w ≤ m * w := Nat.mul_le_mul_right w hlt
      rw [Nat.succ_mul] at hrow
      rw [if_neg (by omega)]
      exact hcells i hlt j hj
    · rw [if_pos ⟨by omega, by omega⟩, Nat.add_sub_cancel_left]

/-- The loop that writes the display area back. What is not in the display area of a row stays. -/
theorem insert_spec (dpix : List XLONG) (hpix : (w + referenceWidth) * ny ≤ pix.length) (hdpix : w * ny ≤ dpix.length) :
    ∃ q, (List.range ny).foldlM
        (fun pix i => copyCells dpix (i * w) pix (i * (w + referenceWidth)) w) pix = some q ∧
      q.length = pix.length ∧
      (∀ i < ny, ∀ j < w, q.getD (i * (w + referenceWidth) + j) 0 = dpix.getD (i * w + j) 0) ∧
      ∀ k, (∀ i < ny, ∀ j < w, k ≠ i * (w + referenceWidth) + j) → q.getD k 0 = pix.getD k 0 := by
  refine foldlM_range_inv
    (f := fun pix i => copyCells dpix (i * w) pix (i * (w + referenceWidth)) w) (s := pix) (n := ny)
    (fun m q => q.length = pix.length ∧
      (∀ i < m, ∀ j < w, q.getD (i * (w + referenceWidth) + j) 0 = dpix.getD (i * w + j) 0) ∧
      ∀ k, (∀ i < m, ∀ j < w, k ≠ i * (w + referenceWidth) + j) → q.getD k 0 = pix.getD k 0)
    ⟨rfl, fun i hi => absurd hi (Nat.not_lt_zero i), fun k hk => rfl⟩ ?_
  · rintro m q hm ⟨hlen, hcells, hrest⟩
    have hw : (m + 1) * w ≤ ny * w := Nat.mul_le_mul_right w hm
    have hp : (m + 1) * (w + referenceWidth) ≤ ny * (w + referenceWidth) := Nat.mul_le_mul_right _ hm
    rw [Nat.succ_mul] at hw hp
    rw [Nat.mul_comm] at hpix hdpix
    obtain ⟨q', hq', hlen', hcells'⟩ := copyCells_eq dpix q (s := m * w) (d := m * (w + referenceWidth)) (n := w)
      (0 : XLONG) (by omega) (by omega)
    refine ⟨q', hq', hlen'.trans hlen, fun i hi j hj => ?_, fun k hk => ?_⟩
    · rw [hcells']
      rcases Nat.lt_succ_iff_lt_or_eq.mp hi with hlt | rfl
      · have hrow : (i + 1) * (w + referenceWidth) ≤ m * (w + referenceWidth) := Nat.mul_le_mul_right _ hlt
        rw [Nat.succ_mul] at hrow
        rw [if_neg (by omega)]
        exact hcells i hlt j hj
      · rw [if_pos ⟨by omega, by omega⟩, Nat.add_sub_cancel_left]
    · rw [hcells', if_neg]
      · exact hrest k fun i hi => hk i (Nat.lt_succ_of_lt hi)
      · rintro ⟨hle, hlt⟩
        exact hk m (Nat.lt_succ_self m) (k - m * (w + referenceWidth)) (by omega) (by omega)

/-- Cells at a permutation of the indices -/
theorem map_getD_perm {is : List Nat} {n : Nat} (h : is.Perm (List.range n)) (l : List XLONG) :
    (is.map (l.getD · 0)).Perm ((List.range n).map (l.getD · 0)) := h.map _

theorem map_getD_range {l : List XLONG} {n : Nat} (h : l.length = n) : (List.range n).map (l.getD · 0) = l := by
  refine List.ext_getElem (by simp [h]) fun i h₁ h₂ => ?_
  simp [h₂]

/-- A rotation and a flip of the x axis, each copied back to `dpix` -/
theorem rotate_flip_spec {s : Scratch} (hs : s.Ok) (dpix : List XLONG) (w ny : Nat) {dir : Nat} (hd : 1 ≤ dir)
    (hd' : dir ≤ 4)
    (hsmall : w * ny < 2 ^ 31) (hdpix : w * ny ≤ dpix.length) :
    ∃ t d u e,
      rotate s dpix w ny dir = some t ∧ copyCells t.buf 0 dpix 0 (w * ny) = some d ∧
      rotate t d w ny 1 = some u ∧ copyCells u.buf 0 d 0 (w * ny) = some e ∧
      u.Ok ∧ e.length = dpix.length ∧
      u.buf = (rotated w ny 1).map (((rotated w ny dir).map (dpix.getD · 0)).getD · 0) := by
  obtain ⟨t, ht, htok, htbuf⟩ := rotate_spec hs dpix dir hsmall hdpix hd hd'
  have htlen : t.buf.length = w * ny := by rw [htbuf, List.length_map, length_rotated hd hd']
  obtain ⟨d, hcopy, hdlen, hdcells⟩ := copyCells_eq t.buf dpix (s := 0) (d := 0) (n := w * ny)
    (0 : XLONG) (by omega) (by omega)
  obtain ⟨u, hu, huok, hubuf⟩ := rotate_spec htok d 1 hsmall (by omega) (by omega) (by omega)
  have hulen : u.buf.length = w * ny := by rw [hubuf, List.length_map, length_rotated (by omega) (by omega)]
  obtain ⟨e, hcopy', helen, -⟩ := copyCells_eq u.buf d (s := 0) (d := 0) (n := w * ny)
    (0 : XLONG) (by omega) (by omega)
  refine ⟨t, d, u, e, ht, hcopy, hu, hcopy', huok, helen.trans hdlen, ?_⟩
  rw [hubuf, ← htbuf]
  refine List.map_congr_left fun i hi => ?_
  have hlt : i < w * ny := rotated_lt (by omega) (by omega) hi
  rw [hdcells, if_pos ⟨by omega, by omega⟩, Nat.zero_add, Nat.sub_zero]

end Display

/-! ## One call -/

/-- The pixel of row `r` and column `c` -/
def pixel (nx : Nat) (pix : List XLONG) (r c : Nat) : Option XLONG := pix[r * nx + c]?

/-- The display area, row by row -/
def displayArea (fp : FpConfig) (pix : List XLONG) : List (Option XLONG) :=
  grid fp.ySize (fp.xSize - referenceWidth) (pixel fp.xSize pix)

/-- The row and the column from which a pixel of a square display area comes -/
def squareSource (fp : FpConfig) (n r c : Nat) : Nat × Nat :=
  if fp.xStart ≠ 0 ∧ fp.yStart = 0 then (r, c)
  else if fp.xStart = 0 ∧ fp.yStart = 0 then (n - 1 - c, r)
  else if fp.xStart = 0 ∧ fp.yStart ≠ 0 then (n - 1 - r, n - 1 - c)
  else (c, n - 1 - r)

/-- What a call makes of the pixels of a page -/
structure DataPage.Rectified (p : DataPage) (q : List XLONG) : Prop where
  length : q.length = p.pix.length
  reference : ∀ r < p.fpCfg.ySize, ∀ c < p.fpCfg.xSize, p.fpCfg.xSize - referenceWidth ≤ c →
    pixel p.fpCfg.xSize q r c = pixel p.fpCfg.xSize p.pix r c
  behind : ∀ k, p.fpCfg.xSize * p.fpCfg.ySize ≤ k → q[k]? = p.pix[k]?
  display : (displayArea p.fpCfg q).Perm (displayArea p.fpCfg p.pix)
  square : ∀ n, p.fpCfg.xSize - referenceWidth = n → p.fpCfg.ySize = n → ∀ r < n, ∀ c < n,
    pixel p.fpCfg.xSize q r c =
      pixel p.fpCfg.xSize p.pix (squareSource p.fpCfg n r c).1 (squareSource p.fpCfg n r c).2

/-- Both buffers have the size of the dimensions for which they were allocated. -/
structure RectifyStatics.Ok (s : RectifyStatics) : Prop where
  dpix : s.dpix.Ok
  rot : s.rot.Ok

section Call

variable {p : DataPage} {q dpix bufl : List XLONG} {w dir : Nat}

theorem pixel_eq {nx ny : Nat} {pix : List XLONG} (h : ny * nx ≤ pix.length) {r c : Nat} (hr : r < ny) (hc : c < nx) :
    pixel nx pix r c = some (pix.getD (r * nx + c) 0) := by
  have hlt := index_lt hr hc
  rw [pixel, List.getElem?_eq_getElem (by omega), List.getD_eq_getElem _ _ (by omega)]

/-- A call for a detector whose raster needs no transformation -/
theorem DataPage.rectified_self (hx : p.fpCfg.xStart ≠ 0) (hy : p.fpCfg.yStart = 0) : p.Rectified p.pix where
  length := rfl
  reference _ _ _ _ _ := rfl
  behind _ _ := rfl
  display := .refl _
  square n _ _ r _ c _ := by rw [squareSource, if_pos ⟨hx, hy⟩]

/-- The pixels of a square display area after the rotation `dir` and the flip of the x axis -/
theorem square_rotated {n r c : Nat} (hr : r < n) (hc : c < n) (d : List XLONG) :
    ((rotated n n 1).map (((rotated n n dir).map (d.getD · 0)).getD · 0)).getD (r * n + c) 0 =
      ((rotated n n dir).map (d.getD · 0)).getD (r * n + (n - 1 - c)) 0 := by
  have hidx : r * n + (n - c) - 1 = r * n + (n - 1 - c) := by omega
  rw [rotated, map_grid, grid_getD hr hc, hidx]

/-- What the transformation and the loop that writes it back do to a page -/
theorem DataPage.rectified_of (hw : p.fpCfg.xSize = w + referenceWidth) (hlen : q.length = p.pix.length)
    (hdpix : ∀ i < p.fpCfg.ySize, ∀ j < w, dpix.getD (i * w + j) 0 = p.pix.getD (i * (w + referenceWidth) + j) 0)
    (hbufl : bufl = (rotated w p.fpCfg.ySize 1).map (((rotated w p.fpCfg.ySize dir).map (dpix.getD · 0)).getD · 0))
    (hcells : ∀ i < p.fpCfg.ySize, ∀ j < w, q.getD (i * (w + referenceWidth) + j) 0 = bufl.getD (i * w + j) 0)
    (hrest : ∀ k, (∀ i < p.fpCfg.ySize, ∀ j < w, k ≠ i * (w + referenceWidth) + j) → q.getD k 0 = p.pix.getD k 0)
    (hd : 1 ≤ dir) (hd' : dir ≤ 4) (hdir : rectifyDir p.fpCfg.xStart p.fpCfg.yStart = -dir) : p.Rectified q where
  length := hlen
  reference r hr c hc hwc := by
    have hfits : p.fpCfg.ySize * p.fpCfg.xSize ≤ p.pix.length := Nat.mul_comm _ _ ▸ p.fits
    rw [pixel_eq (hlen ▸ hfits) hr hc, pixel_eq hfits hr hc, hrest]
    intro i hi j hj h
    rw [hw] at h hc hwc
    obtain ⟨-, rfl⟩ := index_inj hc (by omega) h
    omega
  behind k hk := by
    rcases Nat.lt_or_ge k p.pix.length with hlt | hge
    · rw [List.getElem?_eq_getElem (by omega), List.getElem?_eq_getElem hlt,
        ← List.getD_eq_getElem _ (0 : XLONG), ← List.getD_eq_getElem _ (0 : XLONG), hrest]
      rintro i hi j hj rfl
      rw [hw, Nat.mul_comm] at hk
      exact absurd (index_lt (b := w + referenceWidth) hi (show j < w + referenceWidth by omega)) (by omega)
    · rw [List.getElem?_eq_none (by omega), List.getElem?_eq_none hge]
  display := by
    have hfits : p.fpCfg.ySize * p.fpCfg.xSize ≤ p.pix.length := Nat.mul_comm _ _ ▸ p.fits
    have hblen : bufl.length = p.fpCfg.ySize * w := by
      rw [hbufl, List.length_map, length_rotated (by omega) (by omega), Nat.mul_comm]
    -- the display area before and after, as the cells of `dpix` and of `bufl`
    have hq : displayArea p.fpCfg q = bufl.map some := by
      rw [← map_getD_range hblen, ← grid_range, map_grid, map_grid, displayArea, hw, Nat.add_sub_cancel]
      refine grid_congr fun i hi j hj => ?_
      rw [← hcells i hi j hj, ← hw]
      exact pixel_eq (hlen ▸ hfits) hi (by omega)
    have hp : displayArea p.fpCfg p.pix =
        ((List.range (w * p.fpCfg.ySize)).map (dpix.getD · 0)).map some := by
      rw [Nat.mul_comm, ← grid_range, map_grid, map_grid, displayArea, hw, Nat.add_sub_cancel]
      refine grid_congr fun i hi j hj => ?_
      rw [hdpix i hi j hj, ← hw]
      exact pixel_eq hfits hi (by omega)
    rw [hq, hp]
    refine List.Perm.map some ?_
    calc bufl = _ := hbufl
      List.Perm _ ((List.range (w * p.fpCfg.ySize)).map
          (((rotated w p.fpCfg.ySize dir).map (dpix.getD · 0)).getD · 0)) :=
        map_getD_perm (rotated_perm (by omega) (by omega)) _
      _ = (rotated w p.fpCfg.ySize dir).map (dpix.getD · 0) :=
        map_getD_range (by rw [List.length_map, length_rotated hd hd'])
      List.Perm _ ((List.range (w * p.fpCfg.ySize)).map (dpix.getD · 0)) := map_getD_perm (rotated_perm hd hd') _
  square n hn hny r hr c hc := by
    have hfits : p.fpCfg.ySize * p.fpCfg.xSize ≤ p.pix.length := Nat.mul_comm _ _ ▸ p.fits
    obtain rfl : w = n := by rw [hw, Nat.add_sub_cancel] at hn; exact hn
    rw [hny] at hcells hdpix hfits hbufl
    have hnew : pixel p.fpCfg.xSize q r c =
        some (((rotated w w dir).map (dpix.getD · 0)).getD (r * w + (w - 1 - c)) 0) := by
      rw [pixel_eq (hlen ▸ hfits) hr (by omega), hw, hcells r hr c hc, hbufl, square_rotated hr hc]
    have hold (i j : Nat) (hi : i < w) (hj : j < w) :
        pixel p.fpCfg.xSize p.pix i j = some (dpix.getD (i * w + j) 0) := by
      rw [pixel_eq hfits hi (by omega), hw, hdpix i hi j hj]
    rw [hnew]
    unfold rectifyDir at hdir
    unfold squareSource
    split_ifs at hdir with h₁ h₂ h₃
    · obtain rfl : dir = 3 := by omega
      rw [if_neg (fun h => h.1 h₁.1), if_pos h₁, hold _ _ (by omega) hr, rotated, map_grid,
        grid_getD hr (by omega)]
    · omega
    · obtain rfl : dir = 2 := by omega
      rw [if_neg (fun h => h.1 h₃.1), if_neg (fun h => h₃.2 h.2), if_pos h₃, hold _ _ (by omega) (by omega), rotated,
        map_grid, grid_getD hr (by omega)]
    · obtain rfl : dir = 4 := by omega
      have hcol : w - 1 - (w - 1 - c) = c := by omega
      rw [if_neg h₂, if_neg h₁, if_neg h₃, hold _ _ hc (by omega), rotated, map_grid, grid_getD hr (by omega),
        transpose2_index hr (by omega), hcol]

theorem DataPage.small (p : DataPage) : p.fpCfg.xSize * p.fpCfg.ySize * 4 < 2 ^ 31 := by
  have hfits := p.fits
  have hsize := p.dsize
  unfold maxSegSize at hsize
  omega

/-- A raster that needs no transformation stays; the other ones are rotated and flipped. -/
theorem rectifyDir_cases (xs ys : Int) :
    (rectifyDir xs ys = 0 ∧ xs ≠ 0 ∧ ys = 0) ∨ ∃ d : Nat, 1 ≤ d ∧ d ≤ 4 ∧ rectifyDir xs ys = -d := by
  unfold rectifyDir
  split_ifs with h₁ h₂ h₃
  · exact .inr ⟨3, by omega, by omega, rfl⟩
  · exact .inl ⟨rfl, h₂⟩
  · exact .inr ⟨2, by omega, by omega, rfl⟩
  · exact .inr ⟨4, by omega, by omega, rfl⟩

theorem rectifyDisplay_spec {s : RectifyStatics} (hs : s.rot.Ok) (p : DataPage)
    (hlen : s.dpix.buf.length = p.fpCfg.xSize * p.fpCfg.ySize)
    (hok : ∀ buf : List XLONG, buf.length = p.fpCfg.xSize * p.fpCfg.ySize → Scratch.Ok { s.dpix with buf := buf })
    (hd : 1 ≤ dir) (hd' : dir ≤ 4) (hdir : rectifyDir p.fpCfg.xStart p.fpCfg.yStart = -dir) :
    ∃ t q, rectifyDisplay s p.fpCfg.xSize p.fpCfg.ySize (-dir) p.pix = some (t, q) ∧ t.Ok ∧ p.Rectified q := by
  obtain ⟨w, hw⟩ : ∃ w, p.fpCfg.xSize = w + referenceWidth := ⟨_, (Nat.sub_add_cancel p.wide).symm⟩
  have hsmall := p.small
  have hwle : w * p.fpCfg.ySize ≤ p.fpCfg.xSize * p.fpCfg.ySize := Nat.mul_le_mul_right _ (by omega)
  have hw1 : w * 1 ≤ w * p.fpCfg.ySize := Nat.mul_le_mul_left w p.tall
  have hfits : (w + referenceWidth) * p.fpCfg.ySize ≤ p.pix.length := hw ▸ p.fits
  obtain ⟨d, hextract, hdlen, hdpix⟩ := extract_spec s.dpix.buf hfits (by omega)
  obtain ⟨t, d', u, e, ht, hcopy, hu, hcopy', huok, helen, hubuf⟩ :=
    rotate_flip_spec hs d w p.fpCfg.ySize hd hd' (by omega) (by omega)
  have hulen : u.buf.length = w * p.fpCfg.ySize := by
    rw [hubuf, List.length_map, length_rotated (by omega) (by omega)]
  obtain ⟨q, hinsert, hqlen, hcells, hrest⟩ := insert_spec u.buf hfits (by omega)
  refine ⟨⟨{ s.dpix with buf := e }, u⟩, q, ?_, ⟨hok e (by omega), huok⟩,
    DataPage.rectified_of hw hqlen hdpix hubuf hcells hrest hd hd' hdir⟩
  have habs : (-(dir : Int)).natAbs = dir := by omega
  have hneg : -(dir : Int) < 0 := by omega
  simp only [rectifyDisplay, hw, Nat.add_sub_cancel, imul_eq (show w * 4 < 2 ^ 31 by omega),
    imul_eq (show w * p.fpCfg.ySize < 2 ^ 31 by omega), imul_eq (show w * p.fpCfg.ySize * 4 < 2 ^ 31 by omega),
    Option.bind_eq_bind, Option.bind_some, Nat.mul_div_cancel _ (show 0 < 4 by omega), habs, if_pos hneg,
    hextract, ht, hcopy, hu, hcopy', hinsert]

theorem smcRectifyPage_spec {s : RectifyStatics} (hs : s.Ok) (p : DataPage) :
    ∃ t q, smcRectifyPage true s p.fpCfg p.pix = some (t, q) ∧ t.Ok ∧ p.Rectified q := by
  have hsmall := p.small
  have hn : p.fpCfg.xSize * p.fpCfg.ySize < 2 ^ 31 := by omega
  obtain ⟨b, hb, hlen, hok⟩ := Scratch.alloc_spec hs.dpix hn
  have hcall : smcRectifyPage true s p.fpCfg p.pix =
      if rectifyDir p.fpCfg.xStart p.fpCfg.yStart = 0 then some (⟨b, s.rot⟩, p.pix)
      else rectifyDisplay ⟨b, s.rot⟩ p.fpCfg.xSize p.fpCfg.ySize
        (rectifyDir p.fpCfg.xStart p.fpCfg.yStart) p.pix := by
    simp [smcRectifyPage, hb]
  rw [hcall]
  rcases rectifyDir_cases p.fpCfg.xStart p.fpCfg.yStart with ⟨hdir, hx, hy⟩ | ⟨dir, hd, hd', hdir⟩
  · rw [if_pos hdir]
    exact ⟨_, _, rfl, ⟨hok b.buf hlen, hs.rot⟩, DataPage.rectified_self hx hy⟩
  · rw [if_neg (by omega), hdir]
    exact rectifyDisplay_spec (s := ⟨b, s.rot⟩) hs.rot p hlen hok hd hd' hdir

/-- Every call of a sequence rectifies its page. -/
theorem smcRectifyPages_spec {s : RectifyStatics} (hs : s.Ok) (ps : List DataPage) :
    ∃ qs, smcRectifyPages s ps = some qs ∧ List.Forall₂ DataPage.Rectified ps qs := by
  induction ps generalizing s with
  | nil => exact ⟨[], rfl, .nil⟩
  | cons p ps ih =>
    obtain ⟨t, q, hq, ht, hr⟩ := smcRectifyPage_spec hs p
    obtain ⟨qs, hqs, hrs⟩ := ih ht
    refine ⟨q :: qs, ?_, .cons hr hrs⟩
    simp [smcRectifyPages, hq, hqs]

theorem RectifyStatics.ok_init : RectifyStatics.Ok {} :=
  ⟨⟨by decide, nofun⟩, ⟨by decide, nofun⟩⟩

/-- From the start of the program on -/
theorem rectified_of_calls (ps : List DataPage) :
    ∃ qs, smcRectifyPages {} ps = some qs ∧ List.Forall₂ DataPage.Rectified ps qs :=
  smcRectifyPages_spec RectifyStatics.ok_init ps

/-- A page whose pixels are numbered from `0`, with a display area of `w` columns and `h` rows. -/
def DataPage.counting (w h : Nat) (xStart yStart : Int) (hh : 1 ≤ h)
    (hs : ((w + referenceWidth) * h * 4 : Nat) ≤ maxSegSize) : DataPage where
  fpCfg := ⟨w + referenceWidth, h, xStart, yStart⟩
  pix := (List.range ((w + referenceWidth) * h)).map (BitVec.ofNat 32)
  wide := Nat.le_add_left ..
  tall := hh
  fits := by simp
  dsize := by simpa using hs

/-- Three pages of two shapes, each from another detector. The raster of the last one needs no transformation. -/
theorem rectified_of_calls_three :
    let a := DataPage.counting 2 2 0 0 (by decide) (by decide)
    let b := DataPage.counting 3 1 0 5 (by decide) (by decide)
    let c := DataPage.counting 2 2 7 0 (by decide) (by decide)
    ∃ q r t, smcRectifyPages {} [a, b, c] = some [q, r, t] ∧
      (a.Rectified q ∧ displayArea a.fpCfg q = [some 66, some 0, some 67, some 1]) ∧
      (b.Rectified r ∧ displayArea b.fpCfg r = [some 2, some 1, some 0]) ∧
      (c.Rectified t ∧ displayArea c.fpCfg t = [some 0, some 1, some 66, some 67]) := by
  intro a b c
  have hareas : (smcRectifyPages {} [a, b, c]).map
      (fun qs => List.zipWith (fun (p : DataPage) q => displayArea p.fpCfg q) [a, b, c] qs) =
      some [[some 66, some 0, some 67, some 1], [some 2, some 1, some 0], [some 0, some 1, some 66, some 67]] := by
    decide +kernel
  obtain ⟨qs, hqs, hall⟩ := rectified_of_calls [a, b, c]
  cases hall with
  | cons ha hall =>
    cases hall with
    | cons hb hall =>
      cases hall with
      | cons hc hall =>
        cases hall
        rw [hqs] at hareas
        simp only [Option.map_some, List.zipWith_cons_cons, List.zipWith_nil_right, Option.some.injEq,
          List.cons.injEq, and_true] at hareas
        exact ⟨_, _, _, hqs, ⟨ha, hareas.1⟩, ⟨hb, hareas.2.1⟩, ⟨hc, hareas.2.2⟩⟩

end Call

end Ndhs
