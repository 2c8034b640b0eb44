import Ndhs.Dca.PixelData
import Ndhs.Lib.Fill

/-!
# The region of an image that a stream is written into (`WritePixelData`, `WritePixels`)

`WritePixelData` computes a region of the image from the number of pixels and from the steps, and gives it to
`dsim_StartIO`; `WritePixels` then walks over the pixels. `copies` are the pixels that it copies: where each is read, and
its column and line.

* `copies` has the first rounds of the loop, however many: a loop that does not end has copies too.
* A stream is seen along two axes (`along`, `across`): the axis of the lines or columns that are filled, and the axis
  along which they follow each other. The number of pixels before the end of a line or column is `Axis.room`.

`writePixels_copies`: what `WritePixels` stores is what `copies` says. `pixelRegion_iff`: when the region is inside the
image and has all pixels, and when only pixels of the buffer are read.
-/

namespace Ndhs.Mosdca

open Dsim Fill Pxf Stores

/-- A pixel that is copied: its place in the buffer, its column and its line -/
structure Copy where
  ip : Int
  i : Int
  j : Int

/-- The `n` pixels of one round, which are `shift` apart in the image -/
def runCopies (istep : Int) (shift : Int × Int) (n : Nat) (i j ip : Int) : List Copy :=
  (List.range n).map fun k : Nat => ⟨ip + istep * k, i + shift.1 * k, j + shift.2 * k⟩

/-- The pixels of the first rounds of a loop of `WritePixels` -/
def loopCopies (istep : Int) (shift : Int × Int) (room : Int → Int → Int) (next : Int → Int → Int × Int) :
    Nat → Int → Int → Int → Int → List Copy
  | 0, _, _, _, _ => []
  | n + 1, nleft, i, j, ip =>
    if nleft > 0 then
      let np := min nleft (room i j)
      runCopies istep shift np.toNat i j ip ++
        loopCopies istep shift room next n (nleft - np) (next i j).1 (next i j).2 (ip + istep * np.toNat)
    else []

/-- The pixels that the first `n` rounds of `WritePixels` copy -/
def copies (axlen1 axlen2 : Int) (st : Stream) (n : Nat) : List Copy :=
  let dx := st.xstep
  let dy := st.ystep
  let fill (shift : Int × Int) (room : Int → Int → Int) (next : Int → Int → Int × Int) : List Copy :=
    loopCopies st.stride shift room next n st.npix st.x0 st.y0 st.offset
  if st.xydir ≠ 0 ∧ dy > 0 then fill (0, dy) (fun _ j => (axlen2 - j).tdiv |dy|) fun i _ => (i + dx, 0)
  else if st.xydir ≠ 0 ∧ dy < 0 then fill (0, dy) (fun _ j => (j + 1).tdiv |dy|) fun i _ => (i + dx, axlen2 - 1)
  else if st.xydir = 0 ∧ dx > 0 then fill (dx, 0) (fun i _ => (axlen1 - i).tdiv |dx|) fun _ j => (0, j + dy)
  else if st.xydir = 0 ∧ dx < 0 then fill (dx, 0) (fun i _ => (i + 1).tdiv |dx|) fun _ j => (axlen1 - 1, j + dy)
  else []

/-- The parameters of a stream pass the check of `WritePixelData`. -/
structure Accepted (axlen1 axlen2 : Int) (st : Stream) : Prop where
  npix : st.npix ≠ 0
  x0 : 0 ≤ st.x0 ∧ st.x0 < axlen1
  y0 : 0 ≤ st.y0 ∧ st.y0 < axlen2
  destimage : 1 ≤ st.destimage
  xstep : st.xstep ≠ 0
  ystep : st.ystep ≠ 0

/-- The pixel is in a region, given as by `streamRegion`. -/
def Copy.InRegion (r : (Int × Int) × (Int × Int)) (c : Copy) : Prop :=
  r.1.1 ≤ c.i ∧ c.i < r.1.1 + r.1.2 ∧ r.2.1 ≤ c.j ∧ c.j < r.2.1 + r.2.2

instance (r : (Int × Int) × (Int × Int)) (c : Copy) : Decidable (c.InRegion r) := inferInstanceAs (Decidable (_ ∧ _))

/-- All pixels of a stream are in the image. -/
def Inside (axlen1 axlen2 : Int) (st : Stream) : Prop :=
  ∀ n, ∀ c ∈ copies axlen1 axlen2 st n, c.InRegion ((0, axlen1), (0, axlen2))

/-- A region is inside the image. -/
def RegionInside (axlen1 axlen2 : Int) (r : (Int × Int) × (Int × Int)) : Prop :=
  (0 ≤ r.1.1 ∧ r.1.1 + r.1.2 ≤ axlen1) ∧ 0 ≤ r.2.1 ∧ r.2.1 + r.2.2 ≤ axlen2

/-- The test of `dsim_StartIO`, for an image with two axes -/
theorem inbounds_iff {im : Dsim.Image} (h : im.naxes = 2) (r : (Int × Int) × (Int × Int)) :
    im.inbounds (vector r.1.1 r.2.1) (vector r.1.2 r.2.2) = true ↔ RegionInside (im.axlen 0) (im.axlen 1) r := by
  simp [Image.inbounds, RegionInside, vector, h, List.range_succ]

/-- The region is inside the image and has every pixel that is written, and every pixel that is read is in the
buffer. -/
structure RegionRight (axlen1 axlen2 : Int) (pixels : List UInt8) (st : Stream) : Prop where
  inside : RegionInside axlen1 axlen2 (streamRegion axlen1 axlen2 st)
  writes : ∀ n, ∀ c ∈ copies axlen1 axlen2 st n, c.InRegion (streamRegion axlen1 axlen2 st)
  reads : ∀ n, ∀ c ∈ copies axlen1 axlen2 st n, 0 ≤ c.ip ∧ 4 * (c.ip + 1) ≤ pixels.length

/-! ## A stream along two axes -/

/-- An axis of the image, with the start and the step of a stream along it -/
structure Axis where
  len : Int
  start : Int
  step : Int

/-- The axis of the lines or columns that are filled -/
def along (axlen1 axlen2 : Int) (st : Stream) : Axis :=
  if st.xydir ≠ 0 then ⟨axlen2, st.y0, st.ystep⟩ else ⟨axlen1, st.x0, st.xstep⟩

/-- The axis along which the lines or columns follow each other -/
def across (axlen1 axlen2 : Int) (st : Stream) : Axis :=
  if st.xydir ≠ 0 then ⟨axlen1, st.x0, st.xstep⟩ else ⟨axlen2, st.y0, st.ystep⟩

namespace Axis

/-- The pixels from a position on, in the direction of the step -/
def room (a : Axis) (p : Int) : Int := (if 0 < a.step then a.len - p else p + 1).tdiv |a.step|

/-- The pixels of the line or column that a stream starts in -/
def first (a : Axis) : Nat := (a.room a.start).toNat

/-- The pixels of a whole line or column -/
def width (a : Axis) : Nat := (a.len.tdiv |a.step|).toNat

/-- The pixels that fill lines or columns along the axis -/
def placed (a : Axis) (npix : Int) : Nat := Fill.placed a.first a.width npix.toNat

/-- The line or column of the last of them; the one that the stream starts in is zero. -/
def lastLine (a : Axis) (npix : Int) : Nat := Fill.lastLine a.first a.width npix.toNat

end Axis

/-- The condition for a stream whose region is computed without an overflow. If the pixels, one behind another with the
steps, were packed, they would fill at most one line or column more than there are from the start on; and they take more
than the places of the lines before the last one. -/
def PacksInto (a b : Axis) (npix : Int) : Prop :=
  npix * |b.step| * |a.step| ≤ (b.len + 1 - if 0 < b.step then b.start else 0) * a.len ∧
    (0 < a.placed npix → a.lastLine npix * a.len < npix * |a.step|)

/-- The condition for any other stream, where `w` is the number of places in an `int` -/
def WrapsInto (a b : Axis) (npix w : Int) : Prop :=
  if 0 ≤ w then
    (if 0 < b.step then b.start else 0) + w / a.len ≤ b.len + 1 ∧
      (0 < a.placed npix → a.lastLine npix * |b.step| < w / a.len)
  else
    (if 0 < b.step then 0 else b.start) + -w / a.len ≤ b.len + 1 ∧
      (0 < a.placed npix → 0 < -w / a.len ∧
        (a.lastLine npix = 0 ∨ 0 < b.step ∧ b.start + b.step * a.lastLine npix < -w / a.len))

/-- The condition for the region of a stream -/
def FitsRegion (a b : Axis) (npix : Int) : Prop :=
  if 0 < npix ∧ npix * |b.step| * |a.step| + a.len ≤ 2 ^ 31 then PacksInto a b npix
  else WrapsInto a b npix (int32 (npix * |b.step| * |a.step| + a.len - 1))

/-- The first and the last of `n` pixels that are read are in the buffer. -/
def ReadsInside (pixels : List UInt8) (st : Stream) (n : Nat) : Prop :=
  0 < n → (0 ≤ st.offset ∧ 4 * (st.offset + 1) ≤ pixels.length) ∧
    0 ≤ st.offset + st.stride * (n - 1) ∧ 4 * (st.offset + st.stride * (n - 1) + 1) ≤ pixels.length

/-! ## The pixels that are copied -/

section Copies

variable {axlen1 axlen2 : Int} {st : Stream} {pixels : List UInt8} {istep : Int} {shift : Int × Int}
  {room : Int → Int → Int} {next : Int → Int → Int × Int} {n : Nat}

/-- The pixels of a loop, each with the line or column it is in: a function of the position that is the same in a round,
and moves on by `d` between two rounds. -/
theorem loopCopies_map (line : Int → Int → Int) {d : Int} {width : Nat}
    (hshift : ∀ i j k, line (i + shift.1 * k) (j + shift.2 * k) = line i j)
    (hnext : ∀ i j, line (next i j).1 (next i j).2 = line i j + d)
    (hwidth : ∀ i j, room (next i j).1 (next i j).2 = width) {first : Nat} {nleft i j ip : Int}
    (hfirst : room i j = first) :
    (loopCopies istep shift room next n nleft i j ip).map (fun c => (c.ip, line c.i c.j)) =
      (List.range (min nleft.toNat (Fill.room first width n))).map fun k : Nat =>
        (ip + istep * k, line i j + d * lineOf first width k) := by
  induction n generalizing first nleft i j ip with
  | zero => simp [loopCopies, Fill.room]
  | succ n ih =>
    rw [loopCopies]
    split
    · next hpos =>
      dsimp only
      rw [hfirst, List.map_append, ih (hwidth i j), runCopies, List.map_map]
      have hrange : min nleft.toNat (Fill.room first width (n + 1)) =
          (min nleft first).toNat + min (nleft - min nleft first).toNat (Fill.room width width n) := by
        rw [room_succ]
        omega
      rw [hrange, List.range_add, List.map_append, List.map_map]
      congr 1
      · refine List.map_congr_left fun k hk => ?_
        have hlt : k < first := by
          rw [List.mem_range] at hk
          omega
        simp [hshift, lineOf_of_lt hlt]
      · refine List.map_congr_left fun k hk => ?_
        rw [List.mem_range] at hk
        have hw : 0 < width := by
          refine Nat.pos_of_ne_zero fun hw => ?_
          rw [room_zero hw] at hk
          omega
        have hnp : (min nleft first).toNat = first := by omega
        rw [Function.comp_apply, hnp, lineOf_add hw, hnext]
        push_cast
        refine Prod.ext ?_ ?_
        · ring
        · ring
    · next hpos =>
      have hzero : nleft.toNat = 0 := by omega
      simp [hzero]

theorem Axis.first_eq {a : Axis} (h0 : 0 ≤ a.start) (h : a.start < a.len) : a.room a.start = a.first := by
  have hnum : 0 ≤ if 0 < a.step then a.len - a.start else a.start + 1 := by
    split <;> omega
  exact (Int.toNat_of_nonneg (Int.tdiv_nonneg hnum (abs_nonneg _))).symm

theorem Axis.width_eq {a : Axis} (h : 0 < a.len) : a.len.tdiv |a.step| = a.width :=
  (Int.toNat_of_nonneg (Int.tdiv_nonneg (Int.le_of_lt h) (abs_nonneg _))).symm

/-- The line or column of a copy -/
def Copy.line (st : Stream) (c : Copy) : Int := if st.xydir ≠ 0 then c.i else c.j

/-- The line or column of a position -/
def lineAt (st : Stream) (i j : Int) : Int := if st.xydir ≠ 0 then i else j

/-- The loop of `WritePixels` that a stream takes: the shift in a round, the room for it, and the next position -/
def loopOf {α : Type} (axlen1 axlen2 : Int) (st : Stream)
    (fill : Int × Int → (Int → Int → Int) → (Int → Int → Int × Int) → α) (other : α) : α :=
  let dx := st.xstep
  let dy := st.ystep
  if st.xydir ≠ 0 ∧ dy > 0 then fill (0, dy) (fun _ j => (axlen2 - j).tdiv |dy|) fun i _ => (i + dx, 0)
  else if st.xydir ≠ 0 ∧ dy < 0 then fill (0, dy) (fun _ j => (j + 1).tdiv |dy|) fun i _ => (i + dx, axlen2 - 1)
  else if st.xydir = 0 ∧ dx > 0 then fill (dx, 0) (fun i _ => (axlen1 - i).tdiv |dx|) fun _ j => (0, j + dy)
  else if st.xydir = 0 ∧ dx < 0 then fill (dx, 0) (fun i _ => (i + 1).tdiv |dx|) fun _ j => (axlen1 - 1, j + dy)
  else other

/-- What a loop does along its axis: a round stays in its line or column, the next one is a step across, and all but the
first have the width of the axis. -/
structure RunsAlong (axlen1 axlen2 : Int) (st : Stream) (shift : Int × Int) (room : Int → Int → Int)
    (next : Int → Int → Int × Int) : Prop where
  same : ∀ i j k, lineAt st (i + shift.1 * k) (j + shift.2 * k) = lineAt st i j
  step : ∀ i j, lineAt st (next i j).1 (next i j).2 = lineAt st i j + (across axlen1 axlen2 st).step
  width : ∀ i j, room (next i j).1 (next i j).2 = (along axlen1 axlen2 st).width
  first : room st.x0 st.y0 = (along axlen1 axlen2 st).first

/-- Whichever of the four it is -/
theorem exists_loop (h : Accepted axlen1 axlen2 st) :
    ∃ shift room next, RunsAlong axlen1 axlen2 st shift room next ∧
      ∀ (α : Type) fill (other : α), loopOf axlen1 axlen2 st fill other = fill shift room next := by
  obtain ⟨hx0, hx1⟩ := h.x0
  obtain ⟨hy0, hy1⟩ := h.y0
  by_cases hdir : st.xydir = 0
  · have ha : along axlen1 axlen2 st = ⟨axlen1, st.x0, st.xstep⟩ := if_neg (not_not_intro hdir)
    have hb : across axlen1 axlen2 st = ⟨axlen2, st.y0, st.ystep⟩ := if_neg (not_not_intro hdir)
    have hline : lineAt st = fun _ j => j := by
      funext i j
      exact if_neg (not_not_intro hdir)
    have hfirst := Axis.first_eq (a := ⟨axlen1, st.x0, st.xstep⟩) hx0 hx1
    have hwidth := Axis.width_eq (a := ⟨axlen1, st.x0, st.xstep⟩) (Int.lt_of_le_of_lt hx0 hx1)
    rcases Int.lt_or_gt_of_ne h.xstep with hneg | hpos
    · rw [Axis.room, if_neg (by dsimp only; omega)] at hfirst
      refine ⟨(st.xstep, 0), fun i _ => (i + 1).tdiv |st.xstep|, fun _ j => (axlen1 - 1, j + st.ystep),
        ⟨fun i j k => ?_, fun i j => ?_, fun i j => ?_, ha ▸ hfirst⟩, fun α fill other => ?_⟩
      · simp [hline]
      · rw [hline, hb]
      · dsimp only
        rw [Int.sub_add_cancel, ha, hwidth]
      · unfold loopOf
        dsimp only
        rw [if_neg fun h => h.1 hdir, if_neg fun h => h.1 hdir, if_neg (by omega), if_pos ⟨hdir, hneg⟩]
    · rw [Axis.room, if_pos hpos] at hfirst
      refine ⟨(st.xstep, 0), fun i _ => (axlen1 - i).tdiv |st.xstep|, fun _ j => (0, j + st.ystep),
        ⟨fun i j k => ?_, fun i j => ?_, fun i j => ?_, ha ▸ hfirst⟩, fun α fill other => ?_⟩
      · simp [hline]
      · rw [hline, hb]
      · dsimp only
        rw [Int.sub_zero, ha, hwidth]
      · unfold loopOf
        dsimp only
        rw [if_neg fun h => h.1 hdir, if_neg fun h => h.1 hdir, if_pos ⟨hdir, hpos⟩]
  · have ha : along axlen1 axlen2 st = ⟨axlen2, st.y0, st.ystep⟩ := if_pos hdir
    have hb : across axlen1 axlen2 st = ⟨axlen1, st.x0, st.xstep⟩ := if_pos hdir
    have hline : lineAt st = fun i _ => i := by
      funext i j
      exact if_pos hdir
    have hfirst := Axis.first_eq (a := ⟨axlen2, st.y0, st.ystep⟩) hy0 hy1
    have hwidth := Axis.width_eq (a := ⟨axlen2, st.y0, st.ystep⟩) (Int.lt_of_le_of_lt hy0 hy1)
    rcases Int.lt_or_gt_of_ne h.ystep with hneg | hpos
    · rw [Axis.room, if_neg (by dsimp only; omega)] at hfirst
      refine ⟨(0, st.ystep), fun _ j => (j + 1).tdiv |st.ystep|, fun i _ => (i + st.xstep, axlen2 - 1),
        ⟨fun i j k => ?_, fun i j => ?_, fun i j => ?_, ha ▸ hfirst⟩, fun α fill other => ?_⟩
      · simp [hline]
      · rw [hline, hb]
      · dsimp only
        rw [Int.sub_add_cancel, ha, hwidth]
      · unfold loopOf
        dsimp only
        rw [if_neg (by omega), if_pos ⟨hdir, hneg⟩]
    · rw [Axis.room, if_pos hpos] at hfirst
      refine ⟨(0, st.ystep), fun _ j => (axlen2 - j).tdiv |st.ystep|, fun i _ => (i + st.xstep, 0),
        ⟨fun i j k => ?_, fun i j => ?_, fun i j => ?_, ha ▸ hfirst⟩, fun α fill other => ?_⟩
      · simp [hline]
      · rw [hline, hb]
      · dsimp only
        rw [Int.sub_zero, ha, hwidth]
      · unfold loopOf
        dsimp only
        rw [if_pos ⟨hdir, hpos⟩]

/-- The pixels that the first rounds copy, each with the line or column it is in -/
theorem copies_map (h : Accepted axlen1 axlen2 st) :
    (copies axlen1 axlen2 st n).map (fun c => (c.ip, c.line st)) =
      (List.range (min st.npix.toNat (Fill.room (along axlen1 axlen2 st).first (along axlen1 axlen2 st).width n))).map
        fun k : Nat => (st.offset + st.stride * k, (across axlen1 axlen2 st).start +
          (across axlen1 axlen2 st).step *
            lineOf (along axlen1 axlen2 st).first (along axlen1 axlen2 st).width k) := by
  obtain ⟨shift, room, next, hl, hloop⟩ := exists_loop h
  have hcopies : copies axlen1 axlen2 st n = loopOf axlen1 axlen2 st
      (fun shift room next => loopCopies st.stride shift room next n st.npix st.x0 st.y0 st.offset) [] := rfl
  have hstart : lineAt st st.x0 st.y0 = (across axlen1 axlen2 st).start := by
    unfold lineAt across
    split <;> rfl
  rw [hcopies, hloop, ← hstart]
  exact loopCopies_map (lineAt st) hl.same hl.step hl.width hl.first

/-- A pixel that is copied is one of those that fill lines. -/
theorem of_mem_copies (h : Accepted axlen1 axlen2 st) {c : Copy} (hc : c ∈ copies axlen1 axlen2 st n) :
    ∃ k < (along axlen1 axlen2 st).placed st.npix, c.ip = st.offset + st.stride * k ∧
      c.line st = (across axlen1 axlen2 st).start + (across axlen1 axlen2 st).step *
        lineOf (along axlen1 axlen2 st).first (along axlen1 axlen2 st).width k := by
  have hmem := List.mem_map_of_mem (f := fun c => (c.ip, c.line st)) hc
  rw [copies_map h] at hmem
  obtain ⟨k, hk, heq⟩ := List.mem_map.mp hmem
  rw [Prod.mk.injEq] at heq
  exact ⟨k, lt_placed.mpr ⟨n, List.mem_range.mp hk⟩, heq.1.symm, heq.2.symm⟩

/-- All of them are copied, in some round. -/
theorem exists_copy (h : Accepted axlen1 axlen2 st) {k : Nat} (hk : k < (along axlen1 axlen2 st).placed st.npix) :
    ∃ n, ∃ c ∈ copies axlen1 axlen2 st n, c.ip = st.offset + st.stride * k ∧
      c.line st = (across axlen1 axlen2 st).start + (across axlen1 axlen2 st).step *
        lineOf (along axlen1 axlen2 st).first (along axlen1 axlen2 st).width k := by
  obtain ⟨n, hn⟩ := lt_placed.mp hk
  have hmem := List.mem_map_of_mem (f := fun k : Nat => (st.offset + st.stride * k,
    (across axlen1 axlen2 st).start + (across axlen1 axlen2 st).step *
      lineOf (along axlen1 axlen2 st).first (along axlen1 axlen2 st).width k)) (List.mem_range.mpr hn)
  rw [← copies_map h] at hmem
  obtain ⟨c, hc, heq⟩ := List.mem_map.mp hmem
  rw [Prod.mk.injEq] at heq
  exact ⟨n, c, hc, heq⟩

end Copies

/-! ## What is stored -/

section Stored

variable {axlen1 axlen2 : Int} {st : Stream} {pixels : List UInt8} {io : IORegion} {istep ostep : Int}
  {shift : Int × Int} {room : Int → Int → Int} {next : Int → Int → Int × Int} {n : Nat} {nleft i j ip op : Int}
  {m m' : Memory}

/-- The word that a copy stores -/
def Copy.word (io : IORegion) (pixels : List UInt8) (c : Copy) : Word :=
  ⟨io.pixel2D c.i c.j, (pixelAt pixels c.ip).getD []⟩

/-- A loop that copies reads pixels of the buffer. -/
theorem copyLoop_reads {r : Int × Memory} (h : copyLoop pixels istep ostep n ip op m = some r) :
    ∀ k < n, pixelAt pixels (ip + istep * k) = some ((pixelAt pixels (ip + istep * k)).getD []) := by
  induction n generalizing ip op m with
  | zero =>
    intro k hk
    cases hk
  | succ n ih =>
    rw [copyLoop] at h
    obtain ⟨v, hv, h⟩ := Option.bind_eq_some_iff.mp h
    intro k hk
    cases k with
    | zero =>
      rw [Nat.cast_zero, Int.mul_zero, Int.add_zero, hv]
      rfl
    | succ k =>
      have hk := ih h k (by omega)
      have hip : ip + istep + istep * k = ip + istep * (k + 1 : Nat) := by
        push_cast
        ring
      rw [hip] at hk
      exact hk

/-- The words of one round, where the pixels of a line or column are `ostep` apart -/
theorem map_runCopies (h : ∀ k < n, io.pixel2D (i + shift.1 * k) (j + shift.2 * k) = io.pixel2D i j + 4 * ostep * k) :
    (runCopies istep shift n i j ip).map (Copy.word io pixels) =
      wordsAt (io.pixel2D i j) (4 * ostep) (fun k => (pixelAt pixels (ip + istep * k)).getD []) n := by
  rw [runCopies, List.map_map, wordsAt]
  refine List.map_congr_left fun k hk => ?_
  rw [Function.comp_apply, Copy.word, h k (List.mem_range.mp hk)]

/-- A loop that ends stores the words of its copies, if the pixels of a line or column that are copied are `ostep`
apart. -/
theorem fillLoop_copies {P : Int → Int → Prop}
    (hio : ∀ i j (k : Nat), P i j → P (i + shift.1 * k) (j + shift.2 * k) →
      io.pixel2D (i + shift.1 * k) (j + shift.2 * k) = io.pixel2D i j + 4 * ostep * k)
    (hin : ∀ c ∈ loopCopies istep shift room next n nleft i j ip, P c.i c.j)
    (h : fillLoop io pixels istep ostep room next n nleft i j ip m = some m') :
    m' = m.stores ((loopCopies istep shift room next n nleft i j ip).map (Copy.word io pixels)) := by
  induction n generalizing nleft i j ip m with
  | zero =>
    rw [fillLoop] at h
    split at h
    · cases h
    · simpa [loopCopies] using h.symm
  | succ n ih =>
    rw [fillLoop] at h
    rw [loopCopies] at hin ⊢
    by_cases hpos : nleft > 0
    · rw [if_pos hpos] at h hin ⊢
      dsimp only at h hin ⊢
      obtain ⟨r, hr, h⟩ := Option.bind_eq_some_iff.mp h
      have hrun := hr
      rw [copyLoop_eq (copyLoop_reads hr), Option.some.injEq] at hrun
      subst hrun
      have hP : ∀ k < (min nleft (room i j)).toNat, P (i + shift.1 * k) (j + shift.2 * k) := by
        intro k hk
        exact hin _ (List.mem_append_left _ (List.mem_map_of_mem (List.mem_range.mpr hk)))
      have hwords : ∀ k < (min nleft (room i j)).toNat,
          io.pixel2D (i + shift.1 * k) (j + shift.2 * k) = io.pixel2D i j + 4 * ostep * k := by
        intro k hk
        refine hio i j k ?_ (hP k hk)
        simpa using hP 0 (Nat.zero_lt_of_lt hk)
      rw [ih (fun c hc => hin c (List.mem_append_right _ hc)) h, List.map_append, map_runCopies hwords,
        Memory.stores_append]
    · rw [if_neg hpos] at h ⊢
      simpa using h.symm

theorem int32_of_abs {x : Int} (h : |x| < 2 ^ 31) : int32 x = x := by
  have hx := abs_lt.mp h
  exact Int.bmod_eq_of_le (by omega) (by omega)

/-- An image of `int`s whose size is an `int` -/
structure IsInts (im : Dsim.Image) (axlen1 axlen2 : Int) : Prop where
  width : im.axlen 0 = axlen1
  height : im.axlen 1 = axlen2
  pixsize : im.pixsize = 4
  size : axlen1 * axlen2 * 4 < 2 ^ 31

variable {im : Dsim.Image} {r : Nat}

/-- The address of a pixel of such an image -/
theorem IsInts.pixel2D (him : IsInts im axlen1 axlen2) (hi : 0 ≤ i ∧ i < axlen1) (hj : 0 ≤ j ∧ j < axlen2) :
    (im.ioRegion r).pixel2D i j = im.pixOffset + (j * axlen1 + i) * 4 := by
  have hax : 0 < axlen1 := by omega
  have hrow : j * axlen1 + i + 1 ≤ axlen1 * axlen2 := by
    have hle : (j + 1) * axlen1 ≤ axlen2 * axlen1 := Int.mul_le_mul_of_nonneg_right hj.2 (by omega)
    rw [Int.add_mul, Int.one_mul, Int.mul_comm axlen2] at hle
    omega
  have hwide : axlen1 * 1 ≤ axlen1 * axlen2 := Int.mul_le_mul_of_nonneg_left (by omega) (by omega)
  have hsize := him.size
  have haddr : (im.ioRegion r).pixel2D i j = im.pixOffset + (j * im.axlen 0 + i) * im.pixsize :=
    IORegion.pixel2D_eq hi.1 hj.1 (by rw [him.width]; omega) (by rw [him.pixsize]; omega)
      (by rw [him.width, him.pixsize]; omega) (by rw [him.width]; omega) (by rw [him.width]; omega)
  rw [haddr, him.width, him.pixsize]

/-- The difference between two places of a column in the buffer is an `int`, if both are in the image. -/
theorem int32_column {step k : Int} (hsize : axlen1 * axlen2 * 4 < 2 ^ 31) (hax : 0 ≤ axlen1) (hk : 0 < k)
    (h0 : 0 ≤ j ∧ j < axlen2) (h : 0 ≤ j + step * k ∧ j + step * k < axlen2) :
    int32 (step * axlen1) = step * axlen1 := by
  have hle : |step| ≤ axlen2 := by
    have hk : |step| * 1 ≤ |step| * k := Int.mul_le_mul_of_nonneg_left (by omega) (abs_nonneg _)
    have hlt : |step * k| < axlen2 := by
      rw [abs_lt]
      omega
    rw [abs_mul, abs_of_nonneg (show 0 ≤ k by omega)] at hlt
    omega
  have hmul : |step| * axlen1 ≤ axlen2 * axlen1 := Int.mul_le_mul_of_nonneg_right hle hax
  refine int32_of_abs ?_
  rw [abs_mul, abs_of_nonneg hax]
  rw [Int.mul_comm axlen2] at hmul
  omega

/-- A loop that ends leaves the memory that is stored, without an error. -/
theorem stored_of_map {x : Option Memory} {q : Memory} {ok : Bool} (h : (x.map fun m => (m, true)) = some (m', ok))
    (hx : ∀ {m₁}, x = some m₁ → m₁ = q) : ok = true ∧ m' = q := by
  obtain ⟨m₁, hm, heq⟩ := Option.map_eq_some_iff.mp h
  obtain ⟨rfl, rfl⟩ := Prod.mk.inj heq
  exact ⟨rfl, hx hm⟩

/-- What `WritePixels` stores: the pixels that are copied, if all of them are in the image. -/
theorem writePixels_copies (him : IsInts im axlen1 axlen2) (hacc : Accepted axlen1 axlen2 st)
    (hin : Inside axlen1 axlen2 st) {ok : Bool}
    (h : writePixels (im.ioRegion r) axlen1 axlen2 pixels st m = some (m', ok)) :
    ok = true ∧
      m' = m.stores ((copies axlen1 axlen2 st (st.npix.toNat + 1)).map (Copy.word (im.ioRegion r) pixels)) := by
  have hin' := hin (st.npix.toNat + 1)
  have hsize := him.size
  have hin0 : ∀ c ∈ copies axlen1 axlen2 st (st.npix.toNat + 1), (0 ≤ c.i ∧ c.i < axlen1) ∧ 0 ≤ c.j ∧ c.j < axlen2 := by
    intro c hc
    obtain ⟨hi0, hi, hj0, hj⟩ := hin' c hc
    rw [Int.zero_add] at hi hj
    exact ⟨⟨hi0, hi⟩, hj0, hj⟩
  -- the pixels of a line are next to each other
  have hlines : ∀ i j (k : Nat), ((0 ≤ i ∧ i < axlen1) ∧ 0 ≤ j ∧ j < axlen2) →
      ((0 ≤ i + st.xstep * k ∧ i + st.xstep * k < axlen1) ∧ 0 ≤ j + 0 * k ∧ j + 0 * k < axlen2) →
      (im.ioRegion r).pixel2D (i + st.xstep * k) (j + 0 * k) = (im.ioRegion r).pixel2D i j + 4 * st.xstep * k := by
    intro i j k hp hq
    rw [him.pixel2D hq.1 hq.2, him.pixel2D hp.1 hp.2]
    ring
  -- the pixels of a column are a line apart, unless there is only one of them
  have hcolumns : ∀ i j (k : Nat), ((0 ≤ i ∧ i < axlen1) ∧ 0 ≤ j ∧ j < axlen2) →
      ((0 ≤ i + 0 * k ∧ i + 0 * k < axlen1) ∧ 0 ≤ j + st.ystep * k ∧ j + st.ystep * k < axlen2) →
      (im.ioRegion r).pixel2D (i + 0 * k) (j + st.ystep * k) =
        (im.ioRegion r).pixel2D i j + 4 * int32 (st.ystep * axlen1) * k := by
    intro i j k hp hq
    rw [him.pixel2D hq.1 hq.2, him.pixel2D hp.1 hp.2]
    cases k with
    | zero => simp
    | succ k =>
      have hk : (0 : Int) < (k + 1 : Nat) := by omega
      rw [int32_column hsize (by omega) hk hp.2 hq.2]
      ring
  unfold writePixels at h
  unfold copies at hin0 ⊢
  dsimp only at h hin0 ⊢
  split_ifs at h hin0 ⊢
  · exact stored_of_map h (fillLoop_copies hcolumns hin0)
  · exact stored_of_map h (fillLoop_copies hcolumns hin0)
  · exact stored_of_map h (fillLoop_copies hlines hin0)
  · exact stored_of_map h (fillLoop_copies hlines hin0)
  · have hx := hacc.xstep
    have hy := hacc.ystep
    omega

end Stored

/-! ## The region -/

section Region

variable {axlen1 axlen2 : Int} {st : Stream} {pixels : List UInt8} {a b : Axis} {npix : Int}

/-- The number of places of a stream, as an `int`, rounded up to lines -/
def places (a b : Axis) (npix : Int) : Int := int32 (npix * |b.step| * |a.step| + a.len - 1)

/-- The lines or columns of the region, which go down if the number is negative -/
def lines (a b : Axis) (npix : Int) : Int :=
  if b.step < 0 then -(places a b npix).tdiv a.len else (places a b npix).tdiv a.len

/-- The region along the axis of the lines or columns -/
def span (a b : Axis) (npix : Int) : Int × Int := normalize b.start (lines a b npix) b.len

theorem int32_count (x y z len : Int) :
    int32 (int32 (int32 (x * y) * z) + len - 1) = int32 (x * y * z + len - 1) := by
  unfold int32
  rw [Int.bmod_mul_bmod, Int.add_sub_assoc, Int.bmod_add_bmod, Int.add_sub_assoc]

theorem normalize_whole {len : Int} (h : 0 < len) :
    normalize 0 len len = (0, len) ∧ normalize (len - 1) (-len) len = (0, len) := by
  unfold normalize
  constructor
  · rw [if_neg (by omega)]
    dsimp only
    rw [if_neg (by omega)]
  · rw [if_pos (by omega)]
    dsimp only
    rw [if_neg (by omega), Int.neg_neg, max_eq_right (by omega)]

/-- The region has the whole length of the lines or columns that are filled. -/
theorem streamRegion_eq (h : Accepted axlen1 axlen2 st) :
    streamRegion axlen1 axlen2 st =
      let r := span (along axlen1 axlen2 st) (across axlen1 axlen2 st) st.npix
      if st.xydir ≠ 0 then (r, (0, axlen2)) else ((0, axlen1), r) := by
  have hwhole1 : normalize 0 axlen1 axlen1 = (0, axlen1) ∧ normalize (axlen1 - 1) (-axlen1) axlen1 = (0, axlen1) :=
    normalize_whole (by have := h.x0; omega)
  have hwhole2 : normalize 0 axlen2 axlen2 = (0, axlen2) ∧ normalize (axlen2 - 1) (-axlen2) axlen2 = (0, axlen2) :=
    normalize_whole (by have := h.y0; omega)
  unfold streamRegion span along across lines places
  by_cases hdir : st.xydir = 0
  · simp only [hdir, ne_eq, not_true_eq_false, if_false, int32_count, Int.mul_right_comm]
    rcases Int.lt_or_gt_of_ne h.xstep with hneg | hpos
    · rw [if_neg (show ¬st.xstep > 0 by omega)]
      rw [hwhole1.2]
    · rw [if_pos hpos]
      rw [hwhole1.1]
  · simp only [hdir, ne_eq, not_false_eq_true, if_true, int32_count]
    rcases Int.lt_or_gt_of_ne h.ystep with hneg | hpos
    · rw [if_neg (show ¬st.ystep > 0 by omega)]
      rw [hwhole2.2]
    · rw [if_pos hpos]
      rw [hwhole2.1]

/-- When a normalized region is inside its axis: it is made shorter only once. -/
theorem normalize_inside {sv nv mv : Int} (h0 : 0 ≤ sv) (h : sv < mv) :
    (0 ≤ (normalize sv nv mv).1 ∧ (normalize sv nv mv).1 + (normalize sv nv mv).2 ≤ mv) ↔
      -nv ≤ mv + 1 ∧ sv + nv ≤ mv + 1 := by
  unfold normalize
  by_cases hn : nv < 0
  · rw [if_pos hn]
    dsimp only
    split <;> omega
  · rw [if_neg hn]
    dsimp only
    split <;> omega

/-- When such a region has a position of the axis. -/
theorem normalize_has {sv nv mv p : Int} (h : sv < mv) (hin : -nv ≤ mv + 1 ∧ sv + nv ≤ mv + 1)
    (hp0 : 0 ≤ p) (hp : p < mv) :
    ((normalize sv nv mv).1 ≤ p ∧ p < (normalize sv nv mv).1 + (normalize sv nv mv).2) ↔
      sv ≤ p ∧ p < sv + nv ∨ sv + nv < p ∧ nv < 0 ∧ (p ≤ sv ∨ p < -nv) := by
  unfold normalize
  by_cases hn : nv < 0
  · rw [if_pos hn]
    dsimp only
    split <;> omega
  · rw [if_neg hn]
    dsimp only
    split <;> omega

/-- The pixel that is `k` steps from a position is between it and the last pixel. -/
theorem step_between (p d : Int) {k n : Nat} (h : k ≤ n) :
    p ≤ p + d * k ∧ p + d * k ≤ p + d * n ∨ p + d * n ≤ p + d * k ∧ p + d * k ≤ p := by
  have hk : (k : Int) ≤ n := by exact_mod_cast h
  have hk0 : (0 : Int) ≤ k := Int.natCast_nonneg k
  rcases Int.le_total 0 d with hd | hd
  · have h0 := Int.mul_nonneg hd hk0
    have hle := Int.mul_le_mul_of_nonneg_left hk hd
    omega
  · have h0 := Int.mul_nonpos_of_nonpos_of_nonneg hd hk0
    have hle := Int.mul_le_mul_of_nonpos_left hd hk
    omega

/-- The region, by the number of lines: it ends inside the axis, and it has the last line. -/
theorem wrapsInto_iff (hlen : 0 < a.len) (hb : 0 ≤ b.start ∧ b.start < b.len) (hstep : b.step ≠ 0) :
    ((-lines a b npix ≤ b.len + 1 ∧ b.start + lines a b npix ≤ b.len + 1) ∧
      (0 < a.placed npix →
        b.start ≤ b.start + b.step * a.lastLine npix ∧
            b.start + b.step * a.lastLine npix < b.start + lines a b npix ∨
          b.start + lines a b npix < b.start + b.step * a.lastLine npix ∧ lines a b npix < 0 ∧
            (b.start + b.step * a.lastLine npix ≤ b.start ∨
              b.start + b.step * a.lastLine npix < -lines a b npix))) ↔
      WrapsInto a b npix (places a b npix) := by
  have hL : (0 : Int) ≤ a.lastLine npix := Int.natCast_nonneg _
  have habs : 0 < |b.step| := abs_pos.mpr hstep
  have hM : 0 ≤ a.lastLine npix * |b.step| := Int.mul_nonneg hL (Int.le_of_lt habs)
  have hM0 : a.lastLine npix * |b.step| = 0 ↔ a.lastLine npix = 0 := by
    rw [Int.mul_eq_zero]
    omega
  -- how far the last line is from the first one
  have hD : b.step < 0 ∧ b.step * a.lastLine npix = -(a.lastLine npix * |b.step|) ∨
      0 < b.step ∧ b.step * a.lastLine npix = a.lastLine npix * |b.step| := by
    rcases Int.lt_or_gt_of_ne hstep with hneg | hpos
    · refine .inl ⟨hneg, ?_⟩
      rw [abs_of_neg hneg]
      ring
    · refine .inr ⟨hpos, ?_⟩
      rw [abs_of_pos hpos]
      ring
  unfold WrapsInto lines
  generalize places a b npix = w
  by_cases hw : 0 ≤ w
  · have hq := Int.ediv_nonneg hw (Int.le_of_lt hlen)
    rw [if_pos hw, Int.tdiv_eq_ediv_of_nonneg hw]
    rcases hD with ⟨hneg, hD⟩ | ⟨hpos, hD⟩
    · rw [if_pos hneg, if_neg (by omega), hD]
      omega
    · rw [if_neg (by omega), if_pos hpos, hD]
      omega
  · have hq : 0 ≤ -w / a.len := Int.ediv_nonneg (by omega) (Int.le_of_lt hlen)
    have hdiv : w.tdiv a.len = -(-w / a.len) := by
      rw [← Int.tdiv_eq_ediv_of_nonneg (by omega), Int.neg_tdiv, Int.neg_neg]
    rw [if_neg hw, hdiv]
    rcases hD with ⟨hneg, hD⟩ | ⟨hpos, hD⟩
    · rw [if_pos hneg, if_neg (by omega), hD]
      omega
    · rw [if_neg (by omega), if_pos hpos, hD]
      omega

/-- Without an overflow, the condition is one of the packed pixels. -/
theorem wrapsInto_iff_packsInto (hlen : 0 < a.len) (ha : a.step ≠ 0) (hb : b.step ≠ 0) (hnpix : 0 < npix)
    (h : npix * |b.step| * |a.step| + a.len ≤ 2 ^ 31) :
    WrapsInto a b npix (places a b npix) ↔ PacksInto a b npix := by
  have habs : 0 < |b.step| := abs_pos.mpr hb
  have hT : 0 < npix * |b.step| * |a.step| := Int.mul_pos (Int.mul_pos hnpix habs) (abs_pos.mpr ha)
  have hw : places a b npix = npix * |b.step| * |a.step| + a.len - 1 := int32_eq (by omega) (by omega)
  -- rounding up the number of lines
  have hle (y : Int) : (npix * |b.step| * |a.step| + a.len - 1) / a.len ≤ y ↔
      npix * |b.step| * |a.step| ≤ y * a.len := by
    rw [← Int.lt_add_one_iff, Int.ediv_lt_iff_lt_mul hlen, Int.add_mul]
    omega
  have hlast : a.lastLine npix * |b.step| < (npix * |b.step| * |a.step| + a.len - 1) / a.len ↔
      a.lastLine npix * a.len < npix * |a.step| := by
    rw [← not_le, hle, not_le, Int.mul_right_comm, Int.mul_right_comm npix]
    exact Int.mul_lt_mul_right habs
  unfold WrapsInto PacksInto
  rw [hw, if_pos (by omega), hlast, ← hle]
  refine and_congr ?_ Iff.rfl
  omega

theorem fitsRegion_iff (hlen : 0 < a.len) (ha : a.step ≠ 0) (hb : b.step ≠ 0) :
    WrapsInto a b npix (places a b npix) ↔ FitsRegion a b npix := by
  unfold FitsRegion
  split
  · next h => exact wrapsInto_iff_packsInto hlen ha hb h.1 h.2
  · rfl

/-- A pixel of the image is in the region if its line or column is. -/
theorem inRegion_iff (h : Accepted axlen1 axlen2 st) {c : Copy} (hc : c.InRegion ((0, axlen1), (0, axlen2))) :
    c.InRegion (streamRegion axlen1 axlen2 st) ↔
      let r := span (along axlen1 axlen2 st) (across axlen1 axlen2 st) st.npix
      r.1 ≤ c.line st ∧ c.line st < r.1 + r.2 := by
  obtain ⟨hi0, hi, hj0, hj⟩ := hc
  rw [streamRegion_eq h]
  unfold Copy.InRegion Copy.line
  dsimp only at hi0 hi hj0 hj ⊢
  generalize span (along axlen1 axlen2 st) (across axlen1 axlen2 st) st.npix = r
  split
  · exact ⟨fun h => ⟨h.1, h.2.1⟩, fun h => ⟨h.1, h.2, hj0, hj⟩⟩
  · exact ⟨fun h => h.2.2, fun h => ⟨hi0, hi, h⟩⟩

theorem regionInside_iff (h : Accepted axlen1 axlen2 st) :
    RegionInside axlen1 axlen2 (streamRegion axlen1 axlen2 st) ↔
      let r := span (along axlen1 axlen2 st) (across axlen1 axlen2 st) st.npix
      0 ≤ r.1 ∧ r.1 + r.2 ≤ (across axlen1 axlen2 st).len := by
  rw [streamRegion_eq h]
  dsimp only
  generalize span (along axlen1 axlen2 st) (across axlen1 axlen2 st) st.npix = r
  unfold RegionInside across
  split
  · exact ⟨fun h => h.1, fun h => ⟨h, Int.le_refl 0, (Int.zero_add axlen2).le⟩⟩
  · exact ⟨fun h => h.2, fun h => ⟨⟨Int.le_refl 0, (Int.zero_add axlen1).le⟩, h⟩⟩

theorem Accepted.along (h : Accepted axlen1 axlen2 st) :
    0 < (along axlen1 axlen2 st).len ∧ (along axlen1 axlen2 st).step ≠ 0 := by
  obtain ⟨hx0, hx1⟩ := h.x0
  obtain ⟨hy0, hy1⟩ := h.y0
  unfold Mosdca.along
  split
  · exact ⟨Int.lt_of_le_of_lt hy0 hy1, h.ystep⟩
  · exact ⟨Int.lt_of_le_of_lt hx0 hx1, h.xstep⟩

theorem Accepted.across (h : Accepted axlen1 axlen2 st) :
    (0 ≤ (across axlen1 axlen2 st).start ∧ (across axlen1 axlen2 st).start < (across axlen1 axlen2 st).len) ∧
      (across axlen1 axlen2 st).step ≠ 0 := by
  unfold Mosdca.across
  split
  · exact ⟨h.x0, h.xstep⟩
  · exact ⟨h.y0, h.ystep⟩

/-- The line or column of a pixel that is copied is one of the image. -/
theorem Inside.line (hin : Inside axlen1 axlen2 st) {n : Nat} {c : Copy} (hc : c ∈ copies axlen1 axlen2 st n) :
    0 ≤ c.line st ∧ c.line st < (across axlen1 axlen2 st).len := by
  obtain ⟨hi0, hi, hj0, hj⟩ := hin n c hc
  dsimp only at hi0 hi hj0 hj
  rw [Int.zero_add] at hi hj
  unfold Copy.line across
  split
  · exact ⟨hi0, hi⟩
  · exact ⟨hj0, hj⟩

/-- The region has every pixel that is written if it has the last one. -/
theorem writes_iff (h : Accepted axlen1 axlen2 st) (hin : Inside axlen1 axlen2 st)
    (hreg : RegionInside axlen1 axlen2 (streamRegion axlen1 axlen2 st)) :
    (∀ n, ∀ c ∈ copies axlen1 axlen2 st n, c.InRegion (streamRegion axlen1 axlen2 st)) ↔
      let a := along axlen1 axlen2 st
      let b := across axlen1 axlen2 st
      0 < a.placed st.npix →
        b.start ≤ b.start + b.step * a.lastLine st.npix ∧
            b.start + b.step * a.lastLine st.npix < b.start + lines a b st.npix ∨
          b.start + lines a b st.npix < b.start + b.step * a.lastLine st.npix ∧ lines a b st.npix < 0 ∧
            (b.start + b.step * a.lastLine st.npix ≤ b.start ∨
              b.start + b.step * a.lastLine st.npix < -lines a b st.npix) := by
  have hin' := (normalize_inside h.across.1.1 h.across.1.2).mp ((regionInside_iff h).mp hreg)
  dsimp only
  constructor
  · intro hw hpos
    obtain ⟨n, c, hc, -, hline⟩ := exists_copy h (Nat.sub_one_lt_of_lt hpos)
    rw [Axis.placed, lineOf_placed hpos, ← Axis.lastLine] at hline
    have hpix := hin.line hc
    have hr := (inRegion_iff h (hin n c hc)).mp (hw n c hc)
    have hhas := (normalize_has h.across.1.2 hin' hpix.1 hpix.2).mp hr
    rw [hline] at hhas
    exact hhas
  · intro hlast n c hc
    obtain ⟨k, hk, -, hline⟩ := of_mem_copies h hc
    have hpix := hin.line hc
    have hbetween := step_between (across axlen1 axlen2 st).start (across axlen1 axlen2 st).step (lineOf_le hk)
    refine (inRegion_iff h (hin n c hc)).mpr ((normalize_has h.across.1.2 hin' hpix.1 hpix.2).mpr ?_)
    have hlast' := hlast (Nat.zero_lt_of_lt hk)
    unfold Axis.lastLine at hlast'
    rw [hline]
    omega

/-- All reads are in the buffer if the first and the last one are. -/
theorem reads_iff (h : Accepted axlen1 axlen2 st) :
    (∀ n, ∀ c ∈ copies axlen1 axlen2 st n, 0 ≤ c.ip ∧ 4 * (c.ip + 1) ≤ pixels.length) ↔
      ReadsInside pixels st ((along axlen1 axlen2 st).placed st.npix) := by
  constructor
  · intro hr hpos
    obtain ⟨n, c, hc, hip, -⟩ := exists_copy h hpos
    obtain ⟨n', c', hc', hip', -⟩ := exists_copy h (Nat.sub_one_lt_of_lt hpos)
    have hfirst := hr n c hc
    have hlast := hr n' c' hc'
    rw [hip, Nat.cast_zero, Int.mul_zero, Int.add_zero] at hfirst
    rw [hip', Nat.cast_sub hpos, Nat.cast_one] at hlast
    exact ⟨hfirst, hlast⟩
  · intro hr n c hc
    obtain ⟨k, hk, hip, -⟩ := of_mem_copies h hc
    obtain ⟨hfirst, hlast⟩ := hr (Nat.zero_lt_of_lt hk)
    have hbetween := step_between st.offset st.stride (show k ≤ (along axlen1 axlen2 st).placed st.npix - 1 by omega)
    rw [Nat.cast_sub (Nat.zero_lt_of_lt hk), Nat.cast_one] at hbetween
    rw [hip]
    omega

/-- For every stream that is accepted and has all its pixels in the image: the region is inside the image and has all
pixels that are written, and only pixels of the buffer are read, just when the parameters of the stream fit. -/
theorem pixelRegion_iff (h : Accepted axlen1 axlen2 st) (hin : Inside axlen1 axlen2 st) :
    RegionRight axlen1 axlen2 pixels st ↔
      FitsRegion (along axlen1 axlen2 st) (across axlen1 axlen2 st) st.npix ∧
        ReadsInside pixels st ((along axlen1 axlen2 st).placed st.npix) := by
  have hinside := (regionInside_iff h).trans (normalize_inside h.across.1.1 h.across.1.2)
  rw [← fitsRegion_iff h.along.1 h.along.2 h.across.2, ← wrapsInto_iff h.along.1 h.across.1 h.across.2,
    ← reads_iff h, ← hinside]
  constructor
  · intro hr
    exact ⟨⟨hr.inside, (writes_iff h hin hr.inside).mp hr.writes⟩, hr.reads⟩
  · rintro ⟨⟨hi, hlast⟩, hreads⟩
    exact ⟨hi, (writes_iff h hin hi).mpr hlast, hreads⟩

end Region

/-! ## Two streams -/

/-- Ten pixels of a line of an image of ten lines, from a column on -/
def tenPixels (x0 : Int) : Stream := ⟨0, 10, 1, 1, x0, 0, 1, 1, 0⟩

theorem tenPixels_accepted {x0 : Int} (h0 : 0 ≤ x0) (h : x0 < 10) : Accepted 10 10 (tenPixels x0) where
  npix := show (10 : Int) ≠ 0 by decide
  x0 := ⟨h0, h⟩
  y0 := show (0 : Int) ≤ 0 ∧ (0 : Int) < 10 by decide
  destimage := Int.le_refl 1
  xstep := Int.one_ne_zero
  ystep := Int.one_ne_zero

/-- The pixels of the first line, and those of the second one if there are any -/
theorem tenPixels_inside : Inside 10 10 (tenPixels 0) ∧ Inside 10 10 (tenPixels 5) := by
  constructor
  · intro n
    match n with
    | 0 => decide
    | 1 => decide +kernel
    | n + 2 =>
      show ∀ c ∈ copies 10 10 (tenPixels 0) 1, c.InRegion ((0, 10), (0, 10))
      decide +kernel
  · intro n
    match n with
    | 0 => decide
    | 1 => decide +kernel
    | 2 => decide +kernel
    | n + 3 =>
      show ∀ c ∈ copies 10 10 (tenPixels 5) 2, c.InRegion ((0, 10), (0, 10))
      decide +kernel

/-- A whole line -/
theorem pixelRegion_line : RegionRight 10 10 (List.replicate 40 0) (tenPixels 0) := by
  refine (pixelRegion_iff (tenPixels_accepted (by decide) (by decide)) tenPixels_inside.1).mpr ⟨?_, ?_⟩
  · show FitsRegion ⟨10, 0, 1⟩ ⟨10, 0, 1⟩ 10
    rw [FitsRegion, if_pos (by decide), PacksInto]
    decide +kernel
  · show ReadsInside (List.replicate 40 0) (tenPixels 0) 10
    unfold ReadsInside
    decide

/-- From the middle of a line on, the stream takes two lines, and the region has one. -/
theorem pixelRegion_not :
    ¬ ∀ (axlen1 axlen2 : Int) (pixels : List UInt8) (st : Stream), Accepted axlen1 axlen2 st → Inside axlen1 axlen2 st →
      RegionRight axlen1 axlen2 pixels st := by
  intro h
  have hright := h 10 10 (List.replicate 40 0) (tenPixels 5) (tenPixels_accepted (by decide) (by decide))
    tenPixels_inside.2
  have hwrites := hright.writes 2
  revert hwrites
  decide +kernel

end Ndhs.Mosdca
