import Ndhs.Dca.Pixels
import Ndhs.Dsim.Region
import Ndhs.Pxf.PixelData

/-!
# Pixels from a page to an image (`DCA_WritePixelData`)

The DCA unpacks the pixels of a `WritePixelData` message, encodes them, and copies each stream of them to the lines or
columns of an image (`WritePixelData`, `WritePixels`).

* `Plates`: the server, and the imagefile of each readout.
* The loop of `WritePixels` does not end if a step is longer than the axis. It is given one round for each pixel and
  one more, since only the first round may copy nothing; a loop that does not end has no result.
* A pixel that is read outside the buffer has no result either.
* A message in two parts (`WritePixHeader` and `WritePixPixels`) is left out: `procDCAData` sends none.

`pixel_transfer`: when the messages of a page have been handled, in any order, the image holds the encoded pixels of
the page, each of them was stored once, and nothing else was changed.
-/

namespace Ndhs.Mosdca

open Function Machine Stores Dsim Pxf

/-- The descriptor of an array of `int`s. -/
def streamOf : List Int → Option Stream
  | [offset, npix, stride, destimage, x0, y0, xstep, ystep, xydir] =>
    some ⟨offset, npix, stride, destimage, x0, y0, xstep, ystep, xydir⟩
  | _ => none

/-- Unpack the stream descriptors. -/
def unpackStreams : Nat → List Packed → Option (List Stream × List Packed)
  | 0, p => some ([], p)
  | n + 1, p =>
    (Packed.upkints 9 p).bind fun (ks, p) => (streamOf ks).bind fun st =>
      (unpackStreams n p).map fun (sts, p) => (st :: sts, p)

/-! ## `WritePixels` -/

/-- A pixel of the buffer; `PIXTYPE` is `int`. -/
def pixelAt (pixels : List UInt8) (ip : Int) : Option (List UInt8) :=
  if 0 ≤ ip ∧ 4 * (ip + 1) ≤ pixels.length then some ((pixels.drop (4 * ip.toNat)).take 4) else none

/-- Copy `n` pixels: also the next pixel of the buffer. -/
def copyLoop (pixels : List UInt8) (istep ostep : Int) : Nat → Int → Int → Memory → Option (Int × Memory)
  | 0, ip, _, m => some (ip, m)
  | n + 1, ip, op, m =>
    (pixelAt pixels ip).bind fun v =>
      copyLoop pixels istep ostep n (ip + istep) (op + 4 * ostep) (m.store ⟨op, v⟩)

/-- Fill lines or columns, where `room i j` pixels are left from pixel `i, j` on, and the next line or column begins at
`next i j`. -/
def fillLoop (io : IORegion) (pixels : List UInt8) (istep ostep : Int) (room : Int → Int → Int)
    (next : Int → Int → Int × Int) : Nat → Int → Int → Int → Int → Memory → Option Memory
  | 0, nleft, _, _, _, m => if nleft > 0 then none else some m
  | n + 1, nleft, i, j, ip, m =>
    if nleft > 0 then
      let np := min nleft (room i j)
      (copyLoop pixels istep ostep np.toNat ip (io.pixel2D i j) m).bind fun (ip, m) =>
        fillLoop io pixels istep ostep room next n (nleft - np) (next i j).1 (next i j).2 ip m
    else some m

/-- `WritePixels`: the memory, and whether the steps are not zero -/
def writePixels (io : IORegion) (axlen1 axlen2 : Int) (pixels : List UInt8) (st : Stream) (m : Memory) :
    Option (Memory × Bool) :=
  let dx := st.xstep
  let dy := st.ystep
  let fill (ostep : Int) (room : Int → Int → Int) (next : Int → Int → Int × Int) : Option (Memory × Bool) :=
    (fillLoop io pixels st.stride ostep room next (st.npix.toNat + 1) st.npix st.x0 st.y0 st.offset m).map (·, true)
  if st.xydir ≠ 0 ∧ dy > 0 then
    fill (int32 (dy * axlen1)) (fun _ j => (axlen2 - j).tdiv |dy|) fun i _ => (i + dx, 0)
  else if st.xydir ≠ 0 ∧ dy < 0 then
    fill (int32 (dy * axlen1)) (fun _ j => (j + 1).tdiv |dy|) fun i _ => (i + dx, axlen2 - 1)
  else if st.xydir = 0 ∧ dx > 0 then fill dx (fun i _ => (axlen1 - i).tdiv |dx|) fun _ j => (0, j + dy)
  else if st.xydir = 0 ∧ dx < 0 then fill dx (fun i _ => (i + 1).tdiv |dx|) fun _ j => (axlen1 - 1, j + dy)
  else some (m, false)

/-! ## `WritePixelData` -/

/-- Normalize the i/o region along an axis of length `mv`: the first pixel and the number of pixels. -/
def normalize (sv nv mv : Int) : Int × Int :=
  let (sv, nv) := if nv < 0 then (max (sv + nv + 1) 0, -nv) else (sv, nv)
  if sv + nv - 1 ≥ mv then (sv, nv - 1) else (sv, nv)

/-- The rectangular region which is written into, along both axes -/
def streamRegion (axlen1 axlen2 : Int) (st : Stream) : (Int × Int) × (Int × Int) :=
  let totpix := int32 (int32 (st.npix * |st.xstep|) * |st.ystep|)
  let count (axlen : Int) : Int := (int32 (totpix + axlen - 1)).tdiv axlen
  if st.xydir ≠ 0 then
    -- fill columns
    let nv0 := if st.xstep < 0 then -count axlen2 else count axlen2
    let (sv1, nv1) := if st.ystep > 0 then (0, axlen2) else (axlen2 - 1, -axlen2)
    (normalize st.x0 nv0 axlen1, normalize sv1 nv1 axlen2)
  else
    -- fill lines
    let nv1 := if st.ystep < 0 then -count axlen1 else count axlen1
    let (sv0, nv0) := if st.xstep > 0 then (0, axlen1) else (axlen1 - 1, -axlen1)
    (normalize sv0 nv0 axlen1, normalize st.y0 nv1 axlen2)

/-- A vector of two integers (`IMDIM`) -/
def vector (a b : Int) : Nat → Int := fun i => if i = 0 then a else b

/-- One round of the loop of `WritePixelData`: the file, and the number of errors -/
def writeStream (sys : Sys) (f : Mapped) (pixels : List UInt8) (st : Stream) : Option (Mapped × Nat) :=
  let axlen1 := f.axlen st.destimage 0
  let axlen2 := f.axlen st.destimage 1
  if st.npix = 0 ∨ (st.x0 < 0 ∨ st.x0 ≥ axlen1) ∨ (st.y0 < 0 ∨ st.y0 ≥ axlen2) ∨ st.destimage < 1 ∨ st.xstep = 0 ∨
      st.ystep = 0 then some (f, 1)
  else
    let (r0, r1) := streamRegion axlen1 axlen2 st
    match f.startIO sys st.destimage (vector r0.1 r1.1) (vector r0.2 r1.2) with
    | (f, none) => some (f, 1)
    | (f, some io) =>
      (writePixels io axlen1 axlen2 pixels st f.mem).map fun (mem, ok) =>
        ( Mapped.finishIO { f with mem } io, if ok then 0 else 1)

/-- `WritePixelData` -/
def writeStreams (sys : Sys) (pixels : List UInt8) : List Stream → Mapped → Option (Mapped × Nat)
  | [], f => some (f, 0)
  | st :: sts, f =>
    (writeStream sys f pixels st).bind fun (f, n) =>
      (writeStreams sys pixels sts f).map fun (f, n') => (f, n + n')

/-! ## The handler -/

/-- The server, and the imagefiles of its readouts. -/
structure Plates where
  server : Server
  files : Slot → Mapped

namespace Plates

/-- The files, and the server after a message, unless it ends the program. -/
def after (files : Slot → Mapped) (r : Server.Result) : Option Plates :=
  match r with
  | .ok (server, _) => some ⟨server, files⟩
  | .error _ => none

/-- `DCA_WritePixelData` -/
def writePixelData (sys : Sys) (f : Plates) (p : List Packed) : Option Plates :=
  (Packed.upkint p).bind fun (seqno, p) =>
    match f.server.getContext seqno with
    | none => some f
    | some (i, _) =>
      (Packed.upkint p).bind fun (datalen, p) => (Packed.upkint p).bind fun (swapped, p) =>
        (Packed.upkint p).bind fun (nstreams, p) =>
          let done (files : Slot → Mapped) (o : PixelOutcome) : Option Plates :=
            after files (f.server.handleWritePixelData seqno datalen swapped nstreams o)
          -- memory for the stream descriptors and for the pixels
          if nstreams < 0 ∨ !sys.heap (nstreams.toNat * 36) then done f.files ⟨false, false, 0⟩
          else
            (unpackStreams nstreams.toNat p).bind fun (sts, p) =>
              if datalen < 0 ∨ !sys.heap datalen.toNat then done f.files ⟨true, false, 0⟩
              else
                (Packed.upkbyte datalen.toNat p).bind fun (pixels, _) => sts.head?.bind fun st =>
                  let (file, pixels) := (f.files i).encodePixels sys st.destimage (decide (swapped ≠ 0)) pixels
                  (writeStreams sys pixels sts file).bind fun (file, errors) =>
                    done (update f.files i file) ⟨true, true, errors⟩

/-- `DCA_Synchronize` -/
def synchronize (sys : Sys) (f : Plates) (p : List Packed) : Option Plates :=
  (Packed.upkint p).bind fun (seqno, _) => after f.files (f.server.handleSynchronize seqno sys.synced)

def step (sys : Sys) (f : Plates) (msg : PixelTag × List Packed) : Option Plates :=
  match msg.1 with
  | .writePixelData => f.writePixelData sys msg.2
  | .synchronize => f.synchronize sys msg.2

end Plates

/-! ## Lines of an image -/

section Lines

variable {pixels : List UInt8} {istep ostep ip op : Int} {v : Nat → List UInt8} {n : Nat}

/-- What is copied, if all pixels are in the buffer. -/
theorem copyLoop_eq (h : ∀ k < n, pixelAt pixels (ip + istep * k) = some (v k)) (m : Memory) :
    copyLoop pixels istep ostep n ip op m = some (ip + istep * n, m.stores (wordsAt op (4 * ostep) v n)) := by
  induction n generalizing ip op v m with
  | zero => simp [copyLoop]
  | succ n ih =>
    have h0 : pixelAt pixels ip = some (v 0) := by simpa using h 0 (Nat.succ_pos n)
    have hn : ∀ k < n, pixelAt pixels (ip + istep + istep * k) = some (v (1 + k)) := by
      intro k hk
      rw [← h (1 + k) (by omega)]
      congr 1
      push_cast
      ring
    have hip : ip + istep + istep * n = ip + istep * (n + 1 : Nat) := by
      push_cast
      ring
    rw [copyLoop, h0, Option.bind_some, ih hn, hip, Nat.add_comm n 1, wordsAt_add, Memory.stores_append]
    simp [wordsAt, Memory.stores_cons]

/-- Whole lines are filled, one after another. -/
theorem fillLoop_lines {io : IORegion} {room : Int → Int → Int} {next : Int → Int → Int × Int} {a r n : Nat}
    {base j : Int} (ha : 0 < a) (hrn : r ≤ n) (hroom : ∀ j, room 0 j = a) (hnext : ∀ j, next 0 j = (0, j + 1))
    (hio : ∀ k < r, io.pixel2D 0 (j + k) = base + 4 * (a * k))
    (h : ∀ k < a * r, pixelAt pixels (ip + k) = some (v k)) (m : Memory) :
    fillLoop io pixels 1 1 room next n (a * r : Nat) 0 j ip m = some (m.stores (wordsAt base 4 v (a * r))) := by
  induction r generalizing n j ip v base m with
  | zero => cases n <;> simp [fillLoop]
  | succ r ih =>
    obtain ⟨n, rfl⟩ : ∃ n', n = n' + 1 := ⟨n - 1, by omega⟩
    have hpos : ((a * (r + 1) : Nat) : Int) > 0 := by
      exact_mod_cast Nat.mul_pos ha (Nat.succ_pos r)
    have hmin : min ((a * (r + 1) : Nat) : Int) (room 0 j) = a := by
      rw [hroom, min_eq_right]
      exact_mod_cast Nat.le_mul_of_pos_right a (Nat.succ_pos r)
    have hline : ∀ k < a, pixelAt pixels (ip + 1 * k) = some (v k) := by
      intro k hk
      rw [one_mul]
      exact h k (by nlinarith)
    have hrest : ∀ k < a * r, pixelAt pixels (ip + 1 * a + k) = some (v (a + k)) := by
      intro k hk
      rw [← h (a + k) (by nlinarith)]
      congr 1
      push_cast
      ring
    have hio' : ∀ k < r, io.pixel2D 0 (j + 1 + k) = base + 4 * a + 4 * (a * k) := by
      intro k hk
      have hk' := hio (k + 1) (by omega)
      push_cast at hk'
      rw [add_assoc, add_comm 1 (k : Int), hk']
      ring
    have h0 : io.pixel2D 0 j = base := by simpa using hio 0 (by omega)
    have hleft : ((a * (r + 1) : Nat) : Int) - a = (a * r : Nat) := by
      push_cast
      ring
    rw [fillLoop, if_pos hpos]
    dsimp only
    rw [hmin, h0, Int.toNat_natCast, copyLoop_eq hline, Option.bind_some, hnext, hleft]
    dsimp only
    rw [ih (by omega) hio' hrest, Nat.mul_succ, Nat.add_comm (a * r) a, wordsAt_add, Memory.stores_append]
    rfl

end Lines

/-! ## A message -/

/-- An image of the size of a page, with pixels of type `DSO_INT` -/
structure IsRaster (im : Dsim.Image) : Prop where
  naxes : im.naxes = 2
  axlen1 : im.axlen 0 = 2112
  axlen2 : im.axlen 1 = 2048
  pixtype : im.pixtype = 5
  pixsize : im.pixsize = 4

/-- The pixel with a number, encoded -/
def encoded (host : Bool) (data : List UInt8) (k : Nat) : List UInt8 := ((encodeInt host data).drop (4 * k)).take 4

/-- The words that the message with number `j` stores -/
def chunkWords (host : Bool) (data : List UInt8) (im : Dsim.Image) (j : Nat) : List Word :=
  wordsAt (im.pixOffset + 4 * (67584 * j : Nat)) 4 (fun k => encoded host data (67584 * j + k)) 67584

section Message

variable {sys : Sys} {file : Mapped} {im : Dsim.Image} {page : PixelPage} {unset : Int} {j : Nat}

/-- The descriptor of the message with number `j` -/
def chunkStream (page : PixelPage) (unset : Int) (j : Nat) : Stream :=
  { page.stream unset with y0 := j * 32, xstep := 1, ystep := 1 }

theorem streamRegion_chunk (hj : j < 64) :
    streamRegion 2112 2048 (chunkStream page unset j) = ((0, 2112), ((j * 32 : Int), 32)) := by
  have hcount : (int32 (int32 (int32 ((67584 : Int) * |1|) * |1|) + 2112 - 1)).tdiv 2112 = 32 := by decide
  have hnorm : normalize (j * 32 : Int) 32 2048 = ((j * 32 : Int), 32) := by
    rw [normalize, if_neg (by decide)]
    dsimp only
    rw [if_neg (by omega)]
  show (normalize 0 2112 2112,
    normalize (j * 32 : Int) ((int32 (int32 (int32 ((67584 : Int) * |1|) * |1|) + 2112 - 1)).tdiv 2112) 2048) = _
  rw [hcount, hnorm]
  rfl

/-- A pixel of the encoded part of the page -/
theorem pixelAt_chunk (host : Bool) {data : List UInt8} (hlen : data.length = 4 * (2112 * 2048)) (hj : j < 64) {k : Nat}
    (hk : k < 67584) :
    pixelAt (encodeInt host ((data.drop (datalen * j)).take datalen)) k = some (encoded host data (67584 * j + k)) := by
  have hd : datalen = 4 * 67584 := rfl
  have hpart : 4 * (67584 * j + 67584) ≤ data.length := by omega
  have henc : encodeInt host ((data.drop (datalen * j)).take datalen) =
      ((encodeInt host data).drop (4 * (67584 * j))).take (4 * 67584) := by
    rw [hd, Nat.mul_assoc, encodeInt_part host hpart]
  have hlen' : (((encodeInt host data).drop (4 * (67584 * j))).take (4 * 67584)).length = 4 * 67584 := by
    rw [List.length_take, List.length_drop, encodeInt_length]
    omega
  rw [henc, pixelAt, if_pos ⟨Int.natCast_nonneg k, by rw [hlen']; omega⟩, Int.toNat_natCast, encoded, List.drop_take,
    List.take_take, List.drop_drop, min_eq_left (by omega), Nat.mul_add]

theorem writePixels_chunk (him : IsRaster im) (hlen : page.data.length = 4 * (2112 * 2048)) (hj : j < 64) (n : Nat)
    (m : Memory) :
    writePixels (im.ioRegion n) 2112 2048 (encodeInt sys.host ((page.data.drop (datalen * j)).take datalen))
      (chunkStream page unset j) m = some (m.stores (chunkWords sys.host page.data im j), true) := by
  have hio : ∀ k < 32, (im.ioRegion n).pixel2D 0 ((j * 32 : Int) + (k : Nat)) =
      im.pixOffset + 4 * (67584 * j : Nat) + 4 * ((2112 : Nat) * k) := by
    intro k hk
    rw [IORegion.pixel2D_eq le_rfl (by omega) (by rw [him.axlen1]; decide) (by rw [him.pixsize]; decide)
      (by rw [him.axlen1, him.pixsize]; omega) (by rw [him.axlen1]; omega) (by rw [him.axlen1]; decide),
      him.axlen1, him.pixsize]
    push_cast
    ring
  have hpix : ∀ k < 2112 * 32, pixelAt (encodeInt sys.host ((page.data.drop (datalen * j)).take datalen)) (0 + (k : Nat)) =
      some (encoded sys.host page.data (67584 * j + k)) := by
    intro k hk
    rw [zero_add]
    exact pixelAt_chunk sys.host hlen hj hk
  show (fillLoop (im.ioRegion n) _ 1 1 (fun i _ => ((2112 : Int) - i).tdiv |1|) (fun _ j => (0, j + 1)) 67585
    (2112 * 32 : Nat) 0 (j * 32 : Int) 0 m).map (·, true) = _
  rw [fillLoop_lines (by decide) (by decide) ?_ ?_ hio hpix m]
  · rfl
  · exact fun _ => rfl
  · exact fun _ => rfl

theorem image?_pos {image : Int} (h : file.image? image = some im) : 1 ≤ image := by
  rw [Mapped.image?] at h
  split at h
  · cases h
  · omega

/-- The stream of a message is written without an error. -/
theorem writeStream_chunk (hheap : ∀ n, sys.heap n = true) (hc : file.configured = true)
    (himage : file.image? (page.destimage unset) = some im) (him : IsRaster im)
    (hlen : page.data.length = 4 * (2112 * 2048)) (hj : j < 64) :
    ∃ iolist, writeStream sys file (encodeInt sys.host ((page.data.drop (datalen * j)).take datalen))
      (chunkStream page unset j) =
        some ({ file with iolist, mem := file.mem.stores (chunkWords sys.host page.data im j) }, 0) := by
  have hdest : (chunkStream page unset j).destimage = page.destimage unset := rfl
  have h1 := image?_pos himage
  have hax1 : file.axlen (page.destimage unset) 0 = 2112 := by rw [Mapped.axlen, himage]; exact him.axlen1
  have hax2 : file.axlen (page.destimage unset) 1 = 2048 := by rw [Mapped.axlen, himage]; exact him.axlen2
  have hin : im.inbounds (vector 0 (j * 32)) (vector 2112 32) = true := by
    rw [Image.inbounds, him.naxes]
    simp only [List.range_succ, List.range_zero, List.nil_append, List.cons_append, List.all_cons, List.all_nil,
      him.axlen1, him.axlen2, vector, Bool.and_eq_true, decide_eq_true_eq]
    simp
    omega
  obtain ⟨n, iolist, hio⟩ := Mapped.startIO_eq hheap hc himage hin
  unfold writeStream
  rw [hdest, hax1, hax2]
  dsimp only
  rw [if_neg, streamRegion_chunk hj]
  · dsimp only
    rw [hio]
    dsimp only
    rw [writePixels_chunk him hlen hj]
    exact ⟨_, rfl⟩
  · show ¬ ((67584 : Int) = 0 ∨ ((0 : Int) < 0 ∨ (0 : Int) ≥ 2112) ∨ ((j * 32 : Int) < 0 ∨ (j * 32 : Int) ≥ 2048) ∨
      page.destimage unset < 1 ∨ (1 : Int) = 0 ∨ (1 : Int) = 0)
    omega

end Message

/-! ## The server -/

namespace Server

variable {s : Server} {i : Slot} {q : Int} {img : Image}

/-- The only entry with a number is found. -/
theorem getContext_unique (hq : q ≠ 0) (hi : ∀ j, (s.ctx j).seqno = q ↔ j = i) :
    s.getContext q = some (i, s.withLast (some i)) := by
  have hi : ∀ j, s.nums j = q ↔ j = i := hi
  have hscan : s.scan q = some i := by
    rw [scan_eq_first]
    obtain ⟨j, hj⟩ := exists_first ((hi i).mpr rfl)
    rw [hj, (hi j).mp (first_eq_some hj)]
  have hl : s.lookup q = some i := by
    unfold lookup
    split
    case h_1 k _ =>
      split
      case isTrue hk => rw [(hi k).mp hk]
      case isFalse => exact hscan
    case h_2 => exact hscan
  rw [getContext, if_neg hq, hl]
  rfl

/-- A pixel message for an open image is handled. -/
theorem exists_handleWritePixelData (hget : s.getContext q = some (i, s.withLast (some i)))
    (himg : (s.ctx i).dsim = some img) (datalen swapped nstreams : Int) (errors : Nat) :
    ∃ t, s.handleWritePixelData q datalen swapped nstreams ⟨true, true, errors⟩ = .ok (t, []) ∧ t.nums = s.nums ∧
      (t.ctx i).dsim ≠ none := by
  set u := ((s.withLast (some i)).pixHeader i q datalen swapped nstreams ⟨true, true, errors⟩).1 with hu
  have hdsim : (u.ctx i).dsim = some img :=
    (congrArg Prod.snd (pixHeader_image (s.withLast (some i)) i q datalen swapped nstreams ⟨true, true, errors⟩ i)).trans
      himg
  have hholds : ∃ a b h, u.Holds i a b h := by
    obtain ⟨-, -, ⟨-, hlive, -, hst, hpx⟩ | ⟨h, -⟩ | ⟨h, -⟩⟩ :=
      pixHeader_cases (s.withLast (some i)) i q datalen swapped nstreams ⟨true, true, errors⟩
    · refine ⟨_, _, ⟨q, s.next⟩, hst, hpx, by omega, ?_, ?_⟩
      · rw [hlive, update_of_ne (by omega), update_self]
        rfl
      · rw [hlive, update_self]
        rfl
    · cases h
    · cases h
  obtain ⟨a, b, h, hholds⟩ := hholds
  obtain ⟨t, ht⟩ := exists_pixPixels hholds hdsim errors
  obtain ⟨_, _, _, _, _, -, -, -, -, -, hafter, -⟩ := pixPixels_eq_ok ht
  refine ⟨t, ?_, ?_, by rw [hafter]; simp⟩
  · rw [handleWritePixelData, hget]
    dsimp only
    rw [pixHeader_both]
    exact ht
  · rw [pixPixels_nums ht, hu, pixHeader_nums]
    rfl

/-- A `Synchronize` message for an open image is handled. -/
theorem exists_handleSynchronize (hget : s.getContext q = some (i, s.withLast (some i)))
    (himg : (s.ctx i).dsim = some img) (ok : Bool) :
    ∃ t out, s.handleSynchronize q ok = .ok (t, out) ∧ t.nums = s.nums ∧ (t.ctx i).dsim ≠ none := by
  have hne : ((s.withLast (some i)).ctx i).dsim ≠ none := by
    rw [withLast_ctx, himg]
    simp
  unfold handleSynchronize
  rw [hget]
  dsimp only
  rw [if_neg hne]
  refine ⟨_, _, rfl, by simp, ?_⟩
  rw [modify_ctx_self]
  exact hne

end Server

/-! ## Steps -/

namespace Plates

/-- The page has a readout in entry `i` with an open and configured file, where its image is `im`. -/
structure Ready (f : Plates) (page : PixelPage) (unset : Int) (i : Slot) (im : Dsim.Image) : Prop where
  seqno : ∀ j, (f.server.ctx j).seqno = page.seqno ↔ j = i
  opened : (f.server.ctx i).dsim ≠ none
  configured : (f.files i).configured = true
  image : (f.files i).image? (page.destimage unset) = some im

/-- The step stores words in the file of entry `i`, and changes no other file. -/
structure Writes (f f' : Plates) (i : Slot) (ws : List Word) : Prop where
  mem : (f'.files i).mem = (f.files i).mem.stores ws
  ds : (f'.files i).ds = (f.files i).ds
  others : ∀ j, j ≠ i → f'.files j = f.files j

section Step

variable {sys : Sys} {f : Plates} {page : PixelPage} {unset : Int} {i : Slot} {im : Dsim.Image} {j : Nat}

theorem upkints_chunk (p : List Packed) :
    unpackStreams 1 ((chunkStream page unset j).ints.map .int ++ p) = some ([chunkStream page unset j], p) := by
  have hlen : (chunkStream page unset j).ints.length = 9 := rfl
  rw [unpackStreams, Packed.upkints_map hlen]
  rfl

/-- The message with number `j` -/
theorem step_chunk (hheap : ∀ n, sys.heap n = true) (hq : page.seqno ≠ 0) (hf : f.Ready page unset i im)
    (him : IsRaster im) (hlen : page.data.length = 4 * (2112 * 2048)) (hj : j < 64) :
    ∃ f', f.step sys (page.chunk unset j) = some f' ∧ f'.Ready page unset i im ∧
      f.Writes f' i (chunkWords sys.host page.data im j) := by
  have hget := Server.getContext_unique hq hf.seqno
  obtain ⟨img, himg⟩ := Option.ne_none_iff_exists'.mp hf.opened
  obtain ⟨t, ht, hnums, hopen⟩ := Server.exists_handleWritePixelData hget himg datalen 1 1 0
  obtain ⟨iolist, hw⟩ := writeStream_chunk hheap hf.configured hf.image him hlen hj
  have hbytes : ((page.data.drop (datalen * j)).take datalen).length = datalen := by
    rw [List.length_take, List.length_drop, datalen]
    omega
  set file : Mapped :=
    { f.files i with iolist, mem := (f.files i).mem.stores (chunkWords sys.host page.data im j) } with hfile
  have hself : (⟨t, update f.files i file⟩ : Plates).files i = file := update_self i file f.files
  refine ⟨⟨t, update f.files i file⟩, ?_, ⟨fun k => ?_, hopen, ?_, ?_⟩, ⟨?_, ?_, fun k hk => ?_⟩⟩
  · show f.writePixelData sys (.int page.seqno :: .int datalen :: .int 1 :: .int 1 ::
      ((chunkStream page unset j).ints.map .int ++ [.bytes ((page.data.drop (datalen * j)).take datalen)])) = _
    simp only [writePixelData, Packed.upkint_int, Option.bind_some, hget]
    rw [if_neg (by simp [hheap]), Int.toNat_one, upkints_chunk, Option.bind_some]
    dsimp only
    rw [if_neg (by simp [hheap]), Int.toNat_natCast, Packed.upkbyte_bytes hbytes, Option.bind_some,
      List.head?_cons, Option.bind_some]
    dsimp only
    rw [show (chunkStream page unset j).destimage = page.destimage unset from rfl,
      Mapped.encodePixels_int hf.configured hf.image him.pixtype]
    dsimp only
    rw [writeStreams, hw, Option.bind_some]
    simp only [writeStreams, Option.map_some, Option.bind_some, Nat.zero_add, ht, after]
  · rw [← hf.seqno k]
    exact (congrFun hnums k).congr_left
  · rw [hself]
    exact hf.configured
  · rw [hself]
    exact hf.image
  · rw [hself]
  · rw [hself]
  · exact update_of_ne hk _ _

/-- The message `Synchronize` -/
theorem step_sync (hq : page.seqno ≠ 0) (hf : f.Ready page unset i im) :
    ∃ f', f.step sys page.sync = some f' ∧ f'.Ready page unset i im ∧ f.Writes f' i [] := by
  have hget := Server.getContext_unique hq hf.seqno
  obtain ⟨img, himg⟩ := Option.ne_none_iff_exists'.mp hf.opened
  obtain ⟨t, out, ht, hnums, hopen⟩ := Server.exists_handleSynchronize hget himg sys.synced
  refine ⟨⟨t, f.files⟩, ?_, ⟨fun k => ?_, hopen, hf.configured, hf.image⟩, ⟨?_, rfl, fun _ _ => rfl⟩⟩
  · show f.synchronize sys [.int page.seqno] = _
    simp only [synchronize, Packed.upkint_int, Option.bind_some, ht, after]
  · rw [← hf.seqno k]
    exact (congrFun hnums k).congr_left
  · rw [Memory.stores_nil]

end Step

section Run

variable {sys : Sys} {f f' f'' : Plates} {page : PixelPage} {unset : Int} {i : Slot} {im : Dsim.Image}
  {ws ws' : List Word} {ms : List (PixelTag × List Packed)}

theorem Writes.refl (f : Plates) (i : Slot) : f.Writes f i [] := ⟨by rw [Memory.stores_nil], rfl, fun _ _ => rfl⟩

theorem Writes.trans (h : f.Writes f' i ws) (h' : f'.Writes f'' i ws') : f.Writes f'' i (ws ++ ws') where
  mem := by rw [h'.mem, h.mem, Memory.stores_append]
  ds := h'.ds.trans h.ds
  others := fun j hj => (h'.others j hj).trans (h.others j hj)

/-- The words that a message stores. A message with pixels has the number of its first line as the tenth item. -/
def wordsOf (host : Bool) (data : List UInt8) (im : Dsim.Image) (msg : PixelTag × List Packed) : List Word :=
  match msg.1, msg.2.drop 9 with
  | .writePixelData, .int y0 :: _ => chunkWords host data im (y0 / 32).toNat
  | _, _ => []

theorem wordsOf_chunk (host : Bool) (data : List UInt8) (page : PixelPage) (unset : Int) (j : Nat) :
    wordsOf host data im (page.chunk unset j) = chunkWords host data im j := by
  show chunkWords host data im ((j * 32 : Int) / 32).toNat = _
  congr 1
  omega

theorem mem_procDCAData {procPages : Option Str} {m : PixelTag × List Packed}
    (h : m ∈ page.procDCAData unset procPages) : (∃ j < 64, m = page.chunk unset j) ∨ m = page.sync := by
  by_cases hno : (!page.isSelected procPages || page.isMeta) = true
  · rw [PixelPage.procDCAData, if_pos hno] at h
    cases h
  · rw [Bool.or_eq_true, not_or, Bool.not_eq_true', Bool.not_eq_false] at hno
    rw [PixelPage.procDCAData_eq hno.1 (by simpa using hno.2), List.mem_append, List.mem_flatMap] at h
    rcases h with ⟨j, hj, h⟩ | h
    · rcases List.mem_cons.mp h with rfl | h
      · exact .inl ⟨j, List.mem_range.mp hj, rfl⟩
      · split at h
        · exact .inr (List.mem_singleton.mp h)
        · cases h
    · exact .inr (List.mem_singleton.mp h)

/-- The messages of a page, in any order and number -/
theorem run_words (hheap : ∀ n, sys.heap n = true) (hq : page.seqno ≠ 0) (hf : f.Ready page unset i im)
    (him : IsRaster im) (hlen : page.data.length = 4 * (2112 * 2048))
    (hms : ∀ m ∈ ms, (∃ j < 64, m = page.chunk unset j) ∨ m = page.sync) :
    ∃ f', run (step sys) f ms = some f' ∧ f.Writes f' i (ms.flatMap (wordsOf sys.host page.data im)) := by
  induction ms generalizing f with
  | nil => exact ⟨f, rfl, .refl f i⟩
  | cons m ms ih =>
    have hstep : ∃ f', f.step sys m = some f' ∧ f'.Ready page unset i im ∧
        f.Writes f' i (wordsOf sys.host page.data im m) := by
      rcases hms m List.mem_cons_self with ⟨j, hj, rfl⟩ | rfl
      · rw [wordsOf_chunk]
        exact step_chunk hheap hq hf him hlen hj
      · exact step_sync hq hf
    obtain ⟨f₁, hs, hf₁, hw⟩ := hstep
    obtain ⟨f₂, hr, hw'⟩ := ih hf₁ fun m' hm' => hms m' (List.mem_cons_of_mem _ hm')
    refine ⟨f₂, ?_, ?_⟩
    · rw [run_cons, hs, Option.bind_some, hr]
    · rw [List.flatMap_cons]
      exact hw.trans hw'

/-- The words of all messages of a page -/
theorem words_procDCAData {procPages : Option Str} (hsel : page.isSelected procPages = true)
    (hm : page.isMeta = false) (host : Bool) :
    (page.procDCAData unset procPages).flatMap (wordsOf host page.data im) =
      wordsAt im.pixOffset 4 (encoded host page.data) (67584 * 64) := by
  have hsync : ∀ j, (if j % 16 = 0 then [page.sync] else []).flatMap (wordsOf host page.data im) = [] := by
    intro j
    split <;> rfl
  rw [PixelPage.procDCAData_eq hsel hm, List.flatMap_append, List.flatMap_assoc, ← wordsAt_mul]
  simp only [List.flatMap_cons, wordsOf_chunk, hsync, List.append_nil]
  exact List.append_nil _

/-- The message has pixels. -/
def isChunk (msg : PixelTag × List Packed) : Bool := msg.1 == .writePixelData

theorem flatMap_wordsOf (host : Bool) (data : List UInt8) (ms : List (PixelTag × List Packed)) :
    ms.flatMap (wordsOf host data im) = (ms.filter isChunk).flatMap (wordsOf host data im) := by
  induction ms with
  | nil => rfl
  | cons m ms ih =>
    rw [List.flatMap_cons, ih, List.filter_cons]
    split
    · rw [List.flatMap_cons]
    · next hno =>
      obtain ⟨tag, p⟩ := m
      cases tag with
      | writePixelData => exact absurd rfl hno
      | synchronize => rfl

end Run

end Plates

section Transfer

variable {sys : Sys} {f : Plates} {page : PixelPage} {unset : Int} {i : Slot} {im : Dsim.Image}
  {ms : List (PixelTag × List Packed)} {procPages : Option Str}

/-- The pixels of an image of the size of a page are in its area. -/
theorem IsRaster.le_stop (him : IsRaster im) (hal : im.Aligned) : im.pixOffset + 4 * (2112 * 2048) ≤ im.pixelArea.stop := by
  have hpix := hal.pixels
  have hnpix : im.npix = 2112 * 2048 := by
    rw [Image.npix, him.naxes, if_neg (by decide), Finset.prod_range_succ, Finset.prod_range_succ,
      Finset.prod_range_zero, him.axlen1, him.axlen2]
    rfl
  rw [hnpix, him.pixsize] at hpix
  show im.pixOffset + 4 * (2112 * 2048) ≤ im.pixOffset + im.pixelArea.size
  omega

theorem length_encoded (host : Bool) (hlen : page.data.length = 4 * (2112 * 2048)) {k : Nat} (hk : k < 2112 * 2048) :
    (encoded host page.data k).length = 4 := by
  rw [encoded, List.length_take, List.length_drop, encodeInt_length]
  omega

/-- When all messages with pixels have been handled, in any order and with messages `Synchronize` in between, the image
has the encoded pixels of the page. Each of them was stored once, and no pixel of another image was. -/
theorem pixel_transfer (hheap : ∀ n, sys.heap n = true) (hsel : page.isSelected procPages = true)
    (hm : page.isMeta = false) (hlen : page.data.length = 4 * (2112 * 2048)) (hq : page.seqno ≠ 0)
    (hf : f.Ready page unset i im) (him : IsRaster im) (hlay : (f.files i).ds.Layout)
    (hms : (ms.filter Plates.isChunk).Perm ((page.procDCAData unset procPages).filter Plates.isChunk))
    (hsub : ∀ m ∈ ms, m ∈ page.procDCAData unset procPages) :
    ∃ f' ws, run (Plates.step sys) f ms = some f' ∧
      (∀ x y b : Nat, x < 2112 → y < 2048 → b < 4 → (f'.files i).mem.bytes (im.pixOffset + 4 * (y * 2112 + x : Nat) + b) =
        (Dsim.encodePixels sys.host .int true page.data).getD (4 * (y * 2112 + x) + b) 0) ∧
      (f'.files i).mem.log = (f.files i).mem.log ++ ws ∧
      (ws.map Word.addr).Perm ((List.range (2112 * 2048)).map fun k : Nat => im.pixOffset + 4 * k) ∧
      (∀ w ∈ ws, w.bytes.length = 4) ∧
      (∀ n im', (f.files i).image? n = some im' → n ≠ page.destimage unset →
        ∀ a, im'.pixelArea.off ≤ a → a < im'.pixelArea.stop →
          (f'.files i).mem.bytes a = (f.files i).mem.bytes a ∧ ∀ w ∈ ws, w.Misses a) ∧
      ∀ j, j ≠ i → f'.files j = f.files j := by
  obtain ⟨f', hr, hw⟩ := Plates.run_words hheap hq hf him hlen fun m hmem => Plates.mem_procDCAData (hsub m hmem)
  have hperm : (ms.flatMap (Plates.wordsOf sys.host page.data im)).Perm
      (wordsAt im.pixOffset 4 (encoded sys.host page.data) (2112 * 2048)) := by
    have hall : (page.procDCAData unset procPages).flatMap (Plates.wordsOf sys.host page.data im) = _ :=
      Plates.words_procDCAData hsel hm sys.host
    rw [Plates.flatMap_wordsOf] at hall ⊢
    rw [← hall]
    exact hms.flatMap_right _
  set ws := ms.flatMap (Plates.wordsOf sys.host page.data im) with hws
  have hmem : ∀ w, w ∈ ws ↔ ∃ k < 2112 * 2048, w = ⟨im.pixOffset + 4 * (k : Nat), encoded sys.host page.data k⟩ := by
    intro w
    rw [hperm.mem_iff, mem_wordsAt]
  have happart : ws.Pairwise Word.Apart := by
    rw [hperm.pairwise_iff fun h => h.symm]
    apply apart_wordsAt
    intro k hk
    rw [length_encoded sys.host hlen hk]
    rfl
  have hbytes : (f'.files i).mem.bytes = putAll (f.files i).mem.bytes ws := by
    rw [hw.mem]
    rfl
  refine ⟨f', ws, hr, ?_, ?_, ?_, ?_, ?_, hw.others⟩
  · intro x y b hx hy hb
    have hk : y * 2112 + x < 2112 * 2048 := by omega
    have hword := (hmem _).mpr ⟨_, hk, rfl⟩
    have hread := putAll_of_mem (m := (f.files i).mem.bytes) happart hword (k := b)
      (by rw [length_encoded sys.host hlen hk]; exact hb)
    rw [hbytes]
    refine hread.trans ?_
    show (((encodeInt sys.host page.data).drop _).take 4).getD b 0 = (encodeInt sys.host page.data).getD _ 0
    rw [List.getD_eq_getElem?_getD, List.getD_eq_getElem?_getD, List.getElem?_take_of_lt hb, List.getElem?_drop]
  · rw [hw.mem]
    rfl
  · refine (hperm.map Word.addr).trans ?_
    rw [wordsAt, List.map_map]
    exact .refl _
  · intro w hw
    obtain ⟨k, hk, rfl⟩ := (hmem w).mp hw
    exact length_encoded sys.host hlen hk
  · intro n im' hn hne a ha ha'
    have hout : ∀ w ∈ ws, w.Misses a := by
      intro w hw
      obtain ⟨k, hk, rfl⟩ := (hmem w).mp hw
      have hstop := him.le_stop (hlay.aligned im (Mapped.mem_of_image? hf.image))
      have hoff : im.pixelArea.off = im.pixOffset := rfl
      have hlen4 := length_encoded sys.host hlen hk
      show a < im.pixOffset + 4 * (k : Int) ∨ im.pixOffset + 4 * (k : Int) + (encoded sys.host page.data k).length ≤ a
      rcases Mapped.pixelArea_apart hlay hf.image hn hne.symm with h | h
      · right
        omega
      · left
        omega
    refine ⟨?_, hout⟩
    rw [hbytes]
    exact putAll_of_outside hout

end Transfer

theorem panA_noNull : '\x00' ∉ ['P', 'a', 'n', 'A'] := by decide

/-- A page of zeros -/
def blankPage : PixelPage where
  isMeta := false
  seqno := 1
  colID := ⟨['P', 'a', 'n', 'A'], panA_noNull⟩
  expPageNum := 1
  data := List.replicate (4 * (2112 * 2048)) 0

/-- A file of four images of the size of a page -/
def fourImages : DSImage where
  maxkeywords := 72
  images := List.replicate 4 ⟨0, 2, fun i => if i = 0 then 2112 else 2048, 5, 0, 0, 0, 0, 0⟩
  hdrOffset := 0
  hdrLength := 0
  filesize := 0

/-- A server with an open file -/
def openFile : Server :=
  { Server.start Params.default with
    ctx := update (fun _ => .zero) Slot.first { Context.zero with seqno := 1, dsim := some ⟨[], ['x'], 4, []⟩ } }

theorem openFile_seqno (j : Slot) : (openFile.ctx j).seqno = 1 ↔ j = 0 := by
  revert j
  decide

theorem fourImages_layout :
    ∃ ds im, fourImages.configure 8 (fun _ => true) = some ds ∧ ds.Layout ∧ ds.images[1]? = some im ∧ IsRaster im := by
  have hchoice : fourImages.Choice 8 := by
    refine ⟨by decide, fun im him => ?_⟩
    have hkw : fourImages.keywords = 72 := by decide
    rw [hkw, List.eq_of_mem_replicate him]
    exact ⟨by decide, by decide, by decide, by decide, by decide, by decide⟩
  obtain ⟨ds, hds, -, hlay⟩ := layout_of_fits (by decide) hchoice (fun _ _ => rfl) (by decide)
  have himage : (fourImages.configure 8 fun _ => true).map (fun ds =>
      ds.images[1]?.map fun im => (im.naxes, im.axlen 0, im.axlen 1, im.pixtype, im.pixsize)) =
        some (some (2, 2112, 2048, 5, 4)) := by decide
  rw [hds, Option.map_some, Option.some.injEq, Option.map_eq_some_iff] at himage
  obtain ⟨im, him, heq⟩ := himage
  simp only [Prod.mk.injEq] at heq
  exact ⟨ds, im, hds, hlay, him, ⟨heq.1, heq.2.1, heq.2.2.1, heq.2.2.2.1, heq.2.2.2.2⟩⟩

/-- The messages of the page in the reverse order -/
theorem blankPage_transfer :
    ∃ ds im f' ws, fourImages.configure 8 (fun _ => true) = some ds ∧ ds.images[1]? = some im ∧
      run (Plates.step ⟨true, 8, fun _ => true, true, fun _ => true⟩)
        ⟨openFile, fun _ => ⟨ds, true, [], ⟨fun _ => 1, []⟩⟩⟩ (blankPage.procDCAData 0 none).reverse = some f' ∧
      (f'.files 0).mem.log = ws ∧
      (ws.map Word.addr).Perm ((List.range (2112 * 2048)).map fun k : Nat => im.pixOffset + 4 * k) := by
  obtain ⟨ds, im, hds, hlay, hget, him⟩ := fourImages_layout
  have hopen : (openFile.ctx 0).dsim ≠ none := by decide
  have hready : (⟨openFile, fun _ => ⟨ds, true, [], ⟨fun _ => 1, []⟩⟩⟩ : Plates).Ready blankPage 0 0 im :=
    ⟨openFile_seqno, hopen, rfl, hget⟩
  have hheap : ∀ n, (⟨true, 8, fun _ => true, true, fun _ => true⟩ : Sys).heap n = true := fun _ => rfl
  obtain ⟨f', ws, hr, -, hlog, hperm, -⟩ := pixel_transfer hheap rfl rfl List.length_replicate (by decide) hready him hlay
    ((List.reverse_perm (blankPage.procDCAData 0 none)).filter Plates.isChunk) fun m hm => List.mem_reverse.mp hm
  exact ⟨ds, im, f', ws, hds, hget, hr, hlog, hperm⟩

end Ndhs.Mosdca
