import Ndhs.Dca.FillLoops

/-!
# Where `WritePixels` stores the pixels of a stream (`mosdca/mosdca.c`)

A stream whose step along its lines or columns is one pixel fills the first line from the start on, and then whole lines.
`place` is the column and line that each pixel belongs to.

* `loopWords`: the words that a loop stores. The address of a line or column is computed once, when it is begun, and the
  pixels behind its first one are found from it.
* `loopWords_iff`: they are the words at the places just when the addresses of the pixels that begin a line are right.
* `dsim_Pixel2D` computes the offset of a pixel as an `int`; `pixel2D_iff` says when it is right.
* The pixels of a stream are `int`s (`PIXTYPE`), also where those of the image are not.

`placement_iff` puts these together.
-/

namespace Ndhs.Mosdca

open Dsim Fill Pxf Stores

/-- The place of the pixel with number `k` of a stream: its column and its line -/
def place (axlen1 axlen2 : Int) (st : Stream) (k : Int) : Int × Int :=
  if st.xydir ≠ 0 then
    if 0 < st.ystep then (st.x0 + st.xstep * ((st.y0 + k) / axlen2), (st.y0 + k) % axlen2)
    else
      let q := axlen2 - 1 - st.y0 + k
      (st.x0 + st.xstep * (q / axlen2), axlen2 - 1 - q % axlen2)
  else if 0 < st.xstep then ((st.x0 + k) % axlen1, st.y0 + st.ystep * ((st.x0 + k) / axlen1))
  else
    let q := axlen1 - 1 - st.x0 + k
    (axlen1 - 1 - q % axlen1, st.y0 + st.ystep * (q / axlen1))

/-- The pixels of the first line or column that come before the start -/
def Axis.before (a : Axis) : Int := if 0 < a.step then a.start else a.len - 1 - a.start

/-- The pixel with number `k` is the first one of the stream, or of a line or column. -/
def Axis.Begins (a : Axis) (k : Int) : Prop := k = 0 ∨ (a.before + k) % a.len = 0

instance (a : Axis) (k : Int) : Decidable (a.Begins k) := inferInstanceAs (Decidable (_ ∨ _))

/-- The address of a pixel of an image -/
def address (im : Dsim.Image) (p : Int × Int) : Int := im.pixOffset + (p.2 * im.axlen 0 + p.1) * im.pixsize

/-- The pixel with number `k` of a stream, at its place -/
def placeWord (im : Dsim.Image) (pixels : List UInt8) (st : Stream) (k : Nat) : Word :=
  ⟨address im (place (im.axlen 0) (im.axlen 1) st k), (pixelAt pixels (st.offset + st.stride * k)).getD []⟩

/-- Each pixel is stored at its place, in the order of the stream, as a whole pixel of the image, and no other byte is
changed. -/
structure Places (im : Dsim.Image) (pixels : List UInt8) (st : Stream) (m m' : Memory) : Prop where
  whole : ∀ k < st.npix.toNat, ((placeWord im pixels st k).bytes.length : Int) = im.pixsize
  log : m'.log = m.log ++ (List.range st.npix.toNat).map (placeWord im pixels st)
  stored : ∀ k < st.npix.toNat, ∃ v, pixelAt pixels (st.offset + st.stride * k) = some v ∧
    ∀ b < 4, m'.bytes (address im (place (im.axlen 0) (im.axlen 1) st k) + (b : Nat)) = v.getD b 0
  others : ∀ a, (∀ k < st.npix.toNat, (placeWord im pixels st k).Misses a) → m'.bytes a = m.bytes a

/-! ## The words of a loop -/

section Loop

variable {io : IORegion} {pixels : List UInt8} {istep ostep : Int} {shift : Int × Int} {room : Int → Int → Int}
  {next : Int → Int → Int × Int} {n : Nat} {nleft i j ip l q w : Int} {m m' : Memory} {pl : Int → Int → Int × Int}
  {addr : Int × Int → Int}

/-- The words that a loop stores -/
def loopWords (io : IORegion) (pixels : List UInt8) (istep ostep : Int) (room : Int → Int → Int)
    (next : Int → Int → Int × Int) : Nat → Int → Int → Int → Int → List Word
  | 0, _, _, _, _ => []
  | n + 1, nleft, i, j, ip =>
    if nleft > 0 then
      let np := min nleft (room i j)
      wordsAt (io.pixel2D i j) (4 * ostep) (fun k => (pixelAt pixels (ip + istep * k)).getD []) np.toNat ++
        loopWords io pixels istep ostep room next n (nleft - np) (next i j).1 (next i j).2 (ip + istep * np.toNat)
    else []

theorem fillLoop_words (h : fillLoop io pixels istep ostep room next n nleft i j ip m = some m') :
    m' = m.stores (loopWords io pixels istep ostep room next n nleft i j ip) := by
  induction n generalizing nleft i j ip m with
  | zero =>
    rw [fillLoop] at h
    split at h
    · cases h
    · simpa [loopWords] using h.symm
  | succ n ih =>
    rw [fillLoop] at h
    rw [loopWords]
    by_cases hpos : nleft > 0
    · rw [if_pos hpos] at h ⊢
      dsimp only at h ⊢
      obtain ⟨r, hr, h⟩ := Option.bind_eq_some_iff.mp h
      have hrun := hr
      rw [copyLoop_eq (copyLoop_reads hr), Option.some.injEq] at hrun
      subst hrun
      rw [ih h, Memory.stores_append]
    · rw [if_neg hpos] at h ⊢
      simpa using h.symm

/-- A loop that fills lines of `w` pixels: the pixel `q` of line `l` is at `pl l q`. -/
structure FillsLines (shift : Int × Int) (room : Int → Int → Int) (next : Int → Int → Int × Int)
    (pl : Int → Int → Int × Int) (w : Int) : Prop where
  shift : ∀ l q k, pl l (q + k) = ((pl l q).1 + shift.1 * k, (pl l q).2 + shift.2 * k)
  room : ∀ l q, room (pl l q).1 (pl l q).2 = w - q
  next : ∀ l q, next (pl l q).1 (pl l q).2 = pl (l + 1) 0
  inj : ∀ {l q l' q'}, pl l q = pl l' q' → l = l' ∧ q = q'

/-- The pixels of the first line, and those behind it -/
theorem range_line (hnleft : 0 < nleft) (hq : q < w) :
    List.range nleft.toNat = List.range (min nleft (w - q)).toNat ++
      (List.range (nleft - min nleft (w - q)).toNat).map ((min nleft (w - q)).toNat + ·) := by
  rw [← List.range_add]
  congr 1
  omega

/-- A pixel behind the first line, in lines of their own -/
theorem line_add (hq : q < w) (hw : 0 < w) (h : w - q < nleft) (k : Nat) :
    (q + ((min nleft (w - q)).toNat + k : Nat)) / w = 1 + (0 + k) / w ∧
      (q + ((min nleft (w - q)).toNat + k : Nat)) % w = (0 + k) % w := by
  have hsum : q + ((min nleft (w - q)).toNat + k : Nat) = (0 + k) + w * 1 := by
    omega
  rw [hsum]
  constructor
  · rw [Int.add_mul_ediv_left _ _ (by omega)]
    omega
  · rw [Int.add_mul_emod_self_left]

/-- What is made of the pixels in turn: the rest of line `l` from `q` on, and the lines behind it -/
theorem map_lines {β : Type} (f : Int → Int → Nat → β) (hnleft : 0 < nleft) (h0 : 0 ≤ q) (hq : q < w) :
    ((List.range nleft.toNat).map fun k : Nat => f (l + (q + k) / w) ((q + k) % w) k) =
      ((List.range (min nleft (w - q)).toNat).map fun k : Nat => f l (q + k) k) ++
        (List.range (nleft - min nleft (w - q)).toNat).map fun k : Nat =>
          f (l + 1 + (0 + k) / w) ((0 + k) % w) ((min nleft (w - q)).toNat + k) := by
  rw [range_line hnleft hq, List.map_append, List.map_map]
  congr 1
  · refine List.map_congr_left fun k hk => ?_
    rw [List.mem_range] at hk
    have hlt : q + k < w := by omega
    rw [Int.ediv_eq_zero_of_lt (by omega) hlt, Int.emod_eq_of_lt (by omega) hlt, Int.add_zero]
  · refine List.map_congr_left fun k hk => ?_
    rw [List.mem_range] at hk
    obtain ⟨hdiv, hmod⟩ := line_add hq (by omega) (by omega : w - q < nleft) k
    rw [Function.comp_apply, hdiv, hmod, Int.add_assoc l 1]

theorem forall_lines (p : Int → Int → Nat → Prop) (hnleft : 0 < nleft) (h0 : 0 ≤ q) (hq : q < w) :
    (∀ k : Nat, k < nleft.toNat → p (l + (q + k) / w) ((q + k) % w) k) ↔
      (∀ k : Nat, k < (min nleft (w - q)).toNat → p l (q + k) k) ∧
        ∀ k : Nat, k < (nleft - min nleft (w - q)).toNat →
          p (l + 1 + (0 + k) / w) ((0 + k) % w) ((min nleft (w - q)).toNat + k) := by
  have hmap := congrArg (fun ps : List Prop => ∀ r ∈ ps, r) (map_lines (l := l) p hnleft h0 hq)
  rw [List.forall_mem_append] at hmap
  simp only [List.forall_mem_map, List.mem_range] at hmap
  exact iff_of_eq hmap

/-- The pixels that a loop copies, by their numbers -/
theorem FillsLines.loopCopies (hf : FillsLines shift room next pl w) (h0 : 0 ≤ q) (hq : q < w)
    (hn : nleft.toNat ≤ n) :
    loopCopies istep shift room next n nleft (pl l q).1 (pl l q).2 ip = (List.range nleft.toNat).map fun k : Nat =>
      ⟨ip + istep * k, (pl (l + (q + k) / w) ((q + k) % w)).1, (pl (l + (q + k) / w) ((q + k) % w)).2⟩ := by
  induction n generalizing nleft l q ip with
  | zero =>
    rw [Nat.le_zero.mp hn]
    rfl
  | succ n ih =>
    rw [Mosdca.loopCopies]
    split
    · next hpos =>
      rw [hf.room, hf.next,
        map_lines (fun l q k => (⟨ip + istep * k, (pl l q).1, (pl l q).2⟩ : Copy)) hpos h0 hq]
      dsimp only
      congr 1
      · refine List.map_congr_left fun k hk => ?_
        rw [hf.shift]
      · rw [ih (Int.le_refl 0) (by omega) (by omega)]
        refine List.map_congr_left fun k hk => ?_
        congr 1
        push_cast
        ring
    · next hpos =>
      have hzero : nleft.toNat = 0 := by omega
      rw [hzero]
      rfl

theorem append_inj_iff {ws ws' us us' : List Word} (h : ws.length = us.length) :
    ws ++ ws' = us ++ us' ↔ ws = us ∧ ws' = us' := by
  constructor
  · intro happend
    exact List.append_inj happend h
  · rintro ⟨rfl, rfl⟩
    rfl

/-- The words of one line are those at the places of its pixels if the first one is. -/
theorem wordsAt_iff {base : Int} {v : Nat → List UInt8} (hn : 0 < n) :
    wordsAt base (4 * ostep) v n = ((List.range n).map fun k : Nat => ⟨i + 4 * ostep * k, v k⟩) ↔ base = i := by
  constructor
  · intro h
    have hhead := congrArg (fun ws => (ws.head?).map Word.addr) h
    obtain ⟨n, rfl⟩ := Nat.exists_eq_succ_of_ne_zero hn.ne'
    simpa [wordsAt, List.range_succ_eq_map] using hhead
  · rintro rfl
    rfl

/-- The words of a loop are those at the places of its pixels, just when the addresses of the pixels that begin a line
are right. -/
theorem FillsLines.loopWords_iff (hf : FillsLines shift room next pl w) (io : IORegion) (pixels : List UInt8)
    (istep l ip : Int)
    (haddr : ∀ l q k, addr (pl l (q + k)) = addr (pl l q) + 4 * ostep * k) (h0 : 0 ≤ q) (hq : q < w)
    (hn : nleft.toNat ≤ n) :
    loopWords io pixels istep ostep room next n nleft (pl l q).1 (pl l q).2 ip =
        ((List.range nleft.toNat).map fun k : Nat =>
          ⟨addr (pl (l + (q + k) / w) ((q + k) % w)), (pixelAt pixels (ip + istep * k)).getD []⟩) ↔
      ∀ k : Nat, k < nleft.toNat → ((k : Int) = 0 ∨ (q + k) % w = 0) →
        io.pixel2D (pl (l + (q + k) / w) ((q + k) % w)).1 (pl (l + (q + k) / w) ((q + k) % w)).2 =
          addr (pl (l + (q + k) / w) ((q + k) % w)) := by
  induction n generalizing nleft l q ip with
  | zero =>
    rw [Nat.le_zero.mp hn]
    simp [loopWords]
  | succ n ih =>
    rw [loopWords]
    split
    · next hpos =>
      have hfirst : ((List.range (min nleft (w - q)).toNat).map fun k : Nat =>
            (⟨addr (pl l (q + k)), (pixelAt pixels (ip + istep * k)).getD []⟩ : Word)) =
          (List.range (min nleft (w - q)).toNat).map fun k : Nat =>
            ⟨addr (pl l q) + 4 * ostep * k, (pixelAt pixels (ip + istep * k)).getD []⟩ := by
        refine List.map_congr_left fun k hk => ?_
        rw [haddr]
      have hrest : ((List.range (nleft - min nleft (w - q)).toNat).map fun k : Nat =>
            (⟨addr (pl (l + 1 + (0 + k) / w) ((0 + k) % w)),
              (pixelAt pixels (ip + istep * ((min nleft (w - q)).toNat + k : Nat))).getD []⟩ : Word)) =
          (List.range (nleft - min nleft (w - q)).toNat).map fun k : Nat =>
            ⟨addr (pl (l + 1 + (0 + k) / w) ((0 + k) % w)),
              (pixelAt pixels (ip + istep * (min nleft (w - q)).toNat + istep * k)).getD []⟩ := by
        refine List.map_congr_left fun k hk => ?_
        congr 3
        push_cast
        ring
      rw [hf.room, hf.next, map_lines (fun l q k =>
          (⟨addr (pl l q), (pixelAt pixels (ip + istep * k)).getD []⟩ : Word)) hpos h0 hq, hfirst, hrest,
        forall_lines (fun l q k => ((k : Int) = 0 ∨ q = 0) → io.pixel2D (pl l q).1 (pl l q).2 = addr (pl l q)) hpos h0 hq]
      dsimp only
      rw [append_inj_iff (by simp [wordsAt]), wordsAt_iff (by omega), ih _ _ (Int.le_refl 0) (by omega) (by omega)]
      refine and_congr ⟨fun hbase k hk hbegin => ?_, fun h => ?_⟩
        (forall_congr' fun k => forall_congr' fun hk => imp_congr_left ?_)
      · -- only the first pixel of the first line begins it
        obtain rfl : k = 0 := by omega
        rw [Nat.cast_zero, Int.add_zero]
        exact hbase
      · have hbase := h 0 (by omega) (.inl rfl)
        rwa [Nat.cast_zero, Int.add_zero] at hbase
      · constructor
        · rintro (hk0 | hbegin)
          · exact .inr (by rw [hk0]; simp)
          · exact .inr hbegin
        · rintro (hk0 | hbegin)
          · omega
          · exact .inr hbegin
    · next hpos =>
      have hzero : nleft.toNat = 0 := by omega
      rw [hzero]
      simp

/-- A loop that fills lines takes a pixel in every round. -/
theorem FillsLines.leftAfter (hf : FillsLines shift room next pl w) (h0 : 0 ≤ q) (hq : q < w) (hn : nleft.toNat ≤ n) :
    leftAfter room next n nleft (pl l q).1 (pl l q).2 ≤ 0 := by
  induction n generalizing nleft l q with
  | zero =>
    rw [Mosdca.leftAfter]
    omega
  | succ n ih =>
    rw [Mosdca.leftAfter]
    split
    · rw [hf.room, hf.next]
      exact ih (Int.le_refl 0) (by omega) (by omega)
    · omega

end Loop

/-! ## The four loops -/

section Lines

variable {im : Dsim.Image} {st : Stream} {r : Nat} {i j : Int}

/-- The address that `dsim_Pixel2D` computes is right just when the offset of the pixel is an `int`. -/
theorem pixel2D_iff (hpix : im.pixsize = 4) (hax : im.axlen 0 < 2 ^ 31) (hi : 0 ≤ i ∧ i < im.axlen 0) (hj : 0 ≤ j) :
    (im.ioRegion r).pixel2D i j = address im (i, j) ↔ (j * im.axlen 0 + i) * 4 < 2 ^ 31 := by
  have hstride : im.stride 1 = im.axlen 0 := by
    rw [Image.stride, Image.stride, one_mul, int32_eq (by omega) hax]
  have hmul : 0 ≤ j * im.axlen 0 := Int.mul_nonneg hj (by omega)
  rw [IORegion.pixel2D]
  show im.pixOffset + int32 (int32 (int32 (j * im.stride 1) + i) * im.pixsize) =
    im.pixOffset + (j * im.axlen 0 + i) * im.pixsize ↔ _
  rw [hstride, hpix]
  unfold int32
  rw [Int.bmod_add_bmod, Int.bmod_mul_bmod]
  constructor
  · intro h
    have hlt := Int.bmod_lt (x := (j * im.axlen 0 + i) * 4) (m := 2 ^ 32) (by decide)
    omega
  · intro h
    rw [Int.bmod_eq_of_le (by omega) (by omega)]

/-- What each of the four loops does, for a stream whose step along its lines is one pixel -/
theorem exists_lines (hax : im.axlen 0 < 2 ^ 31) (hacc : Accepted (im.axlen 0) (im.axlen 1) st)
    (hstep : |(along (im.axlen 0) (im.axlen 1) st).step| = 1) :
    let a := along (im.axlen 0) (im.axlen 1) st
    ∃ shift ostep room next pl, FillsLines shift room next pl a.len ∧ pl 0 a.before = (st.x0, st.y0) ∧
      (∀ k, pl ((a.before + k) / a.len) ((a.before + k) % a.len) = place (im.axlen 0) (im.axlen 1) st k) ∧
      (im.pixsize = 4 → ∀ l q k, address im (pl l (q + k)) = address im (pl l q) + 4 * ostep * k) ∧
      ∀ io pixels m, writePixels io (im.axlen 0) (im.axlen 1) pixels st m =
        (fillLoop io pixels st.stride ostep room next (st.npix.toNat + 1) st.npix st.x0 st.y0 st.offset m).map
          (·, true) := by
  obtain ⟨hx0, hx1⟩ := hacc.x0
  have hint : int32 (im.axlen 0) = im.axlen 0 := int32_eq (by omega) hax
  have hneg : int32 (-im.axlen 0) = -im.axlen 0 := int32_of_abs (by rw [abs_neg, abs_of_nonneg (by omega)]; exact hax)
  unfold along at hstep ⊢
  by_cases hdir : st.xydir = 0
  · rw [if_neg (not_not_intro hdir)] at hstep ⊢
    dsimp only at hstep ⊢
    rcases (abs_eq Int.one_nonneg).mp hstep with hdx | hdx
    · refine ⟨(1, 0), 1, fun i _ => (im.axlen 0 - i).tdiv |1|, fun _ j => (0, j + st.ystep),
        fun l q => (q, st.y0 + st.ystep * l), ⟨fun l q k => ?_, fun l q => ?_, fun l q => ?_, fun h => ?_⟩, ?_, fun k => ?_,
        fun hpix l q k => ?_, fun io pixels m => ?_⟩
      · simp
      · simp
      · exact Prod.ext rfl (by dsimp only; ring)
      · obtain ⟨hq, hl⟩ := Prod.mk.inj h
        exact ⟨Int.eq_of_mul_eq_mul_left hacc.ystep (by omega), by omega⟩
      · simp [Axis.before, hdx]
      · simp [Axis.before, place, hdir, hdx]
      · simp only [address, hpix]
        ring
      · simp [writePixels, hdir, hdx]
    · refine ⟨(-1, 0), -1, fun i _ => (i + 1).tdiv |-1|, fun _ j => (im.axlen 0 - 1, j + st.ystep),
        fun l q => (im.axlen 0 - 1 - q, st.y0 + st.ystep * l),
        ⟨fun l q k => ?_, fun l q => ?_, fun l q => ?_, fun h => ?_⟩, ?_, fun k => ?_, fun hpix l q k => ?_,
        fun io pixels m => ?_⟩
      · exact Prod.ext (by dsimp only; ring) (by simp)
      · simp
        omega
      · exact Prod.ext (by simp) (by dsimp only; ring)
      · obtain ⟨hq, hl⟩ := Prod.mk.inj h
        exact ⟨Int.eq_of_mul_eq_mul_left hacc.ystep (by omega), by omega⟩
      · simp [Axis.before, hdx]
      · simp [Axis.before, place, hdir, hdx]
      · simp only [address, hpix]
        ring
      · simp [writePixels, hdir, hdx]
  · rw [if_pos hdir] at hstep ⊢
    dsimp only at hstep ⊢
    rcases (abs_eq Int.one_nonneg).mp hstep with hdy | hdy
    · refine ⟨(0, 1), im.axlen 0, fun _ j => (im.axlen 1 - j).tdiv |1|, fun i _ => (i + st.xstep, 0),
        fun l q => (st.x0 + st.xstep * l, q), ⟨fun l q k => ?_, fun l q => ?_, fun l q => ?_, fun h => ?_⟩, ?_, fun k => ?_,
        fun hpix l q k => ?_, fun io pixels m => ?_⟩
      · simp
      · simp
      · exact Prod.ext (by dsimp only; ring) rfl
      · obtain ⟨hl, hq⟩ := Prod.mk.inj h
        exact ⟨Int.eq_of_mul_eq_mul_left hacc.xstep (by omega), by omega⟩
      · simp [Axis.before, hdy]
      · simp [Axis.before, place, hdir, hdy]
      · simp only [address, hpix]
        ring
      · simp [writePixels, hdir, hdy, hint]
    · refine ⟨(0, -1), -im.axlen 0, fun _ j => (j + 1).tdiv |-1|, fun i _ => (i + st.xstep, im.axlen 1 - 1),
        fun l q => (st.x0 + st.xstep * l, im.axlen 1 - 1 - q),
        ⟨fun l q k => ?_, fun l q => ?_, fun l q => ?_, fun h => ?_⟩, ?_, fun k => ?_, fun hpix l q k => ?_,
        fun io pixels m => ?_⟩
      · exact Prod.ext (by simp) (by dsimp only; ring)
      · simp
        omega
      · exact Prod.ext (by dsimp only; ring) (by simp)
      · obtain ⟨hl, hq⟩ := Prod.mk.inj h
        exact ⟨Int.eq_of_mul_eq_mul_left hacc.xstep (by omega), by omega⟩
      · simp [Axis.before, hdy]
      · simp [Axis.before, place, hdir, hdy]
      · simp only [address, hpix]
        ring
      · simp [writePixels, hdir, hdy, hneg]

end Lines

section Placement

variable {im : Dsim.Image} {pixels : List UInt8} {st : Stream} {m m' : Memory} {p p' : Int × Int} {r : Nat}

/-- The pixel is in the image. -/
def InImage (im : Dsim.Image) (p : Int × Int) : Prop := (0 ≤ p.1 ∧ p.1 < im.axlen 0) ∧ 0 ≤ p.2 ∧ p.2 < im.axlen 1

instance (im : Dsim.Image) (p : Int × Int) : Decidable (InImage im p) := inferInstanceAs (Decidable (_ ∧ _))

/-- Two pixels of an image do not overlap. -/
theorem address_apart (hpix : im.pixsize = 4) (h : InImage im p) (h' : InImage im p') (hne : p ≠ p') :
    address im p + 4 ≤ address im p' ∨ address im p' + 4 ≤ address im p := by
  obtain ⟨i, j⟩ := p
  obtain ⟨i', j'⟩ := p'
  obtain ⟨⟨hi0, hi⟩, -⟩ := h
  obtain ⟨⟨hi0', hi'⟩, -⟩ := h'
  unfold address
  rw [hpix]
  dsimp only at hi0 hi hi0' hi' ⊢
  rcases lt_trichotomy j j' with hj | rfl | hj
  · have hmul : (j + 1) * im.axlen 0 ≤ j' * im.axlen 0 := Int.mul_le_mul_of_nonneg_right hj (by omega)
    rw [Int.add_mul, Int.one_mul] at hmul
    omega
  · have hii : i ≠ i' := by
      rintro rfl
      exact hne rfl
    omega
  · have hmul : (j' + 1) * im.axlen 0 ≤ j * im.axlen 0 := Int.mul_le_mul_of_nonneg_right hj (by omega)
    rw [Int.add_mul, Int.one_mul] at hmul
    omega

theorem length_pixelAt {ip : Int} {v : List UInt8} (h : pixelAt pixels ip = some v) : v.length = 4 := by
  rw [pixelAt] at h
  split at h
  · cases h
    rw [List.length_take, List.length_drop]
    omega
  · cases h

theorem length_placeWord {k : Nat} (h : (pixelAt pixels (st.offset + st.stride * k)).isSome) :
    (placeWord im pixels st k).bytes.length = 4 := by
  obtain ⟨v, hv⟩ := Option.isSome_iff_exists.mp h
  rw [placeWord, hv]
  exact length_pixelAt hv

/-- No two pixels of a stream have the same place. -/
theorem place_inj (hax : im.axlen 0 < 2 ^ 31) (hacc : Accepted (im.axlen 0) (im.axlen 1) st)
    (hstep : |(along (im.axlen 0) (im.axlen 1) st).step| = 1) {k k' : Int}
    (h : place (im.axlen 0) (im.axlen 1) st k = place (im.axlen 0) (im.axlen 1) st k') : k = k' := by
  obtain ⟨shift, ostep, room, next, pl, hf, -, hpl, -⟩ := exists_lines hax hacc hstep
  rw [← hpl, ← hpl] at h
  obtain ⟨hdiv, hmod⟩ := hf.inj h
  have hk := Int.mul_ediv_add_emod ((along (im.axlen 0) (im.axlen 1) st).before + k) (along (im.axlen 0) (im.axlen 1) st).len
  rw [hdiv, hmod, Int.mul_ediv_add_emod] at hk
  omega

/-- The words at the places of the pixels do not overlap. -/
theorem placeWord_apart (hpix : im.pixsize = 4) (hax : im.axlen 0 < 2 ^ 31) (hacc : Accepted (im.axlen 0) (im.axlen 1) st)
    (hstep : |(along (im.axlen 0) (im.axlen 1) st).step| = 1)
    (hin : ∀ k < st.npix.toNat, InImage im (place (im.axlen 0) (im.axlen 1) st k))
    (hread : ∀ k < st.npix.toNat, (pixelAt pixels (st.offset + st.stride * k)).isSome) :
    ((List.range st.npix.toNat).map (placeWord im pixels st)).Pairwise Word.Apart := by
  have hlen : ∀ k < st.npix.toNat, (placeWord im pixels st k).bytes.length = 4 := fun k hk => length_placeWord (hread k hk)
  rw [List.pairwise_map]
  refine List.pairwise_lt_range.imp_of_mem fun {k k'} hk hk' hlt => ?_
  rw [List.mem_range] at hk hk'
  have hne : place (im.axlen 0) (im.axlen 1) st k ≠ place (im.axlen 0) (im.axlen 1) st k' := by
    intro h
    have heq := place_inj hax hacc hstep h
    omega
  unfold Word.Apart Word.stop
  rw [hlen k hk, hlen k' hk']
  exact address_apart hpix (hin k hk) (hin k' hk') hne

theorem before_bounds {axlen1 axlen2 : Int} (hacc : Accepted axlen1 axlen2 st) :
    0 ≤ (along axlen1 axlen2 st).before ∧ (along axlen1 axlen2 st).before < (along axlen1 axlen2 st).len := by
  obtain ⟨hx0, hx1⟩ := hacc.x0
  obtain ⟨hy0, hy1⟩ := hacc.y0
  unfold along
  split
  · unfold Axis.before
    dsimp only
    split <;> omega
  · unfold Axis.before
    dsimp only
    split <;> omega

/-- `WritePixels` has a result just when the pixels are in the buffer; its words are those at the places just when the
addresses of the pixels that begin a line or a column are right. -/
theorem writePixels_words (hax : im.axlen 0 < 2 ^ 31) (hacc : Accepted (im.axlen 0) (im.axlen 1) st)
    (hstep : |(along (im.axlen 0) (im.axlen 1) st).step| = 1) (pixels : List UInt8) (io : IORegion) :
    ∃ ws, ((∃ r, writePixels io (im.axlen 0) (im.axlen 1) pixels st m = some r) ↔
        ∀ k < st.npix.toNat, (pixelAt pixels (st.offset + st.stride * k)).isSome) ∧
      (∀ r, writePixels io (im.axlen 0) (im.axlen 1) pixels st m = some r → r = (m.stores ws, true)) ∧
      ((0 < st.npix.toNat → im.pixsize = 4) → (ws = (List.range st.npix.toNat).map (placeWord im pixels st) ↔
        ∀ k < st.npix.toNat, (along (im.axlen 0) (im.axlen 1) st).Begins k →
          let p := place (im.axlen 0) (im.axlen 1) st k
          io.pixel2D p.1 p.2 = address im p)) := by
  obtain ⟨shift, ostep, room, next, pl, hf, hstart, hpl, haddr, hwrite⟩ := exists_lines hax hacc hstep
  obtain ⟨h0, hlt⟩ := before_bounds hacc
  have hx : st.x0 = (pl 0 (along (im.axlen 0) (im.axlen 1) st).before).1 := by rw [hstart]
  have hy : st.y0 = (pl 0 (along (im.axlen 0) (im.axlen 1) st).before).2 := by rw [hstart]
  refine ⟨loopWords io pixels st.stride ostep room next (st.npix.toNat + 1) st.npix st.x0 st.y0 st.offset, ?_,
    fun r hr => ?_, fun hpix => ?_⟩
  · rw [hwrite]
    have hmap (o : Option Memory) : (∃ r, o.map (·, true) = some r) ↔ ∃ m', o = some m' := by
      cases o <;> simp
    rw [hmap, fillLoop_iff shift, hx, hy, hf.loopCopies h0 hlt (Nat.le_succ _), List.forall_mem_map]
    refine (and_iff_right (hf.leftAfter h0 hlt (Nat.le_succ _))).trans ?_
    exact forall_congr' fun k => imp_congr_left List.mem_range
  · rw [hwrite] at hr
    obtain ⟨m', hm, rfl⟩ := Option.map_eq_some_iff.mp hr
    rw [fillLoop_words hm]
  · rcases Nat.eq_zero_or_pos st.npix.toNat with hzero | hpos
    · rw [hzero, loopWords, if_neg (by omega)]
      simp
    have hwords := hf.loopWords_iff io pixels st.stride 0 st.offset (haddr (hpix hpos)) h0 hlt (Nat.le_succ st.npix.toNat)
    rw [← hx, ← hy] at hwords
    simp only [Int.zero_add, hpl] at hwords
    exact hwords

/-- For every image, of any size and pixel type, and every accepted stream whose step along its lines or columns is one
pixel and whose pixels have a place in the image: `WritePixels` stores the pixels at their places just when the image has
pixels of four bytes, the pixels of the stream are in the buffer, and the byte offset of every pixel that begins the
stream, a line or a column is an `int`. -/
theorem placement_iff (hax : im.axlen 0 < 2 ^ 31) (hacc : Accepted (im.axlen 0) (im.axlen 1) st)
    (hstep : |(along (im.axlen 0) (im.axlen 1) st).step| = 1)
    (hin : ∀ k < st.npix.toNat, InImage im (place (im.axlen 0) (im.axlen 1) st k)) :
    (∃ m', writePixels (im.ioRegion r) (im.axlen 0) (im.axlen 1) pixels st m = some (m', true) ∧
        Places im pixels st m m') ↔
      (0 < st.npix.toNat → im.pixsize = 4) ∧
        (∀ k < st.npix.toNat, (pixelAt pixels (st.offset + st.stride * k)).isSome) ∧
        ∀ k < st.npix.toNat, (along (im.axlen 0) (im.axlen 1) st).Begins k →
          let p := place (im.axlen 0) (im.axlen 1) st k
          (p.2 * im.axlen 0 + p.1) * 4 < 2 ^ 31 := by
  obtain ⟨ws, hres, hstores, hws⟩ := writePixels_words (m := m) hax hacc hstep pixels (im.ioRegion r)
  have hfits (hpix : 0 < st.npix.toNat → im.pixsize = 4) :
      (∀ k < st.npix.toNat, (along (im.axlen 0) (im.axlen 1) st).Begins k →
          let p := place (im.axlen 0) (im.axlen 1) st k
          (im.ioRegion r).pixel2D p.1 p.2 = address im p) ↔
        ∀ k < st.npix.toNat, (along (im.axlen 0) (im.axlen 1) st).Begins k →
          let p := place (im.axlen 0) (im.axlen 1) st k
          (p.2 * im.axlen 0 + p.1) * 4 < 2 ^ 31 :=
    forall₂_congr fun k hk => imp_congr_right fun _ =>
      pixel2D_iff (hpix (Nat.zero_lt_of_lt hk)) hax (hin k hk).1 (hin k hk).2.1
  constructor
  · rintro ⟨m', hm, hplaces⟩
    have hread := hres.mp ⟨_, hm⟩
    have hpix : 0 < st.npix.toNat → im.pixsize = 4 := by
      intro hpos
      rw [← hplaces.whole 0 hpos, length_placeWord (hread 0 hpos)]
      rfl
    refine ⟨hpix, hread, ?_⟩
    rw [← hfits hpix, ← hws hpix]
    obtain ⟨rfl, -⟩ := Prod.mk.inj (hstores _ hm)
    exact List.append_cancel_left hplaces.log
  · rintro ⟨hpix, hread, hbegin⟩
    rw [← hfits hpix, ← hws hpix] at hbegin
    subst hbegin
    obtain ⟨res, hm⟩ := hres.mpr hread
    obtain rfl := hstores _ hm
    refine ⟨_, hm, fun k hk => ?_, rfl, fun k hk => ?_, fun a ha => ?_⟩
    · rw [length_placeWord (hread k hk), hpix (Nat.zero_lt_of_lt hk)]
      rfl
    · have happart := placeWord_apart (hpix (Nat.zero_lt_of_lt hk)) hax hacc hstep hin hread
      obtain ⟨v, hv⟩ := Option.isSome_iff_exists.mp (hread k hk)
      refine ⟨v, hv, fun b hb => ?_⟩
      have hword : placeWord im pixels st k = ⟨address im (place (im.axlen 0) (im.axlen 1) st k), v⟩ := by
        rw [placeWord, hv]
        rfl
      have hmem := List.mem_map_of_mem (f := placeWord im pixels st) (List.mem_range.mpr hk)
      rw [hword] at hmem
      exact putAll_of_mem happart hmem (by rw [length_pixelAt hv]; exact hb)
    · refine putAll_of_outside ?_
      rw [List.forall_mem_map]
      exact fun k hk => ha k (List.mem_range.mp hk)

/-- An image of `int`s with as many lines as columns -/
def square (n : Int) : Dsim.Image := ⟨0, 2, fun _ => n, 5, 4, 0, 0, 0, 0⟩

/-- A line of ten pixels -/
theorem placement_line :
    ∃ m', writePixels ((square 10).ioRegion 0) 10 10 (List.replicate 40 0) (tenPixels 0) ⟨fun _ => 1, []⟩ =
        some (m', true) ∧
      Places (square 10) (List.replicate 40 0) (tenPixels 0) ⟨fun _ => 1, []⟩ m' := by
  have hacc : Accepted 10 10 (tenPixels 0) := tenPixels_accepted (by decide) (by decide)
  have hin : ∀ k < (tenPixels 0).npix.toNat, InImage (square 10) (place 10 10 (tenPixels 0) (k : Nat)) := by
    decide
  exact (@placement_iff (square 10) _ (tenPixels 0) _ 0 (by decide) hacc (by decide) hin).mpr
    ⟨fun _ => rfl, by decide, by decide⟩

/-- The thirty thousandth line of an image of forty thousand lines and columns -/
def farLine : Stream := ⟨0, 1, 1, 1, 0, 30000, 1, 1, 0⟩

/-- The offset of a pixel of this line is not an `int`. -/
theorem placement_not :
    ¬ ∀ (im : Dsim.Image) (pixels : List UInt8) (st : Stream) (r : Nat) (m : Memory),
      im.axlen 0 < 2 ^ 31 → Accepted (im.axlen 0) (im.axlen 1) st → im.pixsize = 4 →
      |(along (im.axlen 0) (im.axlen 1) st).step| = 1 →
      (∀ k < st.npix.toNat, InImage im (place (im.axlen 0) (im.axlen 1) st k)) →
      (∀ k < st.npix.toNat, (pixelAt pixels (st.offset + st.stride * k)).isSome) →
      ∃ m', writePixels (im.ioRegion r) (im.axlen 0) (im.axlen 1) pixels st m = some (m', true) ∧
        Places im pixels st m m' := by
  intro h
  have hacc : Accepted 40000 40000 farLine := ⟨by decide, by decide, by decide, by decide, by decide, by decide⟩
  obtain ⟨m', hm, hplaces⟩ : ∃ m', writePixels ((square 40000).ioRegion 0) 40000 40000 [0, 0, 0, 0] farLine
      ⟨fun _ => 1, []⟩ = some (m', true) ∧ Places (square 40000) [0, 0, 0, 0] farLine ⟨fun _ => 1, []⟩ m' :=
    h (square 40000) [0, 0, 0, 0] farLine 0 ⟨fun _ => 1, []⟩ (by decide) hacc rfl (by decide) (by decide) (by decide)
  have hlog := hplaces.log
  have hval : (writePixels ((square 40000).ioRegion 0) 40000 40000 [0, 0, 0, 0] farLine
      ⟨fun _ => 1, []⟩).map (fun r => r.1.log.map Word.addr) = some [505032704] := by
    decide +kernel
  rw [hm, Option.map_some, hlog] at hval
  revert hval
  decide +kernel

end Placement

end Ndhs.Mosdca
