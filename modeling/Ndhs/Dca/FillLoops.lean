import Ndhs.Dca.PixelRegion

/-!
# The loops of `WritePixels` (`mosdca/mosdca.c`)

Each of the four loops fills lines or columns until no pixel is left. A round takes as many pixels as there are before
the end of the line or column. If the step is longer than the axis this is no pixel at all, in every round but perhaps
the first, which begins at the start of the stream: the loop then goes on for ever.

* `pixelsLeft`: the pixels that are left after some rounds. What is read and where it is stored does not matter to it.
* `writePixels_iff`: `WritePixels` has a result just when the loop ends and all pixels that it copies are in the buffer.
* `loopsEnd_iff`: the streams for which the loop ends.
-/

namespace Ndhs.Mosdca

open Dsim Fill Pxf Stores

/-- The pixels that are left after `n` rounds of a loop -/
def leftAfter (room : Int → Int → Int) (next : Int → Int → Int × Int) : Nat → Int → Int → Int → Int
  | 0, nleft, _, _ => nleft
  | n + 1, nleft, i, j =>
    if nleft > 0 then leftAfter room next n (nleft - min nleft (room i j)) (next i j).1 (next i j).2
    else nleft

/-- The pixels that are left after `n` rounds of `WritePixels` -/
def pixelsLeft (axlen1 axlen2 : Int) (st : Stream) (n : Nat) : Int :=
  let dx := st.xstep
  let dy := st.ystep
  let fill (room : Int → Int → Int) (next : Int → Int → Int × Int) : Int :=
    leftAfter room next n st.npix st.x0 st.y0
  if st.xydir ≠ 0 ∧ dy > 0 then fill (fun _ j => (axlen2 - j).tdiv |dy|) fun i _ => (i + dx, 0)
  else if st.xydir ≠ 0 ∧ dy < 0 then fill (fun _ j => (j + 1).tdiv |dy|) fun i _ => (i + dx, axlen2 - 1)
  else if st.xydir = 0 ∧ dx > 0 then fill (fun i _ => (axlen1 - i).tdiv |dx|) fun _ j => (0, j + dy)
  else if st.xydir = 0 ∧ dx < 0 then fill (fun i _ => (i + 1).tdiv |dx|) fun _ j => (axlen1 - 1, j + dy)
  else 0

/-- After some rounds no pixel is left. -/
def LoopsEnd (axlen1 axlen2 : Int) (st : Stream) : Prop := ∃ n, pixelsLeft axlen1 axlen2 st n ≤ 0

section Loop

variable {io : IORegion} {pixels : List UInt8} {istep ostep : Int} {shift : Int × Int} {room : Int → Int → Int}
  {next : Int → Int → Int × Int} {n : Nat} {nleft i j ip : Int} {m m' : Memory}

/-- Copying goes through just when all pixels are in the buffer. -/
theorem copyLoop_iff {n : Nat} {op : Int} :
    (∃ r, copyLoop pixels istep ostep n ip op m = some r) ↔ ∀ k < n, (pixelAt pixels (ip + istep * k)).isSome := by
  constructor
  · rintro ⟨r, hr⟩ k hk
    rw [copyLoop_reads hr k hk]
    rfl
  · intro h
    refine ⟨_, copyLoop_eq (v := fun k => (pixelAt pixels (ip + istep * k)).getD []) (fun k hk => ?_) m⟩
    obtain ⟨v, hv⟩ := Option.isSome_iff_exists.mp (h k hk)
    rw [hv]
    rfl

/-- A loop has a result just when no pixel is left, and all pixels that it copies are in the buffer. -/
theorem fillLoop_iff (shift : Int × Int) :
    (∃ m', fillLoop io pixels istep ostep room next n nleft i j ip m = some m') ↔
      leftAfter room next n nleft i j ≤ 0 ∧
        ∀ c ∈ loopCopies istep shift room next n nleft i j ip, (pixelAt pixels c.ip).isSome := by
  induction n generalizing nleft i j ip m with
  | zero =>
    simp [fillLoop, leftAfter, loopCopies]
  | succ n ih =>
    rw [fillLoop, leftAfter, loopCopies]
    by_cases hpos : nleft > 0
    · rw [if_pos hpos, if_pos hpos, if_pos hpos]
      dsimp only
      rw [List.forall_mem_append]
      have hrun : (∀ c ∈ runCopies istep shift (min nleft (room i j)).toNat i j ip, (pixelAt pixels c.ip).isSome) ↔
          ∀ k < (min nleft (room i j)).toNat, (pixelAt pixels (ip + istep * k)).isSome := by
        rw [runCopies, List.forall_mem_map]
        exact forall_congr' fun k => imp_congr_left List.mem_range
      rw [hrun]
      by_cases hread : ∀ k < (min nleft (room i j)).toNat, (pixelAt pixels (ip + istep * k)).isSome
      · have hvals : ∀ k < (min nleft (room i j)).toNat,
            pixelAt pixels (ip + istep * k) = some ((pixelAt pixels (ip + istep * k)).getD []) := by
          intro k hk
          obtain ⟨v, hv⟩ := Option.isSome_iff_exists.mp (hread k hk)
          rw [hv]
          rfl
        rw [copyLoop_eq hvals, Option.bind_some]
        dsimp only
        rw [ih]
        exact and_congr_right fun _ => (and_iff_right hread).symm
      · refine ⟨?_, fun h => absurd h.2.1 hread⟩
        rintro ⟨m', hm⟩
        obtain ⟨r, hr, -⟩ := Option.bind_eq_some_iff.mp hm
        exact absurd (copyLoop_iff.mp ⟨r, hr⟩) hread
    · simp [hpos]
      omega

/-- The pixels that the rounds have room for are gone, where each line but the first has room for `width`. -/
theorem leftAfter_eq {first width : Nat} (hfirst : room i j = first)
    (hwidth : ∀ i j, room (next i j).1 (next i j).2 = width) :
    leftAfter room next n nleft i j = nleft - min nleft.toNat (Fill.room first width n) := by
  induction n generalizing first nleft i j with
  | zero => simp [leftAfter, Fill.room]
  | succ n ih =>
    rw [leftAfter]
    split
    · rw [hfirst, ih (hwidth i j), room_succ]
      omega
    · omega

end Loop

section Streams

variable {axlen1 axlen2 : Int} {st : Stream} {n : Nat}

/-- The pixels that the rounds have room for, along the axis of the lines or columns -/
theorem pixelsLeft_eq (h : Accepted axlen1 axlen2 st) :
    pixelsLeft axlen1 axlen2 st n = st.npix - min st.npix.toNat
      (Fill.room (along axlen1 axlen2 st).first (along axlen1 axlen2 st).width n) := by
  obtain ⟨shift, room, next, hl, hloop⟩ := exists_loop h
  have hleft : pixelsLeft axlen1 axlen2 st n = loopOf axlen1 axlen2 st
      (fun _ room next => leftAfter room next n st.npix st.x0 st.y0) 0 := rfl
  rw [hleft, hloop]
  exact leftAfter_eq hl.first hl.width

/-- One round is enough if the first line or column has room for all pixels, and one for each pixel if the others have
room for any. -/
theorem pixelsLeft_iff (h : Accepted axlen1 axlen2 st) :
    (∃ n, pixelsLeft axlen1 axlen2 st n ≤ 0) ↔ pixelsLeft axlen1 axlen2 st (st.npix.toNat + 1) ≤ 0 := by
  constructor
  · rintro ⟨n, hn⟩
    rw [pixelsLeft_eq h] at hn ⊢
    suffices hroom : st.npix.toNat ≤
        Fill.room (along axlen1 axlen2 st).first (along axlen1 axlen2 st).width (st.npix.toNat + 1) by omega
    rw [Fill.room]
    rcases Nat.eq_zero_or_pos (along axlen1 axlen2 st).width with hw | hw
    · have hle : Fill.room (along axlen1 axlen2 st).first (along axlen1 axlen2 st).width n ≤
          (along axlen1 axlen2 st).first := by
        cases n with
        | zero => exact Nat.zero_le _
        | succ n => rw [Fill.room, hw, Nat.mul_zero, Nat.add_zero]
      omega
    · have hle := Nat.le_mul_of_pos_right st.npix.toNat hw
      omega
  · intro hn
    exact ⟨_, hn⟩

/-- `WritePixels` has a result just when its loop ends and the pixels that it copies are in the buffer. -/
theorem writePixels_iff (h : Accepted axlen1 axlen2 st) (io : IORegion) (pixels : List UInt8) (m : Memory) :
    (∃ r, writePixels io axlen1 axlen2 pixels st m = some r) ↔
      LoopsEnd axlen1 axlen2 st ∧
        ∀ c ∈ copies axlen1 axlen2 st (st.npix.toNat + 1), (pixelAt pixels c.ip).isSome := by
  have hmap (o : Option Memory) : (∃ r, o.map (·, true) = some r) ↔ ∃ m', o = some m' := by
    cases o <;> simp
  have hdx := h.xstep
  have hdy := h.ystep
  rw [LoopsEnd, pixelsLeft_iff h]
  unfold writePixels pixelsLeft copies
  dsimp only
  split
  · rw [hmap, fillLoop_iff (0, st.ystep)]
  · split
    · rw [hmap, fillLoop_iff (0, st.ystep)]
    · split
      · rw [hmap, fillLoop_iff (st.xstep, 0)]
      · split
        · rw [hmap, fillLoop_iff (st.xstep, 0)]
        · omega

theorem room_start_eq (h : Accepted axlen1 axlen2 st) :
    (along axlen1 axlen2 st).room (along axlen1 axlen2 st).start = (along axlen1 axlen2 st).first := by
  obtain ⟨hx0, hx1⟩ := h.x0
  obtain ⟨hy0, hy1⟩ := h.y0
  unfold along
  split
  · exact Axis.first_eq hy0 hy1
  · exact Axis.first_eq hx0 hx1

/-- For every stream that is accepted: the loop ends just when the pixels are no more than the first line or column has
room for, or the step is not longer than the axis. -/
theorem loopsEnd_iff (h : Accepted axlen1 axlen2 st) :
    LoopsEnd axlen1 axlen2 st ↔
      let a := along axlen1 axlen2 st
      st.npix ≤ a.room a.start ∨ |a.step| ≤ a.len := by
  have hlen := h.along.1
  have habs : 0 < |(along axlen1 axlen2 st).step| := abs_pos.mpr h.along.2
  have hwidth : |(along axlen1 axlen2 st).step| ≤ (along axlen1 axlen2 st).len ↔
      0 < (along axlen1 axlen2 st).width := by
    rw [← Int.natCast_pos, ← Axis.width_eq hlen, Int.tdiv_eq_ediv_of_nonneg hlen.le, ← Int.add_one_le_iff, Int.zero_add,
      Int.le_ediv_iff_mul_le habs, Int.one_mul]
  dsimp only
  rw [LoopsEnd, pixelsLeft_iff h, pixelsLeft_eq h, room_start_eq h, hwidth, Fill.room]
  generalize (along axlen1 axlen2 st).width = width
  rcases Nat.eq_zero_or_pos width with hw | hw
  · rw [hw, Nat.mul_zero, Nat.add_zero]
    omega
  · have hle := Nat.le_mul_of_pos_right st.npix.toNat hw
    omega

end Streams

/-! ## Two streams -/

/-- Ten pixels of a line of ten lie in it. -/
theorem loopsEnd_line : LoopsEnd 10 10 (tenPixels 0) :=
  (loopsEnd_iff (tenPixels_accepted (by decide) (by decide))).mpr (.inr (by decide))

/-- Two pixels of a line of ten, twenty columns apart -/
def farPixels : Stream := ⟨0, 2, 1, 1, 0, 0, 20, 1, 0⟩

/-- No line has room for a pixel. -/
theorem loopsEnd_not :
    ¬ ∀ (axlen1 axlen2 : Int) (st : Stream), Accepted axlen1 axlen2 st → LoopsEnd axlen1 axlen2 st := by
  intro h
  have haccepted : Accepted 10 10 farPixels :=
    ⟨by decide, by decide, by decide, by decide, by decide, by decide⟩
  have hends := (pixelsLeft_iff haccepted).mp (h 10 10 farPixels haccepted)
  revert hends
  decide +kernel

end Ndhs.Mosdca
