import Ndhs.Dca.Contexts

/-!
# Pixel buffers of the DCA

A `WritePixHeader` message allocates a stream table and a pixel buffer, and the `WritePixPixels` message
that follows it writes the pixels to the image and frees both. In between the two blocks are known only
from the pointers in the context. A header overwrites the pointers without a look at them, the end of a
readout frees neither block, and the pointers stay after the blocks are freed.

* `Server.Owned`: every allocated block is one of the two blocks of a header, in an active context with
  the number of the header. A block that is not is lost: nothing will free it.
* `Server.Safe`: a message leaves every block owned, and a pixel message does what it is for: a
  `WritePixPixels` takes the two blocks of one header of the same number, or is dropped.
* `pixels_safe_iff`: the runs of safe messages. A header comes only while no other one is pending in its
  context, pixels come only while one is, and a context is freed only while none is.
-/

namespace Ndhs.Mosdca

open Function Machine

/-- What the ownership of the blocks depends on. -/
def Context.ptrs (c : Context) : Int × Option Nat × Option Nat := (c.seqno, c.streams, c.pixels)

namespace Server

variable {s t u : Server} {i j k : Slot} {q : Int} {a b : Nat} {h : Header} {f : Context → Context}

/-- The context points to the block. -/
def Points (s : Server) (i : Slot) (b : Nat) : Prop :=
  (s.ctx i).streams = some b ∨ (s.ctx i).pixels = some b

/-- The context has the stream table `a` and the pixel buffer `b` of the header `h`. -/
structure Holds (s : Server) (i : Slot) (a b : Nat) (h : Header) : Prop where
  streams : (s.ctx i).streams = some a
  pixels : (s.ctx i).pixels = some b
  ne : a ≠ b
  liveStreams : s.live a = some h
  livePixels : s.live b = some h

/-- Every allocated block belongs to a header of an active context. -/
def Owned (s : Server) : Prop :=
  ∀ b h, s.live b = some h →
    ∃ i a c, s.Holds i a c h ∧ (b = a ∨ b = c) ∧ (s.ctx i).seqno = h.seqno ∧ h.seqno ≠ 0

/-- A header is pending: the stream table is allocated. -/
def Pending (s : Server) (i : Slot) : Prop := ∃ a h, (s.ctx i).streams = some a ∧ s.live a = some h

/-- The invariant. A pointer may be to a block that is free, but not to one that is yet to come, and no
two contexts point to the same allocated block. -/
structure Tidy (s : Server) : Prop where
  owned : s.Owned
  fresh : ∀ b, s.next ≤ b → s.live b = none
  bound : ∀ i b, s.Points i b → b < s.next
  sep : ∀ i j b h, s.live b = some h → s.Points i b → s.Points j b → i = j

theorem Holds.points_left (hh : s.Holds i a b h) : s.Points i a := .inl hh.streams

theorem Holds.points_right (hh : s.Holds i a b h) : s.Points i b := .inr hh.pixels

theorem Holds.pending (hh : s.Holds i a b h) : s.Pending i := ⟨a, h, hh.streams, hh.liveStreams⟩

/-- A context that points to an allocated block has both blocks of a header. -/
theorem Tidy.holds (hs : s.Tidy) (hp : s.Points i b) (hl : s.live b = some h) :
    ∃ a c, s.Holds i a c h ∧ (b = a ∨ b = c) ∧ (s.ctx i).seqno = h.seqno ∧ h.seqno ≠ 0 := by
  obtain ⟨j, a, c, hh, hb, hn⟩ := hs.owned b h hl
  have hpj : s.Points j b := by
    rcases hb with rfl | rfl
    · exact hh.points_left
    · exact hh.points_right
  obtain rfl := hs.sep i j b h hl hp hpj
  exact ⟨a, c, hh, hb, hn⟩

theorem Tidy.pending_holds (hs : s.Tidy) (hp : s.Pending i) :
    ∃ a b h, s.Holds i a b h ∧ (s.ctx i).seqno = h.seqno ∧ h.seqno ≠ 0 := by
  obtain ⟨a, h, ha, hl⟩ := hp
  obtain ⟨a', c, hh, -, hn⟩ := hs.holds (.inl ha) hl
  exact ⟨a', c, h, hh, hn⟩

/-- A context without a pending header points to no allocated block. -/
theorem Tidy.not_points (hs : s.Tidy) (hn : ¬ s.Pending i) (hl : s.live b = some h) :
    ¬ s.Points i b := by
  intro hp
  obtain ⟨a, c, hh, -⟩ := hs.holds hp hl
  exact hn hh.pending

/-! ## Messages that leave the blocks alone -/

/-- The blocks and the pointers are the same. -/
structure Alike (s t : Server) : Prop where
  ptrs : ∀ i, (t.ctx i).ptrs = (s.ctx i).ptrs
  live : t.live = s.live
  next : t.next = s.next

theorem Same.alike (hs : Same s t) : Alike s t where
  ptrs i := by
    have hkey := hs.key i
    simp only [Context.key, Prod.mk.injEq] at hkey
    simp only [Context.ptrs, hkey]
  live := hs.live
  next := hs.next

theorem Alike.trans (h : Alike s t) (h' : Alike t u) : Alike s u :=
  ⟨fun i => (h'.ptrs i).trans (h.ptrs i), h'.live.trans h.live, h'.next.trans h.next⟩

theorem Alike.symm (h : Alike s t) : Alike t s :=
  ⟨fun i => (h.ptrs i).symm, h.live.symm, h.next.symm⟩

theorem Alike.withPar (s : Server) (p : Params) : Alike s (s.withPar p) := ⟨fun _ => rfl, rfl, rfl⟩

theorem Alike.modify (s : Server) (i : Slot) (hf : (f (s.ctx i)).ptrs = (s.ctx i).ptrs) :
    Alike s (s.modify i f) := by
  refine ⟨fun j => ?_, rfl, rfl⟩
  rw [modify_ctx]
  split
  · rename_i h
    rw [h, hf]
  · rfl

theorem Alike.fields (h : Alike s t) (i : Slot) :
    (t.ctx i).seqno = (s.ctx i).seqno ∧ (t.ctx i).streams = (s.ctx i).streams ∧
      (t.ctx i).pixels = (s.ctx i).pixels := by
  have hp := h.ptrs i
  simp only [Context.ptrs, Prod.mk.injEq] at hp
  exact hp

theorem Alike.holds (h : Alike s t) {hd : Header} (hh : s.Holds i a b hd) : t.Holds i a b hd := by
  obtain ⟨-, hst, hpx⟩ := h.fields i
  exact ⟨hst.trans hh.streams, hpx.trans hh.pixels, hh.ne, by rw [h.live, hh.liveStreams],
    by rw [h.live, hh.livePixels]⟩

theorem Alike.owned (h : Alike s t) (ho : s.Owned) : t.Owned := by
  intro b hd hl
  rw [h.live] at hl
  obtain ⟨i, a, c, hh, hb, hn, h0⟩ := ho b hd hl
  exact ⟨i, a, c, h.holds hh, hb, (h.fields i).1.trans hn, h0⟩

theorem Alike.points (h : Alike s t) : t.Points i b ↔ s.Points i b := by
  obtain ⟨-, hst, hpx⟩ := h.fields i
  rw [Points, Points, hst, hpx]

theorem Alike.pending (h : Alike s t) : t.Pending i ↔ s.Pending i := by
  obtain ⟨-, hst, -⟩ := h.fields i
  rw [Pending, Pending, hst, h.live]

theorem Alike.tidy (h : Alike s t) (hs : s.Tidy) : t.Tidy where
  owned := h.owned hs.owned
  fresh b hb := by
    rw [h.live]
    exact hs.fresh b (h.next ▸ hb)
  bound i b hp := by
    rw [h.next]
    exact hs.bound i b (h.points.mp hp)
  sep i j b hd hl hi hj := by
    rw [h.live] at hl
    exact hs.sep i j b hd hl (h.points.mp hi) (h.points.mp hj)

/-! ## One context changes -/

/-- The other contexts and their pointers are the same. -/
def Beside (s t : Server) (i : Slot) : Prop := ∀ j, j ≠ i → (t.ctx j).ptrs = (s.ctx j).ptrs

theorem Beside.fields (hb : Beside s t i) (hj : j ≠ i) :
    (t.ctx j).seqno = (s.ctx j).seqno ∧ (t.ctx j).streams = (s.ctx j).streams ∧
      (t.ctx j).pixels = (s.ctx j).pixels := by
  have hp := hb j hj
  simp only [Context.ptrs, Prod.mk.injEq] at hp
  exact hp

theorem Beside.points (hb : Beside s t i) (hj : j ≠ i) : t.Points j b ↔ s.Points j b := by
  obtain ⟨-, hst, hpx⟩ := hb.fields hj
  rw [Points, Points, hst, hpx]

/-- A context without a pending header is written, and points to no allocated block afterwards. -/
theorem Tidy.put (hs : s.Tidy) (hn : ¬ s.Pending i) (hb : Beside s t i) (hlive : t.live = s.live)
    (hnext : s.next ≤ t.next) (hbound : ∀ b, t.Points i b → b < t.next)
    (hdead : ∀ b, t.Points i b → t.live b = none) : t.Tidy where
  owned b h hl := by
    rw [hlive] at hl
    obtain ⟨j, a, c, hh, hbac, hseq, h0⟩ := hs.owned b h hl
    have hj : j ≠ i := by
      rintro rfl
      exact hn hh.pending
    obtain ⟨hsq, hst, hpx⟩ := hb.fields hj
    refine ⟨j, a, c, ⟨hst.trans hh.streams, hpx.trans hh.pixels, hh.ne, ?_, ?_⟩, hbac, hsq.trans hseq, h0⟩
    · rw [hlive, hh.liveStreams]
    · rw [hlive, hh.livePixels]
  fresh b hle := by
    rw [hlive]
    exact hs.fresh b (Nat.le_trans hnext hle)
  bound j b hp := by
    by_cases hj : j = i
    · subst hj
      exact hbound b hp
    · exact Nat.lt_of_lt_of_le (hs.bound j b ((hb.points hj).mp hp)) hnext
  sep j k b h hl hpj hpk := by
    have hji : j ≠ i := by
      rintro rfl
      rw [hdead b hpj] at hl
      cases hl
    have hki : k ≠ i := by
      rintro rfl
      rw [hdead b hpk] at hl
      cases hl
    rw [hlive] at hl
    exact hs.sep j k b h hl ((hb.points hji).mp hpj) ((hb.points hki).mp hpk)

/-- A context without a pending header takes the two blocks of a new one. -/
theorem Tidy.take (hs : s.Tidy) (hn : ¬ s.Pending i) (hb : Beside s t i)
    (hlive : t.live = update (update s.live s.next (some h)) (s.next + 1) (some h))
    (hnext : t.next = s.next + 2) (hst : (t.ctx i).streams = some s.next)
    (hpx : (t.ctx i).pixels = some (s.next + 1)) (hseq : (t.ctx i).seqno = h.seqno) (h0 : h.seqno ≠ 0) :
    t.Tidy := by
  have hla : t.live s.next = some h := by
    rw [hlive, update_of_ne (by omega), update_self]
  have hlb : t.live (s.next + 1) = some h := by rw [hlive, update_self]
  have hold : t.Holds i s.next (s.next + 1) h := ⟨hst, hpx, by omega, hla, hlb⟩
  have hother : ∀ b, b ≠ s.next → b ≠ s.next + 1 → t.live b = s.live b := by
    intro b h1 h2
    rw [hlive, update_of_ne h2, update_of_ne h1]
  have hi : ∀ b, t.Points i b → b = s.next ∨ b = s.next + 1 := by
    rintro b (hp | hp)
    · rw [hst] at hp
      exact .inl (Option.some.inj hp).symm
    · rw [hpx] at hp
      exact .inr (Option.some.inj hp).symm
  have hlt : ∀ j b, j ≠ i → t.Points j b → b < s.next := fun j b hj hp =>
    hs.bound j b ((hb.points hj).mp hp)
  refine ⟨fun b hd hl => ?_, fun b hle => ?_, fun j b hp => ?_, fun j k b hd hl hpj hpk => ?_⟩
  · by_cases h1 : b = s.next
    · rw [h1, hla] at hl
      cases hl
      exact ⟨i, _, _, hold, .inl h1, hseq, h0⟩
    · by_cases h2 : b = s.next + 1
      · rw [h2, hlb] at hl
        cases hl
        exact ⟨i, _, _, hold, .inr h2, hseq, h0⟩
      · rw [hother b h1 h2] at hl
        obtain ⟨j, a, c, hh, hbac, hsj, hd0⟩ := hs.owned b hd hl
        have hj : j ≠ i := by
          rintro rfl
          exact hn hh.pending
        obtain ⟨hsq, hstj, hpxj⟩ := hb.fields hj
        have ha := hs.bound j a hh.points_left
        have hc := hs.bound j c hh.points_right
        refine ⟨j, a, c, ⟨hstj.trans hh.streams, hpxj.trans hh.pixels, hh.ne, ?_, ?_⟩, hbac,
          hsq.trans hsj, hd0⟩
        · rw [hother a (by omega) (by omega), hh.liveStreams]
        · rw [hother c (by omega) (by omega), hh.livePixels]
  · rw [hother b (by omega) (by omega)]
    exact hs.fresh b (by omega)
  · by_cases hj : j = i
    · subst hj
      have := hi b hp
      omega
    · have := hlt j b hj hp
      omega
  · by_cases hji : j = i <;> by_cases hki : k = i
    · rw [hji, hki]
    · subst hji
      have h1 := hi b hpj
      have h2 := hlt k b hki hpk
      omega
    · subst hki
      have h1 := hi b hpk
      have h2 := hlt j b hji hpj
      omega
    · have h1 := hlt j b hji hpj
      rw [hother b (by omega) (by omega)] at hl
      exact hs.sep j k b hd hl ((hb.points hji).mp hpj) ((hb.points hki).mp hpk)

/-- The two blocks of a pending header are freed. -/
theorem Tidy.release (hs : s.Tidy) (hh : s.Holds i a b h) (hp : ∀ j, (t.ctx j).ptrs = (s.ctx j).ptrs)
    (hlive : t.live = update (update s.live b none) a none) (hnext : t.next = s.next) : t.Tidy := by
  have hfields : ∀ j, (t.ctx j).seqno = (s.ctx j).seqno ∧ (t.ctx j).streams = (s.ctx j).streams ∧
      (t.ctx j).pixels = (s.ctx j).pixels := by
    intro j
    have hpj := hp j
    simp only [Context.ptrs, Prod.mk.injEq] at hpj
    exact hpj
  have hpoints : ∀ j b, t.Points j b → s.Points j b := by
    intro j b hpt
    obtain ⟨-, hst, hpx⟩ := hfields j
    rw [Points, hst, hpx] at hpt
    exact hpt
  have hlive' : ∀ c hd, t.live c = some hd → c ≠ a ∧ c ≠ b ∧ s.live c = some hd := by
    intro c hd hl
    rw [hlive, update_apply, update_apply] at hl
    split at hl
    · cases hl
    · split at hl
      · cases hl
      · exact ⟨‹_›, ‹_›, hl⟩
  refine ⟨fun c hd hl => ?_, fun c hle => ?_, fun j c hpt => ?_, fun j k c hd hl hpj hpk => ?_⟩
  · obtain ⟨hca, hcb, hl⟩ := hlive' c hd hl
    obtain ⟨j, a', c', hh', hcc, hseq, h0⟩ := hs.owned c hd hl
    obtain ⟨hsq, hst, hpx⟩ := hfields j
    have hj : j ≠ i := by
      rintro rfl
      have h1 : a' = a := Option.some.inj (hh'.streams.symm.trans hh.streams)
      have h2 : c' = b := Option.some.inj (hh'.pixels.symm.trans hh.pixels)
      rcases hcc with rfl | rfl
      · exact hca h1
      · exact hcb h2
    have hne : ∀ d, s.Points j d → s.live d = some hd → d ≠ a ∧ d ≠ b := by
      intro d hd1 hd2
      constructor
      · rintro rfl
        exact hj (hs.sep j i d hd hd2 hd1 hh.points_left)
      · rintro rfl
        exact hj (hs.sep j i d hd hd2 hd1 hh.points_right)
    obtain ⟨ha1, ha2⟩ := hne a' hh'.points_left hh'.liveStreams
    obtain ⟨hc1, hc2⟩ := hne c' hh'.points_right hh'.livePixels
    refine ⟨j, a', c', ⟨hst.trans hh'.streams, hpx.trans hh'.pixels, hh'.ne, ?_, ?_⟩, hcc,
      hsq.trans hseq, h0⟩
    · rw [hlive, update_of_ne ha1, update_of_ne ha2, hh'.liveStreams]
    · rw [hlive, update_of_ne hc1, update_of_ne hc2, hh'.livePixels]
  · have hdead := hs.fresh c (hnext ▸ hle)
    cases hl : t.live c with
    | none => rfl
    | some hd =>
      obtain ⟨-, -, hl'⟩ := hlive' c hd hl
      rw [hdead] at hl'
      cases hl'
  · rw [hnext]
    exact hs.bound j c (hpoints j c hpt)
  · obtain ⟨-, -, hl⟩ := hlive' c hd hl
    exact hs.sep j k c hd hl (hpoints j c hpj) (hpoints k c hpk)

/-- A pending header is overwritten, or its context freed: the stream table is lost. -/
theorem Tidy.lost (hs : s.Tidy) (hh : s.Holds i a b h) (hb : Beside s t i) (hlive : t.live a = some h)
    (hno : t.Points i a → (t.ctx i).seqno = 0) : ¬ t.Owned := by
  intro ho
  obtain ⟨j, a', c', hh', hac, hseq, h0⟩ := ho a h hlive
  have hpj : t.Points j a := by
    rcases hac with rfl | rfl
    · exact hh'.points_left
    · exact hh'.points_right
  by_cases hj : j = i
  · subst hj
    rw [hno hpj] at hseq
    exact h0 hseq.symm
  · exact hj (hs.sep j i a h hh.liveStreams ((hb.points hj).mp hpj) hh.points_left)

/-! ## The operations -/

/-- An entry without a number has no pending header. -/
theorem Tidy.not_pending (hs : s.Tidy) (hi : (s.ctx i).seqno = 0) : ¬ s.Pending i := by
  intro hp
  obtain ⟨a, b, h, -, hseq, h0⟩ := hs.pending_holds hp
  exact h0 (hseq.symm.trans hi)

theorem Tidy.setContext (hs : s.Tidy) (hset : s.setContext q = some (k, u)) : u.Tidy := by
  obtain ⟨-, hk, rfl⟩ := setContext_cases hset
  have hn := hs.not_pending (first_eq_some hk)
  have hno : ∀ b, ¬ ((s.modify k fun _ => s.newContext q).withLast (some k)).Points k b := by
    rintro b (hp | hp)
    · rw [withLast_ctx, modify_ctx_self] at hp
      cases hp
    · rw [withLast_ctx, modify_ctx_self] at hp
      cases hp
  refine hs.put hn (fun j hj => ?_) rfl (Nat.le_refl _) (fun b hp => absurd hp (hno b))
    fun b hp => absurd hp (hno b)
  rw [withLast_ctx, modify_ctx_ne _ _ hj]

/-- What freeing a context does to the pointers: nothing. -/
theorem freeContext_eq (hj : s.scan q = some j) :
    Beside s (s.freeContext q) j ∧ (s.freeContext q).live = s.live ∧ (s.freeContext q).next = s.next ∧
      ((s.freeContext q).ctx j).ptrs = (0, (s.ctx j).streams, (s.ctx j).pixels) := by
  rw [freeContext, hj]
  dsimp only
  refine ⟨fun i hi => ?_, rfl, rfl, ?_⟩
  · rw [withLast_ctx, modify_ctx_ne _ _ hi]
  · rw [withLast_ctx, modify_ctx_self]
    rfl

theorem Tidy.freeContext (hs : s.Tidy) (hn : ∀ j, s.scan q = some j → ¬ s.Pending j) :
    (s.freeContext q).Tidy := by
  cases hj : s.scan q with
  | none =>
    rw [Server.freeContext, hj]
    exact hs
  | some j =>
    obtain ⟨hb, hlive, hnext, hp⟩ := freeContext_eq hj
    simp only [Context.ptrs, Prod.mk.injEq] at hp
    have hpts : ∀ b, (s.freeContext q).Points j b → s.Points j b := by
      intro b h
      rwa [Points, hp.2.1, hp.2.2] at h
    refine hs.put (hn j hj) hb hlive (Nat.le_of_eq hnext.symm) (fun b h => ?_) fun b h => ?_
    · rw [hnext]
      exact hs.bound j b (hpts b h)
    · rw [hlive]
      cases hl : s.live b with
      | none => rfl
      | some hd => exact absurd (hpts b h) (hs.not_points (hn j hj) hl)

theorem Tidy.freeContext_lost (hs : s.Tidy) (hj : s.scan q = some j) (hp : s.Pending j) :
    ¬ (s.freeContext q).Owned := by
  obtain ⟨a, b, h, hh, -⟩ := hs.pending_holds hp
  obtain ⟨hb, hlive, -, hptrs⟩ := freeContext_eq hj
  refine hs.lost hh hb (by rw [hlive, hh.liveStreams]) fun _ => ?_
  exact congrArg Prod.fst hptrs

/-- The three outcomes of a header: both blocks, or one pointer is null and neither is allocated. -/
theorem pixHeader_cases (s : Server) (i : Slot) (q datalen swapped nstreams : Int) (o : PixelOutcome) :
    let t := (s.pixHeader i q datalen swapped nstreams o).1
    Beside s t i ∧ (t.ctx i).seqno = (s.ctx i).seqno ∧
    ((o.streams && o.pixels) = true ∧
        t.live = update (update s.live s.next (some ⟨q, s.next⟩)) (s.next + 1) (some ⟨q, s.next⟩) ∧
        t.next = s.next + 2 ∧ (t.ctx i).streams = some s.next ∧ (t.ctx i).pixels = some (s.next + 1) ∨
      (o.streams && o.pixels) = false ∧ s.live = t.live ∧ t.next = s.next ∧
        (t.ctx i).streams = none ∧ (t.ctx i).pixels = (s.ctx i).pixels ∨
      (o.streams && o.pixels) = false ∧ update (update s.live s.next (some ⟨q, s.next⟩)) s.next none = t.live ∧
        t.next = s.next + 1 ∧ (t.ctx i).streams = some s.next ∧ (t.ctx i).pixels = none) := by
  unfold pixHeader
  dsimp only
  cases hst : o.streams with
  | false =>
    simp only [Bool.false_and, Bool.false_eq_true, if_false, failed]
    refine ⟨fun j hj => ?_, ?_, .inr (.inl ⟨trivial, rfl, rfl, ?_, ?_⟩)⟩
    · simp [hj]
    all_goals simp
  | true =>
    cases hpx : o.pixels with
    | true =>
      simp only [Bool.and_self, if_true]
      refine ⟨fun j hj => ?_, ?_, .inl ⟨trivial, rfl, rfl, ?_, ?_⟩⟩
      · simp [hj]
      all_goals simp
      all_goals rfl
    | false =>
      simp only [Bool.and_false, Bool.false_eq_true, if_false, if_true, failed]
      refine ⟨fun j hj => ?_, ?_, .inr (.inr ⟨trivial, rfl, rfl, ?_, ?_⟩)⟩
      · simp [hj]
      all_goals simp
      all_goals rfl

theorem Tidy.pixHeader (hs : s.Tidy) (hn : ¬ s.Pending i) (hseq : (s.ctx i).seqno = q) (hq : q ≠ 0)
    (datalen swapped nstreams : Int) (o : PixelOutcome) :
    (s.pixHeader i q datalen swapped nstreams o).1.Tidy := by
  obtain ⟨hb, hsq, hcase⟩ := pixHeader_cases s i q datalen swapped nstreams o
  rcases hcase with ⟨-, hlive, hnext, hst, hpx⟩ | ⟨-, hlive, hnext, hst, hpx⟩ | ⟨-, hlive, hnext, hst, hpx⟩
  · exact hs.take hn hb hlive hnext hst hpx (hsq.trans hseq) hq
  · have hpts : ∀ b, (s.pixHeader i q datalen swapped nstreams o).1.Points i b → s.Points i b := by
      rintro b (hp | hp)
      · rw [hst] at hp
        cases hp
      · exact .inr (hpx ▸ hp)
    refine hs.put hn hb hlive.symm (Nat.le_of_eq hnext.symm) (fun b hp => ?_) fun b hp => ?_
    · rw [hnext]
      exact hs.bound i b (hpts b hp)
    · rw [← hlive]
      cases hl : s.live b with
      | none => rfl
      | some hd => exact absurd (hpts b hp) (hs.not_points hn hl)
  · have hsame : s.live = (s.pixHeader i q datalen swapped nstreams o).1.live := by
      rw [← hlive, update_idem, ← hs.fresh s.next (Nat.le_refl _), update_eq_self]
    have hpts : ∀ b, (s.pixHeader i q datalen swapped nstreams o).1.Points i b → b = s.next := by
      rintro b (hp | hp)
      · rw [hst] at hp
        exact (Option.some.inj hp).symm
      · rw [hpx] at hp
        cases hp
    refine hs.put hn hb hsame.symm (by omega) (fun b hp => ?_) fun b hp => ?_
    · have := hpts b hp
      omega
    · rw [← hsame, hpts b hp]
      exact hs.fresh s.next (Nat.le_refl _)

/-- After a header the context does not point to what it pointed to before. -/
theorem pixHeader_live (hs : s.Tidy) (hl : s.live b = some h) (q datalen swapped nstreams : Int)
    (o : PixelOutcome) : (s.pixHeader i q datalen swapped nstreams o).1.live b = some h := by
  have hb : b < s.next := by
    by_contra hle
    rw [hs.fresh b (by omega)] at hl
    cases hl
  obtain ⟨-, -, hcase⟩ := pixHeader_cases s i q datalen swapped nstreams o
  rcases hcase with ⟨-, hlive, -⟩ | ⟨-, hlive, -⟩ | ⟨-, hlive, -⟩
  · rw [hlive, update_of_ne (by omega), update_of_ne (by omega), hl]
  · rw [← hlive, hl]
  · rw [← hlive, update_of_ne (by omega), update_of_ne (by omega), hl]

/-- A header for a context with a pending one. -/
theorem Tidy.pixHeader_lost (hs : s.Tidy) (hh : s.Holds i a b h) (q datalen swapped nstreams : Int)
    (o : PixelOutcome) : ¬ (s.pixHeader i q datalen swapped nstreams o).1.Points i a := by
  have ha := hs.bound i a hh.points_left
  have hb := hs.bound i b hh.points_right
  obtain ⟨-, -, hcase⟩ := pixHeader_cases s i q datalen swapped nstreams o
  rintro (hp | hp)
  · rcases hcase with ⟨-, -, -, hst, -⟩ | ⟨-, -, -, hst, -⟩ | ⟨-, -, -, hst, -⟩
    all_goals
      rw [hst] at hp
      cases hp
    all_goals omega
  · rcases hcase with ⟨-, -, -, -, hpx⟩ | ⟨-, -, -, -, hpx⟩ | ⟨-, -, -, -, hpx⟩
    all_goals rw [hpx] at hp
    · cases hp
      omega
    · rw [hh.pixels] at hp
      exact hh.ne (Option.some.inj hp).symm
    · cases hp

/-- What the second part of a pixel message needs, and what it does. -/
theorem pixPixels_eq_ok {errors : Nat} {out : List Out} (hp : s.pixPixels i errors = .ok (t, out)) :
    ∃ a b h h' img, (s.ctx i).streams = some a ∧ (s.ctx i).pixels = some b ∧ s.live a = some h ∧
      s.live b = some h' ∧ (s.ctx i).dsim = some img ∧
      (t.ctx i).dsim = some { img with writes := img.writes ++ [h] } ∧
      (∀ j, (t.ctx j).ptrs = (s.ctx j).ptrs) ∧ t.live = update (update s.live b none) a none ∧
      t.next = s.next := by
  unfold pixPixels at hp
  dsimp only at hp
  split at hp
  · rename_i b a hpx hst
    split at hp
    · rename_i h' h img hlb hla himg
      cases hp
      refine ⟨a, b, h, h', img, hst, hpx, hla, hlb, himg, ?_, fun j => ?_, rfl, rfl⟩
      · rw [release_ctx, release_ctx, modify_ctx_self]
      · rw [release_ctx, release_ctx, modify_ctx]
        split
        · rename_i hj
          rw [hj]
          rfl
        · rfl
    · cases hp
    · cases hp
  · cases hp

theorem exists_pixPixels {img : Image} (hh : s.Holds i a b h) (himg : (s.ctx i).dsim = some img)
    (errors : Nat) : ∃ t, s.pixPixels i errors = .ok (t, []) := by
  unfold pixPixels
  dsimp only
  rw [hh.pixels, hh.streams]
  dsimp only
  rw [hh.livePixels, hh.liveStreams, himg]
  exact ⟨_, rfl⟩

theorem lookup_seqno (hl : s.lookup q = some i) : (s.ctx i).seqno = q := by
  unfold lookup at hl
  split at hl
  · split at hl
    · cases hl
      assumption
    · exact first_eq_some hl
  · exact first_eq_some hl

/-! ## Messages -/

/-- The context that a message frees. -/
def frees (s : Server) : Msg → Option Slot
  | .startReadout q _ _ o =>
    match s.setContext q with
    | some (_, u) => if o.opened then none else u.scan q
    | none => none
  | .endReadout q _ | .abortReadout q _ =>
    match s.getContext q with
    | some (i, _) => if (s.ctx i).dsim = none then none else s.scan q
    | none => none
  | .configureImage q _ _ _ o =>
    match s.getContext q with
    | some (i, _) =>
      if o.memory ∧ (s.ctx i).dsim ≠ none ∧ o.status < 0 then s.scan q else none
    | none => none
  | _ => none

/-- `WritePixPixels` writes the blocks of a header of its own number to the image and frees them, or it
finds no context and does nothing. -/
def Consumes (s : Server) (q : Int) (t : Server) : Prop :=
  match s.getContext q with
  | some (i, _) =>
    ∃ a b h img, s.Holds i a b h ∧ h.seqno = q ∧ (s.ctx i).dsim = some img ∧
      (t.ctx i).dsim = some { img with writes := img.writes ++ [h] } ∧
      t.live = update (update s.live b none) a none
  | none => t = s

end Server

def Msg.pixel : Msg → Bool
  | .writePixelData .. | .writePixHeader .. | .writePixPixels .. => true
  | _ => false

namespace Server

variable {s t u v : Server} {i j k : Slot} {q : Int}

/-- A pixel message does not end the program, every block is owned after a message, and `WritePixPixels`
does what it is for. -/
def Safe (s : Server) (r : Request) : Prop :=
  match s.handle r with
  | .ok (t, _) => t.Owned ∧ ∀ q errors, r.msg = .writePixPixels q errors → s.Consumes q t
  | .error _ => r.msg.pixel = false

/-- A header is for a context with none pending, pixels are for a context with a pending header and an
image, and a context that is freed has no pending header. -/
def Ok (s : Server) (r : Request) : Prop :=
  match r.msg with
  | .writePixHeader q .. => ∀ i u, s.getContext q = some (i, u) → ¬ s.Pending i
  | .writePixelData q _ _ _ o =>
    ∀ i u, s.getContext q = some (i, u) →
      ¬ s.Pending i ∧ ((o.streams && o.pixels) = true → (s.ctx i).dsim ≠ none)
  | .writePixPixels q _ => ∀ i u, s.getContext q = some (i, u) → s.Pending i ∧ (s.ctx i).dsim ≠ none
  | m => ∀ j, s.frees m = some j → ¬ s.Pending j

/-- As `Safe`, with the invariant. -/
def Good (s : Server) (r : Request) : Prop :=
  match s.handle r with
  | .ok (t, _) => t.Tidy ∧ ∀ q errors, r.msg = .writePixPixels q errors → s.Consumes q t
  | .error _ => r.msg.pixel = false

theorem Good.safe {r : Request} (h : s.Good r) : s.Safe r := by
  unfold Good at h
  unfold Safe
  split
  · rename_i heq
    rw [heq] at h
    exact ⟨h.1.owned, h.2⟩
  · rename_i heq
    rw [heq] at h
    exact h

theorem good_of_ok {r : Request} {out : List Out} (h : s.handle r = .ok (t, out)) (ht : t.Tidy)
    (hc : ∀ q errors, r.msg = .writePixPixels q errors → s.Consumes q t) : s.Good r := by
  unfold Good
  rw [h]
  exact ⟨ht, hc⟩

theorem good_of_error {r : Request} {e : Stop} (h : s.handle r = .error e) (hp : r.msg.pixel = false) :
    s.Good r := by
  unfold Good
  rw [h]
  exact hp

theorem not_safe_of_ok {r : Request} {out : List Out} (h : s.handle r = .ok (t, out)) (ht : ¬ t.Owned) :
    ¬ s.Safe r := by
  unfold Safe
  rw [h]
  exact fun hs => ht hs.1

theorem not_safe_of_error {r : Request} {e : Stop} (h : s.handle r = .error e) (hp : r.msg.pixel = true) :
    ¬ s.Safe r := by
  unfold Safe
  rw [h]
  show r.msg.pixel ≠ false
  rw [hp]
  decide

/-- The verdict on a message: it meets the condition and is good, or it does not and is not safe. -/
def Verdict (s : Server) (r : Request) : Prop := s.Ok r ∧ s.Good r ∨ ¬ s.Ok r ∧ ¬ s.Safe r

theorem Alike.nums (h : Alike s t) : t.nums = s.nums := by
  funext i
  exact (h.fields i).1

/-- A context is freed, and what follows leaves the blocks alone. -/
theorem freed_verdict (hs : s.Tidy) (hv : Alike s v) (ht : Alike (v.freeContext q) t) :
    (∀ j, s.scan q = some j → ¬ s.Pending j) ∧ t.Tidy ∨
    ¬ (∀ j, s.scan q = some j → ¬ s.Pending j) ∧ ¬ t.Owned := by
  have hscan : v.scan q = s.scan q := by rw [scan_eq_first, scan_eq_first, hv.nums]
  by_cases hn : ∀ j, s.scan q = some j → ¬ s.Pending j
  · refine .inl ⟨hn, ht.tidy ((hv.tidy hs).freeContext fun j hj => ?_)⟩
    rw [hv.pending]
    exact hn j (hscan ▸ hj)
  · refine .inr ⟨hn, fun ho => hn fun j hj hp => ?_⟩
    have hlost := (hv.tidy hs).freeContext_lost (hscan ▸ hj) (hv.pending.mpr hp)
    exact hlost (ht.symm.owned ho)

theorem getContext_alike (h : s.getContext q = some (i, u)) : Alike s u := (getContext_same h).alike

theorem synced_alike (s : Server) (i : Slot) : Alike s (s.synced i) := (synced_same s i).alike

theorem Alike.refl (s : Server) : Alike s s := (Same.refl s).alike

theorem verdict_quiet (hs : s.Tidy) {r : Request} (hq : r.msg.quiet = true) : s.Verdict r := by
  obtain ⟨tid, msg⟩ := r
  refine .inl ⟨?_, ?_⟩
  · cases msg <;> try cases hq
    all_goals
      intro j hj
      cases hj
  · cases hr : s.handle ⟨tid, msg⟩ with
    | error e =>
      refine good_of_error hr ?_
      cases msg <;> first | rfl | cases hq
    | ok p =>
      refine good_of_ok hr ((handle_same hq hr).alike.tidy hs) ?_
      rintro q errors rfl
      cases hq

/-- A new context points to no block. -/
theorem setContext_pending (hs : s.Tidy) (hset : s.setContext q = some (k, u)) (j : Slot) :
    u.Pending j ↔ s.Pending j := by
  obtain ⟨-, hk, rfl⟩ := setContext_cases hset
  have hn := hs.not_pending (first_eq_some hk)
  by_cases hj : j = k
  · subst hj
    refine iff_of_false ?_ hn
    rintro ⟨a, h, ha, -⟩
    rw [withLast_ctx, modify_ctx_self] at ha
    cases ha
  · unfold Pending
    rw [withLast_ctx, modify_ctx_ne _ _ hj]
    rfl

theorem startReadout_alike (s : Server) (i : Slot) (imagename imagetype : Str) (o : StartOutcome) :
    Alike s (s.startReadout i imagename imagetype o) :=
  (Alike.modify s i rfl).trans (Alike.withPar _ _)

theorem verdict_start (hs : s.Tidy) (tid q : Int) (imagename imagetype : Str) (o : StartOutcome) :
    s.Verdict ⟨tid, .startReadout q imagename imagetype o⟩ := by
  have hok : s.Ok ⟨tid, .startReadout q imagename imagetype o⟩ ↔
      ∀ j, s.frees (.startReadout q imagename imagetype o) = some j → ¬ s.Pending j := Iff.rfl
  have hr : s.handle ⟨tid, .startReadout q imagename imagetype o⟩ =
      .ok (s.handleStartReadout q imagename imagetype o) := rfl
  unfold Verdict
  rw [hok]
  cases hset : s.setContext q with
  | none =>
    simp only [frees, hset]
    have ht : (s.handleStartReadout q imagename imagetype o).1 = s := by rw [handleStartReadout, hset]
    exact .inl ⟨by simp, good_of_ok hr (ht.symm ▸ hs) (by simp)⟩
  | some p =>
    obtain ⟨k, u⟩ := p
    have hu := hs.setContext hset
    have hstart := startReadout_alike u k imagename imagetype o
    simp only [frees, hset]
    cases ho : o.opened with
    | true =>
      have ht : (s.handleStartReadout q imagename imagetype o).1.Tidy := by
        simp only [handleStartReadout, hset, ho, if_true]
        exact ((hstart.trans (synced_alike _ k)).trans (Alike.modify _ _ rfl)).tidy hu
      exact .inl ⟨by simp, good_of_ok hr ht (by simp)⟩
    | false =>
      simp only [Bool.false_eq_true, if_false]
      have hverdict := freed_verdict (q := q) hu hstart (Alike.refl _)
      simp only [setContext_pending hs hset] at hverdict
      have ht : (s.handleStartReadout q imagename imagetype o).1 =
          (u.startReadout k imagename imagetype o).freeContext q := by
        simp only [handleStartReadout, hset, ho, Bool.false_eq_true, if_false]
      rw [← ht] at hverdict
      rcases hverdict with ⟨hn, ht⟩ | ⟨hn, ht⟩
      · exact .inl ⟨hn, good_of_ok hr ht (by simp)⟩
      · exact .inr ⟨hn, not_safe_of_ok hr ht⟩

/-- The end of a readout, in either of its messages. -/
theorem verdict_ended (hs : s.Tidy) {r : Request} {o : EndOutcome}
    (hok : s.Ok r ↔ ∀ j, s.frees (.endReadout q o) = some j → ¬ s.Pending j)
    (hpix : r.msg.pixel = false)
    (hr : s.getContext q = none → ∃ out, s.handle r = .ok (s, out))
    (hnull : ∀ i u, s.getContext q = some (i, u) → (u.ctx i).dsim = none → s.handle r = .error .nullImage)
    (hend : ∀ i u, s.getContext q = some (i, u) → (u.ctx i).dsim ≠ none →
      ∃ out, s.handle r = .ok (((u.endReadout i o).freeContext q).synced i, out)) : s.Verdict r := by
  have hc : ∀ q errors, r.msg ≠ .writePixPixels q errors := by
    intro q errors he
    rw [he] at hpix
    cases hpix
  unfold Verdict
  rw [hok]
  cases hget : s.getContext q with
  | none =>
    obtain ⟨out, hr⟩ := hr hget
    simp only [frees, hget]
    exact .inl ⟨by simp, good_of_ok hr hs fun q e he => absurd he (hc q e)⟩
  | some p =>
    obtain ⟨i, u⟩ := p
    have hctx : u.ctx i = s.ctx i := by
      obtain ⟨-, -, rfl⟩ := getContext_eq_some hget
      rfl
    simp only [frees, hget]
    by_cases himg : (s.ctx i).dsim = none
    · rw [if_pos himg]
      exact .inl ⟨by simp, good_of_error (hnull i u hget (by rw [hctx, himg])) hpix⟩
    · rw [if_neg himg]
      obtain ⟨out, hr⟩ := hend i u hget (by rwa [hctx])
      have hv : Alike s (u.endReadout i o) := (getContext_alike hget).trans (Alike.modify _ _ rfl)
      rcases freed_verdict hs hv (synced_alike _ i) with ⟨hn, ht⟩ | ⟨hn, ht⟩
      · exact .inl ⟨hn, good_of_ok hr ht fun q e he => absurd he (hc q e)⟩
      · exact .inr ⟨hn, not_safe_of_ok hr ht⟩

theorem getContext_ctx (h : s.getContext q = some (i, u)) : u.ctx = s.ctx := by
  obtain ⟨-, -, rfl⟩ := getContext_eq_some h
  rfl

theorem getContext_seqno (h : s.getContext q = some (i, u)) : (u.ctx i).seqno = q ∧ q ≠ 0 := by
  obtain ⟨hq, hl, rfl⟩ := getContext_eq_some h
  have hseq : (s.ctx i).seqno = q := lookup_seqno hl
  exact ⟨hseq, hq⟩

theorem verdict_end (hs : s.Tidy) (tid q : Int) (o : EndOutcome) : s.Verdict ⟨tid, .endReadout q o⟩ := by
  refine verdict_ended (q := q) (o := o) hs Iff.rfl rfl (fun hget => ?_) (fun i u hget himg => ?_)
    fun i u hget himg => ?_
  · show ∃ out, s.handleEndReadout q o = .ok (s, out)
    rw [handleEndReadout, hget]
    exact ⟨_, rfl⟩
  · show s.handleEndReadout q o = _
    rw [handleEndReadout, hget]
    exact if_pos himg
  · show ∃ out, s.handleEndReadout q o = .ok (_, out)
    rw [handleEndReadout, hget]
    exact ⟨_, if_neg himg⟩

theorem verdict_abort (hs : s.Tidy) (tid q : Int) (o : EndOutcome) :
    s.Verdict ⟨tid, .abortReadout q o⟩ := by
  refine verdict_ended (q := q) (o := o) hs Iff.rfl rfl (fun hget => ?_) (fun i u hget himg => ?_)
    fun i u hget himg => ?_
  · show ∃ out, s.handleAbortReadout q o = .ok (s, out)
    rw [handleAbortReadout, hget]
    exact ⟨_, rfl⟩
  · show s.handleAbortReadout q o = _
    rw [handleAbortReadout, hget]
    exact if_pos himg
  · show ∃ out, s.handleAbortReadout q o = .ok (_, out)
    rw [handleAbortReadout, hget]
    exact ⟨_, if_neg himg⟩

theorem verdict_configure (hs : s.Tidy) (tid q : Int) (imagename imagetype : Str) (nimages : Int)
    (o : ConfigureOutcome) : s.Verdict ⟨tid, .configureImage q imagename imagetype nimages o⟩ := by
  have hok : s.Ok ⟨tid, .configureImage q imagename imagetype nimages o⟩ ↔
      ∀ j, s.frees (.configureImage q imagename imagetype nimages o) = some j → ¬ s.Pending j := Iff.rfl
  have hr : s.handle ⟨tid, .configureImage q imagename imagetype nimages o⟩ =
      s.handleConfigureImage q imagename imagetype nimages o := rfl
  unfold Verdict
  rw [hok]
  cases hget : s.getContext q with
  | none =>
    rw [handleConfigureImage, hget] at hr
    simp only [frees, hget]
    exact .inl ⟨by simp, good_of_error hr rfl⟩
  | some p =>
    obtain ⟨i, u⟩ := p
    have hu := getContext_alike hget
    rw [handleConfigureImage, hget] at hr
    simp only [getContext_ctx hget] at hr
    simp only [frees, hget]
    cases hmem : o.memory with
    | false =>
      rw [hmem] at hr
      exact .inl ⟨by simp, good_of_ok hr ((hu.trans (synced_alike _ i)).tidy hs) (by simp)⟩
    | true =>
      rw [hmem] at hr
      by_cases himg : (s.ctx i).dsim = none
      · simp only [Bool.not_true, Bool.false_eq_true, if_false, if_pos himg] at hr
        exact .inl ⟨by simp [himg], good_of_error hr rfl⟩
      · simp only [Bool.not_true, Bool.false_eq_true, if_false, if_neg himg] at hr
        have hready : Alike s (u.modify i (configured imagename imagetype nimages)) :=
          hu.trans (Alike.modify _ _ rfl)
        by_cases hst : o.status < 0
        · rw [if_pos ⟨rfl, himg, hst⟩]
          have hseq : ((u.modify i (configured imagename imagetype nimages)).ctx i).seqno = q := by
            rw [modify_ctx_self]
            exact (getContext_seqno hget).1
          have ht : Alike ((u.modify i (configured imagename imagetype nimages)).freeContext q)
              ((u.configureImage i imagename imagetype nimages o.status).synced i) := by
            unfold configureImage
            dsimp only
            rw [if_pos hst, hseq]
            exact (Alike.modify _ _ rfl).trans (synced_alike _ i)
          rcases freed_verdict hs hready ht with ⟨hn, ht⟩ | ⟨hn, ht⟩
          · exact .inl ⟨hn, good_of_ok hr ht (by simp)⟩
          · exact .inr ⟨hn, not_safe_of_ok hr ht⟩
        · rw [if_neg (by simp [hst])]
          have ht : Alike s ((u.configureImage i imagename imagetype nimages o.status).synced i) := by
            unfold configureImage
            dsimp only
            rw [if_neg hst]
            exact hready.trans (synced_alike _ i)
          exact .inl ⟨by simp, good_of_ok hr (ht.tidy hs) (by simp)⟩

theorem verdict_header (hs : s.Tidy) (tid q datalen swapped nstreams : Int) (o : PixelOutcome) :
    s.Verdict ⟨tid, .writePixHeader q datalen swapped nstreams o⟩ := by
  have hok : s.Ok ⟨tid, .writePixHeader q datalen swapped nstreams o⟩ ↔
      ∀ i u, s.getContext q = some (i, u) → ¬ s.Pending i := Iff.rfl
  have hr : s.handle ⟨tid, .writePixHeader q datalen swapped nstreams o⟩ =
      .ok (s.handleWritePixHeader q datalen swapped nstreams o, []) := rfl
  unfold Verdict
  rw [hok]
  cases hget : s.getContext q with
  | none =>
    rw [handleWritePixHeader, hget] at hr
    exact .inl ⟨by simp, good_of_ok hr hs (by simp)⟩
  | some p =>
    obtain ⟨i, u⟩ := p
    have hu := getContext_alike hget
    obtain ⟨hseq, hq⟩ := getContext_seqno hget
    rw [handleWritePixHeader, hget] at hr
    by_cases hp : s.Pending i
    · refine .inr ⟨fun h => h i u rfl hp, not_safe_of_ok hr ?_⟩
      obtain ⟨a, b, h, hh, -⟩ := (hu.tidy hs).pending_holds (hu.pending.mpr hp)
      have hb := (pixHeader_cases u i q datalen swapped nstreams o).1
      exact (hu.tidy hs).lost hh hb (pixHeader_live (hu.tidy hs) hh.liveStreams _ _ _ _ o) fun hpt =>
        absurd hpt ((hu.tidy hs).pixHeader_lost hh _ _ _ _ o)
    · refine .inl ⟨fun j v hj => ?_, good_of_ok hr ?_ (by simp)⟩
      · cases hj
        exact hp
      · exact (hu.tidy hs).pixHeader (fun h => hp (hu.pending.mp h)) hseq hq _ _ _ o

theorem verdict_pixels (hs : s.Tidy) (tid q : Int) (errors : Nat) :
    s.Verdict ⟨tid, .writePixPixels q errors⟩ := by
  have hok : s.Ok ⟨tid, .writePixPixels q errors⟩ ↔
      ∀ i u, s.getContext q = some (i, u) → s.Pending i ∧ (s.ctx i).dsim ≠ none := Iff.rfl
  have hr : s.handle ⟨tid, .writePixPixels q errors⟩ = s.handleWritePixPixels q errors := rfl
  unfold Verdict
  rw [hok]
  cases hget : s.getContext q with
  | none =>
    rw [handleWritePixPixels, hget] at hr
    refine .inl ⟨by simp, good_of_ok hr hs fun q' e he => ?_⟩
    cases he
    rw [Consumes, hget]
  | some p =>
    obtain ⟨i, u⟩ := p
    have hu := getContext_alike hget
    have hctx := getContext_ctx hget
    obtain ⟨hseq, hq⟩ := getContext_seqno hget
    rw [handleWritePixPixels, hget] at hr
    by_cases hp : s.Pending i ∧ (s.ctx i).dsim ≠ none
    · obtain ⟨hp, himg⟩ := hp
      obtain ⟨a, b, h, hh, hn, -⟩ := (hu.tidy hs).pending_holds (hu.pending.mpr hp)
      obtain ⟨img, himg'⟩ := Option.ne_none_iff_exists'.mp himg
      obtain ⟨t, ht⟩ := exists_pixPixels hh (hctx ▸ himg') errors
      obtain ⟨a', b', h', -, img', hst, hpx, hla, -, hdsim, hdsim', hptrs, hlive, hnext⟩ :=
        pixPixels_eq_ok ht
      cases hst.symm.trans hh.streams
      cases hpx.symm.trans hh.pixels
      cases hla.symm.trans hh.liveStreams
      rw [hctx, himg'] at hdsim
      cases hdsim
      have hr : s.handle ⟨tid, .writePixPixels q errors⟩ = .ok (t, []) := hr.trans ht
      refine .inl ⟨fun j v hj => ?_, good_of_ok hr ((hu.tidy hs).release hh hptrs hlive hnext) ?_⟩
      · cases hj
        exact ⟨hp, himg⟩
      · intro q' e he
        cases he
        rw [Consumes, hget]
        exact ⟨a, b, h, img, hu.symm.holds hh, hn.symm.trans hseq, himg', hdsim', hu.live ▸ hlive⟩
    · refine .inr ⟨fun h => hp (h i u rfl), ?_⟩
      cases hres : u.pixPixels i errors with
      | error e => exact not_safe_of_error (hr.trans hres) rfl
      | ok p =>
        obtain ⟨a, b, h, -, img, hst, -, hla, -, hdsim, -⟩ := pixPixels_eq_ok hres
        refine absurd ⟨hu.pending.mp ⟨a, h, hst, hla⟩, ?_⟩ hp
        rw [← hctx, hdsim]
        exact Option.some_ne_none img

/-- A pixel message in one part, for a context with a pending header. -/
theorem pixelData_lost (hs : s.Tidy) (hp : s.Pending i) (q datalen swapped nstreams : Int)
    (o : PixelOutcome) (hlive : ∀ a h, s.live a = some h → t.live a = some h)
    (hptrs : ∀ j, (t.ctx j).ptrs = ((s.pixHeader i q datalen swapped nstreams o).1.ctx j).ptrs) :
    ¬ t.Owned := by
  obtain ⟨a, b, h, hh, -⟩ := hs.pending_holds hp
  have hb := (pixHeader_cases s i q datalen swapped nstreams o).1
  refine hs.lost hh (fun j hj => (hptrs j).trans (hb j hj)) (hlive a h hh.liveStreams) fun hpt => ?_
  refine absurd ?_ (hs.pixHeader_lost hh q datalen swapped nstreams o)
  have hi := hptrs i
  simp only [Context.ptrs, Prod.mk.injEq] at hi
  rwa [Points, hi.2.1, hi.2.2] at hpt

/-- What the second part of a pixel message frees are the blocks of the first part. -/
theorem pixelData_live {errors : Nat} {out : List Out} (hs : s.Tidy) (q datalen swapped nstreams : Int)
    (o : PixelOutcome) (ho : (o.streams && o.pixels) = true)
    (hp : (s.pixHeader i q datalen swapped nstreams o).1.pixPixels i errors = .ok (t, out)) (a : Nat)
    (h : Header) (hl : s.live a = some h) : t.live a = some h := by
  have ha : a < s.next := by
    by_contra hle
    rw [hs.fresh a (by omega)] at hl
    cases hl
  obtain ⟨-, -, hcase⟩ := pixHeader_cases s i q datalen swapped nstreams o
  rcases hcase with ⟨-, -, -, hst, hpx⟩ | ⟨ho', -⟩ | ⟨ho', -⟩
  · obtain ⟨a', b', h', -, img, hst', hpx', -, -, -, -, -, hlive, -⟩ := pixPixels_eq_ok hp
    cases hst.symm.trans hst'
    cases hpx.symm.trans hpx'
    rw [hlive, update_of_ne (by omega), update_of_ne (by omega)]
    exact pixHeader_live hs hl _ _ _ _ o
  · rw [ho] at ho'
    cases ho'
  · rw [ho] at ho'
    cases ho'

theorem verdict_both (hs : s.Tidy) (tid q datalen swapped nstreams : Int) (o : PixelOutcome) :
    s.Verdict ⟨tid, .writePixelData q datalen swapped nstreams o⟩ := by
  have hok : s.Ok ⟨tid, .writePixelData q datalen swapped nstreams o⟩ ↔
      ∀ i u, s.getContext q = some (i, u) →
        ¬ s.Pending i ∧ ((o.streams && o.pixels) = true → (s.ctx i).dsim ≠ none) := Iff.rfl
  have hr : s.handle ⟨tid, .writePixelData q datalen swapped nstreams o⟩ =
      s.handleWritePixelData q datalen swapped nstreams o := rfl
  unfold Verdict
  rw [hok]
  cases hget : s.getContext q with
  | none =>
    rw [handleWritePixelData, hget] at hr
    exact .inl ⟨by simp, good_of_ok hr hs (by simp)⟩
  | some p =>
    obtain ⟨i, u⟩ := p
    have hu := getContext_alike hget
    have hctx := getContext_ctx hget
    obtain ⟨hseq, hq⟩ := getContext_seqno hget
    have htidy := hu.tidy hs
    rw [handleWritePixelData, hget] at hr
    dsimp only at hr
    rw [pixHeader_both] at hr
    cases ho : o.streams && o.pixels with
    | false =>
      rw [ho] at hr
      by_cases hp : s.Pending i
      · refine .inr ⟨fun h => (h i u rfl).1 hp, not_safe_of_ok hr ?_⟩
        exact pixelData_lost htidy (hu.pending.mpr hp) q datalen swapped nstreams o
          (fun a h hl => pixHeader_live htidy hl _ _ _ _ o) fun _ => rfl
      · refine .inl ⟨fun j v hj => ?_, good_of_ok hr ?_ (by simp)⟩
        · cases hj
          exact ⟨hp, fun h => nomatch h⟩
        · exact htidy.pixHeader (fun h => hp (hu.pending.mp h)) hseq hq _ _ _ o
    | true =>
      rw [ho] at hr
      have hr : s.handle ⟨tid, .writePixelData q datalen swapped nstreams o⟩ =
          (u.pixHeader i q datalen swapped nstreams o).1.pixPixels i o.errors := hr
      by_cases hp : s.Pending i
      · refine .inr ⟨fun h => (h i u rfl).1 hp, ?_⟩
        cases hres : (u.pixHeader i q datalen swapped nstreams o).1.pixPixels i o.errors with
        | error e => exact not_safe_of_error (hr.trans hres) rfl
        | ok p =>
          obtain ⟨-, -, -, -, -, -, -, -, -, -, -, hptrs, -, -⟩ := pixPixels_eq_ok hres
          exact not_safe_of_ok (hr.trans hres) (pixelData_lost htidy (hu.pending.mpr hp) _ _ _ _ o
            (pixelData_live htidy _ _ _ _ o ho hres) hptrs)
      · have hv := htidy.pixHeader (fun h => hp (hu.pending.mp h)) hseq hq datalen swapped nstreams o
        have hheld : ∃ a b h, (u.pixHeader i q datalen swapped nstreams o).1.Holds i a b h := by
          obtain ⟨-, -, hcase⟩ := pixHeader_cases u i q datalen swapped nstreams o
          rcases hcase with ⟨-, hlive, -, hst, hpx⟩ | ⟨ho', -⟩ | ⟨ho', -⟩
          · refine ⟨_, _, ⟨q, u.next⟩, hst, hpx, by omega, ?_, ?_⟩
            · rw [hlive, update_of_ne (by omega), update_self]
            · rw [hlive, update_self]
          · exact nomatch ho.symm.trans ho'
          · exact nomatch ho.symm.trans ho'
        obtain ⟨a, b, h, hh⟩ := hheld
        have himg := (Prod.mk.inj (pixHeader_image u i q datalen swapped nstreams o i)).2
        rw [hctx] at himg
        cases hdsim : (s.ctx i).dsim with
        | none =>
          refine .inr ⟨fun h => (h i u rfl).2 rfl hdsim, ?_⟩
          cases hres : (u.pixHeader i q datalen swapped nstreams o).1.pixPixels i o.errors with
          | error e => exact not_safe_of_error (hr.trans hres) rfl
          | ok p =>
            obtain ⟨-, -, -, -, img, -, -, -, -, hsome, -⟩ := pixPixels_eq_ok hres
            rw [himg, hdsim] at hsome
            cases hsome
        | some img =>
          obtain ⟨t, ht⟩ := exists_pixPixels hh (himg.trans hdsim) o.errors
          obtain ⟨a', b', h', -, img', hst, hpx, -, -, -, -, hptrs, hlive, hnext⟩ := pixPixels_eq_ok ht
          cases hst.symm.trans hh.streams
          cases hpx.symm.trans hh.pixels
          refine .inl ⟨fun j v hj => ?_, good_of_ok (hr.trans ht) (hv.release hh hptrs hlive hnext) (by simp)⟩
          cases hj
          exact ⟨hp, fun _ => hdsim ▸ Option.some_ne_none img⟩

/-- Every message either meets the condition, and then it keeps the invariant, or is not safe. -/
theorem verdict (hs : s.Tidy) (r : Request) : s.Verdict r := by
  by_cases hquiet : r.msg.quiet = true
  · exact verdict_quiet hs hquiet
  · obtain ⟨tid, msg⟩ := r
    cases msg with
    | startReadout q imagename imagetype o => exact verdict_start hs tid q imagename imagetype o
    | endReadout q o => exact verdict_end hs tid q o
    | abortReadout q o => exact verdict_abort hs tid q o
    | configureImage q imagename imagetype nimages o =>
      exact verdict_configure hs tid q imagename imagetype nimages o
    | writePixelData q datalen swapped nstreams o =>
      exact verdict_both hs tid q datalen swapped nstreams o
    | writePixHeader q datalen swapped nstreams o =>
      exact verdict_header hs tid q datalen swapped nstreams o
    | writePixPixels q errors => exact verdict_pixels hs tid q errors
    | _ => exact absurd rfl hquiet

theorem safe_iff (hs : s.Tidy) (r : Request) : s.Safe r ↔ s.Ok r := by
  rcases verdict hs r with ⟨hok, hgood⟩ | ⟨hok, hsafe⟩
  · exact iff_of_true hgood.safe hok
  · exact iff_of_false hsafe hok

theorem Tidy.step (hs : s.Tidy) {r : Request} (hok : s.Ok r) (h : s.step r = some t) : t.Tidy := by
  obtain ⟨out, h⟩ := step_eq_some h
  rcases verdict hs r with ⟨-, hgood⟩ | ⟨hn, -⟩
  · unfold Good at hgood
    rw [h] at hgood
    exact hgood.1
  · exact absurd hok hn

theorem Tidy.start (par : Params) : (Server.start par).Tidy where
  owned _ _ hl := nomatch hl
  fresh _ _ := rfl
  bound _ _ hp := by rcases hp with hp | hp <;> cases hp
  sep _ _ _ _ hl := nomatch hl

end Server

/-- Every message of a run is safe exactly if each meets `Server.Ok`. -/
theorem pixels_safe_iff (par : Params) (rs : List Request) :
    Steps Server.Safe Server.step (Server.start par) rs ↔
      Steps Server.Ok Server.step (Server.start par) rs :=
  steps_iff (I := Server.Tidy) (fun _ _ _ hs hok h => hs.step hok h) (fun _ r hs => Server.safe_iff hs r)
    (Server.Tidy.start par)

/-- A readout, a header and its pixels. -/
def pixelRun : List Request :=
  [⟨1, .startReadout 7 [] [] ⟨['a'], 2, true⟩⟩, ⟨1, .writePixHeader 7 8 0 1 ⟨true, true, 0⟩⟩,
    ⟨1, .writePixPixels 7 0⟩]

/-- The pixels a second time: the blocks are read and freed again. -/
theorem pixels_twice :
    (∃ s, run Server.step (Server.start .default) pixelRun = some s ∧
      s.handle ⟨1, .writePixPixels 7 0⟩ = .error .badBlock) ∧
    ¬ Steps Server.Safe Server.step (Server.start .default) (pixelRun ++ [⟨1, .writePixPixels 7 0⟩]) := by
  have hrun : ∃ s, run Server.step (Server.start .default) pixelRun = some s ∧
      s.handle ⟨1, .writePixPixels 7 0⟩ = .error .badBlock := ⟨_, rfl, rfl⟩
  refine ⟨hrun, fun h => ?_⟩
  obtain ⟨s, hs, herr⟩ := hrun
  exact Server.not_safe_of_error herr rfl (h.last hs)

end Ndhs.Mosdca
