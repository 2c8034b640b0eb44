import Ndhs.Dca.Server

/-!
# Readout contexts of the DCA

A readout is found by its sequence number: `getContext` tries the entry used last and then searches the
table, `freeContext` searches the table only, and `setContext` takes a free entry without a search for
the number.

* `Server.Same`: the states that differ in nothing the lookups and the pixel buffers depend on. A quiet
  message leads to such a state (`handle_same`).
* `handle_nums`: what a message can do to the sequence numbers of the table.
* `Server.Exact`: a number is in one entry, and the three functions mean the same entry by it.
* `contexts_exact_iff`: the runs along which the table is exact are those in which no readout is started
  under the number of an active one.
-/

namespace Ndhs.Mosdca

open Text Function Machine

/-! ## Quiet messages -/

/-- What the lookups, the file name of a readout and its pixel buffers depend on. -/
def Context.key (c : Context) : Int × Option Nat × Option Nat × Str × Option (List Str × Str) :=
  (c.seqno, c.streams, c.pixels, c.fname, c.dsim.map fun img => (img.dir, img.name))

/-- The messages that start or end no readout and have no pixels. -/
def Msg.quiet : Msg → Bool
  | .startReadout .. | .endReadout .. | .abortReadout .. | .configureImage .. => false
  | .writePixelData .. | .writePixHeader .. | .writePixPixels .. => false
  | _ => true

namespace Server

variable {s t u : Server} {i j k : Slot} {q : Int} {f : Context → Context}

/-- `t` differs from `s` in nothing that matters for the lookups and the pixel buffers. -/
structure Same (s t : Server) : Prop where
  key : ∀ i, (t.ctx i).key = (s.ctx i).key
  live : t.live = s.live
  next : t.next = s.next

theorem Same.refl (s : Server) : Same s s := ⟨fun _ => rfl, rfl, rfl⟩

theorem Same.trans (h : Same s t) (h' : Same t u) : Same s u :=
  ⟨fun i => (h'.key i).trans (h.key i), h'.live.trans h.live, h'.next.trans h.next⟩

@[simp] theorem withLast_ctx (s : Server) (l : Option Slot) : (s.withLast l).ctx = s.ctx := rfl
@[simp] theorem withPar_ctx (s : Server) (p : Params) : (s.withPar p).ctx = s.ctx := rfl
@[simp] theorem alloc_ctx (s : Server) (h : Header) : (s.alloc h).ctx = s.ctx := rfl
@[simp] theorem release_ctx (s : Server) (b : Nat) : (s.release b).ctx = s.ctx := rfl

theorem modify_ctx (s : Server) (i j : Slot) (f : Context → Context) :
    (s.modify i f).ctx j = if j = i then f (s.ctx i) else s.ctx j := by
  show update s.ctx i (f (s.ctx i)) j = _
  rw [update_apply]

@[simp] theorem modify_ctx_self (s : Server) (i : Slot) (f : Context → Context) :
    (s.modify i f).ctx i = f (s.ctx i) := by
  rw [modify_ctx, if_pos rfl]

@[simp] theorem modify_ctx_ne (s : Server) (f : Context → Context) (h : j ≠ i) :
    (s.modify i f).ctx j = s.ctx j := by
  rw [modify_ctx, if_neg h]

theorem Same.modify (s : Server) (i : Slot) (hf : ∀ c, (f c).key = c.key) : Same s (s.modify i f) := by
  refine ⟨fun j => ?_, rfl, rfl⟩
  rw [modify_ctx]
  split
  · rename_i h
    rw [h, hf]
  · rfl

/-- The part of a lookup that a message may change. -/
theorem getContext_eq_some (h : s.getContext q = some (i, t)) :
    q ≠ 0 ∧ s.lookup q = some i ∧ t = s.withLast (some i) := by
  unfold getContext at h
  split at h
  · cases h
  · rename_i hq
    obtain ⟨k, hk, hkt⟩ := Option.map_eq_some_iff.mp h
    cases hkt
    exact ⟨hq, hk, rfl⟩

theorem getContext_same (h : s.getContext q = some (i, t)) : Same s t := by
  obtain ⟨-, -, rfl⟩ := getContext_eq_some h
  exact ⟨fun _ => rfl, rfl, rfl⟩

theorem Same.par (s : Server) (p : Params) : Same s (s.withPar p) := ⟨fun _ => rfl, rfl, rfl⟩

theorem Same.ite {c : Prop} [Decidable c] (ht : Same s t) (hu : Same s u) :
    Same s (if c then t else u) := by
  split
  · exact ht
  · exact hu

theorem setParam_same (s : Server) (ctx : Option Slot) (tid : Int) (param : String) (value : Str)
    (ok : Bool) : Same s (s.setParam ctx tid param value ok) := by
  unfold setParam
  cases ctx with
  | none =>
    repeat' apply Same.ite
    all_goals first
      | exact Same.refl s
      | exact Same.par s _
  | some i =>
    have hexp := Same.modify (f := fun c => { c with expID := atof value }) s i fun _ => rfl
    repeat' apply Same.ite
    all_goals first
      | exact Same.refl s
      | exact Same.par s _
      | exact Same.modify s i fun _ => rfl
      | exact hexp.trans (Same.par _ _)

theorem writeHeaderData_key (c : Context) (kwgroup : Str) (kwl : List Keyword) (o : HeaderOutcome) :
    (writeHeaderData c kwgroup kwl o).key = c.key := by
  unfold writeHeaderData
  dsimp only
  split
  · rfl
  · split <;> rfl

theorem synced_same (s : Server) (i : Slot) : Same s (s.synced i) := Same.modify s i fun _ => rfl

theorem handleSetParam_same (s : Server) (tid seqno : Int) (param : String) (value : Str) (ok : Bool) :
    Same s (s.handleSetParam tid seqno param value ok) := by
  unfold handleSetParam
  split
  · rename_i hc
    exact (getContext_same hc).trans (setParam_same ..)
  · exact setParam_same ..

theorem handleGetParam_same (s : Server) (seqno : Int) (param : String) :
    Same s (s.handleGetParam seqno param).1 := by
  unfold handleGetParam
  split
  · rename_i hc
    exact (getContext_same hc).trans (synced_same ..)
  · exact Same.refl s

theorem handleGetStatus_same (s : Server) (seqno : Int) : Same s (s.handleGetStatus seqno).1 := by
  unfold handleGetStatus
  split
  · rename_i hc
    exact (getContext_same hc).trans (synced_same ..)
  · exact Same.refl s

theorem handleWriteHeaderData_same (s : Server) (seqno : Int) (kwgroup : Str) (kwl : List Keyword)
    (o : HeaderOutcome) : Same s (s.handleWriteHeaderData seqno kwgroup kwl o) := by
  unfold handleWriteHeaderData
  split
  · rename_i hc
    refine (getContext_same hc).trans ?_
    split
    · exact Same.modify _ _ fun c => writeHeaderData_key c _ _ _
    · exact Same.modify _ _ fun _ => rfl
  · exact Same.refl s

theorem handleSynchronize_same {seqno : Int} {ok : Bool} {out : List Out}
    (h : s.handleSynchronize seqno ok = .ok (t, out)) : Same s t := by
  unfold handleSynchronize at h
  split at h
  · rename_i hc
    split at h
    · cases h
    · cases h
      exact (getContext_same hc).trans (Same.modify _ _ fun _ => rfl)
  · cases h
    exact Same.refl s

/-- A quiet message. -/
theorem handle_same {r : Request} {out : List Out} (hq : r.msg.quiet = true)
    (h : s.handle r = .ok (t, out)) : Same s t := by
  obtain ⟨tid, msg⟩ := r
  cases msg with
  | quit => cases h
  | requestConsole =>
    cases h
    exact Same.ite (Same.par s _) (Same.refl s)
  | releaseConsole =>
    cases h
    exact Same.ite (Same.par s _) (Same.refl s)
  | setParam seqno param value ok =>
    cases h
    exact handleSetParam_same ..
  | getParam seqno param =>
    have h : s.handleGetParam seqno param = (t, out) := Except.ok.inj h
    have hs := handleGetParam_same s seqno param
    rwa [h] at hs
  | getStatus seqno =>
    have h : s.handleGetStatus seqno = (t, out) := Except.ok.inj h
    have hs := handleGetStatus_same s seqno
    rwa [h] at hs
  | transferComplete seqno =>
    cases h
    exact Same.refl s
  | writeHeaderData seqno kwgroup kwl o =>
    cases h
    exact handleWriteHeaderData_same ..
  | synchronize seqno ok => exact handleSynchronize_same h
  | _ => cases hq

/-! ## What a message does -/

/-- What a message does to the state: nothing that matters here; or it starts, ends or configures a
readout; or it is one of the pixel messages, for a context that was found. -/
inductive Effect (s : Server) : Msg → Server → Prop
  | same {m : Msg} {t : Server} (h : Same s t) : Effect s m t
  | start {q : Int} {imagename imagetype : Str} {o : StartOutcome} {k : Slot} {u : Server}
      (hset : s.setContext q = some (k, u)) :
      Effect s (.startReadout q imagename imagetype o) (s.handleStartReadout q imagename imagetype o).1
  | ended {m : Msg} {q : Int} {o : EndOutcome} {i : Slot} {u : Server}
      (hm : m = .endReadout q o ∨ m = .abortReadout q o) (hget : s.getContext q = some (i, u))
      (himg : (u.ctx i).dsim ≠ none) : Effect s m (((u.endReadout i o).freeContext q).synced i)
  | configured {q : Int} {imagename imagetype : Str} {nimages : Int} {o : ConfigureOutcome} {i : Slot}
      {u : Server} (hget : s.getContext q = some (i, u)) (hmem : o.memory = true)
      (himg : (u.ctx i).dsim ≠ none) :
      Effect s (.configureImage q imagename imagetype nimages o)
        ((u.configureImage i imagename imagetype nimages o.status).synced i)
  | header {m : Msg} {q datalen swapped nstreams : Int} {o : PixelOutcome} {i : Slot} {u : Server}
      (hm : m = .writePixHeader q datalen swapped nstreams o ∨
        m = .writePixelData q datalen swapped nstreams o ∧ (o.streams && o.pixels) = false)
      (hget : s.getContext q = some (i, u)) :
      Effect s m (u.pixHeader i q datalen swapped nstreams o).1
  | pixels {q : Int} {errors : Nat} {i : Slot} {u t : Server} (hget : s.getContext q = some (i, u))
      (hp : u.pixPixels i errors = .ok (t, [])) : Effect s (.writePixPixels q errors) t
  | both {q datalen swapped nstreams : Int} {o : PixelOutcome} {i : Slot} {u t : Server}
      (hget : s.getContext q = some (i, u)) (ho : (o.streams && o.pixels) = true)
      (hp : (u.pixHeader i q datalen swapped nstreams o).1.pixPixels i o.errors = .ok (t, [])) :
      Effect s (.writePixelData q datalen swapped nstreams o) t

theorem pixPixels_out {errors : Nat} {out : List Out} (h : s.pixPixels i errors = .ok (t, out)) :
    out = [] := by
  unfold pixPixels at h
  dsimp only at h
  split at h
  · split at h
    · cases h
      rfl
    · cases h
    · cases h
  · cases h

/-- A pixel header changes no file name and no image. -/
theorem pixHeader_image (s : Server) (i : Slot) (seqno datalen swapped nstreams : Int) (o : PixelOutcome)
    (j : Slot) :
    (((s.pixHeader i seqno datalen swapped nstreams o).1.ctx j).fname,
      ((s.pixHeader i seqno datalen swapped nstreams o).1.ctx j).dsim) =
    ((s.ctx j).fname, (s.ctx j).dsim) := by
  unfold pixHeader
  dsimp only
  by_cases hj : j = i
  · subst hj
    split
    · split
      · simp
      · simp [failed]
    · simp [failed]
  · split
    · split
      · simp [hj]
      · simp [failed, hj]
    · simp [failed, hj]

theorem pixHeader_both (s : Server) (i : Slot) (seqno datalen swapped nstreams : Int) (o : PixelOutcome) :
    (s.pixHeader i seqno datalen swapped nstreams o).2 = (o.streams && o.pixels) := by
  unfold pixHeader
  dsimp only
  cases o.streams with
  | false => rfl
  | true =>
    cases o.pixels with
    | false => rfl
    | true => rfl

theorem handle_effect {r : Request} {out : List Out} (h : s.handle r = .ok (t, out)) :
    Effect s r.msg t := by
  by_cases hquiet : r.msg.quiet = true
  · exact .same (handle_same hquiet h)
  · obtain ⟨tid, msg⟩ := r
    cases msg with
    | startReadout q imagename imagetype o =>
      have h : s.handleStartReadout q imagename imagetype o = (t, out) := Except.ok.inj h
      have ht : (s.handleStartReadout q imagename imagetype o).1 = t := by rw [h]
      cases hset : s.setContext q with
      | none =>
        rw [handleStartReadout, hset] at ht
        exact .same (ht ▸ Same.refl s)
      | some p => exact ht ▸ .start hset
    | endReadout q o =>
      have h : s.handleEndReadout q o = .ok (t, out) := h
      unfold handleEndReadout at h
      split at h
      · rename_i hget
        split at h
        · cases h
        · rename_i himg
          cases h
          exact .ended (.inl rfl) hget himg
      · cases h
        exact .same (Same.refl s)
    | abortReadout q o =>
      have h : s.handleAbortReadout q o = .ok (t, out) := h
      unfold handleAbortReadout at h
      split at h
      · rename_i hget
        split at h
        · cases h
        · rename_i himg
          cases h
          exact .ended (.inr rfl) hget himg
      · cases h
        exact .same (Same.refl s)
    | configureImage q imagename imagetype nimages o =>
      have h : s.handleConfigureImage q imagename imagetype nimages o = .ok (t, out) := h
      unfold handleConfigureImage at h
      split at h
      · rename_i hget
        split at h
        · cases h
          exact .same ((getContext_same hget).trans (synced_same ..))
        · rename_i hmem
          split at h
          · cases h
          · rename_i himg
            cases h
            exact .configured hget (by simpa using hmem) himg
      · cases h
    | writePixelData q datalen swapped nstreams o =>
      have h : s.handleWritePixelData q datalen swapped nstreams o = .ok (t, out) := h
      unfold handleWritePixelData at h
      split at h
      · rename_i hget
        dsimp only at h
        rw [pixHeader_both] at h
        split at h
        · rename_i ho
          obtain rfl := pixPixels_out h
          exact .both hget ho h
        · rename_i ho
          cases h
          exact .header (.inr ⟨rfl, by simpa using ho⟩) hget
      · cases h
        exact .same (Same.refl s)
    | writePixHeader q datalen swapped nstreams o =>
      have h : (s.handleWritePixHeader q datalen swapped nstreams o, []) = (t, out) := Except.ok.inj h
      obtain ⟨rfl, -⟩ := Prod.mk.inj h
      unfold handleWritePixHeader
      split
      · rename_i hget
        exact .header (.inl rfl) hget
      · exact .same (Same.refl s)
    | writePixPixels q errors =>
      have h : s.handleWritePixPixels q errors = .ok (t, out) := h
      unfold handleWritePixPixels at h
      split at h
      · rename_i hget
        obtain rfl := pixPixels_out h
        exact .pixels hget h
      · cases h
        exact .same (Same.refl s)
    | _ => exact absurd rfl hquiet

/-! ## Sequence numbers -/

/-- The sequence numbers of the table. -/
def nums (s : Server) : Slot → Int := fun i => (s.ctx i).seqno

/-- The first entry of a table of numbers with the number `q`. -/
def first (f : Slot → Int) (q : Int) : Option Slot :=
  (List.finRange 8).find? fun i => decide (f i = q)

theorem scan_eq_first (s : Server) (q : Int) : s.scan q = first s.nums q := rfl

variable {n : Slot → Int}

theorem first_eq_some (h : first n q = some i) : n i = q := by
  have hd := List.find?_some h
  exact of_decide_eq_true hd

theorem exists_first (h : n i = q) : ∃ j, first n q = some j := by
  have hs : (first n q).isSome = true := by
    rw [first, List.find?_isSome]
    exact ⟨i, List.mem_finRange i, decide_eq_true h⟩
  exact Option.isSome_iff_exists.mp hs

theorem first_eq_none : first n q = none ↔ ∀ i, n i ≠ q := by
  constructor
  · intro h i hi
    obtain ⟨j, hj⟩ := exists_first hi
    rw [h] at hj
    cases hj
  · intro h
    cases hf : first n q with
    | none => rfl
    | some i => exact absurd (first_eq_some hf) (h i)

/-- Each number other than zero is in one entry. -/
def Unique (n : Slot → Int) : Prop := ∀ i j, n i ≠ 0 → n i = n j → i = j

theorem Unique.first (hu : Unique n) (hi : n i ≠ 0) : first n (n i) = some i := by
  obtain ⟨j, hj⟩ := exists_first (rfl : n i = n i)
  rw [hj, hu i j hi (first_eq_some hj).symm]

theorem Unique.clear (hu : Unique n) (k : Slot) : Unique (update n k 0) := by
  intro i j hi hij
  rw [update_apply] at hi hij
  rw [update_apply] at hij
  split at hi
  · exact absurd rfl hi
  · rename_i hik
    rw [if_neg hik] at hij
    split at hij
    · exact absurd hij hi
    · exact hu i j hi hij

theorem Unique.enter (hu : Unique n) (hq : ∀ i, n i ≠ q) (k : Slot) : Unique (update n k q) := by
  intro i j hi hij
  rw [update_apply] at hi
  rw [update_apply, update_apply] at hij
  by_cases hik : i = k <;> by_cases hjk : j = k
  · rw [hik, hjk]
  · rw [if_pos hik, if_neg hjk] at hij
    exact absurd hij.symm (hq j)
  · rw [if_neg hik, if_pos hjk] at hij
    exact absurd hij (hq i)
  · rw [if_neg hik, if_neg hjk] at hij
    rw [if_neg hik] at hi
    exact hu i j hi hij

/-- Free the first entry with the number. -/
def dropFirst (n : Slot → Int) (q : Int) : Slot → Int :=
  match first n q with
  | none => n
  | some i => update n i 0

theorem Unique.dropFirst (hu : Unique n) (q : Int) : Unique (dropFirst n q) := by
  unfold Server.dropFirst
  split
  · exact hu
  · exact hu.clear _

/-- A number entered where another entry has it already, and then freed: one of the two is left. -/
theorem Unique.enter_dropFirst (hu : Unique n) (hk : n k = 0) (hq : q ≠ 0) :
    Unique (Server.dropFirst (update n k q) q) := by
  obtain ⟨m, hm⟩ := exists_first (update_self k q n)
  have hmq := first_eq_some hm
  rw [Server.dropFirst, hm]
  by_cases hmk : m = k
  · have hback : update (update n k q) m 0 = n := by
      rw [hmk, update_idem, ← hk, update_eq_self]
    show Unique (update (update n k q) m 0)
    rw [hback]
    exact hu
  · rw [update_of_ne hmk] at hmq
    show Unique (update (update n k q) m 0)
    rw [update_comm (Ne.symm hmk)]
    refine (hu.clear m).enter (fun i hi => ?_) k
    rw [update_apply] at hi
    split at hi
    · exact hq hi.symm
    · rename_i him
      exact him (hu i m (hi ▸ hq) (hi.trans hmq.symm))

/-! ## The numbers after a message -/

theorem Same.nums (h : Same s t) : t.nums = s.nums := by
  funext i
  exact congrArg Prod.fst (h.key i)

@[simp] theorem modify_nums (s : Server) (i : Slot) (f : Context → Context) :
    (s.modify i f).nums = update s.nums i (f (s.ctx i)).seqno := by
  funext j
  show ((s.modify i f).ctx j).seqno = _
  rw [modify_ctx, update_apply]
  split <;> rfl

@[simp] theorem withLast_nums (s : Server) (l : Option Slot) : (s.withLast l).nums = s.nums := rfl
@[simp] theorem withPar_nums (s : Server) (p : Params) : (s.withPar p).nums = s.nums := rfl
@[simp] theorem alloc_nums (s : Server) (h : Header) : (s.alloc h).nums = s.nums := rfl
@[simp] theorem release_nums (s : Server) (b : Nat) : (s.release b).nums = s.nums := rfl

/-- An entry that keeps its number. -/
@[simp] theorem update_nums (s : Server) (i : Slot) : update s.nums i (s.ctx i).seqno = s.nums :=
  update_eq_self i s.nums

theorem freeContext_nums (s : Server) (q : Int) : (s.freeContext q).nums = dropFirst s.nums q := by
  rw [freeContext, dropFirst, scan_eq_first]
  cases first s.nums q with
  | none => rfl
  | some i => rw [withLast_nums, modify_nums]

/-- The entry that `setContext` sets up -/
def newContext (s : Server) (q : Int) : Context :=
  { Context.zero with
    seqno := q
    maxkwGlobal := s.par.maxkwGlobal
    maxkwImage := s.par.maxkwImage
    ktm := s.par.defktm }

/-- It is the first unused one, and nothing else is changed. -/
theorem setContext_cases (h : s.setContext q = some (i, t)) :
    q ≠ 0 ∧ s.scan 0 = some i ∧ t = (s.modify i fun _ => s.newContext q).withLast (some i) := by
  unfold setContext at h
  split at h
  · cases h
  · next hq =>
    obtain ⟨k, hk, hkt⟩ := Option.map_eq_some_iff.mp h
    cases hkt
    exact ⟨hq, hk, rfl⟩

theorem setContext_eq_some (h : s.setContext q = some (i, t)) :
    q ≠ 0 ∧ first s.nums 0 = some i ∧ t.nums = update s.nums i q := by
  obtain ⟨hq, hi, rfl⟩ := setContext_cases h
  refine ⟨hq, hi, ?_⟩
  rw [withLast_nums, modify_nums]
  rfl

theorem exists_setContext (hq : q ≠ 0) (hi : s.nums i = 0) : ∃ k t, s.setContext q = some (k, t) := by
  obtain ⟨k, hk⟩ := exists_first hi
  rw [← scan_eq_first] at hk
  rw [setContext, if_neg hq, hk]
  exact ⟨k, _, rfl⟩

theorem startReadout_nums (s : Server) (i : Slot) (imagename imagetype : Str) (o : StartOutcome) :
    (s.startReadout i imagename imagetype o).nums = s.nums := by
  rw [startReadout, withPar_nums, modify_nums, update_nums]

theorem handleStartReadout_nums (imagename imagetype : Str) (o : StartOutcome)
    (h : s.setContext q = some (k, u)) :
    (s.handleStartReadout q imagename imagetype o).1.nums =
      if o.opened then update s.nums k q else dropFirst (update s.nums k q) q := by
  obtain ⟨-, -, hn⟩ := setContext_eq_some h
  unfold handleStartReadout
  rw [h, ← hn, ← startReadout_nums u k imagename imagetype o]
  dsimp only
  split
  · rw [modify_nums, update_nums, (synced_same _ _).nums]
  · exact freeContext_nums _ q

/-- A readout that ends: the context is closed, and then freed by its number. -/
theorem ended_nums (s : Server) (i : Slot) (q : Int) (o : EndOutcome) :
    (((s.endReadout i o).freeContext q).synced i).nums = dropFirst s.nums q := by
  rw [(synced_same _ _).nums, freeContext_nums, endReadout, modify_nums, update_nums]

theorem configureImage_nums (s : Server) (i : Slot) (imagename imagetype : Str) (nimages status : Int) :
    (s.configureImage i imagename imagetype nimages status).nums = s.nums ∨
    ∃ q, (s.configureImage i imagename imagetype nimages status).nums = dropFirst s.nums q := by
  unfold configureImage
  dsimp only
  split
  · right
    rw [modify_nums, update_nums, freeContext_nums, modify_nums, configured, update_nums]
    exact ⟨_, rfl⟩
  · left
    rw [modify_nums, configured, update_nums]

theorem pixHeader_nums (s : Server) (i : Slot) (seqno datalen swapped nstreams : Int) (o : PixelOutcome) :
    (s.pixHeader i seqno datalen swapped nstreams o).1.nums = s.nums := by
  unfold pixHeader
  dsimp only
  split
  · split
    · simp
    · simp [failed]
  · simp [failed]

theorem pixPixels_nums {errors : Nat} {out : List Out} (h : s.pixPixels i errors = .ok (t, out)) :
    t.nums = s.nums := by
  unfold pixPixels at h
  dsimp only at h
  split at h
  · split at h
    · cases h
      rw [release_nums, release_nums, modify_nums, update_nums]
    · cases h
    · cases h
  · cases h

/-- What a message does to the numbers: nothing, free the first entry with some number, or enter one
in a free entry and free it again if the image could not be opened. -/
theorem handle_nums {r : Request} {out : List Out} (h : s.handle r = .ok (t, out)) :
    t.nums = s.nums ∨ (∃ q, t.nums = dropFirst s.nums q) ∨
    ∃ q imagename imagetype o k, r.msg = .startReadout q imagename imagetype o ∧ q ≠ 0 ∧
      first s.nums 0 = some k ∧
      t.nums = if o.opened then update s.nums k q else dropFirst (update s.nums k q) q := by
  generalize hm : r.msg = m
  have he := handle_effect h
  rw [hm] at he
  cases he with
  | same hs => exact .inl hs.nums
  | start hset =>
    obtain ⟨hq, hk, -⟩ := setContext_eq_some hset
    exact .inr (.inr ⟨_, _, _, _, _, rfl, hq, hk, handleStartReadout_nums _ _ _ hset⟩)
  | ended hm hget himg =>
    rw [← (getContext_same hget).nums]
    exact .inr (.inl ⟨_, ended_nums ..⟩)
  | configured hget hmem himg =>
    rw [(synced_same _ _).nums, ← (getContext_same hget).nums]
    exact (configureImage_nums ..).imp_right .inl
  | header hm hget => exact .inl ((pixHeader_nums ..).trans (getContext_same hget).nums)
  | pixels hget hp => exact .inl ((pixPixels_nums hp).trans (getContext_same hget).nums)
  | both hget ho hp =>
    exact .inl ((pixPixels_nums hp).trans ((pixHeader_nums ..).trans (getContext_same hget).nums))

/-! ## Runs -/

/-- A number is in one entry; `getContext` gives the entry that a search of the table gives; and the
entry that `freeContext` frees at the end of a readout is the one that has just been closed. -/
structure Exact (s : Server) : Prop where
  unique : ∀ i j, (s.ctx i).seqno ≠ 0 → (s.ctx i).seqno = (s.ctx j).seqno → i = j
  cached : ∀ q, q ≠ 0 → s.lookup q = s.scan q
  freed : ∀ q i t o, s.getContext q = some (i, t) → (t.endReadout i o).scan q = some i

/-- The table is exact once each number is in one entry. -/
theorem Unique.exact (hu : Unique s.nums) : s.Exact := by
  have hcached : ∀ q, q ≠ 0 → s.lookup q = s.scan q := by
    intro q hq
    unfold lookup
    split
    · rename_i i _
      split
      · rename_i hi
        have hi : s.nums i = q := hi
        rw [← hi] at hq ⊢
        exact (hu.first hq).symm
      · rfl
    · rfl
  refine ⟨hu, hcached, fun q i t o h => ?_⟩
  obtain ⟨hq, hl, rfl⟩ := getContext_eq_some h
  rw [hcached q hq] at hl
  rw [scan_eq_first, endReadout, modify_nums, update_nums, withLast_nums, ← scan_eq_first, hl]

end Server

/-- A readout is started, and its file opened, under the number of an active one. -/
def Request.Restarts (s : Server) (r : Request) : Prop :=
  ∃ q imagename imagetype o, r.msg = .startReadout q imagename imagetype o ∧ o.opened = true ∧ q ≠ 0 ∧
    (∃ k, s.nums k = 0) ∧ ∃ i, s.nums i = q

namespace Server

variable {s t : Server} {r : Request}

/-- Any other message keeps the numbers apart. -/
theorem Unique.step (hu : Unique s.nums) (hr : ¬ r.Restarts s) (h : s.step r = some t) :
    Unique t.nums := by
  obtain ⟨out, h⟩ := step_eq_some h
  rcases handle_nums h with hn | ⟨q, hn⟩ | ⟨q, imagename, imagetype, o, k, hmsg, hq, hk, hn⟩
  · rw [hn]
    exact hu
  · rw [hn]
    exact hu.dropFirst q
  · have hk0 := first_eq_some hk
    rw [hn]
    split
    · rename_i ho
      refine hu.enter (fun i hi => hr ?_) k
      exact ⟨q, imagename, imagetype, o, hmsg, ho, hq, ⟨k, hk0⟩, i, hi⟩
    · exact hu.enter_dropFirst hk0 hq

/-- After a restart the number is in two entries. -/
theorem not_exact_of_restarts (hr : r.Restarts s) : ∃ t, s.step r = some t ∧ ¬ t.Exact := by
  obtain ⟨q, imagename, imagetype, o, hmsg, ho, hq, ⟨k, hk⟩, i, hi⟩ := hr
  obtain ⟨m, u, hset⟩ := exists_setContext hq hk
  obtain ⟨-, hm, -⟩ := setContext_eq_some hset
  have hn := handleStartReadout_nums imagename imagetype o hset
  rw [if_pos ho] at hn
  refine ⟨(s.handleStartReadout q imagename imagetype o).1, ?_, fun he => ?_⟩
  · unfold step handle
    rw [hmsg]
  · have him : i ≠ m := by
      rintro rfl
      rw [first_eq_some hm] at hi
      exact hq hi.symm
    have hni : (s.handleStartReadout q imagename imagetype o).1.nums i = q := by
      rw [hn, update_of_ne him, hi]
    have hnm : (s.handleStartReadout q imagename imagetype o).1.nums m = q := by
      rw [hn, update_self]
    exact him (he.unique i m (fun h0 => hq (hni.symm.trans h0)) (hni.trans hnm.symm))

end Server

/-- The table is exact in every state of a run exactly if no message of the run starts a readout under
the number of an active one. -/
theorem contexts_exact_iff (par : Params) (rs : List Request) :
    Throughout Server.Exact Server.step (Server.start par) rs ↔
      Steps (fun s r => ¬ r.Restarts s) Server.step (Server.start par) rs :=
  throughout_iff_steps (I := fun s => Server.Unique s.nums) (fun _ hu => hu.exact)
    (fun _ _ _ hu hr h => hu.step hr h)
    (fun _ _ _ hr => Server.not_exact_of_restarts (not_not.mp hr))
    (fun _ _ hi => absurd rfl hi)

/-- The options of a server started without arguments. -/
def Params.default : Params where
  requestLevel := 1
  console := 0
  debug := 1
  debugOut := none
  curdir := ['/', 'd']
  cwd := [['d']]
  imformat := chars "%T%04I.fits"
  imindex := 1
  defktm := []
  clobber := false
  maxkwGlobal := 72
  maxkwImage := 72
  expID := 0

/-- A second `StartReadout` for the number 7, with the first one still active. -/
def restartRun : List Request :=
  [⟨1, .startReadout 7 [] [] ⟨['a'], 2, true⟩⟩, ⟨1, .startReadout 7 [] [] ⟨['b'], 3, true⟩⟩]

/-- After the second start the number 7 is in two entries: `getContext` gives the new one, and a search
and `freeContext` the old one. -/
theorem restart_not_exact :
    ∃ t, run Server.step (Server.start .default) restartRun = some t ∧
      (t.ctx 0).seqno = 7 ∧ (t.ctx 1).seqno = 7 ∧ t.lookup 7 = some 1 ∧ t.scan 7 = some 0 ∧
      ¬ Throughout Server.Exact Server.step (Server.start .default) restartRun := by
  refine ⟨_, rfl, rfl, rfl, rfl, rfl, fun h => ?_⟩
  have hcached := (h.last rfl).cached 7 (by decide)
  cases hcached

end Ndhs.Mosdca
