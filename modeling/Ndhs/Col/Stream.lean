import Mathlib.Data.List.Infix
import Mathlib.Tactic.Common
import Ndhs.Lib.Variant

/-!
# Messages on a connection

A program sends messages with `dcaSend` (`lib/dcalib/dcaSend.c`) and another one receives them with `dcaRecv`
(`lib/dcalib/dcaRecv.c`). A `write` may take a part of the bytes and a `read` may give a part of them, a call may be
interrupted, and the two programs run side by side.

* `Stream`: both programs and the bytes between them. `Stream.call`: one system call, or the start of the next call of
  `dcaSend` or `dcaRecv`. `Stream.step`: the same, of a program that has met no error.
* `Carries`: no byte is lost, doubled or moved, and every call of `dcaRecv` has its size.
* `stream_frames`: what is received are the messages, whole and in order, and in the end all of them.

`Ndhs.Col.PanHandler` has `dcaRecv` with its reads given beforehand. Where `dcaSend` or `dcaRecv` returns an error, the
calls that its program makes later are left out.
-/

namespace Ndhs.Collector

open Machine

/-- The two programs and the connection -/
structure Stream where
  /-- The messages of the calls of `dcaSend` to come -/
  msgs : List (List UInt8)
  /-- What the current `chan_write` has left: `nleft` bytes at `ptr` -/
  ptr : List UInt8 := []
  /-- The bytes that were written and not read -/
  wire : List UInt8 := []
  /-- The sizes of the calls of `dcaRecv` to come -/
  sizes : List Nat
  /-- The current `dcaRecv`: the first `tot` bytes of `buffer`, and `curlen` -/
  reading : Option (List UInt8 × Nat) := none
  /-- What the calls of `dcaRecv` so far have put in their buffers -/
  got : List (List UInt8) := []
  /-- `dcaSend` has returned `DCA_ERR`. -/
  sendErr : Bool := false
  /-- `dcaRecv` has returned `DCA_ERR` or `EOF`. -/
  recvErr : Bool := false

namespace Stream

inductive Input where
  | send
  /-- `write` takes `k` bytes. -/
  | write (k : Nat)
  /-- `write` fails with `EINTR`. -/
  | writeIntr
  /-- `write` fails with another error. -/
  | writeErr
  | recv
  /-- `read` gives `k` bytes. -/
  | read (k : Nat)
  /-- `read` fails with `EAGAIN`, or `select` fails. -/
  | readAgain
  /-- `read` fails with another error, or gives no bytes. -/
  | readErr

/-- `dcaRecv` after it has `b` in its buffer and expects `c` more bytes: `while (curlen > 0)` -/
def received (s : Stream) (b : List UInt8) (c : Nat) : Stream :=
  if 0 < c then { s with reading := some (b, c) } else { s with reading := none, got := s.got ++ [b] }

def call (s : Stream) : Input → Option Stream
  | .send =>
    match s.ptr, s.msgs with
    | [], m :: ms => some { s with ptr := m, msgs := ms }
    | _, _ => none
  | .write k =>
    if 0 < k ∧ k ≤ s.ptr.length then
      some { s with ptr := s.ptr.drop k, wire := s.wire ++ s.ptr.take k }
    else none
  | .writeIntr => if s.ptr = [] then none else some s
  | .writeErr => if s.ptr = [] then none else some { s with sendErr := true }
  | .recv =>
    match s.reading, s.sizes with
    | none, n :: ns => some { s with reading := some ([], n), sizes := ns }
    | _, _ => none
  | .read k =>
    match s.reading with
    | some (b, c) =>
      if 0 < k ∧ k ≤ c ∧ k ≤ s.wire.length then
        some ({ s with wire := s.wire.drop k }.received (b ++ s.wire.take k) (c - k))
      else none
    | none => none
  | .readAgain => s.reading.map fun r => s.received r.1 r.2
  | .readErr => if s.reading.isSome then some { s with recvErr := true } else none

/-- The program that makes the call has met an error. -/
def failed (s : Stream) : Input → Bool
  | .send | .write _ | .writeIntr | .writeErr => s.sendErr
  | .recv | .read _ | .readAgain | .readErr => s.recvErr

def step (s : Stream) (a : Input) : Option Stream :=
  if s.failed a then none else s.call a

theorem call_of_step {s t : Stream} {a : Input} (hst : s.step a = some t) : s.call a = some t := by
  unfold step at hst
  split at hst
  · cases hst
  · exact hst

theorem call_of_stuck {s : Stream} {a : Input} (hf : s.failed a = false) (hno : s.step a = none) : s.call a = none := by
  rwa [step, hf, if_neg Bool.false_ne_true] at hno

/-- Before the first call -/
def start (msgs : List (List UInt8)) (sizes : List Nat) : Stream := { msgs := msgs, sizes := sizes }

/-! ## What every step keeps -/

/-- The bytes of the current `dcaRecv` -/
def buffered (s : Stream) : List UInt8 := (s.reading.map Prod.fst).getD []

/-- The size of the current `dcaRecv` -/
def current (s : Stream) : List Nat := (s.reading.map fun r => r.1.length + r.2).toList

/-- The messages `ms` are received, on their way or to be sent, and the sizes of all calls are `ns`. -/
structure Carries (ms : List (List UInt8)) (ns : List Nat) (s : Stream) : Prop where
  bytes : s.got.flatten ++ s.buffered ++ s.wire ++ s.ptr ++ s.msgs.flatten = ms.flatten
  sizes : s.got.map List.length ++ s.current ++ s.sizes = ns
  busy : ∀ b c, s.reading = some (b, c) → 0 < c
  pos : ∀ n ∈ s.sizes, 0 < n

variable {ms : List (List UInt8)} {ns : List Nat} {s t : Stream} {a : Input}

theorem received_eq {b : List UInt8} {c : Nat} (hr : s.reading = some (b, c)) (hc : 0 < c) : s.received b c = s := by
  rw [received, if_pos hc, ← hr]

theorem Carries.start (h : ∀ n ∈ ns, 0 < n) : Carries ms ns (start ms ns) where
  bytes := rfl
  sizes := rfl
  busy := nofun
  pos := h

/-- A `read` of `k` bytes -/
theorem Carries.read (h : Carries ms ns s) {b : List UInt8} {c k : Nat} (hr : s.reading = some (b, c)) (hc : k ≤ c)
    (hw : k ≤ s.wire.length) :
    Carries ms ns ({ s with wire := s.wire.drop k }.received (b ++ s.wire.take k) (c - k)) := by
  have hb := h.bytes
  have hs := h.sizes
  simp only [buffered, current, hr, Option.map_some, Option.getD_some, Option.toList_some] at hb hs
  have hsplit : s.wire.take k ++ s.wire.drop k = s.wire := List.take_append_drop k s.wire
  have hlen : (s.wire.take k).length = k := List.length_take_of_le hw
  unfold received
  split
  · next hpos =>
    refine ⟨?_, ?_, fun b' c' he => ?_, h.pos⟩
    · rw [← hb, ← hsplit]
      simp [buffered]
    · rw [← hs]
      simp only [current, Option.map_some, Option.toList_some, List.length_append, hlen]
      rw [show b.length + k + (c - k) = b.length + c by omega]
    · cases he
      exact hpos
  · next hpos =>
    refine ⟨?_, ?_, nofun, h.pos⟩
    · rw [← hb, ← hsplit]
      simp [buffered]
    · rw [← hs]
      simp only [current, Option.map_none, Option.toList_none, List.append_nil, List.map_append,
        List.map_singleton, List.length_append, hlen]
      rw [show b.length + k = b.length + c by omega]

theorem Carries.call (h : Carries ms ns s) (hst : s.call a = some t) : Carries ms ns t := by
  have hb := h.bytes
  cases a with
  | send =>
    simp only [Stream.call] at hst
    split at hst
    · next m msgs hp hm =>
      cases hst
      refine ⟨?_, h.sizes, h.busy, h.pos⟩
      rw [hp, hm] at hb
      simpa [buffered] using hb
    · cases hst
  | write k =>
    simp only [Stream.call] at hst
    split at hst
    · cases hst
      refine ⟨?_, h.sizes, h.busy, h.pos⟩
      rw [← List.take_append_drop k s.ptr] at hb
      simpa [buffered] using hb
    · cases hst
  | writeIntr =>
    simp only [Stream.call] at hst
    split at hst
    · cases hst
    · cases hst
      exact h
  | writeErr =>
    simp only [Stream.call] at hst
    split at hst
    · cases hst
    · cases hst
      exact ⟨hb, h.sizes, h.busy, h.pos⟩
  | recv =>
    simp only [Stream.call] at hst
    split at hst
    · next n ns' hr hn =>
      cases hst
      have hs := h.sizes
      simp only [current, hr, hn] at hs
      refine ⟨?_, ?_, fun b c he => ?_, fun m hm => h.pos m (hn ▸ List.mem_cons_of_mem n hm)⟩
      · simpa [buffered, hr] using hb
      · simpa [current] using hs
      · cases he
        exact h.pos _ (hn ▸ List.mem_cons_self)
    · cases hst
  | read k =>
    simp only [Stream.call] at hst
    split at hst
    · next b c hr =>
      split at hst
      · next hk =>
        cases hst
        exact h.read hr hk.2.1 hk.2.2
      · cases hst
    · cases hst
  | readAgain =>
    obtain ⟨r, hr, rfl⟩ := Option.map_eq_some_iff.mp hst
    rwa [received_eq hr (h.busy _ _ hr)]
  | readErr =>
    simp only [Stream.call] at hst
    split at hst
    · cases hst
      exact ⟨hb, h.sizes, h.busy, h.pos⟩
    · cases hst

theorem Carries.step (h : Carries ms ns s) (hst : s.step a = some t) : Carries ms ns t :=
  h.call (call_of_step hst)

/-! ## What is received -/

/-- Pieces of the right sizes of the same bytes are the same pieces. -/
theorem initial_of_flatten {l ms : List (List UInt8)} (hf : l.flatten <+: ms.flatten)
    (hl : l.map List.length <+: ms.map List.length) : l <+: ms := by
  induction l generalizing ms with
  | nil => exact List.nil_prefix
  | cons x l ih =>
    cases ms with
    | nil => simp at hl
    | cons y ms =>
      rw [List.map_cons, List.map_cons, List.cons_prefix_cons] at hl
      rw [List.flatten_cons, List.flatten_cons] at hf
      have hx : x <+: y ++ ms.flatten := (List.prefix_append x l.flatten).trans hf
      obtain rfl : x = y :=
        (List.prefix_of_prefix_length_le hx (List.prefix_append y _) hl.1.le).eq_of_length hl.1
      rw [List.cons_prefix_cons]
      exact ⟨rfl, ih ((List.prefix_append_right_inj x).mp hf) hl.2⟩

theorem Carries.initial (h : Carries ms (ms.map List.length) s) : s.got <+: ms := by
  refine initial_of_flatten ?_ ?_
  · rw [← h.bytes]
    simp only [List.append_assoc]
    exact List.prefix_append _ _
  · rw [← h.sizes]
    simp only [List.append_assoc]
    exact List.prefix_append _ _

/-- The system calls that get on, and the starts of calls -/
def Input.Moves : Input → Prop
  | .writeIntr | .writeErr | .readAgain | .readErr => False
  | .send | .write _ | .recv | .read _ => True

/-- What is left to do -/
def work (s : Stream) : Nat :=
  2 * (s.ptr.length + s.msgs.flatten.length) + s.msgs.length + s.wire.length + s.sizes.length

theorem work_received (s : Stream) (b : List UInt8) (c : Nat) : (s.received b c).work = s.work := by
  unfold received
  split <;> rfl

theorem work_lt (ha : a.Moves) (hst : s.call a = some t) : t.work < s.work := by
  cases a with
  | send =>
    simp only [call] at hst
    split at hst
    · next m msgs hp hm =>
      cases hst
      simp only [work, hp, hm, List.flatten_cons, List.length_append, List.length_cons, List.length_nil]
      omega
    · cases hst
  | write k =>
    simp only [call] at hst
    split at hst
    · next hk =>
      cases hst
      have hlen : (s.ptr.take k).length = k := List.length_take_of_le hk.2
      simp only [work, List.length_drop, List.length_append, hlen]
      omega
    · cases hst
  | recv =>
    simp only [call] at hst
    split at hst
    · next n ns hr hn =>
      cases hst
      simp only [work, hn, List.length_cons]
      omega
    · cases hst
  | read k =>
    simp only [call] at hst
    split at hst
    · next b c hr =>
      split at hst
      · next hk =>
        cases hst
        rw [work_received]
        simp only [work, List.length_drop]
        omega
      · cases hst
    · cases hst
  | writeIntr | writeErr | readAgain | readErr => exact ha.elim

/-- When no call can get on and none has failed, all messages are received. -/
theorem Carries.complete (h : Carries ms (ms.map List.length) s) (hs : Stuck Input.Moves Stream.step s)
    (hse : s.sendErr = false) (hre : s.recvErr = false) : s.got = ms := by
  -- the sender is done
  have hptr : s.ptr = [] := by
    by_contra hne
    have hno := call_of_stuck (a := .write 1) hse (hs _ trivial)
    rw [Stream.call, if_pos ⟨Nat.one_pos, List.length_pos_iff.mpr hne⟩] at hno
    cases hno
  have hmsgs : s.msgs = [] := by
    cases hm : s.msgs with
    | nil => rfl
    | cons m msgs =>
      have hno := call_of_stuck (a := .send) hse (hs _ trivial)
      simp [Stream.call, hptr, hm] at hno
  have hb := h.bytes
  have hl := h.sizes
  have hsum := congrArg List.length hb
  have hsum' := congrArg List.sum hl
  rw [hptr, hmsgs] at hb hsum
  cases hr : s.reading with
  | some r =>
    -- the reader has everything that is on its way, and that is all of its size
    obtain ⟨b, c⟩ := r
    have hc := h.busy b c hr
    have hwire : s.wire = [] := by
      by_contra hne
      have hno := call_of_stuck (a := .read 1) hre (hs _ trivial)
      have hw := List.length_pos_iff.mpr hne
      simp only [Stream.call, hr] at hno
      rw [if_pos ⟨Nat.one_pos, hc, hw⟩] at hno
      cases hno
    simp only [buffered, current, hr, hwire, Option.map_some, Option.getD_some, Option.toList_some, List.append_nil,
      List.flatten_nil, List.length_append, List.length_flatten, List.sum_append, List.sum_singleton] at hsum hsum'
    omega
  | none =>
    have hsizes : s.sizes = [] := by
      cases hn : s.sizes with
      | nil => rfl
      | cons n ns =>
        have hno := call_of_stuck (a := .recv) hre (hs _ trivial)
        simp [Stream.call, hr, hn] at hno
    rw [hsizes] at hl
    simp only [current, hr, Option.map_none, Option.toList_none, List.append_nil] at hl
    have hlen := congrArg List.length hl
    rw [List.length_map, List.length_map] at hlen
    exact h.initial.eq_of_length hlen

/-- `dcaSend` sends messages that are not empty, and `dcaRecv` is called with their sizes. However the `write`s and the
`read`s split the bytes, whatever is interrupted or fails and whichever program goes first: what `dcaRecv` has received
in any state are the first messages, whole and in order; the calls come to an end; and when none of them has failed, all
messages are received then. -/
theorem stream_frames (ms : List (List UInt8)) (hne : ∀ m ∈ ms, m ≠ []) (as : List Input) (s : Stream)
    (hr : run step (start ms (ms.map List.length)) as = some s) :
    s.got <+: ms ∧
    (∀ bs t, (∀ a ∈ bs, a.Moves) → run step s bs = some t → bs.length ≤ s.work) ∧
    (Stuck Input.Moves step s → s.sendErr = false → s.recvErr = false → s.got = ms) := by
  have hpos : ∀ n ∈ ms.map List.length, 0 < n := by
    intro n hn
    obtain ⟨m, hm, rfl⟩ := List.mem_map.mp hn
    exact List.length_pos_iff.mpr (hne m hm)
  have h : Carries ms (ms.map List.length) s :=
    run_inv (fun _ _ _ h hst => h.step hst) (Carries.start hpos) hr
  refine ⟨h.initial, fun bs t hbs hrun => ?_, h.complete⟩
  have hv := run_variant (I := fun _ => True) (μ := work)
    (fun _ _ _ _ ha hst => ⟨trivial, work_lt ha (call_of_step hst)⟩) trivial hbs hrun
  exact (Nat.le_add_right _ _).trans hv.2

/-- Two messages; the second write is interrupted, and the first read meets two bytes of the first message. -/
theorem stream_frames_two :
    ∃ s, run step (start [[1, 2, 3], [4]] [3, 1])
      [.send, .write 2, .writeIntr, .recv, .read 2, .write 1, .send, .write 1, .read 1, .recv] = some s ∧
      s.got <+: [[1, 2, 3], [4]] := by
  have hsome : (run step (start [[1, 2, 3], [4]] [3, 1])
      [.send, .write 2, .writeIntr, .recv, .read 2, .write 1, .send, .write 1, .read 1, .recv]).isSome = true := by
    decide
  obtain ⟨s, hs⟩ := Option.isSome_iff_exists.mp hsome
  exact ⟨s, hs, (stream_frames [[1, 2, 3], [4]] (by decide) _ s hs).1⟩

end Stream

end Ndhs.Collector
