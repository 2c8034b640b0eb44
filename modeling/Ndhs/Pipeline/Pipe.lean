import Ndhs.Lib.Round
import Ndhs.Pipeline.Net

/-!
# The abstract pipeline

What the four counters of the Supervisor are for: one exposure at a time passes through four
stages, and each stage ends when the answers of all nodes are counted. `Pipe` keeps of the system
only the work on its way and the counters: sequence numbers, task ids, caches and the queue are
gone, and where they decide what happens (which PXF clients are connected, whether a request
reaches the DCA, which exposure the DCA names) any choice is a move of `Pipe`.

* `Pipe.step`: the moves.
* `Pipe.In p ph`: the pipeline is in the stage `ph`: where the work of every node is, which answers
  were counted, and what the log says about them.
* `Pipe.Inv.step`: every move leads from a stage to a stage, and every broadcast and `EndReadout`
  comes after all the answers it waits for (`Gated`).
-/

namespace Ndhs

open Function Round

variable {n : Nat}

/-! ## What the log says -/

/-- The exposure of the last `process` broadcast. -/
def lastProc : List (Event n) → Option ExpID
  | [] => none
  | .procBcast e :: _ => some e
  | _ :: l => lastProc l

def Event.isProc : Event n → Bool
  | .procBcast _ => true
  | _ => false

def Event.isFeed : Event n → Bool
  | .pxfBcast _ => true
  | _ => false

/-- The log since the last `process` broadcast to the managers. -/
abbrev sinceProc (l : List (Event n)) : List (Event n) := since Event.isProc l

/-- The log since the last `process` broadcast to the PXF clients. -/
abbrev sinceFeed (l : List (Event n)) : List (Event n) := since Event.isFeed l

theorem lastProc_cons {ev : Event n} {l : List (Event n)} (h : ev.isProc = false) :
    lastProc (ev :: l) = lastProc l := by
  cases ev <;> first | rfl | cases h

/-- What has to be in the log before an event: before a `process` broadcast, the DCA and all managers
are done with the exposure before, under the name that the DCA gave it. -/
def Gated (ev : Event n) (l : List (Event n)) : Prop :=
  match ev with
  | .procBcast _ => lastProc l ≠ none → 0 < n →
    ∃ y, .dcaDone y ∈ sinceProc l ∧ ∀ i, .cleanDone i (fmt6 y) ∈ sinceProc l
  | .pxfBcast x => ∃ e, lastProc l = some e ∧ x = fmt6 e ∧ ∀ i, .smcDone i x ∈ sinceProc l
  | .endReadout => ∃ e, lastProc l = some e ∧ .pxfBcast (fmt6 e) ∈ sinceProc l ∧
    ∀ i, .transferComplete i ∈ sinceFeed l
  | _ => True

/-! ## The moves -/

/-- Work that waits at a manager. -/
inductive Job where
  | process (x : ExpID)
  | finish (x : ExpID)
  deriving DecidableEq

/-- An answer of a manager on its way to the Supervisor. -/
inductive Reply where
  | imagetype (x : ExpID)
  | smcDone (x : ExpID)
  | cleanDone (x : ExpID)
  deriving DecidableEq

@[ext]
structure Pipe (n : Nat) where
  jobs : Fin n → List Job := fun _ => []
  replies : Fin n → List Reply := fun _ => []
  /-- Exposures that wait at the PXF clients. -/
  feeds : Fin n → List ExpID := fun _ => []
  /-- The number of `TransferComplete` requests on their way from a client. -/
  xfers : Fin n → Nat := fun _ => 0
  /-- The number of `dca_trans_done` messages on their way. -/
  trans : Nat := 0
  /-- The number of `EndReadout` requests on their way. -/
  ends : Nat := 0
  /-- The `dca_done` messages on their way. -/
  dones : List ExpID := []
  started : Int := 0
  transferred : Int := 0
  cleaned : Int := -999
  log : List (Event n) := []

/-- A move; its arguments are the choices that `Pipe` does not determine. -/
inductive Move (n : Nat) where
  | bcast (e : ExpID)
  /-- Manager `i` processes the exposure and reports `k` image types. -/
  | process (i : Fin n) (k : Nat)
  | finish (i : Fin n)
  | imagetype (i : Fin n)
  /-- If this is the last report, the clients in `conn` are told to start. -/
  | smcDone (i : Fin n) (conn : Fin n → Bool)
  | cleanDone (i : Fin n)
  /-- PXF client `i` starts; its `TransferComplete` may be lost. -/
  | feed (i : Fin n) (sent : Bool)
  | transfer (i : Fin n)
  /-- If this is the last report, `EndReadout` is sent; it may be lost. -/
  | transDone (sent : Bool)
  /-- The DCA ends the readout and names the exposure. -/
  | endReadout (y : ExpID)
  /-- The exposure `r` leaves the queue, if any. -/
  | dcaDone (r : Option ExpID)

namespace Pipe

/-- A `process` report of manager `i`, `x` its exposure and `rs` the reports behind it. -/
def onSmcDone (p : Pipe n) (i : Fin n) (x : ExpID) (rs : List Reply) (conn : Fin n → Bool) :
    Pipe n :=
  if (n : Int) ≤ p.started + 1 then
    { p with
      replies := update p.replies i rs
      started := p.started + 1 - n
      feeds := fun j => if conn j then p.feeds j ++ [fmt6 x] else p.feeds j
      log := .pxfBcast (fmt6 x) :: .smcDone i x :: p.log }
  else
    { p with
      replies := update p.replies i rs
      started := p.started + 1
      log := .smcDone i x :: p.log }

/-- A `dca_trans_done` report, `k` the number of reports behind it. -/
def onTransDone (p : Pipe n) (k : Nat) (sent : Bool) : Pipe n :=
  if (n : Int) ≤ p.transferred + 1 then
    { p with
      trans := k
      transferred := p.transferred + 1 - n
      ends := p.ends + sent.toNat
      log := .endReadout :: p.log }
  else { p with trans := k, transferred := p.transferred + 1 }

/-- One move; `none` if it is not possible. -/
def step (p : Pipe n) : Move n → Option (Pipe n)
  | .bcast e =>
    if p.cleaned < 0 ∨ n ≤ p.cleaned then
      some { p with
        jobs := fun i => p.jobs i ++ [.process (fmt6 e)]
        cleaned := max (p.cleaned - n) 0
        log := .procBcast e :: p.log }
    else none
  | .process i k =>
    match p.jobs i with
    | .process x :: js =>
      some { p with
        jobs := update p.jobs i js
        replies := update p.replies i
          (p.replies i ++ (List.replicate k (.imagetype (fmt6 x)) ++ [.smcDone (fmt6 x)])) }
    | _ => none
  | .finish i =>
    match p.jobs i with
    | .finish x :: js =>
      some { p with
        jobs := update p.jobs i js
        replies := update p.replies i (p.replies i ++ [.cleanDone x]) }
    | _ => none
  | .imagetype i =>
    match p.replies i with
    | .imagetype _ :: rs => some { p with replies := update p.replies i rs }
    | _ => none
  | .smcDone i conn =>
    match p.replies i with
    | .smcDone x :: rs => some (p.onSmcDone i x rs conn)
    | _ => none
  | .cleanDone i =>
    match p.replies i with
    | .cleanDone x :: rs =>
      some { p with
        replies := update p.replies i rs
        cleaned := p.cleaned + 1
        log := .cleanDone i x :: p.log }
    | _ => none
  | .feed i sent =>
    match p.feeds i with
    | _ :: xs =>
      some { p with
        feeds := update p.feeds i xs
        xfers := update p.xfers i (p.xfers i + sent.toNat) }
    | [] => none
  | .transfer i =>
    match p.xfers i with
    | k + 1 =>
      some { p with
        xfers := update p.xfers i k
        trans := p.trans + 1
        log := .transferComplete i :: p.log }
    | 0 => none
  | .transDone sent =>
    match p.trans with
    | k + 1 => some (p.onTransDone k sent)
    | 0 => none
  | .endReadout y =>
    match p.ends with
    | k + 1 => some { p with ends := k, dones := p.dones ++ [y] }
    | 0 => none
  | .dcaDone r =>
    match p.dones with
    | y :: ys =>
      some { p with
        dones := ys
        jobs := fun i => p.jobs i ++ [.finish (fmt6 y)]
        log := (r.map Event.removed).toList ++ .dcaDone y :: p.log }
    | [] => none

/-! ## The stages -/

end Pipe

/-- The stage of an exposure, with the nodes whose answers were counted. -/
inductive Stage (n : Nat) where
  | idle
  /-- The managers process `x`. -/
  | smc (x : ExpID) (H : Finset (Fin n))
  /-- The PXF clients process `x`. -/
  | pxf (x : ExpID) (H : Finset (Fin n))
  | ending
  /-- The managers delete the pages of the exposure that the DCA called `y`. -/
  | clean (y : ExpID) (H : Finset (Fin n))

namespace Stage

/-- The work of node `i` at its manager. -/
def Lane (st : Stage n) (i : Fin n) (js : List Job) (rs : List Reply) : Prop :=
  match st with
  | .smc x H =>
    (i ∉ H ∧ js = [.process x] ∧ rs = []) ∨
    (i ∉ H ∧ js = [] ∧ ∃ k, rs = List.replicate k (.imagetype x) ++ [.smcDone x]) ∨
    (i ∈ H ∧ js = [] ∧ rs = [])
  | .clean y H =>
    (i ∉ H ∧ js = [.finish (fmt6 y)] ∧ rs = []) ∨
    (i ∉ H ∧ js = [] ∧ rs = [.cleanDone (fmt6 y)]) ∨
    (i ∈ H ∧ js = [] ∧ rs = [])
  | _ => js = [] ∧ rs = []

/-- The work of node `i` at its PXF client. -/
def Feed (st : Stage n) (i : Fin n) (xs : List ExpID) (k : Nat) : Prop :=
  match st with
  | .pxf x H => (i ∉ H ∧ xs = [x] ∧ k = 0) ∨ (i ∉ H ∧ xs = [] ∧ k = 1) ∨ (xs = [] ∧ k = 0)
  | _ => xs = [] ∧ k = 0

/-- The counters and what is on its way from and to the DCA. -/
def Counts (st : Stage n) (p : Pipe n) : Prop :=
  match st with
  | .idle => p.started = 0 ∧ (p.cleaned < 0 ∨ p.cleaned = n) ∧
    (p.trans = 0 ∧ p.transferred = 0) ∧ p.ends = 0 ∧ p.dones = []
  | .smc _ H => Upto H p.started ∧ p.cleaned = 0 ∧
    (p.trans = 0 ∧ p.transferred = 0) ∧ p.ends = 0 ∧ p.dones = []
  | .pxf _ H => p.started = 0 ∧ p.cleaned = 0 ∧
    (p.trans + p.transferred = H.card ∧ 0 < n) ∧ p.ends = 0 ∧ p.dones = []
  | .ending => p.started = 0 ∧ p.cleaned = 0 ∧
    (p.trans = 0 ∧ p.transferred = 0) ∧ p.ends + p.dones.length ≤ 1 ∧ 0 < n
  | .clean _ H => p.started = 0 ∧ Upto H p.cleaned ∧
    (p.trans = 0 ∧ p.transferred = 0) ∧ p.ends = 0 ∧ p.dones = []

/-- The answers counted are in the log. -/
def Logged (st : Stage n) (l : List (Event n)) : Prop :=
  match st with
  | .idle => lastProc l ≠ none → 0 < n →
    ∃ y, .dcaDone y ∈ sinceProc l ∧ ∀ i, .cleanDone i (fmt6 y) ∈ sinceProc l
  | .smc x H => (∃ e, lastProc l = some e ∧ x = fmt6 e) ∧ (∀ y, .pxfBcast y ∉ sinceProc l) ∧
    ∀ i ∈ H, .smcDone i x ∈ sinceProc l
  | .pxf x H => (∃ e, lastProc l = some e ∧ x = fmt6 e) ∧ .pxfBcast x ∈ sinceProc l ∧
    ∀ i ∈ H, .transferComplete i ∈ sinceFeed l
  | .ending => lastProc l ≠ none
  | .clean y H => lastProc l ≠ none ∧ .dcaDone y ∈ sinceProc l ∧
    ∀ i ∈ H, .cleanDone i (fmt6 y) ∈ sinceProc l

end Stage

namespace Pipe

/-- The pipeline is in the stage. -/
structure In (p : Pipe n) (st : Stage n) : Prop where
  lane : ∀ i, st.Lane i (p.jobs i) (p.replies i)
  feed : ∀ i, st.Feed i (p.feeds i) (p.xfers i)
  counts : st.Counts p
  logged : st.Logged p.log

/-- The pipeline is in some stage, and every event so far came after what it waits for. -/
structure Inv (p : Pipe n) : Prop where
  stage : ∃ st, p.In st
  gated : AtEach Gated p.log

theorem Inv.init : ({} : Pipe n).Inv where
  stage := ⟨.idle, fun _ => ⟨rfl, rfl⟩, fun _ => ⟨rfl, rfl⟩,
    ⟨rfl, .inl (by show (-999 : Int) < 0; decide), ⟨rfl, rfl⟩, rfl, rfl⟩, fun h => absurd rfl h⟩
  gated := .nil

variable {p p' : Pipe n} {st : Stage n}

/-- A broadcast is only possible between two exposures. -/
theorem In.of_bcast (h : p.In st) (hc : p.cleaned < 0 ∨ n ≤ p.cleaned) : st = .idle := by
  cases st with
  | idle => rfl
  | smc x H =>
    obtain ⟨⟨-, hlt⟩, h0, -⟩ := h.counts
    rw [Fintype.card_fin] at hlt
    omega
  | pxf x H =>
    obtain ⟨-, h0, ⟨-, hn⟩, -⟩ := h.counts
    omega
  | ending =>
    obtain ⟨-, h0, -, -, hn⟩ := h.counts
    omega
  | clean y H =>
    obtain ⟨-, ⟨h0, hlt⟩, -⟩ := h.counts
    rw [Fintype.card_fin] at hlt
    omega

/-! ### What is on its way tells the stage -/

section Inversion

variable {i : Fin n} {x : ExpID} {js : List Job} {rs : List Reply}

theorem In.of_process (h : p.In st) (hj : p.jobs i = .process x :: js) :
    ∃ H, st = .smc x H ∧ i ∉ H ∧ js = [] ∧ p.replies i = [] := by
  have hl := h.lane i
  rw [hj] at hl
  cases st with
  | smc x' H =>
    obtain ⟨hi, hx, hr⟩ | ⟨-, hx, -⟩ | ⟨-, hx, -⟩ := hl <;> cases hx
    exact ⟨H, rfl, hi, rfl, hr⟩
  | clean y H => obtain ⟨-, hx, -⟩ | ⟨-, hx, -⟩ | ⟨-, hx, -⟩ := hl <;> cases hx
  | _ => exact nomatch hl.1

theorem In.of_finish (h : p.In st) (hj : p.jobs i = .finish x :: js) :
    ∃ y H, st = .clean y H ∧ x = fmt6 y ∧ i ∉ H ∧ js = [] ∧ p.replies i = [] := by
  have hl := h.lane i
  rw [hj] at hl
  cases st with
  | smc x' H => obtain ⟨-, hx, -⟩ | ⟨-, hx, -⟩ | ⟨-, hx, -⟩ := hl <;> cases hx
  | clean y H =>
    obtain ⟨hi, hx, hr⟩ | ⟨-, hx, -⟩ | ⟨-, hx, -⟩ := hl <;> cases hx
    exact ⟨y, H, rfl, rfl, hi, rfl, hr⟩
  | _ => exact nomatch hl.1

theorem In.of_imagetype (h : p.In st) (hr : p.replies i = .imagetype x :: rs) :
    ∃ H k, st = .smc x H ∧ i ∉ H ∧ p.jobs i = [] ∧
      rs = List.replicate k (.imagetype x) ++ [.smcDone x] := by
  have hl := h.lane i
  rw [hr] at hl
  cases st with
  | smc x' H =>
    obtain ⟨-, -, hx⟩ | ⟨hi, hj, k, hx⟩ | ⟨-, -, hx⟩ := hl
    · cases hx
    · cases k with
      | zero => cases hx
      | succ k =>
        rw [List.replicate_succ] at hx
        cases hx
        exact ⟨H, k, rfl, hi, hj, rfl⟩
    · cases hx
  | clean y H => obtain ⟨-, -, hx⟩ | ⟨-, -, hx⟩ | ⟨-, -, hx⟩ := hl <;> cases hx
  | _ => exact nomatch hl.2

theorem In.of_smcDone (h : p.In st) (hr : p.replies i = .smcDone x :: rs) :
    ∃ H, st = .smc x H ∧ i ∉ H ∧ p.jobs i = [] ∧ rs = [] := by
  have hl := h.lane i
  rw [hr] at hl
  cases st with
  | smc x' H =>
    obtain ⟨-, -, hx⟩ | ⟨hi, hj, k, hx⟩ | ⟨-, -, hx⟩ := hl
    · cases hx
    · cases k with
      | zero => cases hx; exact ⟨H, rfl, hi, hj, rfl⟩
      | succ k => rw [List.replicate_succ] at hx; cases hx
    · cases hx
  | clean y H => obtain ⟨-, -, hx⟩ | ⟨-, -, hx⟩ | ⟨-, -, hx⟩ := hl <;> cases hx
  | _ => exact nomatch hl.2

theorem In.of_cleanDone (h : p.In st) (hr : p.replies i = .cleanDone x :: rs) :
    ∃ y H, st = .clean y H ∧ x = fmt6 y ∧ i ∉ H ∧ p.jobs i = [] ∧ rs = [] := by
  have hl := h.lane i
  rw [hr] at hl
  cases st with
  | smc x' H =>
    obtain ⟨-, -, hx⟩ | ⟨-, -, k, hx⟩ | ⟨-, -, hx⟩ := hl
    · cases hx
    · cases k with
      | zero => cases hx
      | succ k => rw [List.replicate_succ] at hx; cases hx
    · cases hx
  | clean y H =>
    obtain ⟨-, -, hx⟩ | ⟨hi, hj, hx⟩ | ⟨-, -, hx⟩ := hl <;> cases hx
    exact ⟨y, H, rfl, rfl, hi, hj, rfl⟩
  | _ => exact nomatch hl.2

theorem In.of_feed {xs : List ExpID} (h : p.In st) (hx : p.feeds i = x :: xs) :
    ∃ H, st = .pxf x H ∧ i ∉ H ∧ xs = [] ∧ p.xfers i = 0 := by
  have hl := h.feed i
  rw [hx] at hl
  cases st with
  | pxf x' H =>
    obtain ⟨hi, hx, hk⟩ | ⟨-, hx, -⟩ | ⟨hx, -⟩ := hl <;> cases hx
    exact ⟨H, rfl, hi, rfl, hk⟩
  | _ => exact nomatch hl.1

theorem In.of_transfer {k : Nat} (h : p.In st) (hk : p.xfers i = k + 1) :
    ∃ x H, st = .pxf x H ∧ i ∉ H ∧ p.feeds i = [] ∧ k = 0 := by
  have hl := h.feed i
  rw [hk] at hl
  cases st with
  | pxf x' H =>
    obtain ⟨-, -, hx⟩ | ⟨hi, hf, hx⟩ | ⟨-, hx⟩ := hl <;> cases hx
    exact ⟨x', H, rfl, hi, hf, rfl⟩
  | _ => exact nomatch hl.2

theorem In.of_transDone {k : Nat} (h : p.In st) (hk : p.trans = k + 1) : ∃ x H, st = .pxf x H := by
  cases st with
  | pxf x H => exact ⟨x, H, rfl⟩
  | idle | smc x H | ending | clean y H =>
    obtain ⟨-, -, ⟨ht, -⟩, -⟩ := h.counts
    rw [hk] at ht
    cases ht

theorem In.of_ends {k : Nat} (h : p.In st) (hk : p.ends = k + 1) :
    st = .ending ∧ k = 0 ∧ p.dones = [] := by
  cases st with
  | ending =>
    obtain ⟨-, -, -, hle, -⟩ := h.counts
    exact ⟨rfl, by omega, List.length_eq_zero_iff.mp (by omega)⟩
  | idle | smc x H | pxf x H | clean y H =>
    obtain ⟨-, -, -, ht, -⟩ := h.counts
    rw [hk] at ht
    cases ht

theorem In.of_dones {y : ExpID} {ys : List ExpID} (h : p.In st) (hy : p.dones = y :: ys) :
    st = .ending ∧ ys = [] ∧ p.ends = 0 := by
  cases st with
  | ending =>
    obtain ⟨-, -, -, hle, -⟩ := h.counts
    rw [hy, List.length_cons] at hle
    exact ⟨rfl, List.length_eq_zero_iff.mp (by omega), by omega⟩
  | idle | smc x H | pxf x H | clean y H =>
    obtain ⟨-, -, -, -, ht⟩ := h.counts
    rw [hy] at ht
    cases ht

end Inversion

/-! ### Every move leads from a stage to a stage -/

/-- One more event that is no start of a stage. -/
theorem In.log_cons {ev : Event n} {l : List (Event n)} (h : st.Logged l) (hp : ev.isProc = false)
    (hf : ev.isFeed = false) : st.Logged (ev :: l) := by
  have hlast := lastProc_cons (l := l) hp
  have hproc : ∀ a, a ∈ sinceProc l → a ∈ sinceProc (ev :: l) :=
    fun a ha => (mem_since_cons hp).mpr (.inr ha)
  have hfeed : ∀ a, a ∈ sinceFeed l → a ∈ sinceFeed (ev :: l) :=
    fun a ha => (mem_since_cons hf).mpr (.inr ha)
  cases st with
  | idle =>
    intro hne hn
    obtain ⟨y, hy, hall⟩ := h (hlast ▸ hne) hn
    exact ⟨y, hproc _ hy, fun i => hproc _ (hall i)⟩
  | smc x H =>
    obtain ⟨he, hno, hall⟩ := h
    refine ⟨by rwa [hlast], fun y hy => ?_, fun i hi => hproc _ (hall i hi)⟩
    rcases (mem_since_cons hp).mp hy with hy | hy
    · subst hy
      cases hf
    · exact hno y hy
  | pxf x H =>
    obtain ⟨he, hx, hall⟩ := h
    exact ⟨by rwa [hlast], hproc _ hx, fun i hi => hfeed _ (hall i hi)⟩
  | ending => rw [Stage.Logged, hlast]; exact h
  | clean y H =>
    obtain ⟨he, hy, hall⟩ := h
    exact ⟨by rwa [hlast], hproc _ hy, fun i hi => hproc _ (hall i hi)⟩

/-- The lanes after node `i` changed. -/
theorem lanes_update {st' : Stage n} {js : Fin n → List Job} {rs : Fin n → List Reply} {i : Fin n}
    {j : List Job} {r : List Reply} (hi : st'.Lane i j r)
    (hne : ∀ k, k ≠ i → st'.Lane k (js k) (rs k)) (k : Fin n) :
    st'.Lane k (update js i j k) (update rs i r k) := by
  by_cases hk : k = i
  · subst hk
    rwa [update_self, update_self]
  · rw [update_of_ne hk, update_of_ne hk]
    exact hne k hk

/-- The lanes after a report of node `i` was taken. -/
theorem lanes_reply (p : Pipe n) (st' : Stage n) {i : Fin n} {r : List Reply}
    (hi : st'.Lane i (p.jobs i) r)
    (hne : ∀ k, k ≠ i → st'.Lane k (p.jobs k) (p.replies k)) (k : Fin n) :
    st'.Lane k (p.jobs k) (update p.replies i r k) := by
  have := lanes_update hi hne k
  rwa [update_eq_self] at this

/-- One more manager's answer is counted; the lanes of the others stay. -/
theorem lane_insert {x : ExpID} {H : Finset (Fin n)} {i j : Fin n} {js : List Job} {rs : List Reply}
    (hne : j ≠ i) :
    ((Stage.smc x H).Lane j js rs → (Stage.smc x (insert i H)).Lane j js rs) ∧
    ((Stage.clean x H).Lane j js rs → (Stage.clean x (insert i H)).Lane j js rs) := by
  constructor
  · rintro (⟨hm, hl⟩ | ⟨hm, hl⟩ | ⟨hm, hl⟩)
    · exact .inl ⟨by simp [hne, hm], hl⟩
    · exact .inr (.inl ⟨by simp [hne, hm], hl⟩)
    · exact .inr (.inr ⟨by simp [hm], hl⟩)
  · rintro (⟨hm, hl⟩ | ⟨hm, hl⟩ | ⟨hm, hl⟩)
    · exact .inl ⟨by simp [hne, hm], hl⟩
    · exact .inr (.inl ⟨by simp [hne, hm], hl⟩)
    · exact .inr (.inr ⟨by simp [hm], hl⟩)

/-- The lane of a manager whose answer was counted is empty. -/
theorem lane_counted {x : ExpID} {H : Finset (Fin n)} {j : Fin n} {js : List Job} {rs : List Reply}
    (hj : j ∈ H) (h : (Stage.smc x H).Lane j js rs ∨ (Stage.clean x H).Lane j js rs) :
    js = [] ∧ rs = [] := by
  rcases h with (⟨hm, -⟩ | ⟨hm, -⟩ | ⟨-, hl⟩) | (⟨hm, -⟩ | ⟨hm, -⟩ | ⟨-, hl⟩)
  · exact absurd hj hm
  · exact absurd hj hm
  · exact hl
  · exact absurd hj hm
  · exact absurd hj hm
  · exact hl

theorem In.bcast (h : p.Inv) (e : ExpID) (hst : p.step (.bcast e) = some p') : p'.Inv := by
  obtain ⟨⟨st, hi⟩, hg⟩ := h
  rw [step] at hst
  split at hst
  · rename_i hc
    cases hst
    obtain rfl := hi.of_bcast hc
    obtain ⟨h1, h2, h3, h4⟩ := hi.counts
    refine ⟨?_, hg.cons hi.logged⟩
    have hcl : max (p.cleaned - n) 0 = 0 := by omega
    rcases Nat.eq_zero_or_pos n with rfl | hn
    · exact ⟨.idle, fun i => i.elim0, fun i => i.elim0, ⟨h1, .inr (by simpa using hcl), h3, h4⟩,
        fun _ hn => absurd hn (by decide)⟩
    · refine ⟨.smc (fmt6 e) ∅, fun i => ?_, fun i => hi.feed i, ⟨?_, hcl, h3, h4⟩,
        ⟨⟨e, rfl, rfl⟩, (fun _ hy => nomatch hy), fun i hi => absurd hi (Finset.notMem_empty i)⟩⟩
      · obtain ⟨hj, hr⟩ := hi.lane i
        exact .inl ⟨Finset.notMem_empty i, by simp only [hj]; rfl, hr⟩
      · show Upto ∅ p.started
        rw [h1]
        exact Upto.empty (by rwa [Fintype.card_fin])
  · cases hst

theorem In.process (h : p.Inv) (i : Fin n) (k : Nat) (hst : p.step (.process i k) = some p') :
    p'.Inv := by
  obtain ⟨⟨st, hi⟩, hg⟩ := h
  rw [step] at hst
  split at hst
  · rename_i x js hj
    cases hst
    obtain ⟨H, rfl, hiH, rfl, hr⟩ := hi.of_process hj
    obtain ⟨⟨e, he, rfl⟩, -⟩ := hi.logged
    refine ⟨⟨.smc (fmt6 e) H, ?_, hi.feed, hi.counts, hi.logged⟩, hg⟩
    rw [hr, fmt6_fmt6]
    exact lanes_update (.inr (.inl ⟨hiH, rfl, k, rfl⟩)) fun j _ => hi.lane j
  · cases hst

theorem In.finish (h : p.Inv) (i : Fin n) (hst : p.step (.finish i) = some p') : p'.Inv := by
  obtain ⟨⟨st, hi⟩, hg⟩ := h
  rw [step] at hst
  split at hst
  · rename_i x js hj
    cases hst
    obtain ⟨y, H, rfl, rfl, hiH, rfl, hr⟩ := hi.of_finish hj
    refine ⟨⟨.clean y H, ?_, hi.feed, hi.counts, hi.logged⟩, hg⟩
    rw [hr]
    exact lanes_update (.inr (.inl ⟨hiH, rfl, rfl⟩)) fun j _ => hi.lane j
  · cases hst

theorem In.imagetype (h : p.Inv) (i : Fin n) (hst : p.step (.imagetype i) = some p') : p'.Inv := by
  obtain ⟨⟨st, hi⟩, hg⟩ := h
  rw [step] at hst
  split at hst
  · rename_i x rs hr
    cases hst
    obtain ⟨H, k, rfl, hiH, hj, rfl⟩ := hi.of_imagetype hr
    refine ⟨⟨.smc x H, ?_, hi.feed, hi.counts, hi.logged⟩, hg⟩
    exact p.lanes_reply (.smc x H) (.inr (.inl ⟨hiH, hj, k, rfl⟩)) fun j _ => hi.lane j
  · cases hst

theorem In.cleanDone (h : p.Inv) (i : Fin n) (hst : p.step (.cleanDone i) = some p') : p'.Inv := by
  obtain ⟨⟨st, hi⟩, hg⟩ := h
  rw [step] at hst
  split at hst
  · rename_i x rs hr
    cases hst
    obtain ⟨y, H, rfl, rfl, hiH, hj, rfl⟩ := hi.of_cleanDone hr
    obtain ⟨h1, hup, h3⟩ := hi.counts
    obtain ⟨hne, hy, hall⟩ := hi.logged
    have hmem : ∀ a, a = .cleanDone i (fmt6 y) ∨ a ∈ sinceProc p.log →
        a ∈ sinceProc (.cleanDone i (fmt6 y) :: p.log) := fun a => (mem_since_cons rfl).mpr
    refine ⟨?_, hg.cons trivial⟩
    by_cases hc : p.cleaned + 1 < n
    · refine ⟨.clean y (insert i H), ?_, hi.feed, ⟨h1, hup.insert hiH (by simpa using hc), h3⟩,
        hne, hmem _ (.inr hy), fun j hjm => ?_⟩
      · exact p.lanes_reply (.clean y (insert i H))
          (.inr (.inr ⟨Finset.mem_insert_self i H, hj, rfl⟩)) fun j hne => (lane_insert hne).2 (hi.lane j)
      · rcases Finset.mem_insert.mp hjm with rfl | hjH
        · exact hmem _ (.inl rfl)
        · exact hmem _ (.inr (hall j hjH))
    · obtain ⟨hfull, hothers⟩ := hup.full hiH (by rw [Fintype.card_fin]; omega)
      rw [Fintype.card_fin] at hfull
      refine ⟨.idle, ?_, hi.feed, ⟨h1, .inr hfull, h3⟩, fun _ _ => ⟨y, hmem _ (.inr hy), fun j => ?_⟩⟩
      · exact p.lanes_reply .idle ⟨hj, rfl⟩ fun j hne => lane_counted (hothers j hne) (.inr (hi.lane j))
      · by_cases hji : j = i
        · exact hmem _ (.inl (by rw [hji]))
        · exact hmem _ (.inr (hall j (hothers j hji)))
  · cases hst

theorem In.smcDone (h : p.Inv) (i : Fin n) (conn : Fin n → Bool)
    (hst : p.step (.smcDone i conn) = some p') : p'.Inv := by
  obtain ⟨⟨st, hi⟩, hg⟩ := h
  rw [step] at hst
  split at hst
  · rename_i x rs hr
    cases hst
    obtain ⟨H, rfl, hiH, hj, rfl⟩ := hi.of_smcDone hr
    obtain ⟨hup, h2, h3, h4⟩ := hi.counts
    obtain ⟨⟨e, he, rfl⟩, hno, hall⟩ := hi.logged
    have hmem : ∀ a, a = .smcDone i (fmt6 e) ∨ a ∈ sinceProc p.log →
        a ∈ sinceProc (.smcDone i (fmt6 e) :: p.log) := fun a => (mem_since_cons rfl).mpr
    unfold onSmcDone
    split
    · -- the last report: the clients are told to start
      rename_i hc
      obtain ⟨hfull, hothers⟩ := hup.full hiH (by rwa [Fintype.card_fin])
      rw [Fintype.card_fin] at hfull
      have hdone : ∀ j, .smcDone j (fmt6 e) ∈ sinceProc (.smcDone i (fmt6 e) :: p.log) := by
        intro j
        by_cases hji : j = i
        · exact hmem _ (.inl (by rw [hji]))
        · exact hmem _ (.inr (hall j (hothers j hji)))
      have hlast : lastProc (.smcDone i (fmt6 e) :: p.log) = some e := he
      refine ⟨⟨.pxf (fmt6 e) ∅, ?_, fun j => ?_, ⟨by simp only; omega, h2, ?_, h4⟩,
        ⟨⟨e, hlast, rfl⟩, ?_, fun j hjm => absurd hjm (Finset.notMem_empty j)⟩⟩, ?_⟩
      · exact p.lanes_reply (.pxf _ ∅) ⟨hj, rfl⟩ fun j hne =>
          lane_counted (hothers j hne) (.inl (hi.lane j))
      · obtain ⟨hf, hx⟩ := hi.feed j
        simp only [hf, hx, fmt6_fmt6, List.nil_append]
        cases conn j
        · exact .inr (.inr ⟨rfl, rfl⟩)
        · exact .inl ⟨Finset.notMem_empty j, rfl, rfl⟩
      · obtain ⟨ht, htr⟩ := h3
        simp only [ht, htr, Finset.card_empty]
        exact ⟨rfl, i.pos⟩
      · rw [fmt6_fmt6]
        exact (mem_since_cons rfl).mpr (.inl rfl)
      · refine AtEach.cons (hg.cons trivial) ⟨e, hlast, fmt6_fmt6 e, fun j => ?_⟩
        rw [fmt6_fmt6]
        exact hdone j
    · rename_i hc
      refine ⟨⟨.smc (fmt6 e) (insert i H), ?_, hi.feed,
        ⟨hup.insert hiH (by rw [Fintype.card_fin]; omega), h2, h3, h4⟩, ⟨e, he, rfl⟩,
        fun y hy => ?_, fun j hjm => ?_⟩, hg.cons trivial⟩
      · exact p.lanes_reply (.smc _ (insert i H))
          (.inr (.inr ⟨Finset.mem_insert_self i H, hj, rfl⟩)) fun j hne => (lane_insert hne).1 (hi.lane j)
      · rcases (mem_since_cons rfl).mp hy with hy | hy
        · cases hy
        · exact hno y hy
      · rcases Finset.mem_insert.mp hjm with rfl | hjH
        · exact hmem _ (.inl rfl)
        · exact hmem _ (.inr (hall j hjH))
  · cases hst

/-- The feeds after node `i` changed. -/
theorem feeds_update (st' : Stage n) {fs : Fin n → List ExpID} {ks : Fin n → Nat} {i : Fin n}
    {f : List ExpID} {k : Nat} (hi : st'.Feed i f k) (hne : ∀ j, j ≠ i → st'.Feed j (fs j) (ks j))
    (j : Fin n) : st'.Feed j (update fs i f j) (update ks i k j) := by
  by_cases hj : j = i
  · subst hj
    rwa [update_self, update_self]
  · rw [update_of_ne hj, update_of_ne hj]
    exact hne j hj

theorem In.feedMove (h : p.Inv) (i : Fin n) (sent : Bool) (hst : p.step (.feed i sent) = some p') :
    p'.Inv := by
  obtain ⟨⟨st, hi⟩, hg⟩ := h
  rw [step] at hst
  split at hst
  · rename_i x xs hf
    cases hst
    obtain ⟨H, rfl, hiH, rfl, hk⟩ := hi.of_feed hf
    refine ⟨⟨.pxf x H, hi.lane, feeds_update (.pxf x H) ?_ fun j _ => hi.feed j, hi.counts, hi.logged⟩, hg⟩
    rw [hk]
    cases sent
    · exact .inr (.inr ⟨rfl, rfl⟩)
    · exact .inr (.inl ⟨hiH, rfl, rfl⟩)
  · cases hst

theorem In.transfer (h : p.Inv) (i : Fin n) (hst : p.step (.transfer i) = some p') : p'.Inv := by
  obtain ⟨⟨st, hi⟩, hg⟩ := h
  rw [step] at hst
  split at hst
  · rename_i k hk
    cases hst
    obtain ⟨x, H, rfl, hiH, hf, rfl⟩ := hi.of_transfer hk
    obtain ⟨h1, h2, ⟨ht, hn⟩, h4⟩ := hi.counts
    obtain ⟨he, hx, hall⟩ := hi.logged
    refine ⟨⟨.pxf x (insert i H), hi.lane, ?_, ⟨h1, h2, ⟨?_, hn⟩, h4⟩, he,
      (mem_since_cons rfl).mpr (.inr hx), fun j hjm => ?_⟩, hg.cons trivial⟩
    · have hothers : ∀ j, j ≠ i → (Stage.pxf x (insert i H)).Feed j (p.feeds j) (p.xfers j) := by
        intro j hne
        obtain ⟨hm, hl⟩ | ⟨hm, hl⟩ | hl := hi.feed j
        · exact .inl ⟨by simp [hne, hm], hl⟩
        · exact .inr (.inl ⟨by simp [hne, hm], hl⟩)
        · exact .inr (.inr hl)
      have := feeds_update (.pxf x (insert i H)) (f := p.feeds i) (.inr (.inr ⟨hf, rfl⟩)) hothers
      rwa [update_eq_self] at this
    · rw [Finset.card_insert_of_notMem hiH]
      push_cast
      omega
    · rcases Finset.mem_insert.mp hjm with rfl | hjH
      · exact (mem_since_cons rfl).mpr (.inl rfl)
      · exact (mem_since_cons rfl).mpr (.inr (hall j hjH))
  · cases hst

theorem In.transDone (h : p.Inv) (sent : Bool) (hst : p.step (.transDone sent) = some p') :
    p'.Inv := by
  obtain ⟨⟨st, hi⟩, hg⟩ := h
  rw [step] at hst
  split at hst
  · rename_i k hk
    cases hst
    obtain ⟨x, H, rfl⟩ := hi.of_transDone hk
    obtain ⟨h1, h2, ⟨ht, hn⟩, h4, h5⟩ := hi.counts
    obtain ⟨⟨e, he, rfl⟩, hx, hall⟩ := hi.logged
    have hle := H.card_le_univ
    rw [Fintype.card_fin] at hle
    unfold onTransDone
    split
    · -- the last report: every client's transfer was counted
      rename_i hc
      have hcard : H.card = Fintype.card (Fin n) := by rw [Fintype.card_fin]; omega
      obtain rfl := (Finset.card_eq_iff_eq_univ H).mp hcard
      refine ⟨⟨.ending, hi.lane, fun j => ?_, ⟨h1, h2, ⟨?_, ?_⟩, ?_, hn⟩, ?_⟩,
        hg.cons ⟨e, he, hx, fun j => hall j (Finset.mem_univ j)⟩⟩
      · obtain ⟨hm, -⟩ | ⟨hm, -⟩ | hl := hi.feed j
        · exact absurd (Finset.mem_univ j) hm
        · exact absurd (Finset.mem_univ j) hm
        · exact hl
      · simp only; omega
      · simp only; omega
      · simp only [h4, h5, Nat.zero_add, List.length_nil, Nat.add_zero]
        exact Bool.toNat_le sent
      · show lastProc p.log ≠ none
        rw [he]
        exact Option.some_ne_none e
    · exact ⟨⟨.pxf (fmt6 e) H, hi.lane, hi.feed, ⟨h1, h2, ⟨by simp only; omega, hn⟩, h4, h5⟩,
        ⟨e, he, rfl⟩, hx, hall⟩, hg⟩
  · cases hst

theorem In.endReadout (h : p.Inv) (y : ExpID) (hst : p.step (.endReadout y) = some p') :
    p'.Inv := by
  obtain ⟨⟨st, hi⟩, hg⟩ := h
  rw [step] at hst
  split at hst
  · rename_i k hk
    cases hst
    obtain ⟨rfl, rfl, hd⟩ := hi.of_ends hk
    obtain ⟨h1, h2, h3, -, hn⟩ := hi.counts
    exact ⟨⟨.ending, hi.lane, hi.feed, ⟨h1, h2, h3, by simp [hd], hn⟩, hi.logged⟩, hg⟩
  · cases hst

theorem In.dcaDone (h : p.Inv) (r : Option ExpID) (hst : p.step (.dcaDone r) = some p') :
    p'.Inv := by
  obtain ⟨⟨st, hi⟩, hg⟩ := h
  rw [step] at hst
  split at hst
  · rename_i y ys hy
    cases hst
    obtain ⟨rfl, rfl, he⟩ := hi.of_dones hy
    obtain ⟨h1, h2, h3, -, hn⟩ := hi.counts
    have hlog : (Stage.clean y ∅).Logged (.dcaDone y :: p.log) :=
      ⟨hi.logged, (mem_since_cons rfl).mpr (.inl rfl), fun i hm => absurd hm (Finset.notMem_empty i)⟩
    refine ⟨⟨.clean y ∅, fun i => ?_, hi.feed, ⟨h1, ?_, h3, he, rfl⟩, ?_⟩, ?_⟩
    · obtain ⟨hj, hr⟩ := hi.lane i
      exact .inl ⟨Finset.notMem_empty i, by simp only [hj]; rfl, hr⟩
    · show Upto ∅ p.cleaned
      rw [h2]
      exact Upto.empty (by rwa [Fintype.card_fin])
    · cases r with
      | none => exact hlog
      | some e => exact In.log_cons hlog rfl rfl
    · cases r with
      | none => exact hg.cons trivial
      | some e => exact AtEach.cons (hg.cons trivial) trivial
  · cases hst

/-- Every move keeps the invariant. -/
theorem Inv.step (h : p.Inv) (m : Move n) (hst : p.step m = some p') : p'.Inv := by
  cases m with
  | bcast e => exact In.bcast h e hst
  | process i k => exact In.process h i k hst
  | finish i => exact In.finish h i hst
  | imagetype i => exact In.imagetype h i hst
  | smcDone i conn => exact In.smcDone h i conn hst
  | cleanDone i => exact In.cleanDone h i hst
  | feed i sent => exact In.feedMove h i sent hst
  | transfer i => exact In.transfer h i hst
  | transDone sent => exact In.transDone h sent hst
  | endReadout y => exact In.endReadout h y hst
  | dcaDone r => exact In.dcaDone h r hst

end Pipe

end Ndhs
