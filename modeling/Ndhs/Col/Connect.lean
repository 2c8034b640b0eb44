import Mathlib.Logic.Function.Basic
import Ndhs.Lib.Run
import Ndhs.Lib.Text

/-!
# The connection to the Collector (`dcaInitChannel.c`, `dcaOpenChannel.c` and `dhsUtilOpenConnect.c` of `lib`)

A PAN connects to the Collector with `dcaInitChannel`, which keeps a connection that is alive and opens one otherwise.
`dhsConnectCollector` calls it in a loop.

* `Net`: the channels, and which descriptors are open sockets with a peer. An `Outcome` is what the system calls and the
  peers give during a call. A call without a result is one that does not return: the program dies, or waits for a peer
  that does not answer, or `dcaRecv` repeats a `select` that fails for a descriptor that is not open.
* `Established`: the call returns what became of the connection. `Retried`: the loop succeeds if one of its attempts does.
* `established_iff`: a connection that is refused counts as one, unless its descriptor is zero.
* `retried_iff`: there is no second attempt.
-/

namespace Ndhs.Collector

open Text Function Machine

def dcaOk : Int := 1
def dcaErr : Int := -2
def dhsOk : Int := 0
def dhsError : Int := -1

/-- `DCA_CON` -/
def dcaCon : Int := 0o10000

/-- `MAXTRYS` -/
def maxtrys : Nat := 10

/-- `struct dhsChan` -/
structure DhsChan where
  fd : Int
  node : Str
  port : Int
  connected : Int
  deriving DecidableEq

/-- What a descriptor is: it is not open, or a socket that its peer has left, or one that is connected. -/
inductive Sock where
  | closed
  | dropped
  | connected
  deriving DecidableEq

/-- `dhsNetw`, and the sockets. Of the channel to the supervisor only the descriptor matters. -/
structure Net where
  super : Option Int
  collector : Option DhsChan
  sockets : Nat → Sock

/-- `socket` and `connect` -/
inductive Attempt where
  | noSocket
  | refused (fd : Nat)
  | connected (fd : Nat)

/-- What a call meets. There is no descriptor, answer or reply if the peer neither answers nor closes the connection, or
the write to it ends the program. -/
structure Outcome where
  /-- `dcaSupOpenConn` -/
  superFd : Option Int
  /-- The answer of the supervisor, empty if it closes the connection -/
  device : Option Str
  /-- The peer answers the `DCA_NOOP`, or closes the connection. -/
  reply : Option Bool
  /-- `gethostbyname` finds the node. -/
  found : Bool
  attempt : Attempt

namespace Net

variable (s : Net)

/-- The descriptor is an open, connected socket. -/
def isConnected : Int → Bool
  | .ofNat fd => s.sockets fd == .connected
  | .negSucc _ => false

def close : Int → Net
  | .ofNat fd => { s with sockets := update s.sockets fd .closed }
  | .negSucc _ => s

/-- What a request on a descriptor gives: the answer of the peer, or what there is if it has left. -/
def answer {α : Type} (left : α) (peer : Option α) : Int → Option α
  | .ofNat fd =>
    match s.sockets fd with
    | .closed => none
    | .dropped => peer.map fun _ => left
    | .connected => peer
  | .negSucc _ => none

end Net

/-- The size of the node's buffer (`SZ_LINE` of `dcaDev.c`) -/
def szNode : Nat := 80

/-- `dcaGetNode`, to a buffer of zeros -/
def dcaGetNode (device : Str) : Option Str :=
  let node := device.takeWhile (· != ':')
  if node.length < szNode then some node else none

/-- `dcaGetPort`: `strchr` gives `NULL` if there is no colon. -/
def dcaGetPort (device : Str) : Option Int :=
  match device.dropWhile (· != ':') with
  | [] => none
  | _ :: s => some (atoi s)

/-- `dcaInitChannel` of `DCA_SUPERVISOR` for a channel that does not exist: it does in any case afterwards. -/
def initSuper (s : Net) (o : Outcome) : Option Net :=
  match s.super with
  | some _ => some s
  | none =>
    match o.superFd with
    | none => none
    | some (.ofNat (fd + 1)) => some { s with super := some (fd + 1), sockets := update s.sockets (fd + 1) .connected }
    | some fd => some { s with super := some fd }

/-- `dcaGetDCADev (dhsID->super->fd)` -/
def dcaGetDCADev (s : Net) (o : Outcome) : Option Str := s.super.bind (s.answer [] o.device)

/-- `dcaConnectionACK (fd) == DCA_ALIVE` -/
def dcaConnectionACK (s : Net) (o : Outcome) (fd : Int) : Option Bool := s.answer false o.reply fd

/-- The channel, with the device that the supervisor names if it is new. Its descriptor is not set then, nor read. -/
def collChan (s : Net) (o : Outcome) : Option DhsChan :=
  match s.collector with
  | some chan => some chan
  | none => do
    let device ← dcaGetDCADev s o
    let node ← dcaGetNode device
    let port ← dcaGetPort device
    return { fd := 0, node, port, connected := 0 }

/-- `collChan->connected > 0 && dcaConnectionACK (collChan->fd) == DCA_ALIVE` -/
def isAlive (s : Net) (o : Outcome) (chan : DhsChan) : Option Bool :=
  if 0 < chan.connected then dcaConnectionACK s o chan.fd else some false

/-- Where the connection goes to: `dcaUseSim` -/
def nodeOf (sim : Bool) (chan : DhsChan) : Str := if sim then chars "localhost" else chan.node

/-- `gethostbyname` is called, and does not find the node: the `NULL` is used. -/
def isLost (node : Str) (o : Outcome) : Bool := node.head?.any Char.isAlpha && !o.found

/-- `dcaSockConnect`: the descriptor that is left in `sock`, which is closed if the connection was refused -/
def dcaSockConnect (s : Net) (node : Str) (o : Outcome) : Option (Int × Net) :=
  if isLost node o then none
  else
    match o.attempt with
    | .noSocket => some (-1, s)
    | .refused fd => some (fd, { s with sockets := update s.sockets fd .closed })
    | .connected fd => some (fd, { s with sockets := update s.sockets fd .connected })

/-- The end of `dcaInitChannel`: a connection that is not alive is closed, and the channel is opened. -/
def openCollector (sim : Bool) (s : Net) (chan : DhsChan) (o : Outcome) : Option (Int × Net) := do
  let s := if 0 < chan.connected then s.close chan.fd else s
  let (sock, s) ← dcaSockConnect s (nodeOf sim chan) o
  -- `dcaOpenChannel` sets the descriptor in any case
  if 0 < sock then return (dcaOk, { s with collector := some { chan with fd := sock, connected := chan.connected + 1 } })
  else return (dcaErr, { s with collector := some { chan with fd := sock, connected := 0 } })

/-- `dcaInitChannel` of `DCA_COLLECTOR` -/
def dcaInitChannel (sim : Bool) (s : Net) (o : Outcome) : Option (Int × Net) := do
  let s ← initSuper s o
  let chan ← collChan s o
  let alive ← isAlive s o chan
  if alive then return (dcaOk, { s with collector := some { chan with connected := dcaCon } })
  else openCollector sim s chan o

/-- The loop, for the outcomes of the attempts that it may make. Both branches return. -/
def connectLoop (sim : Bool) (s : Net) : List Outcome → Option (Int × Net)
  | [] => none
  | o :: _ => do
    let (status, s) ← dcaInitChannel sim s o
    if status = dcaOk then return (dhsOk, s) else return (dhsError, s)

/-- `dhsConnectCollector`: at most `MAXTRYS` attempts -/
def dhsConnectCollector (sim : Bool) (s : Net) (os : Nat → Outcome) : Option (Int × Net) :=
  connectLoop sim s ((List.range maxtrys).map os)

/-! ## What is wanted -/

/-- The channel to the Collector is an open, connected socket. -/
def Net.Connected (s : Net) : Prop := ∃ chan, s.collector = some chan ∧ s.isConnected chan.fd = true

/-- The channel is marked as not connected. -/
def Net.Marked (s : Net) : Prop := ∃ chan, s.collector = some chan ∧ chan.connected = 0

/-- `dcaInitChannel` returns `DCA_OK` if there is a connection, and otherwise `DCA_ERR` with `connected` zero. -/
def Established (sim : Bool) (s : Net) (o : Outcome) : Prop :=
  ∃ status t, dcaInitChannel sim s o = some (status, t) ∧ (status = dcaOk ↔ t.Connected) ∧
    (¬ t.Connected → status = dcaErr ∧ t.Marked)

/-- One of the attempts connects. -/
def Succeeded (sim : Bool) : Net → List Outcome → Prop
  | _, [] => False
  | s, o :: os => ∃ status t, dcaInitChannel sim s o = some (status, t) ∧ (t.Connected ∨ Succeeded sim t os)

/-- The loop gives `DHS_OK` if one of the attempts connects, and only then. -/
def Looped (sim : Bool) (s : Net) (os : List Outcome) : Prop :=
  ∃ status t, connectLoop sim s os = some (status, t) ∧ (status = dhsOk ↔ Succeeded sim s os)

/-- `dhsConnectCollector` returns `DHS_OK` if one of up to `MAXTRYS` attempts connects, and only then. -/
def Retried (sim : Bool) (s : Net) (os : Nat → Outcome) : Prop :=
  ∃ status t, dhsConnectCollector sim s os = some (status, t) ∧
    (status = dhsOk ↔ Succeeded sim s ((List.range maxtrys).map os))

/-! ## When it is so -/

/-- One of the attempts would connect to the node, and none before it dies or leaves a descriptor above zero, on which the
next one would wait for ever. -/
def WouldConnect (node : Str) : List Outcome → Prop
  | [] => False
  | o :: os =>
    isLost node o = false ∧
      match o.attempt with
      | .noSocket => WouldConnect node os
      | .refused fd => fd = 0 ∧ WouldConnect node os
      | .connected _ => True

/-- The attempt does not die and is not refused, and no descriptor is zero; if there is no connection,
the condition `later` holds of the node. -/
def GoodAttempt (node : Str) (o : Outcome) (later : Prop) : Prop :=
  isLost node o = false ∧
    match o.attempt with
    | .noSocket => later
    | .refused fd => fd = 0 ∧ later
    | .connected fd => 0 < fd

/-- There is a channel, or the supervisor names a device for one. It is alive; or it is found not to be, and the attempt
is good. -/
def GoodCall (sim : Bool) (s : Net) (o : Outcome) (later : Str → Prop) : Prop :=
  ∃ t chan, initSuper s o = some t ∧ collChan t o = some chan ∧
    (isAlive t o chan = some true ∨
      isAlive t o chan = some false ∧ GoodAttempt (nodeOf sim chan) o (later (nodeOf sim chan)))

/-! ## One attempt -/

/-- What is left in `sock` -/
def Attempt.sock : Attempt → Int
  | .noSocket => -1
  | .refused fd => fd
  | .connected fd => fd

/-- The sockets afterwards -/
def Attempt.sockets (a : Attempt) (f : Nat → Sock) : Nat → Sock :=
  match a with
  | .noSocket => f
  | .refused fd => update f fd .closed
  | .connected fd => update f fd .connected

def Attempt.connects : Attempt → Bool
  | .connected _ => true
  | _ => false

section
variable {sim : Bool} {s t : Net} {o : Outcome} {chan : DhsChan} {node : Str} {later : Prop} {n : Int}

theorem dcaSockConnect_eq (h : isLost node o = false) :
    dcaSockConnect s node o = some (o.attempt.sock, { s with sockets := o.attempt.sockets s.sockets }) := by
  rw [dcaSockConnect, h, if_neg Bool.false_ne_true]
  cases o.attempt with
  | noSocket => rfl
  | refused fd => rfl
  | connected fd => rfl

/-- The descriptor that is left is a connection if one was made, ... -/
theorem isConnected_sock (s : Net) (a : Attempt) :
    Net.isConnected { s with sockets := a.sockets s.sockets } a.sock = a.connects := by
  cases a with
  | noSocket => rfl
  | refused fd => exact congrArg (· == Sock.connected) (update_self fd .closed s.sockets)
  | connected fd => exact congrArg (· == Sock.connected) (update_self fd .connected s.sockets)

/-- ... and it is not open if none was made. -/
theorem answer_sock (s : Net) {a : Attempt} (ha : a.connects = false) {α : Type} (left : α) (peer : Option α) :
    Net.answer { s with sockets := a.sockets s.sockets } left peer a.sock = none := by
  cases a with
  | noSocket => rfl
  | refused fd => simp [Attempt.sock, Attempt.sockets, Net.answer]
  | connected fd => cases ha

/-- A channel with the count `n` on which an attempt was made: its descriptor is that of the attempt. -/
structure Tried (sim : Bool) (node : Str) (n : Int) (a : Attempt) (t : Net) (chan : DhsChan) : Prop where
  super : t.super.isSome
  collector : t.collector = some chan
  node : nodeOf sim chan = node
  conn : t.isConnected chan.fd = a.connects
  connected : chan.connected = if 0 < a.sock then n + 1 else 0
  /-- the test of the channel does not return -/
  waits : a.connects = false → ∀ o, dcaConnectionACK t o chan.fd = none

theorem Tried.connected_iff {a : Attempt} (h : Tried sim node n a t chan) : t.Connected ↔ a.connects = true := by
  constructor
  · rintro ⟨chan', hc', hconn⟩
    rw [h.collector] at hc'
    cases hc'
    exact h.conn.symm.trans hconn
  · intro hconn
    exact ⟨chan, h.collector, h.conn.trans hconn⟩

theorem initSuper_super (h : initSuper s o = some t) : t.super.isSome := by
  unfold initSuper at h
  split at h
  · next hs =>
    cases h
    rw [hs]
    rfl
  · split at h
    · cases h
    · cases h
      rfl
    · cases h
      rfl

theorem initSuper_of_isSome (h : s.super.isSome) : initSuper s o = some s := by
  obtain ⟨fd, hfd⟩ := Option.isSome_iff_exists.mp h
  rw [initSuper, hfd]

section Call

variable (sim) (hi : initSuper s o = some t) (hc : collChan t o = some chan)
include hi hc

/-- The connection that there is is kept. -/
theorem dcaInitChannel_alive (ha : isAlive t o chan = some true) :
    ∃ u, dcaInitChannel sim s o = some (dcaOk, u) ∧ u.Connected := by
  refine ⟨{ t with collector := some { chan with connected := dcaCon } }, ?_, _, rfl, ?_⟩
  · simp only [dcaInitChannel, hi, hc, ha, Option.bind_eq_bind, Option.bind_some]
    rfl
  · change t.isConnected chan.fd = true
    rw [isAlive, dcaConnectionACK] at ha
    split at ha
    · cases hfd : chan.fd with
      | negSucc n =>
        rw [hfd] at ha
        cases ha
      | ofNat fd =>
        rw [hfd, Net.answer] at ha
        rw [Net.isConnected]
        cases hsock : t.sockets fd <;> simp [hsock] at ha ⊢
    · cases ha

theorem dcaInitChannel_open (ha : isAlive t o chan = some false) :
    dcaInitChannel sim s o = openCollector sim t chan o := by
  simp only [dcaInitChannel, hi, hc, ha, Option.bind_eq_bind, Option.bind_some]
  rfl

/-- The test of the channel does not return. -/
theorem dcaInitChannel_waits (ha : isAlive t o chan = none) : dcaInitChannel sim s o = none := by
  simp only [dcaInitChannel, hi, hc, ha, Option.bind_eq_bind, Option.bind_some, Option.bind_none]

end Call

/-- The node is not found. -/
theorem openCollector_lost (hl : isLost (nodeOf sim chan) o = true) : openCollector sim s chan o = none := by
  simp only [openCollector, dcaSockConnect, hl, if_true, Option.bind_eq_bind, Option.bind_none]

/-- An attempt is made. -/
theorem openCollector_tried (hs : s.super.isSome) (hl : isLost (nodeOf sim chan) o = false) :
    ∃ t chan', openCollector sim s chan o = some (if 0 < o.attempt.sock then dcaOk else dcaErr, t) ∧
      Tried sim (nodeOf sim chan) chan.connected o.attempt t chan' := by
  have hsuper : (if 0 < chan.connected then s.close chan.fd else s).super.isSome := by
    split
    · unfold Net.close
      split <;> exact hs
    · exact hs
  simp only [openCollector, dcaSockConnect_eq hl, Option.bind_eq_bind, Option.bind_some]
  by_cases hsock : 0 < o.attempt.sock
  · rw [if_pos hsock, if_pos hsock]
    exact ⟨_, _, rfl, hsuper, rfl, rfl, isConnected_sock _ _, (if_pos hsock).symm, fun hn o => answer_sock _ hn _ _⟩
  · rw [if_neg hsock, if_neg hsock]
    exact ⟨_, _, rfl, hsuper, rfl, rfl, isConnected_sock _ _, (if_neg hsock).symm, fun hn o => answer_sock _ hn _ _⟩

/-- The attempts whose outcome the descriptor shows -/
theorem goodAttempt_iff (hl : isLost node o = false) :
    GoodAttempt node o later ↔ (o.attempt.connects = true ↔ 0 < o.attempt.sock) ∧ (o.attempt.connects = false → later) := by
  rw [GoodAttempt, and_iff_right hl]
  cases o.attempt with
  | noSocket => simp [Attempt.connects, Attempt.sock]
  | refused fd => simp [Attempt.connects, Attempt.sock]
  | connected fd => simp [Attempt.connects, Attempt.sock]

theorem status_eq_ok {p : Prop} [Decidable p] : (if p then dcaOk else dcaErr) = dcaOk ↔ p := by
  split
  · rename_i h
    exact iff_of_true rfl h
  · rename_i h
    exact iff_of_false (by decide) h

/-- A call is right exactly if it is good. -/
theorem established_iff : Established sim s o ↔ GoodCall sim s o fun _ => True := by
  unfold Established GoodCall
  cases hi : initSuper s o with
  | none =>
    have hnone : dcaInitChannel sim s o = none := by
      simp only [dcaInitChannel, hi, Option.bind_eq_bind, Option.bind_none]
    simp [hnone]
  | some t =>
    cases hc : collChan t o with
    | none =>
      have hnone : dcaInitChannel sim s o = none := by
        simp only [dcaInitChannel, hi, hc, Option.bind_eq_bind, Option.bind_some, Option.bind_none]
      simp [hnone, hc]
    | some chan =>
      simp only [Option.some.injEq, exists_and_left, exists_eq_left', hc]
      match ha : isAlive t o chan with
      | none =>
        rw [dcaInitChannel_waits sim hi hc ha]
        simp
      | some true =>
        obtain ⟨u, hcall, hu⟩ := dcaInitChannel_alive sim hi hc ha
        exact iff_of_true ⟨_, u, hcall, iff_of_true rfl hu, fun hn => absurd hu hn⟩ (Or.inl rfl)
      | some false =>
        rw [dcaInitChannel_open sim hi hc ha, or_iff_right (by simp), and_iff_right rfl]
        cases hl : isLost (nodeOf sim chan) o with
        | true => simp [openCollector_lost hl, GoodAttempt, hl]
        | false =>
          obtain ⟨u, chan', hcall, hu⟩ := openCollector_tried (initSuper_super hi) hl
          simp only [hcall, Option.some.injEq, Prod.mk.injEq, goodAttempt_iff hl, ← hu.connected_iff]
          constructor
          · rintro ⟨_, _, ⟨rfl, rfl⟩, hok, -⟩
            rw [status_eq_ok] at hok
            exact ⟨hok.symm, fun _ => trivial⟩
          · rintro ⟨hiff, -⟩
            refine ⟨_, u, ⟨rfl, rfl⟩, status_eq_ok.trans hiff.symm, fun hn => ?_⟩
            have hsock := mt hiff.mpr hn
            exact ⟨if_neg hsock, chan', hu.collector, hu.connected.trans (if_neg hsock)⟩

/-! ## The loop -/

/-- The next attempt waits for ever on the descriptor that is left. -/
theorem Tried.not_succeeded {a : Attempt} (ht : Tried sim node n a t chan) (ha : a.connects = false)
    (hpos : 0 < chan.connected) (os : List Outcome) : ¬ Succeeded sim t os := by
  cases os with
  | nil => exact id
  | cons o os =>
    rintro ⟨status, u, hcall, -⟩
    have hcoll : collChan t o = some chan := by rw [collChan, ht.collector]
    have hwait : isAlive t o chan = none := (if_pos hpos).trans (ht.waits ha o)
    rw [dcaInitChannel_waits sim (initSuper_of_isSome ht.super) hcoll hwait] at hcall
    cases hcall

/-- After an attempt that leaves no descriptor above zero the others go to the same node. -/
theorem succeeded_iff {a : Attempt} {os : List Outcome} (ht : Tried sim node n a t chan) (ha : ¬ 0 < a.sock) :
    Succeeded sim t os ↔ WouldConnect node os := by
  induction os generalizing t a chan n with
  | nil => exact Iff.rfl
  | cons o os ih =>
    have hcoll : collChan t o = some chan := by rw [collChan, ht.collector]
    have hzero : chan.connected = 0 := ht.connected.trans (if_neg ha)
    have hdead : isAlive t o chan = some false := if_neg (hzero ▸ lt_irrefl _)
    obtain rfl := ht.node
    rw [Succeeded, WouldConnect, dcaInitChannel_open sim (initSuper_of_isSome ht.super) hcoll hdead]
    cases hl : isLost (nodeOf sim chan) o with
    | true => simp [openCollector_lost hl]
    | false =>
      obtain ⟨u, chan', hcall, hu⟩ := openCollector_tried ht.super hl
      have hiff : (∃ status v, openCollector sim t chan o = some (status, v) ∧ (v.Connected ∨ Succeeded sim v os)) ↔
          o.attempt.connects = true ∨ Succeeded sim u os := by
        rw [← hu.connected_iff, hcall]
        constructor
        · rintro ⟨_, _, heq, h⟩
          cases heq
          exact h
        · exact fun h => ⟨_, u, rfl, h⟩
      rw [hiff, and_iff_right rfl]
      cases hatt : o.attempt with
      | noSocket =>
        rw [hatt] at hu
        rw [or_iff_right (by simp [Attempt.connects])]
        exact ih hu (by decide)
      | refused fd =>
        rw [hatt] at hu
        rw [or_iff_right (by simp [Attempt.connects])]
        cases fd with
        | zero => exact (ih hu (by decide)).trans (and_iff_right rfl).symm
        | succ fd =>
          have hsock : 0 < (Attempt.refused (fd + 1)).sock := by
            change (0 : Int) < (fd + 1 : Nat)
            omega
          have hpos : 0 < chan'.connected := by
            rw [hu.connected, if_pos hsock, hzero]
            decide
          exact iff_of_false (hu.not_succeeded rfl hpos os) fun h => absurd h.1 (Nat.succ_ne_zero fd)
      | connected fd => exact iff_of_true (Or.inl rfl) trivial

/-- The loop makes one attempt. -/
theorem connectLoop_cons {status : Int} {os : List Outcome} (h : dcaInitChannel sim s o = some (status, t)) :
    connectLoop sim s (o :: os) = some (if status = dcaOk then dhsOk else dhsError, t) := by
  simp only [connectLoop, h, Option.bind_eq_bind, Option.bind_some]
  split <;> rfl

theorem looped_cons {status : Int} {os : List Outcome} (h : dcaInitChannel sim s o = some (status, t)) :
    Looped sim s (o :: os) ↔ (status = dcaOk ↔ t.Connected ∨ Succeeded sim t os) := by
  have hstatus : (if status = dcaOk then dhsOk else dhsError) = dhsOk ↔ status = dcaOk := by
    split
    · rename_i hs
      exact iff_of_true rfl hs
    · rename_i hs
      exact iff_of_false (by decide) hs
  simp only [Looped, Succeeded, connectLoop_cons h, h, Option.some.injEq, Prod.mk.injEq]
  constructor
  · rintro ⟨_, _, ⟨rfl, rfl⟩, hiff⟩
    rw [hstatus] at hiff
    rw [hiff]
    exact ⟨fun ⟨_, _, ⟨_, rfl⟩, hc⟩ => hc, fun hc => ⟨_, _, ⟨rfl, rfl⟩, hc⟩⟩
  · intro hiff
    refine ⟨_, _, ⟨rfl, rfl⟩, hstatus.trans (hiff.trans ?_)⟩
    exact ⟨fun hc => ⟨_, _, ⟨rfl, rfl⟩, hc⟩, fun ⟨_, _, ⟨_, rfl⟩, hc⟩ => hc⟩

/-- The attempt and the loop are right exactly if the attempt is good, and none of the others would do what it
could not. -/
theorem looped_iff {os : List Outcome} :
    Established sim s o ∧ Looped sim s (o :: os) ↔ GoodCall sim s o fun node => ¬ WouldConnect node os := by
  rw [established_iff]
  unfold GoodCall
  cases hi : initSuper s o with
  | none => simp
  | some t =>
    cases hc : collChan t o with
    | none => simp [hc]
    | some chan =>
      simp only [Option.some.injEq, exists_and_left, exists_eq_left', hc]
      match ha : isAlive t o chan with
      | none => simp
      | some true =>
        obtain ⟨u, hcall, hu⟩ := dcaInitChannel_alive sim hi hc ha
        exact iff_of_true ⟨Or.inl rfl, (looped_cons hcall).mpr (iff_of_true rfl (Or.inl hu))⟩ (Or.inl rfl)
      | some false =>
        rw [or_iff_right (by simp), or_iff_right (by simp), and_iff_right rfl, and_iff_right rfl]
        cases hl : isLost (nodeOf sim chan) o with
        | true => simp [GoodAttempt, hl]
        | false =>
          obtain ⟨u, chan', hcall, hu⟩ := openCollector_tried (initSuper_super hi) hl
          rw [← dcaInitChannel_open sim hi hc ha] at hcall
          rw [goodAttempt_iff hl, goodAttempt_iff hl, looped_cons hcall, status_eq_ok, hu.connected_iff]
          -- if the descriptor shows that there is no connection, it is not above zero
          have hlater : (o.attempt.connects = true ↔ 0 < o.attempt.sock) → o.attempt.connects = false →
              (Succeeded sim u os ↔ WouldConnect (nodeOf sim chan) os) := fun hsock hn =>
            succeeded_iff hu fun h => nomatch hn.symm.trans (hsock.mpr h)
          constructor
          · rintro ⟨⟨hsock, -⟩, hloop⟩
            refine ⟨hsock, fun hn hw => ?_⟩
            have hconn := hsock.mpr (hloop.mpr (Or.inr ((hlater hsock hn).mpr hw)))
            rw [hn] at hconn
            cases hconn
          · rintro ⟨hsock, hnot⟩
            refine ⟨⟨hsock, fun _ => trivial⟩, hsock.symm.trans ⟨Or.inl, ?_⟩⟩
            rintro (hconn | hrest)
            · exact hconn
            · cases hn : o.attempt.connects with
              | true => rfl
              | false => exact absurd ((hlater hsock hn).mp hrest) (hnot hn)

/-- The outcomes after the first -/
def laterOutcomes (os : Nat → Outcome) : List Outcome := (List.range' 1 (maxtrys - 1)).map os

theorem retried_iff {os : Nat → Outcome} :
    Established sim s (os 0) ∧ Retried sim s os ↔
      GoodCall sim s (os 0) fun node => ¬ WouldConnect node (laterOutcomes os) := by
  show Established sim s (os 0) ∧ Looped sim s (os 0 :: laterOutcomes os) ↔ _
  exact looped_iff

end

/-! ## A history -/

/-- A call of `dcaInitChannel`, or a peer that is gone -/
inductive ConnEvent where
  | call (o : Outcome)
  | drop (fd : Nat)

def ConnEvent.step (sim : Bool) (s : Net) : ConnEvent → Option Net
  | .call o => (dcaInitChannel sim s o).map Prod.snd
  | .drop fd => some (if s.sockets fd = .connected then { s with sockets := update s.sockets fd .dropped } else s)

def ConnEvent.Right (sim : Bool) (s : Net) : ConnEvent → Prop
  | .call o => Established sim s o
  | .drop _ => True

def ConnEvent.Good (sim : Bool) (s : Net) : ConnEvent → Prop
  | .call o => GoodCall sim s o fun _ => True
  | .drop _ => True

/-- Along a history all calls are right exactly if all are good; and so for the loop. -/
theorem connect_collector_iff (sim : Bool) (s : Net) (hs : List ConnEvent) (os : Nat → Outcome) :
    (Steps (ConnEvent.Right sim) (ConnEvent.step sim) s hs ↔ Steps (ConnEvent.Good sim) (ConnEvent.step sim) s hs) ∧
      (Established sim s (os 0) ∧ Retried sim s os ↔
        GoodCall sim s (os 0) fun node => ¬ WouldConnect node (laterOutcomes os)) := by
  refine ⟨?_, retried_iff⟩
  refine steps_iff (I := fun _ => True) (fun _ _ _ _ _ _ => trivial) (fun s e _ => ?_) trivial
  cases e with
  | call o => exact established_iff
  | drop fd => exact Iff.rfl

/-- No channels, and no sockets -/
def Net.initial : Net where
  super := none
  collector := none
  sockets := fun _ => .closed

/-- An attempt after the supervisor has named a device -/
def attempt (a : Attempt) : Outcome where
  superFd := some 3
  device := some (chars "localhost:4150")
  reply := some true
  found := true
  attempt := a

/-- The channel to that device -/
theorem collChan_attempt (a : Attempt) :
    ∃ t, initSuper .initial (attempt a) = some t ∧
      collChan t (attempt a) = some ⟨0, chars "localhost", 4150, 0⟩ := by
  have hnode : dcaGetNode (chars "localhost:4150") = some (chars "localhost") := by decide +kernel
  have hport : dcaGetPort (chars "localhost:4150") = some 4150 := by decide +kernel
  refine ⟨_, rfl, ?_⟩
  show (dcaGetNode (chars "localhost:4150")).bind _ = _
  rw [hnode]
  show (dcaGetPort (chars "localhost:4150")).bind _ = _
  rw [hport]
  rfl

/-- The channel is new, so an attempt is made. -/
theorem goodCall_attempt {a : Attempt} {later : Str → Prop} (h : GoodCall false .initial (attempt a) later) :
    GoodAttempt (chars "localhost") (attempt a) (later (chars "localhost")) := by
  obtain ⟨t, chan, hi, hc, hgood⟩ := h
  obtain ⟨t', hi', hc'⟩ := collChan_attempt a
  rw [hi, Option.some.injEq] at hi'
  subst hi'
  rw [hc, Option.some.injEq] at hc'
  subst hc'
  exact (hgood.resolve_left fun halive => by cases halive).2

/-- A connection that is refused counts as one, and a connection that the second attempt would make is not tried. -/
theorem connect_collector_not :
    ¬ Established false .initial (attempt (.refused 4)) ∧
      ¬ Retried false .initial fun i => attempt (if i = 0 then .noSocket else .connected 4) := by
  have hlost : ∀ a, isLost (chars "localhost") (attempt a) = false := fun a => Bool.and_false _
  constructor
  · intro h
    exact absurd (goodCall_attempt (established_iff.mp h)).2.1 (by decide)
  · intro h
    have hfirst : Established false .initial (attempt .noSocket) :=
      established_iff.mpr (by
        obtain ⟨t, hi, hc⟩ := collChan_attempt .noSocket
        exact ⟨t, _, hi, hc, Or.inr ⟨rfl, hlost _, trivial⟩⟩)
    exact (goodCall_attempt (retried_iff.mp ⟨hfirst, h⟩)).2 ⟨hlost _, trivial⟩

end Ndhs.Collector
