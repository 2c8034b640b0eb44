import Ndhs.Sup.Tables

/-!
# The Supervisor's channels (`dhssup/supSocket.c`, `dhssup/supPanHandler.c`)

A client calls the public port, asks with `sup_connect` for a port of its own and calls again there. The
descriptor of a port (`pub_client[i]`) is that of the listener first and of the connection afterwards.

* `clientGetChannel`, `supOpenInet`, `supConnectClient`, `supDisconnectClient`, the messages of
  `supClientIO`, and the request `DCADEV` of `superHandleClient`.
* `Sup.step`: one event. The fields `session`, `role` and `clash` are no part of the source: they say what
  a descriptor is in use for, and whether `clientGetChannel` has returned one in use.
* `clientGetChannel_iff`: the runs in which it never does are those in which, at each call, there is in front of
  every listener that waits a descriptor that is free.
* `supDisconnectClient_iff`: where a hang-up marks the client of its channel and no other.

The names, hosts and process ids of the channels and the texts of the messages are left out.
-/

namespace Ndhs.Super

open Machine Text Function

/-! ## Channels -/

/-- `XtNumber (sup->pub_client)` -/
def numChans : Nat := 32

/-- What a descriptor is in use for: nothing, the public port, or the port of a client. -/
inductive Role where
  | free
  | listener
  | client
  deriving DecidableEq

/-- `supData` -/
structure Sup where
  port : Int
  tables : Tables
  chans : Nat → Chan := fun _ => {}
  chanOffset : Nat := 0
  /-- how many connections have been accepted -/
  sessions : Nat := 0
  role : Nat → Role := fun _ => .free
  /-- `clientGetChannel` has returned a descriptor in use -/
  clash : Bool := false

def Sup.start (port : Int) (cfg : Config) : Sup := { port, tables := .start cfg }

/-- The search of `clientGetChannel`. -/
def freeChan (s : Sup) : Option Nat := (List.range numChans).find? fun i => (s.chans i).connected == 0

/-- `clientGetChannel`: the first descriptor that is not connected. Its `id` is set to its number. -/
def clientGetChannel (s : Sup) : Option (Nat × Sup) :=
  (freeChan s).map fun i => (i, { s with
    chans := update s.chans i { s.chans i with id := decide (i ≠ 0), port := s.port + 1 + s.chanOffset }
    chanOffset := s.chanOffset + 1
    clash := s.clash || decide (s.role i ≠ .free) })

/-- A descriptor with a listener on the socket `fd`. -/
def Sup.listen (s : Sup) (i : Nat) (fd : Int) (role : Role) : Sup :=
  { s with
    chans := update s.chans i { s.chans i with datain := fd, connected := 0, id := true }
    role := update s.role i role }

/-- `supOpenInet`; `fd` is the listening socket, if it could be made. -/
def supOpenInet (s : Sup) (fd : Option Int) : Sup :=
  if s.port ≤ 0 then s
  else
    match fd with
    | none => { s with port := 0 }
    | some fd =>
      match clientGetChannel s with
      | none => { s with port := 0 }
      | some (i, s) => s.listen i fd .listener

/-- `sup_connectClient`: a client has called on the descriptor's port, and `fd` is the new socket. -/
def supConnectClient (s : Sup) (i : Nat) (fd : Int) : Sup :=
  let chan := s.chans i
  { s with
    chans := update s.chans i { chan with
      datain := fd, connected := 1, id := true, session := chan.session.or (some s.sessions) }
    sessions := s.sessions + 1 }

/-- `sup_disconnectClient` -/
def supDisconnectClient (t : Tables) (chan : Chan) (now : Nat) : Tables × Chan :=
  (procDisconnect t (procFindClient t chan.port (-1)) now,
    { (if chan.id then { chan with port := -1, connected := 0, id := false } else chan) with
      datain := 0, session := none })

/-- `sup_disconnectClient` of a descriptor. The public port goes on listening. -/
def Sup.hangUp (s : Sup) (i : Nat) (now : Nat) : Sup :=
  let r := supDisconnectClient s.tables (s.chans i) now
  { s with
    tables := r.1
    chans := update s.chans i r.2
    role := if s.role i = .client then update s.role i .free else s.role }

/-- The message `sup_connect` on descriptor `i`: a new port for the client, and the current connection is
given up. Where the socket could not be made, the new descriptor is left as it is. -/
def supCallback (s : Sup) (i : Nat) (fd : Option Int) (now : Nat) : Sup :=
  match clientGetChannel s, fd with
  | some (j, s), some fd => (s.listen j fd .client).hangUp i now
  | some (_, s), none => s.hangUp i now
  | none, _ => s.hangUp i now

/-! ## Requests -/

/-- The static `supHostLookup` of `supPanHandler.c`: the address of a host of the table. Another host stands for itself. -/
def supHostLookup (cfg : Config) (host : Str) : Str :=
  ((cfg.hosts.find? fun h => host == h.name).map HostName.ipAddr).getD host

/-- The pairing is with a Collector at this host and port. A pairing without a socket takes any port. -/
def PanPair.fits (pp : PanPair) (host : Str) (port : Int) : Bool :=
  streq host pp.chost && (if 0 < pp.socket then port == pp.socket else true)

/-- The rule by which `superHandleClient` takes a Collector for a PAN. -/
def replyFits (t : Tables) (pp : PanPair) (pc : PanConn) : Bool :=
  pp.fits (t.slots pc.collector.slot).host (t.slots pc.collector.slot).port && decide (pc.inUse ≤ 0)

/-- What a `DCADEV` request is answered with: `localhost:4100`, the address of the Collector of an entry of
the connection table, or a hang-up. -/
inductive Reply where
  | fallback
  | collector (pc : PanConn) (dev : Str)
  | closed

/-- `sprintf (dev, "%s:%d", supHostLookup (sup, cp->host), cp->port)` -/
def devText (cfg : Config) (cp : Client) : Str :=
  supHostLookup cfg cp.host ++ ':' :: printInt cp.port

/-- `superHandleClient` of a message `DCA_GET | DCA_DCADEV` on the socket `fd` -/
def superHandleClient (t : Tables) (fd : Int) (now : Nat) : Reply × Tables :=
  match procFindBySocket t fd with
  | none => (.fallback, t)
  | some clid =>
    let cp := t.slots clid
    let pp := pairSearch cp.host t.cfg.stray t.cfg.pairs
    match t.conns.find? (replyFits t pp) with
    | some pc => (.collector pc (devText t.cfg (t.slots pc.collector.slot)), t)
    | none =>
      let r := supDisconnectClient t cp.chan now
      (.closed, { r.1 with slots := update r.1.slots clid { r.1.slots clid with chan := r.2 } })

/-! ## Runs -/

/-- What happens to the Supervisor: a call on a port, a message or the end of a connection on a
descriptor, or a message of the bus or of the GUI. -/
inductive Event where
  | openInet (fd : Option Int)
  | connect (i : Nat) (fd : Int)
  | callback (i : Nat) (fd : Option Int) (now : Nat)
  | ready (i : Nat) (name host : Str) (pid : Int) (now : Nat)
  | status (i : Nat) (text : Str) (now : Nat)
  | quit (i : Nat) (now : Nat)
  | dcadev (i : Nat) (fd : Int) (now : Nat)
  | call (c : Call)

/-- The descriptor on which an event comes. -/
def Event.chan : Event → Option Nat
  | .connect i _ | .callback i .. | .ready i .. | .status i .. | .quit i _ | .dcadev i .. => some i
  | .openInet _ | .call _ => none

/-- One event. -/
def Sup.handle (s : Sup) : Event → Option Sup
  | .openInet fd => some (supOpenInet s fd)
  | .connect i fd => some (supConnectClient s i fd)
  | .callback i fd now => some (supCallback s i fd now)
  | .ready i name host pid now =>
    let chan := s.chans i
    some { s with
      tables := procAddClient s.tables (some chan) name host chan.port 999 pid ['R', 'e', 'a', 'd', 'y'] now }
  | .status i text now =>
    let clid := procFindClient s.tables (s.chans i).port (-1)
    some { s with tables := procUpdateStatus s.tables clid text now }
  | .quit i now => some (s.hangUp i now)
  | .dcadev _ fd now => some { s with tables := (superHandleClient s.tables fd now).2 }
  | .call c => (s.tables.step c).map fun t => { s with tables := t }

/-- One event on a descriptor there is. -/
def Sup.step (s : Sup) (e : Event) : Option Sup :=
  if ∀ i ∈ e.chan, i < numChans then s.handle e else none

/-! ## Descriptors in use -/

variable {s s' : Sup}

/-- In front of every descriptor that is in use and not connected there is a free one. -/
def Sup.FreeFirst (s : Sup) : Prop :=
  ∀ i < numChans, (s.chans i).connected = 0 → s.role i ≠ .free →
    ∃ j < i, (s.chans j).connected = 0 ∧ s.role j = .free

instance (s : Sup) : Decidable s.FreeFirst :=
  inferInstanceAs (Decidable (∀ i < numChans, _ → _ → ∃ j < i, _ ∧ _))

/-- `FreeFirst` at the events that call `clientGetChannel`. -/
def Sup.ChanOk (s : Sup) : Event → Prop
  | .openInet (some _) => 0 < s.port → s.FreeFirst
  | .callback i .. => i < numChans → s.FreeFirst
  | _ => True

theorem freeChan_eq_some {i : Nat} : freeChan s = some i ↔
    i < numChans ∧ (s.chans i).connected = 0 ∧ ∀ j < i, (s.chans j).connected ≠ 0 := by
  rw [freeChan, List.find?_range_eq_some]
  simp only [Bool.not_eq_true', List.mem_range, beq_iff_eq, beq_eq_false_iff_ne]
  tauto

theorem freeChan_eq_none : freeChan s = none ↔ ∀ i < numChans, (s.chans i).connected ≠ 0 := by
  simp [freeChan]

/-- The descriptor that is found is free exactly if a free one is in front of every other in use. -/
theorem role_freeChan_iff {i : Nat} (h : freeChan s = some i) : s.role i = .free ↔ s.FreeFirst := by
  obtain ⟨hi, hc, hfirst⟩ := freeChan_eq_some.mp h
  constructor
  · intro hfree k hk hkc hkr
    have hle : i ≤ k := by
      by_contra hlt
      exact hfirst k (by omega) hkc
    have hne : i ≠ k := by
      rintro rfl
      exact hkr hfree
    exact ⟨i, by omega, hc, hfree⟩
  · intro hff
    by_contra hr
    obtain ⟨j, hj, hjc, -⟩ := hff i hi hc hr
    exact hfirst j hj hjc

theorem freeFirst_of_none (h : freeChan s = none) : s.FreeFirst :=
  fun i hi hc _ => absurd hc (freeChan_eq_none.mp h i hi)

/-- A call of `clientGetChannel` records whether it has returned a descriptor in use. -/
theorem clientGetChannel_clash {r : Nat × Sup} (h : clientGetChannel s = some r) :
    r.2.clash = false ↔ s.clash = false ∧ s.FreeFirst := by
  obtain ⟨i, hi, rfl⟩ := Option.map_eq_some_iff.mp h
  rw [← role_freeChan_iff hi]
  simp

theorem freeFirst_of_clientGetChannel (h : clientGetChannel s = none) : s.FreeFirst :=
  freeFirst_of_none (Option.map_eq_none_iff.mp h)

theorem supOpenInet_clash (fd : Option Int) :
    (supOpenInet s fd).clash = false ↔ s.clash = false ∧ s.ChanOk (.openInet fd) := by
  unfold supOpenInet Sup.ChanOk
  by_cases hp : s.port ≤ 0
  · have hnot : ¬ 0 < s.port := by omega
    cases fd <;> simp [hp, hnot]
  · have hpos : 0 < s.port := by omega
    cases fd with
    | none => simp [hp]
    | some fd =>
      cases h : clientGetChannel s with
      | none => simp [hp, hpos, freeFirst_of_clientGetChannel h]
      | some r =>
        simp only [hp, if_false, hpos, true_imp_iff]
        exact clientGetChannel_clash h

theorem supCallback_clash (i : Nat) (fd : Option Int) (now : Nat) :
    (supCallback s i fd now).clash = false ↔ s.clash = false ∧ s.FreeFirst := by
  unfold supCallback
  cases h : clientGetChannel s with
  | none =>
    show s.clash = false ↔ _
    simp [freeFirst_of_clientGetChannel h]
  | some r =>
    cases fd with
    | none => exact clientGetChannel_clash h
    | some fd => exact clientGetChannel_clash h

/-- One event. -/
theorem Sup.step_clash {e : Event} (hst : s.step e = some s') :
    s'.clash = false ↔ s.clash = false ∧ s.ChanOk e := by
  obtain ⟨hchan, hst⟩ := Option.ite_none_right_eq_some.mp hst
  cases e with
  | openInet fd =>
    cases hst
    exact supOpenInet_clash fd
  | callback i fd now =>
    cases hst
    have hi : i < numChans := hchan i rfl
    rw [supCallback_clash]
    simp [ChanOk, hi]
  | call c =>
    obtain ⟨t, -, rfl⟩ := Option.map_eq_some_iff.mp hst
    simp [ChanOk]
  | connect i fd => cases hst; simp [supConnectClient, ChanOk]
  | ready i name host pid now => cases hst; simp [ChanOk]
  | status i text now => cases hst; simp [ChanOk]
  | quit i now =>
    cases hst
    show s.clash = false ↔ _
    simp [ChanOk]
  | dcadev i fd now => cases hst; simp [ChanOk]

theorem Sup.exists_step_of_not_chanOk {e : Event} (h : ¬ s.ChanOk e) : ∃ s', s.step e = some s' := by
  cases e with
  | openInet fd => exact ⟨_, if_pos nofun⟩
  | callback i fd now =>
    have hi : i < numChans := by
      by_contra hn
      exact h fun hlt => absurd hlt hn
    exact ⟨_, if_pos fun j hj => Option.some.inj hj ▸ hi⟩
  | connect | ready | status | quit | dcadev | call => exact absurd trivial h

/-- `clientGetChannel` never returns a descriptor in use along exactly the runs in which, whenever it is
called, a free descriptor is in front of every one that is in use and not connected. -/
theorem clientGetChannel_iff (port : Int) (cfg : Config) (events : List Event) :
    Throughout (fun s => s.clash = false) Sup.step (Sup.start port cfg) events ↔
      Steps Sup.ChanOk Sup.step (Sup.start port cfg) events := by
  refine throughout_iff_steps (I := fun s : Sup => s.clash = false) (fun _ h => h) ?_ ?_ rfl
  · intro s e s' hs hok hst
    exact (Sup.step_clash hst).mpr ⟨hs, hok⟩
  · intro s e hs hbad
    obtain ⟨s', hst⟩ := Sup.exists_step_of_not_chanOk hbad
    exact ⟨s', hst, fun hs' => hbad ((Sup.step_clash hst).mp hs').2⟩

/-- Two clients ask for a port, the second before the first has called on its own. -/
def twoCallbacks : List Event :=
  [.openInet (some 3), .connect 0 4, .callback 0 (some 5) 0, .connect 0 6, .callback 0 (some 7) 1]

/-- Both get the same descriptor. -/
theorem twoCallbacks_clash :
    ¬ Throughout (fun s => s.clash = false) Sup.step (Sup.start 4150 {}) twoCallbacks := by
  exact not_throughout_of_run (by decide +kernel)

/-! ## Hanging up -/

/-- The fields of an entry that a hang-up writes. -/
structure Mark where
  port : Int
  tid : Int
  connected : Int
  date : Option Nat
  status : Str
  deriving DecidableEq

def Client.mark (cp : Client) : Mark := ⟨cp.port, cp.tid, cp.connected, cp.date, cp.status⟩

/-- The fields of an entry that is marked as disconnected at the time `now`. -/
def Mark.disconnected (now : Nat) : Mark := ⟨-1, -1, 0, some now, Super.disconnected⟩

/-- The client was added by `sup_ready` through this channel, in its present use. -/
def Chan.Added (c : Chan) (cp : Client) : Prop := c.session ≠ none ∧ cp.chan.session = c.session

instance (c : Chan) (cp : Client) : Decidable (c.Added cp) := inferInstanceAs (Decidable (_ ∧ _))

/-- A hang-up of the channel marks a client that was added through it, if there is one, and leaves every
other entry as it is. -/
def Isolated (t : Tables) (c : Chan) (now : Nat) : Prop :=
  let t' := (supDisconnectClient t c now).1
  (∀ i < t.numClients, ¬ c.Added (t.slots i) → (t'.slots i).mark = (t.slots i).mark) ∧
    ((∃ i < t.numClients, c.Added (t.slots i)) →
      ∃ i < t.numClients, c.Added (t.slots i) ∧ (t'.slots i).mark = .disconnected now)

instance (t : Tables) (c : Chan) (now : Nat) : Decidable (Isolated t c now) :=
  inferInstanceAs (Decidable ((∀ i < t.numClients, _ → _) ∧ ((∃ i < t.numClients, _) → ∃ i < t.numClients, _ ∧ _)))

/-- The entry has the channel's port; a channel without a port takes a client without a tid too. -/
def Chan.Hits (c : Chan) (cp : Client) : Prop := cp.port = c.port ∨ (c.port ≤ 0 ∧ cp.tid = -1)

/-- The first entry in the table that has the channel's port. -/
def FirstHit (t : Tables) (c : Chan) (k : Nat) : Prop :=
  k < t.numClients ∧ c.Hits (t.slots k) ∧ ∀ j < k, ¬ c.Hits (t.slots j)

/-- The first entry with the channel's port was added through it, or is marked at this time already, and
so is one of those that were added through it. -/
def HitsOwn (t : Tables) (c : Chan) (now : Nat) : Prop :=
  (∀ k, FirstHit t c k → c.Added (t.slots k) ∨ (t.slots k).mark = .disconnected now) ∧
    ((∃ i < t.numClients, c.Added (t.slots i)) →
      ∃ i < t.numClients, c.Added (t.slots i) ∧
        (FirstHit t c i ∨ (t.slots i).mark = .disconnected now))

variable {t : Tables} {c : Chan} {now : Nat}

/-- The search of a hang-up. -/
theorem procFindClient_neg_one {k : Nat} :
    procFindClient t c.port (-1) = some k ↔ FirstHit t c k := by
  have hp : ∀ cp : Client, ((cp.port == c.port && cp.tid == -1) || (cp.port == c.port && decide ((-1 : Int) ≤ 0)) ||
      (decide (c.port ≤ 0) && cp.tid == -1)) = true ↔ c.Hits cp := by
    intro cp
    simp only [Chan.Hits, Bool.or_eq_true, Bool.and_eq_true, beq_iff_eq, decide_eq_true_eq]
    omega
  rw [procFindClient, findSlot_eq_some, hp]
  exact and_congr_right fun _ => and_congr_right fun _ => forall₂_congr fun j _ =>
    (Bool.eq_false_iff).trans (not_congr (hp _))

/-- What a hang-up leaves in the table, where it finds a client. -/
theorem supDisconnectClient_mark {k : Nat} (h : FirstHit t c k) (i : Nat) :
    ((supDisconnectClient t c now).1.slots i).mark =
      if i = k then .disconnected now else (t.slots i).mark := by
  rw [supDisconnectClient, procFindClient_neg_one.mpr h]
  by_cases hi : i = k
  · subst hi
    simp [procDisconnect, Client.disconnect, Client.mark, Mark.disconnected]
  · simp [procDisconnect, hi]

/-- From every state of the tables, a hang-up marks the client of its channel and no other exactly where
the first entry that has the channel's port is that client's. -/
theorem supDisconnectClient_iff (t : Tables) (c : Chan) (now : Nat) :
    Isolated t c now ↔ HitsOwn t c now := by
  cases hfind : procFindClient t c.port (-1) with
  | none =>
    have hnone : ∀ k, ¬ FirstHit t c k := by
      intro k hk
      rw [procFindClient_neg_one.mpr hk] at hfind
      cases hfind
    have hsame : (supDisconnectClient t c now).1 = t := by
      rw [supDisconnectClient, hfind]
      rfl
    simp [Isolated, HitsOwn, hsame, hnone]
  | some k =>
    have hk : FirstHit t c k := procFindClient_neg_one.mp hfind
    have honly : ∀ j, FirstHit t c j ↔ j = k := by
      intro j
      rw [← procFindClient_neg_one, hfind]
      exact ⟨fun h => (Option.some.inj h).symm, fun h => h ▸ rfl⟩
    simp only [Isolated, HitsOwn, supDisconnectClient_mark hk, honly, forall_eq]
    refine and_congr ⟨fun h => ?_, fun h i _ hi => ?_⟩ (imp_congr_right fun _ => ?_)
    · by_cases hadd : c.Added (t.slots k)
      · exact .inl hadd
      · have := h k hk.1 hadd
        rw [if_pos rfl] at this
        exact .inr this.symm
    · split
      · rename_i heq
        subst heq
        exact (h.resolve_left hi).symm
      · rfl
    · refine exists_congr fun i => and_congr_right fun _ => and_congr_right fun _ => ?_
      by_cases hik : i = k
      · simp [hik]
      · simp [hik]

/-- A client calls, is given a port, says that it is ready and quits; another calls on the public port. -/
def callAfterQuit : List Event :=
  [.openInet (some 3), .connect 0 4, .callback 0 (some 5) 10, .connect 1 6, .ready 1 pan ['h'] 77 11,
    .quit 1 12, .connect 0 7]

/-- Hanging up the public port then marks the client that has quit again, at a later time. -/
theorem callAfterQuit_not_isolated :
    ∃ s, run Sup.step (Sup.start 4150 {}) callAfterQuit = some s ∧ ¬ Isolated s.tables (s.chans 0) 20 := by
  have hrun := (Option.some_get (x := run Sup.step (Sup.start 4150 {}) callAfterQuit)
    (by decide +kernel)).symm
  exact ⟨_, hrun, by decide +kernel⟩

end Ndhs.Super
