import Ndhs.Lib.Cells
import Ndhs.Lib.Text
import Ndhs.Sup.Proc
import Mathlib.Logic.Function.Basic

/-!
# The Supervisor's tables (`dhssup/supProc.c`, `dhssup/super.h`)

`procTable` holds the clients, `connTable` the pairs of a PAN and a Collector, as pointers into
`procTable`, and `pairTable` the pairs of hosts of the configuration file. The tables are static, so an
unused slot is zero, and a pointer into `procTable` is the number of a slot.

* `Client`, `PanConn`, `PanPair`: the records, with the fields that the functions here read or write. The
  fields `gone`, `session` and `who` are no part of the source: they say what happened before.
* `procAddClient`, `procDelClient`, `procFindClient`, `procFindBySocket`, `procDisconnect`,
  `procCleanTable`, and the `port` and `connected` messages of `procSetValue`.
* `procAddClient_cases`, `procUpdateStatus_cases`: what these can do to the tables.
* `Tables.step_edit`: what a call that is for one client can do.
* `procDelClient_slots`: what a deletion leaves in each slot. It clears the slot behind the last one, not the
  last one.

The lengths of the texts, the slots of `connTable` beyond its end and the messages to the GUI are left out.
-/

namespace Ndhs.Super

open Text Function

/-! ## Records -/

/-- `clientIoChan` -/
structure Chan where
  /-- an input procedure is registered -/
  id : Bool := false
  datain : Int := 0
  connected : Int := 0
  port : Int := 0
  /-- which use of the descriptor this is, from a connection to the next hang-up -/
  session : Option Nat := none
  deriving DecidableEq

/-- `clientProc` -/
structure Client where
  name : Str := []
  host : Str := []
  pid : Int := 0
  port : Int := 0
  tid : Int := 0
  colID : Str := []
  /-- the time that `procTimestamp` has printed, if any -/
  date : Option Nat := none
  status : Str := []
  chan : Chan := {}
  connected : Int := 0
  active : Int := 0
  /-- disconnected since it was added -/
  gone : Bool := false
  deriving DecidableEq

/-- What a client is known by. -/
structure Ident where
  name : Str
  host : Str
  pid : Int
  deriving DecidableEq

def Client.ident (cp : Client) : Ident := ⟨cp.name, cp.host, cp.pid⟩

/-- A pointer into `procTable`. -/
structure Ref where
  slot : Nat
  /-- the client for which it was set -/
  who : Ident
  deriving DecidableEq

/-- `panConn` -/
structure PanConn where
  pan : Option Ref := none
  collector : Ref
  inUse : Int := 0
  deriving DecidableEq

/-- `panPair` -/
structure PanPair where
  phost : Str
  chost : Str
  socket : Int
  deriving DecidableEq

/-- `hostTable` -/
structure HostName where
  name : Str
  ipAddr : Str
  deriving DecidableEq

/-- What the configuration file sets: the tables of pairings and of hosts. `stray` is what the pointer
`pp` of a search designates before its first round, where it is not initialised. -/
structure Config where
  pairs : List PanPair := []
  hosts : List HostName := []
  stray : PanPair := ⟨[], [], 0⟩
  deriving DecidableEq

/-- The tables of `supData`. -/
structure Tables where
  slots : Nat → Client := fun _ => {}
  numClients : Nat := 0
  conns : List PanConn := []
  cfg : Config := {}

/-! ## Host names -/

/-- `strncasecmp (s, pre, strlen (pre)) == 0` -/
def strPre (s pre : Str) : Bool := streq (s.take pre.length) pre

/-- The text up to the first dot, and the dot. -/
def throughDot : Str → Str
  | [] => []
  | c :: s => if c = '.' then [c] else c :: throughDot s

/-- The text up to the first location-specific extension. -/
def cutExtn : Str → Str
  | [] => []
  | c :: s =>
    if strPre (c :: s) ['-', 'c', 'r'] || strPre (c :: s) ['-', 'f', 'r'] || strPre (c :: s) ['-', '4', 'm'] then []
    else c :: cutExtn s

/-- `supNeuter`: the host name without its domain and extension, and what the argument is afterwards.
The dot is copied before it is looked at, and the argument is cut there. -/
def supNeuter (name : Str) : Str × Str :=
  (cutExtn (throughDot name), name.takeWhile (· ≠ '.'))

/-! ## Clients -/

/-- The names that `procAddClient` and `procCleanTable` look for. -/
def cmdTest : Str := ['C', 'M', 'D', '_', 'T', 'e', 's', 't']
def collector : Str := ['c', 'o', 'l', 'l', 'e', 'c', 't', 'o', 'r']
def pan : Str := ['p', 'a', 'n']
def supervisor : Str := ['S', 'u', 'p', 'e', 'r', 'v', 'i', 's', 'o', 'r']

/-- `strcpy (cp->status, "Disconnected")` -/
def disconnected : Str := ['D', 'i', 's', 'c', 'o', 'n', 'n', 'e', 'c', 't', 'e', 'd']

/-- The search of a host in the pairing table. The variable `pp` keeps its last value if it fails. -/
def pairSearch (host : Str) : PanPair → List PanPair → PanPair
  | pp, [] => pp
  | _, pp :: pps => if streq host pp.phost then pp else pairSearch host pp pps

/-- The rule by which `procAddClient` takes a Collector for a PAN. -/
def addFits (t : Tables) (pp : PanPair) (pc : PanConn) : Bool :=
  decide (pc.inUse ≤ 0) && streq (t.slots pc.collector.slot).host pp.chost
    && pp.socket == (t.slots pc.collector.slot).port

/-- `pc->pan = cp` in the first entry that `fits`. -/
def recordPan (fits : PanConn → Bool) (cp : Ref) : List PanConn → List PanConn
  | [] => []
  | pc :: pcs => if fits pc then { pc with pan := some cp } :: pcs else pc :: recordPan fits cp pcs

/-- The entry that `procAddClient` fills in. -/
def newClient (chan : Option Chan) (name host : Str) (port tid pid : Int) (status : Str) (now : Nat) :
    Client :=
  { name, host := (supNeuter host).1, pid, port, tid, date := some now, status, chan := chan.getD {} }

/-- The process table with one more entry. -/
def Tables.push (t : Tables) (cp : Client) : Tables :=
  { t with slots := update t.slots t.numClients cp, numClients := t.numClients + 1 }

/-- `procAddClient`: add a client to the end of the table. A Collector gets an entry of the connection
table, and a PAN is recorded in that of its Collector. -/
def procAddClient (t : Tables) (chan : Option Chan) (name host : Str) (port tid pid : Int)
    (status : Str) (now : Nat) : Tables :=
  if name = cmdTest then t
  else if t.numClients = szProcTable then t
  else
    let cp := newClient chan name host port tid pid status now
    let ref : Ref := ⟨t.numClients, cp.ident⟩
    let t' := t.push cp
    if strPre name collector then
      { t' with conns := t.conns ++ [{ collector := ref }] }
    else if strPre name pan then
      -- the argument was cut at its dot by the call for `cp->host`
      let pp := pairSearch (supNeuter (supNeuter host).2).1 t.cfg.stray t.cfg.pairs
      { t' with conns := recordPan (addFits t' pp) ref t.conns }
    else t'

/-- `procDelClient`: delete the entry and shift the rest of the table. The slot that is cleared is the
one behind the last, not the last. -/
def procDelClient (t : Tables) (clid : Nat) : Tables :=
  if (t.slots clid).connected ≠ 0 then t
  else { t with
    slots := update
      ((List.range' clid (t.numClients - 1 - clid)).foldl (fun f i => update f i (f (i + 1))) t.slots)
      t.numClients {}
    numClients := t.numClients - 1 }

/-- The first used slot that meets `p`. -/
def findSlot (t : Tables) (p : Client → Bool) : Option Nat :=
  (List.range t.numClients).find? fun i => p (t.slots i)

/-- `procFindClient`: the slot of a client by its inet port or its msgbus tid. -/
def procFindClient (t : Tables) (port tid : Int) : Option Nat :=
  findSlot t fun cp =>
    (cp.port == port && cp.tid == tid) || (cp.port == port && decide (tid ≤ 0)) ||
      (decide (port ≤ 0) && cp.tid == tid)

/-- `procFindBySocket` -/
def procFindBySocket (t : Tables) (fd : Int) : Option Nat :=
  findSlot t fun cp => cp.chan.datain == fd

/-- The entry of a client that `procDisconnect` has marked as unused. -/
def Client.disconnect (cp : Client) (now : Nat) : Client :=
  { cp with port := -1, tid := -1, connected := 0, date := some now, status := disconnected, gone := true }

/-- `procDisconnect`: mark the entry as unused. -/
def procDisconnect (t : Tables) (clid : Option Nat) (now : Nat) : Tables :=
  match clid with
  | none => t
  | some k => { t with slots := update t.slots k ((t.slots k).disconnect now) }

/-- The entries that `procCleanTable` removes, as long as they are not the only one. -/
def Client.Unused (cp : Client) : Prop := streq cp.name supervisor = false ∧ cp.connected = 0

instance (cp : Client) : Decidable cp.Unused := inferInstanceAs (Decidable (_ ∧ _))

/-- The loop of `procCleanTable` from slot `i` on; `none` if `k` rounds are not enough. A slot that is
deleted is looked at again, as the next entry has moved there. -/
def procCleanLoop : Nat → Nat → Tables → Option Tables
  | 0, i, t => if i < t.numClients then none else some t
  | k + 1, i, t =>
    if i < t.numClients then
      if (t.slots i).Unused ∧ 1 < t.numClients then procCleanLoop k i (procDelClient t i)
      else procCleanLoop k (i + 1) t
    else some t

/-- `procCleanTable`: remove all the entries that are not active. -/
def procCleanTable (t : Tables) : Option Tables := procCleanLoop t.numClients 0 t

/-- `procSetValue` of a message `port %d %s`. -/
def procSetPort (t : Tables) (clid : Nat) (port : Int) (colID : Option Str) : Tables :=
  let cp := t.slots clid
  { t with slots := update t.slots clid { cp with port := port, colID := colID.getD cp.colID } }

/-- `procSetValue` of a message `connected %d`. Where the client is the Collector of an entry without a
PAN, the name of its PAN's host is read through a null pointer: the Supervisor dies. -/
def procSetConnected (t : Tables) (clid : Nat) (ival : Int) : Option Tables :=
  if ∃ pc ∈ t.conns, pc.collector.slot = clid ∧ pc.pan = none then none
  else
    let cp := t.slots clid
    some { t with slots := update t.slots clid { cp with connected := ival } }

/-- `procUpdateStatus`. The messages for the GUI alone change nothing here. -/
def procUpdateStatus (t : Tables) (clid : Option Nat) (status : Str) (now : Nat) : Tables :=
  match clid with
  | none => t
  | some k =>
    let cp := t.slots k
    if strncmpEq status ['t', 'r', 'a', 'n', 's'] 5 || strncmpEq status ['f', 'i', 'l', 'e'] 4 ||
        strncmpEq status ['d', 'c', 'a'] 3 then t
    else if strncmpEq status ['a', 'c', 't', 'i', 'v', 'e'] 6 then
      { t with slots := update t.slots k { cp with active := 1 } }
    else if strncmpEq status ['i', 'n', 'a', 'c', 't', 'i', 'v', 'e'] 8 then
      { t with slots := update t.slots k { cp with active := 0 } }
    else
      let text := if strncmpEq status ['p', 'r', 'o', 'c'] 4 then status.drop 5 else status
      { t with slots := update t.slots k { cp with date := some now, status := text } }

/-! ## Runs -/

/-- A call that changes the tables. A `port` or `connected` message comes from the message bus, and its
sender is found by its tid. -/
inductive Call where
  | add (chan : Option Chan) (name host : Str) (port tid pid : Int) (status : Str) (now : Nat)
  | disconnect (clid : Option Nat) (now : Nat)
  | port (tid : Int) (port : Int) (colID : Option Str)
  | connected (tid : Int) (ival : Int)
  | status (clid : Option Nat) (text : Str) (now : Nat)
  | del (clid : Nat)
  | clean

/-- One call. A client id is a slot in use. -/
def Tables.step (t : Tables) : Call → Option Tables
  | .add chan name host port tid pid status now =>
    some (procAddClient t chan name host port tid pid status now)
  | .disconnect clid now =>
    if ∀ k ∈ clid, k < t.numClients then some (procDisconnect t clid now) else none
  | .port tid port colID =>
    match procFindClient t (-1) tid with
    | none => some t
    | some clid => some (procSetPort t clid port colID)
  | .connected tid ival =>
    match procFindClient t (-1) tid with
    | none => some t
    | some clid => procSetConnected t clid ival
  | .status clid text now =>
    if ∀ k ∈ clid, k < t.numClients then some (procUpdateStatus t clid text now) else none
  | .del clid => if clid < t.numClients then some (procDelClient t clid) else none
  | .clean => procCleanTable t

/-- The tables at the start. -/
def Tables.start (cfg : Config) : Tables := { cfg }

/-- The used part of the process table. -/
def Tables.entries (t : Tables) : List Client := Cells.cells t.slots t.numClients

/-- The pointers of the connection table that are not null. -/
def Tables.refs (t : Tables) : List Ref := t.conns.flatMap fun pc => pc.collector :: pc.pan.toList

/-! ## What the calls leave in the tables -/

variable {t t' : Tables}

/-- What a deletion leaves in the slots up to the old last one. -/
theorem procDelClient_slots {clid i : Nat} (h : (t.slots clid).connected = 0) (hi : i < t.numClients) :
    (procDelClient t clid).slots i =
      if clid ≤ i ∧ i < t.numClients - 1 then t.slots (i + 1) else t.slots i := by
  rw [procDelClient, if_neg (not_not.mpr h)]
  show update (List.foldl _ _ _) _ _ i = _
  rw [update_of_ne (by omega), Cells.foldl_shift]
  exact if_congr (by omega) rfl rfl

/-- What `procUpdateStatus` can do: nothing, or a change of one entry that keeps all but these fields. -/
theorem procUpdateStatus_cases (t : Tables) (clid : Option Nat) (status : Str) (now : Nat) :
    procUpdateStatus t clid status now = t ∨ ∃ k ∈ clid, ∃ active date text,
      (date = (t.slots k).date ∨ date = some now) ∧ procUpdateStatus t clid status now =
        { t with slots := update t.slots k { t.slots k with active := active, date := date, status := text } } := by
  cases clid with
  | none => exact .inl rfl
  | some k =>
    simp only [procUpdateStatus]
    split
    · exact .inl rfl
    · right
      refine ⟨k, rfl, ?_⟩
      split
      · exact ⟨_, _, _, .inl rfl, rfl⟩
      · split
        · exact ⟨_, _, _, .inl rfl, rfl⟩
        · exact ⟨_, _, _, .inr rfl, rfl⟩

/-- What `procAddClient` can do: nothing, or a new client of one of three kinds. -/
theorem procAddClient_cases (t : Tables) (chan : Option Chan) (name host : Str) (port tid pid : Int)
    (status : Str) (now : Nat) :
    let cp := newClient chan name host port tid pid status now
    let pp := pairSearch (supNeuter (supNeuter host).2).1 t.cfg.stray t.cfg.pairs
    let add := procAddClient t chan name host port tid pid status now
    add = t ∨ t.numClients ≠ szProcTable ∧
      ((strPre name collector = true ∧
          add = { t.push cp with conns := t.conns ++ [{ collector := ⟨t.numClients, cp.ident⟩ }] }) ∨
        (strPre name collector = false ∧ strPre name pan = true ∧
          add = { t.push cp with conns := recordPan (addFits (t.push cp) pp) ⟨t.numClients, cp.ident⟩ t.conns }) ∨
        (strPre name collector = false ∧ strPre name pan = false ∧ add = t.push cp)) := by
  intro cp pp add
  by_cases hcmd : name = cmdTest
  · exact .inl (if_pos hcmd)
  by_cases hfull : t.numClients = szProcTable
  · exact .inl ((if_neg hcmd).trans (if_pos hfull))
  have hadd : add = _ := (if_neg hcmd).trans (if_neg hfull)
  refine .inr ⟨hfull, ?_⟩
  cases hcol : strPre name collector with
  | true => exact .inl ⟨rfl, hadd.trans (if_pos hcol)⟩
  | false =>
    have hadd := hadd.trans (if_neg (by simp [hcol]))
    cases hpan : strPre name pan with
    | true => exact .inr (.inl ⟨rfl, rfl, hadd.trans (if_pos hpan)⟩)
    | false => exact .inr (.inr ⟨rfl, rfl, hadd.trans (if_neg (by simp [hpan]))⟩)

theorem findSlot_eq_some {p : Client → Bool} {k : Nat} :
    findSlot t p = some k ↔
      k < t.numClients ∧ p (t.slots k) = true ∧ ∀ j < k, p (t.slots j) = false := by
  rw [findSlot, List.find?_range_eq_some]
  simp only [Bool.not_eq_true', List.mem_range]
  tauto

theorem procFindClient_lt {port tid : Int} {k : Nat} (h : procFindClient t port tid = some k) :
    k < t.numClients := (findSlot_eq_some.mp h).1

/-- Calls that change the entry of one client. -/
def Call.Edits : Call → Prop
  | .add .. | .del _ | .clean => False
  | .disconnect .. | .port .. | .connected .. | .status .. => True

/-- Such a call keeps who the client is, and a date in its entry. -/
theorem Tables.step_edit {c : Call} (hst : t.step c = some t') (hc : c.Edits) :
    t' = t ∨ ∃ k < t.numClients, ∃ cp : Client, cp.ident = (t.slots k).ident ∧
      ((t.slots k).date ≠ none → cp.date ≠ none) ∧ t' = { t with slots := update t.slots k cp } := by
  cases c with
  | add | del | clean => exact absurd hc id
  | disconnect clid now =>
    obtain ⟨hk, hst⟩ := Option.ite_none_right_eq_some.mp hst
    cases hst
    cases clid with
    | none => exact .inl rfl
    | some k => exact .inr ⟨k, hk k rfl, (t.slots k).disconnect now, rfl, fun _ => nofun, rfl⟩
  | port tid port colID =>
    rw [step] at hst
    split at hst
    · cases hst
      exact .inl rfl
    · rename_i k hk
      cases hst
      refine .inr ⟨k, procFindClient_lt hk, _, ?_, ?_, rfl⟩
      · rfl
      · exact id
  | connected tid ival =>
    rw [step] at hst
    split at hst
    · cases hst
      exact .inl rfl
    · rename_i k hk
      obtain ⟨-, hst⟩ := Option.ite_none_left_eq_some.mp hst
      cases hst
      refine .inr ⟨k, procFindClient_lt hk, _, ?_, ?_, rfl⟩
      · rfl
      · exact id
  | status clid text now =>
    obtain ⟨hk, hst⟩ := Option.ite_none_right_eq_some.mp hst
    cases hst
    obtain heq | ⟨k, hmem, active, date, st, hdate, heq⟩ := procUpdateStatus_cases t clid text now
    · exact .inl heq
    · refine .inr ⟨k, hk k hmem, _, ?_, fun hd => ?_, heq⟩
      · rfl
      · rcases hdate with rfl | rfl
        · exact hd
        · nofun

end Ndhs.Super
