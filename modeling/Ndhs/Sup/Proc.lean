import Ndhs.Lib.Run

/-!
# The Supervisor's process table and its count of SMC managers

`dhssup/supProc.c` keeps a table of the clients, and the `MB_CONNECT` and `MB_EXITING` branches of
`supIOHandler` (`dhssup/supIO.c`) update it. The `MB_CONNECT` branch also counts the SMC managers in
`numProcMgrs`, the number of answers that `supProcNext` and `supIOHandler` wait for.

The used part of the table is a list, so `numClients` is its length. A client's host and date, the
pairing of PANs with Collectors and the messages to the GUI are left out: no function here reads
them. A connect message is the record that `mbParseConnectMsg` reads from its text.

* `Conn.step`: one message, with the clients that are connected (`Conn.clients`) beside the
  Supervisor's own data. A client is connected from its `MB_CONNECT` to its `MB_EXITING`.
* `procCleanLoop_length`, `procCleanLoop_enough`: cleaning the table ends after one round for each
  client, and leaves the table's last client in it.
* `numProcMgrs_iff`: the runs along which `numProcMgrs` is the number of connected managers are
  those in which no connected manager sends one of the two messages. `MB_EXITING` does not count
  down, and a second `MB_CONNECT` counts up again.
-/

namespace Ndhs

open Machine

/-- `SZ_PROCTABLE` -/
def szProcTable : Nat := 128

/-- `strncasecmp (a, b, n) == 0` -/
def strncaseEq (a b : String) (n : Nat) : Bool :=
  (a.toList.take n).map Char.toLower == (b.toList.take n).map Char.toLower

/-- `strcasecmp (a, b) == 0` -/
def strcaseEq (a b : String) : Bool := a.toList.map Char.toLower == b.toList.map Char.toLower

/-- `clientProc` -/
structure ClientProc where
  name : String
  port : Int
  tid : Int
  pid : Int
  status : String
  connected : Int
  deriving DecidableEq

/-- The part of `supData` that is the process table. -/
structure SupProcs where
  procTable : List ClientProc := []
  numProcMgrs : Int := 0

/-- The text of a connect message: `{ tid=%d who=%s host=%s pid=%d }` -/
structure ConnectMsg where
  tid : Int
  who : String
  pid : Int
  deriving DecidableEq

/-- `procAddClient`: add the client at the end of the table. A full table is not changed. -/
def procAddClient (t : List ClientProc) (name : String) (port tid pid : Int) (status : String) :
    List ClientProc :=
  if name = "CMD_Test" then t
  else if t.length = szProcTable then t
  else t ++ [{ name, port, tid, pid, status, connected := 0 }]

/-- `procDelClient`: delete the entry and shift the rest of the table. -/
def procDelClient (t : List ClientProc) (clid : Nat) : List ClientProc :=
  match t[clid]? with
  | none => t
  | some cp => if cp.connected ≠ 0 then t else t.eraseIdx clid

/-- `procFindClient`: the slot of a client by its inet port or its msgbus tid. -/
def procFindClient (t : List ClientProc) (port tid : Int) : Option Nat :=
  t.findIdx? fun cp =>
    (cp.port = port ∧ cp.tid = tid) ∨ (cp.port = port ∧ tid ≤ 0) ∨ (port ≤ 0 ∧ cp.tid = tid)

/-- `procDisconnect`: mark the entry as unused. -/
def procDisconnect (t : List ClientProc) (clid : Option Nat) : List ClientProc :=
  match clid with
  | none => t
  | some k => t.modify k fun cp =>
      { cp with port := -1, tid := -1, connected := 0, status := "Disconnected" }

/-- The loop of `procCleanTable`, at most `k` rounds from slot `i` on. A slot that is deleted is
looked at again, as the next entry has moved there. -/
def procCleanLoop : Nat → Nat → List ClientProc → List ClientProc
  | 0, _, t => t
  | k + 1, i, t =>
    match t[i]? with
    | none => t
    | some cp =>
      if !strcaseEq cp.name "Supervisor" && (cp.connected == 0 && 1 < t.length) then
        procCleanLoop k i (procDelClient t i)
      else procCleanLoop k (i + 1) t

/-- `procCleanTable`: remove all the entries that are not active. -/
def procCleanTable (t : List ClientProc) : List ClientProc := procCleanLoop t.length 0 t

theorem procCleanLoop_succ (k i : Nat) (t : List ClientProc) :
    procCleanLoop (k + 1) i t = match t[i]? with
      | none => t
      | some cp =>
        if !strcaseEq cp.name "Supervisor" && (cp.connected == 0 && 1 < t.length) then
          procCleanLoop k i (procDelClient t i)
        else procCleanLoop k (i + 1) t := rfl

/-- A round that deletes slot `i`. -/
theorem procDelClient_length {t : List ClientProc} {i : Nat} {cp : ClientProc}
    (h : t[i]? = some cp) (hc : cp.connected = 0) : (procDelClient t i).length = t.length - 1 := by
  obtain ⟨hi, -⟩ := List.getElem?_eq_some_iff.mp h
  simp only [procDelClient, h, hc, ne_eq, not_true_eq_false, if_false]
  exact List.length_eraseIdx_of_lt hi

/-- Cleaning never empties the table, nor makes it longer. -/
theorem procCleanLoop_length (k i : Nat) (t : List ClientProc) :
    (procCleanLoop k i t).length ≤ t.length ∧ (t ≠ [] → procCleanLoop k i t ≠ []) := by
  induction k generalizing i t with
  | zero => exact ⟨Nat.le_refl _, id⟩
  | succ k ih =>
    rw [procCleanLoop_succ]
    split
    · exact ⟨Nat.le_refl _, id⟩
    · rename_i cp hcp
      split
      · rename_i hdel
        simp only [Bool.and_eq_true, beq_iff_eq, decide_eq_true_eq] at hdel
        have hlen := procDelClient_length hcp hdel.2.1
        obtain ⟨hle, hne⟩ := ih i (procDelClient t i)
        refine ⟨by omega, fun _ => hne fun hnil => ?_⟩
        rw [hnil, List.length_nil] at hlen
        omega
      · exact ih (i + 1) t

/-- Each round deletes a slot or moves to the next: as many rounds as there are slots left are
enough. -/
theorem procCleanLoop_enough (k i : Nat) (t : List ClientProc) (h : t.length ≤ k + i) :
    procCleanLoop (k + 1) i t = procCleanLoop k i t := by
  induction k generalizing i t with
  | zero =>
    have : t[i]? = none := List.getElem?_eq_none (by omega)
    simp only [procCleanLoop, this]
  | succ k ih =>
    rw [procCleanLoop_succ (k + 1) i t, procCleanLoop_succ k i t]
    split
    · rfl
    · rename_i cp hcp
      split
      · rename_i hdel
        simp only [Bool.and_eq_true, beq_iff_eq, decide_eq_true_eq] at hdel
        have hlen := procDelClient_length hcp hdel.2.1
        exact ih i _ (by omega)
      · exact ih (i + 1) t (by omega)

/-! ## Messages -/

/-- What changes the process table. -/
inductive ConnOp where
  | connect (m : ConnectMsg)
  | exiting (m : ConnectMsg)
  | setConnected (clid : Nat) (v : Int)
  | cleanProcs

/-- `strncasecmp (who, "SMCMgr", 6) == 0` -/
def isSMCMgr (who : String) : Bool := strncaseEq who "SMCMgr" 6

/-- The table part of `supIOHandler`, of `procSetValue` and of the GUI's `supCleanProcs`. -/
def SupProcs.handle (sup : SupProcs) : ConnOp → SupProcs
  | .connect m =>
    { procTable := procAddClient sup.procTable m.who 0 m.tid m.pid "Connected"
      numProcMgrs := if isSMCMgr m.who then sup.numProcMgrs + 1 else sup.numProcMgrs }
  | .exiting m =>
    { sup with procTable := procDisconnect sup.procTable (procFindClient sup.procTable (-1) m.tid) }
  | .setConnected clid v =>
    { sup with procTable := sup.procTable.modify clid fun cp => { cp with connected := v } }
  | .cleanProcs => { sup with procTable := procCleanTable sup.procTable }

/-- The Supervisor, and the clients that are connected to it. -/
structure Conn where
  sup : SupProcs
  clients : List ConnectMsg

/-- The clients after a message. A client that connects again is one client. -/
def connectedAfter (clients : List ConnectMsg) : ConnOp → List ConnectMsg
  | .connect m => m :: clients.filter fun c => c.tid ≠ m.tid
  | .exiting m => clients.filter fun c => c.tid ≠ m.tid
  | _ => clients

/-- The number of connected SMC managers. -/
def Conn.managers (c : Conn) : Nat := c.clients.countP fun m => isSMCMgr m.who

def Conn.step (c : Conn) (op : ConnOp) : Option Conn :=
  some ⟨c.sup.handle op, connectedAfter c.clients op⟩

/-- The Supervisor is its own first client. -/
def Conn.start (port tid pid : Int) : Conn :=
  ⟨{ procTable := procAddClient [] "Supervisor" port tid pid "Ready ..." }, []⟩

/-- The message does not come from a connected SMC manager. -/
def ConnOp.Ok (c : Conn) : ConnOp → Prop
  | .connect m | .exiting m => ∀ x ∈ c.clients, isSMCMgr x.who = true → x.tid ≠ m.tid
  | _ => True

/-- Dropping the client `tid` drops a manager exactly if it is one. -/
theorem countP_drop {clients : List ConnectMsg} {tid : Int} :
    (∀ x ∈ clients, isSMCMgr x.who = true → x.tid ≠ tid) ↔
      (clients.filter fun c => c.tid ≠ tid).countP (fun m => isSMCMgr m.who) =
        clients.countP fun m => isSMCMgr m.who := by
  induction clients with
  | nil => simp
  | cons x xs ih =>
    have hle : (xs.filter fun c => c.tid ≠ tid).countP (fun m => isSMCMgr m.who) ≤
        xs.countP fun m => isSMCMgr m.who := List.filter_sublist.countP_le
    rw [List.forall_mem_cons, ih]
    simp only [ne_eq, decide_not] at hle
    by_cases hx : x.tid = tid <;> cases hm : isSMCMgr x.who <;> simp [hx, hm]
    omega

/-- One message: the count stays right exactly if the message does not come from a connected
manager. -/
theorem Conn.step_count {c : Conn} (h : c.sup.numProcMgrs = c.managers) (op : ConnOp) :
    (c.sup.handle op).numProcMgrs =
      (connectedAfter c.clients op).countP (fun m => isSMCMgr m.who) ↔ op.Ok c := by
  have hle : ∀ tid, (c.clients.filter fun x => x.tid ≠ tid).countP (fun m => isSMCMgr m.who) ≤
      c.managers := fun tid => List.filter_sublist.countP_le
  cases op with
  | connect m =>
    simp only [ConnOp.Ok, countP_drop, Conn.managers, connectedAfter, SupProcs.handle,
      List.countP_cons] at h hle ⊢
    have := hle m.tid
    split <;> constructor <;> intro h' <;> omega
  | exiting m =>
    simp only [ConnOp.Ok, countP_drop, Conn.managers, connectedAfter, SupProcs.handle] at h hle ⊢
    constructor <;> intro h' <;> omega
  | setConnected clid v => exact iff_of_true h trivial
  | cleanProcs => exact iff_of_true h trivial

/-- `numProcMgrs` is the number of connected SMC managers along a run exactly if no connected
manager sends `MB_EXITING` or a second `MB_CONNECT` in it. -/
theorem numProcMgrs_iff (port tid pid : Int) (ops : List ConnOp) :
    Always (fun c => c.sup.numProcMgrs = c.managers) Conn.step (Conn.start port tid pid) ops ↔
      Steps (fun c op => op.Ok c) Conn.step (Conn.start port tid pid) ops := by
  refine always_iff_steps (I := fun c : Conn => c.sup.numProcMgrs = c.managers) (fun _ h => h)
    (fun c op h hok => ⟨_, rfl, (c.step_count h op).mpr hok⟩) (fun c op c' h hok hst => ?_) rfl
  cases hst
  exact fun hc => hok ((c.step_count h op).mp hc)

/-- A manager connects and exits: no manager is connected, and one is still counted. -/
theorem numProcMgrs_after_exit :
    ¬ Always (fun c => c.sup.numProcMgrs = c.managers) Conn.step (Conn.start 4150 262145 100)
      [.connect ⟨262146, "SMCMgr", 101⟩, .exiting ⟨262146, "SMCMgr", 101⟩] := by
  intro h
  obtain ⟨c, hc, hcount⟩ := h.last
  have hrun : (run Conn.step (Conn.start 4150 262145 100)
      [.connect ⟨262146, "SMCMgr", 101⟩, .exiting ⟨262146, "SMCMgr", 101⟩]).map
        (fun c => (c.sup.numProcMgrs, c.managers)) = some (1, 0) := by decide +kernel
  rw [hc] at hrun
  obtain ⟨h₁, h₂⟩ := Prod.mk.inj (Option.some.inj hrun)
  rw [h₁, h₂] at hcount
  cases hcount

end Ndhs
