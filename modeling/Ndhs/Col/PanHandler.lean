import Ndhs.Lib.Endian
import Ndhs.Lib.Socket
import Mathlib.Algebra.Group.Int.Defs

/-!
# The Collector and its PAN (`colPanHandler`)

The Collector takes the messages of a PAN from a socket. A message is a header of 120 bytes, with a type, and what the
type says comes behind it. `colPanHandler` is called when there is something to read; it handles one message after
another until the exposure or the connection is closed.

* Hosts have the same layout of structs, with the lowest byte first.
* A byte of a variable is a `Cell`: `none` if it was never received (it is what was on the stack, or zero).
* `Event`: what a call does that others can see, and how many bytes it moves to a destination of which capacity.
* `Env`: what the system does. `grants n` says whether request `n` for a page finds a slot and memory. A page is
  refused in any case if it is too large. `spill` is what the bytes of a name that its buffer does not hold leave of
  `obSetID`, which lies behind `dirname` and `filename`; the other variables are out of their reach.
* `read` refuses a null buffer; a count of zero gives zero, which is taken for the end. The programs have 32 bits: a
  negative size is a count above `SSIZE_MAX`. A kernel with 32 bits refuses it, one with 64 bits (`wide`) gives what has
  arrived, and `dcaRecv` ends after this read.
* Debug texts, status messages to the Supervisor with the number of bytes transferred, and the directory and file name
  of the cache are left out.

`handler_isSome`: a call comes to an end. `messages`: the messages that a call handles; `colPanHandler_forall` derives
what holds of a whole call from them.
-/

namespace Ndhs.Collector

open Endian Socket

/-! ## Types of messages -/

/-- `DCA_OPEN` and so on -/
def dcaOpen : Nat := 0o1
def dcaClose : Nat := 0o2
def dcaInit : Nat := 0o20
def dcaFail : Nat := 0o40
def dcaNoop : Nat := 0o100
def dcaSet : Nat := 0o400
def dcaConnect : Nat := 0o4000
def dcaExp : Nat := 0o20000
def dcaMeta : Nat := 0o40000
def dcaPixel : Nat := 0o100000
def dcaFpConfig : Nat := 0o400000
def dcaExpObsid : Nat := 0o10000000
def dcaDirectory : Nat := 0o20000000
def dcaFname : Nat := 0o40000000

/-- `DCA_ACK` and `DCA_COLLECTOR`, for a reply -/
def dcaAck : Nat := 2
def dcaCollector : Nat := 0o40

/-- `mtype & flag` -/
def has (mtype flag : Nat) : Bool := mtype &&& flag != 0

/-- `SZMSG` -/
def szMsg : Nat := 120

/-- `sizeof (fpConfig_t)` -/
def sizeofFpConfig : Nat := 44

/-- `sizeof (mdConfig_t)` -/
def sizeofMdConfig : Nat := 32776

/-- `MAX_SEG_SIZE` -/
def maxSegSize : Int := 33550336

/-- The value of an `int` -/
def toInt (n : Int) : Int := (BitVec.ofInt 32 n).toInt

/-- The `int` in the first four bytes -/
def intOf (b : List UInt8) : Int := toInt (ofBytes (b.take 4))

/-- `msgh->type`, `msgh->expnum` and `msgh->obset` -/
def typeOf (header : List UInt8) : Nat := ofBytes (header.take 4)
def expnumOf (header : List UInt8) : List UInt8 := (header.drop 8).take 8
def obsetOf (header : List UInt8) : List UInt8 := (header.drop 16).take 80

/-! ## The state -/

/-- A byte, if it was received -/
abbrev Cell := Option UInt8

/-- The variable after bytes were received at its start -/
def overlay (got : List UInt8) (old : List Cell) : List Cell := got.map some ++ old.drop got.length

/-- `TY_META` and `TY_DATA` -/
inductive PageType where
  | tyMeta
  | tyData
  deriving DecidableEq

/-- A page of the cache that is unlocked. `received` are the bytes of the size and the configuration that were received
with it. -/
structure Page where
  type : PageType
  size : Int
  received : List Cell
  mdCfg : Option (List Cell)
  fpCfg : List Cell
  expID : List Cell
  obSetID : List Cell
  expPageNum : Int
  payload : List Cell
  deriving DecidableEq

inductive Event where
  /-- a header that is handled -/
  | header (h : List UInt8)
  /-- a reply -/
  | reply (h : List UInt8)
  /-- a number of bytes is moved to a destination that holds so many -/
  | moved (n capacity : Nat)
  | mutexOn
  | mutexOff
  /-- a null page is used -/
  | nullPage
  | unlock (page : Page)
  deriving DecidableEq

structure Env where
  heap : Nat → Bool
  grants : Nat → Bool
  junk : Nat → UInt8
  spill : List UInt8 → List Cell → List Cell
  tempCollector : Bool

/-- The connection: what arrives on the socket, the page number of the exposure, the number of requests for pages, and
whether a read takes a count above `SSIZE_MAX`. -/
structure Conn where
  arrivals : List Arrival
  expPageNum : Int
  requests : Nat
  wide : Bool

/-- The variables of a call -/
structure Locals where
  buffer : List UInt8
  expID : List Cell
  obSetID : List Cell
  fpCfg : List Cell
  mdCfg : List Cell

/-- The variables with the first header in the buffer -/
def Locals.start (buffer : List UInt8) : Locals where
  buffer
  expID := List.replicate 8 none
  obSetID := List.replicate 80 none
  fpCfg := List.replicate sizeofFpConfig none
  mdCfg := List.replicate sizeofMdConfig none

/-- How a call ends: it returns, also after it has closed the connection, or the program ends or is killed. -/
inductive End where
  | returned
  | closed
  | exited
  | fault
  deriving DecidableEq

/-- What a message leads to -/
inductive Next where
  | go (l : Locals) (c : Conn)
  | stop (e : End) (c : Conn)

/-- `dcaRecv` -/
def dcaRecv (wide : Bool) (size : Int) (null : Bool) (l : List Arrival) : Result :=
  if size = 0 then ⟨[], .eof, l⟩
  else if null then ⟨[], .err, l⟩
  else if size < 0 then if wide then once l else ⟨[], .err, l⟩
  else recv size.toNat l

/-- What a receive gives -/
structure Received extends Result where
  conn : Conn
  event : Event

namespace Conn

variable (c : Conn)

/-- Receive to a destination that holds `capacity` bytes. -/
def receive (size : Int) (null : Bool) (capacity : Nat) : Received :=
  let r := dcaRecv c.wide size null c.arrivals
  { r with conn := { c with arrivals := r.rest }, event := .moved r.got.length capacity }

/-- The number of bytes that a read with a negative size gives -/
def offered : Nat := if c.wide then Socket.offered c.arrivals else 0

/-- Receive a header. -/
def header : Received := c.receive szMsg false szMsg

/-- `smcGetPage` gives a page. -/
def granted (env : Env) (size : Int) : Bool := decide (size ≤ maxSegSize) && env.grants c.requests

/-- A page was requested. -/
def request : Conn := { c with requests := c.requests + 1 }

/-- `expPageNum++` -/
def countPage : Conn := { c with expPageNum := c.expPageNum + 1 }

end Conn

/-! ## Messages -/

/-- The number of bytes of a copy: a `size_t`. -/
def sizeT (n : Int) : Nat := (n % 2 ^ 32).toNat

/-- A field of `fpCfg`, at an offset -/
def cfgInt (env : Env) (fpCfg : List Cell) (off : Nat) : Int :=
  intOf ((List.range 4).map fun i => (fpCfg.getD (off + i) none).getD (env.junk (off + i)))

/-- What is received for `DCA_META` -/
structure MetaBody where
  buffer : List UInt8
  received : List Cell
  blksize : Int
  /-- `calloc` has failed -/
  null : Bool
  payload : List Cell
  mdCfg : List Cell
  conn : Conn
  events : List Event

/-- The receives of `DCA_META` -/
def recvMeta (env : Env) (l : Locals) (c : Conn) : MetaBody :=
  let r := c.header
  let buffer := r.got ++ l.buffer.drop r.got.length
  let blksize := intOf buffer
  -- buff = calloc (1, blksize)
  let null := !(decide (0 ≤ blksize) && env.heap blksize.toNat)
  let r' := r.conn.receive blksize null blksize.toNat
  let r'' := r'.conn.receive sizeofMdConfig false sizeofMdConfig
  { buffer, blksize, null
    received := overlay r.got (List.replicate szMsg none) ++ overlay r''.got (List.replicate sizeofMdConfig none)
    payload := overlay r'.got (List.replicate blksize.toNat none)
    mdCfg := overlay r''.got l.mdCfg
    conn := r''.conn
    events := [r.event, .moved 4 4, r'.event, r''.event] }

/-- The page for metadata -/
def metaPage (l : Locals) (m : MetaBody) : Page where
  type := .tyMeta
  size := m.blksize
  received := m.received
  mdCfg := some m.mdCfg
  fpCfg := l.fpCfg
  expID := l.expID
  obSetID := l.obSetID
  expPageNum := m.conn.expPageNum
  payload := m.payload

/-- `DCA_META` -/
def handleMeta (env : Env) (l : Locals) (c : Conn) : Next × List Event :=
  let m := recvMeta env l c
  let events := m.events ++ [.mutexOn]
  let c := m.conn.request
  if !m.conn.granted env m.blksize then (.stop .returned c, events)
  else
    -- memcpy (hdr, buff, blksize)
    let events := events ++ [.moved (sizeT m.blksize) m.blksize.toNat]
    if m.blksize ≠ 0 ∧ m.null then (.stop .fault c.countPage, events)
    else
      (.go { l with buffer := m.buffer, mdCfg := m.mdCfg } c.countPage,
        events ++ [.unlock (metaPage l m), .mutexOff])

/-- What is received for `DCA_PIXEL` before the pixels -/
structure PixelHead where
  received : List Cell
  fpCfg : List Cell
  imSize : Int
  conn : Conn
  event : Event

def recvPixelHead (env : Env) (l : Locals) (c : Conn) : PixelHead :=
  let r := c.receive sizeofFpConfig false sizeofFpConfig
  let fpCfg := overlay r.got l.fpCfg
  { fpCfg
    received := overlay r.got (List.replicate sizeofFpConfig none)
    imSize := toInt (toInt (cfgInt env fpCfg 4 * cfgInt env fpCfg 0) * 4)
    conn := r.conn
    event := r.event }

/-- The page for pixels -/
def pixelPage (l : Locals) (m : PixelHead) (payload : List Cell) : Page where
  type := .tyData
  size := m.imSize
  received := m.received
  mdCfg := none
  fpCfg := m.fpCfg
  expID := l.expID
  obSetID := l.obSetID
  expPageNum := m.conn.expPageNum
  payload

/-- `DCA_PIXEL` -/
def handlePixel (env : Env) (l : Locals) (c : Conn) : Next × List Event :=
  let m := recvPixelHead env l c
  let c := m.conn.request
  -- the result of smcGetPage is not tested
  if !m.conn.granted env m.imSize then (.stop .fault c, [m.event, .mutexOn, .nullPage])
  else
    let r := c.countPage.receive m.imSize false m.imSize.toNat
    let page := pixelPage l m (overlay r.got (List.replicate m.imSize.toNat none))
    (.go { l with fpCfg := m.fpCfg } r.conn, [m.event, .mutexOn, r.event, .unlock page, .mutexOff])

/-- The header with another type and sender -/
def retyped (buffer : List UInt8) (type : Nat) : List UInt8 :=
  toBytes 4 type ++ toBytes 4 dcaCollector ++ buffer.drop 8

/-- One round of the loop, for the header in the buffer. -/
def message (env : Env) (l : Locals) (c : Conn) : Next × List Event :=
  let mtype := typeOf l.buffer
  if has mtype dcaSet then
    if has mtype dcaFpConfig then
      let r := c.receive sizeofFpConfig false sizeofFpConfig
      (.go { l with fpCfg := overlay r.got l.fpCfg } r.conn, [r.event])
    else (.go l c, [])
  else if has mtype dcaNoop then
    -- a request for an ACK
    (.go { l with buffer := retyped l.buffer dcaAck } c, [.reply (retyped l.buffer dcaAck)])
  else if has mtype dcaDirectory then
    let r := c.receive 256 false szMsg
    (.go { l with obSetID := env.spill (r.got.drop szMsg) l.obSetID } r.conn, [r.event])
  else if has mtype dcaFname then
    let r := c.receive 256 false szMsg
    (.go { l with obSetID := env.spill (r.got.drop szMsg) l.obSetID } r.conn, [r.event])
  else if has mtype dcaExpObsid then
    (.go { l with expID := (expnumOf l.buffer).map some, obSetID := (obsetOf l.buffer).map some } c, [.moved 80 80])
  else if has mtype dcaMeta then handleMeta env l c
  else if has mtype dcaPixel then handlePixel env l c
  else if has mtype dcaInit then (.go l c, [])
  else if has mtype dcaOpen then
    if has mtype dcaConnect then (.go l c, [])
    else if has mtype dcaExp then (.go l { c with expPageNum := 0 }, [])
    else (.go l c, [])
  else if has mtype dcaClose then
    if has mtype dcaConnect then (.stop (if env.tempCollector then .exited else .closed) c, [])
    else if has mtype dcaExp then (.stop .returned c, [])
    else (.go l c, [])
  else (.go { l with buffer := retyped l.buffer dcaFail } c, [])

/-- The loop, with at most `n` messages to go -/
def loop (env : Env) : Nat → Locals → Conn → Option (End × Conn × List Event)
  | 0, _, _ => none
  | n + 1, l, c =>
    match message env l c with
    | (.stop e c, events) => some (e, c, events)
    | (.go l c, events) =>
      let r := c.header
      if r.status = .ok then
        (loop env n { l with buffer := r.got } r.conn).map fun (stop, c, rest) =>
          (stop, c, events ++ [r.event, .header r.got] ++ rest)
      else some (.returned, r.conn, events ++ [r.event])

/-- `colPanHandler`, if the fuel of its loop is enough -/
def handler (env : Env) (c : Conn) : Option (End × Conn × List Event) :=
  let r := c.header
  match r.status with
  | .ok =>
    (loop env ((bytes r.conn.arrivals).length + 1) (.start r.got) r.conn).map fun (stop, c, events) =>
      (stop, c, [r.event, .header r.got] ++ events)
  | .eof => some (.closed, r.conn, [r.event])
  | .err => some (.returned, r.conn, [r.event])

/-! ## Kinds of messages -/

inductive Kind where
  | setFpConfig
  | noop
  | name
  | expObsid
  | metaData
  | pixel
  | openExp
  | closeConnect
  | closeExp
  | fail
  /-- nothing is done -/
  | none
  deriving DecidableEq

/-- The kind of a message of a type -/
def kindOf (mtype : Nat) : Kind :=
  if has mtype dcaSet then if has mtype dcaFpConfig then .setFpConfig else .none
  else if has mtype dcaNoop then .noop
  else if has mtype dcaDirectory then .name
  else if has mtype dcaFname then .name
  else if has mtype dcaExpObsid then .expObsid
  else if has mtype dcaMeta then .metaData
  else if has mtype dcaPixel then .pixel
  else if has mtype dcaInit then .none
  else if has mtype dcaOpen then
    if has mtype dcaConnect then .none else if has mtype dcaExp then .openExp else .none
  else if has mtype dcaClose then
    if has mtype dcaConnect then .closeConnect else if has mtype dcaExp then .closeExp else .none
  else .fail

/-- What is done for a message of a kind -/
def handle (env : Env) (l : Locals) (c : Conn) : Kind → Next × List Event
  | .setFpConfig =>
    let r := c.receive sizeofFpConfig false sizeofFpConfig
    (.go { l with fpCfg := overlay r.got l.fpCfg } r.conn, [r.event])
  | .noop => (.go { l with buffer := retyped l.buffer dcaAck } c, [.reply (retyped l.buffer dcaAck)])
  | .name =>
    let r := c.receive 256 false szMsg
    (.go { l with obSetID := env.spill (r.got.drop szMsg) l.obSetID } r.conn, [r.event])
  | .expObsid =>
    (.go { l with expID := (expnumOf l.buffer).map some, obSetID := (obsetOf l.buffer).map some } c, [.moved 80 80])
  | .metaData => handleMeta env l c
  | .pixel => handlePixel env l c
  | .openExp => (.go l { c with expPageNum := 0 }, [])
  | .closeConnect => (.stop (if env.tempCollector then .exited else .closed) c, [])
  | .closeExp => (.stop .returned c, [])
  | .fail => (.go { l with buffer := retyped l.buffer dcaFail } c, [])
  | .none => (.go l c, [])

theorem message_eq (env : Env) (l : Locals) (c : Conn) :
    message env l c = handle env l c (kindOf (typeOf l.buffer)) := by
  simp only [message, kindOf, apply_ite (handle env l c)]
  rfl

/-! ## The end of a call -/

section
variable {env : Env} {l l' : Locals} {c c' : Conn} {ev : List Event}

/-- The number of bytes that are to arrive -/
def Conn.left (c : Conn) : Nat := (bytes c.arrivals).length

@[simp] theorem Conn.left_request (c : Conn) : c.request.left = c.left := rfl

@[simp] theorem Conn.left_countPage (c : Conn) : c.countPage.left = c.left := rfl

theorem dcaRecv_rest (wide : Bool) (size : Int) (null : Bool) (a : List Arrival) :
    (dcaRecv wide size null a).got.length + (bytes (dcaRecv wide size null a).rest).length = (bytes a).length := by
  unfold dcaRecv
  split_ifs
  · simp
  · simp
  · exact once_rest a
  · simp
  · exact recv_rest _ _

theorem receive_left (c : Conn) (size : Int) (null : Bool) (capacity : Nat) :
    (c.receive size null capacity).got.length + (c.receive size null capacity).conn.left = c.left :=
  dcaRecv_rest c.wide size null c.arrivals

theorem receive_left_le (c : Conn) (size : Int) (null : Bool) (capacity : Nat) :
    (c.receive size null capacity).conn.left ≤ c.left :=
  Nat.le.intro ((Nat.add_comm _ _).trans (receive_left c size null capacity))

/-- A header that is received is complete. -/
theorem header_length (h : c.header.status = .ok) : c.header.got.length = szMsg :=
  recv_length (n := 120) h

theorem header_left (h : c.header.status = .ok) : szMsg + c.header.conn.left = c.left := by
  rw [← header_length h]
  exact receive_left c szMsg false szMsg

theorem recvMeta_left (env : Env) (l : Locals) (c : Conn) : (recvMeta env l c).conn.left ≤ c.left := by
  refine (receive_left_le _ sizeofMdConfig false sizeofMdConfig).trans ?_
  refine (receive_left_le _ _ _ (Int.toNat _)).trans ?_
  exact receive_left_le c szMsg false szMsg

/-- A message does not put bytes back. -/
theorem message_left (h : message env l c = (.go l' c', ev)) : c'.left ≤ c.left := by
  rw [message_eq] at h
  cases hk : kindOf (typeOf l.buffer) <;> rw [hk] at h
  case metaData =>
    simp only [handle, handleMeta] at h
    split_ifs at h
    · exact nomatch congrArg Prod.fst h
    · exact nomatch congrArg Prod.fst h
    · simp only [Prod.mk.injEq, Next.go.injEq] at h
      rw [← h.1.2, Conn.left_countPage, Conn.left_request]
      exact recvMeta_left env l c
  case pixel =>
    simp only [handle, handlePixel] at h
    split_ifs at h
    · exact nomatch congrArg Prod.fst h
    · simp only [Prod.mk.injEq, Next.go.injEq] at h
      obtain ⟨⟨-, rfl⟩, -⟩ := h
      refine (receive_left_le _ _ false (Int.toNat _)).trans ?_
      rw [Conn.left_countPage, Conn.left_request]
      exact receive_left_le c sizeofFpConfig false sizeofFpConfig
  case closeConnect => simp [handle] at h
  case closeExp => simp [handle] at h
  case setFpConfig =>
    simp only [handle, Prod.mk.injEq, Next.go.injEq] at h
    obtain ⟨⟨-, rfl⟩, -⟩ := h
    exact receive_left_le c sizeofFpConfig false sizeofFpConfig
  case name =>
    simp only [handle, Prod.mk.injEq, Next.go.injEq] at h
    obtain ⟨⟨-, rfl⟩, -⟩ := h
    exact receive_left_le c 256 false szMsg
  all_goals
    simp only [handle, Prod.mk.injEq, Next.go.injEq] at h
    obtain ⟨⟨-, rfl⟩, -⟩ := h
    exact Nat.le_refl _

/-- The loop, with fuel for all its messages. -/
def rounds (env : Env) (l : Locals) (c : Conn) : Option (End × Conn × List Event) := loop env (c.left + 1) l c

/-- The fuel is of no importance if there is a unit for each byte. -/
theorem loop_eq {n : Nat} (hn : c.left < n) : loop env n l c = rounds env l c := by
  suffices h : ∀ n m l c, Conn.left c < n → c.left < m → loop env n l c = loop env m l c from
    h _ _ _ _ hn (Nat.lt_succ_self _)
  clear hn n
  intro n
  induction n with
  | zero => omega
  | succ n ih =>
    intro m l c hn hm
    obtain ⟨m, rfl⟩ : ∃ k, m = k + 1 := ⟨m - 1, by omega⟩
    rw [loop, loop]
    match hmsg : message env l c with
    | (.stop e c', ev) => rfl
    | (.go l' c', ev) =>
      have hle := message_left hmsg
      by_cases hs : c'.header.status = .ok
      · -- a header is taken from the bytes that are left
        have hlen := header_left hs
        have hpos : 0 < szMsg := by decide
        simp only [hs, if_true]
        rw [ih m _ _ (by omega) (by omega)]
      · simp only [hs, if_false]

theorem rounds_stop {e : End} (h : message env l c = (.stop e c', ev)) : rounds env l c = some (e, c', ev) := by
  rw [rounds, loop, h]

theorem rounds_go (h : message env l c = (.go l' c', ev)) (hs : c'.header.status = .ok) :
    rounds env l c = (rounds env { l' with buffer := c'.header.got } c'.header.conn).map
      fun (stop, c'', rest) => (stop, c'', ev ++ [c'.header.event, .header c'.header.got] ++ rest) := by
  have hle := message_left h
  have hlen := header_left hs
  have hpos : 0 < szMsg := by decide
  rw [rounds, loop, h]
  simp only [hs, if_true]
  rw [loop_eq (by omega)]

theorem rounds_end (h : message env l c = (.go l' c', ev)) (hs : c'.header.status ≠ .ok) :
    rounds env l c = some (.returned, c'.header.conn, ev ++ [c'.header.event]) := by
  rw [rounds, loop, h]
  simp only [hs, if_false]

theorem loop_isSome {n : Nat} (hn : c.left < n) : (loop env n l c).isSome := by
  induction n generalizing l c with
  | zero => omega
  | succ n ih =>
    rw [loop]
    match hmsg : message env l c with
    | (.stop e c', ev) => rfl
    | (.go l' c', ev) =>
      by_cases hs : c'.header.status = .ok
      · have hle := message_left hmsg
        have hlen := header_left hs
        have hpos : 0 < szMsg := by decide
        simp only [hs, if_true, Option.isSome_map]
        exact ih (by omega)
      · simp only [hs, if_false, Option.isSome_some]

/-- A call comes to an end. -/
theorem handler_isSome (env : Env) (c : Conn) : (handler env c).isSome := by
  rw [handler]
  match hs : c.header.status with
  | .ok =>
    simp only [Option.isSome_map]
    exact loop_isSome (Nat.lt_succ_self _)
  | .eof => rfl
  | .err => rfl

/-- A call, to its end -/
def colPanHandler (env : Env) (c : Conn) : End × Conn × List Event := (handler env c).get (handler_isSome env c)

theorem handler_eq (env : Env) (c : Conn) : handler env c = some (colPanHandler env c) := (Option.some_get _).symm

variable (env) in
theorem colPanHandler_ok (h : c.header.status = .ok) :
    ∃ stop c' ev, rounds env (.start c.header.got) c.header.conn = some (stop, c', ev) ∧
      colPanHandler env c = (stop, c', [c.header.event, .header c.header.got] ++ ev) := by
  have heq := handler_eq env c
  rw [handler, h] at heq
  simp only [Option.map_eq_some_iff, Prod.exists] at heq
  obtain ⟨stop, c', ev, hloop, hrun⟩ := heq
  exact ⟨stop, c', ev, hloop, hrun.symm⟩

theorem colPanHandler_not_ok (h : c.header.status ≠ .ok) :
    (colPanHandler env c).2 = (c.header.conn, [c.header.event]) := by
  have heq := handler_eq env c
  rw [handler] at heq
  match hs : c.header.status with
  | .ok => exact absurd hs h
  | .eof | .err =>
    simp only [hs, Option.some.injEq] at heq
    rw [← heq]

/-! ## The messages of a call -/

/-- The variables and the connection before each message -/
def states (env : Env) : Nat → Locals → Conn → List (Locals × Conn)
  | 0, _, _ => []
  | n + 1, l, c =>
    (l, c) :: match message env l c with
      | (.stop _ _, _) => []
      | (.go l c, _) => if c.header.status = .ok then states env n { l with buffer := c.header.got } c.header.conn else []

/-- The messages of a call of `colPanHandler` -/
def messages (env : Env) (c : Conn) : List (Locals × Conn) :=
  if c.header.status = .ok then states env (c.header.conn.left + 1) (.start c.header.got) c.header.conn else []

theorem loop_forall {E : Event → Prop} {n : Nat} {stop : End} (hh : ∀ h, E (.header h))
    (hr : ∀ c : Conn, E c.header.event) (h : loop env n l c = some (stop, c', ev)) :
    (∀ x ∈ ev, E x) ↔ ∀ s ∈ states env n l c, ∀ x ∈ (message env s.1 s.2).2, E x := by
  induction n generalizing l c ev with
  | zero => cases h
  | succ n ih =>
    rw [loop] at h
    rw [states, List.forall_mem_cons]
    match hmsg : message env l c with
    | (.stop e c'', ev') =>
      simp only [hmsg, Option.some.injEq, Prod.mk.injEq] at h
      obtain ⟨-, -, rfl⟩ := h
      simp
    | (.go l' c'', ev') =>
      simp only [hmsg] at h
      by_cases hs : c''.header.status = .ok
      · simp only [hs, if_true, Option.map_eq_some_iff, Prod.exists, Prod.mk.injEq] at h
        obtain ⟨_, _, rest, hrest, rfl, rfl, rfl⟩ := h
        simp only [hs, if_true, ← ih hrest, List.forall_mem_append, List.forall_mem_cons, hh, hr,
          List.not_mem_nil, false_imp_iff, implies_true, and_true]
      · simp only [hs, if_false, Option.some.injEq, Prod.mk.injEq] at h
        obtain ⟨-, -, rfl⟩ := h
        simp only [hs, if_false, List.forall_mem_append, List.forall_mem_cons, hr, List.not_mem_nil, false_imp_iff,
          implies_true, and_true]

/-- What holds of all that a call does is what holds of its messages. -/
theorem colPanHandler_forall {E : Event → Prop} (hh : ∀ h, E (.header h)) (hr : ∀ c : Conn, E c.header.event) :
    (∀ x ∈ (colPanHandler env c).2.2, E x) ↔ ∀ s ∈ messages env c, ∀ x ∈ (message env s.1 s.2).2, E x := by
  rw [messages]
  by_cases hs : c.header.status = .ok
  · obtain ⟨stop, c', ev, hloop, hrun⟩ := colPanHandler_ok env hs
    rw [if_pos hs, hrun]
    simp only [List.forall_mem_append, List.forall_mem_cons, hh, hr, true_and, List.not_mem_nil, false_imp_iff,
      implies_true]
    exact loop_forall hh hr hloop
  · rw [if_neg hs, colPanHandler_not_ok hs]
    simp [hr]

end

end Ndhs.Collector
