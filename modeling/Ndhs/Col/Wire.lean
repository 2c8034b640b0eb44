import Ndhs.Col.Faults

/-!
# What a PAN sends to the Collector

The library of a PAN sends an exposure with `dhsUtilOpenExp`, any number of `dhsSendMetaData` and `dhsSendPixelData`,
and `dhsUtilCloseExp`. Each of them writes frames: a header and what comes behind it. There is no length and no mark in
the stream, so the Collector must take as many bytes for a message as were written.

* `Bytes n`: the bytes of a variable of the PAN. `extra` is what stands in a header in place of the arguments that the
  call of `dcaFmtMsg` does not have.
* The PAN waits for the reply to the `DCA_NOOP` of `dcaValidateChannel` before it goes on; the order of what it sends is
  that of the frames.
* `Exposure.Fits`: no data are larger than what `smcGetPage` allows.

`calls_aligned`: the headers that the Collector takes from the stream are those that were sent, in any case up to a
page that is refused. `calls_exposures`: with all pages granted, there is a page for each send.
-/

namespace Ndhs.Collector

open Endian Socket

/-! ## The PAN -/

/-- The bytes of a variable of size `n` -/
def Bytes (n : Nat) : Type := { bs : List UInt8 // bs.length = n }

/-- `DHS_IAMPAN` and `DHS_IAMWHO` -/
def dhsIamPan : Nat := 0xABCD
def dhsIamWho : Nat := 0xFEED

/-- `strncpy (to, s, n)`, where `to` has `n` bytes. -/
def strncpy (n : Nat) (s : List UInt8) : List UInt8 :=
  let t := (s.takeWhile (· ≠ 0)).take n
  t ++ List.replicate (n - t.length) 0

/-- The state of the library that goes to all headers -/
structure Dhs where
  expID : Bytes 8
  obsSetID : List UInt8

/-- `dcaFmtMsg` -/
def dcaFmtMsg (dhs : Dhs) (vtype whoami : Nat) (extra : Bytes 8) : List UInt8 :=
  toBytes 4 vtype ++ toBytes 4 whoami ++ dhs.expID.1 ++ strncpy 80 dhs.obsSetID ++ List.replicate 16 0 ++ extra.1

/-- A header and what is sent behind it -/
structure Frame where
  header : List UInt8
  body : List UInt8

def wire (fs : List Frame) : List UInt8 := fs.flatMap fun f => f.header ++ f.body

/-- `fpCfg->xSize` and `fpCfg->ySize` -/
def xSize (fpCfg : Bytes sizeofFpConfig) : Int := intOf fpCfg.1
def ySize (fpCfg : Bytes sizeofFpConfig) : Int := intOf (fpCfg.1.drop 4)

/-- A call of `dhsSendMetaData` or `dhsSendPixelData` -/
inductive Send where
  | metaData (blk : List UInt8) (mdCfg : Bytes sizeofMdConfig) (extra : Bytes 8) (pos : 0 < blk.length)
    (lt : blk.length < 2 ^ 31)
  | pixelData (pxl : List UInt8) (fpCfg : Bytes sizeofFpConfig) (extra : Bytes 8) (pos : 0 < pxl.length)
    (lt : pxl.length < 2 ^ 31) (frmSize : (pxl.length : Int) = 4 * xSize fpCfg * ySize fpCfg)

namespace Send

def type : Send → PageType
  | metaData .. => .tyMeta
  | pixelData .. => .tyData

/-- The data block -/
def payload : Send → List UInt8
  | metaData blk .. => blk
  | pixelData pxl .. => pxl

/-- The buffer in which `dhsSendMetaData` sends the size -/
def sizeBlock (blkSize : Nat) : List UInt8 := toBytes 8 blkSize ++ List.replicate 112 0

/-- What `dhsSendMetaData` and `dhsSendPixelData` write -/
def frame (dhs : Dhs) : Send → Frame
  | metaData blk mdCfg extra _ _ =>
    ⟨dcaFmtMsg dhs dcaMeta 0 extra, sizeBlock blk.length ++ blk ++ mdCfg.1⟩
  | pixelData pxl fpCfg extra _ _ _ => ⟨dcaFmtMsg dhs dcaPixel dhsIamWho extra, fpCfg.1 ++ pxl⟩

end Send

/-- An exposure: the arguments of `dhsUtilOpenExp`, the directory and file name of the library, and the sends. -/
structure Exposure where
  dhs : Dhs
  fpCfg : Bytes sizeofFpConfig
  dir : Bytes 256
  filename : Bytes 256
  extra : Fin 7 → Bytes 8
  sends : List Send

namespace Exposure

variable (e : Exposure)

/-- What `dhsUtilOpenExp` writes to the Collector -/
def dhsUtilOpenExp : List Frame :=
  [⟨dcaFmtMsg e.dhs dcaNoop 0 (e.extra 0), []⟩,
    ⟨dcaFmtMsg e.dhs (dcaOpen ||| dcaExp) dhsIamPan (e.extra 1), []⟩,
    ⟨dcaFmtMsg e.dhs (dcaSet ||| dcaFpConfig) dhsIamPan (e.extra 2), e.fpCfg.1⟩,
    ⟨dcaFmtMsg e.dhs dcaExpObsid 0 (e.extra 3), []⟩,
    ⟨dcaFmtMsg e.dhs dcaDirectory 0 (e.extra 4), e.dir.1⟩,
    ⟨dcaFmtMsg e.dhs dcaFname 0 (e.extra 5), e.filename.1⟩]

/-- What `dhsUtilCloseExp` writes to the Collector -/
def dhsUtilCloseExp : Frame := ⟨dcaFmtMsg e.dhs (dcaClose ||| dcaExp) dhsIamPan (e.extra 6), []⟩

def frames : List Frame := e.dhsUtilOpenExp ++ e.sends.map (Send.frame e.dhs) ++ [e.dhsUtilCloseExp]

/-- The data are not larger than the cache allows. -/
def Fits : Prop := ∀ s ∈ e.sends, (s.payload.length : Int) ≤ maxSegSize

end Exposure

/-! ## The Collector -/

/-- At most `n` calls of `colPanHandler`, one after another, as long as they return with the connection open. -/
def calls (env : Env) : Nat → Conn → List (End × List Event)
  | 0, _ => []
  | n + 1, c =>
    let (e, c', ev) := colPanHandler env c
    (e, ev) :: if e = .returned then calls env n c' else []

/-- The headers that are handled -/
def headersIn (ev : List Event) : List (List UInt8) := ev.filterMap fun | .header h => some h | _ => none

/-- The pages that are unlocked -/
def pagesIn (ev : List Event) : List Page := ev.filterMap fun | .unlock p => some p | _ => none

/-- What the PAN determines of a page -/
structure View where
  type : PageType
  expID : List Cell
  obSetID : List Cell
  expPageNum : Int
  payload : List Cell

def Page.view (p : Page) : View := ⟨p.type, p.expID, p.obSetID, p.expPageNum, p.payload⟩

/-- What is left of the `obSetID` of an exposure when its directory and its file name are received -/
def Exposure.obSetID (env : Env) (e : Exposure) : List Cell :=
  env.spill (e.filename.1.drop szMsg) (env.spill (e.dir.1.drop szMsg) ((strncpy 80 e.dhs.obsSetID).map some))

/-- The page for send number `k` of an exposure -/
def Send.view (env : Env) (e : Exposure) (k : Nat) (s : Send) : View :=
  ⟨s.type, e.dhs.expID.1.map some, e.obSetID env, k, s.payload.map some⟩

/-! ## Headers -/

section
variable {dhs : Dhs} {t w : Nat} {x : Bytes 8}

@[simp] theorem strncpy_length (n : Nat) (s : List UInt8) : (strncpy n s).length = n := by
  simp only [strncpy, List.length_append, List.length_replicate, List.length_take]
  omega

theorem dcaFmtMsg_length : (dcaFmtMsg dhs t w x).length = szMsg := by
  simp [dcaFmtMsg, dhs.expID.2, x.2, szMsg]

theorem typeOf_dcaFmtMsg (ht : t < 2 ^ 32) : typeOf (dcaFmtMsg dhs t w x) = t := by
  rw [typeOf, dcaFmtMsg]
  simp only [List.append_assoc]
  rw [List.take_left' (toBytes_length 4 t), ofBytes_toBytes ht]

theorem expnumOf_dcaFmtMsg : expnumOf (dcaFmtMsg dhs t w x) = dhs.expID.1 := by
  rw [expnumOf, dcaFmtMsg]
  simp only [List.append_assoc]
  rw [← List.append_assoc (toBytes 4 t), List.drop_left' (by simp), List.take_left' dhs.expID.2]

theorem obsetOf_dcaFmtMsg : obsetOf (dcaFmtMsg dhs t w x) = strncpy 80 dhs.obsSetID := by
  rw [obsetOf, dcaFmtMsg]
  simp only [List.append_assoc]
  rw [← List.append_assoc (toBytes 4 w), ← List.append_assoc (toBytes 4 t), List.drop_left' (by simp [dhs.expID.2]),
    List.take_left' (strncpy_length 80 _)]

end

/-! ## One frame -/

section
variable {env : Env} {l : Locals} {c : Conn} {dhs : Dhs} {a b rest : List UInt8} {n k : Nat}

/-- The bytes that are to arrive, without an error -/
structure Reads (c : Conn) (bs : List UInt8) : Prop where
  clean : Clean c.arrivals
  bytes_eq : bytes c.arrivals = bs

theorem Reads.request (h : Reads c a) : Reads c.request a := ⟨h.clean, h.bytes_eq⟩

theorem Reads.countPage (h : Reads c a) : Reads c.countPage a := ⟨h.clean, h.bytes_eq⟩

/-- What was sent is received, however it is split. -/
theorem Reads.receive (h : Reads c (a ++ b)) (hn : a.length = n) (hpos : 0 < n) (k : Nat) :
    ∃ arrivals, c.receive n false k = ⟨⟨a, .ok, arrivals⟩, { c with arrivals }, .moved n k⟩ ∧
      Reads { c with arrivals } b := by
  obtain ⟨arrivals, hrecv, hbytes, hclean⟩ := recv_append h.clean h.bytes_eq hn hpos
  have hdca : dcaRecv c.wide n false c.arrivals = ⟨a, .ok, arrivals⟩ := by
    rw [dcaRecv_of_nonneg (by omega), if_neg (by omega), Int.toNat_natCast, hrecv]
  refine ⟨arrivals, ?_, hclean, hbytes⟩
  rw [Conn.receive, hdca, hn]

/-- A receive makes no error. -/
theorem Reads.header_conn_nil (h : Reads c []) : Reads c.header.conn [] := by
  have hle := receive_left_le c szMsg false szMsg
  rw [Conn.left, Conn.left, h.bytes_eq] at hle
  exact ⟨clean_recv (n := 120) h.clean, List.length_eq_zero_iff.mp (Nat.le_zero.mp hle)⟩

theorem Reads.header (h : Reads c (a ++ b)) (ha : a.length = szMsg) :
    ∃ arrivals, c.header = ⟨⟨a, .ok, arrivals⟩, { c with arrivals }, .moved szMsg szMsg⟩ ∧
      Reads { c with arrivals } b :=
  h.receive ha (by decide) szMsg

/-- There is nothing left. -/
theorem Reads.header_nil (h : Reads c []) : c.header.status ≠ .ok := by
  intro hs
  have hleft := header_left hs
  rw [Conn.left, Conn.left, h.bytes_eq] at hleft
  exact absurd hleft (by simp [szMsg])

theorem toBytes_take (m n v : Nat) : (toBytes (m + n) v).take m = toBytes m v := by
  induction m generalizing v with
  | zero => rfl
  | succ m ih => rw [Nat.add_right_comm, toBytes, List.take_succ_cons, ih, toBytes]

theorem toInt_of_range {n : Int} (hlo : 0 ≤ n) (hhi : n < 2 ^ 31) : toInt n = n := by
  rw [toInt, BitVec.toInt_ofInt]
  apply Int.bmod_eq_of_le <;> omega

theorem sizeBlock_length (n : Nat) : (Send.sizeBlock n).length = szMsg := by
  rw [Send.sizeBlock, List.length_append, toBytes_length, List.length_replicate]
  rfl

/-- The size that a block announces -/
theorem intOf_sizeBlock (hn : n < 2 ^ 31) : intOf (Send.sizeBlock n) = n := by
  have htake : (Send.sizeBlock n).take 4 = toBytes 4 n := by
    rw [Send.sizeBlock, List.take_append_of_le_length (by simp), toBytes_take 4 4]
  rw [intOf, htake, ofBytes_toBytes (by omega), toInt_of_range (by omega) (by omega)]

theorem overlay_all {old : List Cell} (h : old.length ≤ a.length) : overlay a old = a.map some := by
  rw [overlay, List.drop_eq_nil_of_le h, List.append_nil]

/-- The receives of metadata take the frame. -/
theorem recvMeta_reads {blk : List UInt8} {mdCfg : Bytes sizeofMdConfig} (hheap : ∀ n, env.heap n = true)
    (hpos : 0 < blk.length) (hlt : blk.length < 2 ^ 31)
    (h : Reads c (Send.sizeBlock blk.length ++ blk ++ mdCfg.1 ++ rest)) :
    blksizeOf l c = blk.length ∧ callocs env (blksizeOf l c) = true ∧ Reads (recvMeta env l c).conn rest ∧
      (recvMeta env l c).conn.expPageNum = c.expPageNum ∧ (recvMeta env l c).payload = blk.map some := by
  rw [List.append_assoc, List.append_assoc] at h
  obtain ⟨a₁, hr₁, h₁⟩ := h.header (sizeBlock_length _)
  obtain ⟨a₂, hr₂, h₂⟩ := h₁.receive rfl hpos blk.length
  obtain ⟨a₃, hr₃, h₃⟩ := h₂.receive mdCfg.2 (by decide) sizeofMdConfig
  have hsize : blksizeOf l c = blk.length := by
    rw [blksizeOf, hr₁]
    have htake : (Send.sizeBlock blk.length ++ l.buffer.drop (Send.sizeBlock blk.length).length).take 4 =
        (Send.sizeBlock blk.length).take 4 :=
      List.take_append_of_le_length (by rw [sizeBlock_length]; decide)
    rw [← intOf_sizeBlock hlt, intOf, intOf, htake]
  have hcallocs : callocs env (blksizeOf l c) = true := by
    rw [hsize, callocs, hheap, decide_eq_true (by omega)]
    rfl
  rw [recvMeta_conn, recvMeta_payload, hcallocs, hsize, Int.toNat_natCast, hr₁, Bool.not_true, hr₂]
  refine ⟨rfl, rfl, ?_⟩
  rw [hr₃]
  exact ⟨h₃, rfl, overlay_all (by rw [List.length_replicate])⟩

theorem cfgInt_map {bs : List UInt8} {old : List Cell} {off : Nat} (h : off + 4 ≤ bs.length) :
    cfgInt env (bs.map some ++ old) off = intOf (bs.drop off) := by
  have hmap : ((List.range 4).map fun i => ((bs.map some ++ old).getD (off + i) none).getD (env.junk (off + i))) =
      (bs.drop off).take 4 := by
    apply List.ext_getElem
    · simp
      omega
    · intro i hi hi'
      have hlt : off + i < bs.length := by
        rw [List.length_map, List.length_range] at hi
        omega
      have hget : (bs.map some ++ old)[off + i]? = some (some bs[off + i]) := by
        rw [List.getElem?_append_left (by rwa [List.length_map]), List.getElem?_map, List.getElem?_eq_getElem hlt]
        rfl
      simp [List.getD_eq_getElem?_getD, hget]
  rw [cfgInt, hmap, intOf, intOf, List.take_take]
  rfl

variable (env l) in
/-- The size of the pixels is that of the frame. -/
theorem imSizeOf_reads {pxl : List UInt8} {fpCfg : Bytes sizeofFpConfig} (hlt : pxl.length < 2 ^ 31)
    (hsize : (pxl.length : Int) = 4 * xSize fpCfg * ySize fpCfg) (h : Reads c (fpCfg.1 ++ pxl ++ rest)) :
    imSizeOf env l c = pxl.length ∧
      ∃ arrivals, (recvPixelHead env l c).conn = { c with arrivals } ∧ Reads { c with arrivals } (pxl ++ rest) := by
  rw [List.append_assoc] at h
  obtain ⟨arrivals, hr, h'⟩ := h.receive fpCfg.2 (by decide) sizeofFpConfig
  have hlen := fpCfg.2
  have hmul : ySize fpCfg * xSize fpCfg * 4 = pxl.length := by
    rw [hsize, Int.mul_comm (ySize fpCfg), Int.mul_comm, Int.mul_assoc]
  have hy : cfgInt env (overlay fpCfg.1 l.fpCfg) 4 = ySize fpCfg := cfgInt_map (by rw [hlen]; decide)
  have hx : cfgInt env (overlay fpCfg.1 l.fpCfg) 0 = xSize fpCfg := cfgInt_map (by rw [hlen]; decide)
  refine ⟨?_, arrivals, ?_, h'⟩
  · simp only [imSizeOf, recvPixelHead, hr]
    rw [hy, hx, toInt_of_range (n := ySize fpCfg * xSize fpCfg) (by omega) (by omega), hmul,
      toInt_of_range (by omega) (by omega)]
  · have hconn : (recvPixelHead env l c).conn = (c.receive sizeofFpConfig false sizeofFpConfig).conn := rfl
    rw [hconn, hr]

variable (env l c) in
/-- A message contains no header. -/
theorem message_headersIn : headersIn (message env l c).2 = [] := by
  have hnot : ∀ x ∈ (message env l c).2, ∀ h, x ≠ .header h := by
    intro x hx h rfl
    by_cases hm : kindOf (typeOf l.buffer) = .metaData
    · have hev : ∀ x ∈ (recvMeta env l c).events, x ≠ .header h := fun x hx => by
        obtain ⟨n, k, rfl, -⟩ := recvMeta_events env l c x hx
        nofun
      by_cases ho : Obtains env l c
      · rw [handleMeta_of hm ho] at hx
        simp only [List.mem_append, List.mem_cons, List.not_mem_nil, reduceCtorEq, or_false] at hx
        exact hev _ hx rfl
      · obtain ⟨e, c', t, hmsg, ht⟩ := handleMeta_stop hm ho
        rw [hmsg] at hx
        rcases ht with ⟨rfl, -⟩ | ⟨rfl, -⟩ <;>
          simp only [List.mem_append, List.mem_cons, List.not_mem_nil, reduceCtorEq, or_false] at hx <;>
          exact hev _ hx rfl
    by_cases hp : kindOf (typeOf l.buffer) = .pixel
    · obtain ⟨n, hhead⟩ : ∃ n, (recvPixelHead env l c).event = .moved n sizeofFpConfig := ⟨_, rfl⟩
      by_cases ho : Obtains env l c
      · obtain ⟨r, hr, hmsg⟩ := handlePixel_of hp ho
        rw [hmsg, hhead, hr, receive_moved] at hx
        simp at hx
      · rw [handlePixel_stop hp ho, hhead] at hx
        simp at hx
    · obtain ⟨n, k, hx'⟩ | ⟨r, hx'⟩ := message_other hm hp _ hx <;> cases hx'
  rw [headersIn, List.filterMap_eq_nil_iff]
  intro x hx
  cases x with
  | header h => exact absurd rfl (hnot _ hx h)
  | _ => rfl

/-- What is left after a message, if the connection goes on -/
def Next.Leaves (rest : List UInt8) : Next → Prop
  | .go _ c => Reads c rest
  | .stop e c => e = .returned → Reads c rest

/-- The Collector takes the body of the frame, and no more. -/
structure Frame.Aligned (env : Env) (f : Frame) : Prop where
  length : f.header.length = szMsg
  leaves : ∀ l c rest, Locals.buffer l = f.header → Reads c (f.body ++ rest) → (message env l c).1.Leaves rest

theorem message_dcaFmtMsg {t w : Nat} {x : Bytes 8} (ht : t < 2 ^ 32) (hb : l.buffer = dcaFmtMsg dhs t w x) :
    message env l c = handle env l c (kindOf t) := by
  rw [message_eq, hb, typeOf_dcaFmtMsg ht]

variable (env l) in
/-- `DCA_DIRECTORY` and `DCA_FNAME` -/
theorem handle_name (h : Reads c (a ++ rest)) (ha : a.length = 256) :
    ∃ arrivals, handle env l c .name =
        (.go { l with obSetID := env.spill (a.drop szMsg) l.obSetID } { c with arrivals }, [.moved 256 szMsg]) ∧
      Reads { c with arrivals } rest := by
  obtain ⟨arrivals, hr, h'⟩ := h.receive ha (by decide) szMsg
  have hr' : c.receive 256 false szMsg = ⟨⟨a, .ok, arrivals⟩, { c with arrivals }, .moved 256 szMsg⟩ := hr
  exact ⟨arrivals, by simp only [handle, hr'], h'⟩

variable (env l) in
/-- `DCA_SET | DCA_FP_CONFIG` -/
theorem handle_setFpConfig (h : Reads c (a ++ rest)) (ha : a.length = sizeofFpConfig) :
    ∃ arrivals, handle env l c .setFpConfig =
        (.go { l with fpCfg := overlay a l.fpCfg } { c with arrivals }, [.moved sizeofFpConfig sizeofFpConfig]) ∧
      Reads { c with arrivals } rest := by
  obtain ⟨arrivals, hr, h'⟩ := h.receive ha (by decide) sizeofFpConfig
  exact ⟨arrivals, by simp only [handle, hr], h'⟩

theorem kindOf_noop : kindOf dcaNoop = .noop := by decide
theorem kindOf_openExp : kindOf (dcaOpen ||| dcaExp) = .openExp := by decide
theorem kindOf_setFpConfig : kindOf (dcaSet ||| dcaFpConfig) = .setFpConfig := by decide
theorem kindOf_expObsid : kindOf dcaExpObsid = .expObsid := by decide
theorem kindOf_directory : kindOf dcaDirectory = .name := by decide
theorem kindOf_fname : kindOf dcaFname = .name := by decide
theorem kindOf_meta : kindOf dcaMeta = .metaData := by decide
theorem kindOf_pixel : kindOf dcaPixel = .pixel := by decide
theorem kindOf_closeExp : kindOf (dcaClose ||| dcaExp) = .closeExp := by decide

theorem aligned_open (e : Exposure) : ∀ f ∈ e.dhsUtilOpenExp, f.Aligned env := by
  simp only [Exposure.dhsUtilOpenExp, List.forall_mem_cons]
  refine ⟨⟨dcaFmtMsg_length, ?_⟩, ⟨dcaFmtMsg_length, ?_⟩, ⟨dcaFmtMsg_length, ?_⟩, ⟨dcaFmtMsg_length, ?_⟩,
    ⟨dcaFmtMsg_length, ?_⟩, ⟨dcaFmtMsg_length, ?_⟩, nofun⟩ <;> intro l c rest hb h
  · rw [message_dcaFmtMsg (by decide) hb, kindOf_noop]
    exact h
  · rw [message_dcaFmtMsg (by decide) hb, kindOf_openExp]
    exact ⟨h.clean, h.bytes_eq⟩
  · obtain ⟨a, hm, h'⟩ := handle_setFpConfig env l h e.fpCfg.2
    rw [message_dcaFmtMsg (by decide) hb, kindOf_setFpConfig, hm]
    exact h'
  · rw [message_dcaFmtMsg (by decide) hb, kindOf_expObsid]
    exact h
  · obtain ⟨a, hm, h'⟩ := handle_name env l h e.dir.2
    rw [message_dcaFmtMsg (by decide) hb, kindOf_directory, hm]
    exact h'
  · obtain ⟨a, hm, h'⟩ := handle_name env l h e.filename.2
    rw [message_dcaFmtMsg (by decide) hb, kindOf_fname, hm]
    exact h'

theorem pagesIn_append (x y : List Event) : pagesIn (x ++ y) = pagesIn x ++ pagesIn y := List.filterMap_append

theorem pagesIn_recvMeta (env : Env) (l : Locals) (c : Conn) : pagesIn (recvMeta env l c).events = [] := by
  rw [pagesIn, List.filterMap_eq_nil_iff]
  intro x hx
  obtain ⟨n, k, rfl, -⟩ := recvMeta_events env l c x hx
  rfl

/-- A send for which there is a page becomes the next page. -/
theorem message_send (hheap : ∀ n, env.heap n = true) (s : Send) (hb : l.buffer = (s.frame dhs).header)
    (h : Reads c ((s.frame dhs).body ++ rest)) (hg : c.granted env s.payload.length = true) :
    ∃ l' c' ev, message env l c = (.go l' c', ev) ∧ Reads c' rest ∧ l'.expID = l.expID ∧ l'.obSetID = l.obSetID ∧
      c'.expPageNum = c.expPageNum + 1 ∧
      (pagesIn ev).map Page.view = [⟨s.type, l.expID, l.obSetID, c.expPageNum, s.payload.map some⟩] := by
  cases s with
  | metaData blk mdCfg extra pos lt =>
    obtain ⟨hsize, hcallocs, hreads, hnum, hpayload⟩ := recvMeta_reads (l := l) hheap pos lt h
    have hk : kindOf (typeOf l.buffer) = .metaData := by
      rw [hb, Send.frame, typeOf_dcaFmtMsg (by decide), kindOf_meta]
    have ho : Obtains env l c := by
      simp only [Obtains, hk]
      exact ⟨hsize ▸ hg, .inr hcallocs⟩
    refine ⟨_, _, _, handleMeta_of hk ho, hreads.request.countPage, rfl, rfl, ?_, ?_⟩
    · rw [Conn.countPage, Conn.request, hnum]
    · simp only [pagesIn_append, pagesIn_recvMeta]
      have hview : (metaPage l (recvMeta env l c)).view =
          ⟨.tyMeta, l.expID, l.obSetID, (recvMeta env l c).conn.expPageNum, (recvMeta env l c).payload⟩ := rfl
      rw [hnum, hpayload] at hview
      exact congrArg (fun v => [v]) hview
  | pixelData pxl fpCfg extra pos lt frmSize =>
    obtain ⟨hsize, a, hconn, hreads⟩ := imSizeOf_reads env l lt frmSize h
    have hk : kindOf (typeOf l.buffer) = .pixel := by
      rw [hb, Send.frame, typeOf_dcaFmtMsg (by decide), kindOf_pixel]
    have ho : Obtains env l c := by
      simp only [Obtains, hk]
      exact hsize ▸ hg
    obtain ⟨r, hr, hmsg⟩ := handlePixel_of hk ho
    obtain ⟨a', hr', hreads'⟩ := hreads.request.countPage.receive rfl pos pxl.length
    rw [hconn, hsize, Int.toNat_natCast, hr'] at hr
    obtain ⟨n, hhead⟩ : ∃ n, (recvPixelHead env l c).event = .moved n sizeofFpConfig := ⟨_, rfl⟩
    rw [hhead, hr, hsize, Int.toNat_natCast] at hmsg
    refine ⟨_, _, _, hmsg, hreads', rfl, rfl, rfl, ?_⟩
    have hpayload : overlay pxl (List.replicate pxl.length none) = pxl.map some :=
      overlay_all (by rw [List.length_replicate])
    have hview : (pixelPage l (recvPixelHead env l c) (pxl.map some)).view =
        ⟨.tyData, l.expID, l.obSetID, (recvPixelHead env l c).conn.expPageNum, pxl.map some⟩ := rfl
    rw [hconn] at hview
    simp only [hpayload]
    exact congrArg (fun v => [v]) hview

/-- A page that is refused does not spoil the stream: the call returns behind the frame, or the program is killed. -/
theorem message_refused (hheap : ∀ n, env.heap n = true) (s : Send) (hb : l.buffer = (s.frame dhs).header)
    (h : Reads c ((s.frame dhs).body ++ rest)) (hg : c.granted env s.payload.length = false) :
    (message env l c).1.Leaves rest := by
  cases s with
  | metaData blk mdCfg extra pos lt =>
    obtain ⟨hsize, hcallocs, hreads, -⟩ := recvMeta_reads (l := l) hheap pos lt h
    rw [message_dcaFmtMsg (by decide) hb, kindOf_meta, handle, handleMeta_eq, recvMeta_granted, hsize]
    have hg' : (!c.granted env blk.length) = true := by
      rw [show c.granted env blk.length = false from hg]
      rfl
    rw [if_pos hg']
    exact fun _ => hreads.request
  | pixelData pxl fpCfg extra pos lt frmSize =>
    obtain ⟨hsize, -⟩ := imSizeOf_reads env l lt frmSize h
    have hk : kindOf (typeOf l.buffer) = .pixel := by
      rw [hb, Send.frame, typeOf_dcaFmtMsg (by decide), kindOf_pixel]
    have ho : ¬ Obtains env l c := by
      simp only [Obtains, hk, hsize]
      rw [show c.granted env pxl.length = false from hg]
      decide
    rw [handlePixel_stop hk ho]
    intro hend
    cases hend

theorem aligned_send (hheap : ∀ n, env.heap n = true) (s : Send) : (s.frame dhs).Aligned env := by
  refine ⟨by cases s <;> exact dcaFmtMsg_length, fun l c rest hb h => ?_⟩
  cases hg : c.granted env s.payload.length with
  | true =>
    obtain ⟨l', c', ev, hmsg, hreads, -⟩ := message_send hheap s hb h hg
    rw [hmsg]
    exact hreads
  | false => exact message_refused hheap s hb h hg

theorem aligned_close (e : Exposure) : e.dhsUtilCloseExp.Aligned env := by
  refine ⟨dcaFmtMsg_length, fun l c rest hb h => ?_⟩
  rw [message_dcaFmtMsg (by decide) hb, kindOf_closeExp]
  exact fun _ => h

theorem aligned_frames (hheap : ∀ n, env.heap n = true) (e : Exposure) : ∀ f ∈ e.frames, f.Aligned env := by
  simp only [Exposure.frames, List.forall_mem_append, List.forall_mem_map, List.forall_mem_singleton]
  exact ⟨⟨aligned_open e, fun s _ => aligned_send hheap s⟩, aligned_close e⟩

/-! ## Headers, whether or not pages are refused -/

theorem headersIn_append (x y : List Event) : headersIn (x ++ y) = headersIn x ++ headersIn y := List.filterMap_append

theorem wire_cons (f : Frame) (fs : List Frame) : wire (f :: fs) = f.header ++ (f.body ++ wire fs) := by
  rw [wire, List.flatMap_cons, List.append_assoc]
  rfl

/-- A message that ends the call -/
theorem rounds_aligned_stop {f : Frame} {fs : List Frame} (hf : f.Aligned env) (hb : l.buffer = f.header)
    (hr : Reads c (f.body ++ wire fs)) {e stop : End} {c' c'' : Conn} {ev ev' : List Event}
    (hmsg : message env l c = (.stop e c'', ev')) (h : rounds env l c = some (stop, c', ev)) :
    headersIn ev = [] ∧ (stop = .returned → Reads c' (wire fs)) := by
  have hleaves := hf.leaves l c _ hb hr
  have hheaders := message_headersIn env l c
  rw [hmsg] at hleaves hheaders
  rw [rounds_stop hmsg, Option.some.injEq, Prod.mk.injEq, Prod.mk.injEq] at h
  obtain ⟨rfl, rfl, rfl⟩ := h
  exact ⟨hheaders, hleaves⟩

/-- The loop takes frames from the stream. -/
theorem rounds_aligned {f : Frame} {fs : List Frame} (hf : f.Aligned env) (hfs : ∀ g ∈ fs, g.Aligned env)
    (hb : l.buffer = f.header) (hr : Reads c (f.body ++ wire fs)) {stop : End} {c' : Conn} {ev : List Event}
    (h : rounds env l c = some (stop, c', ev)) :
    ∃ gs hs, fs = gs ++ hs ∧ headersIn ev = gs.map Frame.header ∧ (stop = .returned → Reads c' (wire hs)) := by
  induction fs generalizing f l c ev with
  | nil =>
    refine ⟨[], [], rfl, ?_⟩
    have hleaves := hf.leaves l c [] hb hr
    have hheaders := message_headersIn env l c
    match hmsg : message env l c with
    | (.stop e c'', ev') => exact rounds_aligned_stop hf hb hr hmsg h
    | (.go l' c'', ev') =>
      rw [hmsg] at hleaves hheaders
      have hnil : Reads c'' [] := hleaves
      rw [rounds_end hmsg hnil.header_nil, Option.some.injEq, Prod.mk.injEq, Prod.mk.injEq] at h
      obtain ⟨rfl, rfl, rfl⟩ := h
      refine ⟨?_, fun _ => hnil.header_conn_nil⟩
      rw [headersIn_append, hheaders]
      rfl
  | cons g fs ih =>
    have hleaves := hf.leaves l c _ hb hr
    have hheaders := message_headersIn env l c
    match hmsg : message env l c with
    | (.stop e c'', ev') => exact ⟨[], g :: fs, rfl, rounds_aligned_stop hf hb hr hmsg h⟩
    | (.go l' c'', ev') =>
      rw [hmsg] at hleaves hheaders
      have hreads : Reads c'' (g.header ++ (g.body ++ wire fs)) := wire_cons g fs ▸ hleaves
      rw [List.forall_mem_cons] at hfs
      obtain ⟨a, hhead, hreads'⟩ := hreads.header hfs.1.length
      rw [rounds_go hmsg (by rw [hhead]), hhead, Option.map_eq_some_iff] at h
      obtain ⟨⟨stop', c₁, rest'⟩, hrest, heq⟩ := h
      simp only [Prod.mk.injEq] at heq
      obtain ⟨rfl, rfl, rfl⟩ := heq
      obtain ⟨gs, hs, rfl, hgs, hreturned⟩ := ih hfs.1 hfs.2 rfl hreads' hrest
      refine ⟨g :: gs, hs, rfl, ?_, hreturned⟩
      rw [headersIn_append, headersIn_append, hheaders, hgs]
      rfl

/-- A call takes frames from the stream. -/
theorem colPanHandler_aligned {fs : List Frame} (hfs : ∀ g ∈ fs, g.Aligned env) (hr : Reads c (wire fs)) :
    ∃ gs hs, fs = gs ++ hs ∧ headersIn (colPanHandler env c).2.2 = gs.map Frame.header ∧
      ((colPanHandler env c).1 = .returned → Reads (colPanHandler env c).2.1 (wire hs)) := by
  cases fs with
  | nil =>
    have hnil : Reads c [] := hr
    rw [colPanHandler_not_ok hnil.header_nil]
    exact ⟨[], [], rfl, rfl, fun _ => hnil.header_conn_nil⟩
  | cons f fs =>
    rw [wire_cons] at hr
    rw [List.forall_mem_cons] at hfs
    obtain ⟨a, hhead, hreads⟩ := hr.header hfs.1.length
    obtain ⟨stop, c', ev, hrounds, hcall⟩ := colPanHandler_ok env (c := c) (by rw [hhead])
    rw [hhead] at hrounds
    obtain ⟨gs, hs, rfl, hgs, hreturned⟩ := rounds_aligned hfs.1 hfs.2 rfl hreads hrounds
    refine ⟨f :: gs, hs, rfl, ?_, by rw [hcall]; exact hreturned⟩
    rw [hcall, headersIn_append, hgs, hhead]
    rfl

/-- The headers of a number of calls -/
def headersOf (runs : List (End × List Event)) : List (List UInt8) := runs.flatMap fun r => headersIn r.2

/-- The pages of a number of calls -/
def viewsOf (runs : List (End × List Event)) : List View := runs.flatMap fun r => (pagesIn r.2).map Page.view

/-- Calls take frames from the stream, one after another. -/
theorem calls_aligned {fs : List Frame} (hfs : ∀ g ∈ fs, g.Aligned env) (hr : Reads c (wire fs)) (n : Nat) :
    headersOf (calls env n c) <+: fs.map Frame.header := by
  induction n generalizing c fs with
  | zero => exact List.nil_prefix
  | succ n ih =>
    obtain ⟨gs, hs, rfl, hgs, hreturned⟩ := colPanHandler_aligned hfs hr
    rw [List.forall_mem_append] at hfs
    rw [calls, headersOf, List.flatMap_cons, hgs, List.map_append, List.prefix_append_right_inj]
    split
    · next he => exact ih hfs.2 (hreturned he)
    · exact List.nil_prefix

/-! ## Pages, when they are granted -/

/-- The loop returns after some headers and pages, with the rest of the stream left. -/
def Handles (env : Env) (l : Locals) (c : Conn) (hs : List (List UInt8)) (vs : List View) (rest : List UInt8) : Prop :=
  ∃ c' ev, rounds env l c = some (.returned, c', ev) ∧ headersIn ev = hs ∧ (pagesIn ev).map Page.view = vs ∧
    Reads c' rest

variable (rest) in
/-- One round of the loop -/
theorem Handles.step {l' : Locals} {c' : Conn} {ev : List Event} {g : Frame} {fs : List Frame}
    {hs : List (List UInt8)} {vs : List View} (hmsg : message env l c = (.go l' c', ev))
    (hg : g.header.length = szMsg) (hr : Reads c' (wire (g :: fs)))
    (hnext : ∀ c'', c''.expPageNum = c'.expPageNum → Reads c'' (g.body ++ wire fs) →
      Handles env { l' with buffer := g.header } c'' hs vs rest) :
    Handles env l c (g.header :: hs) ((pagesIn ev).map Page.view ++ vs) rest := by
  rw [wire_cons] at hr
  obtain ⟨a, hhead, hreads⟩ := hr.header hg
  obtain ⟨c₁, ev₁, hrounds, hheaders, hviews, hrest⟩ := hnext { c' with arrivals := a } rfl hreads
  refine ⟨c₁, ev ++ [.moved szMsg szMsg, .header g.header] ++ ev₁, ?_, ?_, ?_, hrest⟩
  · rw [rounds_go hmsg (by rw [hhead]), hhead, hrounds]
    rfl
  · have hnone := message_headersIn env l c
    rw [hmsg] at hnone
    rw [headersIn_append, headersIn_append, hnone, hheaders]
    rfl
  · rw [pagesIn_append, pagesIn_append, List.map_append, List.map_append, hviews, List.append_assoc]
    rfl

/-- A round without a page -/
theorem Handles.skip {l' : Locals} {c' : Conn} {ev : List Event} {g : Frame} {fs : List Frame}
    {hs : List (List UInt8)} {vs : List View} (hmsg : message env l c = (.go l' c', ev)) (hev : pagesIn ev = [])
    (hg : g.header.length = szMsg) (hr : Reads c' (wire (g :: fs)))
    (hnext : ∀ c'', c''.expPageNum = c'.expPageNum → Reads c'' (g.body ++ wire fs) →
      Handles env { l' with buffer := g.header } c'' hs vs rest) :
    Handles env l c (g.header :: hs) vs rest := by
  have hstep := Handles.step rest hmsg hg hr hnext
  rwa [hev, List.map_nil, List.nil_append] at hstep

/-- The sends of an exposure, from number `k` on, and its end -/
theorem handles_sends (hheap : ∀ n, env.heap n = true) (hgrants : ∀ q, env.grants q = true) {e : Exposure}
    {more fs : List Frame} {f : Frame} (ss : List Send) (hfits : ∀ s ∈ ss, (s.payload.length : Int) ≤ maxSegSize)
    (hfs : ss.map (Send.frame e.dhs) ++ [e.dhsUtilCloseExp] = f :: fs) (hb : l.buffer = f.header)
    (hid : l.expID = e.dhs.expID.1.map some) (hobs : l.obSetID = e.obSetID env)
    (hnum : c.expPageNum = k) (hr : Reads c (f.body ++ wire (fs ++ more))) :
    Handles env l c (fs.map Frame.header) (ss.mapIdx fun i s => s.view env e (k + i)) (wire more) := by
  induction ss generalizing f fs l c k with
  | nil =>
    simp only [List.map_nil, List.nil_append, List.cons.injEq] at hfs
    obtain ⟨rfl, rfl⟩ := hfs
    refine ⟨c, [], rounds_stop ?_, rfl, rfl, hr⟩
    rw [message_dcaFmtMsg (by decide) hb, kindOf_closeExp]
    rfl
  | cons s ss ih =>
    rw [List.map_cons, List.cons_append, List.cons.injEq] at hfs
    obtain ⟨rfl, hfs⟩ := hfs
    rw [List.forall_mem_cons] at hfits
    obtain ⟨g, gs, rfl⟩ : ∃ g gs, fs = g :: gs := by
      cases fs with
      | nil => simp at hfs
      | cons g gs => exact ⟨g, gs, rfl⟩
    have hglen : g.header.length = szMsg := by
      have hall : ∀ f ∈ ss.map (Send.frame e.dhs) ++ [e.dhsUtilCloseExp], f.Aligned env := by
        simp only [List.forall_mem_append, List.forall_mem_map, List.forall_mem_singleton]
        exact ⟨fun s _ => aligned_send hheap s, aligned_close e⟩
      exact (hall g (hfs ▸ List.mem_cons_self)).length
    have hg : c.granted env s.payload.length = true := by
      rw [Conn.granted, hgrants, decide_eq_true hfits.1]
      rfl
    obtain ⟨l', c', ev, hmsg, hreads, hid', hobs', hnum', hview⟩ := message_send hheap s hb hr hg
    have hstep := Handles.step (wire more) hmsg hglen hreads fun c'' hnum'' hreads'' =>
      ih (l := { l' with buffer := g.header }) (k := k + 1) hfits.2 hfs rfl (hid'.trans hid) (hobs'.trans hobs)
        (by rw [hnum'', hnum', hnum]; rfl) hreads''
    rw [hview, hid, hobs, hnum] at hstep
    have hshift : (fun i s => Send.view env e (k + (i + 1)) s) = fun i s => Send.view env e (k + 1 + i) s := by
      funext i s
      rw [Nat.add_assoc, Nat.add_comm 1]
    rw [List.map_cons, List.mapIdx_cons, hshift]
    exact hstep

/-- From the first message of an exposure on: the page number is set to zero, and the identifiers are those of the
exposure. -/
theorem handles_open (hheap : ∀ n, env.heap n = true) (hgrants : ∀ q, env.grants q = true) {e : Exposure}
    (hfits : e.Fits) {more fs : List Frame} {f : Frame} (hflen : f.header.length = szMsg)
    (hfs : e.sends.map (Send.frame e.dhs) ++ [e.dhsUtilCloseExp] = f :: fs)
    (hb : l.buffer = dcaFmtMsg e.dhs dcaNoop 0 (e.extra 0))
    (h₀ : Reads c (wire (e.dhsUtilOpenExp.tail ++ f :: (fs ++ more)))) :
    Handles env l c ((e.dhsUtilOpenExp.tail ++ f :: fs).map Frame.header) (e.sends.mapIdx (Send.view env e))
      (wire more) := by
  have hview : Send.view env e = fun i s => Send.view env e (0 + i) s := by
    funext i s
    rw [Nat.zero_add]
  rw [hview]
  simp only [Exposure.dhsUtilOpenExp, List.tail_cons, List.cons_append, List.nil_append, List.map_cons] at h₀ ⊢
  -- DCA_NOOP
  refine Handles.skip (show message env l c = (.go _ _, [_]) by
    rw [message_dcaFmtMsg (by decide) hb, kindOf_noop]; rfl) rfl dcaFmtMsg_length h₀ fun c₁ _ h₁ => ?_
  -- DCA_OPEN | DCA_EXP
  refine Handles.skip (show message env _ c₁ = (.go _ { c₁ with expPageNum := 0 }, []) by
    rw [message_dcaFmtMsg (by decide) rfl, kindOf_openExp]; rfl) rfl dcaFmtMsg_length ⟨h₁.clean, h₁.bytes_eq⟩
    fun c₂ hnum₂ h₂ => ?_
  -- DCA_SET | DCA_FP_CONFIG
  obtain ⟨a₂, hm₂, h₂⟩ := handle_setFpConfig env _ h₂ e.fpCfg.2
  refine Handles.skip (by rw [message_dcaFmtMsg (by decide) rfl, kindOf_setFpConfig]; exact hm₂) rfl
    dcaFmtMsg_length h₂ fun c₃ hnum₃ h₃ => ?_
  -- DCA_EXP_OBSID
  refine Handles.skip (show message env _ c₃ = (.go _ _, [_]) by
    rw [message_dcaFmtMsg (by decide) rfl, kindOf_expObsid]; rfl) rfl dcaFmtMsg_length h₃ fun c₄ hnum₄ h₄ => ?_
  -- DCA_DIRECTORY
  obtain ⟨a₄, hm₄, h₄⟩ := handle_name env _ h₄ e.dir.2
  refine Handles.skip (by rw [message_dcaFmtMsg (by decide) rfl, kindOf_directory]; exact hm₄) rfl
    dcaFmtMsg_length h₄ fun c₅ hnum₅ h₅ => ?_
  -- DCA_FNAME
  obtain ⟨a₅, hm₅, h₅⟩ := handle_name env _ h₅ e.filename.2
  refine Handles.skip (by rw [message_dcaFmtMsg (by decide) rfl, kindOf_fname]; exact hm₅) rfl
    hflen h₅ fun c₆ hnum₆ h₆ => ?_
  have hnum : c₆.expPageNum = (0 : Nat) := by
    rw [hnum₆, hnum₅, hnum₄, hnum₃, hnum₂]
    rfl
  have hobs : e.obSetID env = env.spill (e.filename.1.drop szMsg) (env.spill (e.dir.1.drop szMsg)
      ((obsetOf (dcaFmtMsg e.dhs dcaExpObsid 0 (e.extra 3))).map some)) := by
    rw [obsetOf_dcaFmtMsg, Exposure.obSetID]
  exact handles_sends hheap hgrants e.sends hfits hfs rfl (congrArg _ expnumOf_dcaFmtMsg)
    hobs.symm hnum h₆

/-- A call handles an exposure. -/
theorem colPanHandler_exposure (hheap : ∀ n, env.heap n = true) (hgrants : ∀ q, env.grants q = true) {e : Exposure}
    (hfits : e.Fits) {more : List Frame} (hr : Reads c (wire (e.frames ++ more))) :
    ∃ c' ev, colPanHandler env c = (.returned, c', ev) ∧ headersIn ev = e.frames.map Frame.header ∧
      (pagesIn ev).map Page.view = e.sends.mapIdx (Send.view env e) ∧ Reads c' (wire more) := by
  obtain ⟨f, fs, hfs⟩ : ∃ f fs, e.sends.map (Send.frame e.dhs) ++ [e.dhsUtilCloseExp] = f :: fs := by
    cases h : e.sends.map (Send.frame e.dhs) ++ [e.dhsUtilCloseExp] with
    | nil => simp at h
    | cons f fs => exact ⟨f, fs, rfl⟩
  have hframes : e.frames = ⟨dcaFmtMsg e.dhs dcaNoop 0 (e.extra 0), []⟩ :: (e.dhsUtilOpenExp.tail ++ f :: fs) := by
    rw [Exposure.frames, List.append_assoc, hfs]
    rfl
  have hflen : f.header.length = szMsg := by
    refine (aligned_frames hheap e f ?_).length
    rw [hframes]
    exact List.mem_cons_of_mem _ (List.mem_append_right _ List.mem_cons_self)
  rw [hframes, List.cons_append, wire_cons, List.append_assoc, List.cons_append] at hr
  obtain ⟨a, hhead, h₀⟩ := hr.header dcaFmtMsg_length
  obtain ⟨c₁, ev₁, hrounds₁, hheaders, hviews, hrest⟩ :=
    handles_open (l := .start (dcaFmtMsg e.dhs dcaNoop 0 (e.extra 0))) hheap hgrants hfits hflen hfs rfl h₀
  obtain ⟨stop, c', ev, hrounds, hcall⟩ := colPanHandler_ok env (c := c) (by rw [hhead])
  rw [hhead] at hrounds hcall
  rw [hrounds₁, Option.some.injEq, Prod.mk.injEq, Prod.mk.injEq] at hrounds
  obtain ⟨rfl, rfl, rfl⟩ := hrounds
  refine ⟨_, _, hcall, ?_, ?_, hrest⟩
  · rw [headersIn_append, hheaders, hframes]
    rfl
  · rw [pagesIn_append, ← hviews]
    rfl

/-- The frames of some exposures -/
def allFrames (es : List Exposure) : List Frame := es.flatMap Exposure.frames

/-- The pages of some exposures -/
def allViews (env : Env) (es : List Exposure) : List View := es.flatMap fun e => e.sends.mapIdx (Send.view env e)

theorem calls_exposures (hheap : ∀ n, env.heap n = true) (hgrants : ∀ q, env.grants q = true) {es : List Exposure}
    (hfits : ∀ e ∈ es, e.Fits) (hr : Reads c (wire (allFrames es))) :
    headersOf (calls env es.length c) = (allFrames es).map Frame.header ∧
      viewsOf (calls env es.length c) = allViews env es := by
  induction es generalizing c with
  | nil => exact ⟨rfl, rfl⟩
  | cons e es ih =>
    rw [List.forall_mem_cons] at hfits
    rw [allFrames, List.flatMap_cons] at hr
    obtain ⟨c', ev, hcall, hheaders, hviews, hrest⟩ := colPanHandler_exposure hheap hgrants hfits.1 hr
    obtain ⟨ihh, ihv⟩ := ih hfits.2 hrest
    have hcalls : calls env (e :: es).length c = (.returned, ev) :: calls env es.length c' := by
      rw [List.length_cons, calls, hcall]
      rfl
    constructor
    · rw [hcalls, headersOf, List.flatMap_cons, hheaders, allFrames, List.flatMap_cons, List.map_append]
      exact congrArg _ ihh
    · rw [hcalls, viewsOf, List.flatMap_cons, hviews, allViews, List.flatMap_cons]
      exact congrArg _ ihv

/-- The stream of a PAN, however the reads split it. The calls take the headers that were sent for headers, and nothing
else. If pages are granted, call number `i` handles exposure `i`, and there is a page for each send, in order, with the
data, the identifier of the exposure and the number of the send in it. -/
theorem pan_framing (env : Env) (hheap : ∀ n, env.heap n = true) (es : List Exposure) (c : Conn)
    (hclean : Clean c.arrivals) (hbytes : bytes c.arrivals = wire (allFrames es)) :
    (∀ n, headersOf (calls env n c) <+: (allFrames es).map Frame.header) ∧
      ((∀ q, env.grants q = true) → (∀ e ∈ es, e.Fits) →
        headersOf (calls env es.length c) = (allFrames es).map Frame.header ∧
          viewsOf (calls env es.length c) = allViews env es) := by
  have hr : Reads c (wire (allFrames es)) := ⟨hclean, hbytes⟩
  refine ⟨calls_aligned ?_ hr, fun hgrants hfits => calls_exposures hheap hgrants hfits hr⟩
  intro f hf
  obtain ⟨e, -, hf⟩ := List.mem_flatMap.mp hf
  exact aligned_frames hheap e f hf

/-- A focal plane with one pixel -/
def pixelConfig : Bytes sizeofFpConfig := ⟨onePixel, by decide⟩

/-- An exposure with a pixel and three bytes of metadata -/
def shortExposure : Exposure where
  dhs := ⟨⟨List.replicate 8 7, by decide⟩, [111, 98, 115]⟩
  fpCfg := pixelConfig
  dir := ⟨List.replicate 256 0, List.length_replicate⟩
  filename := ⟨List.replicate 256 0, List.length_replicate⟩
  extra := fun _ => ⟨List.replicate 8 0, by decide⟩
  sends := [.pixelData [1, 2, 3, 4] pixelConfig ⟨List.replicate 8 0, by decide⟩ (by decide) (by decide) (by decide),
    .metaData [5, 6, 7] ⟨List.replicate sizeofMdConfig 0, List.length_replicate⟩ ⟨List.replicate 8 0, by decide⟩
      (by decide) (by decide)]

theorem shortExposure_framing :
    viewsOf (calls (.of true) 2 (.of (wire (allFrames [shortExposure, shortExposure])))) =
      allViews (.of true) [shortExposure, shortExposure] := by
  have hfits : shortExposure.Fits := by
    intro s hs
    simp only [shortExposure, List.mem_cons, List.not_mem_nil, or_false] at hs
    rcases hs with rfl | rfl <;> decide
  refine ((pan_framing (.of true) (fun _ => rfl) [shortExposure, shortExposure] (.of _) (clean_leave nofun) ?_).2
    (fun _ => rfl) ?_).2
  · rw [Conn.of, bytes_leave, bytes, List.append_nil]
  · simp only [List.forall_mem_cons]
    exact ⟨hfits, hfits, fun _ hnil => absurd hnil List.not_mem_nil⟩

end

end Ndhs.Collector
