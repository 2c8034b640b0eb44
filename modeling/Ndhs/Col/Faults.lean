import Ndhs.Col.PanHandler

/-!
# Streams that break off, pages that are refused, and large sizes

A client can send anything, and the connection can end or fail anywhere. `colPanHandler` goes on after a receive that
has failed, does not test whether it gets a page for pixels, and takes sizes from the client. For each of these, what
a call does is related to the messages of the call (`messages`).

* `Page.Whole`: all bytes of a page were received with it.
* `mutexOk`: the mutex is taken and released in turn, and no null page is used.
* `Event.Fits`: the destination holds the bytes that are moved to it.
* `Obtains`: a message for a page gets the page and the memory it needs.
-/

namespace Ndhs.Collector

open Endian Socket

section
variable {env : Env} {l l' : Locals} {c c' : Conn} {ev : List Event}

/-! ## Receives -/

theorem dcaRecv_of_nonneg {wide : Bool} {size : Int} (h : 0 ≤ size) (a : List Arrival) :
    dcaRecv wide size false a = if size = 0 then ⟨[], .eof, a⟩ else recv size.toNat a := by
  rw [dcaRecv, if_neg Bool.false_ne_true, if_neg (Int.not_lt.mpr h)]

theorem dcaRecv_got_length {wide : Bool} {size : Int} (h : 0 ≤ size) (a : List Arrival) :
    (dcaRecv wide size false a).got.length = min size.toNat (ahead a) := by
  rw [dcaRecv_of_nonneg h]
  split_ifs with h₀
  · simp [h₀]
  · exact recv_got_length _ _

theorem dcaRecv_length_le {wide : Bool} {size : Int} {null : Bool} (h : 0 ≤ size ∨ null = true) (a : List Arrival) :
    (dcaRecv wide size null a).got.length ≤ size.toNat := by
  cases null with
  | false =>
    rw [dcaRecv_got_length (h.resolve_right Bool.false_ne_true)]
    exact Nat.min_le_left _ _
  | true =>
    rw [dcaRecv, if_pos rfl]
    split_ifs <;> exact Nat.zero_le _

theorem dcaRecv_ahead {wide : Bool} {size : Int} (h₀ : 0 ≤ size) {a : List Arrival} (h : size.toNat ≤ ahead a) :
    size.toNat + ahead (dcaRecv wide size false a).rest = ahead a := by
  rw [dcaRecv_of_nonneg h₀]
  split_ifs with hz
  · simp [hz]
  · exact recv_ahead (by omega) h

/-- The bytes before the end or the next error -/
def Conn.ahead (c : Conn) : Nat := Socket.ahead c.arrivals

@[simp] theorem Conn.ahead_request (c : Conn) : c.request.ahead = c.ahead := rfl

@[simp] theorem Conn.ahead_countPage (c : Conn) : c.countPage.ahead = c.ahead := rfl

theorem receive_got_length (c : Conn) (size : Int) (capacity : Nat) (h : 0 ≤ size) :
    (c.receive size false capacity).got.length = min size.toNat c.ahead :=
  dcaRecv_got_length h c.arrivals

/-- A receive gives all bytes if they arrive, and none are wanted if the size is negative. -/
theorem le_receive_iff (c : Conn) (size : Int) (capacity : Nat) :
    size.toNat ≤ (c.receive size false capacity).got.length ↔ size.toNat ≤ c.ahead := by
  by_cases h : 0 ≤ size
  · rw [receive_got_length c size capacity h]
    omega
  · have h₀ : size.toNat = 0 := by omega
    rw [h₀]
    exact iff_of_true (Nat.zero_le _) (Nat.zero_le _)

/-- How many bytes a receive with a negative size gives -/
theorem receive_neg {size : Int} (h : size < 0) (c : Conn) (capacity : Nat) :
    (c.receive size false capacity).got.length = c.offered := by
  have hr : (c.receive size false capacity).got = (dcaRecv c.wide size false c.arrivals).got := rfl
  rw [hr, dcaRecv, if_neg (by omega), if_neg Bool.false_ne_true, if_pos h, Conn.offered]
  split
  · exact once_length _
  · rfl

theorem receive_moved (c : Conn) (size : Int) (null : Bool) (capacity : Nat) :
    (c.receive size null capacity).event = .moved (c.receive size null capacity).got.length capacity := rfl

/-- A receive moves no more than it is asked for. -/
theorem receive_event (c : Conn) (size : Int) (null : Bool) (capacity : Nat) (h : 0 ≤ size ∨ null = true) :
    ∃ n, (c.receive size null capacity).event = .moved n capacity ∧ n ≤ size.toNat :=
  ⟨_, rfl, dcaRecv_length_le h c.arrivals⟩

theorem receive_ahead (size : Int) (capacity : Nat) (h₀ : 0 ≤ size) (h : size.toNat ≤ c.ahead) :
    size.toNat + (c.receive size false capacity).conn.ahead = c.ahead :=
  dcaRecv_ahead h₀ h

/-! ## Messages for pages -/

/-- The size that a message for metadata announces: the bytes are from its header if they do not come. -/
def blksizeOf (l : Locals) (c : Conn) : Int := intOf (c.header.got ++ l.buffer.drop c.header.got.length)

/-- The size of the pixels, from the configuration -/
def imSizeOf (env : Env) (l : Locals) (c : Conn) : Int := (recvPixelHead env l c).imSize

/-- `calloc` gives memory of a size. -/
def callocs (env : Env) (size : Int) : Bool := decide (0 ≤ size) && env.heap size.toNat

/-- A message for a page gets the page, and memory for metadata. -/
def Obtains (env : Env) (l : Locals) (c : Conn) : Prop :=
  match kindOf (typeOf l.buffer) with
  | .metaData => c.granted env (blksizeOf l c) ∧ (blksizeOf l c = 0 ∨ callocs env (blksizeOf l c))
  | .pixel => c.granted env (imSizeOf env l c)
  | _ => True

/-- The number of bytes behind the header of a message for a page -/
def bodyLength (env : Env) (l : Locals) (c : Conn) : Nat :=
  match kindOf (typeOf l.buffer) with
  | .metaData => szMsg + (blksizeOf l c).toNat + sizeofMdConfig
  | .pixel => sizeofFpConfig + (imSizeOf env l c).toNat
  | _ => 0

theorem recvMeta_conn (env : Env) (l : Locals) (c : Conn) :
    (recvMeta env l c).conn =
      ((c.header.conn.receive (blksizeOf l c) (!callocs env (blksizeOf l c)) (blksizeOf l c).toNat).conn.receive
        sizeofMdConfig false sizeofMdConfig).conn := rfl

theorem recvMeta_payload (env : Env) (l : Locals) (c : Conn) :
    (recvMeta env l c).payload =
      overlay (c.header.conn.receive (blksizeOf l c) (!callocs env (blksizeOf l c)) (blksizeOf l c).toNat).got
        (List.replicate (blksizeOf l c).toNat none) := rfl

theorem recvMeta_requests (env : Env) (l : Locals) (c : Conn) : (recvMeta env l c).conn.requests = c.requests := rfl

theorem recvMeta_granted (env : Env) (l : Locals) (c : Conn) (size : Int) :
    (recvMeta env l c).conn.granted env size = c.granted env size := by
  rw [Conn.granted, Conn.granted, recvMeta_requests]

/-- The receives of metadata are within their destinations. -/
theorem recvMeta_events (env : Env) (l : Locals) (c : Conn) :
    ∀ x ∈ (recvMeta env l c).events, ∃ n k, x = .moved n k ∧ n ≤ k := by
  -- calloc gives no block of a negative size
  have hsize : 0 ≤ blksizeOf l c ∨ (!callocs env (blksizeOf l c)) = true := by
    by_cases h : 0 ≤ blksizeOf l c
    · exact .inl h
    · exact .inr (by simp [callocs, h])
  obtain ⟨n₁, h₁, hn₁⟩ := receive_event c szMsg false szMsg (.inl (by decide))
  obtain ⟨n₂, h₂, hn₂⟩ :=
    receive_event c.header.conn (blksizeOf l c) (!callocs env (blksizeOf l c)) (blksizeOf l c).toNat hsize
  obtain ⟨n₃, h₃, hn₃⟩ := receive_event
    (c.header.conn.receive (blksizeOf l c) (!callocs env (blksizeOf l c)) (blksizeOf l c).toNat).conn
    sizeofMdConfig false sizeofMdConfig (.inl (by decide))
  have hev : (recvMeta env l c).events =
      [Event.moved n₁ szMsg, Event.moved 4 4, Event.moved n₂ (blksizeOf l c).toNat, Event.moved n₃ sizeofMdConfig] := by
    rw [← h₁, ← h₂, ← h₃]
    rfl
  rw [hev]
  simp only [List.forall_mem_cons]
  exact ⟨⟨_, _, rfl, hn₁⟩, ⟨_, _, rfl, Nat.le_refl 4⟩, ⟨_, _, rfl, hn₂⟩, ⟨_, _, rfl, hn₃⟩, nofun⟩

theorem handleMeta_eq (env : Env) (l : Locals) (c : Conn) :
    handleMeta env l c =
      if !(recvMeta env l c).conn.granted env (blksizeOf l c) then
        (.stop .returned (recvMeta env l c).conn.request, (recvMeta env l c).events ++ [Event.mutexOn])
      else if blksizeOf l c ≠ 0 ∧ !callocs env (blksizeOf l c) then
        (.stop .fault (recvMeta env l c).conn.request.countPage,
          (recvMeta env l c).events ++ [Event.mutexOn] ++ [Event.moved (sizeT (blksizeOf l c)) (blksizeOf l c).toNat])
      else
        (.go { l with buffer := (recvMeta env l c).buffer, mdCfg := (recvMeta env l c).mdCfg }
            (recvMeta env l c).conn.request.countPage,
          (recvMeta env l c).events ++ [Event.mutexOn] ++ [Event.moved (sizeT (blksizeOf l c)) (blksizeOf l c).toNat] ++
            [Event.unlock (metaPage l (recvMeta env l c)), Event.mutexOff]) := rfl

theorem handleMeta_of (hk : kindOf (typeOf l.buffer) = .metaData) (h : Obtains env l c) :
    message env l c =
      (.go { l with buffer := (recvMeta env l c).buffer, mdCfg := (recvMeta env l c).mdCfg }
          (recvMeta env l c).conn.request.countPage,
        (recvMeta env l c).events ++ [Event.mutexOn] ++ [Event.moved (sizeT (blksizeOf l c)) (blksizeOf l c).toNat] ++
          [Event.unlock (metaPage l (recvMeta env l c)), Event.mutexOff]) := by
  simp only [Obtains, hk] at h
  have hn : ¬ (blksizeOf l c ≠ 0 ∧ (!callocs env (blksizeOf l c)) = true) := by
    rintro ⟨h₀, hnull⟩
    rw [h.2.resolve_left h₀] at hnull
    cases hnull
  rw [message_eq, hk, handle, handleMeta_eq, recvMeta_granted, h.1, if_neg (by decide), if_neg hn]

/-- A message for metadata stops with the mutex taken if it lacks something. -/
theorem handleMeta_stop (hk : kindOf (typeOf l.buffer) = .metaData) (h : ¬ Obtains env l c) :
    ∃ e c' t, message env l c = (.stop e c', (recvMeta env l c).events ++ [Event.mutexOn] ++ t) ∧
      (t = [] ∧ c.granted env (blksizeOf l c) = false ∨
        t = [Event.moved (sizeT (blksizeOf l c)) (blksizeOf l c).toNat] ∧ c.granted env (blksizeOf l c) = true) := by
  simp only [Obtains, hk] at h
  rw [message_eq, hk, handle, handleMeta_eq, recvMeta_granted]
  by_cases hg : c.granted env (blksizeOf l c) = true
  · have hn : blksizeOf l c ≠ 0 ∧ (!callocs env (blksizeOf l c)) = true := by
      have hc := not_or.mp fun hor => h ⟨hg, hor⟩
      exact ⟨hc.1, by simpa using hc.2⟩
    rw [hg, if_neg (by decide), if_pos hn]
    exact ⟨_, _, _, rfl, .inr ⟨rfl, rfl⟩⟩
  · rw [Bool.not_eq_true] at hg
    rw [hg, if_pos (by decide)]
    exact ⟨_, _, [], by rw [List.append_nil], .inl ⟨rfl, rfl⟩⟩

theorem handlePixel_of (hk : kindOf (typeOf l.buffer) = .pixel) (h : Obtains env l c) :
    ∃ r, r = (recvPixelHead env l c).conn.request.countPage.receive (imSizeOf env l c) false (imSizeOf env l c).toNat ∧
      message env l c = (.go { l with fpCfg := (recvPixelHead env l c).fpCfg } r.conn,
        [(recvPixelHead env l c).event, .mutexOn, r.event, .unlock (pixelPage l (recvPixelHead env l c)
          (overlay r.got (List.replicate (imSizeOf env l c).toNat none))), .mutexOff]) := by
  simp only [Obtains, hk] at h
  have hg : (recvPixelHead env l c).conn.granted env (recvPixelHead env l c).imSize = true := h
  rw [message_eq, hk, handle, handlePixel, hg]
  exact ⟨_, rfl, rfl⟩

theorem handlePixel_stop (hk : kindOf (typeOf l.buffer) = .pixel) (h : ¬ Obtains env l c) :
    message env l c =
      (.stop .fault (recvPixelHead env l c).conn.request, [(recvPixelHead env l c).event, .mutexOn, .nullPage]) := by
  simp only [Obtains, hk, Bool.not_eq_true] at h
  have hg : (recvPixelHead env l c).conn.granted env (recvPixelHead env l c).imSize = false := h
  rw [message_eq, hk, handle, handlePixel, hg]
  rfl

/-- A message of another kind only moves bytes and replies. -/
theorem message_other (hm : kindOf (typeOf l.buffer) ≠ .metaData) (hp : kindOf (typeOf l.buffer) ≠ .pixel) :
    ∀ x ∈ (message env l c).2, (∃ n k, x = .moved n k) ∨ ∃ h, x = .reply h := by
  rw [message_eq]
  cases hk : kindOf (typeOf l.buffer)
  case metaData => exact absurd hk hm
  case pixel => exact absurd hk hp
  case noop => simp [handle]
  case setFpConfig => simp [handle, Conn.receive]
  case name => simp [handle, Conn.receive]
  case expObsid => simp [handle]
  all_goals simp [handle]

/-! ## Pages that are complete -/

/-- All bytes of the page, and of the size and the configuration that came with it, were received. -/
def Page.Whole (p : Page) : Prop := none ∉ p.received ∧ none ∉ p.payload

/-- A page that is unlocked is complete. -/
def Event.Whole : Event → Prop
  | .unlock p => p.Whole
  | _ => True

/-- The body of a message arrives before the connection ends or fails, if there is a page for it. -/
def Arrives (env : Env) (l : Locals) (c : Conn) : Prop := Obtains env l c → bodyLength env l c ≤ c.ahead

theorem none_not_mem_overlay {got : List UInt8} {n : Nat} :
    none ∉ overlay got (List.replicate n (none : Cell)) ↔ n ≤ got.length := by
  simp [overlay]
  omega

/-- A null buffer is of no importance if nothing is read to it. -/
theorem receive_null {size : Int} {null : Bool} (h : size = 0 ∨ null = false) (capacity : Nat) :
    c.receive size null capacity = c.receive size false capacity := by
  have hr : dcaRecv c.wide size null c.arrivals = dcaRecv c.wide size false c.arrivals := by
    rcases h with rfl | rfl
    · simp [dcaRecv]
    · rfl
  rw [Conn.receive, Conn.receive, hr]

/-- Three receives are complete if the bytes of all three arrive. -/
theorem receive_three (n₁ n₂ n₃ : Int) (k₁ k₂ k₃ : Nat) {c₁ c₂ : Conn} (hn₁ : 0 ≤ n₁) (hn₂ : 0 ≤ n₂)
    (h₁ : (c.receive n₁ false k₁).conn = c₁) (h₂ : (c₁.receive n₂ false k₂).conn = c₂) :
    (n₁.toNat ≤ (c.receive n₁ false k₁).got.length ∧ n₃.toNat ≤ (c₂.receive n₃ false k₃).got.length) ∧
        n₂.toNat ≤ (c₁.receive n₂ false k₂).got.length ↔
      n₁.toNat + n₂.toNat + n₃.toNat ≤ c.ahead := by
  have ha₁ := receive_ahead (c := c) n₁ k₁ hn₁
  have ha₂ := receive_ahead (c := c₁) n₂ k₂ hn₂
  rw [h₁] at ha₁
  rw [h₂] at ha₂
  simp only [le_receive_iff]
  constructor
  · rintro ⟨⟨hl₁, hl₃⟩, hl₂⟩
    have := ha₁ (by omega)
    have := ha₂ (by omega)
    omega
  · intro h
    have := ha₁ (by omega)
    have := ha₂ (by omega)
    omega

theorem metaPage_whole (h : blksizeOf l c = 0 ∨ callocs env (blksizeOf l c) = true) :
    (metaPage l (recvMeta env l c)).Whole ↔ szMsg + (blksizeOf l c).toNat + sizeofMdConfig ≤ c.ahead := by
  have hnull : blksizeOf l c = 0 ∨ (!callocs env (blksizeOf l c)) = false := h.imp_right fun hc => by rw [hc]; rfl
  have hr := receive_null (c := c.header.conn) hnull (blksizeOf l c).toNat
  have hsize : 0 ≤ blksizeOf l c := by
    rcases h with h | h
    · exact h.ge
    · simp only [callocs, Bool.and_eq_true, decide_eq_true_eq] at h
      exact h.1
  have hthree := receive_three (c := c) szMsg (blksizeOf l c) sizeofMdConfig szMsg (blksizeOf l c).toNat
    sizeofMdConfig (by decide) hsize rfl rfl
  have hpage : (metaPage l (recvMeta env l c)).Whole ↔
      none ∉ overlay c.header.got (List.replicate szMsg (none : Cell)) ++
        overlay ((c.header.conn.receive (blksizeOf l c) (!callocs env (blksizeOf l c)) (blksizeOf l c).toNat).conn.receive
          sizeofMdConfig false sizeofMdConfig).got (List.replicate sizeofMdConfig none) ∧
      none ∉ overlay (c.header.conn.receive (blksizeOf l c) (!callocs env (blksizeOf l c)) (blksizeOf l c).toNat).got
        (List.replicate (blksizeOf l c).toNat (none : Cell)) := Iff.rfl
  rw [hpage, List.mem_append, not_or, none_not_mem_overlay, none_not_mem_overlay, none_not_mem_overlay, hr]
  exact hthree

theorem pixelPage_whole {payload : List UInt8} {n : Nat} :
    (pixelPage l (recvPixelHead env l c) (overlay payload (List.replicate n none))).Whole ↔
      sizeofFpConfig ≤ (c.receive sizeofFpConfig false sizeofFpConfig).got.length ∧ n ≤ payload.length := by
  have hpage : (pixelPage l (recvPixelHead env l c) (overlay payload (List.replicate n none))).Whole ↔
      none ∉ overlay (c.receive sizeofFpConfig false sizeofFpConfig).got (List.replicate sizeofFpConfig (none : Cell)) ∧
        none ∉ overlay payload (List.replicate n (none : Cell)) := Iff.rfl
  rw [hpage, none_not_mem_overlay, none_not_mem_overlay]

/-- A message unlocks no page that is not complete, if and only if its body arrives. -/
theorem message_whole : (∀ x ∈ (message env l c).2, x.Whole) ↔ Arrives env l c := by
  have hev : ∀ x ∈ (recvMeta env l c).events, x.Whole := fun x hx => by
    obtain ⟨n, k, rfl, -⟩ := recvMeta_events env l c x hx
    trivial
  obtain ⟨n, hhead⟩ : ∃ n, (recvPixelHead env l c).event = .moved n sizeofFpConfig := ⟨_, rfl⟩
  by_cases hm : kindOf (typeOf l.buffer) = .metaData
  · by_cases ho : Obtains env l c
    · have ho' := ho
      simp only [Obtains, hm] at ho'
      rw [handleMeta_of hm ho]
      simp only [List.forall_mem_append, List.forall_mem_cons, Arrives, ho, bodyLength, hm, true_imp_iff,
        ← metaPage_whole ho'.2]
      exact ⟨fun h => h.2.1, fun h => ⟨⟨⟨hev, trivial, nofun⟩, trivial, nofun⟩, h, trivial, nofun⟩⟩
    · obtain ⟨e, c', t, hmsg, ht⟩ := handleMeta_stop hm ho
      refine iff_of_true ?_ fun h => absurd h ho
      rw [hmsg]
      simp only [List.forall_mem_append, List.forall_mem_cons]
      refine ⟨⟨hev, trivial, nofun⟩, ?_⟩
      rcases ht with ⟨rfl, -⟩ | ⟨rfl, -⟩
      · nofun
      · simp [Event.Whole]
  by_cases hp : kindOf (typeOf l.buffer) = .pixel
  · by_cases ho : Obtains env l c
    · obtain ⟨r, hr, hmsg⟩ := handlePixel_of hp ho
      have hlen : (imSizeOf env l c).toNat ≤ r.got.length ↔
          (imSizeOf env l c).toNat ≤ (recvPixelHead env l c).conn.ahead := hr ▸ le_receive_iff _ _ _
      have hgot : sizeofFpConfig ≤ (c.receive sizeofFpConfig false sizeofFpConfig).got.length ↔
          sizeofFpConfig ≤ c.ahead := le_receive_iff c sizeofFpConfig sizeofFpConfig
      have hahead : sizeofFpConfig ≤ c.ahead → sizeofFpConfig + (recvPixelHead env l c).conn.ahead = c.ahead :=
        receive_ahead (c := c) sizeofFpConfig sizeofFpConfig (by decide)
      rw [hmsg, hhead]
      simp only [List.forall_mem_cons, Arrives, ho, bodyLength, hp, true_imp_iff]
      have hwhole : Event.Whole (.unlock (pixelPage l (recvPixelHead env l c)
          (overlay r.got (List.replicate (imSizeOf env l c).toNat none)))) ↔
          sizeofFpConfig + (imSizeOf env l c).toNat ≤ c.ahead := by
        refine pixelPage_whole.trans ?_
        rw [hlen, hgot]
        constructor
        · intro ⟨h₁, h₂⟩
          have := hahead (by omega)
          omega
        · intro h
          have := hahead (by omega)
          omega
      have hrev : r.event.Whole := hr ▸ trivial
      exact ⟨fun h => hwhole.mp h.2.2.2.1, fun h => ⟨trivial, trivial, hrev, hwhole.mpr h, trivial, nofun⟩⟩
    · refine iff_of_true ?_ fun h => absurd h ho
      rw [handlePixel_stop hp ho, hhead]
      simp [Event.Whole]
  · refine iff_of_true (fun x hx => ?_) fun _ => ?_
    · obtain ⟨n, k, rfl⟩ | ⟨h, rfl⟩ := message_other hm hp x hx <;> trivial
    · cases hk : kindOf (typeOf l.buffer) <;> simp_all [bodyLength]

/-- All pages that a call unlocks are complete, if and only if no message for which there is a page breaks off. -/
theorem unlocked_whole_iff (env : Env) (c : Conn) :
    (∀ p, .unlock p ∈ (colPanHandler env c).2.2 → p.Whole) ↔ ∀ s ∈ messages env c, Arrives env s.1 s.2 := by
  have hforall : (∀ p, .unlock p ∈ (colPanHandler env c).2.2 → p.Whole) ↔
      ∀ x ∈ (colPanHandler env c).2.2, Event.Whole x := by
    refine ⟨fun h x hx => ?_, fun h p hp => h _ hp⟩
    cases x with
    | unlock p => exact h p hx
    | _ => trivial
  rw [hforall, colPanHandler_forall (fun _ => trivial) fun c => ?_]
  · exact forall₂_congr fun s _ => message_whole
  · trivial

/-- The connection on which some bytes arrive before it is closed -/
def Conn.of (bs : List UInt8) : Conn := ⟨leave bs [], 0, 0, true⟩

/-- A header with nothing but a type -/
def bare (type : Nat) : List UInt8 := toBytes 4 type ++ List.replicate 116 0

/-- A system that has room for all pages, or for none. The bytes behind a name are put over `obSetID`. -/
def Env.of (room : Bool) : Env := ⟨fun _ => true, fun _ => room, fun _ => 0, fun bs => overlay (bs.take 80), false⟩

/-- A configuration for one pixel -/
def onePixel : List UInt8 := toBytes 4 1 ++ toBytes 4 1 ++ List.replicate 36 0

/-- The page for a pixel of which two bytes have come -/
def cutPage : Page where
  type := .tyData
  size := 4
  received := onePixel.map some
  mdCfg := none
  fpCfg := onePixel.map some
  expID := List.replicate 8 none
  obSetID := List.replicate 80 none
  expPageNum := 0
  payload := [some 7, some 7, none, none]

theorem cut_not_whole :
    ¬ ∀ p, .unlock p ∈ (colPanHandler (.of true) (.of (bare dcaPixel ++ onePixel ++ [7, 7]))).2.2 → p.Whole := by
  intro h
  have hmem : .unlock cutPage ∈ (colPanHandler (.of true) (.of (bare dcaPixel ++ onePixel ++ [7, 7]))).2.2 := by
    decide +kernel
  exact (h cutPage hmem).2 (by decide)

/-! ## The mutex -/

/-- The mutex is taken if it is free, released if it is held, and free at the end; no null page is used. -/
def mutexOk : Bool → List Event → Bool
  | held, [] => !held
  | false, .mutexOn :: t => mutexOk true t
  | true, .mutexOn :: _ => false
  | true, .mutexOff :: t => mutexOk false t
  | false, .mutexOff :: _ => false
  | _, .nullPage :: _ => false
  | held, _ :: t => mutexOk held t

theorem mutexOk_moved (held : Bool) (n k : Nat) (t : List Event) :
    mutexOk held (.moved n k :: t) = mutexOk held t := by cases held <;> rfl

theorem mutexOk_append {a t : List Event} (held : Bool)
    (h : ∀ x ∈ a, (∃ n k, x = .moved n k) ∨ (∃ h, x = .reply h) ∨ ∃ h, x = .header h) :
    mutexOk held (a ++ t) = mutexOk held t := by
  induction a with
  | nil => rfl
  | cons x a ih =>
    rw [List.forall_mem_cons] at h
    rw [List.cons_append, ← ih h.2]
    obtain ⟨n, k, rfl⟩ | ⟨r, rfl⟩ | ⟨r, rfl⟩ := h.1 <;> cases held <;> rfl

/-- A message that gets its page leaves the mutex as it was. -/
theorem message_mutexOk (h : Obtains env l c) (t : List Event) :
    mutexOk false ((message env l c).2 ++ t) = mutexOk false t := by
  by_cases hm : kindOf (typeOf l.buffer) = .metaData
  · have hev : ∀ x ∈ (recvMeta env l c).events, (∃ n k, x = .moved n k) ∨ (∃ h, x = .reply h) ∨ ∃ h, x = .header h :=
      fun x hx => by
        obtain ⟨n, k, rfl, -⟩ := recvMeta_events env l c x hx
        exact .inl ⟨n, k, rfl⟩
    rw [handleMeta_of hm h]
    simp only [List.append_assoc]
    rw [mutexOk_append false hev]
    rfl
  by_cases hp : kindOf (typeOf l.buffer) = .pixel
  · obtain ⟨r, hr, hmsg⟩ := handlePixel_of hp h
    obtain ⟨n, hhead⟩ : ∃ n, (recvPixelHead env l c).event = .moved n sizeofFpConfig := ⟨_, rfl⟩
    rw [hmsg, hhead, hr, receive_moved]
    rfl
  · exact mutexOk_append false fun x hx => (message_other hm hp x hx).imp_right .inl

/-- A message that does not get its page stops with the mutex taken, or uses a null page. -/
theorem message_not_mutexOk (h : ¬ Obtains env l c) :
    ∃ e c' ev, message env l c = (.stop e c', ev) ∧ mutexOk false ev = false := by
  by_cases hm : kindOf (typeOf l.buffer) = .metaData
  · obtain ⟨e, c', t, hmsg, ht⟩ := handleMeta_stop hm h
    refine ⟨e, c', _, hmsg, ?_⟩
    rw [List.append_assoc, mutexOk_append false fun x hx => ?_]
    · rcases ht with ⟨rfl, -⟩ | ⟨rfl, -⟩ <;> rfl
    · obtain ⟨n, k, rfl, -⟩ := recvMeta_events env l c x hx
      exact .inl ⟨n, k, rfl⟩
  by_cases hp : kindOf (typeOf l.buffer) = .pixel
  · refine ⟨_, _, _, handlePixel_stop hp h, ?_⟩
    obtain ⟨n, hhead⟩ : ∃ n, (recvPixelHead env l c).event = .moved n sizeofFpConfig := ⟨_, rfl⟩
    rw [hhead]
    rfl
  · refine absurd ?_ h
    cases hk : kindOf (typeOf l.buffer) <;> simp_all [Obtains]

theorem loop_mutexOk {n : Nat} {stop : End} (h : loop env n l c = some (stop, c', ev)) :
    mutexOk false ev = true ↔ ∀ s ∈ states env n l c, Obtains env s.1 s.2 := by
  induction n generalizing l c ev with
  | zero => cases h
  | succ n ih =>
    rw [loop] at h
    rw [states, List.forall_mem_cons]
    by_cases ho : Obtains env l c
    · have hmutex := message_mutexOk ho
      rcases hmsg : message env l c with ⟨next, ev'⟩
      cases next with
      | stop e c'' =>
        simp only [hmsg, Option.some.injEq, Prod.mk.injEq] at h
        obtain ⟨-, -, rfl⟩ := h
        have hnil := hmutex []
        rw [hmsg, List.append_nil] at hnil
        simp [hnil, ho, mutexOk]
      | go l' c'' =>
        obtain ⟨k, hk'⟩ : ∃ k, c''.header.event = .moved k szMsg := ⟨_, rfl⟩
        simp only [hmsg] at h
        by_cases hs : c''.header.status = .ok
        · simp only [hs, if_true, Option.map_eq_some_iff, Prod.exists, Prod.mk.injEq] at h
          obtain ⟨_, _, rest, hrest, rfl, rfl, rfl⟩ := h
          have hrun : mutexOk false (ev' ++ [c''.header.event, .header c''.header.got] ++ rest) = mutexOk false rest := by
            have hall := hmutex ([c''.header.event, .header c''.header.got] ++ rest)
            rw [hmsg] at hall
            rw [List.append_assoc, hall, hk']
            rfl
          simp only [hs, if_true, ← ih hrest, ho, true_and, hrun]
        · simp only [hs, if_false, Option.some.injEq, Prod.mk.injEq] at h
          obtain ⟨-, -, rfl⟩ := h
          have hrun := hmutex [c''.header.event]
          rw [hmsg, hk', mutexOk_moved] at hrun
          simp [hs, ho, hk', hrun, mutexOk]
    · obtain ⟨e, c'', ev', hmsg, hfalse⟩ := message_not_mutexOk ho
      simp only [hmsg, Option.some.injEq, Prod.mk.injEq] at h
      obtain ⟨-, -, rfl⟩ := h
      simp [hfalse, ho]

/-- The mutex is taken and released in turn, free at the end, and no null page is used, if and only if each message for
a page gets it. -/
theorem mutex_balanced_iff (env : Env) (c : Conn) :
    mutexOk false (colPanHandler env c).2.2 = true ↔ ∀ s ∈ messages env c, Obtains env s.1 s.2 := by
  obtain ⟨k, hk'⟩ : ∃ k, c.header.event = .moved k szMsg := ⟨_, rfl⟩
  rw [messages]
  by_cases hs : c.header.status = .ok
  · obtain ⟨stop, c', ev, hloop, hrun⟩ := colPanHandler_ok env hs
    rw [if_pos hs, hrun, hk']
    exact (loop_mutexOk hloop : mutexOk false ev = true ↔ _)
  · rw [if_neg hs, colPanHandler_not_ok hs, hk']
    simp [mutexOk]

/-- A pixel for which there is no room -/
theorem full_not_mutexOk :
    ¬ mutexOk false (colPanHandler (.of false) (.of (bare dcaPixel ++ onePixel ++ [7, 7, 7, 7]))).2.2 = true := by
  decide +kernel

/-! ## Destinations -/

/-- The destination holds what is moved to it. -/
def Event.Fits : Event → Prop
  | .moved n capacity => n ≤ capacity
  | _ => True

/-- A name is not longer than its buffer, and the size of metadata for which there is a page is not negative; nor is
that of pixels for which there is a page, if a read takes it and bytes have arrived. -/
def Bounded (env : Env) (l : Locals) (c : Conn) : Prop :=
  match kindOf (typeOf l.buffer) with
  | .name => min 256 c.ahead ≤ szMsg
  | .metaData => c.granted env (blksizeOf l c) → 0 ≤ blksizeOf l c
  | .pixel => c.granted env (imSizeOf env l c) → 0 ≤ imSizeOf env l c ∨ (recvPixelHead env l c).conn.offered = 0
  | _ => True

theorem sizeT_le {n : Int} (hn : -2 ^ 31 ≤ n) (hn' : n < 2 ^ 31) : sizeT n ≤ n.toNat ↔ 0 ≤ n := by
  unfold sizeT
  omega

/-- An `int` is in its range. -/
theorem blksizeOf_range (l : Locals) (c : Conn) : -2 ^ 31 ≤ blksizeOf l c ∧ blksizeOf l c < 2 ^ 31 :=
  ⟨BitVec.le_toInt _, BitVec.toInt_lt⟩

/-- All that a message moves fits, if and only if its name or size is in bounds. -/
theorem message_fits : (∀ x ∈ (message env l c).2, x.Fits) ↔ Bounded env l c := by
  obtain ⟨hlo, hhi⟩ := blksizeOf_range l c
  have hcopy : Event.Fits (.moved (sizeT (blksizeOf l c)) (blksizeOf l c).toNat) ↔ 0 ≤ blksizeOf l c := sizeT_le hlo hhi
  have hev : ∀ x ∈ (recvMeta env l c).events, x.Fits := fun x hx => by
    obtain ⟨n, k, rfl, hle⟩ := recvMeta_events env l c x hx
    exact hle
  obtain ⟨n, hn, hle⟩ := receive_event c sizeofFpConfig false sizeofFpConfig (.inl (by decide))
  have hcfg : Event.Fits (.moved n sizeofFpConfig) := hle
  have hhead : (recvPixelHead env l c).event = .moved n sizeofFpConfig := hn
  cases hk : kindOf (typeOf l.buffer)
  case metaData =>
    simp only [Bounded, hk]
    by_cases ho : Obtains env l c
    · have hg : c.granted env (blksizeOf l c) = true := by
        simp only [Obtains, hk] at ho
        exact ho.1
      rw [handleMeta_of hk ho]
      simp only [List.forall_mem_append, List.forall_mem_cons, hcopy, hg, true_imp_iff]
      exact ⟨fun h => h.1.2.1, fun h => ⟨⟨⟨hev, trivial, nofun⟩, h, nofun⟩, trivial, trivial, nofun⟩⟩
    · obtain ⟨e, c', t, hmsg, ht⟩ := handleMeta_stop hk ho
      rw [hmsg]
      simp only [List.forall_mem_append, List.forall_mem_cons]
      rcases ht with ⟨rfl, hg⟩ | ⟨rfl, hg⟩
      · exact iff_of_true ⟨⟨hev, trivial, nofun⟩, nofun⟩ fun h => absurd h (by rw [hg]; decide)
      · simp only [List.forall_mem_cons, hcopy, hg, true_imp_iff]
        exact ⟨fun h => h.2.1, fun h => ⟨⟨hev, trivial, nofun⟩, h, nofun⟩⟩
  case pixel =>
    simp only [Bounded, hk]
    by_cases ho : Obtains env l c
    · obtain ⟨r, hr, hmsg⟩ := handlePixel_of hk ho
      have hg : c.granted env (imSizeOf env l c) = true := by simpa only [Obtains, hk] using ho
      have hfits : r.event.Fits ↔ 0 ≤ imSizeOf env l c ∨ (recvPixelHead env l c).conn.offered = 0 := by
        rw [hr]
        by_cases h₀ : 0 ≤ imSizeOf env l c
        · obtain ⟨k, hk', hle'⟩ := receive_event (recvPixelHead env l c).conn.request.countPage (imSizeOf env l c)
            false (imSizeOf env l c).toNat (.inl h₀)
          rw [hk']
          exact iff_of_true hle' (.inl h₀)
        · -- the data area of the page holds nothing
          have hneg := receive_neg (Int.not_le.mp h₀) (recvPixelHead env l c).conn.request.countPage
            (imSizeOf env l c).toNat
          have hzero : (imSizeOf env l c).toNat = 0 := by omega
          rw [receive_moved, Event.Fits, hneg, hzero, Nat.le_zero, or_iff_right h₀]
          rfl
      rw [hmsg, hhead]
      simp only [List.forall_mem_cons, hg, true_imp_iff, ← hfits]
      exact ⟨fun h => h.2.2.1, fun h => ⟨hcfg, trivial, h, trivial, trivial, nofun⟩⟩
    · have hg : ¬ c.granted env (imSizeOf env l c) = true := by simpa only [Obtains, hk] using ho
      rw [handlePixel_stop hk ho, hhead]
      simp only [List.forall_mem_cons]
      exact iff_of_true ⟨hcfg, trivial, trivial, nofun⟩ fun h => absurd h hg
  case name =>
    have hgot := receive_got_length c 256 szMsg (by decide)
    rw [message_eq, hk]
    simp only [handle, List.forall_mem_cons, Bounded, hk]
    exact ⟨fun h => hgot ▸ h.1, fun h => ⟨hgot.trans_le h, nofun⟩⟩
  case setFpConfig =>
    refine iff_of_true ?_ (by simp [Bounded, hk])
    rw [message_eq, hk]
    simp only [handle, List.forall_mem_cons, hn]
    exact ⟨hcfg, nofun⟩
  all_goals
    refine iff_of_true ?_ (by simp [Bounded, hk])
    rw [message_eq, hk]
    simp [handle, Event.Fits]

/-- No receive or copy of a call goes beyond its destination, if and only if no message of it has a name that is longer
than the buffer for it, or a negative size for which there is a page and bytes are moved. -/
theorem moves_fit_iff (env : Env) (c : Conn) :
    (∀ n capacity, .moved n capacity ∈ (colPanHandler env c).2.2 → n ≤ capacity) ↔
      ∀ s ∈ messages env c, Bounded env s.1 s.2 := by
  have hforall : (∀ n capacity, .moved n capacity ∈ (colPanHandler env c).2.2 → n ≤ capacity) ↔
      ∀ x ∈ (colPanHandler env c).2.2, Event.Fits x := by
    refine ⟨fun h x hx => ?_, fun h n k hm => h _ hm⟩
    cases x with
    | moved n k => exact h n k hx
    | _ => trivial
  rw [hforall, colPanHandler_forall (fun _ => trivial) fun c => ?_]
  · exact forall₂_congr fun s _ => message_fits
  · obtain ⟨n, hn, hle⟩ := receive_event c szMsg false szMsg (.inl (by decide))
    exact hn ▸ hle

/-- The name of a directory is sent with 256 bytes. -/
theorem directory_not_fits :
    ¬ ∀ n capacity,
      .moved n capacity ∈ (colPanHandler (.of true) (.of (bare dcaDirectory ++ List.replicate 256 65))).2.2 →
        n ≤ capacity := by
  intro h
  have hmem : .moved 256 szMsg ∈
      (colPanHandler (.of true) (.of (bare dcaDirectory ++ List.replicate 256 65))).2.2 := by
    decide +kernel
  exact absurd (h 256 szMsg hmem) (by decide)

end

end Ndhs.Collector
