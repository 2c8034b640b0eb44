import Ndhs.Sup.Channels
import Ndhs.Sup.Clean
import Mathlib.Data.List.Nodup
import Mathlib.Data.List.TakeWhile

/-!
# PANs and their Collectors

The configuration file pairs the hosts of PANs with Collectors. `procAddClient` looks for the Collector of a
PAN that connects and records the PAN in its entry of the connection table, and `superHandleClient` looks
for it again, by another rule, when the PAN asks for it. The flag `inUse` that is to keep a Collector for
one PAN is never set.

* `Pairing.step`: one call or request, with the Collectors given so far and the last answer beside the
  tables. No client is deleted, so a slot of the process table stands for a client.
* `Pairing.Good`: the last answer names a connected Collector of the asker's own pairing, in whose entry the
  asker is recorded, and no two connected PANs have been given one Collector.
* `Pairing.Ok`: the side conditions under which that holds.
* `Inv`: for every connected PAN, each Collector that fits its pairing by the rule of the request is
  connected and has the PAN recorded. `pairing_good` follows from it, for every run.
-/

namespace Ndhs.Super

open Machine Text Function

/-! ## Runs -/

/-- A client that `procAddClient` takes for a PAN. -/
def isPanName (name : Str) : Bool := !strPre name collector && strPre name pan

/-- A request as it comes in, from the client in slot `asker` if it is one of the table. -/
structure Request where
  asker : Option Nat
  host : Str
  fd : Int
  now : Nat

/-- The socket and the host of a request are those of the asker. -/
def Tables.Sent (t : Tables) (q : Request) : Prop :=
  ∀ a ∈ q.asker, a < t.numClients ∧ (t.slots a).gone = false ∧ (t.slots a).chan.datain = q.fd ∧
    (t.slots a).host = q.host

instance (t : Tables) (q : Request) : Decidable (t.Sent q) := inferInstanceAs (Decidable (∀ a ∈ q.asker, _))

/-- A request that has been answered, and the tables at that time. -/
structure Answer where
  q : Request
  reply : Reply
  t : Tables

/-- The tables, the slots of PANs and the Collectors that they were given, and the last answer. -/
structure Pairing where
  t : Tables
  given : List (Nat × Nat) := []
  last : Option Answer := none

inductive PairEvent where
  | call (c : Call)
  | request (q : Request)

instance : ∀ c : Call, Decidable c.Keeps
  | .del _ | .clean => .isFalse id
  | .add .. | .disconnect .. | .port .. | .connected .. | .status .. => .isTrue trivial

/-- The PAN and the Collector of an answer that names one. -/
def Answer.pair (ans : Answer) : Option (Nat × Nat) :=
  match ans.reply, ans.q.asker with
  | .collector pc _, some a => some (a, pc.collector.slot)
  | _, _ => none

/-- One call or request. -/
def Pairing.step (s : Pairing) : PairEvent → Option Pairing
  | .call c => if c.Keeps then (s.t.step c).map fun t => { s with t := t, last := none } else none
  | .request q =>
    if s.t.Sent q then
      let r := superHandleClient s.t q.fd q.now
      let ans : Answer := ⟨q, r.1, s.t⟩
      some { t := r.2, given := ans.pair.toList ++ s.given, last := some ans }
    else none

def Pairing.start (cfg : Config) : Pairing := { t := .start cfg }

/-! ## What the answers are to be -/

/-- The PAN is recorded in the entry. -/
def PanConn.Records (pc : PanConn) (a : Nat) : Prop := pc.pan.map Ref.slot = some a

instance (pc : PanConn) (a : Nat) : Decidable (pc.Records a) := inferInstanceAs (Decidable (_ = _))

/-- The text is the address of the Collector, by the table of hosts. -/
def Names (cfg : Config) (cp : Client) (dev : Str) : Prop :=
  dev = supHostLookup cfg cp.host ++ ':' :: printInt cp.port

instance (cfg : Config) (cp : Client) (dev : Str) : Decidable (Names cfg cp dev) :=
  inferInstanceAs (Decidable (_ = _))

/-- The reply names a connected Collector that runs where an entry of the asker's host says, and in whose
entry the asker is recorded; or it names none. -/
def Reply.Right (t : Tables) (q : Request) : Reply → Prop
  | .closed => True
  | .fallback => False
  | .collector pc dev =>
    let col := t.slots pc.collector.slot
    (∃ pp ∈ t.cfg.pairs, streq q.host pp.phost = true ∧ pp.fits col.host col.port = true) ∧
      col.gone = false ∧ Names t.cfg col dev ∧ ∃ a ∈ q.asker, pc.Records a

instance (t : Tables) (q : Request) : ∀ r : Reply, Decidable (r.Right t q)
  | .closed => .isTrue trivial
  | .fallback => .isFalse id
  | .collector _ dev =>
    inferInstanceAs (Decidable ((∃ pp ∈ t.cfg.pairs, _) ∧ _ ∧ Names t.cfg _ dev ∧ ∃ a ∈ q.asker, _))

/-- The last answer is right, and no two connected clients have been given one Collector. -/
def Pairing.Good (s : Pairing) : Prop :=
  (∀ ans ∈ s.last, ans.reply.Right ans.t ans.q) ∧
    ∀ g ∈ s.given, ∀ h ∈ s.given, g.2 = h.2 → (s.t.slots g.1).gone = false →
      (s.t.slots h.1).gone = false → g.1 = h.1

instance (s : Pairing) : Decidable s.Good :=
  inferInstanceAs (Decidable ((∀ ans ∈ s.last, _) ∧ ∀ g ∈ s.given, ∀ h ∈ s.given, _ → _ → _ → _))

/-! ## Side conditions -/

/-- The pairing that a search finds for the client in a slot. -/
def Tables.own (t : Tables) (a : Nat) : PanPair := pairSearch (t.slots a).host t.cfg.stray t.cfg.pairs

/-- The pairing table has an entry for the host. -/
def HasPair (cfg : Config) (host : Str) : Prop := ∃ pp ∈ cfg.pairs, streq host pp.phost = true

instance (cfg : Config) (host : Str) : Decidable (HasPair cfg host) :=
  inferInstanceAs (Decidable (∃ pp ∈ cfg.pairs, _))

/-- The slot holds a PAN that is connected. -/
def Tables.Live (t : Tables) (a : Nat) : Prop :=
  isPanName (t.slots a).name = true ∧ (t.slots a).gone = false

instance (t : Tables) (a : Nat) : Decidable (t.Live a) := inferInstanceAs (Decidable (_ ∧ _))

/-- A Collector that connects does not fit the pairing of a PAN that is already connected. -/
def Tables.CollectorOk (t : Tables) (host : Str) (port : Int) : Prop :=
  ∀ a < t.numClients, t.Live a → (t.own a).fits host port = false

instance (t : Tables) (host : Str) (port : Int) : Decidable (t.CollectorOk host port) :=
  inferInstanceAs (Decidable (∀ a < t.numClients, t.Live a → _))

/-- A PAN that connects has a pairing. At most one Collector fits it by the rule of the request; that one is
connected, fits by the rule of `procAddClient` too, and is not recorded for a PAN that is connected. -/
def Tables.PanOk (t : Tables) (host : Str) : Prop :=
  let pp := pairSearch (supNeuter host).1 t.cfg.stray t.cfg.pairs
  '.' ∉ host ∧ HasPair t.cfg (supNeuter host).1 ∧ (t.conns.filter (replyFits t pp)).length ≤ 1 ∧
    ∀ pc ∈ t.conns, replyFits t pp pc = true →
      addFits t pp pc = true ∧ (t.slots pc.collector.slot).gone = false ∧
        ∀ r ∈ pc.pan, (t.slots r.slot).gone = true

instance (t : Tables) (host : Str) : Decidable (t.PanOk host) :=
  inferInstanceAs (Decidable (_ ∧ HasPair _ _ ∧ _ ∧ ∀ pc ∈ t.conns, _ → _ ∧ _ ∧ ∀ r ∈ pc.pan, _))

/-- A Collector that is disconnected is on no host that a connected PAN is paired with without a socket. -/
def Tables.DisconnectOk (t : Tables) (k : Nat) : Prop :=
  ∀ a < t.numClients, t.Live a → a ≠ k → ∀ pc ∈ t.conns, pc.collector.slot = k →
    (t.own a).fits (t.slots k).host (-1) = false

instance (t : Tables) (k : Nat) : Decidable (t.DisconnectOk k) :=
  inferInstanceAs (Decidable (∀ a < t.numClients, t.Live a → _ → ∀ pc ∈ t.conns, _ → _))

/-- A Collector with its new port fits the pairing of a connected PAN only if the PAN is recorded for it. -/
def Tables.PortOk (t : Tables) (k : Nat) (port : Int) : Prop :=
  ∀ a < t.numClients, t.Live a → ∀ pc ∈ t.conns, pc.collector.slot = k →
    (t.own a).fits (t.slots k).host port = true → (t.slots k).gone = false ∧ pc.Records a

instance (t : Tables) (k : Nat) (port : Int) : Decidable (t.PortOk k port) :=
  inferInstanceAs (Decidable (∀ a < t.numClients, t.Live a → ∀ pc ∈ t.conns, _ → _ → _ ∧ _))

/-- The asker is a PAN of the table, and the first entry with its socket number. If no Collector fits its pairing, the
client that the hang-up finds may be disconnected. -/
def Tables.RequestOk (t : Tables) (q : Request) : Prop :=
  ∃ a ∈ q.asker, isPanName (t.slots a).name = true ∧ (∀ j < a, (t.slots j).chan.datain ≠ q.fd) ∧
    ((∀ pc ∈ t.conns, replyFits t (t.own a) pc = false) →
      ∀ k ∈ procFindClient t (t.slots a).chan.port (-1), t.DisconnectOk k)

instance (t : Tables) (q : Request) : Decidable (t.RequestOk q) :=
  inferInstanceAs (Decidable (∃ a ∈ q.asker, _ ∧ (∀ j < a, _) ∧
    ((∀ pc ∈ t.conns, _) → ∀ k ∈ procFindClient _ _ _, t.DisconnectOk k)))

/-- The side condition of an event. -/
def Pairing.Ok (s : Pairing) : PairEvent → Prop
  | .call (.add _ name host port _ _ _ _) =>
    (strPre name collector = true → s.t.CollectorOk (supNeuter host).1 port) ∧
      (isPanName name = true → s.t.PanOk host)
  | .call (.disconnect clid _) => ∀ k ∈ clid, s.t.DisconnectOk k
  | .call (.port tid port _) => ∀ k ∈ procFindClient s.t (-1) tid, s.t.PortOk k port
  | .call _ => True
  | .request q => s.t.RequestOk q

instance (s : Pairing) : ∀ e, Decidable (s.Ok e)
  | .call (.add _ name host port _ _ _ _) =>
    inferInstanceAs (Decidable ((strPre name collector = true → s.t.CollectorOk (supNeuter host).1 port) ∧
      (isPanName name = true → s.t.PanOk host)))
  | .call (.disconnect clid _) => inferInstanceAs (Decidable (∀ k ∈ clid, s.t.DisconnectOk k))
  | .call (.port tid port _) =>
    inferInstanceAs (Decidable (∀ k ∈ procFindClient s.t (-1) tid, s.t.PortOk k port))
  | .call (.connected ..) | .call (.status ..) | .call (.del _) | .call .clean => .isTrue trivial
  | .request q => inferInstanceAs (Decidable (s.t.RequestOk q))

/-! ## The invariant -/

/-- What holds in every state of a run that meets the side conditions. -/
structure Inv (t : Tables) (given : List (Nat × Nat)) : Prop where
  lt : ∀ pc ∈ t.conns, pc.collector.slot < t.numClients
  nodup : (t.conns.map fun pc => pc.collector.slot).Nodup
  hasPair : ∀ a < t.numClients, t.Live a → HasPair t.cfg (t.slots a).host
  paired : ∀ a < t.numClients, t.Live a → ∀ pc ∈ t.conns, replyFits t (t.own a) pc = true →
    (t.slots pc.collector.slot).gone = false ∧ pc.Records a
  given_lt : ∀ g ∈ given, g.1 < t.numClients
  given : ∀ g ∈ given, (t.slots g.1).gone = false →
    ∃ pc ∈ t.conns, pc.collector.slot = g.2 ∧ pc.Records g.1

variable {t : Tables} {given : List (Nat × Nat)}

theorem pairSearch_of_hasPair {host : Str} {pps : List PanPair} (stray : PanPair)
    (h : ∃ pp ∈ pps, streq host pp.phost = true) :
    pairSearch host stray pps ∈ pps ∧ streq host (pairSearch host stray pps).phost = true := by
  induction pps generalizing stray with
  | nil =>
    obtain ⟨pp, hpp, -⟩ := h
    exact absurd hpp List.not_mem_nil
  | cons pp pps ih =>
    rw [pairSearch]
    by_cases hpp : streq host pp.phost = true
    · rw [if_pos hpp]
      exact ⟨List.mem_cons_self, hpp⟩
    · rw [if_neg hpp]
      obtain ⟨p, hp, hhost⟩ := h
      rcases List.mem_cons.mp hp with rfl | hp
      · exact absurd hhost hpp
      · obtain ⟨hmem, heq⟩ := ih pp ⟨p, hp, hhost⟩
        exact ⟨List.mem_cons_of_mem _ hmem, heq⟩

theorem replyFits_iff {pp : PanPair} {pc : PanConn} : replyFits t pp pc = true ↔
    pp.fits (t.slots pc.collector.slot).host (t.slots pc.collector.slot).port = true ∧ pc.inUse ≤ 0 := by
  simp [replyFits]

/-- The rule of `procAddClient` is the stricter one. -/
theorem replyFits_of_addFits {pp : PanPair} {pc : PanConn} (h : addFits t pp pc = true) :
    replyFits t pp pc = true := by
  simp only [addFits, Bool.and_eq_true, decide_eq_true_eq, beq_iff_eq] at h
  obtain ⟨⟨huse, hhost⟩, hport⟩ := h
  rw [replyFits_iff]
  refine ⟨?_, huse⟩
  simp [PanPair.fits, hhost, hport]

/-- The entry of one client changes: not its name and host, and not back to life. A Collector fits the
pairing of a connected PAN afterwards only if it is connected and the PAN is recorded for it. -/
theorem Inv.update (h : Inv t given) {k : Nat} {cp : Client} (hname : cp.name = (t.slots k).name)
    (hhost : cp.host = (t.slots k).host) (hgone : cp.gone = false → (t.slots k).gone = false)
    (hfit : ∀ a < t.numClients, t.Live a → (a = k → cp.gone = false) → ∀ pc ∈ t.conns,
      pc.collector.slot = k → (t.own a).fits (t.slots k).host cp.port = true → pc.inUse ≤ 0 →
        cp.gone = false ∧ pc.Records a) :
    Inv { t with slots := Function.update t.slots k cp } given := by
  have hn : ∀ i, (Function.update t.slots k cp i).name = (t.slots i).name := by
    intro i
    by_cases hi : i = k
    · subst hi
      simpa using hname
    · rw [update_of_ne hi]
  have hh : ∀ i, (Function.update t.slots k cp i).host = (t.slots i).host := by
    intro i
    by_cases hi : i = k
    · subst hi
      simpa using hhost
    · rw [update_of_ne hi]
  have hg : ∀ i, (Function.update t.slots k cp i).gone = false → (t.slots i).gone = false := by
    intro i
    by_cases hi : i = k
    · subst hi
      simpa using hgone
    · rw [update_of_ne hi]
      exact id
  have hlive : ∀ a, Tables.Live { t with slots := Function.update t.slots k cp } a → t.Live a := by
    rintro a ⟨hpan, hga⟩
    exact ⟨by simpa only [hn] using hpan, hg a hga⟩
  refine ⟨h.lt, h.nodup, fun a ha hl => ?_, fun a ha hl pc hpc hf => ?_, h.given_lt, fun g hgm hgg => ?_⟩
  · show HasPair t.cfg (Function.update t.slots k cp a).host
    rw [hh]
    exact h.hasPair a ha (hlive a hl)
  · have hown : Tables.own { t with slots := Function.update t.slots k cp } a = t.own a := by
      simp only [Tables.own, hh]
    rw [hown, replyFits_iff] at hf
    by_cases hslot : pc.collector.slot = k
    · have hcp : Function.update t.slots k cp pc.collector.slot = cp := by rw [hslot, update_self]
      simp only [hcp] at hf ⊢
      rw [hhost] at hf
      refine hfit a ha (hlive a hl) (fun hak => ?_) pc hpc hslot hf.1 hf.2
      have hga : (Function.update t.slots k cp a).gone = false := hl.2
      rwa [hak, update_self] at hga
    · have hcp : Function.update t.slots k cp pc.collector.slot = t.slots pc.collector.slot :=
        update_of_ne hslot _ _
      simp only [hcp] at hf ⊢
      exact h.paired a ha (hlive a hl) pc hpc (replyFits_iff.mpr hf)
  · exact h.given g hgm (hg g.1 hgg)

/-- A change of the entry of one client that none of this depends on. -/
theorem Inv.quiet (h : Inv t given) {k : Nat} {cp : Client} (hname : cp.name = (t.slots k).name)
    (hhost : cp.host = (t.slots k).host) (hport : cp.port = (t.slots k).port)
    (hgone : cp.gone = (t.slots k).gone) :
    Inv { t with slots := Function.update t.slots k cp } given := by
  refine h.update hname hhost (fun hg => hgone ▸ hg) fun a ha hl _ pc hpc hslot hf huse => ?_
  rw [hport, ← hslot] at hf
  rw [hgone, ← hslot]
  exact h.paired a ha hl pc hpc (replyFits_iff.mpr ⟨hf, huse⟩)

/-- A client is disconnected. -/
theorem Inv.disconnect (h : Inv t given) {clid : Option Nat} (now : Nat)
    (hok : ∀ k ∈ clid, t.DisconnectOk k) : Inv (procDisconnect t clid now) given := by
  cases clid with
  | none => exact h
  | some k =>
    refine h.update rfl rfl nofun fun a ha hl hak pc hpc hslot hf _ => ?_
    have hne : a ≠ k := fun heq => nomatch hak heq
    have hno := hok k rfl a ha hl hne pc hpc hslot
    exact absurd (hno.symm.trans hf) (by decide)

/-- A `port` message. -/
theorem Inv.port (h : Inv t given) {k : Nat} {port : Int} (colID : Option Str) (hok : t.PortOk k port) :
    Inv (procSetPort t k port colID) given :=
  h.update rfl rfl id fun a ha hl _ pc hpc hslot hf _ => hok a ha hl pc hpc hslot hf

/-! ## Clients that connect -/

theorem Tables.push_slots (cp : Client) {i : Nat} (hi : i < t.numClients) :
    (t.push cp).slots i = t.slots i := update_of_ne (Nat.ne_of_lt hi) _ _

theorem Tables.push_last (cp : Client) : (t.push cp).slots t.numClients = cp := update_self _ _ _

/-- A new client with new entries of the connection table. The PANs that are connected, and the new
client if it is a PAN, have to agree with these. -/
theorem Inv.push (h : Inv t given) {cp : Client} {pcs : List PanConn}
    (hlt : ∀ pc ∈ pcs, pc.collector.slot < t.numClients + 1)
    (hnodup : (pcs.map fun pc => pc.collector.slot).Nodup)
    (hold : ∀ a < t.numClients, t.Live a → ∀ pc ∈ pcs, replyFits (t.push cp) (t.own a) pc = true →
      ((t.push cp).slots pc.collector.slot).gone = false ∧ pc.Records a)
    (hnew : isPanName cp.name = true → HasPair t.cfg cp.host ∧ ∀ pc ∈ pcs,
      replyFits (t.push cp) (pairSearch cp.host t.cfg.stray t.cfg.pairs) pc = true →
        ((t.push cp).slots pc.collector.slot).gone = false ∧ pc.Records t.numClients)
    (hgiven : ∀ g ∈ given, (t.slots g.1).gone = false →
      ∃ pc ∈ pcs, pc.collector.slot = g.2 ∧ pc.Records g.1) :
    Inv { t.push cp with conns := pcs } given := by
  have hcase : ∀ a < t.numClients + 1, (a < t.numClients ∧ (t.push cp).slots a = t.slots a) ∨
      (a = t.numClients ∧ (t.push cp).slots a = cp) := by
    intro a ha
    by_cases hn : a = t.numClients
    · exact .inr ⟨hn, hn ▸ t.push_last cp⟩
    · have hlt : a < t.numClients := by omega
      exact .inl ⟨hlt, Tables.push_slots cp hlt⟩
  refine ⟨hlt, hnodup, fun a ha hl => ?_, fun a ha hl pc hpc hf => ?_, fun g hg => ?_, fun g hg hgone => ?_⟩
  · obtain ⟨hpan, hga⟩ := hl
    show HasPair t.cfg ((t.push cp).slots a).host
    rcases hcase a ha with ⟨hlt, heq⟩ | ⟨-, heq⟩
    · simp only [heq] at hpan hga ⊢
      exact h.hasPair a hlt ⟨hpan, hga⟩
    · simp only [heq] at hpan ⊢
      exact (hnew hpan).1
  · obtain ⟨hpan, hga⟩ := hl
    rcases hcase a ha with ⟨hlt, heq⟩ | ⟨rfl, heq⟩
    · simp only [heq] at hpan hga
      simp only [Tables.own, heq] at hf
      exact hold a hlt ⟨hpan, hga⟩ pc hpc hf
    · simp only [heq] at hpan
      simp only [Tables.own, heq] at hf
      exact (hnew hpan).2 pc hpc hf
  · exact Nat.lt_succ_of_lt (h.given_lt g hg)
  · have hslot := Tables.push_slots cp (h.given_lt g hg)
    simp only [hslot] at hgone
    exact hgiven g hg hgone

theorem replyFits_push (cp : Client) {pp : PanPair} {pc : PanConn} (h : pc.collector.slot < t.numClients) :
    replyFits (t.push cp) pp pc = replyFits t pp pc := by
  rw [replyFits, replyFits, Tables.push_slots cp h]

theorem addFits_push (cp : Client) {pp : PanPair} {pc : PanConn} (h : pc.collector.slot < t.numClients) :
    addFits (t.push cp) pp pc = addFits t pp pc := by
  rw [addFits, addFits, Tables.push_slots cp h]

/-- What a connected PAN had, it has after another client was added. -/
theorem Inv.paired_push (h : Inv t given) {cp : Client} {a : Nat} (ha : a < t.numClients) (hl : t.Live a)
    {pc : PanConn} (hpc : pc ∈ t.conns) (hf : replyFits (t.push cp) (t.own a) pc = true) :
    ((t.push cp).slots pc.collector.slot).gone = false ∧ pc.Records a := by
  have hlt := h.lt pc hpc
  rw [replyFits_push cp hlt] at hf
  rw [Tables.push_slots cp hlt]
  exact h.paired a ha hl pc hpc hf

/-- A client that is neither a Collector nor a PAN. -/
theorem Inv.addOther (h : Inv t given) {cp : Client} (hpan : isPanName cp.name = false) :
    Inv (t.push cp) given :=
  h.push (fun pc hpc => Nat.lt_succ_of_lt (h.lt pc hpc)) h.nodup
    (fun _ ha hl _ hpc hf => h.paired_push ha hl hpc hf)
    (fun hnew => absurd (hpan.symm.trans hnew) (by decide)) h.given

/-- A Collector connects. -/
theorem Inv.addCollector (h : Inv t given) {cp : Client} (hpan : isPanName cp.name = false)
    (hok : t.CollectorOk cp.host cp.port) :
    Inv { t.push cp with conns := t.conns ++ [{ collector := ⟨t.numClients, cp.ident⟩ }] } given := by
  refine h.push (fun pc hpc => ?_) ?_ (fun a ha hl pc hpc hf => ?_)
    (fun hnew => absurd (hpan.symm.trans hnew) (by decide)) (fun g hg hgone => ?_)
  · rcases List.mem_append.mp hpc with hpc | hpc
    · exact Nat.lt_succ_of_lt (h.lt pc hpc)
    · rw [List.mem_singleton.mp hpc]
      exact Nat.lt_succ_self _
  · rw [List.map_append, List.nodup_append]
    refine ⟨h.nodup, List.pairwise_singleton _ _, ?_⟩
    intro i hi j hj
    obtain ⟨pc, hpc, rfl⟩ := List.mem_map.mp hi
    rw [List.mem_singleton.mp hj]
    exact Nat.ne_of_lt (h.lt pc hpc)
  · rcases List.mem_append.mp hpc with hpc | hpc
    · exact h.paired_push ha hl hpc hf
    · obtain rfl := List.mem_singleton.mp hpc
      have hfit := (replyFits_iff.mp hf).1
      simp only [Tables.push_last] at hfit
      exact absurd ((hok a ha hl).symm.trans hfit) (by decide)
  · obtain ⟨pc, hpc, hrest⟩ := h.given g hg hgone
    exact ⟨pc, List.mem_append_left _ hpc, hrest⟩

/-- No entry fits, or the first that does gets the PAN. -/
theorem recordPan_cases (fits : PanConn → Bool) (cp : Ref) (pcs : List PanConn) :
    (recordPan fits cp pcs = pcs ∧ ∀ pc ∈ pcs, fits pc = false) ∨
      ∃ l₁ pc l₂, pcs = l₁ ++ pc :: l₂ ∧ fits pc = true ∧
        recordPan fits cp pcs = l₁ ++ { pc with pan := some cp } :: l₂ := by
  induction pcs with
  | nil => exact .inl ⟨rfl, nofun⟩
  | cons pc pcs ih =>
    rw [recordPan]
    by_cases hfit : fits pc = true
    · rw [if_pos hfit]
      exact .inr ⟨[], pc, pcs, rfl, hfit, rfl⟩
    · rw [if_neg hfit]
      rcases ih with ⟨heq, hnone⟩ | ⟨l₁, q, l₂, rfl, hq, heq⟩
      · rw [heq]
        refine .inl ⟨rfl, fun q hq => ?_⟩
        rcases List.mem_cons.mp hq with rfl | hq
        · exact Bool.eq_false_iff.mpr hfit
        · exact hnone q hq
      · rw [heq]
        exact .inr ⟨pc :: l₁, q, l₂, rfl, hq, rfl⟩

/-- The only entry that fits. -/
theorem not_fits_of_filter {p : PanConn → Bool} {l₁ l₂ : List PanConn} {pc : PanConn}
    (h : ((l₁ ++ pc :: l₂).filter p).length ≤ 1) (hpc : p pc = true) :
    (∀ q ∈ l₁, p q = false) ∧ ∀ q ∈ l₂, p q = false := by
  rw [List.filter_append, List.filter_cons_of_pos hpc, List.length_append, List.length_cons] at h
  have h₁ : (l₁.filter p).length = 0 := by omega
  have h₂ : (l₂.filter p).length = 0 := by omega
  simp only [List.length_eq_zero_iff, List.filter_eq_nil_iff, Bool.not_eq_true] at h₁ h₂
  exact ⟨h₁, h₂⟩

theorem supNeuter_snd {host : Str} (h : '.' ∉ host) : (supNeuter host).2 = host := by
  rw [supNeuter, List.takeWhile_eq_self_iff]
  intro c hc
  simpa using fun hdot : c = '.' => h (hdot ▸ hc)

/-- A PAN connects. -/
theorem Inv.addPan (h : Inv t given) {cp : Client} {host : Str} (hhost : cp.host = (supNeuter host).1)
    (hok : t.PanOk host) :
    Inv { t.push cp with
      conns := recordPan (addFits (t.push cp) (pairSearch (supNeuter (supNeuter host).2).1 t.cfg.stray t.cfg.pairs))
        ⟨t.numClients, cp.ident⟩ t.conns } given := by
  obtain ⟨hdot, hpair, hone, hcol⟩ := hok
  rw [supNeuter_snd hdot]
  rw [← hhost] at hpair hone hcol ⊢
  generalize hpp : pairSearch cp.host t.cfg.stray t.cfg.pairs = pp at hone hcol
  rcases recordPan_cases (addFits (t.push cp) pp) ⟨t.numClients, cp.ident⟩ t.conns with
    ⟨heq, hnone⟩ | ⟨l₁, pc, l₂, hsplit, hfit, heq⟩
  · -- no Collector fits by the rule of `procAddClient`, so none by that of the request
    rw [heq]
    refine h.push (fun pc hpc => Nat.lt_succ_of_lt (h.lt pc hpc)) h.nodup
      (fun _ ha hl _ hpc hf => h.paired_push ha hl hpc hf) (fun _ => ⟨hpair, fun pc hpc hf => ?_⟩) h.given
    have hlt := h.lt pc hpc
    rw [hpp, replyFits_push cp hlt] at hf
    have hadd := (hcol pc hpc hf).1
    rw [← addFits_push cp hlt, hnone pc hpc] at hadd
    cases hadd
  · rw [heq]
    have hmem : pc ∈ t.conns := hsplit ▸ List.mem_append_right _ List.mem_cons_self
    have hlt := h.lt pc hmem
    rw [addFits_push cp hlt] at hfit
    have hreply := replyFits_of_addFits hfit
    obtain ⟨-, hcgone, hfree⟩ := hcol pc hmem hreply
    rw [hsplit] at hone
    obtain ⟨hno₁, hno₂⟩ := not_fits_of_filter hone hreply
    -- an entry of the new table is an old one that does not fit, or the one that gets the PAN
    have hnew : ∀ q ∈ l₁ ++ { pc with pan := some ⟨t.numClients, cp.ident⟩ } :: l₂,
        (q ∈ t.conns ∧ replyFits t pp q = false) ∨ q = { pc with pan := some ⟨t.numClients, cp.ident⟩ } := by
      intro q hq
      rw [hsplit]
      rcases List.mem_append.mp hq with hq | hq
      · exact .inl ⟨List.mem_append_left _ hq, hno₁ q hq⟩
      · rcases List.mem_cons.mp hq with hq | hq
        · exact .inr hq
        · exact .inl ⟨List.mem_append_right _ (List.mem_cons_of_mem _ hq), hno₂ q hq⟩
    have hrec : ∀ a, (t.slots a).gone = false → ¬ pc.Records a := by
      intro a ha hrec
      obtain ⟨r, hr, rfl⟩ := Option.map_eq_some_iff.mp hrec
      exact absurd (ha.symm.trans (hfree r hr)) (by decide)
    refine h.push (fun q hq => ?_) ?_ (fun a ha hl q hq hf => ?_) (fun _ => ⟨hpair, fun q hq hf => ?_⟩)
      (fun g hg hgg => ?_)
    · rcases hnew q hq with ⟨hq, -⟩ | rfl
      · exact Nat.lt_succ_of_lt (h.lt q hq)
      · exact Nat.lt_succ_of_lt hlt
    · have hnodup := h.nodup
      rw [hsplit] at hnodup
      simpa using hnodup
    · rcases hnew q hq with ⟨hq, -⟩ | rfl
      · exact h.paired_push ha hl hq hf
      · -- the Collector would be recorded for the other PAN
        exact absurd (h.paired_push ha hl hmem hf).2 (hrec a hl.2)
    · rcases hnew q hq with ⟨hq, hno⟩ | rfl
      · rw [hpp, replyFits_push cp (h.lt q hq), hno] at hf
        cases hf
      · exact ⟨(Tables.push_slots cp hlt).symm ▸ hcgone, rfl⟩
    · obtain ⟨q, hq, hslot, hqr⟩ := h.given g hg hgg
      rw [hsplit] at hq
      refine ⟨q, ?_, hslot, hqr⟩
      rcases List.mem_append.mp hq with hq | hq
      · exact List.mem_append_left _ hq
      · rcases List.mem_cons.mp hq with rfl | hq
        · exact absurd hqr (hrec _ hgg)
        · exact List.mem_append_right _ (List.mem_cons_of_mem _ hq)

/-! ## Whole runs -/

theorem Inv.start (cfg : Config) : Inv (.start cfg) [] :=
  ⟨nofun, List.Pairwise.nil, nofun, nofun, nofun, nofun⟩

theorem Inv.add (h : Inv t given) (chan : Option Chan) (name host : Str) (port tid pid : Int)
    (status : Str) (now : Nat)
    (hcol : strPre name collector = true → t.CollectorOk (supNeuter host).1 port)
    (hpan : isPanName name = true → t.PanOk host) :
    Inv (procAddClient t chan name host port tid pid status now) given := by
  obtain heq | ⟨-, ⟨hname, heq⟩ | ⟨hname, hpname, heq⟩ | ⟨-, hpname, heq⟩⟩ :=
    procAddClient_cases t chan name host port tid pid status now
  · rw [heq]
    exact h
  · rw [heq]
    refine h.addCollector ?_ (hcol hname)
    simp [newClient, isPanName, hname]
  · rw [heq]
    exact h.addPan rfl (hpan (by simp [isPanName, hname, hpname]))
  · rw [heq]
    refine h.addOther ?_
    simp [newClient, isPanName, hpname]

theorem Inv.call {s : Pairing} {t' : Tables} {c : Call} (h : Inv s.t s.given) (hkeeps : c.Keeps)
    (hok : s.Ok (.call c)) (hst : s.t.step c = some t') : Inv t' s.given := by
  cases c with
  | add chan name host port tid pid status now =>
    cases hst
    exact h.add chan name host port tid pid status now hok.1 hok.2
  | disconnect clid now =>
    obtain ⟨-, hst⟩ := Option.ite_none_right_eq_some.mp hst
    cases hst
    exact h.disconnect now hok
  | port tid port colID =>
    rw [Tables.step] at hst
    split at hst
    · cases hst
      exact h
    · rename_i k hk
      cases hst
      exact h.port colID (hok k hk)
  | connected tid ival =>
    rw [Tables.step] at hst
    split at hst
    · cases hst
      exact h
    · obtain ⟨-, hst⟩ := Option.ite_none_left_eq_some.mp hst
      cases hst
      exact h.quiet rfl rfl rfl rfl
  | status clid text now =>
    obtain ⟨-, hst⟩ := Option.ite_none_right_eq_some.mp hst
    cases hst
    obtain heq | ⟨k, -, active, date, st, -, heq⟩ := procUpdateStatus_cases s.t clid text now
    · rw [heq]
      exact h
    · rw [heq]
      exact h.quiet rfl rfl rfl rfl
  | del clid => exact absurd hkeeps id
  | clean => exact absurd hkeeps id

/-- The asker of a request is found by its socket. -/
theorem procFindBySocket_eq {a : Nat} {fd : Int} (ha : a < t.numClients)
    (hfd : (t.slots a).chan.datain = fd) (hfirst : ∀ j < a, (t.slots j).chan.datain ≠ fd) :
    procFindBySocket t fd = some a := by
  rw [procFindBySocket, findSlot_eq_some]
  refine ⟨ha, by simpa using hfd, fun j hj => ?_⟩
  simpa using hfirst j hj

variable {a : Nat} {fd : Int} {now : Nat}

/-- A request for which a Collector fits changes nothing. -/
theorem superHandleClient_some {pc : PanConn} (hfind : procFindBySocket t fd = some a)
    (hconn : t.conns.find? (replyFits t (t.own a)) = some pc) :
    superHandleClient t fd now = (.collector pc (devText t.cfg (t.slots pc.collector.slot)), t) := by
  have hconn : t.conns.find? (replyFits t (pairSearch (t.slots a).host t.cfg.stray t.cfg.pairs)) = some pc :=
    hconn
  simp only [superHandleClient, hfind, hconn]

theorem superHandleClient_none (hfind : procFindBySocket t fd = some a)
    (hconn : t.conns.find? (replyFits t (t.own a)) = none) :
    superHandleClient t fd now =
      let r := supDisconnectClient t (t.slots a).chan now
      (.closed, { r.1 with slots := update r.1.slots a { r.1.slots a with chan := r.2 } }) := by
  have hconn : t.conns.find? (replyFits t (pairSearch (t.slots a).host t.cfg.stray t.cfg.pairs)) = none :=
    hconn
  simp only [superHandleClient, hfind, hconn]

/-- A Collector is given to a PAN that is recorded for it. -/
theorem Inv.give (h : Inv t given) {pc : PanConn} (ha : a < t.numClients) (hpc : pc ∈ t.conns)
    (hrec : pc.Records a) : Inv t ((a, pc.collector.slot) :: given) := by
  refine ⟨h.lt, h.nodup, h.hasPair, h.paired, fun g hg => ?_, fun g hg hgone => ?_⟩
  · rcases List.mem_cons.mp hg with rfl | hg
    · exact ha
    · exact h.given_lt g hg
  · rcases List.mem_cons.mp hg with rfl | hg
    · exact ⟨pc, hpc, rfl, hrec⟩
    · exact h.given g hg hgone

/-- A request keeps the invariant, and its answer is right. -/
theorem Inv.request (h : Inv t given) {q : Request} (hsent : t.Sent q) (hok : t.RequestOk q) :
    let r := superHandleClient t q.fd q.now
    r.1.Right t q ∧ Inv r.2 ((Answer.pair ⟨q, r.1, t⟩).toList ++ given) := by
  obtain ⟨a, hasker, hpan, hfirst, hhang⟩ := hok
  obtain ⟨ha, hgone, hfd, hqhost⟩ := hsent a hasker
  have hasker : q.asker = some a := hasker
  have hl : t.Live a := ⟨hpan, hgone⟩
  have hfind := procFindBySocket_eq ha hfd hfirst
  cases hconn : t.conns.find? (replyFits t (t.own a)) with
  | some pc =>
    have hpc := List.mem_of_find?_eq_some hconn
    have hfit : replyFits t (t.own a) pc = true := List.find?_some hconn
    obtain ⟨hcgone, hrec⟩ := h.paired a ha hl pc hpc hfit
    obtain ⟨hown, hphost⟩ := pairSearch_of_hasPair t.cfg.stray (h.hasPair a ha hl)
    rw [superHandleClient_some hfind hconn]
    refine ⟨⟨⟨t.own a, hown, hqhost ▸ hphost, (replyFits_iff.mp hfit).1⟩, hcgone, rfl, a, hasker, hrec⟩, ?_⟩
    · have hpair : Answer.pair ⟨q, .collector pc (devText t.cfg (t.slots pc.collector.slot)), t⟩ =
          some (a, pc.collector.slot) := by
        simp only [Answer.pair, hasker]
      rw [hpair]
      exact h.give ha hpc hrec
  | none =>
    have hnone : ∀ pc ∈ t.conns, replyFits t (t.own a) pc = false := by
      simpa using hconn
    rw [superHandleClient_none hfind hconn]
    exact ⟨trivial, (h.disconnect q.now (hhang hnone)).quiet rfl rfl rfl rfl⟩

/-- Two connected PANs that were given one Collector are recorded in one entry, so they are one PAN. -/
theorem Inv.exclusive (h : Inv t given) {g k : Nat × Nat} (hg : g ∈ given) (hk : k ∈ given)
    (hsame : g.2 = k.2) (hgg : (t.slots g.1).gone = false) (hkg : (t.slots k.1).gone = false) :
    g.1 = k.1 := by
  obtain ⟨pc, hpc, hslot, hrec⟩ := h.given g hg hgg
  obtain ⟨pc', hpc', hslot', hrec'⟩ := h.given k hk hkg
  have heq : pc = pc' :=
    List.inj_on_of_nodup_map h.nodup hpc hpc' (by rw [hslot, hslot', hsame])
  rw [← heq] at hrec'
  exact Option.some.inj (hrec.symm.trans hrec')

/-- The invariant of a run, with its last answer. -/
def Pairing.Inv (s : Pairing) : Prop :=
  Super.Inv s.t s.given ∧ ∀ ans ∈ s.last, ans.reply.Right ans.t ans.q

theorem Pairing.Inv.good {s : Pairing} (h : s.Inv) : s.Good :=
  ⟨h.2, fun _ hg _ hk hsame hgg hkg => h.1.exclusive hg hk hsame hgg hkg⟩

theorem Pairing.Inv.step {s s' : Pairing} {e : PairEvent} (h : s.Inv) (hok : s.Ok e)
    (hst : s.step e = some s') : s'.Inv := by
  cases e with
  | call c =>
    obtain ⟨hkeeps, hst⟩ := Option.ite_none_right_eq_some.mp hst
    obtain ⟨t', ht', rfl⟩ := Option.map_eq_some_iff.mp hst
    exact ⟨h.1.call hkeeps hok ht', nofun⟩
  | request q =>
    obtain ⟨hsent, hst⟩ := Option.ite_none_right_eq_some.mp hst
    cases hst
    obtain ⟨hright, hinv⟩ := h.1.request hsent hok
    refine ⟨hinv, fun ans hans => ?_⟩
    cases hans
    exact hright

/-- In every run that meets the side conditions, each request is answered with a connected Collector of
the asker's own pairing in whose entry it is recorded, or with none, and no two connected PANs have been
given one Collector. -/
theorem pairing_good (cfg : Config) (events : List PairEvent)
    (h : Steps Pairing.Ok Pairing.step (Pairing.start cfg) events) :
    Throughout Pairing.Good Pairing.step (Pairing.start cfg) events :=
  throughout_of_steps (I := Pairing.Inv) (fun _ hI => hI.good) (fun _ _ _ hI hok hst => hI.step hok hst)
    ⟨Inv.start cfg, nofun⟩ h

/-! ## A Collector and a PAN -/

/-- One pairing, with the address of its Collector. -/
def onePair : Config :=
  { pairs := [⟨['p', '1'], ['c', '1'], 4100⟩], hosts := [⟨['c', '1'], ['1', '0', '.', '1']⟩] }

/-- A Collector connects and sends its port, and a PAN on the given host connects and asks for it. -/
def oneRequest (host : Str) : List PairEvent :=
  [.call (.add none collector ['c', '1'] 0 7 11 [] 0), .call (.port 7 4100 none),
    .call (.add (some { id := true, datain := 5, connected := 1, port := 4152 }) pan host 4152 999 12 [] 1),
    .request ⟨some 1, host, 5, 2⟩]

/-- The PAN of the pairing gets its Collector. -/
theorem oneRequest_good :
    Throughout Pairing.Good Pairing.step (Pairing.start onePair) (oneRequest ['p', '1']) ∧
      (run Pairing.step (Pairing.start onePair) (oneRequest ['p', '1'])).map Pairing.given = some [(1, 0)] :=
  ⟨pairing_good _ _ (by decide +kernel), by decide +kernel⟩

/-- A PAN on a host that is not in the table gets the Collector of the last pairing. -/
theorem unpaired_given :
    ¬ Throughout Pairing.Good Pairing.step (Pairing.start onePair) (oneRequest ['p', '2']) := by
  exact not_throughout_of_run (by decide +kernel)

end Ndhs.Super
