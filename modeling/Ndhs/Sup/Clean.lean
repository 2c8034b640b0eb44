import Ndhs.Sup.Tables

/-!
# Cleaning the process table

`procCleanTable` takes the flag `connected` for a sign of life, and `procDelClient` clears the slot behind
the last one and leaves the pointers of the connection table as they are.

* `procCleanLoop_ends`: cleaning ends. It either leaves the tables as they are, or leaves a client behind
  the end of the table.
* `procCleanTable_iff`: cleaning removes the clients that have been disconnected, and leaves the rest of the
  table cleared, exactly where there is nothing to remove.
* `refs_valid`: the pointers of the connection table hold their clients along every run in which no client
  is deleted at or in front of one of them.
-/

namespace Ndhs.Super

open Machine Text Function

variable {t t' : Tables}

/-! ## What is removed -/

/-- The slot is removed by `procCleanTable` when it is looked at. -/
def Tables.Removes (t : Tables) (i : Nat) : Prop := (t.slots i).Unused ∧ 1 < t.numClients

instance (t : Tables) (i : Nat) : Decidable (t.Removes i) := inferInstanceAs (Decidable (_ ∧ _))

/-- The used slots have been filled in, and the others are zero. -/
structure Tables.Filled (t : Tables) : Prop where
  le : t.numClients ≤ szProcTable
  dated : ∀ i < t.numClients, (t.slots i).date ≠ none
  zero : ∀ i, t.numClients ≤ i → t.slots i = {}

theorem procCleanLoop_succ (k i : Nat) (t : Tables) : procCleanLoop (k + 1) i t =
    if i < t.numClients then
      if t.Removes i then procCleanLoop k i (procDelClient t i) else procCleanLoop k (i + 1) t
    else some t := rfl

theorem procDelClient_numClients {clid : Nat} (h : (t.slots clid).connected = 0) :
    (procDelClient t clid).numClients = t.numClients - 1 := by
  rw [procDelClient, if_neg (not_not.mpr h)]

theorem procDelClient_dated {clid : Nat} (h : (t.slots clid).connected = 0)
    (hd : ∀ i < t.numClients, (t.slots i).date ≠ none) :
    ∀ i < t.numClients, ((procDelClient t clid).slots i).date ≠ none := by
  intro i hi
  rw [procDelClient_slots h hi]
  split
  · exact hd (i + 1) (by omega)
  · exact hd i hi

/-- Each round removes a slot or moves to the next, so the loop ends. If it removed a client, the slot
behind the table is not cleared. -/
theorem procCleanLoop_ends {k i : Nat} (hd : ∀ i < t.numClients, (t.slots i).date ≠ none)
    (hk : t.numClients ≤ k + i) : ∃ t', procCleanLoop k i t = some t' ∧
      ((t' = t ∧ ∀ j, i ≤ j → j < t.numClients → ¬ t.Removes j) ∨
        (t'.numClients < t.numClients ∧ (t'.slots t'.numClients).date ≠ none ∧
          ∃ j < t.numClients, t.Removes j)) := by
  induction k generalizing i t with
  | zero => exact ⟨t, if_neg (by omega), .inl ⟨rfl, fun j hj hlt => by omega⟩⟩
  | succ k ih =>
    rw [procCleanLoop_succ]
    by_cases hi : i < t.numClients
    swap
    · exact ⟨t, if_neg hi, .inl ⟨rfl, fun j hj hlt => by omega⟩⟩
    rw [if_pos hi]
    by_cases hr : t.Removes i
    · rw [if_pos hr]
      have hc : (t.slots i).connected = 0 := hr.1.2
      have hnum := procDelClient_numClients hc
      have hdated := procDelClient_dated hc hd
      obtain ⟨t', ht', hcase⟩ := ih (t := procDelClient t i) (i := i)
        (fun j hj => hdated j (by omega)) (by omega)
      refine ⟨t', ht', .inr ?_⟩
      rcases hcase with ⟨rfl, -⟩ | ⟨hlt, hne⟩
      · refine ⟨by omega, ?_, i, hi, hr⟩
        rw [hnum]
        exact hdated _ (by omega)
      · exact ⟨by omega, hne.1, i, hi, hr⟩
    · rw [if_neg hr]
      obtain ⟨t', ht', hcase⟩ := ih (i := i + 1) hd (by omega)
      refine ⟨t', ht', hcase.imp_left ?_⟩
      rintro ⟨rfl, hnone⟩
      refine ⟨rfl, fun j hj hlt => ?_⟩
      by_cases h : j = i
      · exact h ▸ hr
      · exact hnone j (by omega) hlt

/-! ## Cleaning after any run without deletions -/

/-- Calls that take no client out of the table. -/
def Call.Keeps : Call → Prop
  | .del _ => False
  | .clean => False
  | _ => True

/-- The clients that `procCleanTable` is for: those that have been disconnected since they were added. -/
def Client.Left (cp : Client) : Prop := streq cp.name supervisor = false ∧ cp.gone = true

instance (cp : Client) : Decidable cp.Left := inferInstanceAs (Decidable (_ ∧ _))

/-- Cleaning ends, removes the clients that have left, keeps the others in order and as they are, and
leaves the rest of the table cleared. -/
def Tables.CleansUp (t : Tables) : Prop :=
  ∃ t', procCleanTable t = some t' ∧ t'.entries = t.entries.filter (fun cp => ¬ cp.Left) ∧
    ∀ i, t'.numClients ≤ i → i < szProcTable → t'.slots i = {}

theorem Tables.mem_entries {cp : Client} : cp ∈ t.entries ↔ ∃ i < t.numClients, t.slots i = cp :=
  Cells.mem_cells

theorem Tables.Filled.start (cfg : Config) : (Tables.start cfg).Filled :=
  ⟨Nat.zero_le _, fun _ hi => absurd hi (Nat.not_lt_zero _), fun _ _ => rfl⟩

/-- A call that only rewrites the entry of one client, and leaves a date in it. -/
theorem Tables.Filled.update (h : t.Filled) {k : Nat} {cp : Client} (hk : k < t.numClients)
    (hcp : cp.date ≠ none) : { t with slots := Function.update t.slots k cp }.Filled := by
  refine ⟨h.le, fun i hi => ?_, fun i hi => ?_⟩
  · by_cases hik : i = k
    · subst hik
      simpa using hcp
    · simpa [update_of_ne hik] using h.dated i hi
  · have hne : i ≠ k := by
      have : t.numClients ≤ i := hi
      omega
    simpa [update_of_ne hne] using h.zero i hi

theorem Tables.Filled.push (h : t.Filled) {cp : Client} (hn : t.numClients ≠ szProcTable) (hcp : cp.date ≠ none) :
    (t.push cp).Filled := by
  have hle := h.le
  refine ⟨?_, fun i hi => ?_, fun i hi => ?_⟩
  · show t.numClients + 1 ≤ szProcTable
    omega
  · have hi : i < t.numClients + 1 := hi
    by_cases hin : i = t.numClients
    · subst hin
      simpa [Tables.push] using hcp
    · simpa [Tables.push, update_of_ne hin] using h.dated i (by omega)
  · have hi : t.numClients + 1 ≤ i := hi
    have hne : i ≠ t.numClients := by omega
    simpa [Tables.push, update_of_ne hne] using h.zero i (by omega)

theorem Tables.Filled.conns (h : t.Filled) (pcs : List PanConn) : { t with conns := pcs }.Filled :=
  ⟨h.le, h.dated, h.zero⟩

theorem Tables.Filled.step {c : Call} (h : t.Filled) (hc : c.Keeps) (hst : t.step c = some t') : t'.Filled := by
  cases c with
  | add chan name host port tid pid status now =>
    cases hst
    have hnew : (newClient chan name host port tid pid status now).date ≠ none := nofun
    obtain heq | ⟨hn, ⟨-, heq⟩ | ⟨-, -, heq⟩ | ⟨-, -, heq⟩⟩ :=
      procAddClient_cases t chan name host port tid pid status now
    · rw [heq]
      exact h
    · rw [heq]
      exact (h.push hn hnew).conns _
    · rw [heq]
      exact (h.push hn hnew).conns _
    · rw [heq]
      exact h.push hn hnew
  | disconnect | port | connected | status =>
    obtain rfl | ⟨k, hk, cp, -, hdate, rfl⟩ := Tables.step_edit hst trivial
    · exact h
    · exact h.update hk (hdate (h.dated k hk))
  | del clid => exact absurd hc id
  | clean => exact absurd hc id

theorem Tables.Filled.run {calls : List Call} (h : t.Filled) (hc : ∀ c ∈ calls, c.Keeps)
    (hr : Machine.run Tables.step t calls = some t') : t'.Filled := by
  induction calls generalizing t with
  | nil => cases hr; exact h
  | cons c calls ih =>
    obtain ⟨u, hst, hr⟩ := Option.bind_eq_some_iff.mp hr
    exact ih (h.step (hc c List.mem_cons_self) hst) (fun c hm => hc c (List.mem_cons_of_mem _ hm)) hr

/-- Nothing is there to remove: no client has left, and cleaning finds none to take for unused. -/
def Tables.Tidy (t : Tables) : Prop :=
  (∀ cp ∈ t.entries, ¬ cp.Left) ∧ (t.numClients ≤ 1 ∨ ∀ cp ∈ t.entries, ¬ cp.Unused)

instance (t : Tables) : Decidable t.Tidy := inferInstanceAs (Decidable (_ ∧ _))

theorem Tables.Tidy.not_removes (h : t.Tidy) {i : Nat} (hi : i < t.numClients) : ¬ t.Removes i := by
  rintro ⟨hu, hn⟩
  rcases h.2 with hle | hall
  · omega
  · exact hall _ (mem_entries.mpr ⟨i, hi, rfl⟩) hu

/-- After any clients have connected, sent their messages and been disconnected, `procCleanTable` does
what it is for exactly if there is nothing to remove. -/
theorem procCleanTable_iff (cfg : Config) (calls : List Call) (t : Tables)
    (hc : ∀ c ∈ calls, c.Keeps) (hr : run Tables.step (Tables.start cfg) calls = some t) :
    t.CleansUp ↔ t.Tidy := by
  have hfill : t.Filled := (Tables.Filled.start cfg).run hc hr
  obtain ⟨t', hclean, hcase⟩ := procCleanLoop_ends (k := t.numClients) (i := 0) hfill.dated (by omega)
  constructor
  · rintro ⟨u, hu, hentries, hzero⟩
    obtain rfl : t' = u := Option.some.inj (hclean.symm.trans hu)
    rcases hcase with ⟨rfl, hnone⟩ | ⟨hlt, hne⟩
    · refine ⟨fun cp hcp => ?_, ?_⟩
      · rw [hentries] at hcp
        simpa using (List.mem_filter.mp hcp).2
      · by_cases hn : t'.numClients ≤ 1
        · exact .inl hn
        · refine .inr fun cp hcp hun => ?_
          obtain ⟨i, hi, rfl⟩ := Tables.mem_entries.mp hcp
          exact hnone i (Nat.zero_le i) hi ⟨hun, by omega⟩
    · have hle := hfill.le
      rw [hzero _ (Nat.le_refl _) (by omega)] at hne
      exact absurd rfl hne.1
  · intro htidy
    rcases hcase with ⟨rfl, -⟩ | ⟨-, -, j, hj, hrem⟩
    · refine ⟨t', hclean, ?_, fun i hi _ => hfill.zero i hi⟩
      exact (List.filter_eq_self.mpr fun cp hcp => by simpa using htidy.1 cp hcp).symm
    · exact absurd hrem (htidy.not_removes hj)

/-- A client on the message bus. -/
def busClient (name : Str) (tid : Int) : Call := .add none name ['n'] 0 tid 1 [] 0

/-- A manager connects and sends `connected 1`. -/
def managerConnects : List Call :=
  [busClient supervisor 5, busClient ['S', 'M', 'C', 'M', 'g', 'r'] 7, .connected 7 1]

/-- A manager that has sent `connected 1` stays. -/
theorem connected_manager_stays :
    ∃ t, run Tables.step (Tables.start {}) managerConnects = some t ∧ t.CleansUp := by
  have hkeeps : ∀ c ∈ managerConnects, c.Keeps := by simp [managerConnects, busClient, Call.Keeps]
  have hrun := (Option.some_get (x := run Tables.step (Tables.start {}) managerConnects)
    (by decide +kernel)).symm
  exact ⟨_, hrun, (procCleanTable_iff _ _ _ hkeeps hrun).mpr (by decide +kernel)⟩

/-- A client that never sends `connected` is removed, though it has not been disconnected. -/
theorem silent_client_removed :
    ∃ t, run Tables.step (Tables.start {})
        [busClient supervisor 5, busClient ['P', 'X', 'F'] 7] = some t ∧ ¬ t.CleansUp := by
  refine ⟨_, rfl, ?_⟩
  rintro ⟨t', ht', hentries, -⟩
  have hlen := congrArg (Option.map fun t => t.entries.length) ht'
  rw [Option.map_some, hentries] at hlen
  exact absurd hlen (by decide +kernel)

/-! ## The pointers of the connection table -/

/-- The slot is in use and holds the client for which the pointer was set. -/
def Ref.Holds (r : Ref) (t : Tables) : Prop := r.slot < t.numClients ∧ (t.slots r.slot).ident = r.who

instance (r : Ref) (t : Tables) : Decidable (r.Holds t) := inferInstanceAs (Decidable (_ ∧ _))

/-- Every pointer of the connection table holds its client. -/
def Tables.Valid (t : Tables) : Prop := ∀ r ∈ t.refs, r.Holds t

instance (t : Tables) : Decidable t.Valid := inferInstanceAs (Decidable (∀ r ∈ t.refs, r.Holds t))

/-- The call deletes no client at or in front of a pointer of the connection table. -/
def Tables.DeletesBehind (t : Tables) : Call → Prop
  | .del clid => (t.slots clid).connected = 0 → ∀ r ∈ t.refs, r.slot < clid
  | .clean => ∀ i < t.numClients, t.Removes i → ∀ r ∈ t.refs, r.slot < i
  | _ => True

instance (t : Tables) : ∀ c, Decidable (t.DeletesBehind c)
  | .del clid => inferInstanceAs (Decidable ((t.slots clid).connected = 0 → ∀ r ∈ t.refs, r.slot < clid))
  | .clean => inferInstanceAs (Decidable (∀ i < t.numClients, t.Removes i → ∀ r ∈ t.refs, r.slot < i))
  | .add .. | .disconnect .. | .port .. | .connected .. | .status .. => .isTrue trivial

theorem Tables.mem_refs {r : Ref} : r ∈ t.refs ↔ ∃ pc ∈ t.conns, r = pc.collector ∨ pc.pan = some r := by
  simp only [refs, List.mem_flatMap, List.mem_cons, Option.mem_toList]

theorem mem_recordPan {fits : PanConn → Bool} {cp : Ref} {pcs : List PanConn} {pc : PanConn}
    (h : pc ∈ recordPan fits cp pcs) : pc ∈ pcs ∨ ∃ pc' ∈ pcs, pc = { pc' with pan := some cp } := by
  induction pcs with
  | nil => exact absurd h List.not_mem_nil
  | cons q pcs ih =>
    rw [recordPan] at h
    split at h
    · rcases List.mem_cons.mp h with rfl | h
      · exact .inr ⟨q, List.mem_cons_self, rfl⟩
      · exact .inl (List.mem_cons_of_mem _ h)
    · rcases List.mem_cons.mp h with rfl | h
      · exact .inl List.mem_cons_self
      · rcases ih h with hold | ⟨pc', hold, rfl⟩
        · exact .inl (List.mem_cons_of_mem _ hold)
        · exact .inr ⟨pc', List.mem_cons_of_mem _ hold, rfl⟩

/-- A pointer keeps its client in tables that grow and keep who is in each slot. -/
theorem Ref.Holds.mono {r : Ref} (h : r.Holds t) (hn : t.numClients ≤ t'.numClients)
    (hs : ∀ i < t.numClients, (t'.slots i).ident = (t.slots i).ident) : r.Holds t' :=
  ⟨Nat.lt_of_lt_of_le h.1 hn, (hs r.slot h.1).trans h.2⟩

/-- The entry of one client changes, and not who it is. -/
theorem Tables.Valid.update (h : t.Valid) {k : Nat} {cp : Client} (hcp : cp.ident = (t.slots k).ident) :
    { t with slots := Function.update t.slots k cp }.Valid := by
  intro r hr
  refine (h r hr).mono (Nat.le_refl _) fun i _ => ?_
  by_cases hik : i = k
  · subst hik
    simpa using hcp
  · simp [update_of_ne hik]

/-- A new client, and pointers that are old or its own. -/
theorem Tables.Valid.push (h : t.Valid) {cp : Client} {pcs : List PanConn}
    (hnew : ∀ r ∈ { t with conns := pcs }.refs, r ∈ t.refs ∨ r = ⟨t.numClients, cp.ident⟩) :
    { t.push cp with conns := pcs }.Valid := by
  intro r hr
  rcases hnew r hr with hold | rfl
  · refine (h r hold).mono (Nat.le_succ _) fun i hi => ?_
    simp [Tables.push, update_of_ne (Nat.ne_of_lt hi)]
  · exact ⟨Nat.lt_succ_self _, by simp [Tables.push]⟩

theorem Tables.Valid.add (h : t.Valid) (chan : Option Chan) (name host : Str) (port tid pid : Int)
    (status : Str) (now : Nat) : (procAddClient t chan name host port tid pid status now).Valid := by
  obtain heq | ⟨-, ⟨-, heq⟩ | ⟨-, -, heq⟩ | ⟨-, -, heq⟩⟩ :=
    procAddClient_cases t chan name host port tid pid status now
  · rw [heq]
    exact h
  · rw [heq]
    refine h.push fun r hr => ?_
    obtain ⟨pc, hpc, hr⟩ := mem_refs.mp hr
    rcases List.mem_append.mp hpc with hpc | hpc
    · exact .inl (mem_refs.mpr ⟨pc, hpc, hr⟩)
    · obtain rfl := List.mem_singleton.mp hpc
      rcases hr with rfl | hr
      · exact .inr rfl
      · cases hr
  · rw [heq]
    refine h.push fun r hr => ?_
    obtain ⟨pc, hpc, hr⟩ := mem_refs.mp hr
    rcases mem_recordPan hpc with hold | ⟨pc', hold, rfl⟩
    · exact .inl (mem_refs.mpr ⟨pc, hold, hr⟩)
    · rcases hr with rfl | hr
      · exact .inl (mem_refs.mpr ⟨pc', hold, .inl rfl⟩)
      · exact .inr (Option.some.inj hr).symm
  · rw [heq]
    exact h.push fun r hr => .inl hr

theorem procDelClient_refs (t : Tables) (clid : Nat) : (procDelClient t clid).refs = t.refs := by
  rw [procDelClient]
  split
  · rfl
  · rfl

/-- A deletion behind every pointer. -/
theorem Tables.Valid.del (h : t.Valid) {clid : Nat} (hlt : clid < t.numClients)
    (hc : (t.slots clid).connected = 0) (hb : ∀ r ∈ t.refs, r.slot < clid) :
    (procDelClient t clid).Valid := by
  intro r hr
  rw [procDelClient_refs] at hr
  have hslot := hb r hr
  refine ⟨?_, ?_⟩
  · rw [procDelClient_numClients hc]
    omega
  · rw [procDelClient_slots hc (by omega), if_neg (by omega)]
    exact (h r hr).2

/-- Cleaning from slot `i` on, where what is removed lies behind every pointer. -/
theorem Tables.Valid.clean {k i : Nat} (h : t.Valid)
    (hb : ∀ j, i ≤ j → j < t.numClients → t.Removes j → ∀ r ∈ t.refs, r.slot < j)
    (ht : procCleanLoop k i t = some t') : t'.Valid := by
  induction k generalizing i t with
  | zero =>
    obtain ⟨-, ht⟩ := Option.ite_none_left_eq_some.mp ht
    cases ht
    exact h
  | succ k ih =>
    rw [procCleanLoop_succ] at ht
    split at ht
    · rename_i hi
      split at ht
      · rename_i hr
        have hc : (t.slots i).connected = 0 := hr.1.2
        have hlt := hb i (Nat.le_refl i) hi hr
        refine ih (h.del hi hc hlt) (fun j hj _ _ r hrefs => ?_) ht
        rw [procDelClient_refs] at hrefs
        exact Nat.lt_of_lt_of_le (hlt r hrefs) hj
      · exact ih h (fun j hj => hb j (by omega)) ht
    · cases ht
      exact h

/-- One call. -/
theorem Tables.Valid.step {c : Call} (h : t.Valid) (hc : t.DeletesBehind c) (hst : t.step c = some t') :
    t'.Valid := by
  cases c with
  | add chan name host port tid pid status now =>
    cases hst
    exact h.add chan name host port tid pid status now
  | disconnect | port | connected | status =>
    obtain rfl | ⟨k, -, cp, hident, -, rfl⟩ := Tables.step_edit hst trivial
    · exact h
    · exact h.update hident
  | del clid =>
    obtain ⟨hlt, hst⟩ := Option.ite_none_right_eq_some.mp hst
    cases hst
    by_cases hcon : (t.slots clid).connected = 0
    · exact h.del hlt hcon (hc hcon)
    · have hkeep : procDelClient t clid = t := if_pos hcon
      rw [hkeep]
      exact h
  | clean => exact h.clean (fun j _ hj => hc j hj) hst

/-- In every run in which each client that is deleted lies behind the pointers of the connection table,
these hold their clients in every state. -/
theorem refs_valid (cfg : Config) (calls : List Call)
    (h : Steps Tables.DeletesBehind Tables.step (Tables.start cfg) calls) :
    Throughout Tables.Valid Tables.step (Tables.start cfg) calls :=
  throughout_of_steps (fun _ h => h) (fun _ _ _ h hc hst => h.step hc hst)
    (fun _ hr => absurd hr List.not_mem_nil) h

/-- A Collector, and a client behind it that is deleted. -/
def deleteLast : List Call :=
  [busClient supervisor 5, busClient collector 7, busClient ['P', 'X', 'F'] 8, .disconnect (some 2) 1, .del 2]

theorem deleteLast_valid :
    Throughout Tables.Valid Tables.step (Tables.start {}) deleteLast :=
  refs_valid _ _ (by decide +kernel)

/-- A client in front of a Collector is deleted: the pointer to the Collector now finds the client behind
it. -/
theorem deleted_before_collector :
    ¬ Throughout Tables.Valid Tables.step (Tables.start {})
      [busClient supervisor 5, busClient ['P', 'X', 'F'] 6, busClient collector 7,
        busClient ['S', 'M', 'C', 'M', 'g', 'r'] 8, .disconnect (some 1) 1, .del 1] := by
  exact not_throughout_of_run (by decide +kernel)

end Ndhs.Super
