import Ndhs.Smc.NextPage

/-!
# Updates of a page and its readers (`lib/smc/smCache.c`, `lib/smc/smState.c`)

A writer locks a page (`smcLock`), modifies it and unlocks it (`smcUnlock`), and readers poll with
`smcNextPage`. `smcUnlock` notes the time of the modification in the state array of the page, in the
entry of the process that unlocks it; `smcNextPage` looks at the entry of the process that polls.

`PollSys` is the cache with what happened to it: which process is between its lock and its unlock of
a page (`cycle`), and which reader has not been given a page since a process last completed such a
cycle (`owed`). A step is one call of one process. The clock is that of `smUtilTime`, the same for
all processes, and it does not go back.

* `PollSys.Delivers`: a reader that is owed a page gets it if it polls until `NULL`, and polling ends.
* `PollSys.Inv`: the invariant. The entry of a reader that is owed a page is due.
* `updates_delivered`: the property holds in every state of a run in which each unlock that completes
  a cycle finds the page due for every other reader (`UnlockOk`). The unlock itself makes it due for
  the unlocking process only.
-/

namespace Ndhs

open Function Machine

/-- The cache with the state array of each page. -/
structure PollCache where
  smc : SmCache
  pstate : PState

namespace PollCache

/-- `smcLock` -/
def smcLock (c : PollCache) (i : Nat) : PollCache :=
  { c with smc := c.smc.setPage i { c.smc.pdata i with acLocked := true } }

/-- `smStateSet*` on the state array of a page. -/
def setState (c : PollCache) (pid i : Nat) (call : SetCall) : PollCache :=
  { c with pstate := update c.pstate i (smStateSet (c.pstate i) pid call.write) }

/-- `smcUnlock`: unlock the page, and update the `ltime` of a process that is attached. -/
def smcUnlock (c : PollCache) (pid i : Nat) (now : Rat) : PollCache :=
  let c := { c with smc := c.smc.setPage i { c.smc.pdata i with acLocked := false } }
  if 0 < smStateGetAttached (c.pstate i) pid then c.setState pid i (.ltime now) else c

/-- `smcAttach`: the segment is attached at the address `addr`. `base` is the address of the cache. -/
def smcAttach (c : PollCache) (alive : Nat → Bool) (pid i addr base : Nat) (now : Rat) : PollCache :=
  if (c.smc.pdata i).memKey = 0 then c
  else
    let c := if smStateDefined (c.pstate i) pid then c
      else { c with pstate := update c.pstate i (smStateAdd alive (c.pstate i) pid now addr true) }
    ((c.setState pid i (.addr addr)).setState pid i (.smc base)).setState pid i (.attached 1)

/-- `smcDetach` without `free`: the creator of the page unlocks it. -/
def smcDetach (c : PollCache) (pid i : Nat) (now : Rat) : PollCache :=
  (if (c.smc.pdata i).cpid = pid then c.smcUnlock pid i now else c).setState pid i (.attached 0)

end PollCache

/-! ## Processes -/

/-- The cache, the contents of the segments, and the processes that use it. -/
structure PollSys where
  cache : PollCache
  seg : Nat → Int
  alive : Nat → Bool
  clock : Rat
  /-- The process is between its lock and its unlock of the page. -/
  cycle : Nat → Nat → Bool
  /-- Since the reader was last given the page, a process has completed a cycle of it. -/
  owed : Nat → Nat → Bool

/-- A call of a process, or its death. A page is given by its slot. -/
inductive PollAct where
  | getPage (type size : Int) (lock : Bool) (env : GetEnv) (addr : Nat) (now : Rat)
  | attach (p i addr base : Nat) (now : Rat)
  | detach (p i : Nat) (now : Rat)
  | lock (p i : Nat)
  | modify (p i : Nat) (v : Int)
  | unlock (p i : Nat) (now : Rat)
  | nextPage (p : Nat) (now : Rat)
  | die (p : Nat)

namespace PollSys

variable (s : PollSys)

/-- The process is done with the page: every reader is owed it, if this ends a cycle. -/
def endCycle (p i : Nat) : PollSys :=
  if s.cycle i p then
    { s with
      cycle := update s.cycle i (update (s.cycle i) p false)
      owed := update s.owed i fun _ => true }
  else s

/-- Only a live process makes a call, and not before the last one. -/
def Calls (p : Nat) (now : Rat) : Prop := s.alive p = true ∧ s.clock ≤ now

instance (p : Nat) (now : Rat) : Decidable (s.Calls p now) := inferInstanceAs (Decidable (_ ∧ _))

/-- One call. A call of `smcGetPage` that fails is not a step. -/
def step : PollAct → Option PollSys
  | .getPage type size lock env addr now =>
    if s.Calls env.pid env.time ∧ env.time ≤ now then
      match smcGetPage s.cache.smc type size true lock env with
      | some (smc, .page pnum) =>
        let sa := smStateAdd s.alive smStateInit env.pid now addr true
        some { s with
          cache := { smc, pstate := update s.cache.pstate pnum sa }
          clock := now
          cycle := update s.cycle pnum fun p => lock && p == env.pid
          owed := update s.owed pnum fun _ => false }
      | _ => none
    else none
  | .attach p i addr base now =>
    if s.Calls p now then
      some { s with cache := s.cache.smcAttach s.alive p i addr base now, clock := now }
    else none
  | .detach p i now =>
    if s.Calls p now then
      let s' := { s with cache := s.cache.smcDetach p i now, clock := now }
      some (if (s.cache.smc.pdata i).cpid = p then s'.endCycle p i else s')
    else none
  | .lock p i =>
    if s.alive p then
      some { s with
        cache := s.cache.smcLock i
        cycle := update s.cycle i (update (s.cycle i) p true) }
    else none
  | .modify p i v => if s.alive p then some { s with seg := update s.seg i v } else none
  | .unlock p i now =>
    if s.Calls p now then
      some (endCycle { s with cache := s.cache.smcUnlock p i now, clock := now } p i)
    else none
  | .nextPage p now =>
    if s.Calls p now then
      match smcNextPage s.cache.smc s.alive p s.cache.pstate now with
      | (ps, none) => some { s with cache := { s.cache with pstate := ps }, clock := now }
      | (ps, some i) =>
        some { s with
          cache := { s.cache with pstate := ps }
          clock := now
          owed := update s.owed i (update (s.owed i) p false) }
    else none
  | .die p => some { s with alive := update s.alive p false }

/-- The calls of `smcNextPage` that the reader makes now, at the times given. -/
def drains (r : Nat) (ts : List Rat) : List Nat × Bool :=
  drain s.cache.smc s.alive r s.cache.pstate ts

/-- A registered reader that is owed a page gets it before `NULL`; and it does get it, once it has
polled more often than there are pages, with a clock that does not go back and room for it in every
page. -/
def Delivers : Prop :=
  ∀ i r, s.owed i r = true → s.alive r = true → (smStateEntry (s.cache.pstate i) r).isSome = true →
    i < s.cache.smc.top.toNat → s.cache.smc.Open i →
    (∀ ts, (s.drains r ts).2 = true → i ∈ (s.drains r ts).1) ∧
    ∀ ts, (∀ j < s.cache.smc.top.toNat, Fits s.alive (s.cache.pstate j) r) →
      (s.clock :: ts).Pairwise (· ≤ ·) → s.cache.smc.top.toNat < ts.length →
      i ∈ (s.drains r ts).1

/-- A new cache, at the time `t`. -/
def start (smc : SmCache) (t : Rat) : PollSys where
  cache := ⟨smc, fun _ => smStateInit⟩
  seg := fun _ => 0
  alive := fun p => p != 0
  clock := t
  cycle := fun _ _ => false
  owed := fun _ _ => false

/-- The unlock of the page by `p` leaves it due for every reader: it is due already, or the reader is
the unlocking process itself, which is attached and was last given the page before. -/
def UnlockOk (p i : Nat) (now : Rat) : Prop :=
  s.cycle i p = true → ∀ r e, s.alive r = true → smStateEntry (s.cache.pstate i) r = some e →
    e.Due ∨ (r = p ∧ 0 < e.attached ∧ e.utime < now)

end PollSys

/-- The call leaves the pages that were modified due for their readers. -/
def PollAct.Ok (s : PollSys) : PollAct → Prop
  | .unlock p i now => s.UnlockOk p i now
  | .detach p i now => (s.cache.smc.pdata i).cpid = p → s.UnlockOk p i now
  | _ => True

/-! ## The invariant -/

/-- The entry of a reader that is owed a page is due, and the times in the cache are in the past. -/
structure PollSys.Inv (s : PollSys) : Prop where
  owed : ∀ i r e, s.owed i r = true → s.alive r = true →
    smStateEntry (s.cache.pstate i) r = some e → e.Due
  past : ∀ r, s.alive r = true → Past r s.cache.pstate s.clock
  ctime : ∀ i, (s.cache.smc.pdata i).ctime ≤ s.clock
  clock : 0 < s.clock
  zero : s.alive 0 = false

section Grow

variable {alive : Nat → Bool} {now : Rat} {sa sa' sa'' : List SmState} {p : Nat}

/-- What most calls do to a state array: every entry after the call is due, or it comes from one before
it and is still due if that was. -/
def Grows (alive : Nat → Bool) (now : Rat) (sa sa' : List SmState) : Prop :=
  ∀ r e, alive r = true → smStateEntry sa' r = some e →
    e.ltime ≤ now ∧ (e.Due ∨ ∃ e₀, smStateEntry sa r = some e₀ ∧ (e₀.Due → e.Due))

theorem Grows.refl (h : ∀ r e, alive r = true → smStateEntry sa r = some e → e.ltime ≤ now) :
    Grows alive now sa sa :=
  fun r e hr he => ⟨h r e hr he, .inr ⟨e, he, id⟩⟩

theorem Grows.trans (h : Grows alive now sa sa') (h' : Grows alive now sa' sa'') :
    Grows alive now sa sa'' := by
  intro r e hr he
  obtain ⟨hl, hd | ⟨e₁, he₁, hd₁⟩⟩ := h' r e hr he
  · exact ⟨hl, .inl hd⟩
  · obtain ⟨-, hd | ⟨e₀, he₀, hd₀⟩⟩ := h r e₁ hr he₁
    · exact ⟨hl, .inl (hd₁ hd)⟩
    · exact ⟨hl, .inr ⟨e₀, he₀, hd₁ ∘ hd₀⟩⟩

/-- A call that writes neither of the two times. -/
theorem Grows.set (h : Grows alive now sa sa') (call : SetCall)
    (hu : ∀ e, (call.write e).utime = e.utime) (hl : ∀ e, (call.write e).ltime = e.ltime) :
    Grows alive now sa (smStateSet sa' p call.write) := by
  refine h.trans fun r e hr he => ?_
  by_cases hp : r = p
  · rw [hp, smStateEntry_set _ call.write_pid] at he
    obtain ⟨e₀, he₀, rfl⟩ := Option.map_eq_some_iff.mp he
    refine ⟨hl e₀ ▸ (h r e₀ hr (hp ▸ he₀)).1, .inr ⟨e₀, hp ▸ he₀, fun hd => ?_⟩⟩
    rw [SmState.Due, hu, hl]
    exact hd
  · rw [smStateEntry_write_ne call hp] at he
    exact ⟨(h r e hr he).1, .inr ⟨e, he, id⟩⟩

/-- Entering a process that is not in the array. -/
theorem Grows.add (h : Grows alive now sa sa') (h0 : alive 0 = false) (hp : alive p = true)
    (hd : smStateDefined sa' p = false) {atime : Rat} (ht : atime ≤ now) (addr : Nat) (attached : Bool) :
    Grows alive now sa (smStateAdd alive sa' p atime addr attached) := by
  refine h.trans fun r e hr he => ?_
  by_cases hrp : r = p
  · have hne : p ≠ 0 := by
      rintro rfl
      rw [h0] at hp
      cases hp
    subst hrp
    rcases entry_add_cases atime addr attached alive hd hne with hn | ⟨e', he', hu, hl⟩
    · rw [hn] at he
      cases he
    · rw [he'] at he
      cases he
      exact ⟨hl ▸ ht, .inl (.inl hu)⟩
  · rw [entry_add_ne atime addr attached hd hrp hr h0] at he
    exact ⟨(h r e hr he).1, .inr ⟨e, he, id⟩⟩

/-- An unlock: the `ltime` of the process goes up. -/
theorem Grows.unlock (h : Grows alive now sa sa') :
    Grows alive now sa (smStateSet sa' p (SetCall.ltime now).write) := by
  refine h.trans fun r e hr he => ?_
  by_cases hp : r = p
  · rw [hp, smStateEntry_set _ (SetCall.ltime now).write_pid] at he
    obtain ⟨e₀, he₀, rfl⟩ := Option.map_eq_some_iff.mp he
    have hle := (h r e₀ hr (hp ▸ he₀)).1
    exact ⟨le_refl now, .inr ⟨e₀, hp ▸ he₀, fun hd => hd.imp id fun hlt => lt_of_lt_of_le hlt hle⟩⟩
  · rw [smStateEntry_write_ne _ hp] at he
    exact ⟨(h r e hr he).1, .inr ⟨e, he, id⟩⟩

end Grow

namespace PollSys.Inv

variable {s s' : PollSys} {p i : Nat} {now : Rat}

theorem start {smc : SmCache} {t : Rat} (hc : ∀ i, (smc.pdata i).ctime ≤ t) (ht : 0 < t) :
    (PollSys.start smc t).Inv where
  owed _ _ _ h := nomatch h
  past r hr i e he := by
    have hm := List.eq_of_mem_replicate (List.mem_of_find?_eq_some he)
    rw [hm]
    exact ht.le
  ctime := hc
  clock := ht
  zero := rfl

theorem grows_refl (h : s.Inv) (hle : s.clock ≤ now) (i : Nat) :
    Grows s.alive now (s.cache.pstate i) (s.cache.pstate i) :=
  .refl fun r e hr he => (h.past r hr i e he).trans hle

/-- A call that lets the state arrays grow, and after which no more is owed. -/
theorem of_grows (h : s.Inv) (hle : s.clock ≤ s'.clock) (ha : s'.alive = s.alive)
    (hc : ∀ i, (s'.cache.smc.pdata i).ctime ≤ s'.clock)
    (ho : ∀ i r, s'.owed i r = true → s.owed i r = true)
    (hg : ∀ i, Grows s.alive s'.clock (s.cache.pstate i) (s'.cache.pstate i)) : s'.Inv where
  owed i r e hor hr he := by
    rw [ha] at hr
    obtain ⟨-, hd | ⟨e₀, he₀, hd⟩⟩ := hg i r e hr he
    · exact hd
    · exact hd (h.owed i r e₀ (ho i r hor) hr he₀)
  past r hr i e he := (hg i r e (ha ▸ hr) he).1
  ctime := hc
  clock := lt_of_lt_of_le h.clock hle
  zero := by rw [ha, h.zero]

/-- Such a call, at one page. -/
theorem grows_update (h : s.Inv) (hle : s.clock ≤ now) {sa : List SmState}
    (hg : Grows s.alive now (s.cache.pstate i) sa) (j : Nat) :
    Grows s.alive now (s.cache.pstate j) (update s.cache.pstate i sa j) := by
  by_cases hj : j = i
  · rw [hj, update_self]
    exact hg
  · rw [update_of_ne hj]
    exact h.grows_refl hle j

/-- The owed readers after a cycle has ended at a page that is due for everyone. -/
theorem endCycle (h : s.Inv)
    (hd : s.cycle i p = true → ∀ r e, s.alive r = true →
      smStateEntry (s.cache.pstate i) r = some e → e.Due) : (s.endCycle p i).Inv := by
  unfold PollSys.endCycle
  split
  · rename_i hc
    refine ⟨fun j r e ho hr he => ?_, h.past, h.ctime, h.clock, h.zero⟩
    by_cases hj : j = i
    · subst hj
      exact hd hc r e hr he
    · have ho : update s.owed i (fun _ => true) j r = true := ho
      rw [update_of_ne hj] at ho
      exact h.owed j r e ho hr he
  · exact h

/-! ### The calls -/

theorem setLocked_ctime (smc : SmCache) (i j : Nat) (b : Bool) :
    ((smc.setPage i { smc.pdata i with acLocked := b }).pdata j).ctime = (smc.pdata j).ctime := by
  by_cases hj : j = i
  · subst hj
    simp [SmCache.setPage]
  · simp [SmCache.setPage, hj]

theorem unlock_ctime (c : PollCache) (p i j : Nat) (now : Rat) :
    ((c.smcUnlock p i now).smc.pdata j).ctime = (c.smc.pdata j).ctime := by
  unfold PollCache.smcUnlock
  simp only
  split <;> exact setLocked_ctime c.smc i j false

theorem unlock_grows (h : s.Inv) (hle : s.clock ≤ now) (p i j : Nat) :
    Grows s.alive now (s.cache.pstate j) ((s.cache.smcUnlock p i now).pstate j) := by
  unfold PollCache.smcUnlock
  simp only
  split
  · exact h.grows_update hle (h.grows_refl hle i).unlock j
  · exact h.grows_refl hle j

theorem attach (h : s.Inv) (hp : s.Calls p now) (addr base : Nat) :
    ({ s with cache := s.cache.smcAttach s.alive p i addr base now, clock := now } : PollSys).Inv := by
  have hg : ∀ sa, Grows s.alive now (s.cache.pstate i) sa →
      Grows s.alive now (s.cache.pstate i) (smStateSet (smStateSet (smStateSet sa p
        (SetCall.addr addr).write) p (SetCall.smc base).write) p (SetCall.attached 1).write) :=
    fun sa h => ((h.set (.addr addr) (fun _ => rfl) fun _ => rfl).set (.smc base) (fun _ => rfl)
      fun _ => rfl).set (.attached 1) (fun _ => rfl) fun _ => rfl
  refine h.of_grows hp.2 rfl (fun j => ?_) (fun _ _ => id) fun j => ?_
  · refine le_trans (le_of_eq ?_) ((h.ctime j).trans hp.2)
    unfold PollCache.smcAttach
    simp only
    split
    · rfl
    · split <;> rfl
  · unfold PollCache.smcAttach
    simp only
    split
    · exact h.grows_refl hp.2 j
    · split
      · simp only [PollCache.setState, update_self, update_idem]
        exact h.grows_update hp.2 (hg _ (h.grows_refl hp.2 i)) j
      · rename_i hd
        rw [Bool.not_eq_true] at hd
        simp only [PollCache.setState, update_self, update_idem]
        exact h.grows_update hp.2
          (hg _ ((h.grows_refl hp.2 i).add h.zero hp.1 hd (le_refl now) addr true)) j

/-- After the unlock the page is due for every reader. -/
theorem due_unlock (h : s.Inv) (hle : s.clock ≤ now) (hok : s.UnlockOk p i now)
    (hc : s.cycle i p = true) {r : Nat} {e : SmState} (hr : s.alive r = true)
    (he : smStateEntry ((s.cache.smcUnlock p i now).pstate i) r = some e) : e.Due := by
  obtain ⟨-, hd | ⟨e₀, he₀, hd⟩⟩ := h.unlock_grows hle p i i r e hr he
  · exact hd
  · rcases hok hc r e₀ hr he₀ with hdue | ⟨rfl, hatt, hlt⟩
    · exact hd hdue
    · have hpos : 0 < smStateGetAttached (s.cache.pstate i) r := by
        rw [smStateGetAttached, he₀]
        exact hatt
      unfold PollCache.smcUnlock at he
      simp only [hpos, if_true, PollCache.setState, update_self] at he
      rw [smStateEntry_set _ (SetCall.ltime now).write_pid, he₀] at he
      cases he
      exact .inr hlt

theorem unlocked (h : s.Inv) (hle : s.clock ≤ now) (p i : Nat) :
    ({ s with cache := s.cache.smcUnlock p i now, clock := now } : PollSys).Inv :=
  h.of_grows hle rfl (fun j => (unlock_ctime s.cache p i j now).le.trans ((h.ctime j).trans hle))
    (fun _ _ => id) (h.unlock_grows hle p i)

theorem setState (h : s.Inv) (call : SetCall) (hu : ∀ e, (call.write e).utime = e.utime)
    (hl : ∀ e, (call.write e).ltime = e.ltime) (p i : Nat) :
    ({ s with cache := s.cache.setState p i call } : PollSys).Inv :=
  h.of_grows (le_refl _) rfl h.ctime (fun _ _ => id)
    (h.grows_update (le_refl _) ((h.grows_refl (le_refl _) i).set call hu hl))

theorem detach (h : s.Inv) (hle : s.clock ≤ now)
    (hok : (s.cache.smc.pdata i).cpid = p → s.UnlockOk p i now) :
    let s' : PollSys := { s with cache := s.cache.smcDetach p i now, clock := now }
    (if (s.cache.smc.pdata i).cpid = p then s'.endCycle p i else s').Inv := by
  simp only [PollCache.smcDetach]
  split
  · rename_i hp
    refine endCycle ((h.unlocked hle p i).setState (.attached 0) (fun _ => rfl) (fun _ => rfl) p i) ?_
    intro hc r e hr he
    simp only [PollCache.setState, update_self] at he
    by_cases hrp : r = p
    · subst hrp
      rw [smStateEntry_set _ (SetCall.attached 0).write_pid] at he
      obtain ⟨e₀, he₀, rfl⟩ := Option.map_eq_some_iff.mp he
      have hdue : e₀.Due := h.due_unlock hle (hok hp) hc hr he₀
      exact hdue
    · rw [smStateEntry_write_ne _ hrp] at he
      exact h.due_unlock hle (hok hp) hc hr he
  · exact setState (s := { s with clock := now }) (h.of_grows hle rfl
      (fun j => (h.ctime j).trans hle) (fun _ _ => id) (h.grows_refl hle)) (.attached 0) (fun _ => rfl)
      (fun _ => rfl) p i

theorem register_grows (h : s.Inv) (hp : s.Calls p now) (j : Nat) :
    Grows s.alive now (s.cache.pstate j) (register s.cache.smc s.alive p s.cache.pstate j j) := by
  rw [register_apply]
  split
  · exact h.grows_refl hp.2 j
  · rename_i hd
    rw [Bool.not_eq_true] at hd
    exact (h.grows_refl hp.2 j).add h.zero hp.1 hd ((h.ctime j).trans hp.2) j false

theorem registerAll_grows (h : s.Inv) (hp : s.Calls p now) (j : Nat) :
    Grows s.alive now (s.cache.pstate j) (registerAll s.cache.smc s.alive p s.cache.pstate j) := by
  rw [registerAll]
  split
  · exact h.register_grows hp j
  · exact h.grows_refl hp.2 j

theorem nextPage (h : s.Inv) (hp : s.Calls p now)
    (hst : s.step (.nextPage p now) = some s') : s'.Inv := by
  simp only [PollSys.step, if_pos hp] at hst
  have hreg : ({ s with
      cache := { s.cache with pstate := registerAll s.cache.smc s.alive p s.cache.pstate }
      clock := now } : PollSys).Inv :=
    h.of_grows hp.2 rfl (fun j => (h.ctime j).trans hp.2) (fun _ _ => id) (h.registerAll_grows hp)
  obtain ⟨-, hn⟩ | ⟨k, hk, -, -, hn⟩ :=
    nextPage_spec s.cache.smc s.alive p s.cache.pstate now
  · rw [hn] at hst
    cases hst
    exact hreg
  · rw [hn] at hst
    cases hst
    -- The reader is given page `k`: its entry there is no longer due, and nothing is owed.
    have hreg' : registerAll s.cache.smc s.alive p s.cache.pstate k =
        register s.cache.smc s.alive p s.cache.pstate k k := if_pos hk
    refine ⟨fun j r e ho hr he => ?_, fun r hr j e he => ?_, hreg.ctime, hreg.clock, hreg.zero⟩
    · have ho : update s.owed k (update (s.owed k) p false) j r = true := ho
      have he : smStateEntry (update (registerAll s.cache.smc s.alive p s.cache.pstate) k _ j) r =
        some e := he
      by_cases hj : j = k
      · subst hj
        rw [update_self] at ho he
        by_cases hrp : r = p
        · rw [hrp, update_self] at ho
          cases ho
        · rw [update_of_ne hrp] at ho
          rw [smStateEntry_write_ne _ hrp, ← hreg'] at he
          exact hreg.owed j r e ho hr he
      · rw [update_of_ne hj] at ho he
        exact hreg.owed j r e ho hr he
    · have he : smStateEntry (update (registerAll s.cache.smc s.alive p s.cache.pstate) k _ j) r =
        some e := he
      by_cases hj : j = k
      · subst hj
        rw [update_self] at he
        by_cases hrp : r = p
        · rw [hrp, smStateEntry_set _ (SetCall.utime now).write_pid, ← hreg'] at he
          obtain ⟨e₀, he₀, rfl⟩ := Option.map_eq_some_iff.mp he
          exact hreg.past r hr j e₀ (hrp ▸ he₀)
        · rw [smStateEntry_write_ne _ hrp, ← hreg'] at he
          exact hreg.past r hr j e he
      · rw [update_of_ne hj] at he
        exact hreg.past r hr j e he

theorem getPage_pdata {smc smc' : SmCache} {type size : Int} {attach lock : Bool} {env : GetEnv}
    {pnum : Nat} (h : smcGetPage smc type size attach lock env = some (smc', .page pnum)) :
    (∀ j, j ≠ pnum → smc'.pdata j = smc.pdata j) ∧ (smc'.pdata pnum).ctime = env.time := by
  unfold smcGetPage at h
  split at h
  · cases h
  · split at h
    · cases h
    · simp only at h
      obtain ⟨-, h⟩ := Option.ite_none_right_eq_some.mp h
      have ho := Option.some.inj h
      unfold SmCache.openPage at ho
      simp only at ho
      split at ho
      · cases ho
      · split at ho
        · cases ho
        · split at ho
          · cases ho
          · cases ho
            exact ⟨fun j hj => by simp [SmCache.setPage, hj], by simp [SmCache.setPage, newPage]⟩

theorem getPage (h : s.Inv) {type size : Int} {lock : Bool} {env : GetEnv} {addr : Nat}
    (hst : s.step (.getPage type size lock env addr now) = some s') : s'.Inv := by
  simp only [PollSys.step] at hst
  obtain ⟨⟨hp, hle⟩, hst⟩ := Option.ite_none_right_eq_some.mp hst
  split at hst
  · rename_i smc pnum hg
    cases hst
    obtain ⟨hother, hct⟩ := getPage_pdata hg
    have hle' : s.clock ≤ now := hp.2.trans hle
    refine h.of_grows hle' rfl (fun j => ?_) (fun j r ho => ?_) (h.grows_update hle' ?_)
    · by_cases hj : j = pnum
      · rw [hj]
        exact hct ▸ hle
      · exact (hother j hj).symm ▸ (h.ctime j).trans hle'
    · by_cases hj : j = pnum
      · rw [hj] at ho
        have ho : update s.owed pnum (fun _ => false) pnum r = true := ho
        rw [update_self] at ho
        cases ho
      · have ho : update s.owed pnum (fun _ => false) j r = true := ho
        rwa [update_of_ne hj] at ho
    · -- The new array has the entry of the creator only.
      have hnone : ∀ r, s.alive r = true → smStateEntry smStateInit r = none := by
        intro r hr
        rw [smStateEntry, List.find?_eq_none]
        intro e he
        rw [List.eq_of_mem_replicate he, beq_iff_eq]
        rintro rfl
        rw [h.zero] at hr
        cases hr
      have hempty : Grows s.alive now (s.cache.pstate pnum) smStateInit := by
        intro r e hr he
        rw [hnone r hr] at he
        cases he
      exact hempty.add h.zero hp.1 rfl (le_refl now) addr true
  · cases hst

theorem step (h : s.Inv) {act : PollAct} (hok : act.Ok s) (hst : s.step act = some s') : s'.Inv := by
  cases act with
  | getPage type size lock env addr now => exact h.getPage hst
  | attach p i addr base now =>
    obtain ⟨hp, hst⟩ := Option.ite_none_right_eq_some.mp hst
    cases hst
    exact h.attach hp addr base
  | detach p i now =>
    obtain ⟨hp, hst⟩ := Option.ite_none_right_eq_some.mp hst
    cases hst
    exact h.detach hp.2 hok
  | lock p i =>
    obtain ⟨-, hst⟩ := Option.ite_none_right_eq_some.mp hst
    cases hst
    exact h.of_grows (le_refl _) rfl
      (fun j => (setLocked_ctime s.cache.smc i j true).le.trans (h.ctime j)) (fun _ _ => id)
      (h.grows_refl (le_refl _))
  | modify p i v =>
    obtain ⟨-, hst⟩ := Option.ite_none_right_eq_some.mp hst
    cases hst
    exact ⟨h.owed, h.past, h.ctime, h.clock, h.zero⟩
  | unlock p i now =>
    obtain ⟨hp, hst⟩ := Option.ite_none_right_eq_some.mp hst
    cases hst
    exact (h.unlocked hp.2 p i).endCycle fun hc r e hr he => h.due_unlock hp.2 hok hc hr he
  | nextPage p now =>
    have hp : s.Calls p now := (Option.ite_none_right_eq_some.mp hst).1
    exact h.nextPage hp hst
  | die p =>
    cases hst
    -- There are fewer readers now.
    have hless : ∀ r, update s.alive p false r = true → s.alive r = true := by
      intro r hr
      by_cases hrp : r = p
      · rw [hrp, update_self] at hr
        cases hr
      · rwa [update_of_ne hrp] at hr
    refine ⟨fun i r e ho hr he => h.owed i r e ho (hless r hr) he,
      fun r hr => h.past r (hless r hr), h.ctime, h.clock, ?_⟩
    refine Bool.eq_false_iff.mpr fun h0 => ?_
    have := hless 0 h0
    rw [h.zero] at this
    cases this

/-- A page that a reader is owed is waiting for it. -/
theorem delivers (h : s.Inv) : s.Delivers := by
  intro i r ho hr hreg hi hopen
  obtain ⟨e, he⟩ := Option.isSome_iff_exists.mp hreg
  have hne : r ≠ 0 := by
    rintro rfl
    rw [h.zero] at hr
    cases hr
  have hw : Waiting (s.cache.pstate i) r := .inr ((due_of_entry he).mpr (h.owed i r e ho hr he))
  refine ⟨fun ts hend => drain_mem hi hopen hne ts _ hw hend, fun ts hfit hmono hlen => ?_⟩
  refine drain_mem hi hopen hne ts _ hw
    (drain_ends hne ts _ s.clock h.clock (h.past r hr) h.ctime hfit hmono ?_)
  exact lt_of_le_of_lt (waiting_card_le _ _ _) hlen

end PollSys.Inv

/-! ## Runs -/

/-- A reader gets every update of a page, in every state of a run whose unlocks leave the page due for
every reader. -/
theorem updates_delivered (cachePath : String) (segHdr : Int) (memAllocated memAvail : BitVec 32)
    (t : Rat) (ht : 0 < t) (acts : List PollAct)
    (hok : Steps (fun s act => act.Ok s) PollSys.step
      (PollSys.start (SmCache.start cachePath segHdr memAllocated memAvail) t) acts)
    (s : PollSys)
    (hs : run PollSys.step (PollSys.start (SmCache.start cachePath segHdr memAllocated memAvail) t)
      acts = some s) : s.Delivers := by
  have h : s.Inv := Steps.run_inv (fun _ _ _ h hok hst => h.step hok hst)
    (PollSys.Inv.start (fun _ => ht.le) ht) hok hs
  exact h.delivers

/-- Process 1 sets up a page and process 2 is given it. Then process 1 locks the page, modifies it and
unlocks it, and process 2 polls: it gets `NULL`. -/
theorem update_not_delivered :
    ∃ s, run PollSys.step (PollSys.start (SmCache.start "/tmp/.smc" 200 0 0) 1)
      [.getPage 2 1000 true ⟨1, 1, true, true, 17, true⟩ 0 1, .modify 1 0 5, .unlock 1 0 2,
       .nextPage 2 3, .lock 1 0, .modify 1 0 6, .unlock 1 0 4] = some s ∧ ¬ s.Delivers := by
  have hrun : (run PollSys.step (PollSys.start (SmCache.start "/tmp/.smc" 200 0 0) 1)
      [.getPage 2 1000 true ⟨1, 1, true, true, 17, true⟩ 0 1, .modify 1 0 5, .unlock 1 0 2,
       .nextPage 2 3, .lock 1 0, .modify 1 0 6, .unlock 1 0 4]).map (fun s =>
      ((s.owed 0 2, s.alive 2, (smStateEntry (s.cache.pstate 0) 2).isSome), s.cache.smc.top,
        ((s.cache.smc.pdata 0).memKey, (s.cache.smc.pdata 0).acLocked), s.drains 2 [5])) =
      some ((true, true, true), 1, (17, false), ([], true)) := by decide +kernel
  obtain ⟨s, hs, he⟩ := Option.map_eq_some_iff.mp hrun
  simp only [Prod.mk.injEq] at he
  obtain ⟨⟨ho, ha, hreg⟩, htop, ⟨hkey, hlock⟩, hdrain⟩ := he
  refine ⟨s, hs, fun hd => ?_⟩
  have := (hd 0 2 ho ha hreg (by rw [htop]; decide) ⟨by rw [hkey]; decide, hlock⟩).1 [5]
  rw [Prod.ext_iff] at hdrain
  rw [hdrain.1, hdrain.2] at this
  exact absurd (this rfl) List.not_mem_nil

/-- No reader has been given the page: its first unlock leaves it due. -/
theorem PollSys.UnlockOk.of_unread {s : PollSys} {p i : Nat} {now : Rat}
    (h : ((s.cache.pstate i).all fun e => e.utime == 0) = true) : s.UnlockOk p i now := by
  intro _ r e _ he
  have hall := List.all_eq_true.mp h e (List.mem_of_find?_eq_some he)
  exact .inl (.inl (by simpa using hall))

/-- Process 1 sets up a page and process 2 is given it. Then process 1 sets up another one, and process 2 gets it in
the polls to come. -/
theorem updates_delivered_two :
    ∃ s, run PollSys.step (PollSys.start (SmCache.start "/tmp/.smc" 200 0 0) 1)
      [.getPage 2 1000 true ⟨1, 1, true, true, 17, true⟩ 0 1, .modify 1 0 5, .unlock 1 0 2, .nextPage 2 3,
       .getPage 1 4000 true ⟨1, 3, true, true, 18, true⟩ 0 3, .nextPage 2 4, .modify 1 1 6, .unlock 1 1 5] = some s ∧
      s.owed 0 2 = false ∧ s.owed 1 2 = true ∧ s.Delivers ∧ 1 ∈ (s.drains 2 [6, 7]).1 := by
  let acts : List PollAct :=
    [.getPage 2 1000 true ⟨1, 1, true, true, 17, true⟩ 0 1, .modify 1 0 5, .unlock 1 0 2, .nextPage 2 3,
     .getPage 1 4000 true ⟨1, 3, true, true, 18, true⟩ 0 3, .nextPage 2 4, .modify 1 1 6, .unlock 1 1 5]
  let unread (s : PollSys) (act : PollAct) : Prop :=
    (match act with
      | .unlock _ i _ => (s.cache.pstate i).all fun e => e.utime == 0
      | .detach .. => false
      | _ => true) = true
  have hunread : Steps unread PollSys.step (PollSys.start (SmCache.start "/tmp/.smc" 200 0 0) 1) acts := by
    decide +kernel
  have hok : Steps (fun s act => act.Ok s) PollSys.step (PollSys.start (SmCache.start "/tmp/.smc" 200 0 0) 1) acts := by
    refine Steps.mono (I := fun _ => True) (fun _ _ _ _ _ _ => trivial) (fun s act _ h => ?_) trivial hunread
    cases act with
    | unlock p i now => exact .of_unread h
    | detach p i now => cases h
    | _ => trivial
  have hrun : (run PollSys.step (PollSys.start (SmCache.start "/tmp/.smc" 200 0 0) 1) acts).map (fun s =>
      ((s.owed 0 2, s.owed 1 2, s.alive 2, (smStateEntry (s.cache.pstate 1) 2).isSome), s.cache.smc.top,
        ((s.cache.smc.pdata 1).memKey, (s.cache.smc.pdata 1).acLocked), (s.drains 2 [6, 7]).2)) =
      some ((false, true, true, true), 2, (18, false), true) := by decide +kernel
  obtain ⟨s, hs, he⟩ := Option.map_eq_some_iff.mp hrun
  simp only [Prod.mk.injEq] at he
  obtain ⟨⟨hno, ho, ha, hreg⟩, htop, ⟨hkey, hlock⟩, hend⟩ := he
  have hd := updates_delivered "/tmp/.smc" 200 0 0 1 (by decide) acts hok s hs
  exact ⟨s, hs, hno, ho, hd,
    (hd 1 2 ho ha hreg (by rw [htop]; decide) ⟨by rw [hkey]; decide, hlock⟩).1 [6, 7] hend⟩

end Ndhs
