import Ndhs.Lib.Loop
import Ndhs.Smc.State
import Ndhs.Smc.Table
import Mathlib.Data.Finset.Card
import Mathlib.Data.Finset.Range

/-!
# Polling for pages (`lib/smc/smCache.c`)

A reader asks for the next page with `smcNextPage`. Every page has a state array (`Smc/State.lean`)
with an entry for each process that uses it: `ltime` is the time that the process last modified the
page and `utime` the time that the page was last given to it. A page is due for a process if its
`utime` there is zero or less than its `ltime`.

`PollCache` is the page table of `Smc/Table.lean` with the state array of each page (`pstate`). The
time of a call (`smUtilTime`) is an argument of it, and so is the calling process.

* `nextPage_spec`: `smcNextPage` enters the process in the state array of every page below `top` and
  returns a page that is due, if there is one.
* `drain_mem`: calling it until it returns `NULL` gives every page that was due.
* `drain_ends`: it does return `NULL`, if the clock does not go back and every page has room for the
  process.
-/

namespace Ndhs

open Function Loop

section Entry

variable {alive : Nat → Bool} {sa : List SmState} {p q : Nat}

/-- The entry at the index that `smStateLookupByPid` returns. -/
def smStateEntry (sa : List SmState) (pid : Nat) : Option SmState := sa.find? fun s => s.pid == pid

/-- `smStateGetUTime` -/
def smStateGetUTime (sa : List SmState) (pid : Nat) : Rat := ((smStateEntry sa pid).map (·.utime)).getD 0

/-- `smStateGetLTime` -/
def smStateGetLTime (sa : List SmState) (pid : Nat) : Rat := ((smStateEntry sa pid).map (·.ltime)).getD 0

/-- `smStateGetAttached` -/
def smStateGetAttached (sa : List SmState) (pid : Nat) : Int :=
  ((smStateEntry sa pid).map (·.attached)).getD 0

theorem smStateEntry_cons (a : SmState) :
    smStateEntry (a :: sa) p = if a.pid = p then some a else smStateEntry sa p := by
  by_cases h : a.pid = p <;> simp [smStateEntry, h]

theorem smStateEntry_set (f : SmState → SmState) (hf : ∀ s, (f s).pid = s.pid) :
    smStateEntry (smStateSet sa p f) p = (smStateEntry sa p).map f := by
  induction sa with
  | nil => rfl
  | cons a sa ih =>
    rw [smStateSet_cons, smStateEntry_cons]
    by_cases h : a.pid = p
    · rw [if_pos h, if_pos h, smStateEntry_cons, if_pos ((hf a).trans h)]
      rfl
    · rw [if_neg h, if_neg h, smStateEntry_cons, if_neg h, ih]

/-- Writing to another entry. The written entry may get another pid. -/
theorem smStateEntry_set_ne (f : SmState → SmState) (hp : q ≠ p)
    (hf : ∀ s, s.pid = p → (f s).pid ≠ q) :
    smStateEntry (smStateSet sa p f) q = smStateEntry sa q := by
  induction sa with
  | nil => rfl
  | cons a sa ih =>
    rw [smStateSet_cons, smStateEntry_cons]
    by_cases h : a.pid = p
    · rw [if_pos h, smStateEntry_cons, if_neg (hf a h), if_neg (h ▸ hp.symm)]
    · rw [if_neg h, smStateEntry_cons, ih]

theorem smStateEntry_write_ne (c : SetCall) (hp : q ≠ p) :
    smStateEntry (smStateSet sa p c.write) q = smStateEntry sa q :=
  smStateEntry_set_ne _ hp fun s hs => by rw [c.write_pid, hs]; exact hp.symm

theorem smStateEntry_clean (hq : alive q = true) (h0 : alive 0 = false) :
    smStateEntry (smStateClean alive sa) q = smStateEntry sa q := by
  induction sa with
  | nil => rfl
  | cons a sa ih =>
    rw [smStateClean]
    split
    · rfl
    · rw [smStateEntry_cons, smStateEntry_cons, ih]
      cases ha : alive a.pid with
      | true => rw [if_pos rfl]
      | false =>
        have hne : a.pid ≠ q := by
          rintro rfl
          rw [hq] at ha
          cases ha
        have hne0 : (0 : Nat) ≠ q := by
          rintro rfl
          rw [hq] at h0
          cases h0
        rw [if_neg hne]
        exact if_neg hne0

theorem defined_clean (h : smStateDefined sa p = false) :
    smStateDefined (smStateClean alive sa) p = false := by
  induction sa with
  | nil => rfl
  | cons a sa ih =>
    rw [smStateClean]
    by_cases h0 : a.pid = 0
    · rw [if_pos h0]
      exact h
    · rw [smStateDefined, if_neg h0] at h
      rw [if_neg h0]
      by_cases hp : a.pid = p
      · rw [if_pos hp] at h
        cases h
      · rw [if_neg hp] at h
        cases ha : alive a.pid with
        | true => rw [if_pos rfl, smStateDefined, if_neg h0, if_neg hp, ih h]
        | false => rfl

/-- The entry that `smStateAdd` fills in. -/
def newEntry (pid : Nat) (atime : Rat) (addr : Nat) (attached : Bool) (s : SmState) : SmState :=
  { s with
    pid := pid
    atime := if attached then atime else 0
    ltime := atime
    utime := 0
    addr := addr
    attached := if attached then 1 else 0 }

/-- A process that `smStateDefined` does not find is entered in the first empty entry. -/
theorem smStateAdd_eq (h : smStateDefined sa p = false) (atime : Rat) (addr : Nat) (attached : Bool) :
    smStateAdd alive sa p atime addr attached =
      smStateSet (smStateClean alive sa) 0 (newEntry p atime addr attached) := by
  rw [smStateAdd]
  simp only [defined_clean h, Bool.false_eq_true, if_false]
  rfl

/-- The scan of `smStateDefined` ends at the first empty entry, so a process that it does not find has
no entry before it. -/
theorem entry_fill (h : smStateDefined sa p = false) (h0 : p ≠ 0) (f : SmState → SmState)
    (hf : ∀ s, (f s).pid = p) (hz : ∃ s ∈ sa, s.pid = 0) :
    smStateDefined (smStateSet sa 0 f) p = true ∧
      ∃ s, smStateEntry (smStateSet sa 0 f) p = some (f s) := by
  induction sa with
  | nil => simp at hz
  | cons a sa ih =>
    rw [smStateSet_cons]
    by_cases ha : a.pid = 0
    · rw [if_pos ha, smStateDefined, smStateEntry_cons, hf, if_neg h0, if_pos rfl, if_pos rfl]
      exact ⟨rfl, a, rfl⟩
    · rw [smStateDefined, if_neg ha] at h
      by_cases hp : a.pid = p
      · rw [if_pos hp] at h
        cases h
      · rw [if_neg hp] at h
        rw [if_neg ha, smStateDefined, if_neg ha, if_neg hp, smStateEntry_cons, if_neg hp]
        obtain ⟨s, hs, hs0⟩ := hz
        obtain rfl | hs := List.mem_cons.mp hs
        · exact absurd hs0 ha
        · exact ih h ⟨s, hs, hs0⟩

/-- A full array without the process. -/
theorem entry_full (h : smStateDefined sa p = false) (hz : ¬ ∃ s ∈ sa, s.pid = 0) :
    smStateEntry sa p = none := by
  induction sa with
  | nil => rfl
  | cons a sa ih =>
    have ha : a.pid ≠ 0 := fun ha => hz ⟨a, List.mem_cons_self, ha⟩
    rw [smStateDefined, if_neg ha] at h
    by_cases hp : a.pid = p
    · rw [if_pos hp] at h
      cases h
    · rw [if_neg hp] at h
      rw [smStateEntry_cons, if_neg hp]
      refine ih h ?_
      rintro ⟨s, hs, hs0⟩
      exact hz ⟨s, List.mem_cons_of_mem a hs, hs0⟩

theorem entry_of_defined (h : smStateDefined sa p = true) : ∃ e, smStateEntry sa p = some e := by
  obtain ⟨e, he, hp⟩ := mem_of_defined h
  exact Option.isSome_iff_exists.mp (List.find?_isSome.mpr ⟨e, he, by simpa using hp⟩)

/-- The array has an empty entry once it is cleaned. -/
def HasRoom (alive : Nat → Bool) (sa : List SmState) : Prop := ∃ s ∈ smStateClean alive sa, s.pid = 0

section Add

variable (atime : Rat) (addr : Nat) (attached : Bool)

theorem entry_add_ne (h : smStateDefined sa p = false) (hqp : q ≠ p) (hq : alive q = true)
    (h0 : alive 0 = false) :
    smStateEntry (smStateAdd alive sa p atime addr attached) q = smStateEntry sa q := by
  have hne : q ≠ 0 := by
    rintro rfl
    rw [hq] at h0
    cases h0
  rw [smStateAdd_eq h, smStateEntry_set_ne _ hne fun _ _ => hqp.symm, smStateEntry_clean hq h0]

theorem entry_add (h : smStateDefined sa p = false) (h0 : p ≠ 0) (hr : HasRoom alive sa) :
    smStateDefined (smStateAdd alive sa p atime addr attached) p = true ∧
      ∃ e, smStateEntry (smStateAdd alive sa p atime addr attached) p = some e ∧
        e.utime = 0 ∧ e.ltime = atime := by
  rw [smStateAdd_eq h]
  obtain ⟨hd, s, hs⟩ := entry_fill (defined_clean h) h0 (newEntry p atime addr attached)
    (fun _ => rfl) hr
  exact ⟨hd, _, hs, rfl, rfl⟩

theorem entry_add_full (h : smStateDefined sa p = false) (hr : ¬ HasRoom alive sa) :
    smStateEntry (smStateAdd alive sa p atime addr attached) p = none := by
  have hset : smStateSet (smStateClean alive sa) 0 (newEntry p atime addr attached) =
      smStateClean alive sa := by
    have hn : smStateLookupByPid (smStateClean alive sa) 0 = none := by
      rw [← Option.not_isSome_iff_eq_none, lookup_isSome]
      exact hr
    rw [smStateSet, hn]
  rw [smStateAdd_eq h, hset]
  exact entry_full (defined_clean h) hr

/-- The process has no entry, or a new one. -/
theorem entry_add_cases (alive : Nat → Bool) (h : smStateDefined sa p = false) (h0 : p ≠ 0) :
    smStateEntry (smStateAdd alive sa p atime addr attached) p = none ∨
      ∃ e, smStateEntry (smStateAdd alive sa p atime addr attached) p = some e ∧
        e.utime = 0 ∧ e.ltime = atime := by
  by_cases hr : HasRoom alive sa
  · exact .inr (entry_add atime addr attached h h0 hr).2
  · exact .inl (entry_add_full atime addr attached h hr)

end Add

theorem defined_set (f : SmState → SmState) (hf : ∀ s, (f s).pid = s.pid) :
    smStateDefined (smStateSet sa q f) p = smStateDefined sa p := by
  induction sa with
  | nil => rfl
  | cons a sa ih =>
    rw [smStateSet_cons]
    by_cases h : a.pid = q
    · rw [if_pos h, smStateDefined, smStateDefined, hf]
    · rw [if_neg h, smStateDefined, smStateDefined, ih]

/-- The process has not been given the page since it last changed there. -/
def SmState.Due (e : SmState) : Prop := e.utime = 0 ∨ e.utime < e.ltime

/-- The test of `smcNextPage` for a page. -/
def Due (sa : List SmState) (pid : Nat) : Prop :=
  smStateGetUTime sa pid = 0 ∨ smStateGetUTime sa pid < smStateGetLTime sa pid

theorem due_of_entry {e : SmState} (h : smStateEntry sa p = some e) : Due sa p ↔ e.Due := by
  rw [Due, smStateGetUTime, smStateGetLTime, h]
  rfl

theorem due_of_none (h : smStateEntry sa p = none) : Due sa p := by
  rw [Due, smStateGetUTime, h]
  exact .inl rfl

end Entry

/-! ## `smcNextPage` -/

/-- The state arrays of the pages, by slot. -/
abbrev PState := Nat → List SmState

section Poll

variable (smc : SmCache) (alive : Nat → Bool) (r : Nat)

/-- Enter the process in the state array of the page in slot `i`, if it is not there. -/
def register (ps : PState) (i : Nat) : PState :=
  if smStateDefined (ps i) r then ps
  else update ps i (smStateAdd alive (ps i) r (smc.pdata i).ctime i false)

/-- One round of the loop in `smcNextPage`, with the variable `oldest`. -/
def nextRound (s : PState × Option Nat) (i : Nat) : PState × Option Nat :=
  let ps := register smc alive r s.1 i
  let oldest := s.2.getD i
  if (smc.pdata i).memKey = 0 ∨ (smc.pdata i).acLocked = true then (ps, s.2)
  else if smStateGetUTime (ps i) r = 0 then
    (ps, some (if smStateGetLTime (ps i) r < smStateGetLTime (ps oldest) r then i else oldest))
  else if smStateGetUTime (ps i) r < smStateGetLTime (ps i) r then
    (ps, some (if smStateGetUTime (ps i) r < smStateGetUTime (ps oldest) r then i else oldest))
  else (ps, s.2)

/-- `smcNextPage (smc, 0)` of the process `r` at the time `now`: the page, by its slot, or `NULL`. -/
def smcNextPage (ps : PState) (now : Rat) : PState × Option Nat :=
  let s := (List.range smc.top.toNat).foldl (nextRound smc alive r) (ps, none)
  match s.2 with
  | none => s
  | some i => (update s.1 i (smStateSet (s.1 i) r (SetCall.utime now).write), some i)

/-- `smcNextPage` is called until it returns `NULL`, at the times given: the pages it returned, and
whether it did return `NULL`. -/
def drain : PState → List Rat → List Nat × Bool
  | _, [] => ([], false)
  | ps, now :: ts =>
    match smcNextPage smc alive r ps now with
    | (_, none) => ([], true)
    | (ps, some i) => (i :: (drain ps ts).1, (drain ps ts).2)

/-- The page may be returned: the slot holds one and it is not locked. -/
def SmCache.Open (i : Nat) : Prop := (smc.pdata i).memKey ≠ 0 ∧ (smc.pdata i).acLocked = false

/-- The state arrays after the loop. -/
def registerAll (ps : PState) : PState := fun j =>
  if j < smc.top.toNat then register smc alive r ps j j else ps j

variable {smc alive r}

theorem register_apply (ps : PState) (i : Nat) :
    register smc alive r ps i i = if smStateDefined (ps i) r then ps i
      else smStateAdd alive (ps i) r (smc.pdata i).ctime i false := by
  rw [register]
  split
  · rfl
  · rw [update_self]

theorem register_of_ne (ps : PState) {i j : Nat} (h : j ≠ i) : register smc alive r ps i j = ps j := by
  rw [register]
  split
  · rfl
  · rw [update_of_ne h]

theorem register_congr {ps ps' : PState} {i : Nat} (h : ps i = ps' i) :
    register smc alive r ps i i = register smc alive r ps' i i := by
  rw [register_apply, register_apply, h]

/-- What one round does to `oldest`. -/
theorem nextRound_oldest (smc : SmCache) (alive : Nat → Bool) (r : Nat) (s : PState × Option Nat)
    (i : Nat) :
    (smc.Open i ∧ Due (register smc alive r s.1 i i) r ∧
      ∃ k, (k = i ∨ s.2 = some k) ∧ (nextRound smc alive r s i).2 = some k) ∨
    (¬ (smc.Open i ∧ Due (register smc alive r s.1 i i) r) ∧ (nextRound smc alive r s i).2 = s.2) := by
  have hk : ∀ c : Prop, ∀ _ : Decidable c, ∃ k, (k = i ∨ s.2 = some k) ∧
      some (if c then i else s.2.getD i) = some k := by
    intro c _
    split
    · exact ⟨i, .inl rfl, rfl⟩
    · cases h : s.2 with
      | none => exact ⟨i, .inl rfl, rfl⟩
      | some k => exact ⟨k, .inr rfl, rfl⟩
  unfold nextRound
  simp only
  split
  · rename_i hc
    refine .inr ⟨fun ho => ?_, rfl⟩
    rcases hc with hc | hc
    · exact ho.1.1 hc
    · rw [ho.1.2] at hc
      cases hc
  · rename_i hc
    rw [not_or, Bool.not_eq_true] at hc
    split
    · rename_i hu
      exact .inl ⟨hc, .inl hu, hk _ _⟩
    · rename_i hu
      split
      · rename_i hlt
        exact .inl ⟨hc, .inr hlt, hk _ _⟩
      · rename_i hlt
        exact .inr ⟨fun ho => ho.2.elim hu hlt, rfl⟩

theorem nextRound_pstate (s : PState × Option Nat) (i : Nat) :
    (nextRound smc alive r s i).1 = register smc alive r s.1 i := by
  unfold nextRound
  simp only
  split
  · rfl
  · split
    · rfl
    · split <;> rfl

/-- The loop of `smcNextPage`: `oldest` is a page that is due, if there is one. -/
theorem nextLoop_spec (smc : SmCache) (alive : Nat → Bool) (r : Nat) (ps : PState) (n : Nat) :
    (((List.range n).foldl (nextRound smc alive r) (ps, none)).1 = fun j =>
        if j < n then register smc alive r ps j j else ps j) ∧
    match ((List.range n).foldl (nextRound smc alive r) (ps, none)).2 with
    | none => ∀ j < n, ¬ (smc.Open j ∧ Due (register smc alive r ps j j) r)
    | some k => k < n ∧ smc.Open k ∧ Due (register smc alive r ps k k) r := by
  refine foldl_range_inv (I := fun i (s : PState × Option Nat) => (s.1 = fun j =>
      if j < i then register smc alive r ps j j else ps j) ∧
    match s.2 with
    | none => ∀ j < i, ¬ (smc.Open j ∧ Due (register smc alive r ps j j) r)
    | some k => k < i ∧ smc.Open k ∧ Due (register smc alive r ps k k) r) ⟨?_, ?_⟩ ?_
  · funext j
    simp
  · intro j hj
    cases hj
  · rintro i ⟨ps', o⟩ - ⟨hps, ho⟩
    simp only at hps ho
    have hreg : register smc alive r ps' i i = register smc alive r ps i i :=
      register_congr (by rw [hps]; exact if_neg (Nat.lt_irrefl i))
    refine ⟨?_, ?_⟩
    · rw [nextRound_pstate]
      funext j
      by_cases hj : j = i
      · rw [hj, hreg, if_pos (Nat.lt_succ_self i)]
      · rw [register_of_ne _ hj, hps]
        exact if_congr (by omega) rfl rfl
    · obtain ⟨hop, hdue, k, hk, hn⟩ | ⟨hno, hn⟩ := nextRound_oldest smc alive r
        (ps', o) i
      · rw [hn]
        rcases hk with rfl | hk
        · exact ⟨Nat.lt_succ_self k, hop, hreg ▸ hdue⟩
        · simp only at hk
          rw [hk] at ho
          exact ⟨Nat.lt_succ_of_lt ho.1, ho.2⟩
      · rw [hn]
        rw [hreg] at hno
        cases o with
        | none =>
          intro j hj
          by_cases hji : j = i
          · rw [hji]
            exact hno
          · exact ho j (by omega)
        | some k => exact ⟨Nat.lt_succ_of_lt ho.1, ho.2⟩

/-- `smcNextPage` returns a page that is due and notes the time; `NULL` only if no page is due. -/
theorem nextPage_spec (smc : SmCache) (alive : Nat → Bool) (r : Nat) (ps : PState) (now : Rat) :
    ((∀ j < smc.top.toNat, ¬ (smc.Open j ∧ Due (register smc alive r ps j j) r)) ∧
      smcNextPage smc alive r ps now = (registerAll smc alive r ps, none)) ∨
    ∃ k < smc.top.toNat, smc.Open k ∧ Due (register smc alive r ps k k) r ∧
      smcNextPage smc alive r ps now =
        (update (registerAll smc alive r ps) k
          (smStateSet (register smc alive r ps k k) r (SetCall.utime now).write), some k) := by
  obtain ⟨hps, ho⟩ := nextLoop_spec smc alive r ps smc.top.toNat
  have hall : registerAll smc alive r ps = fun j =>
      if j < smc.top.toNat then register smc alive r ps j j else ps j := rfl
  rw [smcNextPage]
  generalize (List.range smc.top.toNat).foldl (nextRound smc alive r) (ps, none) = s at hps ho
  obtain ⟨ps', o⟩ := s
  simp only at hps ho
  subst hps
  cases o with
  | none => exact .inl ⟨ho, rfl⟩
  | some k =>
    refine .inr ⟨k, ho.1, ho.2.1, ho.2.2, ?_⟩
    simp only [hall, ho.1, if_true]

end Poll

/-! ## Calling it until it returns `NULL` -/

section Drain

variable {smc : SmCache} {alive : Nat → Bool} {r : Nat}

/-- The page will be due at the next call: also because the call enters the process anew. -/
def Waiting (sa : List SmState) (r : Nat) : Prop := smStateDefined sa r = false ∨ Due sa r

theorem due_register {ps : PState} {i : Nat} (h0 : r ≠ 0) (h : Waiting (ps i) r) :
    Due (register smc alive r ps i i) r := by
  rw [register_apply]
  cases hd : smStateDefined (ps i) r with
  | true =>
    rw [if_pos rfl]
    exact h.resolve_left (by rw [hd]; exact Bool.noConfusion)
  | false =>
    rw [if_neg Bool.noConfusion]
    rcases entry_add_cases _ _ _ _ hd h0 with hn | ⟨e, he, hu, -⟩
    · exact due_of_none hn
    · exact (due_of_entry he).mpr (.inl hu)

theorem waiting_of_register {ps : PState} {i : Nat} (h : Waiting (register smc alive r ps i i) r) :
    Waiting (ps i) r := by
  cases hd : smStateDefined (ps i) r with
  | true =>
    rw [register_apply, if_pos hd] at h
    exact h
  | false => exact .inl hd

/-- A page that is due stays so until it is returned, and no call returns `NULL` before. -/
theorem drain_mem {i : Nat} (hi : i < smc.top.toNat) (ho : smc.Open i) (h0 : r ≠ 0) (ts : List Rat) :
    ∀ ps : PState, Waiting (ps i) r → (drain smc alive r ps ts).2 = true →
      i ∈ (drain smc alive r ps ts).1 := by
  induction ts with
  | nil =>
    intro ps _ h
    cases h
  | cons now ts ih =>
    intro ps hw hend
    obtain ⟨hno, -⟩ | ⟨k, -, -, -, hn⟩ := nextPage_spec smc alive r ps now
    · exact absurd ⟨ho, due_register h0 hw⟩ (hno i hi)
    · rw [drain, hn] at hend ⊢
      by_cases hk : i = k
      · exact List.mem_cons.mpr (.inl hk)
      · refine List.mem_cons_of_mem _ (ih _ ?_ hend)
        rw [update_of_ne hk, registerAll, if_pos hi]
        exact .inr (due_register h0 hw)

/-- The process is in the page's state array, or there is room for it. -/
def Fits (alive : Nat → Bool) (sa : List SmState) (r : Nat) : Prop :=
  smStateDefined sa r = true ∨ HasRoom alive sa

theorem defined_register (smc : SmCache) {ps : PState} {i : Nat} (h0 : r ≠ 0) (h : Fits alive (ps i) r) :
    smStateDefined (register smc alive r ps i i) r = true := by
  rw [register_apply]
  cases hd : smStateDefined (ps i) r with
  | true => rw [if_pos rfl, hd]
  | false =>
    rw [if_neg Bool.noConfusion]
    exact (entry_add _ _ _ hd h0 (h.resolve_left (by rw [hd]; exact Bool.noConfusion))).1

/-- The times of `r`'s entries are in the past. -/
def Past (r : Nat) (ps : PState) (t : Rat) : Prop := ∀ i e, smStateEntry (ps i) r = some e → e.ltime ≤ t

theorem Past.register {ps : PState} {t : Rat} (h : Past r ps t) (h0 : r ≠ 0) {i : Nat}
    (hc : (smc.pdata i).ctime ≤ t) {e : SmState}
    (he : smStateEntry (register smc alive r ps i i) r = some e) : e.ltime ≤ t := by
  rw [register_apply] at he
  cases hd : smStateDefined (ps i) r with
  | true =>
    rw [if_pos hd] at he
    exact h i e he
  | false =>
    rw [hd, if_neg Bool.noConfusion] at he
    rcases entry_add_cases (smc.pdata i).ctime i false alive hd h0 with hn | ⟨e', he', -, hl⟩
    · rw [hn] at he
      cases he
    · rw [he'] at he
      cases he
      rw [hl]
      exact hc

open Classical in
/-- The pages that are waiting for the process. -/
noncomputable def waiting (smc : SmCache) (r : Nat) (ps : PState) : Finset Nat :=
  (Finset.range smc.top.toNat).filter fun i => smc.Open i ∧ Waiting (ps i) r

/-- The state arrays after `smcNextPage` has returned the page in slot `k`. -/
def afterNext (smc : SmCache) (alive : Nat → Bool) (r : Nat) (ps : PState) (k : Nat) (now : Rat) : PState :=
  update (registerAll smc alive r ps) k
    (smStateSet (register smc alive r ps k k) r (SetCall.utime now).write)

section After

variable {ps : PState} {k : Nat} {t now : Rat}

theorem afterNext_of_ne {i : Nat} (hi : i < smc.top.toNat) (hk : i ≠ k) :
    afterNext smc alive r ps k now i = register smc alive r ps i i := by
  rw [afterNext, update_of_ne hk, registerAll, if_pos hi]

theorem entry_afterNext (smc : SmCache) (alive : Nat → Bool) (r : Nat) (ps : PState) (k : Nat) (now : Rat) :
    smStateEntry (afterNext smc alive r ps k now k) r =
    (smStateEntry (register smc alive r ps k k) r).map (SetCall.utime now).write := by
  rw [afterNext, update_self, smStateEntry_set _ (SetCall.utime now).write_pid]

theorem defined_afterNext (h0 : r ≠ 0) (hk : Fits alive (ps k) r) :
    smStateDefined (afterNext smc alive r ps k now k) r = true := by
  rw [afterNext, update_self, defined_set _ (SetCall.utime now).write_pid]
  exact defined_register smc h0 hk

theorem Past.afterNext (h : Past r ps t) (h0 : r ≠ 0) (hct : ∀ i, (smc.pdata i).ctime ≤ t)
    (hle : t ≤ now) : Past r (afterNext smc alive r ps k now) now := by
  intro i e he
  by_cases hik : i = k
  · rw [hik, entry_afterNext] at he
    obtain ⟨e', he', rfl⟩ := Option.map_eq_some_iff.mp he
    exact (h.register h0 (hct k) he').trans hle
  · by_cases hi : i < smc.top.toNat
    · rw [afterNext_of_ne hi hik] at he
      exact (h.register h0 (hct i) he).trans hle
    · rw [Ndhs.afterNext, update_of_ne hik, registerAll, if_neg hi] at he
      exact (h i e he).trans hle

theorem fits_afterNext (h0 : r ≠ 0) (h : ∀ i < smc.top.toNat, Fits alive (ps i) r) {i : Nat}
    (hi : i < smc.top.toNat) : Fits alive (afterNext smc alive r ps k now i) r := by
  by_cases hik : i = k
  · subst hik
    exact .inl (defined_afterNext h0 (h i hi))
  · rw [afterNext_of_ne hi hik]
    exact .inl (defined_register smc h0 (h i hi))

/-- The page that was returned is no longer waiting. -/
theorem not_waiting_afterNext (h0 : r ≠ 0) (hpos : 0 < t) (hpast : Past r ps t)
    (hct : (smc.pdata k).ctime ≤ t) (hk : Fits alive (ps k) r) (hle : t ≤ now) :
    ¬ Waiting (afterNext smc alive r ps k now k) r := by
  rintro (hd | hdue)
  · rw [defined_afterNext h0 hk] at hd
    cases hd
  · obtain ⟨e, he⟩ := entry_of_defined (defined_register smc h0 hk)
    have hs := entry_afterNext smc alive r ps k now
    rw [he] at hs
    rcases (due_of_entry hs).mp hdue with hz | hlt
    · exact absurd hz (ne_of_gt (lt_of_lt_of_le hpos hle))
    · exact absurd hlt (not_lt.mpr ((hpast.register h0 hct he).trans hle))

theorem waiting_ssubset (h0 : r ≠ 0) (hpos : 0 < t) (hpast : Past r ps t)
    (hct : (smc.pdata k).ctime ≤ t) (hk : k < smc.top.toNat) (hfit : Fits alive (ps k) r) (hle : t ≤ now)
    (hop : smc.Open k) (hdue : Due (register smc alive r ps k k) r) :
    waiting smc r (afterNext smc alive r ps k now) ⊂ waiting smc r ps := by
  have hw : Waiting (ps k) r := waiting_of_register (.inr hdue)
  have hnot := not_waiting_afterNext h0 hpos hpast hct hfit hle
  refine Finset.ssubset_iff_of_subset (fun j hj => ?_) |>.mpr ⟨k, ?_, fun hmem => ?_⟩
  · simp only [waiting, Finset.mem_filter, Finset.mem_range] at hj ⊢
    refine ⟨hj.1, hj.2.1, ?_⟩
    by_cases hjk : j = k
    · exact hjk ▸ hw
    · rw [afterNext_of_ne hj.1 hjk] at hj
      exact waiting_of_register hj.2.2
  · simp only [waiting, Finset.mem_filter, Finset.mem_range]
    exact ⟨hk, hop, hw⟩
  · simp only [waiting, Finset.mem_filter, Finset.mem_range] at hmem
    exact hnot hmem.2.2

end After

/-- Every page that is returned is no longer waiting, so there are at most as many as were. -/
theorem drain_ends (h0 : r ≠ 0) (ts : List Rat) :
    ∀ (ps : PState) (t : Rat), 0 < t → Past r ps t → (∀ i, (smc.pdata i).ctime ≤ t) →
      (∀ i < smc.top.toNat, Fits alive (ps i) r) → (t :: ts).Pairwise (· ≤ ·) →
      (waiting smc r ps).card < ts.length → (drain smc alive r ps ts).2 = true := by
  induction ts with
  | nil =>
    intro ps t _ _ _ _ _ h
    cases h
  | cons now ts ih =>
    intro ps t hpos hpast hct hfit hmono hcard
    obtain ⟨hmin, hmono'⟩ := List.pairwise_cons.mp hmono
    have hle : t ≤ now := hmin now List.mem_cons_self
    obtain ⟨-, hn⟩ | ⟨k, hk, hop, hdue, hn⟩ :=
      nextPage_spec smc alive r ps now
    · rw [drain, hn]
    · rw [drain, hn]
      have hlt := Finset.card_lt_card
        (waiting_ssubset h0 hpos hpast (hct k) hk (hfit k hk) hle hop hdue)
      refine ih (afterNext smc alive r ps k now) now (lt_of_lt_of_le hpos hle)
        (hpast.afterNext h0 hct hle) (fun i => (hct i).trans hle)
        (fun i hi => fits_afterNext h0 hfit hi) hmono' ?_
      rw [List.length_cons] at hcard
      omega

theorem waiting_card_le (smc : SmCache) (r : Nat) (ps : PState) :
    (waiting smc r ps).card ≤ smc.top.toNat := by
  classical
  exact (Finset.card_filter_le _ _).trans (Finset.card_range _).le

end Drain

end Ndhs
