import Ndhs.Lib.Run
import Mathlib.Data.Fintype.Basic
import Mathlib.Logic.Function.Basic

/-!
# The cache's mutual exclusion lock (`smcMutexInit`, `smcMutexOn`, `smcMutexOff`)

The lock of `lib/smc/smCache.c` is a System V semaphore that all processes share and that outlives
them. Each process has its own `smc_sem_initialized`, and its first `smcMutexInit` makes two system
calls, `semget` and the `SETVAL` of `semctl`, between which the other processes run.

* `MutexSys.step`: one call by one process (`smcOpen`, `smcMutexOn`, `smcMutexOff`), or the next
  system call of a process that is inside one of them.
* `MutexSys.Holds p`: process `p` is between its `smcMutexOn` and its `smcMutexOff`: its wait on the
  semaphore is over and it did not signal it yet.
* `mutex_exclusive`: at most one process holds the lock in every run in which no process executes
  its `SETVAL` while some process holds the lock. A `SETVAL` at another time frees the lock under
  its holder (`mutex_broken_by_open`).
-/

namespace Ndhs

open Machine Function

/-- Where a process is with the lock. -/
inductive Place where
  | out
  /-- In `smcMutexOn`, before its `semop` has returned. -/
  | waiting
  /-- In its critical section. -/
  | inside
  /-- In `smcMutexOff`, before its `semop`. -/
  | leaving
  deriving DecidableEq, Repr

/-- Where a process is in `smcMutexInit`. -/
inductive InitStage where
  | none
  | semget
  | setval
  deriving DecidableEq, Repr

/-- A process: its place, its progress in `smcMutexInit` and its `smc_sem_initialized`. -/
structure MutexProc where
  place : Place := .out
  stage : InitStage := .none
  initialized : Bool := false

/-- The processes and the semaphore's value, if the semaphore exists. -/
structure MutexSys (P : Type) where
  proc : P → MutexProc
  sem : Option Nat

/-- What a process does next. -/
inductive MutexAct (P : Type) where
  | smcOpen (p : P)
  | smcMutexOn (p : P)
  | smcMutexOff (p : P)
  | sysCall (p : P)

/-- `smcMutexInit`: it returns at once if the process was here before. -/
def MutexProc.smcMutexInit (x : MutexProc) : MutexProc :=
  if x.initialized then x else { x with stage := .semget }

/-- One step of `x` with the semaphore `sem`: a call if the process is not in one, or its next
system call. `none`: the process has no such step now; a `semop` on the value zero waits. -/
def MutexProc.step (x : MutexProc) (sem : Option Nat) {P : Type} :
    MutexAct P → Option (MutexProc × Option Nat)
  | .smcOpen _ =>
    if x.stage = .none ∧ (x.place = .out ∨ x.place = .inside) then some (x.smcMutexInit, sem)
    else none
  | .smcMutexOn _ =>
    if x.stage = .none ∧ x.place = .out then some ({ x with place := .waiting }.smcMutexInit, sem)
    else none
  | .smcMutexOff _ =>
    if x.stage = .none ∧ x.place = .inside then
      some ({ x with place := .leaving }.smcMutexInit, sem)
    else none
  | .sysCall _ =>
    match x.stage, x.place, sem with
    -- `IPC_CREAT`: a new semaphore has the value zero
    | .semget, _, _ => some ({ x with stage := .setval }, some (sem.getD 0))
    | .setval, _, _ => some ({ x with stage := .none, initialized := true }, some 1)
    | .none, .waiting, some (v + 1) => some ({ x with place := .inside }, some v)
    | .none, .leaving, some v => some ({ x with place := .out }, some (v + 1))
    | .none, _, _ => none

def MutexAct.actor {P : Type} : MutexAct P → P
  | .smcOpen p | .smcMutexOn p | .smcMutexOff p | .sysCall p => p

variable {P : Type}

def MutexSys.step [DecidableEq P] (s : MutexSys P) (a : MutexAct P) : Option (MutexSys P) :=
  ((s.proc a.actor).step s.sem a).map fun (x, sem) => ⟨update s.proc a.actor x, sem⟩

/-- No process has started; the semaphore may be left over from earlier processes. -/
def MutexSys.start (sem : Option Nat) : MutexSys P := ⟨fun _ => {}, sem⟩

/-- The process is between its `smcMutexOn` and its `smcMutexOff`. -/
def MutexProc.holds (x : MutexProc) : Bool := x.place = .inside || x.place = .leaving

def MutexSys.Holds (s : MutexSys P) (p : P) : Prop := (s.proc p).holds = true

instance (s : MutexSys P) (p : P) : Decidable (s.Holds p) :=
  inferInstanceAs (Decidable (_ = true))

/-- The step is not a `SETVAL` while some process holds the lock. -/
def SetvalOk (s : MutexSys P) (a : MutexAct P) : Prop :=
  ∀ p, a = .sysCall p → (s.proc p).stage = .setval → ∀ q, ¬ s.Holds q

instance [Fintype P] (s : MutexSys P) (a : MutexAct P) : Decidable (SetvalOk s a) :=
  match a with
  | .sysCall p => decidable_of_iff ((s.proc p).stage = .setval → ∀ q, ¬ s.Holds q)
      ⟨fun h _ hp => MutexAct.sysCall.inj hp ▸ h, fun h => h p rfl⟩
  | .smcOpen _ | .smcMutexOn _ | .smcMutexOff _ => .isTrue fun _ h => nomatch h

/-! ## The invariant -/

/-- The semaphore's value and the holders of the lock. -/
structure MutexSys.Inv (s : MutexSys P) : Prop where
  /-- While a process holds the lock, the value is zero. -/
  held : ∀ p, s.Holds p → s.sem = some 0
  one : ∀ p q, s.Holds p → s.Holds q → p = q
  /-- After the first `SETVAL` the value is at most one. -/
  bound : ∀ p, (s.proc p).initialized = true → ∃ v, s.sem = some v ∧ v ≤ 1
  /-- Who is past `smcMutexInit` has initialized the semaphore. -/
  past : ∀ p, (s.proc p).stage = .none → (s.proc p).place ≠ .out → (s.proc p).initialized = true
  /-- Who is in `smcMutexInit` does not hold the lock. -/
  fresh : ∀ p, (s.proc p).stage ≠ .none → (s.proc p).initialized = false ∧ ¬ s.Holds p

theorem MutexSys.Inv.start (sem : Option Nat) : (MutexSys.start sem : MutexSys P).Inv := by
  constructor <;> simp [MutexSys.start, MutexSys.Holds, MutexProc.holds]

namespace MutexSys.Inv

variable [DecidableEq P] {s s' : MutexSys P} {a : MutexAct P} {p : P}

/-- What one process may do without regard to the others: a step that neither takes nor gives the
lock, and leaves the value as it is, keeps the invariant. -/
theorem update_same (h : s.Inv) {x : MutexProc} {sem : Option Nat}
    (hheld : x.holds = (s.proc p).holds) (hinit : x.initialized = (s.proc p).initialized)
    (hsem : sem = s.sem ∨ s.sem = none)
    (hpast : x.stage = .none → x.place ≠ .out → x.initialized = true)
    (hfresh : x.stage ≠ .none → x.initialized = false ∧ x.holds = false) :
    (⟨update s.proc p x, sem⟩ : MutexSys P).Inv := by
  have hh : ∀ q, (⟨update s.proc p x, sem⟩ : MutexSys P).Holds q ↔ s.Holds q := by
    intro q
    by_cases hq : q = p
    · subst hq; simp [Holds, hheld]
    · simp [Holds, hq]
  have hsem' : ∀ v, s.sem = some v → sem = some v := by
    rintro v hv
    obtain rfl | hn := hsem
    · exact hv
    · rw [hn] at hv; cases hv
  refine ⟨fun q hq => hsem' 0 (h.held q ((hh q).mp hq)),
    fun q r hq hr => h.one q r ((hh q).mp hq) ((hh r).mp hr), fun q hq => ?_, fun q => ?_,
    fun q => ?_⟩
  · have hq' : (s.proc q).initialized = true := by
      by_cases hqp : q = p
      · subst hqp; simpa [hinit] using hq
      · simpa [hqp] using hq
    obtain ⟨v, hv, hle⟩ := h.bound q hq'
    exact ⟨v, hsem' v hv, hle⟩
  · by_cases hqp : q = p
    · subst hqp; simpa using hpast
    · simpa [hqp] using h.past q
  · rw [hh]
    by_cases hqp : q = p
    · subst hqp
      have := hfresh
      simp only [update_self]
      exact fun hs => ⟨(this hs).1, by simpa [Holds, ← hheld] using (this hs).2⟩
    · simpa [hqp] using h.fresh q

/-- `SETVAL` with no holder. -/
theorem setval (h : s.Inv) (hno : ∀ q, ¬ s.Holds q) (hstage : (s.proc p).stage = .setval) :
    (⟨update s.proc p { s.proc p with stage := .none, initialized := true }, some 1⟩ :
      MutexSys P).Inv := by
  have hno' : ∀ q, ¬ (⟨update s.proc p { s.proc p with stage := .none, initialized := true },
      some 1⟩ : MutexSys P).Holds q := by
    intro q
    by_cases hq : q = p
    · subst hq; simpa [Holds, MutexProc.holds] using hno q
    · simpa [Holds, hq] using hno q
  refine ⟨fun q hq => absurd hq (hno' q), fun q _ hq => absurd hq (hno' q),
    fun _ _ => ⟨1, rfl, Nat.le_refl 1⟩, fun q => ?_, fun q => ?_⟩
  · by_cases hq : q = p
    · subst hq; simp
    · simpa [hq] using h.past q
  · by_cases hq : q = p
    · subst hq; simp
    · simpa [hq, hno' q] using fun hs => (h.fresh q hs).1

/-- The wait is over: the value was one, so no process held the lock. -/
theorem take (h : s.Inv) {v : Nat} (hstage : (s.proc p).stage = .none)
    (hplace : (s.proc p).place = .waiting) (hsem : s.sem = some (v + 1)) :
    (⟨update s.proc p { s.proc p with place := .inside }, some v⟩ : MutexSys P).Inv := by
  have hinit := h.past p hstage (by rw [hplace]; decide)
  obtain ⟨w, hw, hle⟩ := h.bound p hinit
  rw [hsem] at hw
  cases hw
  obtain rfl : v = 0 := by omega
  have hno : ∀ q, ¬ s.Holds q := fun q hq => by
    have := h.held q hq
    rw [hsem] at this
    cases this
  have honly : ∀ q, (⟨update s.proc p { s.proc p with place := .inside }, some 0⟩ :
      MutexSys P).Holds q → q = p := by
    intro q hq
    by_contra hqp
    exact hno q (by simpa [Holds, hqp] using hq)
  refine ⟨fun _ _ => rfl, fun q r hq hr => (honly q hq).trans (honly r hr).symm,
    fun _ _ => ⟨0, rfl, Nat.zero_le 1⟩, fun q => ?_, fun q hq => ?_⟩
  · by_cases hqp : q = p
    · subst hqp; simpa using fun _ => hinit
    · simpa [hqp] using h.past q
  · have hqp : q ≠ p := by
      rintro rfl
      simp [hstage] at hq
    simp only [update_of_ne hqp] at hq ⊢
    exact ⟨(h.fresh q hq).1, fun hh => hqp (honly q hh)⟩

/-- The signal: the value was zero, and now no process holds the lock. -/
theorem give (h : s.Inv) {v : Nat} (hstage : (s.proc p).stage = .none)
    (hplace : (s.proc p).place = .leaving) (hsem : s.sem = some v) :
    (⟨update s.proc p { s.proc p with place := .out }, some (v + 1)⟩ : MutexSys P).Inv := by
  have hp : s.Holds p := by simp [Holds, MutexProc.holds, hplace]
  obtain rfl : v = 0 := by
    have := h.held p hp
    rw [hsem] at this
    cases this
    rfl
  have hno : ∀ q, ¬ (⟨update s.proc p { s.proc p with place := .out }, some 1⟩ :
      MutexSys P).Holds q := by
    intro q hq
    by_cases hqp : q = p
    · subst hqp; simp [Holds, MutexProc.holds] at hq
    · exact hqp (h.one q p (by simpa [Holds, hqp] using hq) hp)
  refine ⟨fun q hq => absurd hq (hno q), fun q _ hq => absurd hq (hno q),
    fun _ _ => ⟨1, rfl, Nat.le_refl 1⟩, fun q => ?_, fun q hq => ?_⟩
  · by_cases hqp : q = p
    · subst hqp; simp
    · simpa [hqp] using h.past q
  · have hqp : q ≠ p := by
      rintro rfl
      simp [hstage] at hq
    simp only [update_of_ne hqp] at hq ⊢
    exact ⟨(h.fresh q hq).1, hno q⟩

/-- A call of `smcMutexInit` from the place `c`, by a process that holds the lock there exactly if
it held it before. -/
theorem call (h : s.Inv) {c : Place} (hstage : (s.proc p).stage = .none)
    (hheld : ({ s.proc p with place := c } : MutexProc).holds = (s.proc p).holds) :
    (⟨update s.proc p { s.proc p with place := c }.smcMutexInit, s.sem⟩ : MutexSys P).Inv := by
  cases hi : (s.proc p).initialized with
  | true =>
    simp only [MutexProc.smcMutexInit, hi, if_true]
    exact h.update_same hheld hi.symm (.inl rfl) (fun _ _ => rfl) fun hs => absurd hstage hs
  | false =>
    simp only [MutexProc.smcMutexInit, hi]
    have hout : (s.proc p).holds = false := by
      rw [Bool.eq_false_iff]
      intro hh
      have hne : (s.proc p).place ≠ .out := by
        intro hc
        simp [MutexProc.holds, hc] at hh
      rw [h.past p hstage hne] at hi
      cases hi
    exact h.update_same hheld hi.symm (.inl rfl) (fun hs => nomatch hs)
      fun _ => ⟨rfl, hheld.trans hout⟩

/-- Every step keeps the invariant, unless it is a `SETVAL` while some process holds the lock. -/
theorem step (h : s.Inv) (hok : SetvalOk s a) (hst : s.step a = some s') : s'.Inv := by
  obtain ⟨⟨x, sem⟩, hx, rfl⟩ := Option.map_eq_some_iff.mp hst
  cases a with
  | smcOpen p =>
    simp only [MutexProc.step, MutexAct.actor] at hx ⊢
    obtain ⟨hc, hx⟩ := Option.ite_none_right_eq_some.mp hx
    cases hx
    exact h.call hc.1 rfl
  | smcMutexOn p =>
    simp only [MutexProc.step, MutexAct.actor] at hx ⊢
    obtain ⟨hc, hx⟩ := Option.ite_none_right_eq_some.mp hx
    cases hx
    exact h.call hc.1 (by simp [MutexProc.holds, hc.2])
  | smcMutexOff p =>
    simp only [MutexProc.step, MutexAct.actor] at hx ⊢
    obtain ⟨hc, hx⟩ := Option.ite_none_right_eq_some.mp hx
    cases hx
    exact h.call hc.1 (by simp [MutexProc.holds, hc.2])
  | sysCall p =>
    simp only [MutexProc.step, MutexAct.actor] at hx ⊢
    split at hx <;> cases hx
    · rename_i hstage
      have hf := h.fresh p (by rw [hstage]; decide)
      refine h.update_same rfl rfl ?_ (fun hs => nomatch hs) fun _ => ⟨hf.1, by
        simpa [Holds, MutexProc.holds] using hf.2⟩
      cases s.sem
      · exact .inr rfl
      · exact .inl rfl
    · rename_i hstage
      exact h.setval (hok p rfl hstage) hstage
    · rename_i hstage hplace hsem
      exact h.take hstage hplace hsem
    · rename_i hstage hplace hsem
      exact h.give hstage hplace hsem

end MutexSys.Inv

/-! ## Runs -/

/-- At most one process holds the lock, in every state that a run without a `SETVAL` under a
holder reaches. -/
theorem mutex_exclusive [DecidableEq P] (sem : Option Nat) (acts : List (MutexAct P))
    (hok : Steps SetvalOk MutexSys.step (MutexSys.start sem) acts) (s : MutexSys P)
    (hs : run MutexSys.step (MutexSys.start sem) acts = some s) (p q : P) (hp : s.Holds p)
    (hq : s.Holds q) : p = q :=
  (Steps.run_inv (fun _ _ _ h => h.step) (MutexSys.Inv.start sem) hok hs).one p q hp hq

/-- Process 0 is in its critical section when process 1 opens the cache: its `SETVAL` lets it in as
well. -/
theorem mutex_broken_by_open :
    ∃ s : MutexSys Nat, run MutexSys.step (MutexSys.start none)
      [.smcOpen 0, .sysCall 0, .sysCall 0, .smcMutexOn 0, .sysCall 0,
       .smcOpen 1, .sysCall 1, .sysCall 1, .smcMutexOn 1, .sysCall 1] = some s ∧
      s.Holds 0 ∧ s.Holds 1 := by
  have hrun : (run MutexSys.step (MutexSys.start none)
      [.smcOpen 0, .sysCall 0, .sysCall 0, .smcMutexOn 0, .sysCall 0,
       .smcOpen 1, .sysCall 1, .sysCall 1, .smcMutexOn 1, .sysCall 1]).map
        (fun s => ((s.proc 0).holds, (s.proc 1).holds)) = some (true, true) := by decide
  obtain ⟨s, hs, hh⟩ := Option.map_eq_some_iff.mp hrun
  obtain ⟨h0, h1⟩ := Prod.mk.inj hh
  exact ⟨s, hs, h0, h1⟩

/-- Two processes open the cache. Process 1 waits until process 0 has left its critical section, and is then the only
holder. -/
theorem mutex_exclusive_two :
    ∃ s : MutexSys (Fin 2), run MutexSys.step (MutexSys.start none)
      [.smcOpen 0, .smcOpen 1, .sysCall 0, .sysCall 1, .sysCall 1, .sysCall 0, .smcMutexOn 0, .smcMutexOn 1, .sysCall 0,
       .smcMutexOff 0, .sysCall 0, .sysCall 1] = some s ∧
      s.Holds 1 ∧ ∀ q, s.Holds q → 1 = q := by
  let acts : List (MutexAct (Fin 2)) :=
    [.smcOpen 0, .smcOpen 1, .sysCall 0, .sysCall 1, .sysCall 1, .sysCall 0, .smcMutexOn 0, .smcMutexOn 1, .sysCall 0,
     .smcMutexOff 0, .sysCall 0, .sysCall 1]
  have hrun : (run MutexSys.step (MutexSys.start none) acts).map (fun s => (s.proc 1).holds) = some true := by
    decide +kernel
  have hok : Steps SetvalOk MutexSys.step (MutexSys.start none) acts := by decide +kernel
  obtain ⟨s, hs, hh⟩ := Option.map_eq_some_iff.mp hrun
  exact ⟨s, hs, hh, fun q hq => mutex_exclusive none acts hok s hs 1 q hh hq⟩

end Ndhs
