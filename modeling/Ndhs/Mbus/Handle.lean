import Mathlib.Data.List.Induction
import Mathlib.Data.List.Nodup
import Mathlib.Logic.Function.Basic
import Mathlib.Tactic.Common

/-!
# The table of input handlers

Each process waits for input with `select` on the descriptors in a table of handlers, and calls the handler of a
descriptor that is ready. `mbusAddInputHandler` appends to the table and `mbusRemoveInputHandler` removes from it
(`lib/msg/mbHandle.c`).

* `MBus`: the array and the number of entries in use. An array is a function of the index: all indices are below
  `nhandlers`, which is at most `MAX_HANDLERS`. Functions and client data are of any types.
* `outstanding`: what should be in the table after some calls.
* A call with a null message bus is left out.

`removeLoop` goes on after it has removed an entry, and it shifts the entries behind the *next* one, so that the next
one goes. `mbusRemoveInputHandler_entries_iff` says when the right one goes.
-/

namespace Ndhs.Mbus

/-- `MAX_HANDLERS` -/
def maxHandlers : Nat := 16

/-- `mbHandler` -/
structure Handler (φ δ : Type) where
  fd : Int
  func : Option φ
  clientData : Option δ
  deriving DecidableEq

variable {φ δ : Type}

def Handler.zero : Handler φ δ := ⟨0, none, none⟩

/-- The handlers in an `MBus` -/
structure MBus (φ δ : Type) where
  nhandlers : Nat
  handlers : Nat → Handler φ δ

def MBus.empty : MBus φ δ := ⟨0, fun _ => .zero⟩

def mbusAddInputHandler (m : MBus φ δ) (e : Handler φ δ) : MBus φ δ :=
  if m.nhandlers = maxHandlers then m
  else { nhandlers := m.nhandlers + 1, handlers := Function.update m.handlers m.nhandlers e }

/-- `handlers[j] = handlers[j+1]` for `k` indices from `j` on -/
def shift : Nat → Nat → (Nat → Handler φ δ) → Nat → Handler φ δ
  | 0, _, h => h
  | k + 1, j, h => shift k (j + 1) (Function.update h j (h (j + 1)))

/-- What is done at the index `i` of a descriptor that is found, in a table of `n` -/
def removeAt (n i : Nat) (h : Nat → Handler φ δ) : Nat → Handler φ δ :=
  -- special case -- last element
  if i = n - 1 then Function.update h i .zero
  else Function.update (shift (n - 1 - (i + 1)) (i + 1) h) (n - 1) .zero

/-- The loop of `mbusRemoveInputHandler`, with `k` indices to go from `i` on. The number `n` is not read again. -/
def removeLoop (n : Nat) (fd : Int) : Nat → Nat → MBus φ δ → MBus φ δ
  | 0, _, m => m
  | k + 1, i, m =>
    removeLoop n fd k (i + 1)
      (if (m.handlers i).fd = fd then ⟨m.nhandlers - 1, removeAt n i m.handlers⟩ else m)

def mbusRemoveInputHandler (m : MBus φ δ) (fd : Int) : MBus φ δ := removeLoop m.nhandlers fd m.nhandlers 0 m

/-- `mbInputSet`: the descriptors that `select` waits for -/
def mbInputSet (m : MBus φ δ) : List Int := (List.range m.nhandlers).map fun i => (m.handlers i).fd

/-- The entries in use -/
def MBus.entries (m : MBus φ δ) : List (Handler φ δ) := (List.range m.nhandlers).map m.handlers

/-! ## Sequences of calls -/

/-- A call of `mbusAddInputHandler` or `mbusRemoveInputHandler` -/
inductive Call (φ δ : Type) where
  | add (e : Handler φ δ)
  | remove (fd : Int)

def Call.step (m : MBus φ δ) : Call φ δ → MBus φ δ
  | .add e => mbusAddInputHandler m e
  | .remove fd => mbusRemoveInputHandler m fd

def run (cs : List (Call φ δ)) : MBus φ δ := cs.foldl Call.step .empty

def Call.want (l : List (Handler φ δ)) : Call φ δ → List (Handler φ δ)
  | .add e => l ++ [e]
  | .remove fd => l.filter fun e => e.fd ≠ fd

/-- What was added and not removed since, in order -/
def outstanding (cs : List (Call φ δ)) : List (Handler φ δ) := cs.foldl Call.want []

/-- The descriptor has no handler, and there is room. -/
def Call.Legal (l : List (Handler φ δ)) : Call φ δ → Prop
  | .add e => e.fd ∉ l.map Handler.fd ∧ l.length < maxHandlers
  | .remove _ => True

/-- A descriptor that is removed is the last in the table, if it is there. -/
def Call.AtEnd (l : List (Handler φ δ)) : Call φ δ → Prop
  | .add _ => True
  | .remove fd => fd ∈ l.map Handler.fd → (l.map Handler.fd).getLast? = some fd

/-- Each call of a sequence meets a condition on what should be in the table before it. -/
def Along (P : List (Handler φ δ) → Call φ δ → Prop) (cs : List (Call φ δ)) : Prop :=
  ∀ pre c, pre ++ [c] <+: cs → P (outstanding pre) c

/-! ## One call -/

section
variable {m : MBus φ δ} {l a b : List (Handler φ δ)} {e : Handler φ δ} {fd : Int} {h : Nat → Handler φ δ} {n i j k x : Nat}

theorem entries_eq_iff : m.entries = l ↔ m.nhandlers = l.length ∧ ∀ i (hi : i < l.length), m.handlers i = l[i] := by
  constructor
  · rintro rfl
    simp [MBus.entries]
  · rintro ⟨hn, hget⟩
    apply List.ext_getElem
    · simp [MBus.entries, hn]
    · intro i hi hi'
      simp [MBus.entries, hget i hi']

theorem mbusAddInputHandler_entries (hm : m.entries = l) (hl : l.length < maxHandlers) :
    (mbusAddInputHandler m e).entries = l ++ [e] := by
  rw [entries_eq_iff] at hm ⊢
  have hn : ¬ m.nhandlers = maxHandlers := by omega
  rw [mbusAddInputHandler, if_neg hn]
  refine ⟨by simp [hm.1], fun i hi => ?_⟩
  rw [List.length_append, List.length_singleton] at hi
  simp only
  by_cases hi' : i = m.nhandlers
  · subst hi'
    rw [Function.update_self, List.getElem_append_right (by omega)]
    simp [hm.1]
  · rw [Function.update_of_ne hi', hm.2 i (by omega), List.getElem_append_left]

theorem removeLoop_add (n : Nat) (fd : Int) (k k' i : Nat) (m : MBus φ δ) :
    removeLoop n fd (k + k') i m = removeLoop n fd k' (i + k) (removeLoop n fd k i m) := by
  induction k generalizing i m with
  | zero => rw [Nat.zero_add]; rfl
  | succ k ih => rw [Nat.succ_add, removeLoop, ih, removeLoop, Nat.add_right_comm, Nat.add_assoc]

/-- Nothing is removed where the descriptor is not. -/
theorem removeLoop_absent (hne : ∀ j, i ≤ j → j < i + k → (m.handlers j).fd ≠ fd) : removeLoop n fd k i m = m := by
  induction k generalizing i with
  | zero => rfl
  | succ k ih =>
    rw [removeLoop, if_neg (hne i (Nat.le_refl _) (by omega))]
    exact ih fun j hj hj' => hne j (by omega) (by omega)

theorem shift_below (hx : x < j) : shift k j h x = h x := by
  induction k generalizing j h with
  | zero => rfl
  | succ k ih => rw [shift, ih (by omega), Function.update_of_ne (by omega)]

/-- Indices before the one that is found are not changed; neither is that one itself, unless it is the last. -/
theorem removeAt_below (hi : i < n) (hx : x < i ∨ x = i ∧ i ≠ n - 1) : removeAt n i h x = h x := by
  rw [removeAt]
  split
  · rw [Function.update_of_ne (by omega)]
  · rw [Function.update_of_ne (by omega), shift_below (by omega)]

/-- The rest of the loop leaves indices behind it alone. -/
theorem removeLoop_below (hi : i + k ≤ n) (hx : x < i) : (removeLoop n fd k i m).handlers x = m.handlers x := by
  induction k generalizing i m with
  | zero => rfl
  | succ k ih =>
    rw [removeLoop, ih (by omega) (by omega)]
    split
    · exact removeAt_below (by omega) (.inl hx)
    · rfl

/-- The loop up to the descriptor -/
theorem removeLoop_found (hm : m.entries = a ++ e :: b) (ha : ∀ e' ∈ a, e'.fd ≠ fd) (he : e.fd = fd) :
    mbusRemoveInputHandler m fd =
      removeLoop m.nhandlers fd b.length (a.length + 1)
        ⟨m.nhandlers - 1, removeAt m.nhandlers a.length m.handlers⟩ := by
  rw [entries_eq_iff] at hm
  have hlen : m.nhandlers = a.length + (1 + b.length) := by
    rw [hm.1, List.length_append, List.length_cons]
    omega
  have hbefore : ∀ j, 0 ≤ j → j < 0 + a.length → (m.handlers j).fd ≠ fd := by
    intro j _ hj
    rw [hm.2 j (by simp; omega), List.getElem_append_left (by omega)]
    exact ha _ (List.getElem_mem _)
  have hat : (m.handlers a.length).fd = fd := by
    rw [hm.2 a.length (by simp), List.getElem_append_right (Nat.le_refl _)]
    simpa using he
  rw [mbusRemoveInputHandler]
  nth_rewrite 2 [hlen]
  rw [removeLoop_add, removeLoop_absent hbefore, removeLoop_add, Nat.zero_add]
  simp only [removeLoop, hat, if_true]

/-- The last descriptor is removed. -/
theorem mbusRemoveInputHandler_last (hm : m.entries = a ++ [e]) (ha : ∀ e' ∈ a, e'.fd ≠ fd) (he : e.fd = fd) :
    (mbusRemoveInputHandler m fd).entries = a := by
  rw [removeLoop_found hm ha he]
  rw [entries_eq_iff] at hm ⊢
  have hlen : m.nhandlers = a.length + 1 := by rw [hm.1, List.length_append, List.length_singleton]
  refine ⟨by simp [removeLoop, hlen], fun i hi => ?_⟩
  simp only [List.length_nil, removeLoop]
  rw [removeAt_below (by omega) (.inl hi), hm.2 i (by simp; omega), List.getElem_append_left]

/-- A descriptor with others behind it stays in the table, or there are too few entries left. -/
theorem mbusRemoveInputHandler_inner (hm : m.entries = a ++ e :: b) (ha : ∀ e' ∈ a, e'.fd ≠ fd) (he : e.fd = fd)
    (hb : ∀ e' ∈ b, e'.fd ≠ fd) (hne : b ≠ []) : (mbusRemoveInputHandler m fd).entries ≠ a ++ b := by
  intro heq
  rw [removeLoop_found hm ha he] at heq
  rw [entries_eq_iff] at hm heq
  have hpos := List.length_pos_iff.mpr hne
  have hlen : m.nhandlers = a.length + b.length + 1 := by
    rw [hm.1, List.length_append, List.length_cons]
    omega
  have hat : (m.handlers a.length).fd = fd := by
    rw [hm.2 a.length (by simp), List.getElem_append_right (Nat.le_refl _)]
    simpa using he
  have hstay := heq.2 a.length (by rw [List.length_append]; omega)
  rw [removeLoop_below (by omega) (by omega)] at hstay
  simp only at hstay
  rw [← removeAt_below (h := m.handlers) (n := m.nhandlers) (by omega) (.inr ⟨rfl, by omega⟩), hstay,
    List.getElem_append_right (Nat.le_refl _)] at hat
  exact hb _ (List.getElem_mem _) hat

theorem filter_fd (ha : ∀ e' ∈ a, e'.fd ≠ fd) : (a.filter fun e' => e'.fd ≠ fd) = a :=
  List.filter_eq_self.mpr fun e' he' => decide_eq_true (ha e' he')

/-- A descriptor is removed, and no other, if and only if it is the last one or has no handler. -/
theorem mbusRemoveInputHandler_entries_iff (hm : m.entries = l) (hl : (l.map Handler.fd).Nodup) :
    (mbusRemoveInputHandler m fd).entries = (l.filter fun e => e.fd ≠ fd) ↔
      (fd ∈ l.map Handler.fd → (l.map Handler.fd).getLast? = some fd) := by
  by_cases hmem : fd ∈ l.map Handler.fd
  · obtain ⟨e, he, rfl⟩ := List.mem_map.mp hmem
    obtain ⟨a, b, rfl⟩ := List.append_of_mem he
    rw [List.map_append, List.map_cons, List.nodup_middle, List.nodup_cons, List.mem_append] at hl
    have ha : ∀ e' ∈ a, e'.fd ≠ e.fd := fun e' he' heq => hl.1 (.inl (heq ▸ List.mem_map_of_mem he'))
    have hb : ∀ e' ∈ b, e'.fd ≠ e.fd := fun e' he' heq => hl.1 (.inr (heq ▸ List.mem_map_of_mem he'))
    have hfilter : ((a ++ e :: b).filter fun e' => e'.fd ≠ e.fd) = a ++ b := by
      rw [List.filter_append, List.filter_cons_of_neg (by simp), filter_fd ha, filter_fd hb]
    rw [hfilter]
    simp only [hmem, true_imp_iff]
    cases b with
    | nil =>
      rw [List.append_nil]
      exact iff_of_true (mbusRemoveInputHandler_last hm ha rfl) (by simp)
    | cons e' b =>
      refine iff_of_false (mbusRemoveInputHandler_inner hm ha rfl hb nofun) fun hlast => ?_
      rw [List.map_append, List.getLast?_append_of_ne_nil _ (by simp), List.map_cons, List.map_cons,
        List.getLast?_cons_cons] at hlast
      obtain ⟨e'', he'', heq⟩ := List.mem_map.mp (List.mem_of_getLast? hlast : e.fd ∈ (e' :: b).map Handler.fd)
      exact hb e'' he'' heq
  · have hne : ∀ e ∈ l, e.fd ≠ fd := fun e he heq => hmem (heq ▸ List.mem_map_of_mem he)
    refine iff_of_true ?_ fun h => absurd h hmem
    rw [filter_fd hne, mbusRemoveInputHandler, removeLoop_absent, hm]
    intro j _ hj
    rw [entries_eq_iff] at hm
    rw [hm.2 j (by omega)]
    exact hne _ (List.getElem_mem _)

end

/-! ## Runs -/

section
variable {cs pre : List (Call φ δ)} {c : Call φ δ}

theorem run_append (cs : List (Call φ δ)) (c : Call φ δ) : run (cs ++ [c]) = c.step (run cs) := by
  rw [run, List.foldl_append]
  rfl

theorem outstanding_append (cs : List (Call φ δ)) (c : Call φ δ) : outstanding (cs ++ [c]) = c.want (outstanding cs) := by
  rw [outstanding, List.foldl_append]
  rfl

theorem along_initial {P : List (Handler φ δ) → Call φ δ → Prop} (h : Along P cs) (hpre : pre <+: cs) : Along P pre :=
  fun p c hp => h p c (hp.trans hpre)

/-- Each descriptor has one handler. -/
theorem outstanding_nodup (h : Along Call.Legal cs) : ((outstanding cs).map Handler.fd).Nodup := by
  induction cs using List.reverseRecOn with
  | nil => exact List.nodup_nil
  | append_singleton cs c ih =>
    have hlegal := h cs c (List.prefix_refl _)
    have ih := ih (along_initial h (List.prefix_append _ _))
    rw [outstanding_append]
    cases c with
    | add e =>
      rw [Call.want, List.map_append, List.nodup_append]
      refine ⟨ih, List.nodup_singleton _, ?_⟩
      rintro x hx y hy rfl
      exact hlegal.1 (List.mem_singleton.mp hy ▸ hx)
    | remove fd => exact ih.sublist (List.filter_sublist.map _)

theorem mbInputSet_eq (m : MBus φ δ) : mbInputSet m = m.entries.map Handler.fd := by
  rw [mbInputSet, MBus.entries, List.map_map]
  rfl

/-- The table has the handlers that it should have after each call, if and only if only the last one is ever removed. -/
theorem handlers_iff (h : Along Call.Legal cs) :
    (∀ pre, pre <+: cs →
      (run pre).entries = outstanding pre ∧ mbInputSet (run pre) = (outstanding pre).map Handler.fd) ↔
      Along Call.AtEnd cs := by
  constructor
  · intro hall pre c hpre
    cases c with
    | add e => trivial
    | remove fd =>
      have hpre' := (List.prefix_append pre _).trans hpre
      have hafter := (hall _ hpre).1
      rw [run_append, outstanding_append] at hafter
      exact (mbusRemoveInputHandler_entries_iff (hall pre hpre').1 (outstanding_nodup (along_initial h hpre'))).mp hafter
  · intro hlast pre hpre
    suffices hentries : (run pre).entries = outstanding pre from
      ⟨hentries, by rw [mbInputSet_eq, hentries]⟩
    induction pre using List.reverseRecOn with
    | nil => rfl
    | append_singleton pre c ih =>
      have hpre' := (List.prefix_append pre [c]).trans hpre
      have ih := ih hpre'
      rw [run_append, outstanding_append]
      cases c with
      | add e => exact mbusAddInputHandler_entries ih (h pre (.add e) hpre).2
      | remove fd =>
        exact (mbusRemoveInputHandler_entries_iff ih (outstanding_nodup (along_initial h hpre'))).mpr (hlast pre _ hpre)

theorem along_nil (P : List (Handler φ δ) → Call φ δ → Prop) : Along P [] :=
  fun _ _ hpre => absurd (List.prefix_nil.mp hpre) (by simp)

theorem along_append {P : List (Handler φ δ) → Call φ δ → Prop} (h : Along P cs) (hc : P (outstanding cs) c) :
    Along P (cs ++ [c]) := by
  intro pre c' hpre
  rcases List.prefix_concat_iff.mp hpre with heq | hpre
  · obtain ⟨rfl, hc'⟩ := List.append_inj' heq rfl
    obtain rfl := List.singleton_inj.mp hc'
    exact hc
  · exact h pre c' hpre

end

/-- Two handlers are added, without functions and data, and a descriptor is removed. -/
def two (fd : Int) : List (Call Unit Unit) := [.add ⟨4, none, none⟩, .add ⟨5, none, none⟩] ++ [.remove fd]

theorem two_legal (fd : Int) : Along Call.Legal (two fd) := by
  have h₁ : Along Call.Legal ([] ++ [.add (⟨4, none, none⟩ : Handler Unit Unit)]) :=
    along_append (along_nil _) ⟨nofun, by decide⟩
  have h₂ : Along Call.Legal ([.add (⟨4, none, none⟩ : Handler Unit Unit)] ++ [.add ⟨5, none, none⟩]) :=
    along_append h₁ ⟨by decide, by decide⟩
  exact along_append h₂ trivial

/-- The last of two handlers is removed. -/
theorem two_last : (run (two 5)).entries = outstanding (two 5) := by
  refine ((handlers_iff (two_legal 5)).mpr ?_ _ (List.prefix_refl _)).1
  have h₁ : Along Call.AtEnd ([] ++ [.add (⟨4, none, none⟩ : Handler Unit Unit)]) := along_append (along_nil _) trivial
  have h₂ : Along Call.AtEnd ([.add (⟨4, none, none⟩ : Handler Unit Unit)] ++ [.add ⟨5, none, none⟩]) :=
    along_append h₁ trivial
  exact along_append h₂ fun _ => rfl

/-- The first of two handlers is removed: the second one goes. -/
theorem two_first :
    Along Call.Legal (two 4) ∧
      ¬ ∀ pre, pre <+: two 4 →
        (run pre).entries = outstanding pre ∧ mbInputSet (run pre) = (outstanding pre).map Handler.fd := by
  refine ⟨two_legal 4, fun h => ?_⟩
  exact absurd (h _ (List.prefix_refl _)).1 (by decide)

end Ndhs.Mbus
