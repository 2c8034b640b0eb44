import Mathlib.Data.List.Basic

/-!
# Programs that ask for memory

A program asks an allocator for memory as often as it needs to, and each answer can be a refusal. The log has the
answers so far, so the allocator can answer the same question differently at another time.

* `Requests α`: a program with such a log. It has no result if it fails.
* `Requests.Erases x y`: whatever the log is, the results of `x` are those of `y`.
* `Requests.Gives x P`: `P` holds of each result and of the answers that led to it.
-/

universe u

/-- The answer to the `k`-th request, which is one for `n` bytes. -/
abbrev Allocator := Nat → Nat → Bool

/-- A program that has a log of the answers to its requests. -/
abbrev Requests (α : Type u) := List Bool → Option (α × List Bool)

namespace Requests

variable {α β : Type u} {x : Requests α} {f : α → Requests β} {log log' : List Bool}

/-- No request. -/
def ret (a : α) : Requests α := fun log => some (a, log)

/-- A step that asks for nothing. -/
def lift (o : Option α) : Requests α := fun log => o.map fun a => (a, log)

/-- One program after the other. -/
def andThen (x : Requests α) (f : α → Requests β) : Requests β := fun log =>
  (x log).bind fun p => f p.1 p.2

instance : Monad Requests where
  pure := ret
  bind := andThen

/-- A request for `n` bytes. -/
def ask (alloc : Allocator) (n : Nat) : Requests Bool := fun log =>
  some (alloc log.length n, log ++ [alloc log.length n])

theorem bind_eq_some {p : β × List Bool} :
    (x >>= f) log = some p ↔ ∃ a log', x log = some (a, log') ∧ f a log' = some p := by
  change (x log).bind _ = some p ↔ _
  rw [Option.bind_eq_some_iff]
  exact ⟨fun ⟨q, h⟩ => ⟨q.1, q.2, h⟩, fun ⟨a, l, h⟩ => ⟨(a, l), h⟩⟩

theorem lift_eq_some {o : Option α} {p : α × List Bool} :
    lift o log = some p ↔ o = some p.1 ∧ p.2 = log := by
  rw [lift, Option.map_eq_some_iff]
  constructor
  · rintro ⟨a, rfl, rfl⟩
    exact ⟨rfl, rfl⟩
  · rintro ⟨rfl, rfl⟩
    exact ⟨p.1, rfl, rfl⟩

theorem ret_eq_some {a : α} {p : α × List Bool} : (pure a : Requests α) log = some p ↔ (a, log) = p := by
  change some (a, log) = some p ↔ _
  rw [Option.some.injEq]

theorem ret_bind (a : α) (f : α → Requests β) : (pure a : Requests α) >>= f = f a := rfl

theorem bind_of_eq {a : α} (h : x log = some (a, log')) : (x >>= f) log = f a log' := by
  change (x log).bind _ = _
  rw [h, Option.bind_some]

theorem lift_some (a : α) : lift (some a) = pure a := rfl

/-! ## Without the log -/

variable {γ : Type u} {g : α → γ} {g' : β → γ} {y : Option γ}

/-- What `g` shows of the results of `x` is `y`, whatever was answered before. -/
def Erases (g : α → γ) (x : Requests α) (y : Option γ) : Prop := ∀ log, (x log).map (fun p => g p.1) = y

theorem erases_pure (g : α → γ) (a : α) : Erases g (pure a) (some (g a)) := fun _ => rfl

theorem erases_lift (o : Option α) : Erases id (lift o) o := fun log => by
  cases o <;> rfl

/-- An allocator that looks at the size only. -/
theorem erases_ask (heap : Nat → Bool) (n : Nat) : Erases id (ask (fun _ => heap) n) (some (heap n)) := fun _ => rfl

theorem Erases.bind {o : Option α} {h : α → Option γ} (hx : Erases id x o)
    (hf : ∀ a, o = some a → Erases g' (f a) (h a)) : Erases g' (x >>= f) (o.bind h) := by
  intro log
  have hlog := hx log
  change ((x log).bind _).map _ = _
  cases hxlog : x log with
  | none =>
    rw [hxlog] at hlog
    rw [← hlog]
    rfl
  | some p =>
    rw [hxlog] at hlog
    rw [← hlog]
    exact hf p.1 hlog.symm p.2

theorem Erases.ite {p : Prop} [Decidable p] {x' : Requests α} {y' : Option γ} (h : p → Erases g x y)
    (h' : ¬ p → Erases g x' y') : Erases g (if p then x else x') (if p then y else y') := by
  split
  · exact h ‹_›
  · exact h' ‹_›

end Requests
