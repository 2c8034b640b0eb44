import Mathlib.Algebra.Order.Group.Int
import Mathlib.Data.List.Basic
import Mathlib.Tactic.Common
import Mathlib.Tactic.Ring

/-!
# Memory and the words stored in it

`Memory` has the bytes and the log of the words that were stored, the first one first. The words of a log that do not
overlap are read back, whatever their order (`putAll_of_mem`), and no other byte changes (`putAll_of_outside`).

`wordsAt base step v n` are `n` words at addresses that are `step` apart. They are put together from parts
(`wordsAt_add`, `wordsAt_mul`).
-/

namespace Stores

/-- Bytes at an address. -/
structure Word where
  addr : Int
  bytes : List UInt8

namespace Word

/-- The first address behind the word. -/
def stop (w : Word) : Int := w.addr + w.bytes.length

/-- The address is not one of the word. -/
def Misses (w : Word) (a : Int) : Prop := a < w.addr ∨ w.stop ≤ a

/-- The words do not overlap. -/
def Apart (w w' : Word) : Prop := w.stop ≤ w'.addr ∨ w'.stop ≤ w.addr

end Word

/-- Store a word. -/
def put (m : Int → UInt8) (w : Word) : Int → UInt8 :=
  fun a => if w.addr ≤ a ∧ a < w.stop then w.bytes.getD (a - w.addr).toNat 0 else m a

/-- Store the words one after another. -/
def putAll (m : Int → UInt8) (ws : List Word) : Int → UInt8 := ws.foldl put m

/-- The bytes of a memory, and the words that were stored. -/
structure Memory where
  bytes : Int → UInt8
  log : List Word

namespace Memory

def store (m : Memory) (w : Word) : Memory := ⟨put m.bytes w, m.log ++ [w]⟩

def stores (m : Memory) (ws : List Word) : Memory := ⟨putAll m.bytes ws, m.log ++ ws⟩

variable (m : Memory)

@[simp] theorem stores_nil : m.stores [] = m := by
  simp [stores, putAll]

theorem stores_cons (w : Word) (ws : List Word) : m.stores (w :: ws) = (m.store w).stores ws := by
  simp [stores, store, putAll]

theorem stores_append (ws ws' : List Word) : m.stores (ws ++ ws') = (m.stores ws).stores ws' := by
  simp [stores, putAll]

end Memory

variable {m : Int → UInt8} {w : Word} {ws : List Word} {a : Int}

theorem put_of_misses (h : w.Misses a) : put m w a = m a := by
  rw [put, if_neg]
  rintro ⟨h₁, h₂⟩
  rcases h with h | h <;> omega

theorem putAll_of_outside (h : ∀ w ∈ ws, w.Misses a) : putAll m ws a = m a := by
  induction ws generalizing m with
  | nil => rfl
  | cons w ws ih =>
    rw [putAll, List.foldl_cons]
    exact (ih fun w' hw' => h w' (List.mem_cons_of_mem _ hw')).trans (put_of_misses (h w List.mem_cons_self))

/-- A word is read back if no other one overlaps it. -/
theorem putAll_of_mem (h : ws.Pairwise Word.Apart) (hw : w ∈ ws) {k : Nat} (hk : k < w.bytes.length) :
    putAll m ws (w.addr + k) = w.bytes.getD k 0 := by
  induction ws generalizing m with
  | nil => cases hw
  | cons w' ws ih =>
    obtain ⟨hw', h⟩ := List.pairwise_cons.mp h
    rw [putAll, List.foldl_cons]
    rcases List.mem_cons.mp hw with rfl | hw
    · -- the words behind it miss it
      have hout : ∀ v ∈ ws, v.Misses (w.addr + k) := by
        intro v hv
        rcases hw' v hv with hlt | hlt
        · exact .inl (by unfold Word.stop at hlt; omega)
        · exact .inr (by omega)
      refine (putAll_of_outside hout).trans ?_
      rw [put, if_pos ⟨by omega, by unfold Word.stop; omega⟩]
      congr 1
      omega
    · exact ih h hw

/-! ## Words at equal distances -/

/-- The words `v 0`, `v 1` and so on. -/
def wordsAt (base step : Int) (v : Nat → List UInt8) (n : Nat) : List Word :=
  (List.range n).map fun k : Nat => ⟨base + step * k, v k⟩

variable {base step : Int} {v : Nat → List UInt8} {n : Nat}

@[simp] theorem wordsAt_zero : wordsAt base step v 0 = [] := rfl

theorem wordsAt_add (r n : Nat) :
    wordsAt base step v (r + n) =
      wordsAt base step v r ++ wordsAt (base + step * r) step (fun k => v (r + k)) n := by
  rw [wordsAt, List.range_add, List.map_append, List.map_map]
  congr 1
  refine List.map_congr_left fun k _ => ?_
  simp only [Function.comp_apply, Word.mk.injEq, and_true]
  push_cast
  ring

/-- The words of all lines of `a` words -/
theorem wordsAt_mul (r a : Nat) :
    ((List.range r).flatMap fun j => wordsAt (base + step * (a * j : Nat)) step (fun k => v (a * j + k)) a) =
      wordsAt base step v (a * r) := by
  induction r with
  | zero => rfl
  | succ r ih => rw [List.range_succ, List.flatMap_append, ih, Nat.mul_succ, wordsAt_add, List.flatMap_singleton]

theorem mem_wordsAt {w : Word} : w ∈ wordsAt base step v n ↔ ∃ k < n, w = ⟨base + step * k, v k⟩ := by
  simp only [wordsAt, List.mem_map, List.mem_range]
  exact exists_congr fun k => and_congr_right fun _ => eq_comm

theorem apart_wordsAt (h : ∀ k < n, ((v k).length : Int) ≤ step) : (wordsAt base step v n).Pairwise Word.Apart := by
  rw [wordsAt, List.pairwise_map]
  refine List.pairwise_lt_range.imp_of_mem ?_
  intro k l hk hl hkl
  have hlen := h k (List.mem_range.mp hk)
  refine .inl ?_
  have hmul : step * (k + 1 : Int) ≤ step * l :=
    Int.mul_le_mul_of_nonneg_left (by omega) (by omega)
  show base + step * k + (v k).length ≤ base + step * l
  rw [mul_add, mul_one] at hmul
  omega

end Stores
