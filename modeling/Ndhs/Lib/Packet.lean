import Mathlib.Data.List.Basic
import Mathlib.Tactic.Common

/-!
# Packed messages

A message is packed item by item, and unpacked in the same order. Unpacking an item that is not there, or is of another
kind, has no result.
-/

/-- A packed item -/
inductive Packed where
  | int (n : Int)
  | str (s : List Char)
  | bytes (b : List UInt8)
  deriving DecidableEq

namespace Packed

variable {p : List Packed}

def upkint : List Packed → Option (Int × List Packed)
  | .int n :: p => some (n, p)
  | _ => none

def upkstr : List Packed → Option (List Char × List Packed)
  | .str s :: p => some (s, p)
  | _ => none

/-- The bytes, which are as many as the receiver expects -/
def upkbyte (n : Nat) : List Packed → Option (List UInt8 × List Packed)
  | .bytes b :: p => if b.length = n then some (b, p) else none
  | _ => none

/-- An array of integers -/
def upkints : Nat → List Packed → Option (List Int × List Packed)
  | 0, p => some ([], p)
  | n + 1, p => (upkint p).bind fun (k, p) => (upkints n p).map fun (ks, p) => (k :: ks, p)

@[simp] theorem upkint_int (n : Int) : upkint (.int n :: p) = some (n, p) := rfl

@[simp] theorem upkstr_str (s : List Char) : upkstr (.str s :: p) = some (s, p) := rfl

theorem upkbyte_bytes {n : Nat} {b : List UInt8} (h : b.length = n) : upkbyte n (.bytes b :: p) = some (b, p) := by
  rw [upkbyte, if_pos h]

theorem upkints_map {n : Nat} {ks : List Int} (h : ks.length = n) :
    upkints n (ks.map .int ++ p) = some (ks, p) := by
  induction ks generalizing n with
  | nil =>
    obtain rfl : n = 0 := h.symm
    rfl
  | cons k ks ih =>
    obtain ⟨n, rfl⟩ : ∃ m, n = m + 1 := ⟨ks.length, h.symm⟩
    have hks : ks.length = n := by simpa using h
    simp only [List.map_cons, List.cons_append, upkints, upkint_int, Option.bind_some, ih hks, Option.map_some]

end Packed
