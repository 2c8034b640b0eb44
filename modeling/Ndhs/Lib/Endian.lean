import Mathlib.Algebra.Order.Group.Nat
import Mathlib.Tactic.Common

/-!
# Numbers in memory

A number of `n` bytes is stored with the lowest byte first on a host that swaps bytes, and with the highest byte
first on the others. `store_load` and `load_store`: the two are inverse to each other.
-/

namespace Endian

/-- The number whose lowest byte is the first one. -/
def ofBytes : List UInt8 → Nat
  | [] => 0
  | b :: bs => b.toNat + 256 * ofBytes bs

/-- The lowest `n` bytes of a number, the lowest one first. -/
def toBytes : Nat → Nat → List UInt8
  | 0, _ => []
  | n + 1, v => UInt8.ofNat v :: toBytes n (v / 256)

variable {n v : Nat} {bs : List UInt8}

@[simp] theorem toBytes_length (n v : Nat) : (toBytes n v).length = n := by
  induction n generalizing v with
  | zero => rfl
  | succ n ih => rw [toBytes, List.length_cons, ih]

theorem ofBytes_toBytes (h : v < 256 ^ n) : ofBytes (toBytes n v) = v := by
  induction n generalizing v with
  | zero =>
    rw [Nat.pow_zero] at h
    rw [toBytes, ofBytes]
    omega
  | succ n ih =>
    have hdiv : v / 256 < 256 ^ n := by
      rw [Nat.pow_succ] at h
      omega
    rw [toBytes, ofBytes, ih hdiv, UInt8.toNat_ofNat']
    omega

theorem toBytes_ofBytes (bs : List UInt8) : toBytes bs.length (ofBytes bs) = bs := by
  induction bs with
  | nil => rfl
  | cons b bs ih =>
    have hb := b.toNat_lt
    have hlow : UInt8.ofNat (b.toNat + 256 * ofBytes bs) = b := by
      apply UInt8.toNat.inj
      rw [UInt8.toNat_ofNat']
      omega
    have hhigh : (b.toNat + 256 * ofBytes bs) / 256 = ofBytes bs := by omega
    rw [List.length_cons, ofBytes, toBytes, hlow, hhigh, ih]

theorem ofBytes_lt (bs : List UInt8) : ofBytes bs < 256 ^ bs.length := by
  induction bs with
  | nil => decide
  | cons b bs ih =>
    have hb := b.toNat_lt
    rw [ofBytes, List.length_cons, Nat.pow_succ]
    omega

/-! ## The order of the host -/

/-- Read a number; `swap` says whether the lowest byte is the first one. -/
def load (swap : Bool) (bs : List UInt8) : Nat := if swap then ofBytes bs else ofBytes bs.reverse

/-- Write a number of `n` bytes. -/
def store (swap : Bool) (n v : Nat) : List UInt8 := if swap then toBytes n v else (toBytes n v).reverse

variable {swap swap' : Bool}

@[simp] theorem store_length (swap : Bool) (n v : Nat) : (store swap n v).length = n := by
  unfold store
  split <;> simp

theorem load_lt (swap : Bool) (h : bs.length = n) : load swap bs < 256 ^ n := by
  subst h
  unfold load
  split
  · exact ofBytes_lt bs
  · simpa using ofBytes_lt bs.reverse

theorem load_store (h : v < 256 ^ n) : load swap (store swap n v) = v := by
  cases swap <;> simp [load, store, ofBytes_toBytes h]

theorem load_reverse (swap : Bool) (bs : List UInt8) : load swap bs.reverse = load (!swap) bs := by
  cases swap <;> simp [load]

theorem store_reverse (swap : Bool) (n v : Nat) : (store swap n v).reverse = store (!swap) n v := by
  cases swap <;> simp [store]

/-- A number that is read in one order and written in another one. -/
theorem store_load (h : bs.length = n) :
    store swap n (load swap' bs) = if swap = swap' then bs else bs.reverse := by
  subst h
  have hrev := toBytes_ofBytes bs.reverse
  rw [List.length_reverse] at hrev
  cases swap <;> cases swap' <;> simp [load, store, toBytes_ofBytes, hrev]

end Endian
