import Ndhs.Lib.Endian

/-!
# The default encoding of PVM

A message is a sequence of items that are packed one after another and unpacked in the same order. An `int` takes four
bytes, the highest first. Bytes start at a multiple of four and are filled with zeros to the next one.

* `upkint`, `upkbyte`: the item and the rest of the message, or `none` if the message is at its end.
* `upkbyte_of_length`: as many bytes are unpacked as were packed. `upkbyte_short_same` and `upkbyte_short_rest`: one byte
  less is unpacked. The filling makes up for it, unless the bytes that were packed begin a new group of four.
-/

namespace Pvm

open Endian

/-- What is missing to a multiple of four -/
def fill (n : Nat) : Nat := (4 - n % 4) % 4

def pkint (v : BitVec 32) : List UInt8 := (toBytes 4 v.toNat).reverse

def pkbyte (bs : List UInt8) : List UInt8 := bs ++ List.replicate (fill bs.length) 0

def upkint (buf : List UInt8) : Option (BitVec 32 × List UInt8) :=
  if 4 ≤ buf.length then some (BitVec.ofNat 32 (ofBytes (buf.take 4).reverse), buf.drop 4) else none

def upkbyte (n : Nat) (buf : List UInt8) : Option (List UInt8 × List UInt8) :=
  if n + fill n ≤ buf.length then some (buf.take n, buf.drop (n + fill n)) else none

variable {bs rest : List UInt8} {b : UInt8} {n : Nat}

theorem pkint_length (v : BitVec 32) : (pkint v).length = 4 := by rw [pkint, List.length_reverse, toBytes_length]

theorem pkbyte_length (bs : List UInt8) : (pkbyte bs).length = bs.length + fill bs.length := by
  rw [pkbyte, List.length_append, List.length_replicate]

theorem upkint_pkint (v : BitVec 32) (rest : List UInt8) : upkint (pkint v ++ rest) = some (v, rest) := by
  have hlen := pkint_length v
  rw [upkint, if_pos (by rw [List.length_append, hlen]; omega), List.take_left' hlen, List.drop_left' hlen, pkint,
    List.reverse_reverse, ofBytes_toBytes (by have := v.isLt; omega), BitVec.ofNat_toNat, BitVec.setWidth_eq]

/-- A byte of zero is an `int` of zero. -/
theorem pkbyte_zero : pkbyte [0] = pkint 0 := by decide

theorem upkbyte_of_length (h : bs.length = n) : upkbyte n (pkbyte bs ++ rest) = some (bs, rest) := by
  subst h
  have hlen := pkbyte_length bs
  have htake : (pkbyte bs ++ rest).take bs.length = bs := by
    rw [pkbyte, List.append_assoc]
    exact List.take_left
  rw [upkbyte, if_pos (by rw [List.length_append, hlen]; omega), List.drop_left' hlen, htake]

/-- The byte that is not unpacked is in the same group of four. -/
theorem upkbyte_short_same (h : bs.length = n) (hn : n % 4 ≠ 0) :
    upkbyte n (pkbyte (bs ++ [b]) ++ rest) = some (bs, rest) := by
  subst h
  have hlen : (pkbyte (bs ++ [b])).length = bs.length + fill bs.length := by
    rw [pkbyte_length, List.length_append, List.length_singleton]
    simp only [fill]
    omega
  have htake : (pkbyte (bs ++ [b]) ++ rest).take bs.length = bs := by
    rw [pkbyte, List.append_assoc, List.append_assoc]
    exact List.take_left
  rw [upkbyte, if_pos (by rw [List.length_append, hlen]; omega), List.drop_left' hlen, htake]

/-- The byte that is not unpacked is the first of a group of four. -/
theorem upkbyte_short_rest (h : bs.length = n) (hn : n % 4 = 0) :
    upkbyte n (pkbyte (bs ++ [b]) ++ rest) = some (bs, pkbyte [b] ++ rest) := by
  subst h
  have hfill : fill bs.length = 0 := by simp only [fill]; omega
  have hpk : pkbyte (bs ++ [b]) = bs ++ pkbyte [b] := by
    have hfill' : fill (bs ++ [b]).length = fill [b].length := by
      rw [List.length_append]
      simp only [fill, List.length_singleton]
      omega
    rw [pkbyte, pkbyte, hfill', List.append_assoc]
  rw [upkbyte, hfill, hpk, List.append_assoc, if_pos (by rw [List.length_append]; omega), Nat.add_zero, List.take_left,
    List.drop_left]

theorem upkbyte_length_le {got rest' : List UInt8} (h : upkbyte n bs = some (got, rest')) : got.length ≤ n := by
  rw [upkbyte] at h
  split at h
  · simp only [Option.some.injEq, Prod.mk.injEq] at h
    rw [← h.1]
    exact List.length_take_le _ _
  · cases h

end Pvm
