import Ndhs.Lib.Endian
import Mathlib.Data.List.Flatten

/-!
# The storage format of pixels (`dsim_EncodePixels`, `dsim_DecodePixels`)

FITS stores the highest byte of a number first. `dsim_EncodePixels` and `dsim_DecodePixels` convert an array of pixels
in place, as their caller has it; which functions do this is decided by `dsim_Configure` for each pixel type.

* `host` says whether the host swaps bytes (`host_swap2`), and `swapped` whether the pixels are swapped.
* A pixel array is a list of pixels; the functions see the bytes of all of them.
* Unsigned numbers of two bytes are shifted by 32768, since FITS has none. Both directions are right for them.
* For `int` there is an encoding function, which takes no notice of `swapped`, and no decoding function.
* For all other types there is neither: the pixels are stored as they are.

`storesFits_iff`: the pixels are stored in FITS order and restored if and only if the type is a byte or an unsigned
short, or the pixels need no conversion and get none, or the order of their bytes does not matter.
-/

namespace Ndhs.Dsim

open Endian

/-- The pixel types of `dso.h` -/
inductive PixType where
  | ubyte | char | short | ushort | int | long | real | double
  deriving DecidableEq

/-- `PixelSize` -/
def PixType.size (sizeofLong : Nat) : PixType → Nat
  | .ubyte | .char => 1
  | .short | .ushort => 2
  | .int => 4
  | .long => sizeofLong
  | .real => 4
  | .double => 8

/-! ## The program -/

/-- `bswap2` -/
def bswap2 : List UInt8 → List UInt8
  | a :: b :: l => b :: a :: bswap2 l
  | l => l

/-- Convert each short of an array; an odd byte at the end is left. -/
def mapShorts (f : Nat → Nat) (host : Bool) : List UInt8 → List UInt8
  | a :: b :: l => store host 2 (f (load host [a, b])) ++ mapShorts f host l
  | l => l

/-- The bits of a `short` or an `unsigned short` with the given value -/
def short (n : Int) : Nat := (n % 65536).toNat

/-- The value of the bits of a `short` -/
def ofShort (n : Nat) : Int := if n < 32768 then n else n - 65536

/-- `EncodeUShort` -/
def encodeUShort (host swapped : Bool) (pixels : List UInt8) : List UInt8 :=
  -- swap to host order if necessary
  let pixels := if swapped != host then bswap2 pixels else pixels
  let pixels := mapShorts (fun n => short ((n : Int) - 32768)) host pixels
  -- swap to FITS order if necessary
  if host then bswap2 pixels else pixels

/-- `DecodeUShort` -/
def decodeUShort (host swapped : Bool) (pixels : List UInt8) : List UInt8 :=
  let pixels := if host then bswap2 pixels else pixels
  let pixels := mapShorts (fun n => short (ofShort n + 32768)) host pixels
  if swapped != host then bswap2 pixels else pixels

/-- `EncodeInt`, which has the argument `swapped` but does not use it. -/
def encodeInt (host : Bool) : List UInt8 → List UInt8
  | a :: b :: c :: d :: l =>
    store host 4 ((a.toNat <<< 24) ||| (b.toNat <<< 16) ||| (c.toNat <<< 8) ||| d.toNat) ++ encodeInt host l
  | l => l

/-- `dsim_EncodePixels`, with the function that `dsim_Configure` has set. -/
def encodePixels (host : Bool) (pixtype : PixType) (swapped : Bool) (pixels : List UInt8) : List UInt8 :=
  match pixtype with
  | .int => encodeInt host pixels
  | .ushort => encodeUShort host swapped pixels
  | _ => pixels

/-- `dsim_DecodePixels` -/
def decodePixels (host : Bool) (pixtype : PixType) (swapped : Bool) (pixels : List UInt8) : List UInt8 :=
  match pixtype with
  | .ushort => decodeUShort host swapped pixels
  | _ => pixels

/-! ## The format -/

/-- The number that is stored for a pixel value: an unsigned short is shifted by `BZERO`. -/
def fitsValue (pixtype : PixType) (v : Nat) : Nat := if pixtype = .ushort then short ((v : Int) - 32768) else v

/-- A pixel in FITS order. -/
def fitsPixel (pixtype : PixType) (swapped : Bool) (p : List UInt8) : List UInt8 :=
  store false p.length (fitsValue pixtype (load swapped p))

/-- The pixels are stored in FITS order, and restored. -/
def StoresFits (host : Bool) (pixtype : PixType) (swapped : Bool) (ps : List (List UInt8)) : Prop :=
  encodePixels host pixtype swapped ps.flatten = (ps.map (fitsPixel pixtype swapped)).flatten ∧
    decodePixels host pixtype swapped (encodePixels host pixtype swapped ps.flatten) = ps.flatten

/-- The pixels of this type are not swapped, and are not swapped by the encoding. -/
def KeepsOrder (host : Bool) (pixtype : PixType) (swapped : Bool) : Prop :=
  swapped = false ∧ ¬ (pixtype = .int ∧ host = true)

instance (host : Bool) (pixtype : PixType) (swapped : Bool) : Decidable (KeepsOrder host pixtype swapped) :=
  inferInstanceAs (Decidable (_ ∧ _))

/-! ## Arrays of pixels -/

variable {ps : List (List UInt8)} {host swapped : Bool} {pixtype : PixType}

/-- Two conversions of an array agree exactly if they agree for each pixel. -/
theorem flatten_map_inj {f g : List UInt8 → List UInt8} (h : ∀ p ∈ ps, (f p).length = (g p).length) :
    (ps.map f).flatten = (ps.map g).flatten ↔ ∀ p ∈ ps, f p = g p := by
  constructor
  · intro heq
    have hlen : (ps.map f).map List.length = (ps.map g).map List.length := by
      rw [List.map_map, List.map_map]
      exact List.map_congr_left h
    have hmap := List.eq_iff_flatten_eq.mpr ⟨heq, hlen⟩
    exact List.map_inj_left.mp hmap
  · intro heq
    rw [List.map_congr_left heq]

theorem flatten_eq_map (ps : List (List UInt8)) : ps.flatten = (ps.map id).flatten := by rw [List.map_id]

/-- A pixel of two bytes -/
theorem length_eq_two {p : List UInt8} (h : p.length = 2) : ∃ a b, p = [a, b] := by
  match p, h with
  | [a, b], _ => exact ⟨a, b, rfl⟩

/-- A function that goes through the pixels one by one -/
theorem flatten_pairs {f : List UInt8 → List UInt8} {g : List UInt8 → List UInt8} (hnil : f [] = [])
    (hcons : ∀ a b l, f (a :: b :: l) = g [a, b] ++ f l) (h : ∀ p ∈ ps, p.length = 2) :
    f ps.flatten = (ps.map g).flatten := by
  induction ps with
  | nil => exact hnil
  | cons p ps ih =>
    obtain ⟨a, b, rfl⟩ := length_eq_two (h p List.mem_cons_self)
    have hps := ih fun q hq => h q (List.mem_cons_of_mem _ hq)
    rw [List.flatten_cons, List.map_cons, List.flatten_cons, ← hps]
    exact hcons a b ps.flatten

theorem bswap2_flatten (h : ∀ p ∈ ps, p.length = 2) : bswap2 ps.flatten = (ps.map List.reverse).flatten :=
  flatten_pairs rfl (fun _ _ _ => rfl) h

theorem mapShorts_flatten (f : Nat → Nat) (h : ∀ p ∈ ps, p.length = 2) :
    mapShorts f host ps.flatten = (ps.map fun p => store host 2 (f (load host p))).flatten :=
  flatten_pairs rfl (fun _ _ _ => rfl) h

/-- The bytes that `EncodeInt` puts together -/
theorem or_bytes (a b c d : UInt8) :
    (a.toNat <<< 24) ||| (b.toNat <<< 16) ||| (c.toNat <<< 8) ||| d.toNat = load false [a, b, c, d] := by
  have hb := b.toNat_lt
  have hc := c.toNat_lt
  have hd := d.toNat_lt
  have h₁ : (a.toNat <<< 24) ||| (b.toNat <<< 16) = (a.toNat * 256 + b.toNat) <<< 16 := by
    rw [← Nat.shiftLeft_add_eq_or_of_lt (by rw [Nat.shiftLeft_eq]; omega)]
    simp only [Nat.shiftLeft_eq]
    omega
  have h₂ : ((a.toNat * 256 + b.toNat) <<< 16) ||| (c.toNat <<< 8) =
      ((a.toNat * 256 + b.toNat) * 256 + c.toNat) <<< 8 := by
    rw [← Nat.shiftLeft_add_eq_or_of_lt (by rw [Nat.shiftLeft_eq]; omega)]
    simp only [Nat.shiftLeft_eq]
    omega
  rw [h₁, h₂, ← Nat.shiftLeft_add_eq_or_of_lt hd]
  simp only [Nat.shiftLeft_eq, load, List.reverse_cons, List.reverse_nil, List.nil_append, List.cons_append,
    Bool.false_eq_true, if_false, ofBytes]
  omega

/-- `EncodeInt` turns the bytes of each pixel on a host that swaps bytes. -/
theorem encodeInt_flatten (h : ∀ p ∈ ps, p.length = 4) :
    encodeInt host ps.flatten = (ps.map fun p => if host then p.reverse else p).flatten := by
  induction ps with
  | nil => rfl
  | cons p ps ih =>
    have hps := ih fun q hq => h q (List.mem_cons_of_mem _ hq)
    match p, h p List.mem_cons_self with
    | [a, b, c, d], _ =>
      have hpix : store host 4 (load false [a, b, c, d]) = if host then [a, b, c, d].reverse else [a, b, c, d] := by
        have hlen : [a, b, c, d].length = 4 := rfl
        rw [store_load hlen]
        cases host <;> rfl
      rw [List.flatten_cons, List.map_cons, List.flatten_cons, ← hps, ← hpix, ← or_bytes]
      rfl

theorem encodeInt_length (host : Bool) (l : List UInt8) : (encodeInt host l).length = l.length := by
  fun_induction encodeInt host l with
  | case1 a b c d l ih =>
    rw [List.length_append, store_length, ih, Nat.add_comm]
    rfl
  | case2 l => rfl

theorem encodeInt_append (host : Bool) {l : List UInt8} (l' : List UInt8) (h : 4 ∣ l.length) :
    encodeInt host (l ++ l') = encodeInt host l ++ encodeInt host l' := by
  fun_induction encodeInt host l with
  | case1 a b c d l ih =>
    have hl : 4 ∣ l.length := (Nat.dvd_add_left (Nat.dvd_refl 4)).mp h
    rw [List.append_assoc, ← ih hl]
    rfl
  | case2 l hl =>
    -- less than one pixel
    match l, hl with
    | [], _ => rfl
    | [_], _ | [_, _], _ | [_, _, _], _ => simp at h
    | a :: b :: c :: d :: l, hl => exact (hl a b c d l rfl).elim

/-- A part of the pixels is encoded as it is with the others. -/
theorem encodeInt_part (host : Bool) {l : List UInt8} {n r : Nat} (h : 4 * (n + r) ≤ l.length) :
    encodeInt host ((l.drop (4 * n)).take (4 * r)) = ((encodeInt host l).drop (4 * n)).take (4 * r) := by
  have hn : (l.take (4 * n)).length = 4 * n := by
    rw [List.length_take]
    omega
  have hr : ((l.drop (4 * n)).take (4 * r)).length = 4 * r := by
    rw [List.length_take, List.length_drop]
    omega
  have hl : l = l.take (4 * n) ++ ((l.drop (4 * n)).take (4 * r) ++ (l.drop (4 * n)).drop (4 * r)) := by
    rw [List.take_append_drop, List.take_append_drop]
  have hn' : 4 ∣ (l.take (4 * n)).length := ⟨n, hn⟩
  have hr' : 4 ∣ ((l.drop (4 * n)).take (4 * r)).length := ⟨r, hr⟩
  conv_rhs => rw [hl]
  rw [encodeInt_append host _ hn', encodeInt_append host _ hr',
    List.drop_left' (by rw [encodeInt_length, hn]), List.take_left' (by rw [encodeInt_length, hr])]

/-! ## Unsigned shorts -/

theorem short_lt (n : Int) : short n < 65536 := by
  unfold short
  omega

/-- The shift is undone. -/
theorem short_ofShort {v : Nat} (h : v < 65536) : short (ofShort (short ((v : Int) - 32768)) + 32768) = v := by
  unfold short ofShort
  split <;> omega

/-- A conversion of shorts between two orders, by way of the order of the host. -/
theorem convert_flatten (f : Nat → Nat) (host swap swap' : Bool) (h : ∀ p ∈ ps, p.length = 2) :
    (let pixels := if swap != host then bswap2 ps.flatten else ps.flatten
      let pixels := mapShorts f host pixels
      if swap' != host then bswap2 pixels else pixels) =
      (ps.map fun p => store swap' 2 (f (load swap p))).flatten := by
  have hrev : ∀ p ∈ ps.map List.reverse, p.length = 2 := by
    intro p hp
    obtain ⟨q, hq, rfl⟩ := List.mem_map.mp hp
    rw [List.length_reverse]
    exact h q hq
  have hin : mapShorts f host (if swap != host then bswap2 ps.flatten else ps.flatten) =
      (ps.map fun p => store host 2 (f (load swap p))).flatten := by
    by_cases hs : swap = host
    · subst hs
      simp only [bne_self_eq_false, Bool.false_eq_true, if_false]
      exact mapShorts_flatten f h
    · rw [if_pos (by simpa using hs), bswap2_flatten h, mapShorts_flatten f hrev, List.map_map]
      refine congrArg List.flatten (List.map_congr_left fun p _ => ?_)
      rw [Function.comp_apply, load_reverse, Bool.eq_not.mpr hs]
  dsimp only
  rw [hin]
  by_cases hs : swap' = host
  · subst hs
    simp only [bne_self_eq_false, Bool.false_eq_true, if_false]
  · have hlen : ∀ p ∈ ps.map fun p => store host 2 (f (load swap p)), p.length = 2 := by
      simp
    rw [if_pos (by simpa using hs), bswap2_flatten hlen, List.map_map]
    refine congrArg List.flatten (List.map_congr_left fun p _ => ?_)
    rw [Function.comp_apply, store_reverse, Bool.eq_not.mpr hs]

theorem encodeUShort_flatten (h : ∀ p ∈ ps, p.length = 2) :
    encodeUShort host swapped ps.flatten = (ps.map (fitsPixel .ushort swapped)).flatten := by
  have hconv := convert_flatten (fun n => short ((n : Int) - 32768)) host swapped false h
  have hfits : ∀ p ∈ ps, fitsPixel .ushort swapped p = store false 2 (short ((load swapped p : Int) - 32768)) := by
    intro p hp
    rw [fitsPixel, h p hp]
    rfl
  rw [List.map_congr_left hfits, ← hconv, encodeUShort]
  cases host <;> rfl

theorem decodeUShort_flatten (h : ∀ p ∈ ps, p.length = 2) :
    decodeUShort host swapped ps.flatten =
      (ps.map fun p => store swapped 2 (short (ofShort (load false p) + 32768))).flatten := by
  rw [← convert_flatten (fun n => short (ofShort n + 32768)) host false swapped h, decodeUShort]
  cases host <;> rfl

/-- Unsigned shorts are stored in FITS order and restored. -/
theorem storesFits_ushort (h : ∀ p ∈ ps, p.length = 2) : StoresFits host .ushort swapped ps := by
  have hlen : ∀ p ∈ ps.map (fitsPixel .ushort swapped), p.length = 2 := by
    simpa [fitsPixel] using h
  refine ⟨encodeUShort_flatten h, ?_⟩
  change decodeUShort host swapped (encodeUShort host swapped ps.flatten) = _
  rw [encodeUShort_flatten h, decodeUShort_flatten hlen, List.map_map, flatten_eq_map ps]
  refine congrArg List.flatten (List.map_congr_left fun p hp => ?_)
  have hv := load_lt swapped (h p hp)
  rw [Function.comp_apply, fitsPixel, fitsValue, if_pos rfl, h p hp,
    load_store (show short _ < 256 ^ 2 from short_lt _), short_ofShort hv, store_load (h p hp), if_pos rfl, id]

/-! ## The other types -/

/-- The FITS order of a pixel that is not shifted. -/
theorem fitsPixel_eq (ht : pixtype ≠ .ushort) (swapped : Bool) (p : List UInt8) :
    fitsPixel pixtype swapped p = if swapped = false then p else p.reverse := by
  rw [fitsPixel, fitsValue, if_neg ht, store_load rfl]
  cases swapped <;> rfl

theorem forall_ite_eq {c : Prop} [Decidable c] :
    (∀ p ∈ ps, p = if c then p else p.reverse) ↔ c ∨ ∀ p ∈ ps, p.reverse = p := by
  by_cases hc : c
  · simp [hc]
  · simp [hc, eq_comm]

/-- Pixels that are stored as they are. -/
theorem storesFits_plain (hu : pixtype ≠ .ushort) (hi : pixtype ≠ .int) :
    StoresFits host pixtype swapped ps ↔ swapped = false ∨ ∀ p ∈ ps, p.reverse = p := by
  have henc : ∀ l, encodePixels host pixtype swapped l = l := fun l => by
    cases pixtype <;> first | rfl | exact absurd rfl hi | exact absurd rfl hu
  have hdec : ∀ l, decodePixels host pixtype swapped l = l := fun l => by
    cases pixtype <;> first | rfl | exact absurd rfl hu
  rw [StoresFits, henc, hdec, and_iff_left rfl, flatten_eq_map ps, List.map_id, flatten_eq_map ps, flatten_map_inj]
  · simp only [fitsPixel_eq hu, id]
    exact forall_ite_eq
  · intro p _
    simp [fitsPixel]

/-- Integers are turned on a host that swaps bytes, and never turned back. -/
theorem storesFits_int (h : ∀ p ∈ ps, p.length = 4) :
    StoresFits host .int swapped ps ↔ (swapped = false ∧ host = false) ∨ ∀ p ∈ ps, p.reverse = p := by
  have hfits : ∀ p ∈ ps, (if host = true then p.reverse else p).length = (fitsPixel .int swapped p).length := by
    intro p _
    rw [fitsPixel, store_length]
    split <;> simp
  have hid : ∀ p ∈ ps, (if host = true then p.reverse else p).length = (id p).length := by
    intro p _
    split <;> simp
  change (encodeInt host ps.flatten = _ ∧ encodeInt host ps.flatten = _) ↔ _
  rw [encodeInt_flatten h, flatten_eq_map ps, flatten_map_inj hfits, flatten_map_inj hid]
  simp only [fitsPixel_eq (show PixType.int ≠ .ushort by decide), id]
  cases host with
  | true =>
    simp only [if_true, Bool.true_eq_false, and_false, false_or]
    refine ⟨fun h => h.2, fun h => ⟨fun p hp => ?_, h⟩⟩
    rw [h p hp, ite_self]
  | false =>
    simp only [Bool.false_eq_true, if_false, and_true, implies_true]
    exact forall_ite_eq

/-- Pixels are stored in FITS order and restored if and only if they are unsigned shorts, or they are in FITS order
and stay so, or they read the same in both directions (as pixels of one byte do). -/
theorem storesFits_iff (sizeofLong : Nat) (h : ∀ p ∈ ps, p.length = pixtype.size sizeofLong) :
    StoresFits host pixtype swapped ps ↔
      pixtype = .ushort ∨ KeepsOrder host pixtype swapped ∨ ∀ p ∈ ps, p.reverse = p := by
  by_cases hu : pixtype = .ushort
  · subst hu
    exact iff_of_true (storesFits_ushort h) (.inl rfl)
  · by_cases hi : pixtype = .int
    · subst hi
      rw [storesFits_int h]
      simp [KeepsOrder]
    · rw [storesFits_plain hu hi]
      simp [KeepsOrder, hu, hi]

/-- Two unsigned shorts, swapped, on a host that swaps bytes. -/
theorem storesFits_two : StoresFits true .ushort true [[1, 2], [255, 127]] :=
  (storesFits_iff 8 (by decide)).mpr (.inl rfl)

/-- An `int` on a host that swaps bytes is stored in FITS order, but not restored; a swapped `short` is not
stored in FITS order. -/
theorem not_storesFits : ¬ StoresFits true .int true [[1, 2, 3, 4]] ∧ ¬ StoresFits true .short true [[1, 2]] := by
  unfold StoresFits
  decide

end Ndhs.Dsim
