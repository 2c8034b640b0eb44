import Ndhs.Lib.Text
import Mathlib.Algebra.Order.Group.Nat
import Mathlib.Data.List.GetD
import Mathlib.Data.List.TakeWhile
import Mathlib.Logic.Function.Basic

/-!
# C strings in a buffer

A buffer is a function from byte offsets. `Holds b i s` says that the string `s` and its terminating null
stand at offset `i`. `strAt n b i` is the string that the library functions see there, in a buffer of `n`
bytes.

* `Holds.strAt`: a string that stands in the buffer is the one that is seen.
* `holds_strcpy`, `strcpy_of_not_mem`, `memset_of_not_mem`: what a write does, and what it leaves alone.
* `Layout`: strings for a family of keys, each in a region of its own. They can be appended (`Layout.put`),
  overwritten in place (`Layout.overwrite`) and wiped out (`Layout.wipe`).
-/

/-- The argument of a call: a C string has no null in it. -/
structure CStr where
  text : Str
  noNull : '\x00' ∉ text
  deriving DecidableEq

namespace Buffer

/-- A buffer of bytes. -/
abbrev Buf := Nat → Char

variable {b b' : Buf} {i j n : Nat} {s : Str}

/-- `strcpy (b + i, s)` -/
def strcpy (b : Buf) (i : Nat) (s : Str) : Buf := fun j =>
  if i ≤ j ∧ j ≤ i + s.length then s.getD (j - i) '\x00' else b j

/-- `memset (b + i, c, n)` -/
def memset (b : Buf) (i : Nat) (c : Char) (n : Nat) : Buf := fun j =>
  if i ≤ j ∧ j < i + n then c else b j

/-- The string at offset `i`: the bytes up to the first null. -/
def strAt (n : Nat) (b : Buf) (i : Nat) : Str :=
  ((List.range' i (n - i)).map b).takeWhile (· != '\x00')

/-- The string `s` stands at offset `i`. -/
def Holds (b : Buf) (i : Nat) (s : Str) : Prop := ∀ k ≤ s.length, b (i + k) = s.getD k '\x00'

theorem holds_nil : Holds b i [] ↔ b i = '\x00' := by
  simp [Holds]

theorem holds_strcpy (b : Buf) (i : Nat) (s : Str) : Holds (strcpy b i s) i s := by
  intro k hk
  rw [strcpy, if_pos ⟨by omega, by omega⟩, Nat.add_sub_cancel_left]

theorem strcpy_of_not_mem (h : j < i ∨ i + s.length < j) : strcpy b i s j = b j := by
  rw [strcpy, if_neg]
  omega

theorem memset_of_not_mem {c : Char} (h : j < i ∨ i + n ≤ j) : memset b i c n j = b j := by
  rw [memset, if_neg]
  omega

/-- Only its own bytes matter to a string. -/
theorem Holds.congr (h : Holds b i s) (hb : ∀ j, i ≤ j → j ≤ i + s.length → b' j = b j) :
    Holds b' i s := by
  intro k hk
  rw [hb (i + k) (by omega) (by omega), h k hk]

theorem Holds.strAt (h : Holds b i s) (hs : '\x00' ∉ s) (hn : i + s.length < n) :
    strAt n b i = s := by
  have hlen : n - i = s.length + 1 + (n - i - s.length - 1) := by omega
  have hbytes : (List.range' i s.length).map b = s := by
    refine List.ext_getElem (by simp) fun k hk hk' => ?_
    rw [List.getElem_map, List.getElem_range', Nat.one_mul, h k (by omega), List.getD_eq_getElem _ _ hk']
  have hnull : b (i + s.length) = '\x00' := by
    rw [h s.length le_rfl, List.getD_eq_default _ _ le_rfl]
  have hall : ∀ c ∈ s, (c != '\x00') = true := by
    intro c hc
    rw [bne_iff_ne]
    rintro rfl
    exact hs hc
  rw [Buffer.strAt, hlen, ← List.range'_append_1, List.range'_concat]
  simp only [List.map_append, List.map_cons, List.map_nil, hbytes, Nat.one_mul, hnull, List.append_assoc]
  rw [List.takeWhile_append_of_pos hall]
  simp

/-! ## Strings for keys -/

open Function

/-- The live keys have strings in the first `used` bytes. The string of `k` stands at `off k` and may take
`span k` bytes and a null. No other live key has one of these bytes, except that the empty string may
stand at offset zero for any number of keys. -/
structure Layout {κ : Type*} (b : Buf) (used : Nat) (live : κ → Prop) (off span : κ → Nat)
    (text : κ → Str) : Prop where
  null : b 0 = '\x00'
  pos : 0 < used
  holds : ∀ k, live k → Holds b (off k) (text k)
  noNull : ∀ k, live k → '\x00' ∉ text k
  fits : ∀ k, live k → (text k).length ≤ span k
  bound : ∀ k, live k → off k + span k < used
  zero : ∀ k, live k → off k = 0 → span k = 0
  apart : ∀ k k', live k → live k' → k ≠ k' → off k ≠ 0 → off k' ≠ 0 →
    off k + span k < off k' ∨ off k' + span k' < off k

namespace Layout

variable {κ : Type*} {used : Nat} {live live' : κ → Prop} {off off' span span' : κ → Nat}
  {text text' : κ → Str} {k : κ}

theorem mono (h : Layout b used live off span text) (hl : ∀ k, live' k → live k) :
    Layout b used live' off span text where
  null := h.null
  pos := h.pos
  holds k hk := h.holds k (hl k hk)
  noNull k hk := h.noNull k (hl k hk)
  fits k hk := h.fits k (hl k hk)
  bound k hk := h.bound k (hl k hk)
  zero k hk := h.zero k (hl k hk)
  apart k k' hk hk' := h.apart k k' (hl k hk) (hl k' hk')

/-- Only the live keys matter. -/
theorem congr (h : Layout b used live off span text) (ho : ∀ k, live k → off' k = off k)
    (hs : ∀ k, live k → span' k = span k) (ht : ∀ k, live k → text' k = text k) :
    Layout b used live off' span' text' where
  null := h.null
  pos := h.pos
  holds k hk := by rw [ho k hk, ht k hk]; exact h.holds k hk
  noNull k hk := by rw [ht k hk]; exact h.noNull k hk
  fits k hk := by rw [hs k hk, ht k hk]; exact h.fits k hk
  bound k hk := by rw [ho k hk, hs k hk]; exact h.bound k hk
  zero k hk := by rw [ho k hk, hs k hk]; exact h.zero k hk
  apart k k' hk hk' := by rw [ho k hk, ho k' hk', hs k hk, hs k' hk']; exact h.apart k k' hk hk'

/-- Bytes of no live key change. -/
theorem frame (h : Layout b used live off span text) (h0 : b' 0 = '\x00')
    (hb : ∀ k, live k → ∀ j, off k ≤ j → j ≤ off k + span k → b' j = b j) :
    Layout b' used live off span text where
  null := h0
  pos := h.pos
  holds k hk := (h.holds k hk).congr fun j hj hj' =>
    hb k hk j hj (hj'.trans (Nat.add_le_add_left (h.fits k hk) _))
  noNull := h.noNull
  fits := h.fits
  bound := h.bound
  zero := h.zero
  apart := h.apart

theorem strAt (h : Layout b used live off span text) (hk : live k) {n : Nat} (hn : used ≤ n) :
    Buffer.strAt n b (off k) = text k := by
  have hf := h.fits k hk
  have hb := h.bound k hk
  exact (h.holds k hk).strAt (h.noNull k hk) (by omega)

/-- More bytes are in use. -/
theorem more (h : Layout b used live off span text) {used' : Nat} (hu : used ≤ used') :
    Layout b used' live off span text where
  null := h.null
  pos := h.pos.trans_le hu
  holds := h.holds
  noNull := h.noNull
  fits := h.fits
  bound k hk := (h.bound k hk).trans_le hu
  zero := h.zero
  apart := h.apart

/-- The byte at offset zero, and the bytes of another key, are outside the region of a key. -/
theorem outside (h : Layout b used live off span text) (hk : live k) {j : κ} (hj : live j)
    (hjk : j ≠ k) {i : Nat} (hi : off j ≤ i) (hi' : i ≤ off j + span j) :
    i < off k ∨ off k + span k < i ∨ (off k = 0 ∧ span k = 0 ∧ i = 0) := by
  by_cases h0 : off k = 0
  · have hz := h.zero k hk h0
    omega
  · by_cases h0' : off j = 0
    · have hz := h.zero j hj h0'
      omega
    · have ha := h.apart j k hj hk hjk h0' h0
      omega

/-- The region of a key is filled with nulls; the other keys keep their strings. -/
theorem wipe (h : Layout b used live off span text) (hk : live k) :
    Layout (memset b (off k) '\x00' (span k)) used (fun j => live j ∧ j ≠ k) off span text := by
  have hzero : off k = 0 → span k = 0 := h.zero k hk
  refine (h.mono fun j hj => hj.1).frame ?_ fun j hj i hi hi' => memset_of_not_mem ?_
  · by_cases h0 : off k = 0
    · have hspan := hzero h0
      rw [memset_of_not_mem (by omega), h.null]
    · rw [memset_of_not_mem (by omega), h.null]
  · have ho := h.outside hk hj.1 hj.2 hi hi'
    omega

section Keys

variable [DecidableEq κ]

/-- A string that stands in a region of no other live key becomes the string of a key. -/
theorem insert (h : Layout b used live off span text) (k : κ) {p n : Nat} {s : Str} (hb : Holds b p s)
    (hs : '\x00' ∉ s) (hn : s.length ≤ n) (hu : p + n < used) (h0 : p = 0 → n = 0)
    (ha : ∀ j, live j → off j ≠ 0 → p ≠ 0 → off j + span j < p ∨ p + n < off j) :
    Layout b used (fun j => j = k ∨ live j) (update off k p) (update span k n) (update text k s) := by
  -- what holds of the new region and of every old one
  have hall (P : Nat → Nat → Str → Prop) (hnew : P p n s) (hold : ∀ j, live j → P (off j) (span j) (text j))
      (j : κ) (hj : j = k ∨ live j) : P (update off k p j) (update span k n j) (update text k s j) := by
    by_cases hjk : j = k
    · subst hjk
      simpa only [update_self] using hnew
    · simpa only [update_of_ne hjk] using hold j (hj.resolve_left hjk)
  refine ⟨h.null, h.pos, hall (fun o _ t => Holds b o t) hb h.holds, hall (fun _ _ t => '\x00' ∉ t) hs h.noNull,
    hall (fun _ m t => t.length ≤ m) hn h.fits, hall (fun o m _ => o + m < used) hu h.bound,
    hall (fun o m _ => o = 0 → m = 0) h0 h.zero, fun i j hi hj hij hi0 hj0 => ?_⟩
  by_cases hik : i = k
  · have hjk : j ≠ k := fun hjk => hij (hik.trans hjk.symm)
    subst hik
    rw [update_self] at hi0 ⊢
    rw [update_of_ne hjk] at hj0 ⊢
    rw [update_self, update_of_ne hjk]
    exact (ha j (hj.resolve_left hjk) hj0 hi0).symm
  · have hil := hi.resolve_left hik
    rw [update_of_ne hik] at hi0 ⊢
    rw [update_of_ne hik]
    by_cases hjk : j = k
    · subst hjk
      rw [update_self] at hj0 ⊢
      rw [update_self]
      exact ha i hil hi0 hj0
    · rw [update_of_ne hjk] at hj0 ⊢
      rw [update_of_ne hjk]
      exact h.apart i j hil (hj.resolve_left hjk) hij hi0 hj0

/-- A string is appended, for a new key or instead of the key's old string. -/
theorem put (h : Layout b used live off span text) (k : κ) {s : Str} (hs : '\x00' ∉ s) :
    Layout (strcpy b used s) (used + (s.length + 1)) (fun j => j = k ∨ live j) (update off k used)
      (update span k s.length) (update text k s) := by
  have hpos := h.pos
  have hkeep : Layout (strcpy b used s) used live off span text := by
    refine h.frame ?_ fun j hj i _ hi => ?_
    · rw [strcpy_of_not_mem (by omega), h.null]
    · have hb := h.bound j hj
      exact strcpy_of_not_mem (by omega)
  refine (hkeep.more (Nat.le_add_right used _)).insert k (holds_strcpy b used s) hs le_rfl (by omega)
    (by omega) fun j hj _ _ => ?_
  exact .inl (h.bound j hj)

/-- The empty string at offset zero. -/
theorem clear (h : Layout b used live off span text) (k : κ) :
    Layout b used (fun j => j = k ∨ live j) (update off k 0) (update span k 0) (update text k []) :=
  h.insert k (holds_nil.mpr h.null) (by simp) le_rfl h.pos (fun _ => rfl) fun _ _ _ h0 => absurd rfl h0

/-- A string is written over, into the region of its key. -/
theorem overwrite (h : Layout b used live off span text) (hk : live k) {s : Str} (hs : '\x00' ∉ s)
    (hfit : s.length ≤ span k) :
    Layout (strcpy (memset b (off k) '\x00' (span k)) (off k) s) used live off span (update text k s) := by
  have hzero : off k = 0 → span k = 0 := h.zero k hk
  have hkeep : ∀ i, i < off k ∨ off k + span k < i →
      strcpy (memset b (off k) '\x00' (span k)) (off k) s i = b i := by
    intro i hi
    rw [strcpy_of_not_mem (by omega), memset_of_not_mem (by omega)]
  have hnull : strcpy (memset b (off k) '\x00' (span k)) (off k) s 0 = '\x00' := by
    by_cases h0 : off k = 0
    · have hlen : s.length = 0 := by
        have := hzero h0
        omega
      have hcopy := holds_strcpy (memset b (off k) '\x00' (span k)) (off k) s 0 (Nat.zero_le _)
      rw [h0, List.eq_nil_of_length_eq_zero hlen] at hcopy ⊢
      simpa using hcopy
    · rw [hkeep 0 (by omega), h.null]
  refine ⟨hnull, h.pos, fun j hj => ?_, fun j hj => ?_, fun j hj => ?_, h.bound, h.zero, h.apart⟩
  · by_cases hjk : j = k
    · subst hjk
      rw [update_self]
      exact holds_strcpy _ _ s
    · rw [update_of_ne hjk]
      refine (h.holds j hj).congr fun i hi hi' => ?_
      have hf := h.fits j hj
      rcases h.outside hk hj hjk hi (by omega) with hlt | hgt | ⟨-, -, rfl⟩
      · exact hkeep i (.inl hlt)
      · exact hkeep i (.inr hgt)
      · rw [hnull, h.null]
  · by_cases hjk : j = k
    · subst hjk
      rwa [update_self]
    · rw [update_of_ne hjk]
      exact h.noNull j hj
  · by_cases hjk : j = k
    · subst hjk
      rwa [update_self]
    · rw [update_of_ne hjk]
      exact h.fits j hj

end Keys

end Layout

end Buffer
