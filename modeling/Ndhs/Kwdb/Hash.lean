import Ndhs.Kwdb.Model

/-!
# Hashing of the keywords (`mosdca/kwdb.c`)

`kwdb_AddEntry` and `kwdb_Lookup` use the value of `hash` as an index into the table of `NTHREADS` threads, and search
the thread with `streq`.

* `hash_cons`: the loop of `hash` stays at the first character, so the value is the remainder of a multiple of it.
* `hash_streq`: keywords that `streq` takes for the same are in one thread.
* `Key.hash_nonneg_iff`: a first byte above 127 is a negative `char`, which C reduces to a negative remainder.
* `Key.enter_eq_none`, `Key.lookup_eq_none`: the table is then written and read in front of its start.
* `hashes_iff`: `hash` does its work exactly for the keywords that are empty or start with a 7-bit character.
-/

namespace Ndhs.Kwdb

open Text Buffer Linked Function

variable {s t : Str} {c : Char} {h : Nat}

/-! ## Characters -/

theorem charValue_nonneg (hc : c.toNat < 128) : 0 ≤ charValue c := by
  rw [charValue, if_pos hc]
  exact Int.natCast_nonneg _

theorem toNat_toLower (hc : c.toNat < 128) : c.toLower.toNat < 128 := by
  unfold Char.toLower
  split
  · next hu =>
    have hle : c.val.toNat ≤ 90 := UInt32.le_iff_toNat_le.mp hu.2
    change (c.val + 32).toNat < 128
    rw [UInt32.toNat_add]
    exact (Nat.mod_le _ _).trans_lt (by change c.val.toNat + 32 < 128; omega)
  · exact hc

/-- Only the letters `A` to `Z` have another case. -/
theorem toLower_of_high (hc : 128 ≤ c.toNat) : c.toLower = c := by
  unfold Char.toLower
  split
  · next hu =>
    have hle : c.val.toNat ≤ 90 := UInt32.le_iff_toNat_le.mp hu.2
    change 128 ≤ c.val.toNat at hc
    omega
  · rfl

/-! ## The value -/

/-- A sum that has one factor in all its terms -/
theorem foldl_mul (v : Int) (ps : List Int) (a : Int) :
    ps.foldl (fun sum p => sum + v * p) a = a + v * ps.sum := by
  induction ps generalizing a with
  | nil => simp
  | cons p ps ih =>
    rw [List.foldl_cons, ih, List.sum_cons, Int.mul_add, Int.add_assoc]

theorem hash_cons (c : Char) (s : Str) : hash (c :: s) = (charValue c.toLower * primes.sum).tmod nthreads := by
  rw [hash, foldl_mul, zero_add]

theorem hash_lt (s : Str) : hash s < nthreads := by
  cases s with
  | nil => decide
  | cons c s =>
    rw [hash_cons]
    exact Int.tmod_lt_of_pos _ (by decide)

/-- The hash value of a name that starts with an ASCII character is an index into the hash table. -/
theorem hash_nonneg_of_head (hs : ∀ c ∈ s.head?, c.toNat < 128) : 0 ≤ hash s := by
  cases s with
  | nil => exact le_rfl
  | cons c s =>
    rw [hash_cons]
    have hv := charValue_nonneg (toNat_toLower (hs c rfl))
    exact Int.tmod_nonneg _ (Int.mul_nonneg hv (by decide))

/-- The size of the table is a prime, so the value of a negative character is not even zero. -/
theorem hash_neg (hc : 128 ≤ c.toNat) (hb : c.toNat < 256) (s : Str) : hash (c :: s) < 0 := by
  have hv : charValue c = -((256 - c.toNat : Nat) : Int) := by
    rw [charValue, if_neg (by omega)]
    omega
  have hp : primes.sum = 2578 := by decide
  rw [hash_cons, toLower_of_high hc, hv, hp, Int.neg_mul, Int.neg_tmod, nthreads]
  generalize hm : 256 - c.toNat = m
  rw [Int.tmod_eq_emod_of_nonneg (by omega)]
  omega

theorem toLower_streq (h : streq s t = true) : s.map Char.toLower = t.map Char.toLower := by
  simpa [streq] using h

/-- Names that are equal up to the letter case are in one thread. -/
theorem hash_streq (h : streq s t = true) : hash s = hash t := by
  have hm := toLower_streq h
  cases s with
  | nil =>
    cases t with
    | nil => rfl
    | cons c t => simp at hm
  | cons b s =>
    cases t with
    | nil => simp at hm
    | cons c t =>
      simp only [List.map_cons, List.cons.injEq] at hm
      simp only [hash, hm.1]

/-! ## The thread -/

theorem thread_eq_some : thread s = some h ↔ hash s = h := by
  unfold thread
  split
  · simp only [Option.some.injEq]
    omega
  · simp only [reduceCtorEq, false_iff]
    omega

theorem thread_eq_none : thread s = none ↔ hash s < 0 := by
  unfold thread
  split <;> simp <;> omega

/-- The table is written outside exactly for a name with a negative value. -/
theorem Db.enter_eq_none {db : Db} {index : Nat} : db.enter index s = none ↔ hash s < 0 := by
  rw [← thread_eq_none]
  unfold Db.enter
  split
  · next hs =>
    subst hs
    simp [thread, hash]
  · exact Option.map_eq_none_iff

/-! ## The comparison -/

/-- The loop of `streq`: it ends at the first difference, or at the end of a string. -/
def streqLoop : Str → Str → Bool
  | c₁ :: s₁, c₂ :: s₂ => if c₁.toLower ≠ c₂.toLower then false else streqLoop s₁ s₂
  | [], [] => true
  | _, _ => false

theorem streqLoop_eq (s t : Str) : streqLoop s t = streq s t := by
  induction s generalizing t with
  | nil => cases t <;> rfl
  | cons b s ih =>
    cases t with
    | nil => rfl
    | cons c t =>
      rw [streqLoop, ih]
      unfold streq
      by_cases h : b.toLower = c.toLower <;> simp [h]

/-! ## Keys of any bytes -/

/-- The `key` of a call: a C string has no null in it. -/
structure Key where
  bytes : List UInt8
  noNull : 0 ∉ bytes

/-- The characters of the bytes -/
def Key.text (k : Key) : Str := k.bytes.map fun b => Char.ofNat b.toNat

variable {k : Key}

theorem toNat_ofByte (b : UInt8) : (Char.ofNat b.toNat).toNat = b.toNat := by
  have hb := b.toNat_lt
  have hv : b.toNat.isValidChar := Or.inl (by omega)
  rw [Char.ofNat, dif_pos hv]
  rfl

/-- The sign of the value is the sign of the first `char`. -/
theorem Key.hash_nonneg_iff : 0 ≤ hash k.text ↔ ∀ b ∈ k.bytes.head?, b < 128 := by
  obtain ⟨bytes, hn⟩ := k
  cases bytes with
  | nil => simp [Key.text, hash]
  | cons b bs =>
    have hb := toNat_ofByte b
    constructor
    · intro h b' hb'
      obtain rfl : b = b' := Option.some.inj hb'
      by_contra hlt
      have hge : 128 ≤ b.toNat := UInt8.le_iff_toNat_le.mp (UInt8.not_lt.mp hlt)
      have hneg := hash_neg (hb.symm ▸ hge) (hb.symm ▸ b.toNat_lt) (bs.map fun b => Char.ofNat b.toNat)
      exact absurd h (Int.not_le.mpr hneg)
    · intro h
      refine hash_nonneg_of_head fun c hc => ?_
      obtain rfl : Char.ofNat b.toNat = c := Option.some.inj hc
      rw [hb]
      exact UInt8.lt_iff_toNat_lt.mp (h b rfl)

theorem Key.hash_neg_iff : hash k.text < 0 ↔ ∃ b ∈ k.bytes.head?, 128 ≤ b := by
  rw [← Int.not_le, Key.hash_nonneg_iff]
  simp only [not_forall, UInt8.not_lt, exists_prop]

/-- `kwdb_AddEntry` writes in front of the table for these keys, -/
theorem Key.enter_eq_none {db : Db} {index : Nat} :
    db.enter index k.text = none ↔ ∃ b ∈ k.bytes.head?, 128 ≤ b :=
  Db.enter_eq_none.trans Key.hash_neg_iff

/-- and `kwdb_Lookup` reads there. -/
theorem Key.lookup_eq_none {db : Db} {inst : Nat} (hk : ∃ b ∈ k.bytes.head?, 128 ≤ b) :
    db.lookup k.text inst = none := by
  rw [Db.lookup, thread_eq_none.mpr (Key.hash_neg_iff.mpr hk), Option.bind_none]

/-- What the table and its threads rely on: the value is an index, and keys that the search takes for the same have the
same value. -/
def Hashes (k₁ k₂ : Key) : Prop :=
  (0 ≤ hash k₁.text ∧ hash k₁.text < nthreads) ∧ (streqLoop k₁.text k₂.text → hash k₁.text = hash k₂.text)

theorem hashes_iff (k₁ k₂ : Key) : Hashes k₁ k₂ ↔ ∀ b ∈ k₁.bytes.head?, b < 128 := by
  constructor
  · intro h
    exact Key.hash_nonneg_iff.mp h.1.1
  · intro h
    refine ⟨⟨Key.hash_nonneg_iff.mpr h, hash_lt _⟩, fun heq => ?_⟩
    rw [streqLoop_eq] at heq
    exact hash_streq heq

/-- A keyword that starts with a byte of Latin-1 -/
def latin : Key := ⟨[0xC9, 0x43, 0x48], by decide⟩

/-- The index is -721. -/
theorem hashes_not : ¬ ∀ k₁ k₂, Hashes k₁ k₂ := by
  intro h
  have hn := (h latin latin).1.1
  revert hn
  decide

end Ndhs.Kwdb
