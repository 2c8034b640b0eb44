import Mathlib.Data.List.TakeWhile
import Ndhs.Lib.Pvm

/-!
# Messages on the message bus

`mbusPackMsg` packs a message and `mbusRecv` unpacks it (`lib/msg/mbSend.c`, `lib/msg/mbRecv.c`). Both are modelled
over the encoding of PVM. A string is packed with its final zero and one more zero; one byte less is unpacked, and one
byte more.

* `CString`: the bytes of a string before its final zero.
* `mbusRecv` gives `none` if the message ends too early: what it then returns is not determined.
* An acknowledgement is never asked for, so `ack` is zero.

`mbusRecv_mbusPackMsg_iff`: the messages that come out as they went in.
-/

namespace Ndhs.Mbus

open Pvm

structure CString where
  chars : List UInt8
  not_mem : 0 ∉ chars

/-- A string, or `NULL` -/
def packString : Option CString → List UInt8
  | none => pkint 0
  | some s =>
    let len := BitVec.ofNat 32 (s.chars.length + 1)
    pkint len ++ pkbyte ((s.chars ++ [0]).take len.toInt.toNat) ++ pkbyte [0]

def mbusPackMsg (fromTid toTid subject : BitVec 32) (host msg : Option CString) : List UInt8 :=
  pkint 0 ++ pkint fromTid ++ pkint toTid ++ pkint subject ++ packString host ++ packString msg

/-- The string that is unpacked to memory from `calloc` -/
def recvString (buf : List UInt8) : Option (Option (List UInt8) × List UInt8) := do
  let (len, buf) ← upkint buf
  if 0 < len.toInt then
    let (s, buf) ← upkbyte (len.toInt - 1).toNat buf
    let (_, buf) ← upkbyte 1 buf
    return (some (s.takeWhile (· ≠ 0)), buf)
  else return (none, buf)

/-- What `mbusRecv` returns -/
structure Received where
  fromTid : BitVec 32
  toTid : BitVec 32
  subject : BitVec 32
  host : Option (List UInt8)
  msg : Option (List UInt8)
  deriving DecidableEq

def mbusRecv (buf : List UInt8) : Option Received := do
  let (_, buf) ← upkint buf
  let (fromTid, buf) ← upkint buf
  let (toTid, buf) ← upkint buf
  let (subject, buf) ← upkint buf
  let (host, buf) ← recvString buf
  let (msg, _) ← recvString buf
  return { fromTid, toTid, subject, host, msg }

/-! ## A string -/

section
variable {s : CString} {rest : List UInt8}

/-- The length with the final zero is an `int`. -/
def CString.Short (s : CString) : Prop := s.chars.length + 1 < 2 ^ 31

theorem takeWhile_cstring (s : CString) : s.chars.takeWhile (· ≠ 0) = s.chars :=
  List.takeWhile_eq_self_iff.mpr fun _ hb => decide_eq_true fun h0 => s.not_mem (h0 ▸ hb)

theorem recvString_none (rest : List UInt8) : recvString (packString none ++ rest) = some (none, rest) := by
  simp only [recvString, packString, upkint_pkint]
  rfl

theorem packString_short (hs : s.Short) :
    packString (some s) = pkint (BitVec.ofNat 32 (s.chars.length + 1)) ++ pkbyte (s.chars ++ [0]) ++ pkbyte [0] ∧
      (BitVec.ofNat 32 (s.chars.length + 1)).toInt = s.chars.length + 1 := by
  have hint : (BitVec.ofNat 32 (s.chars.length + 1)).toInt = s.chars.length + 1 := by
    rw [CString.Short] at hs
    rw [BitVec.toInt_ofNat', Int.bmod_eq_of_le (by omega) (by omega)]
    rfl
  refine ⟨?_, hint⟩
  simp only [packString, hint]
  rw [List.take_of_length_le (by rw [List.length_append, List.length_singleton]; omega)]

/-- The string comes out. If its length is a multiple of four, there is a zero left. -/
theorem recvString_short (hs : s.Short) :
    recvString (packString (some s) ++ rest) =
      some (some s.chars, if s.chars.length % 4 = 0 then pkint 0 ++ rest else rest) := by
  obtain ⟨hpack, hint⟩ := packString_short hs
  have hpos : (0 : Int) < s.chars.length + 1 := by omega
  have hlen : ((s.chars.length : Int) + 1 - 1).toNat = s.chars.length := by omega
  rw [hpack, List.append_assoc, List.append_assoc]
  simp only [recvString, upkint_pkint, Option.bind_eq_bind, Option.bind_some, hint, hpos, if_true, hlen]
  by_cases hn : s.chars.length % 4 = 0
  · rw [upkbyte_short_rest rfl hn, Option.bind_some]
    simp only [upkbyte_of_length (show [0].length = 1 from rfl), Option.bind_some, takeWhile_cstring, hn, if_true,
      ← pkbyte_zero]
    rfl
  · rw [upkbyte_short_same rfl hn, Option.bind_some]
    simp only [upkbyte_of_length (show [0].length = 1 from rfl), Option.bind_some, takeWhile_cstring, hn, if_false]
    rfl

/-- A string that is too long does not come out. -/
theorem recvString_long (hs : ¬ s.Short) {got : Option (List UInt8)} {rest' : List UInt8}
    (h : recvString (packString (some s) ++ rest) = some (got, rest')) : got ≠ some s.chars := by
  have hlt : (BitVec.ofNat 32 (s.chars.length + 1)).toInt - 1 < s.chars.length := by
    have hmax := BitVec.toInt_lt (x := BitVec.ofNat 32 (s.chars.length + 1))
    rw [CString.Short] at hs
    omega
  simp only [packString, List.append_assoc, recvString, upkint_pkint, Option.bind_eq_bind, Option.bind_some] at h
  split at h
  · simp only [Option.bind_eq_some_iff, Prod.exists] at h
    obtain ⟨got', _, hgot, _, _, -, heq⟩ := h
    simp only [Option.pure_def, Option.some.injEq, Prod.mk.injEq] at heq
    rw [← heq.1]
    intro hsome
    have hle := upkbyte_length_le hgot
    have hle' := (List.takeWhile_prefix (p := (· ≠ (0 : UInt8))) (l := got')).length_le
    rw [Option.some.inj hsome] at hle'
    omega
  · simp only [Option.pure_def, Option.some.injEq, Prod.mk.injEq] at h
    rw [← h.1]
    nofun

end

/-! ## A message -/

/-- The message that was sent -/
def sent (fromTid toTid subject : BitVec 32) (host msg : Option CString) : Received :=
  ⟨fromTid, toTid, subject, host.map CString.chars, msg.map CString.chars⟩

theorem mbusRecv_mbusPackMsg (fromTid toTid subject : BitVec 32) (host msg : Option CString) :
    mbusRecv (mbusPackMsg fromTid toTid subject host msg) =
      (recvString (packString host ++ packString msg)).bind fun r =>
        (recvString r.2).bind fun r' => some ⟨fromTid, toTid, subject, r.1, r'.1⟩ := by
  simp only [mbusRecv, mbusPackMsg, List.append_assoc, upkint_pkint, Option.bind_eq_bind, Option.bind_some]
  rfl

/-- The last string of a message -/
theorem recvString_last (msg : Option CString) :
    (∃ rest, recvString (packString msg) = some (msg.map CString.chars, rest)) ↔ ∀ s, msg = some s → s.Short := by
  rw [← List.append_nil (packString msg)]
  cases msg with
  | none => exact iff_of_true ⟨_, recvString_none []⟩ nofun
  | some s =>
    constructor
    · rintro ⟨rest, h⟩ t ht
      rw [← Option.some.inj ht]
      exact Classical.not_not.mp fun hs => recvString_long hs h rfl
    · intro hs
      exact ⟨_, recvString_short (hs s rfl)⟩

theorem bind_recvString_iff {fromTid toTid subject : BitVec 32} {host msg : Option CString}
    {got : Option (List UInt8)} {buf : List UInt8} :
    ((recvString buf).bind fun r => some ⟨fromTid, toTid, subject, got, r.1⟩) =
        some (sent fromTid toTid subject host msg) ↔
      got = host.map CString.chars ∧ ∃ rest, recvString buf = some (msg.map CString.chars, rest) := by
  simp only [Option.bind_eq_some_iff, Prod.exists, Option.some.injEq, sent, Received.mk.injEq, true_and]
  constructor
  · rintro ⟨_, rest, hrecv, rfl, rfl⟩
    exact ⟨rfl, rest, hrecv⟩
  · rintro ⟨rfl, rest, hrecv⟩
    exact ⟨_, rest, hrecv, rfl, rfl⟩

/-- The host comes out, and the text behind it. -/
def Passes (host msg : Option CString) : Prop :=
  (∀ s, host = some s → s.Short) ∧ (∀ s, msg = some s → s.Short) ∧
    ((∀ s, host = some s → s.chars.length % 4 ≠ 0) ∨ msg = none)

/-- A message comes out as it went in, if and only if its strings are not too long, and the length of the host is not a
multiple of four or there is no text. -/
theorem mbusRecv_mbusPackMsg_iff (fromTid toTid subject : BitVec 32) (host msg : Option CString) :
    mbusRecv (mbusPackMsg fromTid toTid subject host msg) = some (sent fromTid toTid subject host msg) ↔
      Passes host msg := by
  rw [mbusRecv_mbusPackMsg]
  cases host with
  | none =>
    rw [recvString_none, Option.bind_some, bind_recvString_iff, recvString_last]
    exact ⟨fun h => ⟨nofun, h.2, .inl nofun⟩, fun h => ⟨rfl, h.2.1⟩⟩
  | some s =>
    by_cases hs : s.Short
    · rw [recvString_short hs, Option.bind_some, bind_recvString_iff]
      by_cases hn : s.chars.length % 4 = 0
      · -- the text is taken from the zero that is left
        have hzero : recvString (pkint 0 ++ packString msg) = some (none, packString msg) := recvString_none _
        simp only [hn, if_true, hzero]
        constructor
        · rintro ⟨-, rest, hmsg⟩
          have hnone : msg = none := by
            cases msg with
            | none => rfl
            | some t => simp at hmsg
          subst hnone
          exact ⟨fun _ h => Option.some.inj h ▸ hs, nofun, .inr rfl⟩
        · rintro ⟨-, -, hor⟩
          have hnone : msg = none := hor.resolve_left fun h => h s rfl hn
          subst hnone
          exact ⟨rfl, _, rfl⟩
      · simp only [hn, if_false, recvString_last]
        exact ⟨fun h => ⟨fun _ h' => Option.some.inj h' ▸ hs, h.2, .inl fun _ h' => Option.some.inj h' ▸ hn⟩,
          fun h => ⟨rfl, h.2.1⟩⟩
    · refine iff_of_false (fun h => ?_) fun h => hs (h.1 s rfl)
      obtain ⟨⟨got, rest⟩, hrecv, h⟩ := Option.bind_eq_some_iff.mp h
      exact recvString_long hs hrecv (bind_recvString_iff.mp h).1

/-- A host of four letters and a text of one -/
theorem four_letters_lost :
    ¬ mbusRecv (mbusPackMsg 1 2 3 (some ⟨[110, 111, 100, 101], by decide⟩) (some ⟨[65], by decide⟩)) =
      some (sent 1 2 3 (some ⟨[110, 111, 100, 101], by decide⟩) (some ⟨[65], by decide⟩)) := by
  decide +kernel

end Ndhs.Mbus
