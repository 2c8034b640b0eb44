import Mathlib.Data.List.Basic
import Mathlib.Tactic.Common

/-!
# Reading from a socket

A socket is the list of what its reads will meet: a piece of data that has arrived, no data yet, or an error; behind
them the connection is closed. A read gets at most one piece, so the pieces are the way in which the reads split the
bytes. `recv n` reads until there are `n` bytes.

`recv_append`: without errors `recv n` gives the next `n` bytes, however they are split.
-/

namespace Socket

/-- What a read meets: at least one byte, a reason to try again, or an error. -/
inductive Arrival where
  | data (b : UInt8) (bs : List UInt8)
  | again
  | fail

/-- How a sequence of reads ends -/
inductive Status where
  | ok
  | eof
  | err
  deriving DecidableEq

/-- The bytes that were read, how the reads ended, and what is left. -/
structure Result where
  got : List UInt8
  status : Status
  rest : List Arrival

/-- The bytes that are to arrive -/
def bytes : List Arrival → List UInt8
  | [] => []
  | .data b bs :: l => b :: bs ++ bytes l
  | .again :: l => bytes l
  | .fail :: l => bytes l

/-- There is no error. -/
def Clean (l : List Arrival) : Prop := .fail ∉ l

/-- The number of bytes before the end or the next error -/
def ahead : List Arrival → Nat
  | [] => 0
  | .data b bs :: l => (b :: bs).length + ahead l
  | .again :: l => ahead l
  | .fail :: _ => 0

/-- Leave a piece of data, if there is anything in it. -/
def leave : List UInt8 → List Arrival → List Arrival
  | [], l => l
  | b :: bs, l => .data b bs :: l

/-- Read until there are `n` more bytes than `got`. -/
def recvLoop : Nat → List UInt8 → List Arrival → Result
  | _, got, [] => ⟨got, .eof, []⟩
  | n, got, .again :: l => recvLoop n got l
  | _, got, .fail :: l => ⟨got, .err, l⟩
  | n, got, .data b bs :: l =>
    if (b :: bs).length < n then recvLoop (n - (b :: bs).length) (got ++ b :: bs) l
    else ⟨got ++ (b :: bs).take n, .ok, leave ((b :: bs).drop n) l⟩

def recv (n : Nat) (l : List Arrival) : Result := recvLoop n [] l

/-- One read, of all that has arrived. -/
def once : List Arrival → Result
  | [] => ⟨[], .eof, []⟩
  | .again :: l => ⟨[], .ok, l⟩
  | .fail :: l => ⟨[], .err, l⟩
  | .data b bs :: l => ⟨b :: bs, .ok, l⟩

/-- The number of bytes that have arrived at the next read -/
def offered : List Arrival → Nat
  | .data b bs :: _ => (b :: bs).length
  | _ => 0

variable {l : List Arrival} {n : Nat} {x y : List UInt8}

theorem once_length (l : List Arrival) : (once l).got.length = offered l := by
  match l with
  | [] | .again :: _ | .fail :: _ | .data _ _ :: _ => rfl

theorem once_rest (l : List Arrival) : (once l).got.length + (bytes (once l).rest).length = (bytes l).length := by
  match l with
  | [] => rfl
  | .again :: _ | .fail :: _ => exact Nat.zero_add _
  | .data b bs :: l => exact (List.length_append : ((b :: bs) ++ bytes l).length = _).symm

theorem bytes_leave (bs : List UInt8) (l : List Arrival) : bytes (leave bs l) = bs ++ bytes l := by
  cases bs <;> rfl

theorem clean_leave {bs : List UInt8} (h : Clean l) : Clean (leave bs l) := by
  cases bs with
  | nil => exact h
  | cons b bs => exact fun hm => (List.mem_cons.mp hm).elim nofun h

theorem recvLoop_append (g : List UInt8) (hl : Clean l) (hb : bytes l = x ++ y) (hn : x.length = n)
    (hpos : 0 < n) : ∃ rest, recvLoop n g l = ⟨g ++ x, .ok, rest⟩ ∧ bytes rest = y ∧ Clean rest := by
  induction l generalizing n x g with
  | nil =>
    obtain ⟨rfl, -⟩ := List.append_eq_nil_iff.mp hb.symm
    simp at hn
    omega
  | cons a l ih =>
    have hl' : Clean l := fun hm => hl (List.mem_cons_of_mem _ hm)
    cases a with
    | again => exact ih g hl' hb hn hpos
    | fail => exact absurd List.mem_cons_self hl
    | data b bs =>
      rw [bytes] at hb
      rw [recvLoop]
      split
      · next hlt =>
        -- the whole piece is a part of what is read
        obtain ⟨x', rfl⟩ : ∃ x', (b :: bs) ++ x' = x :=
          List.prefix_iff_exists_append_eq.mp (List.prefix_of_prefix_length_le (List.prefix_append _ _)
            (hb ▸ List.prefix_append x y) (by omega))
        rw [List.append_assoc] at hb
        rw [List.length_append] at hn
        obtain ⟨rest, hr, hrest⟩ := ih (g ++ b :: bs) hl' (List.append_cancel_left hb)
          (n := n - (b :: bs).length) (by omega) (by omega)
        exact ⟨rest, by rw [hr, List.append_assoc], hrest⟩
      · next hge =>
        have hx : x = (b :: bs).take n := by
          have htake := congrArg (List.take n) hb
          rwa [List.take_append_of_le_length (by omega), List.take_left' hn, eq_comm] at htake
        have hy : (b :: bs).drop n ++ bytes l = y := by
          have hdrop := congrArg (List.drop n) hb
          rwa [List.drop_append_of_le_length (by omega), List.drop_left' hn] at hdrop
        exact ⟨_, by rw [hx], by rw [bytes_leave, hy], clean_leave hl'⟩

/-- The next bytes are read, however they are split. -/
theorem recv_append (hl : Clean l) (hb : bytes l = x ++ y) (hn : x.length = n) (hpos : 0 < n) :
    ∃ rest, recv n l = ⟨x, .ok, rest⟩ ∧ bytes rest = y ∧ Clean rest := by
  obtain ⟨rest, hr, h⟩ := recvLoop_append [] hl hb hn hpos
  exact ⟨rest, hr, h⟩

theorem recvLoop_length (n : Nat) (got : List UInt8) (l : List Arrival) :
    (recvLoop n got l).got.length ≤ got.length + n ∧
      ((recvLoop n got l).status = .ok → (recvLoop n got l).got.length = got.length + n) ∧
      (recvLoop n got l).got.length + (bytes (recvLoop n got l).rest).length = got.length + (bytes l).length := by
  induction l generalizing n got with
  | nil => simp [recvLoop]
  | cons a l ih =>
    cases a with
    | again => exact ih n got
    | fail => simp [recvLoop, bytes]
    | data b bs =>
      rw [recvLoop]
      split
      · next hlt =>
        obtain ⟨h₁, h₂, h₃⟩ := ih (n - (b :: bs).length) (got ++ b :: bs)
        rw [List.length_append] at h₁ h₂ h₃
        refine ⟨by omega, fun hs => by rw [h₂ hs]; omega, ?_⟩
        rw [h₃, bytes, List.length_append]
        omega
      · next hge =>
        have htake : ((b :: bs).take n).length = n := List.length_take_of_le (by omega)
        simp only [List.length_append, htake, bytes_leave, List.length_drop, bytes]
        exact ⟨Nat.le_refl _, fun _ => trivial, by omega⟩

theorem recv_length (h : (recv n l).status = .ok) : (recv n l).got.length = n := by
  simpa [recv] using (recvLoop_length n [] l).2.1 h

theorem recv_rest (n : Nat) (l : List Arrival) :
    (recv n l).got.length + (bytes (recv n l).rest).length = (bytes l).length := by
  simpa [recv] using (recvLoop_length n [] l).2.2

theorem clean_recvLoop (h : Clean l) : Clean (recvLoop n got l).rest := by
  induction l generalizing n got with
  | nil => exact nofun
  | cons a l ih =>
    have hl : Clean l := fun hm => h (List.mem_cons_of_mem _ hm)
    cases a with
    | again => exact ih hl
    | fail => exact absurd List.mem_cons_self h
    | data b bs =>
      rw [recvLoop]
      split
      · exact ih hl
      · exact clean_leave hl

theorem clean_recv (h : Clean l) : Clean (recv n l).rest := clean_recvLoop h

theorem ahead_leave (bs : List UInt8) (l : List Arrival) : ahead (leave bs l) = bs.length + ahead l := by
  cases bs with
  | nil => exact (Nat.zero_add _).symm
  | cons b bs => rfl

theorem recvLoop_ahead (n : Nat) (got : List UInt8) (l : List Arrival) :
    (recvLoop n got l).got.length = got.length + min n (ahead l) ∧
      (0 < n → n ≤ ahead l → n + ahead (recvLoop n got l).rest = ahead l) := by
  induction l generalizing n got with
  | nil => exact ⟨by simp [recvLoop, ahead], by simp only [ahead]; omega⟩
  | cons a l ih =>
    cases a with
    | again => exact ih n got
    | fail => exact ⟨by simp [recvLoop, ahead], by simp only [ahead]; omega⟩
    | data b bs =>
      rw [recvLoop, ahead]
      split
      · next hlt =>
        obtain ⟨h₁, h₂⟩ := ih (n - (b :: bs).length) (got ++ b :: bs)
        rw [List.length_append] at h₁
        exact ⟨by omega, fun hpos hle => by have := h₂ (by omega) (by omega); omega⟩
      · next hge =>
        have htake : ((b :: bs).take n).length = n := List.length_take_of_le (by omega)
        simp only [List.length_append, htake, ahead_leave, List.length_drop]
        exact ⟨by omega, fun _ _ => by omega⟩

/-- How much is read before the end or an error -/
theorem recv_got_length (n : Nat) (l : List Arrival) : (recv n l).got.length = min n (ahead l) := by
  simpa [recv] using (recvLoop_ahead n [] l).1

theorem recv_ahead (hpos : 0 < n) (h : n ≤ ahead l) : n + ahead (recv n l).rest = ahead l :=
  (recvLoop_ahead n [] l).2 hpos h

end Socket
