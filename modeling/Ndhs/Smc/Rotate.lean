import Mathlib.Data.BitVec
import Ndhs.Smc.Rectify

/-!
# Flips and transposes for all pixel sizes (`smcmgr/rotate.c`)

`Smc/Rectify.lean` has the transformations for pixels of four bytes, with one buffer. Here are the branches for all
three sizes, and the statics that they share: each size has its own buffer, but `first_time` and the dimensions of the
last call are the same for all.

The raster that is transformed is not the buffer itself, which the caller copies before it is given to another call.
Pointers fit into `XLONG`.

* `origin`: the place in the input from which each place of the output is to be. `origin_origin`: twice is where it
  started.
* `transform_eq`: the loops as copies in the order of `order`. The two-byte branch of `transpose1` has an order of its
  own, and `order_outside` says that it leaves the input.
* `rotate_iff`: when a call is right, and a second one gives the input back.
-/

namespace Ndhs

namespace Rotate

open Function Grid

/-- The `type` of a raster: 1, 2 and 4 -/
inductive PixType where
  | uchar
  | ushort
  | ulong
  deriving DecidableEq, Repr

def PixType.bits : PixType → Nat
  | .uchar => 8
  | .ushort => 16
  | .ulong => 32

abbrev PixType.Pixel (t : PixType) := BitVec t.bits

section Loops

variable {α : Type} (type : PixType) (ip : List α) (op : Cursor α) (nx ny : Nat)

/-- `for (x = nx; x > 0; x--)`, with `x = nx - k` in round `k`. The three branches are the same. -/
def flipx : Option (Cursor α) :=
  (List.range ny).foldlM (fun op y =>
    (List.range nx).foldlM (fun op k => emit ip op (y * nx + (nx - k) - 1)) op) op

/-- `for (y = ny - 1; y >= 0; y--)`, with `y = ny - 1 - k` in round `k`. The three branches are the same. -/
def flipy : Option (Cursor α) :=
  (List.range ny).foldlM (fun op k =>
    (List.range nx).foldlM (fun op x => emit ip op ((ny - 1 - k) * nx + x)) op) op

/-- `for (y = ny; y > 0; y--)`, with `y = ny - k` in round `k`. The three branches are the same. -/
def transpose2 : Option (Cursor α) :=
  (List.range nx).foldlM (fun op x =>
    (List.range ny).foldlM (fun op k => emit ip op ((ny - k) * nx - x - 1)) op) op

/-- The branch for two bytes counts `y` from `ny` down to 1. -/
def transpose1 : Option (Cursor α) :=
  match type with
  | .uchar | .ulong =>
    (List.range nx).foldlM (fun op x =>
      (List.range ny).foldlM (fun op y => emit ip op (y * nx + x)) op) op
  | .ushort =>
    (List.range nx).foldlM (fun op x =>
      (List.range ny).foldlM (fun op k => emit ip op ((ny - k) * nx + x)) op) op

/-- The second `switch` of `rotate` -/
def transform (dir : Nat) : Option (Cursor α) :=
  match dir with
  | 1 => flipx ip op nx ny
  | 2 => flipy ip op nx ny
  | 3 => transpose1 type ip op nx ny
  | 4 => transpose2 ip op nx ny
  | _ => some op

end Loops

/-- The statics of `rotate`. A buffer that was not allocated is empty. -/
structure Statics where
  first_time : Bool := true
  sv_nx : Nat := 0
  sv_ny : Nat := 0
  buf : (t : PixType) → List t.Pixel := fun _ => []
  small : sv_nx * sv_ny < 2 ^ 31 := by decide

/-- The first part of `rotate`: a new buffer for this type, if the last call was for another number of pixels. -/
def Statics.alloc (s : Statics) (type : PixType) (nx ny : Nat) : Option Statics :=
  if h : nx * ny < 2 ^ 31 then
    let s := if nx * ny ≠ s.sv_nx * s.sv_ny then
        { s with sv_nx := nx, sv_ny := ny, first_time := true, small := h } else s
    some (if s.first_time then
      { s with first_time := false, buf := update s.buf type (List.replicate (nx * ny) 0) } else s)
  else none

/-- `rotate`: the statics and the buffer to which `*oadr` points -/
def rotate (s : Statics) (type : PixType) (iadr : List type.Pixel) (nx ny dir : Nat) :
    Option (Statics × List type.Pixel) := do
  let s ← s.alloc type nx ny
  let op ← transform type iadr ⟨s.buf type, 0⟩ nx ny dir
  some ({ s with buf := update s.buf type op.buf }, op.buf)

/-! ## What the transformations are -/

/-- The rows and the columns of the result -/
def rows (nx ny dir : Nat) : Nat := if dir ≤ 2 then ny else nx

def cols (nx ny dir : Nat) : Nat := if dir ≤ 2 then nx else ny

/-- The row and the column of the input from which the pixel in row `r` and column `c` of the result is: a flip of the
x axis, a flip of the y axis, and the transposes around the two diagonals. -/
def origin (nx ny dir r c : Nat) : Nat × Nat :=
  match dir with
  | 1 => (r, nx - 1 - c)
  | 2 => (ny - 1 - r, c)
  | 3 => (c, r)
  | _ => (ny - 1 - c, nx - 1 - r)

/-- The result for the raster `ip` -/
def moved {α : Type} [Zero α] (ip : List α) (nx ny dir : Nat) : List α :=
  grid (rows nx ny dir) (cols nx ny dir) fun r c =>
    ip.getD ((origin nx ny dir r c).1 * nx + (origin nx ny dir r c).2) 0

/-- A call is right: for every raster it reads inside the raster only and gives the result, and a second call, with the
dimensions of the result, gives back the raster. -/
def Right (s : Statics) (type : PixType) (nx ny dir : Nat) : Prop :=
  ∀ ip : List type.Pixel, ip.length = nx * ny →
    ∃ s' op, rotate s type ip nx ny dir = some (s', op) ∧ op.take (nx * ny) = moved ip nx ny dir ∧
      ∃ s'' op', rotate s' type (op.take (nx * ny)) (cols nx ny dir) (rows nx ny dir) dir = some (s'', op') ∧
        op'.take (nx * ny) = ip

section Origin

variable {nx ny dir r c : Nat}

theorem rows_mul_cols : rows nx ny dir * cols nx ny dir = nx * ny := by
  rw [rows, cols]
  split
  · exact Nat.mul_comm ny nx
  · rfl

/-- The result of the result has the rows and the columns of the input. -/
theorem rows_rows : rows (cols nx ny dir) (rows nx ny dir) dir = ny := by
  unfold rows cols
  split <;> rfl

theorem cols_cols : cols (cols nx ny dir) (rows nx ny dir) dir = nx := by
  unfold rows cols
  split <;> rfl

theorem origin_lt (hd : 1 ≤ dir) (hd' : dir ≤ 4) (hr : r < rows nx ny dir) (hc : c < cols nx ny dir) :
    (origin nx ny dir r c).1 < ny ∧ (origin nx ny dir r c).2 < nx := by
  obtain rfl | rfl | rfl | rfl : dir = 1 ∨ dir = 2 ∨ dir = 3 ∨ dir = 4 := by omega
  · exact ⟨hr, Nat.sub_one_sub_lt_of_lt hc⟩
  · exact ⟨Nat.sub_one_sub_lt_of_lt hr, hc⟩
  · exact ⟨hc, hr⟩
  · exact ⟨Nat.sub_one_sub_lt_of_lt hc, Nat.sub_one_sub_lt_of_lt hr⟩

/-- The origin of the origin is the place itself. -/
theorem origin_origin (hd : 1 ≤ dir) (hd' : dir ≤ 4) (hr : r < ny) (hc : c < nx) :
    origin nx ny dir (origin (cols nx ny dir) (rows nx ny dir) dir r c).1
      (origin (cols nx ny dir) (rows nx ny dir) dir r c).2 = (r, c) := by
  obtain rfl | rfl | rfl | rfl : dir = 1 ∨ dir = 2 ∨ dir = 3 ∨ dir = 4 := by omega
  · show (r, nx - 1 - (nx - 1 - c)) = (r, c)
    rw [Nat.sub_sub_self (by omega)]
  · show (ny - 1 - (ny - 1 - r), c) = (r, c)
    rw [Nat.sub_sub_self (by omega)]
  · rfl
  · show (ny - 1 - (ny - 1 - r), nx - 1 - (nx - 1 - c)) = (r, c)
    rw [Nat.sub_sub_self (by omega), Nat.sub_sub_self (by omega)]

/-- A raster is its own pixels, row by row. -/
theorem grid_self {α : Type} [Zero α] {ip : List α} (hip : ip.length = nx * ny) :
    (grid ny nx fun r c => ip.getD (r * nx + c) 0) = ip := by
  have hmap := map_grid (a := ny) (b := nx) (f := fun r c => r * nx + c) (ip.getD · (0 : α))
  rw [← hmap, grid_range, Nat.mul_comm, ← hip]
  refine List.ext_getElem (by simp) fun i h₁ h₂ => ?_
  simp [List.getD_eq_getElem?_getD, h₂]

/-- Twice is the raster itself. -/
theorem moved_moved {α : Type} [Zero α] {ip : List α} (hd : 1 ≤ dir) (hd' : dir ≤ 4) (hip : ip.length = nx * ny) :
    moved (moved ip nx ny dir) (cols nx ny dir) (rows nx ny dir) dir = ip := by
  conv => rhs; rw [← grid_self hip]
  rw [moved, rows_rows, cols_cols]
  refine grid_congr fun r hr c hc => ?_
  obtain ⟨h₁, h₂⟩ := @origin_lt (cols nx ny dir) (rows nx ny dir) dir r c hd hd'
    (by rw [rows_rows]; exact hr) (by rw [cols_cols]; exact hc)
  rw [moved, grid_getD h₁ h₂, origin_origin hd hd' hr hc]

end Origin

/-! ## The loops -/

/-- The cells in the order in which they are copied -/
def order (type : PixType) (nx ny dir : Nat) : List Nat :=
  if type = .ushort ∧ dir = 3 then grid nx ny fun x k => (ny - k) * nx + x else rotated nx ny dir

section Loops

variable {α : Type} {type : PixType} {ip : List α} {op : Cursor α} {nx ny dir : Nat}

theorem transform_eq (hd : 1 ≤ dir) (hd' : dir ≤ 4) :
    transform type ip op nx ny dir = (order type nx ny dir).foldlM (emit ip) op := by
  obtain rfl | rfl | rfl | rfl : dir = 1 ∨ dir = 2 ∨ dir = 3 ∨ dir = 4 := by omega
  · rw [order, if_neg (by simp)]
    exact foldlM_grid (emit ip) _
  · rw [order, if_neg (by simp)]
    exact foldlM_grid (emit ip) _
  · cases type
    · exact foldlM_grid (emit ip) _
    · exact foldlM_grid (emit ip) _
    · exact foldlM_grid (emit ip) _
  · rw [order, if_neg (by simp)]
    exact foldlM_grid (emit ip) _

/-- The first cell that the two-byte branch of `transpose1` copies is behind the raster. -/
theorem order_outside (hx : 1 ≤ nx) (hy : 1 ≤ ny) : nx * ny ∈ order .ushort nx ny 3 := by
  rw [order, if_pos ⟨rfl, rfl⟩, mem_grid]
  exact ⟨0, hx, 0, hy, Nat.mul_comm ny nx⟩

variable [Zero α]

/-- The order of the other branches is that of the result. -/
theorem rotated_moved (hd : 1 ≤ dir) (hd' : dir ≤ 4) : (rotated nx ny dir).map (ip.getD · 0) = moved ip nx ny dir := by
  obtain rfl | rfl | rfl | rfl : dir = 1 ∨ dir = 2 ∨ dir = 3 ∨ dir = 4 := by omega
  · refine (map_grid _).trans (grid_congr fun y hy k hk => ?_)
    show ip.getD (y * nx + (nx - k) - 1) 0 = ip.getD (y * nx + (nx - 1 - k)) 0
    rw [Nat.add_sub_assoc (by omega), Nat.sub_right_comm]
  · exact map_grid _
  · exact map_grid _
  · refine (map_grid _).trans (grid_congr fun x hx k hk => ?_)
    show ip.getD ((ny - k) * nx - x - 1) 0 = ip.getD ((ny - 1 - k) * nx + (nx - 1 - x)) 0
    rw [transpose2_index hx hk]

end Loops

/-! ## Calls -/

/-- The buffer of the type is new, or has room for the raster. -/
def Statics.Room (s : Statics) (type : PixType) (nx ny : Nat) : Prop :=
  s.first_time = true ∨ nx * ny ≠ s.sv_nx * s.sv_ny ∨ nx * ny ≤ (s.buf type).length

section Calls

variable {s : Statics} {type : PixType} {nx ny dir : Nat} {ip : List type.Pixel}

theorem Statics.alloc_some (s : Statics) (type : PixType) (hn : nx * ny < 2 ^ 31) :
    ∃ t : Statics, s.alloc type nx ny = some t ∧ (nx * ny ≤ (t.buf type).length ↔ s.Room type nx ny) := by
  rw [alloc, dif_pos hn]
  refine ⟨_, rfl, ?_⟩
  by_cases hsv : nx * ny = s.sv_nx * s.sv_ny
  · simp only [ne_eq, hsv, not_true_eq_false, if_false]
    cases hf : s.first_time with
    | true =>
      simp only [if_true, update_self, List.length_replicate, Statics.Room, hf]
      exact iff_of_true (Nat.le_refl _) (.inl trivial)
    | false => simp [Statics.Room, hf, hsv]
  · simp [Statics.Room, hsv]

theorem rotate_none (hn : ¬ nx * ny < 2 ^ 31) : rotate s type ip nx ny dir = none := by
  rw [rotate, Statics.alloc, dif_neg hn]
  rfl

/-- A call that goes through has read inside the raster, and has had room. -/
theorem rotate_some (hd : 1 ≤ dir) (hd' : dir ≤ 4) {r : Statics × List type.Pixel}
    (h : rotate s type ip nx ny dir = some r) :
    nx * ny < 2 ^ 31 ∧ (∀ i ∈ order type nx ny dir, i < ip.length) ∧
      ((order type nx ny dir).length = nx * ny → s.Room type nx ny) := by
  by_cases hn : nx * ny < 2 ^ 31
  · obtain ⟨t, ht, hroom⟩ := s.alloc_some type hn
    rw [rotate, ht, Option.bind_eq_bind, Option.bind_some] at h
    obtain ⟨op, hop, -⟩ := Option.bind_eq_some_iff.mp h
    rw [transform_eq hd hd'] at hop
    obtain ⟨hin, hlen⟩ := foldlM_emit_some hop (Nat.zero_le _)
    exact ⟨hn, hin, fun heq => hroom.mp (by rw [← heq]; simpa using hlen)⟩
  · rw [rotate_none hn] at h
    cases h

/-- The call, in the branches that have the right order -/
theorem rotate_moved (hd : 1 ≤ dir) (hd' : dir ≤ 4) (hsafe : ¬ (type = .ushort ∧ dir = 3)) (hn : nx * ny < 2 ^ 31)
    (hroom : s.Room type nx ny) (hip : ip.length = nx * ny) :
    ∃ s' op, rotate s type ip nx ny dir = some (s', op) ∧ op.take (nx * ny) = moved ip nx ny dir ∧
      ∀ nx' ny', nx' * ny' = nx * ny → s'.Room type nx' ny' := by
  obtain ⟨t, ht, hlen⟩ := s.alloc_some type hn
  have hlen := hlen.mpr hroom
  have hcount : (rotated nx ny dir).length = nx * ny := length_rotated hd hd'
  have hloop : transform type ip ⟨t.buf type, 0⟩ nx ny dir =
      some ⟨moved ip nx ny dir ++ (t.buf type).drop (nx * ny), nx * ny⟩ := by
    rw [transform_eq hd hd', order, if_neg hsafe,
      foldlM_emit 0 (fun i hi => hip ▸ rotated_lt hd hd' hi) _ (by simpa [hcount] using hlen), hcount,
      rotated_moved hd hd']
    simp
  have hmoved : (moved ip nx ny dir).length = nx * ny := by
    rw [← rotated_moved hd hd', List.length_map, hcount]
  refine ⟨{ t with buf := update t.buf type (moved ip nx ny dir ++ (t.buf type).drop (nx * ny)) },
    moved ip nx ny dir ++ (t.buf type).drop (nx * ny), ?_, ?_, fun nx' ny' heq => .inr (.inr ?_)⟩
  · rw [rotate, ht]
    simp only [Option.bind_eq_bind, Option.bind_some, hloop]
  · rw [List.take_append_of_le_length hmoved.ge, List.take_of_length_le hmoved.le]
  · show nx' * ny' ≤ (update t.buf type (moved ip nx ny dir ++ (t.buf type).drop (nx * ny)) type).length
    rw [update_self, List.length_append, hmoved, heq]
    exact Nat.le_add_right _ _

end Calls

/-- A call is right unless it is for the transpose of two-byte pixels around the main diagonal, if the number of pixels
is an `int` and the buffer of the type has room. -/
theorem rotate_iff (s : Statics) (type : PixType) (nx ny dir : Nat) (hx : 1 ≤ nx) (hy : 1 ≤ ny) (hd : 1 ≤ dir)
    (hd' : dir ≤ 4) :
    Right s type nx ny dir ↔ nx * ny < 2 ^ 31 ∧ ¬ (type = .ushort ∧ dir = 3) ∧ s.Room type nx ny := by
  constructor
  · intro h
    obtain ⟨s', op, hr, -⟩ := h (List.replicate (nx * ny) 0) List.length_replicate
    obtain ⟨hn, hin, hroom⟩ := rotate_some hd hd' hr
    rw [List.length_replicate] at hin
    have hsafe : ¬ (type = .ushort ∧ dir = 3) := by
      rintro ⟨rfl, rfl⟩
      exact Nat.lt_irrefl _ (hin _ (order_outside hx hy))
    exact ⟨hn, hsafe, hroom (by rw [order, if_neg hsafe, length_rotated hd hd'])⟩
  · rintro ⟨hn, hsafe, hroom⟩ ip hip
    obtain ⟨s', op, hr, hop, hroom'⟩ := rotate_moved hd hd' hsafe hn hroom hip
    have hback : cols nx ny dir * rows nx ny dir = nx * ny := by rw [Nat.mul_comm, rows_mul_cols]
    have hlen : (op.take (nx * ny)).length = cols nx ny dir * rows nx ny dir := by
      rw [hop, moved, length_grid, Nat.mul_comm]
    obtain ⟨s'', op', hr', hop', -⟩ := rotate_moved hd hd' hsafe (hback ▸ hn) (hroom' _ _ hback) hlen
    refine ⟨s', op, hr, hop, s'', op', hr', ?_⟩
    rw [← hback, hop', hop, moved_moved hd hd' hip]

/-- The first call, for one pixel of two bytes: the transpose around the main diagonal reads behind it. -/
theorem rotate_not : ¬ Right {} .ushort 1 1 3 := by
  intro h
  obtain ⟨s', op, hr, -⟩ := h [7] rfl
  cases hr

/-- The first call, for a raster of one-byte pixels -/
theorem rotate_first :
    1 ≤ 3 ∧ 1 ≤ 2 ∧ 1 ≤ 3 ∧ 3 ≤ 4 ∧
      (Right {} .uchar 3 2 3 ↔ 3 * 2 < 2 ^ 31 ∧ ¬ (PixType.uchar = .ushort ∧ 3 = 3) ∧ Statics.Room {} .uchar 3 2) :=
  ⟨by decide, by decide, by decide, by decide, rotate_iff {} .uchar 3 2 3 (by decide) (by decide) (by decide) (by decide)⟩

end Rotate

end Ndhs
