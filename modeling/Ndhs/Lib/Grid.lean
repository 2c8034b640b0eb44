import Mathlib.Data.List.Nodup
import Mathlib.Data.List.Perm.Subperm
import Mathlib.Tactic.Common

/-!
# Two loops, one inside the other, and copies of cells

`grid a b f` are the values `f i j` in the order of two nested loops. A grid of distinct indices below `a * b` is a
permutation of the range (`grid_perm`).

A `Cursor` is a buffer and the position of the next write. `emit` copies one cell of a source to the cursor and moves
it on; a loop of copies over a list of indices writes the cells at these indices, one after another (`foldlM_emit`).
`copyCells` copies a block of cells (`bcopy`). A copy that leaves a buffer has no result.
-/

namespace Grid

variable {α β σ : Type*} {a b : Nat}

/-- The values of `f i j`, for `i < a` and for `j < b` in each round. -/
def grid (a b : Nat) (f : Nat → Nat → α) : List α := (List.range a).flatMap fun i => (List.range b).map (f i)

variable {f : Nat → Nat → α}

theorem grid_succ : grid (a + 1) b f = grid a b f ++ (List.range b).map (f a) := by
  rw [grid, List.range_succ, List.flatMap_append, List.flatMap_singleton, grid]

@[simp] theorem length_grid : (grid a b f).length = a * b := by
  induction a with
  | zero => simp [grid]
  | succ a ih => rw [grid_succ, List.length_append, ih, List.length_map, List.length_range, Nat.succ_mul]

theorem mem_grid {x : α} : x ∈ grid a b f ↔ ∃ i < a, ∃ j < b, f i j = x := by
  simp [grid]

theorem map_grid (g : α → β) : (grid a b f).map g = grid a b fun i j => g (f i j) := by
  simp [grid, List.map_flatMap, Function.comp_def]

theorem grid_congr {f' : Nat → Nat → α} (h : ∀ i < a, ∀ j < b, f i j = f' i j) : grid a b f = grid a b f' := by
  refine List.flatMap_congr fun i hi => List.map_congr_left fun j hj => ?_
  exact h i (List.mem_range.mp hi) j (List.mem_range.mp hj)

/-- The cell of round `i`, `j`. -/
theorem grid_getElem? {i j : Nat} (hi : i < a) (hj : j < b) : (grid a b f)[i * b + j]? = some (f i j) := by
  induction a with
  | zero => omega
  | succ a ih =>
    rw [grid_succ]
    rcases Nat.lt_succ_iff_lt_or_eq.mp hi with hlt | rfl
    · have hle : (i + 1) * b ≤ a * b := Nat.mul_le_mul_right b hlt
      rw [Nat.succ_mul] at hle
      rw [List.getElem?_append_left (by rw [length_grid]; omega), ih hlt]
    · rw [List.getElem?_append_right (by rw [length_grid]; omega), length_grid, Nat.add_sub_cancel_left]
      simp [hj]

theorem grid_getD {i j : Nat} (hi : i < a) (hj : j < b) (z : α) : (grid a b f).getD (i * b + j) z = f i j := by
  rw [List.getD_eq_getElem?_getD, grid_getElem? hi hj, Option.getD_some]

theorem index_lt {i j : Nat} (hi : i < a) (hj : j < b) : i * b + j < a * b := by
  have hle : (i + 1) * b ≤ a * b := Nat.mul_le_mul_right b hi
  rw [Nat.succ_mul] at hle
  omega

/-- The cells in their own order. -/
theorem grid_range : grid a b (fun i j => i * b + j) = List.range (a * b) := by
  induction a with
  | zero => simp [grid]
  | succ a ih =>
    rw [grid_succ, ih, Nat.succ_mul, List.range_add]

/-- The row and the column of an index are unique. -/
theorem index_inj {i j i' j' : Nat} (hj : j < b) (hj' : j' < b) (h : i * b + j = i' * b + j') : i = i' ∧ j = j' := by
  have hb : 0 < b := Nat.zero_lt_of_lt hj
  have hdiv (i j : Nat) (hj : j < b) : (i * b + j) / b = i := by
    rw [Nat.mul_comm, Nat.mul_add_div hb, Nat.div_eq_of_lt hj, Nat.add_zero]
  have hi : i = i' := by rw [← hdiv i j hj, h, hdiv i' j' hj']
  subst hi
  exact ⟨rfl, Nat.add_left_cancel h⟩

theorem nodup_grid (hinj : ∀ i < a, ∀ j < b, ∀ i' < a, ∀ j' < b, f i j = f i' j' → i = i' ∧ j = j') :
    (grid a b f).Nodup := by
  refine List.nodup_flatMap.mpr ⟨fun i hi => ?_, ?_⟩
  · refine List.Nodup.map_on (fun j hj j' hj' h => ?_) List.nodup_range
    rw [List.mem_range] at hi hj hj'
    exact (hinj i hi j hj i hi j' hj' h).2
  · refine (List.nodup_range (n := a)).imp_of_mem fun {i i'} hi hi' hne => ?_
    refine List.disjoint_left.mpr fun x hx hx' => ?_
    obtain ⟨j, hj, rfl⟩ := List.mem_map.mp hx
    obtain ⟨j', hj', h⟩ := List.mem_map.mp hx'
    rw [List.mem_range] at hi hi' hj hj'
    exact hne (hinj i hi j hj i' hi' j' hj' h.symm).1

/-- Distinct indices below `a * b` are all of them. -/
theorem grid_perm {f : Nat → Nat → Nat} (hlt : ∀ i < a, ∀ j < b, f i j < a * b)
    (hinj : ∀ i < a, ∀ j < b, ∀ i' < a, ∀ j' < b, f i j = f i' j' → i = i' ∧ j = j') :
    (grid a b f).Perm (List.range (a * b)) := by
  have hsub : (grid a b f) ⊆ List.range (a * b) := by
    intro x hx
    obtain ⟨i, hi, j, hj, rfl⟩ := mem_grid.mp hx
    exact List.mem_range.mpr (hlt i hi j hj)
  refine (List.subperm_of_subset (nodup_grid hinj) hsub).perm_of_length_le ?_
  simp

/-- The nested loops as one loop. -/
theorem foldlM_grid (step : σ → α → Option σ) (s : σ) :
    (List.range a).foldlM (fun s i => (List.range b).foldlM (fun s j => step s (f i j)) s) s =
      (grid a b f).foldlM step s := by
  induction a generalizing s with
  | zero => rfl
  | succ a ih =>
    rw [grid_succ, List.range_succ, List.foldlM_append, List.foldlM_append, ih]
    refine bind_congr fun s => ?_
    rw [List.foldlM_cons, List.foldlM_map]
    exact bind_pure _

/-! ## Copies -/

/-- A buffer and the position of the next write -/
structure Cursor (α : Type*) where
  buf : List α
  pos : Nat

/-- `*op++ = *(ip + i)` -/
def emit (ip : List α) (op : Cursor α) (i : Nat) : Option (Cursor α) :=
  ip[i]?.bind fun v => if op.pos < op.buf.length then some ⟨op.buf.set op.pos v, op.pos + 1⟩ else none

theorem emit_eq {ip : List α} {op : Cursor α} {i : Nat} (hi : i < ip.length) (hp : op.pos < op.buf.length) (z : α) :
    emit ip op i = some ⟨op.buf.set op.pos (ip.getD i z), op.pos + 1⟩ := by
  simp [emit, hi, hp]

/-- A loop of copies within the buffers. -/
theorem foldlM_emit {ip : List α} (z : α) {is : List Nat} (hi : ∀ i ∈ is, i < ip.length) (op : Cursor α)
    (hp : op.pos + is.length ≤ op.buf.length) :
    is.foldlM (emit ip) op = some
      ⟨op.buf.take op.pos ++ is.map (ip.getD · z) ++ op.buf.drop (op.pos + is.length), op.pos + is.length⟩ := by
  induction is generalizing op with
  | nil => simp
  | cons i is ih =>
    rw [List.length_cons] at hp
    rw [List.foldlM_cons, emit_eq (hi i List.mem_cons_self) (by omega) z]
    refine (ih (fun i h => hi i (List.mem_cons_of_mem _ h)) _ (by simp only [List.length_set]; omega)).trans ?_
    have hset : (op.buf.set op.pos (ip.getD i z)).take (op.pos + 1) = op.buf.take op.pos ++ [ip.getD i z] := by
      rw [List.take_add_one, List.take_set_of_le (Nat.le_refl _), List.getElem?_set_self (by omega)]
      rfl
    have hidx : op.pos + 1 + is.length = op.pos + (is.length + 1) := by omega
    simp only [hset, hidx, List.drop_set_of_lt (show op.pos < op.pos + (is.length + 1) by omega), List.length_cons,
      List.map_cons, List.append_assoc, List.singleton_append]

/-- A loop of copies that goes through has stayed within the buffers. -/
theorem foldlM_emit_some {ip : List α} {is : List Nat} {op op' : Cursor α} (h : is.foldlM (emit ip) op = some op')
    (hp : op.pos ≤ op.buf.length) : (∀ i ∈ is, i < ip.length) ∧ op.pos + is.length ≤ op.buf.length := by
  induction is generalizing op with
  | nil => exact ⟨List.forall_mem_nil _, hp⟩
  | cons i is ih =>
    rw [List.foldlM_cons] at h
    obtain ⟨op₁, he, hr⟩ := Option.bind_eq_some_iff.mp h
    obtain ⟨v, hv, hs⟩ := Option.bind_eq_some_iff.mp he
    obtain ⟨hi, -⟩ := List.getElem?_eq_some_iff.mp hv
    split at hs
    · rename_i hlt
      cases hs
      obtain ⟨hin, hroom⟩ := ih hr (by simp only [List.length_set]; omega)
      simp only [List.length_set] at hroom
      exact ⟨List.forall_mem_cons.mpr ⟨hi, hin⟩, by rw [List.length_cons]; omega⟩
    · cases hs

/-- A loop of copies that fills a buffer from its start. -/
theorem foldlM_emit_fill {ip buf : List α} (z : α) {is : List Nat} (hi : ∀ i ∈ is, i < ip.length)
    (hp : buf.length = is.length) :
    is.foldlM (emit ip) ⟨buf, 0⟩ = some ⟨is.map (ip.getD · z), is.length⟩ := by
  rw [foldlM_emit z hi _ (by simp [hp])]
  simp [← hp]

/-- `bcopy` of `n` cells from `ip + s` to `op + d` -/
def copyCells (ip : List α) (s : Nat) (op : List α) (d n : Nat) : Option (List α) :=
  if s + n ≤ ip.length ∧ d + n ≤ op.length then some (op.take d ++ (ip.drop s).take n ++ op.drop (d + n)) else none

theorem copyCells_eq (ip op : List α) {s d n : Nat} (z : α) (hs : s + n ≤ ip.length) (hd : d + n ≤ op.length) :
    ∃ op', copyCells ip s op d n = some op' ∧ op'.length = op.length ∧
      ∀ k, op'.getD k z = if d ≤ k ∧ k < d + n then ip.getD (s + (k - d)) z else op.getD k z := by
  refine ⟨_, if_pos ⟨hs, hd⟩, ?_, fun k => ?_⟩
  · simp only [List.length_append, List.length_take, List.length_drop]
    omega
  · simp only [List.getD_eq_getElem?_getD]
    have hlen : (op.take d).length = d := by rw [List.length_take]; omega
    have hlen' : ((ip.drop s).take n).length = n := by rw [List.length_take, List.length_drop]; omega
    by_cases h₁ : k < d
    · rw [if_neg (by omega), List.append_assoc, List.getElem?_append_left (by omega), List.getElem?_take_of_lt h₁]
    · by_cases h₂ : k < d + n
      · rw [if_pos ⟨by omega, h₂⟩, List.append_assoc, List.getElem?_append_right (by omega), hlen,
          List.getElem?_append_left (by omega), List.getElem?_take_of_lt (by omega), List.getElem?_drop]
      · rw [if_neg (by omega), List.getElem?_append_right (by rw [List.length_append, hlen, hlen']; omega),
          List.length_append, hlen, hlen', List.getElem?_drop]
        congr 2
        omega

end Grid
