import Ndhs.Vm.Cache

/-!
# The cache list is ordered by the last reference

`Ordered`: `segment_head` and `next`, and `segment_tail` and `prev`, describe the same list in opposite orders, the most
recently referenced segment first, and `cacheused` is the sum of the sizes, as an `unsigned long`.

A segment that is found in the cache is unlinked and linked at the head by code that does not set `segment_tail`. So the
order is lost when the last of several segments is moved (`MovesTail`), and only then (`ordered_iff`): the list back
from `segment_tail` is then this segment alone. The list forward is still right (`step_rep`).
-/

namespace Ndhs.Vm

open Function Linked Machine

variable {w : Nat}

structure WellFormed (vm : Vmcache w) (l : List Nat) : Prop where
  forward : Chain vm.links.next vm.segmentHead l
  backward : Chain vm.links.prev vm.segmentTail l.reverse
  order : l.Pairwise fun i j => vm.stamp j < vm.stamp i
  used : vm.cacheused = (l.map fun i => (vm.info i).nbytes).sum

def Ordered (vm : Vmcache w) : Prop := ∃ l, WellFormed vm l

/-- The tail of several segments is not moved, and no segment is read that was freed. -/
def Careful (keeps : Bool) (vm : Vmcache w) (op : Op w) : Prop :=
  ¬ MovesTail vm op ∧ (keeps ∨ ¬ ReadsFreed vm op)

variable {vm : Vmcache w} {l : List Nat}

theorem Rep.wellFormed (h : Rep vm l) (ht : vm.segmentTail = last l) : WellFormed vm l where
  forward := h.dlist.next
  backward := by
    rw [ht]
    exact h.dlist.prev
  order := h.order
  used := h.used

/-- The list back starts at the last segment. -/
theorem Rep.tail_of_ordered (h : Rep vm l) (ho : Ordered vm) : vm.segmentTail = last l := by
  obtain ⟨l', hw⟩ := ho
  obtain rfl := hw.forward.unique h.dlist.next
  rw [hw.backward.head_eq, List.reverse_reverse]

/-- In every state of a run of the cache the list is ordered, if and only if the tail of several segments is never moved
to the front, and no segment is read that was freed, or freed blocks can still be read. -/
theorem ordered_iff (keeps enable : Bool) (cachesize pagesize : BitVec w) (ops : List (Op w)) :
    Always Ordered (step keeps) (initcache enable cachesize pagesize) ops ↔
      Steps (Careful keeps) (step keeps) (initcache enable cachesize pagesize) ops := by
  refine always_iff_steps (I := fun vm => ∃ l, Rep vm l ∧ vm.segmentTail = last l) ?_ ?_ ?_
    ⟨[], rep_initcache enable cachesize pagesize, rfl⟩
  · rintro vm ⟨l, h, ht⟩
    exact ⟨l, h.wellFormed ht⟩
  · rintro vm op ⟨l, h, ht⟩ ⟨hm, hk⟩
    obtain ⟨vm', l', hs, hst⟩ := step_rep h op hk
    exact ⟨vm', hs, l', hst.rep, (hst.tail ht).mpr hm⟩
  · rintro vm op t ⟨l, h, ht⟩ hbad hs ho
    by_cases hk : keeps = true ∨ ¬ ReadsFreed vm op
    · obtain ⟨vm', l', hs', hst⟩ := step_rep h op hk
      obtain rfl : t = vm' := Option.some.inj (hs.symm.trans hs')
      exact hbad ⟨(hst.tail ht).mp (hst.rep.tail_of_ordered ho), hk⟩
    · simp only [not_or, not_not] at hk
      obtain rfl : keeps = false := by simpa using hk.1
      rw [step_none h ht op hk.2] at hs
      cases hs

/-- Two files are cached, and the first one again. -/
def twoFiles : List (Op 32) :=
  [.cacheregion (some ⟨1, 0⟩) 0 4096 8192 true, .cacheregion (some ⟨2, 0⟩) 0 4096 16384 true,
    .cacheregion (some ⟨1, 0⟩) 0 4096 8192 true]

/-- The first file is found at the tail. After it is moved it is both the head and the tail of the list. -/
theorem twoFiles_not_ordered : ¬ Always Ordered (step true) (initcache true 1048576 4096) twoFiles := by
  intro h
  obtain ⟨vm, hr, l, hw⟩ := h.last
  have hv : (run (step true) (initcache true 1048576 4096) twoFiles).map
      (fun vm => (vm.segmentHead, vm.segmentTail, vm.links.next 1, vm.links.prev 1)) = some (1, 1, 2, 0) := by
    decide +kernel
  simp only [hr, Option.map_some, Option.some.injEq, Prod.mk.injEq] at hv
  obtain ⟨hhead, htail, hnext, hprev⟩ := hv
  have hf := hw.forward
  have hb := hw.backward
  rw [hhead] at hf
  rw [htail] at hb
  cases l with
  | nil => exact absurd hf one_ne_zero
  | cons a l =>
    obtain ⟨rfl, -, hf⟩ := hf
    rw [hnext] at hf
    have hl : l.reverse ≠ [] := by
      rw [ne_eq, List.reverse_eq_nil_iff]
      rintro rfl
      exact absurd hf two_ne_zero
    obtain ⟨b, r, hrev⟩ := List.exists_cons_of_ne_nil hl
    rw [List.reverse_cons, hrev, List.cons_append] at hb
    obtain ⟨rfl, -, hb⟩ := hb
    rw [hprev] at hb
    have := hb.zero
    simp at this

end Ndhs.Vm
