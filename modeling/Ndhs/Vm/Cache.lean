import Mathlib.Algebra.BigOperators.Group.List.Basic
import Mathlib.Data.BitVec
import Ndhs.Lib.Doubly
import Ndhs.Lib.Run

/-!
# The cache of file segments (`mosdca/vmcache.c`)

The segments that are mapped form a doubly linked list, the most recently referenced one first. `vm_cacheregion` puts a
segment in front, or moves one there, `vm_uncacheregion` and `vm_closecache` free segments, and `vm_reservespace` frees
them from the tail on until there is space.

* A segment descriptor is a positive number, and zero is the null pointer. An `unsigned long` has `w` bits,
  with its wraparound.
* The system is an argument of each call: the file that `fstat` finds, if any, the value of the variable `addr`, which is
  the address of the mapping, and is not set if the segment was cached before, and whether `calloc` finds memory.
* `vm_reservespace` and `vm_closecache` free a descriptor and then read it. `keeps` tells whether a block can still be
  read after it is freed; if not there is no result.
* `stamp` is the time of the last reference to a segment, the last `vm_cacheregion` or `vm_refreshregion` that found it.

`Rep vm l`: the descriptors `l` are linked in both directions, and `cacheused` is the sum of their sizes. Every call
keeps it (`step_rep`). It does not say that the list ends at `segment_tail`.
-/

namespace Ndhs.Vm

open Function Linked Machine

variable {w : Nat}

/-! ## The descriptor -/

/-- What does not change in a segment descriptor: the file that it maps, and where. -/
structure Info (w : Nat) where
  inode : BitVec w
  device : BitVec w
  offset : BitVec w
  nbytes : BitVec w
  addr : BitVec w

/-- `struct vmcache`, with the segment descriptors. -/
structure Vmcache (w : Nat) where
  segmentHead : Nat
  segmentTail : Nat
  cacheInitialized : Bool
  cacheEnabled : Bool
  cacheused : BitVec w
  cachesize : BitVec w
  pagesize : BitVec w
  links : Links
  refcnt : Nat → Int
  info : Nat → Info w
  /-- the number of descriptors that were allocated -/
  calloced : Nat
  /-- the time of the last reference to a segment -/
  stamp : Nat → Nat
  clock : Nat

/-- The file that a file descriptor refers to: `st_ino` and `st_dev`. -/
structure Stat (w : Nat) where
  ino : BitVec w
  dev : BitVec w

/-- `vm_initcache`, with the values of its options -/
def initcache (enable : Bool) (cachesize pagesize : BitVec w) : Vmcache w where
  segmentHead := 0
  segmentTail := 0
  cacheInitialized := true
  cacheEnabled := enable
  cacheused := 0
  cachesize
  pagesize
  links := ⟨fun _ => 0, fun _ => 0⟩
  refcnt := fun _ => 0
  info := fun _ => ⟨0, 0, 0, 0, 0⟩
  calloced := 0
  stamp := fun _ => 0
  clock := 0

/-- The value of an `int` -/
def toInt (n : Int) : Int := n.bmod (2 ^ 32)

namespace Vmcache

variable (vm : Vmcache w)

/-- The start of the page of `x` -/
def x0 (x : BitVec w) : BitVec w := x - x % vm.pagesize

/-- The last byte of the page of `x` -/
def x1 (x : BitVec w) : BitVec w := (x - x % vm.pagesize) + vm.pagesize - 1

/-- The segment belongs to the file, and has the byte `x` of it. -/
def covers (st : Stat w) (x : BitVec w) (sp : Nat) : Bool :=
  (vm.info sp).inode == st.ino && (vm.info sp).device == st.dev &&
    (decide ((vm.info sp).offset ≤ x) && decide (x < (vm.info sp).offset + (vm.info sp).nbytes))

/-- The segment belongs to the file, and starts at `x`. -/
def starts (st : Stat w) (x : BitVec w) (sp : Nat) : Bool :=
  (vm.info sp).inode == st.ino && (vm.info sp).device == st.dev && (vm.info sp).offset == x

/-- A loop over the segments from the head on, until one has the property: this one, or zero. -/
def search (p : Nat → Bool) : Option Nat := find vm.links.next p vm.calloced vm.segmentHead

/-- Unlink the list element, link it at the head, and note the time. -/
def relink (sp : Nat) : Vmcache w :=
  { vm with
    links := if vm.segmentHead = sp then vm.links else (vm.links.unlink sp).push sp vm.segmentHead
    segmentHead := sp
    stamp := update vm.stamp sp vm.clock
    clock := vm.clock + 1 }

/-- Unlink and free the segment descriptor. -/
def free (sp : Nat) : Vmcache w :=
  { vm with
    cacheused := vm.cacheused - (vm.info sp).nbytes
    links := vm.links.unlink sp
    segmentHead := if vm.segmentHead = sp then vm.links.next sp else vm.segmentHead
    segmentTail := if vm.segmentTail = sp then vm.links.prev sp else vm.segmentTail }

/-- A new segment descriptor at the head of the cache. -/
def insert (x : Info w) : Vmcache w :=
  let sp := vm.calloced + 1
  { vm with
    calloced := sp
    info := update vm.info sp x
    refcnt := update vm.refcnt sp 0
    links := vm.links.push sp vm.segmentHead
    segmentHead := sp
    segmentTail := if vm.segmentTail = 0 then sp else vm.segmentTail
    cacheused := vm.cacheused + x.nbytes }

/-- `refresh:` move a new or existing segment to the head of the cache and increment the reference count. -/
def refresh (sp : Nat) : Vmcache w :=
  { vm.relink sp with
    segmentTail := if vm.segmentHead ≠ sp ∧ vm.segmentTail = 0 then sp else vm.segmentTail
    refcnt := update vm.refcnt sp (toInt (vm.refcnt sp + 1)) }

end Vmcache

/-! ## The calls -/

/-- The loop of `vm_reservespace`, from a segment on towards the head -/
def reserveLoop (keeps : Bool) (nbytes : BitVec w) : Nat → Nat → Vmcache w → Option (Vmcache w)
  | _, 0, vm => some vm
  | 0, _ + 1, _ => none
  | n + 1, sp, vm =>
    if nbytes < vm.cachesize - vm.cacheused then some vm
    else if vm.refcnt sp ≠ 0 then reserveLoop keeps nbytes n (vm.links.prev sp) vm
    -- `sp->prev` is read after `sp` was freed
    else if keeps then reserveLoop keeps nbytes n (vm.links.prev sp) (vm.free sp)
    else none

/-- `vm_reservespace` -/
def reservespace (keeps : Bool) (vm : Vmcache w) (nbytes : BitVec w) : Option (Vmcache w × Int) :=
  if !vm.cacheEnabled then some (vm, 0)
  else
    (reserveLoop keeps nbytes vm.calloced vm.segmentTail vm).map fun vm =>
      (vm, if nbytes ≤ vm.cachesize - vm.cacheused then 0 else -1)

/-- `vm_cacheregion`: the address that is returned, zero for `NULL`. -/
def cacheregion (keeps : Bool) (vm : Vmcache w) (st : Option (Stat w)) (offset nbytes addr : BitVec w) (mem : Bool) :
    Option (Vmcache w × BitVec w) :=
  match st with
  | none => some (vm, 0)
  | some st =>
    let x0 := vm.x0 offset
    let x1 := vm.x1 (offset + nbytes - 1)
    (vm.search (vm.covers st x0)).bind fun sp =>
      if sp ≠ 0 then
        -- the new segment lies entirely within an existing one, or extends it
        if vm.covers st x1 sp then some (vm.refresh sp, addr + (offset - (vm.info sp).offset)) else some (vm, 0)
      else
        (reservespace keeps vm (x1 - x0 + 1)).bind fun (vm, _) =>
          if addr = 0 then some (vm, 0)
          else if !mem then some (vm, 0)
          else
            let vm := vm.insert ⟨st.ino, st.dev, x0, x1 - x0 + 1, addr⟩
            some (vm.refresh vm.segmentHead, addr + (offset - x0))

/-- `vm_uncache`; `unmapped` tells whether `munmap` succeeds. -/
def uncache (vm : Vmcache w) (sp : Nat) (destroy cancel unmapped : Bool) : Vmcache w × Int :=
  let r := toInt (vm.refcnt sp - 1)
  let vm := { vm with refcnt := update vm.refcnt sp (if r < 0 ∨ cancel then 0 else r) }
  if vm.refcnt sp = 0 ∧ (destroy ∨ !vm.cacheEnabled) then (vm.free sp, if unmapped then 0 else -1) else (vm, 0)

/-- `vm_uncacheregion` -/
def uncacheregion (vm : Vmcache w) (st : Option (Stat w)) (offset : BitVec w) (destroy cancel unmapped : Bool) :
    Option (Vmcache w × Int) :=
  match st with
  | none => some (vm, -1)
  | some st =>
    (vm.search (vm.starts st (vm.x0 offset))).map fun sp =>
      if sp = 0 then (vm, -1) else uncache vm sp destroy cancel unmapped

/-- `vm_refreshregion` -/
def refreshregion (vm : Vmcache w) (st : Option (Stat w)) (offset : BitVec w) : Option (Vmcache w × Int) :=
  if !vm.cacheEnabled then some (vm, 0)
  else
    match st with
    | none => some (vm, -1)
    | some st =>
      (vm.search (vm.starts st (vm.x0 offset))).map fun sp => if sp = 0 then (vm, -1) else (vm.relink sp, 0)

/-- The loop of `vm_closecache` -/
def closeLoop (keeps : Bool) : Nat → Vmcache w → Option (Vmcache w)
  | n, vm =>
    if vm.segmentHead = 0 then some vm
    else
      match n with
      | 0 => none
      | n + 1 =>
        -- the file of the segment is closed after the descriptor was freed
        if keeps then closeLoop keeps n (uncache vm vm.segmentHead true true true).1 else none

/-- `vm_closecache` -/
def closecache (keeps : Bool) (vm : Vmcache w) : Option (Vmcache w) :=
  if !vm.cacheInitialized then some vm
  else (closeLoop keeps vm.calloced vm).map fun vm => { vm with cacheInitialized := false }

inductive Op (w : Nat) where
  | cacheregion (st : Option (Stat w)) (offset nbytes addr : BitVec w) (mem : Bool)
  | uncacheregion (st : Option (Stat w)) (offset : BitVec w) (destroy cancel unmapped : Bool)
  | refreshregion (st : Option (Stat w)) (offset : BitVec w)
  | reservespace (nbytes : BitVec w)
  | closecache

def step (keeps : Bool) (vm : Vmcache w) : Op w → Option (Vmcache w)
  | .cacheregion st offset nbytes addr mem => (cacheregion keeps vm st offset nbytes addr mem).map Prod.fst
  | .uncacheregion st offset destroy cancel unmapped =>
    (uncacheregion vm st offset destroy cancel unmapped).map Prod.fst
  | .refreshregion st offset => (refreshregion vm st offset).map Prod.fst
  | .reservespace nbytes => (reservespace keeps vm nbytes).map Prod.fst
  | .closecache => closecache keeps vm

/-! ## The list of segments -/

/-- The descriptors `l` are linked in both directions, the most recently referenced one first, and `cacheused` is the
sum of their sizes. -/
structure Rep (vm : Vmcache w) (l : List Nat) : Prop where
  dlist : DList vm.links vm.segmentHead l
  tail : vm.segmentTail = 0 ∨ vm.segmentTail ∈ l
  order : l.Pairwise fun i j => vm.stamp j < vm.stamp i
  clock : ∀ i ∈ l, vm.stamp i < vm.clock
  used : vm.cacheused = (l.map fun i => (vm.info i).nbytes).sum
  bound : ∀ i ∈ l, i ≤ vm.calloced

variable {vm vm' : Vmcache w} {l l' l₁ l₂ : List Nat} {sp : Nat}

theorem Rep.nodup (h : Rep vm l) : l.Nodup := h.dlist.next.nodup

/-- The number of descriptors bounds the rounds of every loop. -/
theorem Rep.length_le (h : Rep vm l) : l.length ≤ vm.calloced := by
  have hsub : l ⊆ List.range' 1 vm.calloced := by
    intro i hi
    have h0 := h.dlist.next.ne_zero hi
    have hb := h.bound i hi
    exact List.mem_range'_1.mpr ⟨by omega, by omega⟩
  simpa using (List.subperm_of_subset h.nodup hsub).length_le

theorem Rep.search (h : Rep vm l) (p : Nat → Bool) :
    (∃ sp ∈ l, p sp ∧ vm.search p = some sp) ∨ ((∀ sp ∈ l, ¬ p sp) ∧ vm.search p = some 0) :=
  h.dlist.next.find_cases h.length_le

theorem rep_initcache (enable : Bool) (cachesize pagesize : BitVec w) : Rep (initcache enable cachesize pagesize) [] :=
  ⟨.nil, .inl rfl, .nil, by simp, rfl, by simp⟩

/-- The reference counts are not part of it. -/
theorem Rep.refcnt (h : Rep vm l) (r : Nat → Int) : Rep { vm with refcnt := r } l :=
  ⟨h.dlist, h.tail, h.order, h.clock, h.used, h.bound⟩

theorem Rep.free (h : Rep vm l) (hx : sp ∈ l) : Rep (vm.free sp) (l.erase sp) where
  dlist := h.dlist.unlink hx
  tail := by
    simp only [Vmcache.free]
    split
    · obtain ⟨l₁, l₂, -, rfl, herase⟩ := List.exists_erase_eq hx
      rw [h.dlist.prev_eq, herase]
      rcases eq_or_ne l₁ [] with rfl | h₁
      · exact .inl rfl
      · exact .inr (List.mem_append_left _ (last_mem h₁))
    case isFalse hne => exact h.tail.imp_right fun ht => (List.mem_erase_of_ne hne).mpr ht
  order := h.order.sublist List.erase_sublist
  clock := fun i hi => h.clock i (List.mem_of_mem_erase hi)
  used := by
    have hsum := List.sum_map_erase (fun i => (vm.info i).nbytes) hx
    simp only [Vmcache.free, h.used, ← hsum, add_sub_cancel_left]
  bound := fun i hi => h.bound i (List.mem_of_mem_erase hi)

/-- The tail after a segment is freed -/
theorem Rep.free_tail (h : Rep vm l) (hx : sp ∈ l) (ht : vm.segmentTail = last l) :
    (vm.free sp).segmentTail = last (l.erase sp) := by
  obtain ⟨l₁, l₂, -, rfl, herase⟩ := List.exists_erase_eq hx
  rw [herase, h.dlist.last_unlink, ← ht]
  rfl

/-- The segment at the head is the first one. -/
theorem Rep.eq_cons (h : Rep vm l) (hx : sp ∈ l) (hh : vm.segmentHead = sp) : l = sp :: l.erase sp := by
  cases l with
  | nil => cases hx
  | cons a l =>
    obtain rfl : a = sp := h.dlist.next.1.symm.trans hh
    rw [List.erase_cons_head]

theorem Rep.relink (h : Rep vm l) (hx : sp ∈ l) : Rep (vm.relink sp) (sp :: l.erase sp) where
  dlist := by
    have h0 := h.dlist.next.ne_zero hx
    simp only [Vmcache.relink]
    split
    case isTrue hh =>
      rw [← h.eq_cons hx hh, ← hh]
      exact h.dlist
    case isFalse hh =>
      have hu := h.dlist.unlink hx
      rw [if_neg hh] at hu
      exact hu.push h0 h.nodup.not_mem_erase
  tail := h.tail.imp_right fun ht => by
    by_cases hs : vm.segmentTail = sp
    · rw [← hs]
      exact List.mem_cons_self
    · exact List.mem_cons_of_mem _ ((List.mem_erase_of_ne hs).mpr ht)
  order := by
    have hne : ∀ i ∈ l.erase sp, i ≠ sp := fun i hi => ((h.nodup.mem_erase_iff).mp hi).1
    refine List.pairwise_cons.mpr ⟨fun j hj => ?_, ?_⟩
    · simp only [Vmcache.relink, update_self, update_of_ne (hne j hj)]
      exact h.clock j (List.mem_of_mem_erase hj)
    · refine (h.order.sublist List.erase_sublist).imp_of_mem fun hi hj hij => ?_
      simp only [Vmcache.relink, update_of_ne (hne _ hi), update_of_ne (hne _ hj)]
      exact hij
  clock := by
    intro i hi
    simp only [Vmcache.relink]
    by_cases hs : i = sp
    · rw [hs, update_self]
      omega
    · rw [update_of_ne hs]
      have := h.clock i (List.mem_of_mem_erase ((List.mem_cons.mp hi).resolve_left hs))
      omega
  used := h.used.trans (List.sum_map_erase (fun i => (vm.info i).nbytes) hx).symm
  bound := by
    intro i hi
    rcases List.mem_cons.mp hi with rfl | hi
    · exact h.bound _ hx
    · exact h.bound i (List.mem_of_mem_erase hi)

/-- The tail is right after a segment is moved to the front, unless this segment was the tail of others. -/
theorem Rep.relink_tail (h : Rep vm l) (hx : sp ∈ l) (ht : vm.segmentTail = last l) :
    vm.segmentTail = last (sp :: l.erase sp) ↔ ¬ (vm.segmentTail = sp ∧ vm.segmentHead ≠ sp) := by
  by_cases hh : vm.segmentHead = sp
  · rw [← h.eq_cons hx hh]
    simp [ht, hh]
  · -- the head is another segment, so there are others
    have hne : l.erase sp ≠ [] := by
      have hu := (h.dlist.unlink hx).next
      rw [if_neg hh] at hu
      intro hnil
      rw [hnil] at hu
      have h0 : vm.segmentHead = 0 := hu
      rw [h.dlist.next.head_eq] at h0
      have hl : l.reverse ≠ [] := by simpa using List.ne_nil_of_mem hx
      exact h.dlist.next.ne_zero (List.mem_reverse.mp (last_mem hl)) h0
    rw [last_cons hne]
    by_cases hs : vm.segmentTail = sp
    · have hlast : sp ≠ last (l.erase sp) := by
        intro he
        have hm := last_mem hne
        rw [← he] at hm
        exact h.nodup.not_mem_erase hm
      simp [hs, hh, hlast]
    · rw [last_erase (by rw [← ht]; exact hs)]
      exact ⟨fun _ hm => hs hm.1, fun _ => ht⟩

/-- The tail is null if and only if there are no segments. -/
theorem Rep.tail_ne_zero (h : Rep vm l) (hx : sp ∈ l) (ht : vm.segmentTail = last l) : vm.segmentTail ≠ 0 := by
  rw [ht]
  exact h.dlist.next.ne_zero (last_mem (List.ne_nil_of_mem hx))

theorem Rep.refresh (h : Rep vm l) (hx : sp ∈ l) : Rep (vm.refresh sp) (sp :: l.erase sp) := by
  have hr := (h.relink hx).refcnt (update vm.refcnt sp (toInt (vm.refcnt sp + 1)))
  refine ⟨hr.dlist, ?_, hr.order, hr.clock, hr.used, hr.bound⟩
  simp only [Vmcache.refresh]
  split
  · exact .inr List.mem_cons_self
  · exact hr.tail

/-- A new segment is put in front. -/
theorem Rep.add (h : Rep vm l) (x : Info w) :
    Rep ((vm.insert x).refresh (vm.insert x).segmentHead) ((vm.calloced + 1) :: l) := by
  have hlt : ∀ i ∈ l, i ≠ vm.calloced + 1 := fun i hi he => by
    have := h.bound i hi
    omega
  have hnew : vm.calloced + 1 ∉ l := fun hm => hlt _ hm rfl
  constructor
  · simp only [Vmcache.refresh, Vmcache.relink, Vmcache.insert, if_true]
    exact h.dlist.push (Nat.succ_ne_zero _) hnew
  · simp only [Vmcache.refresh, Vmcache.relink, Vmcache.insert, ne_eq, not_true, false_and, if_false]
    split
    · exact .inr List.mem_cons_self
    case isFalse h0 => exact .inr (List.mem_cons_of_mem _ (h.tail.resolve_left h0))
  · refine List.pairwise_cons.mpr ⟨fun j hj => ?_, h.order.imp_of_mem fun hi hj hij => ?_⟩
    · simp only [Vmcache.refresh, Vmcache.relink, Vmcache.insert, update_self, update_of_ne (hlt j hj)]
      exact h.clock j hj
    · simp only [Vmcache.refresh, Vmcache.relink, Vmcache.insert, update_of_ne (hlt _ hi), update_of_ne (hlt _ hj)]
      exact hij
  · intro i hi
    simp only [Vmcache.refresh, Vmcache.relink, Vmcache.insert]
    rcases List.mem_cons.mp hi with rfl | hi
    · rw [update_self]
      omega
    · rw [update_of_ne (hlt i hi)]
      have := h.clock i hi
      omega
  · have hmap : (l.map fun i => (update vm.info (vm.calloced + 1) x i).nbytes) = l.map fun i => (vm.info i).nbytes :=
      List.map_congr_left fun i hi => by rw [update_of_ne (hlt i hi)]
    simp only [Vmcache.refresh, Vmcache.relink, Vmcache.insert, List.map_cons, List.sum_cons, update_self, hmap, ← h.used]
    exact add_comm _ _
  · intro i hi
    rcases List.mem_cons.mp hi with rfl | hi
    · exact le_refl _
    · exact (h.bound i hi).trans (Nat.le_succ _)

theorem Rep.add_tail (h : Rep vm l) (x : Info w) (ht : vm.segmentTail = last l) :
    ((vm.insert x).refresh (vm.insert x).segmentHead).segmentTail = last ((vm.calloced + 1) :: l) := by
  simp only [Vmcache.refresh, Vmcache.insert, ne_eq, not_true, false_and, if_false]
  rcases eq_or_ne l [] with rfl | hl
  · rw [ht]
    rfl
  · rw [if_neg (h.tail_ne_zero (last_mem hl) ht), last_cons hl, ht]

/-! ## Reserving space -/

section Reserve

variable {keeps : Bool} {nbytes : BitVec w} {n : Nat}

/-- Nothing but the list of segments changes: some of them are gone. -/
structure Drops (vm : Vmcache w) (l : List Nat) (vm' : Vmcache w) (l' : List Nat) : Prop where
  rep : Rep vm' l'
  sub : l' ⊆ l
  info : vm'.info = vm.info
  pagesize : vm'.pagesize = vm.pagesize
  calloced : vm'.calloced = vm.calloced
  tail : vm.segmentTail = last l → vm'.segmentTail = last l'

theorem Drops.refl (h : Rep vm l) : Drops vm l vm l := ⟨h, List.Subset.refl l, rfl, rfl, rfl, id⟩

theorem Drops.trans {vm'' : Vmcache w} {l'' : List Nat} (h : Drops vm l vm' l') (h' : Drops vm' l' vm'' l'') :
    Drops vm l vm'' l'' :=
  ⟨h'.rep, List.Subset.trans h'.sub h.sub, h'.info.trans h.info, h'.pagesize.trans h.pagesize,
    h'.calloced.trans h.calloced, h'.tail ∘ h.tail⟩

theorem Rep.drops_free (h : Rep vm l) (hx : sp ∈ l) : Drops vm l (vm.free sp) (l.erase sp) :=
  ⟨h.free hx, List.erase_subset, rfl, rfl, rfl, h.free_tail hx⟩

theorem reserveLoop_step (h0 : sp ≠ 0) :
    reserveLoop keeps nbytes (n + 1) sp vm =
      if nbytes < vm.cachesize - vm.cacheused then some vm
      else if vm.refcnt sp ≠ 0 then reserveLoop keeps nbytes n (vm.links.prev sp) vm
      else if keeps then reserveLoop keeps nbytes n (vm.links.prev sp) (vm.free sp)
      else none := by
  obtain ⟨sp, rfl⟩ := Nat.exists_eq_succ_of_ne_zero h0
  rfl

theorem reserveLoop_zero : reserveLoop keeps nbytes n 0 vm = some vm := by cases n <;> rfl

/-- The segments before a freed one are linked back as before. -/
theorem Rep.free_back (h : Rep vm (l₁ ++ sp :: l₂)) :
    Chain (vm.free sp).links.prev (vm.links.prev sp) l₁.reverse := by
  have hback := h.dlist.back.2.2
  have hnd := h.nodup
  refine hback.congr fun j hj => ?_
  have hj₁ : j ∈ l₁ := List.mem_reverse.mp hj
  simp only [Vmcache.free, Links.unlink, Linked.bypass]
  split
  · rfl
  case isFalse hne =>
    refine update_of_ne ?_ _ _
    rintro rfl
    rw [h.dlist.next_eq] at hne hj₁
    have hl : l₂.reverse ≠ [] := by
      intro hnil
      rw [hnil] at hne
      exact hne rfl
    have hm : last l₂.reverse ∈ l₂ := List.mem_reverse.mp (last_mem hl)
    exact (List.nodup_append.mp hnd).2.2 _ hj₁ _ (List.mem_cons_of_mem sp hm) rfl

/-- The loop over the segments `l₁`, from the last to the first. -/
theorem reserveLoop_drops (h : Rep vm (l₁ ++ l₂)) (hback : Chain vm.links.prev sp l₁.reverse) (hn : l₁.length ≤ n)
    (hk : keeps ∨ nbytes < vm.cachesize - vm.cacheused ∨ ∀ i ∈ l₁, vm.refcnt i ≠ 0) :
    ∃ vm' l', reserveLoop keeps nbytes n sp vm = some vm' ∧ Drops vm (l₁ ++ l₂) vm' l' := by
  induction l₁ using List.reverseRecOn generalizing vm sp n l₂ with
  | nil =>
    obtain rfl : sp = 0 := hback
    exact ⟨vm, _, reserveLoop_zero, .refl h⟩
  | append_singleton l₁ a ih =>
    rw [List.reverse_append] at hback
    obtain ⟨rfl, h0, hback⟩ := hback
    obtain ⟨n, rfl⟩ : ∃ m, n = m + 1 := ⟨n - 1, by simp at hn; omega⟩
    have hn : l₁.length ≤ n := by simpa using hn
    rw [List.append_assoc] at h ⊢
    rw [reserveLoop_step h0]
    split
    · exact ⟨vm, _, rfl, .refl h⟩
    case isFalse hspace =>
    split
    case isTrue hr =>
      exact ih h hback hn (hk.imp_right fun hk => hk.imp_right fun hk i hi => hk i (List.mem_append_left _ hi))
    case isFalse hr =>
      have hkeeps : keeps = true := by
        rcases hk with hk | hk | hk
        · exact hk
        · exact absurd hk hspace
        · exact absurd (hk sp (by simp)) hr
      have hx : sp ∈ l₁ ++ sp :: l₂ := by simp
      have hnd := h.nodup
      have hsp : sp ∉ l₁ := fun hm => (List.nodup_append.mp hnd).2.2 sp hm sp (by simp) rfl
      have hdrop := h.drops_free hx
      rw [List.singleton_append] at hdrop ⊢
      have herase : (l₁ ++ sp :: l₂).erase sp = l₁ ++ l₂ := by
        rw [List.erase_append_right _ hsp, List.erase_cons_head]
      rw [herase] at hdrop
      obtain ⟨vm', l', hloop, hdrop'⟩ := ih hdrop.rep h.free_back hn (.inl hkeeps)
      refine ⟨vm', l', ?_, hdrop.trans hdrop'⟩
      rw [if_pos hkeeps]
      exact hloop

/-- A freed segment cannot be read: there is no result. -/
theorem reserveLoop_none {r : List Nat} (hback : Chain vm.links.prev sp r) (hn : r.length ≤ n)
    (hspace : ¬ nbytes < vm.cachesize - vm.cacheused) (hfree : ∃ i ∈ r, vm.refcnt i = 0) :
    reserveLoop false nbytes n sp vm = none := by
  induction r generalizing sp n with
  | nil => simp at hfree
  | cons a r ih =>
    obtain ⟨rfl, h0, hback⟩ := hback
    obtain ⟨n, rfl⟩ : ∃ m, n = m + 1 := ⟨n - 1, by simp at hn; omega⟩
    rw [reserveLoop_step h0, if_neg hspace]
    split
    case isTrue hr =>
      refine ih hback (by simpa using hn) ?_
      obtain ⟨i, hi, hri⟩ := hfree
      rcases List.mem_cons.mp hi with rfl | hi
      · exact absurd hri hr
      · exact ⟨i, hi, hri⟩
    · rfl

/-- The loop back from the tail does not meet the segments behind it. -/
theorem Rep.met (h : Rep vm l) : ∃ l₁ l₂, l = l₁ ++ l₂ ∧ Chain vm.links.prev vm.segmentTail l₁.reverse := by
  rcases h.tail with h0 | hm
  · exact ⟨[], l, rfl, h0⟩
  · obtain ⟨l₁, l₂, rfl⟩ := List.append_of_mem hm
    exact ⟨l₁ ++ [vm.segmentTail], l₂, by simp, by simpa using h.dlist.back⟩

/-- Space is to be freed, and a segment is not in use. -/
def Vmcache.Frees (vm : Vmcache w) (nbytes : BitVec w) : Prop :=
  vm.cacheEnabled ∧ ¬ nbytes < vm.cachesize - vm.cacheused ∧
    ∃ l, Chain vm.links.next vm.segmentHead l ∧ ∃ sp ∈ l, vm.refcnt sp = 0

variable (keeps nbytes) in
theorem reservespace_drops (h : Rep vm l) (hk : keeps ∨ ¬ vm.Frees nbytes) :
    ∃ vm' r l', reservespace keeps vm nbytes = some (vm', r) ∧ Drops vm l vm' l' := by
  unfold reservespace
  split
  · exact ⟨vm, 0, l, rfl, .refl h⟩
  case isFalse hen =>
  have hen : vm.cacheEnabled = true := by simpa using hen
  have hk' : keeps ∨ nbytes < vm.cachesize - vm.cacheused ∨ ∀ i ∈ l, vm.refcnt i ≠ 0 := by
    by_contra hn
    simp only [not_or, not_forall] at hn
    obtain ⟨hk', hspace, i, hi, hr⟩ := hn
    exact (hk.resolve_left hk') ⟨hen, hspace, l, h.dlist.next, i, hi, not_not.mp hr⟩
  obtain ⟨l₁, l₂, rfl, hback⟩ := h.met
  have hlen := h.length_le
  rw [List.length_append] at hlen
  obtain ⟨vm', l', hloop, hdrop⟩ := reserveLoop_drops (n := vm.calloced) h hback (by omega)
    (hk'.imp_right fun hk => hk.imp_right fun hk i hi => hk i (List.mem_append_left _ hi))
  rw [hloop]
  exact ⟨vm', _, l', rfl, hdrop⟩

theorem reservespace_none (h : Rep vm l) (ht : vm.segmentTail = last l) (hf : vm.Frees nbytes) :
    reservespace false vm nbytes = none := by
  obtain ⟨hen, hspace, l', hl', hfree⟩ := hf
  obtain rfl := hl'.unique h.dlist.next
  have hback : Chain vm.links.prev vm.segmentTail l'.reverse := by
    rw [ht]
    exact h.dlist.prev
  have hfree : ∃ i ∈ l'.reverse, vm.refcnt i = 0 := by simpa using hfree
  rw [reservespace, hen, reserveLoop_none hback (by simpa using h.length_le) hspace hfree]
  rfl

end Reserve

/-! ## The other calls -/

section Calls

variable {keeps : Bool} {st : Option (Stat w)} {offset nbytes addr : BitVec w} {mem destroy cancel unmapped : Bool}

variable (destroy cancel unmapped) in
theorem uncache_drops (h : Rep vm l) (hx : sp ∈ l) :
    ∃ l', Drops vm l (uncache vm sp destroy cancel unmapped).1 l' := by
  unfold uncache
  dsimp only
  generalize update vm.refcnt sp (if toInt (vm.refcnt sp - 1) < 0 ∨ cancel then 0 else toInt (vm.refcnt sp - 1)) = r
  have hr := h.refcnt r
  split
  · obtain ⟨hrep, hsub, hinfo, hpage, hcall, ht⟩ := hr.drops_free hx
    exact ⟨_, hrep, hsub, hinfo, hpage, hcall, ht⟩
  · exact ⟨l, hr, List.Subset.refl l, rfl, rfl, rfl, id⟩

variable (st offset destroy cancel unmapped) in
theorem uncacheregion_drops (h : Rep vm l) :
    ∃ vm' r l', uncacheregion vm st offset destroy cancel unmapped = some (vm', r) ∧ Drops vm l vm' l' := by
  cases st with
  | none => exact ⟨vm, -1, l, rfl, .refl h⟩
  | some st =>
    rcases h.search (vm.starts st (vm.x0 offset)) with ⟨sp, hx, -, hs⟩ | ⟨-, hs⟩
    · obtain ⟨l', hdrop⟩ := uncache_drops destroy cancel unmapped h hx
      refine ⟨_, (uncache vm sp destroy cancel unmapped).2, l', ?_, hdrop⟩
      rw [uncacheregion, hs, Option.map_some, if_neg (h.dlist.next.ne_zero hx)]
    · refine ⟨vm, -1, l, ?_, .refl h⟩
      rw [uncacheregion, hs]
      rfl

theorem uncache_head (h0 : vm.segmentHead = sp) :
    (uncache vm sp true true true).1 = { vm with refcnt := update vm.refcnt sp 0 }.free sp := by
  simp [uncache, h0]

theorem closeLoop_drops {n : Nat} (h : Rep vm l) (hn : l.length ≤ n) (hk : keeps ∨ vm.segmentHead = 0) :
    ∃ vm' l', closeLoop keeps n vm = some vm' ∧ Drops vm l vm' l' := by
  induction n generalizing vm l with
  | zero =>
    obtain rfl : l = [] := List.eq_nil_of_length_eq_zero (Nat.le_zero.mp hn)
    have h0 : vm.segmentHead = 0 := h.dlist.next
    exact ⟨vm, [], by simp [closeLoop, h0], .refl h⟩
  | succ n ih =>
    cases l with
    | nil =>
      have h0 : vm.segmentHead = 0 := h.dlist.next
      exact ⟨vm, [], by simp [closeLoop, h0], .refl h⟩
    | cons a l =>
      obtain ⟨ha, ha0, -⟩ := h.dlist.next
      have hne : vm.segmentHead ≠ 0 := by rw [ha]; exact ha0
      have hkeeps : keeps = true := hk.resolve_right hne
      have hfree := (h.refcnt (update vm.refcnt a 0)).drops_free (List.mem_cons_self (a := a) (l := l))
      rw [List.erase_cons_head] at hfree
      obtain ⟨vm', l', hloop, hdrop⟩ := ih hfree.rep (by simpa using hn) (.inl hkeeps)
      refine ⟨vm', l', ?_, Drops.trans ⟨hfree.rep, hfree.sub, hfree.info, hfree.pagesize, hfree.calloced, hfree.tail⟩ hdrop⟩
      rw [closeLoop, if_neg hne]
      simp only [hkeeps, if_true, uncache_head ha, ha] at hloop ⊢
      exact hloop

theorem closecache_drops (h : Rep vm l) (hk : keeps ∨ ¬ (vm.cacheInitialized ∧ vm.segmentHead ≠ 0)) :
    ∃ vm' l', closecache keeps vm = some vm' ∧ Drops vm l vm' l' := by
  unfold closecache
  split
  · exact ⟨vm, l, rfl, .refl h⟩
  case isFalse hi =>
  have hi : vm.cacheInitialized = true := by simpa using hi
  have hk' : keeps ∨ vm.segmentHead = 0 := hk.imp_right fun hk => by
    by_contra h0
    exact hk ⟨hi, h0⟩
  obtain ⟨vm', l', hloop, hd⟩ := closeLoop_drops h h.length_le hk'
  rw [hloop]
  have hrep : Rep { vm' with cacheInitialized := false } l' :=
    ⟨hd.rep.dlist, hd.rep.tail, hd.rep.order, hd.rep.clock, hd.rep.used, hd.rep.bound⟩
  exact ⟨_, l', rfl, hrep, hd.sub, hd.info, hd.pagesize, hd.calloced, hd.tail⟩

theorem closecache_none (h : vm.cacheInitialized ∧ vm.segmentHead ≠ 0) : closecache false vm = none := by
  have hloop : ∀ n, closeLoop false n vm = none := by
    intro n
    cases n <;> simp [closeLoop, h.2]
  simp [closecache, h.1, hloop]

end Calls

/-! ## A step -/

/-- A segment is found in the cache, and it is the last one of several. -/
def MovesTail (vm : Vmcache w) : Op w → Prop
  | .cacheregion (some st) offset nbytes _ _ =>
    vm.search (vm.covers st (vm.x0 offset)) = some vm.segmentTail ∧
      vm.covers st (vm.x1 (offset + nbytes - 1)) vm.segmentTail ∧ vm.segmentHead ≠ vm.segmentTail
  | .refreshregion (some st) offset =>
    vm.cacheEnabled ∧ vm.search (vm.starts st (vm.x0 offset)) = some vm.segmentTail ∧
      vm.segmentHead ≠ vm.segmentTail
  | _ => False

/-- A segment descriptor is read after it is freed. -/
def ReadsFreed (vm : Vmcache w) : Op w → Prop
  | .cacheregion (some st) offset nbytes _ _ =>
    vm.search (vm.covers st (vm.x0 offset)) = some 0 ∧
      vm.Frees (vm.x1 (offset + nbytes - 1) - vm.x0 offset + 1)
  | .reservespace nbytes => vm.Frees nbytes
  | .closecache => vm.cacheInitialized ∧ vm.segmentHead ≠ 0
  | _ => False

/-- No segment is new, or the call is a `vm_cacheregion` that found none, and it puts one in front. -/
def Inserts (vm : Vmcache w) (l : List Nat) (op : Op w) (vm' : Vmcache w) (l' : List Nat) : Prop :=
  (l' ⊆ l ∧ vm'.info = vm.info) ∨
    ∃ st offset nbytes addr mem sp, op = .cacheregion (some st) offset nbytes addr mem ∧
      (∀ i ∈ l, ¬ vm.covers st (vm.x0 offset) i) ∧ sp ∉ l ∧ l' ⊆ sp :: l ∧
      vm'.info = update vm.info sp
        ⟨st.ino, st.dev, vm.x0 offset, vm.x1 (offset + nbytes - 1) - vm.x0 offset + 1, addr⟩

/-- What a step does to the list -/
structure StepTo (vm : Vmcache w) (l : List Nat) (op : Op w) (vm' : Vmcache w) (l' : List Nat) : Prop where
  rep : Rep vm' l'
  pagesize : vm'.pagesize = vm.pagesize
  inserts : Inserts vm l op vm' l'
  tail : vm.segmentTail = last l → (vm'.segmentTail = last l' ↔ ¬ MovesTail vm op)

section Step

variable {op : Op w} {st : Stat w} {offset nbytes addr : BitVec w} {mem : Bool}

theorem Drops.stepTo (h : Drops vm l vm' l') (hm : vm.segmentTail = last l → ¬ MovesTail vm op) :
    StepTo vm l op vm' l' :=
  ⟨h.rep, h.pagesize, .inl ⟨h.sub, h.info⟩, fun ht => ⟨fun _ => hm ht, fun _ => h.tail ht⟩⟩

/-- No segment is the tail: there are none. -/
theorem Rep.head_eq_tail (h : Rep vm l) (ht : vm.segmentTail = last l) (h0 : vm.segmentTail = 0) :
    vm.segmentHead = vm.segmentTail := by
  cases l with
  | nil =>
    rw [h0]
    exact h.dlist.next
  | cons a l => exact absurd h0 (h.tail_ne_zero List.mem_cons_self ht)

/-- A segment of the list is moved to the front. -/
theorem Rep.stepTo (h : Rep vm l) (hx : sp ∈ l) (hr : Rep vm' (sp :: l.erase sp)) (hinfo : vm'.info = vm.info)
    (hp : vm'.pagesize = vm.pagesize) (htail : vm.segmentTail = last l → vm'.segmentTail = vm.segmentTail)
    (hm : MovesTail vm op ↔ vm.segmentTail = sp ∧ vm.segmentHead ≠ sp) : StepTo vm l op vm' (sp :: l.erase sp) where
  rep := hr
  pagesize := hp
  inserts := by
    refine .inl ⟨fun i hi => ?_, hinfo⟩
    rcases List.mem_cons.mp hi with rfl | hi
    · exact hx
    · exact List.mem_of_mem_erase hi
  tail := by
    intro ht
    rw [htail ht, h.relink_tail hx ht, hm]

theorem refreshregion_stepTo (h : Rep vm l) (st : Option (Stat w)) (offset : BitVec w) :
    ∃ vm' r l', refreshregion vm st offset = some (vm', r) ∧ StepTo vm l (.refreshregion st offset) vm' l' := by
  unfold refreshregion
  split
  case isTrue hen =>
    refine ⟨vm, 0, l, rfl, (Drops.refl h).stepTo fun _ => ?_⟩
    cases st <;> simp_all [MovesTail]
  case isFalse hen =>
  cases st with
  | none => exact ⟨vm, -1, l, rfl, (Drops.refl h).stepTo fun _ => id⟩
  | some st =>
    have hen : vm.cacheEnabled = true := by simpa using hen
    rcases h.search (vm.starts st (vm.x0 offset)) with ⟨sp, hx, -, hs⟩ | ⟨-, hs⟩
    · have h0 := h.dlist.next.ne_zero hx
      refine ⟨vm.relink sp, 0, sp :: l.erase sp, by simp [hs, h0], h.stepTo hx (h.relink hx) rfl rfl (fun _ => rfl) ?_⟩
      simp only [MovesTail, hen, hs, Option.some.injEq, true_and]
      grind
    · refine ⟨vm, -1, l, by simp [hs], (Drops.refl h).stepTo fun ht hm => ?_⟩
      obtain ⟨-, hs', hh⟩ := hm
      rw [hs] at hs'
      exact hh (h.head_eq_tail ht (Option.some.inj hs').symm)

/-- `vm_cacheregion` of a region that starts in no segment. -/
theorem cacheregion_miss {keeps : Bool} (h : Rep vm l)
    (hk : keeps ∨ ¬ ReadsFreed vm (.cacheregion (some st) offset nbytes addr mem))
    (hnone : ∀ i ∈ l, ¬ vm.covers st (vm.x0 offset) i) (hs : vm.search (vm.covers st (vm.x0 offset)) = some 0) :
    ∃ vm' r l', cacheregion keeps vm (some st) offset nbytes addr mem = some (vm', r) ∧
      StepTo vm l (.cacheregion (some st) offset nbytes addr mem) vm' l' := by
  have hm : vm.segmentTail = last l → ¬ MovesTail vm (.cacheregion (some st) offset nbytes addr mem) := by
    rintro ht ⟨hs', -, hh⟩
    rw [hs] at hs'
    exact hh (h.head_eq_tail ht (Option.some.inj hs').symm)
  obtain ⟨vm₁, r, l₁, hres, hd⟩ := reservespace_drops keeps
    (vm.x1 (offset + nbytes - 1) - vm.x0 offset + 1) h (hk.imp_right fun hk hf => hk ⟨hs, hf⟩)
  simp only [cacheregion, hs, Option.bind_some, ne_eq, not_true, if_false, hres]
  split
  · exact ⟨vm₁, 0, l₁, rfl, hd.stepTo hm⟩
  split
  · exact ⟨vm₁, 0, l₁, rfl, hd.stepTo hm⟩
  refine ⟨_, _, (vm₁.calloced + 1) :: l₁, rfl, hd.rep.add _, hd.pagesize, .inr ?_, fun ht => ?_⟩
  · refine ⟨st, offset, nbytes, addr, mem, vm₁.calloced + 1, rfl, hnone, fun hm => ?_, ?_, ?_⟩
    · have := h.bound _ hm
      rw [hd.calloced] at this
      omega
    · exact List.cons_subset_cons _ hd.sub
    · rw [← hd.info]
      rfl
  · exact ⟨fun _ => hm ht, fun _ => hd.rep.add_tail _ (hd.tail ht)⟩

theorem cacheregion_stepTo {keeps : Bool} (h : Rep vm l) (st : Option (Stat w))
    (hk : keeps ∨ ¬ ReadsFreed vm (.cacheregion st offset nbytes addr mem)) :
    ∃ vm' r l', cacheregion keeps vm st offset nbytes addr mem = some (vm', r) ∧
      StepTo vm l (.cacheregion st offset nbytes addr mem) vm' l' := by
  cases st with
  | none => exact ⟨vm, 0, l, rfl, (Drops.refl h).stepTo fun _ => id⟩
  | some st =>
    rcases h.search (vm.covers st (vm.x0 offset)) with ⟨sp, hx, -, hs⟩ | ⟨hnone, hs⟩
    · have h0 := h.dlist.next.ne_zero hx
      simp only [cacheregion, hs, Option.bind_some, ne_eq, h0, not_false_eq_true, if_true]
      split
      case isTrue hc =>
        refine ⟨vm.refresh sp, _, sp :: l.erase sp, rfl, h.stepTo hx (h.refresh hx) rfl rfl (fun ht => ?_) ?_⟩
        · simp only [Vmcache.refresh, h.tail_ne_zero hx ht, and_false, if_false]
        · simp only [MovesTail, hs, Option.some.injEq]
          grind
      case isFalse hc =>
        refine ⟨vm, 0, l, rfl, (Drops.refl h).stepTo fun _ hm => ?_⟩
        obtain ⟨hs', hc', -⟩ := hm
        rw [hs] at hs'
        rw [← Option.some.inj hs'] at hc'
        exact hc hc'
    · exact cacheregion_miss h hk hnone hs

/-- Every step keeps the list in order, unless a segment is read that was freed. -/
theorem step_rep {keeps : Bool} (h : Rep vm l) (op : Op w) (hk : keeps ∨ ¬ ReadsFreed vm op) :
    ∃ vm' l', step keeps vm op = some vm' ∧ StepTo vm l op vm' l' := by
  cases op with
  | cacheregion st offset nbytes addr mem =>
    obtain ⟨vm', r, l', hc, hst⟩ := cacheregion_stepTo h st hk
    exact ⟨vm', l', by rw [step, hc]; rfl, hst⟩
  | uncacheregion st offset destroy cancel unmapped =>
    obtain ⟨vm', r, l', hc, hd⟩ := uncacheregion_drops st offset destroy cancel unmapped h
    exact ⟨vm', l', by rw [step, hc]; rfl, hd.stepTo fun _ => id⟩
  | refreshregion st offset =>
    obtain ⟨vm', r, l', hc, hst⟩ := refreshregion_stepTo h st offset
    exact ⟨vm', l', by rw [step, hc]; rfl, hst⟩
  | reservespace nbytes =>
    obtain ⟨vm', r, l', hc, hd⟩ := reservespace_drops keeps nbytes h hk
    exact ⟨vm', l', by rw [step, hc]; rfl, hd.stepTo fun _ => id⟩
  | closecache =>
    obtain ⟨vm', l', hc, hd⟩ := closecache_drops h hk
    exact ⟨vm', l', hc, hd.stepTo fun _ => id⟩

/-- There is no result if a segment is read that was freed, and freed blocks cannot be read. -/
theorem step_none (h : Rep vm l) (ht : vm.segmentTail = last l) (op : Op w) (hf : ReadsFreed vm op) :
    step false vm op = none := by
  cases op with
  | cacheregion st offset nbytes addr mem =>
    cases st with
    | none => exact absurd hf id
    | some st =>
      obtain ⟨hs, hf⟩ := hf
      simp only [step, cacheregion, hs, Option.bind_some, ne_eq, not_true_eq_false, if_false,
        reservespace_none h ht hf, Option.bind_none, Option.map_none]
  | uncacheregion st offset destroy cancel unmapped => exact absurd hf id
  | refreshregion st offset => exact absurd hf id
  | reservespace nbytes => simp [step, reservespace_none h ht hf]
  | closecache => exact closecache_none hf

end Step

/-! ## Reachable caches -/

section Reach

variable {keeps enable : Bool} {cachesize pagesize nbytes : BitVec w} {n : Nat}

/-- What is done without a read of a freed descriptor is also done where such a read goes through. -/
theorem reserveLoop_keeps (h : reserveLoop keeps nbytes n sp vm = some vm') :
    reserveLoop true nbytes n sp vm = some vm' := by
  induction n generalizing sp vm with
  | zero =>
    cases sp with
    | zero => exact h
    | succ sp => cases h
  | succ n ih =>
    rcases Nat.eq_zero_or_pos sp with rfl | hpos
    · rw [reserveLoop_zero] at h ⊢
      exact h
    · rw [reserveLoop_step hpos.ne'] at h ⊢
      split at h
      · next hspace => rwa [if_pos hspace]
      · next hspace =>
        rw [if_neg hspace]
        split at h
        · next href =>
          rw [if_pos href]
          exact ih h
        · next href =>
          rw [if_neg href, if_pos rfl]
          split at h
          · exact ih h
          · cases h

theorem reservespace_keeps {r : Vmcache w × Int} (h : reservespace keeps vm nbytes = some r) :
    reservespace true vm nbytes = some r := by
  unfold reservespace at h ⊢
  split
  · next hen =>
    rwa [if_pos hen] at h
  · next hen =>
    rw [if_neg hen] at h
    obtain ⟨vm', hloop, rfl⟩ := Option.map_eq_some_iff.mp h
    rw [reserveLoop_keeps hloop]
    rfl

theorem cacheregion_keeps {st : Option (Stat w)} {offset addr : BitVec w} {mem : Bool} {r : Vmcache w × BitVec w}
    (h : cacheregion keeps vm st offset nbytes addr mem = some r) :
    cacheregion true vm st offset nbytes addr mem = some r := by
  cases st with
  | none => exact h
  | some st =>
    unfold cacheregion at h ⊢
    dsimp only at h ⊢
    obtain ⟨sp, hs, h⟩ := Option.bind_eq_some_iff.mp h
    rw [hs, Option.bind_some]
    by_cases h0 : sp ≠ 0
    · rwa [if_pos h0] at h ⊢
    · rw [if_neg h0] at h ⊢
      obtain ⟨p, hp, h⟩ := Option.bind_eq_some_iff.mp h
      rw [reservespace_keeps hp, Option.bind_some]
      exact h

theorem closeLoop_keeps (h : closeLoop keeps n vm = some vm') : closeLoop true n vm = some vm' := by
  induction n generalizing vm with
  | zero =>
    rw [closeLoop] at h ⊢
    exact h
  | succ n ih =>
    rw [closeLoop] at h ⊢
    split at h
    · next h0 => rwa [if_pos h0]
    · next h0 =>
      rw [if_neg h0, if_pos rfl]
      split at h
      · exact ih h
      · cases h

theorem step_keeps {op : Op w} (h : step keeps vm op = some vm') : step true vm op = some vm' := by
  cases op with
  | cacheregion st offset nbytes addr mem =>
    obtain ⟨r, hr, rfl⟩ := Option.map_eq_some_iff.mp h
    rw [step, cacheregion_keeps hr]
    rfl
  | uncacheregion st offset destroy cancel unmapped => exact h
  | refreshregion st offset => exact h
  | reservespace nbytes =>
    obtain ⟨r, hr, rfl⟩ := Option.map_eq_some_iff.mp h
    rw [step, reservespace_keeps hr]
    rfl
  | closecache =>
    unfold step closecache at h ⊢
    dsimp only at h ⊢
    split
    · next hi => rwa [if_pos hi] at h
    · next hi =>
      rw [if_neg hi] at h
      obtain ⟨vm₁, hloop, rfl⟩ := Option.map_eq_some_iff.mp h
      rw [closeLoop_keeps hloop]
      rfl

/-- A cache that calls lead to has a list of segments. -/
theorem rep_of_run {ops : List (Op w)} (h : run (step keeps) (initcache enable cachesize pagesize) ops = some vm) :
    ∃ l, Rep vm l := by
  refine run_inv (I := fun vm => ∃ l, Rep vm l) ?_ ⟨[], rep_initcache enable cachesize pagesize⟩ h
  rintro vm op vm' ⟨l, hl⟩ hs
  obtain ⟨vm'', l', hstep, hto⟩ := step_rep hl op (.inl rfl)
  rw [step_keeps hs] at hstep
  cases hstep
  exact ⟨l', hto.rep⟩

end Reach

end Ndhs.Vm
