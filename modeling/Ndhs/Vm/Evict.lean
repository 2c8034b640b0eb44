import Ndhs.Vm.Overlap

/-!
# Making space in the cache (`vm_reservespace` of `mosdca/vmcache.c`)

`vm_reservespace` goes from `segment_tail` towards the head and frees the segments that are not in use. The space that is
free is an `unsigned long`: it is very large if the segments in use are larger than the cache.

* `Evicts vm n vm' r l f`: of the segments `l` of the cache those of `f` were freed to make space for `n` bytes. They are
  the least recently referenced ones of those not in use, each was freed for want of space, and `r` says whether there is
  space now.
* `evicted`: the segments that the loop frees, of those that it meets.

The loop ends when there is more space than is asked for, the return value says whether there is as much: a segment is
freed in vain if there is just the space that is asked for. `reserves_iff` tells when all is right.
-/

namespace Ndhs.Vm

open Function Linked Machine

variable {w : Nat}

/-! ## Space -/

/-- The space that is free. It is negative if the segments are larger than the cache. -/
def space (cachesize used : BitVec w) : Int := (cachesize.toNat : Int) - used.toNat

namespace Vmcache

variable (vm : Vmcache w)

def size (sp : Nat) : BitVec w := (vm.info sp).nbytes

/-- The segments that are not in use, of some -/
def unused (l : List Nat) : List Nat := l.filter fun i => vm.refcnt i = 0

end Vmcache

/-- The segments `f` were freed to make space for `nbytes` bytes, in this order. `l` are the segments that there were, the
most recently referenced one first. -/
structure Evicts (vm : Vmcache w) (nbytes : BitVec w) (vm' : Vmcache w) (status : Int) (l f : List Nat) : Prop where
  segments : Chain vm.links.next vm.segmentHead l
  order : l.Pairwise fun i j => vm.stamp j < vm.stamp i
  rest : Chain vm'.links.next vm'.segmentHead (l.filter fun i => i ∉ f)
  oldest : f <+: (vm.unused l).reverse
  needed : ∀ a i b, f = a ++ i :: b → space vm.cachesize (vm.cacheused - (a.map vm.size).sum) < nbytes.toNat
  status : status = 0 ↔ (nbytes.toNat : Int) ≤ space vm'.cachesize vm'.cacheused

/-- `vm_reservespace` makes space as it says. -/
def Reserves (keeps : Bool) (vm : Vmcache w) (nbytes : BitVec w) : Prop :=
  ∃ vm' status l f, reservespace keeps vm nbytes = some (vm', status) ∧ Evicts vm nbytes vm' status l f

section Evicted

variable (size : Nat → BitVec w) (cachesize nbytes : BitVec w)

/-- The segments that are freed, of those not in use, the first one first -/
def evicted : BitVec w → List Nat → List Nat
  | _, [] => []
  | used, i :: u => if nbytes < cachesize - used then [] else i :: evicted (used - size i) u

/-- As long as the segments are freed for want of space, there is not just the space that is asked for, and where this
ends, the others are not larger than the cache, or the difference is less than what is asked for nevertheless. -/
def Exact : BitVec w → List Nat → Prop
  | used, [] => nbytes ≤ cachesize - used → used ≤ cachesize
  | used, i :: u =>
    if nbytes < cachesize - used then used ≤ cachesize
    else ¬ (used ≤ cachesize ∧ cachesize - used = nbytes) ∧ Exact (used - size i) u

variable {size cachesize nbytes} {used : BitVec w} {u : List Nat}

theorem evicted_of_lt (h : nbytes < cachesize - used) : evicted size cachesize nbytes used u = [] := by
  cases u with
  | nil => rfl
  | cons i u => exact if_pos h

theorem evicted_initial : evicted size cachesize nbytes used u <+: u := by
  induction u generalizing used with
  | nil => exact List.prefix_rfl
  | cons i u ih =>
    unfold evicted
    split
    · exact List.nil_prefix
    · exact List.cons_prefix_cons.mpr ⟨rfl, ih⟩

/-- The difference is the space if it is not negative. -/
theorem toNat_sub_of_le (h : used ≤ cachesize) : ((cachesize - used).toNat : Int) = space cachesize used := by
  have hle := BitVec.le_def.mp h
  rw [BitVec.toNat_sub_of_le h, space]
  omega

theorem space_of_not_le (h : ¬ used ≤ cachesize) : space cachesize used < 0 := by
  rw [BitVec.le_def] at h
  unfold space
  omega

theorem le_space_iff (h : nbytes ≤ cachesize - used) : (nbytes.toNat : Int) ≤ space cachesize used ↔ used ≤ cachesize := by
  by_cases hle : used ≤ cachesize
  · have hn := BitVec.le_def.mp h
    have hsub := toNat_sub_of_le hle
    exact ⟨fun _ => hle, fun _ => by omega⟩
  · have hneg := space_of_not_le hle
    exact ⟨fun hs => by omega, fun hs => absurd hs hle⟩

theorem space_lt_iff (h : ¬ nbytes < cachesize - used) :
    space cachesize used < nbytes.toNat ↔ ¬ (used ≤ cachesize ∧ cachesize - used = nbytes) := by
  by_cases hle : used ≤ cachesize
  · rw [BitVec.lt_def] at h
    have hsub := toNat_sub_of_le hle
    rw [← BitVec.toNat_inj]
    constructor
    · rintro hlt ⟨-, heq⟩
      omega
    · intro hne
      have hne : (cachesize - used).toNat ≠ nbytes.toNat := fun heq => hne ⟨hle, heq⟩
      omega
  · have hneg := space_of_not_le hle
    exact ⟨fun _ h => hle h.1, fun _ => by omega⟩

/-- What is returned is right. -/
theorem returned_iff : (nbytes ≤ cachesize - used ↔ (nbytes.toNat : Int) ≤ space cachesize used) ↔
    (nbytes ≤ cachesize - used → used ≤ cachesize) := by
  constructor
  · intro h hle
    exact (le_space_iff hle).mp (h.mp hle)
  · intro h
    refine ⟨fun hle => (le_space_iff hle).mpr (h hle), fun hs => ?_⟩
    have hle : used ≤ cachesize := by
      by_contra hle
      have hneg := space_of_not_le hle
      omega
    have hsub := toNat_sub_of_le hle
    rw [BitVec.le_def]
    omega

theorem forall_splits_nil {α : Type} {P : List α → Prop} : ∀ a i b, ([] : List α) = a ++ i :: b → P a := by
  intro a i b h
  cases a <;> cases h

theorem forall_splits_cons {α : Type} {P : List α → Prop} {x : α} {e : List α} :
    (∀ a i b, x :: e = a ++ i :: b → P a) ↔ P [] ∧ ∀ a i b, e = a ++ i :: b → P (x :: a) := by
  constructor
  · intro h
    exact ⟨h [] x e rfl, fun a i b he => h (x :: a) i b (by rw [he]; rfl)⟩
  · rintro ⟨hnil, hcons⟩ a i b he
    cases a with
    | nil => exact hnil
    | cons y a =>
      obtain ⟨rfl, hrest⟩ := List.cons.inj he
      exact hcons a i b hrest

/-- The condition says that what is freed is needed, and that what is returned is right. -/
theorem exact_iff : Exact size cachesize nbytes used u ↔
    (∀ a i b, evicted size cachesize nbytes used u = a ++ i :: b →
      space cachesize (used - (a.map size).sum) < nbytes.toNat) ∧
    (nbytes ≤ cachesize - (used - ((evicted size cachesize nbytes used u).map size).sum) ↔
      (nbytes.toNat : Int) ≤ space cachesize (used - ((evicted size cachesize nbytes used u).map size).sum)) := by
  induction u generalizing used with
  | nil =>
    rw [evicted, List.map_nil, List.sum_nil, sub_zero, returned_iff]
    exact ⟨fun h => ⟨forall_splits_nil, h⟩, fun h => h.2⟩
  | cons i u ih =>
    unfold Exact evicted
    by_cases hlt : nbytes < cachesize - used
    · have hle : nbytes ≤ cachesize - used := by
        rw [BitVec.le_def]
        exact Nat.le_of_lt (BitVec.lt_def.mp hlt)
      rw [if_pos hlt, if_pos hlt, List.map_nil, List.sum_nil, sub_zero, returned_iff]
      exact ⟨fun h => ⟨forall_splits_nil, fun _ => h⟩, fun h => h.2 hle⟩
    · have hsub : ∀ a : List Nat, used - ((i :: a).map size).sum = used - size i - (a.map size).sum := by
        intro a
        rw [List.map_cons, List.sum_cons, sub_sub]
      rw [if_neg hlt, if_neg hlt, ih, ← space_lt_iff hlt, hsub,
        forall_splits_cons (P := fun a => space cachesize (used - (a.map size).sum) < nbytes.toNat), List.map_nil,
        List.sum_nil, sub_zero, and_assoc]
      simp only [hsub]

end Evicted

/-! ## The loop -/

section Loop

variable {keeps : Bool} {nbytes : BitVec w} {vm vm' : Vmcache w} {l l' l₁ l₂ : List Nat} {sp n : Nat}

/-- The segments `f` are gone from the cache, and nothing else changes. -/
structure Leaves (vm : Vmcache w) (l f : List Nat) (vm' : Vmcache w) : Prop where
  rep : Rep vm' (l.filter fun i => i ∉ f)
  used : vm'.cacheused = vm.cacheused - (f.map vm.size).sum
  cachesize : vm'.cachesize = vm.cachesize
  pagesize : vm'.pagesize = vm.pagesize
  calloced : vm'.calloced = vm.calloced
  enabled : vm'.cacheEnabled = vm.cacheEnabled
  info : vm'.info = vm.info
  refcnt : vm'.refcnt = vm.refcnt

/-- A segment is freed, and then others. -/
theorem filter_not_mem_cons {e : List Nat} (h : l.Nodup) :
    (l.filter fun i => i ∉ sp :: e) = (l.erase sp).filter fun i => i ∉ e := by
  rw [h.erase_eq_filter, List.filter_filter]
  refine List.filter_congr fun i _ => ?_
  by_cases hi : i = sp
  · simp [hi]
  · simp [hi]

theorem Rep.leaves_nil (h : Rep vm l) : Leaves vm l [] vm where
  rep := by simpa using h
  used := by rw [List.map_nil, List.sum_nil, sub_zero]
  cachesize := rfl
  pagesize := rfl
  calloced := rfl
  enabled := rfl
  info := rfl
  refcnt := rfl

variable (nbytes) in
/-- The segments that the loop frees, of the segments `l₁` that it meets -/
theorem reserveLoop_leaves (h : Rep vm (l₁ ++ l₂)) (hback : Chain vm.links.prev sp l₁.reverse) (hn : l₁.length ≤ n) :
    ∃ vm', reserveLoop true nbytes n sp vm = some vm' ∧ Leaves vm (l₁ ++ l₂)
      (evicted vm.size vm.cachesize nbytes vm.cacheused (vm.unused l₁).reverse) vm' := by
  induction l₁ using List.reverseRecOn generalizing vm sp n l₂ with
  | nil =>
    obtain rfl : sp = 0 := hback
    exact ⟨vm, reserveLoop_zero, h.leaves_nil⟩
  | append_singleton l₁ a ih =>
    rw [List.reverse_append] at hback
    obtain ⟨rfl, h0, hback⟩ := hback
    obtain ⟨n, rfl⟩ : ∃ m, n = m + 1 := ⟨n - 1, by simp at hn; omega⟩
    have hn : l₁.length ≤ n := by simpa using hn
    rw [List.append_assoc, List.singleton_append] at h ⊢
    have hunused : (vm.unused (l₁ ++ [sp])).reverse =
        if vm.refcnt sp = 0 then sp :: (vm.unused l₁).reverse else (vm.unused l₁).reverse := by
      unfold Vmcache.unused
      rw [List.filter_append, List.reverse_append]
      by_cases hr : vm.refcnt sp = 0
      · rw [if_pos hr, List.filter_cons_of_pos (by simpa using hr)]
        rfl
      · rw [if_neg hr, List.filter_cons_of_neg (by simpa using hr)]
        rfl
    rw [reserveLoop_step h0, hunused]
    by_cases hspace : nbytes < vm.cachesize - vm.cacheused
    · rw [if_pos hspace, evicted_of_lt hspace]
      exact ⟨vm, rfl, h.leaves_nil⟩
    rw [if_neg hspace]
    by_cases hr : vm.refcnt sp = 0
    · rw [if_neg (not_not.mpr hr), if_pos rfl, if_pos hr, evicted, if_neg hspace]
      have hnd := h.nodup
      have hfree := h.free (List.mem_append_right l₁ List.mem_cons_self)
      have herase : (l₁ ++ sp :: l₂).erase sp = l₁ ++ l₂ := by
        have hsp : sp ∉ l₁ := fun hm => (List.nodup_append.mp hnd).2.2 sp hm sp List.mem_cons_self rfl
        rw [List.erase_append_right _ hsp, List.erase_cons_head]
      rw [herase] at hfree
      obtain ⟨vm', hloop, hl⟩ := ih hfree h.free_back hn
      refine ⟨vm', hloop, ?_, ?_, hl.cachesize, hl.pagesize, hl.calloced, hl.enabled, hl.info, hl.refcnt⟩
      · rw [filter_not_mem_cons hnd, herase]
        exact hl.rep
      · rw [hl.used, List.map_cons, List.sum_cons, ← sub_sub]
        rfl
    · rw [if_pos hr, if_neg hr]
      exact ih h hback hn

/-- Some of a list are determined by which they are. -/
theorem eq_filter_mem {f u : List Nat} (hu : u.Nodup) (hf : f.Sublist u) : f = u.filter fun i => i ∈ f := by
  have hsub : f.Sublist (u.filter fun i => i ∈ f) := by
    have hfilter := hf.filter fun i => decide (i ∈ f)
    rwa [List.filter_eq_self.mpr (by simp)] at hfilter
  refine hsub.eq_of_length_le ((List.subperm_of_subset (hu.filter _) fun i hi => ?_).length_le)
  exact of_decide_eq_true (List.mem_filter.mp hi).2

/-- The segments that were freed can be seen from those that are left. -/
theorem eq_of_rest {e f u : List Nat} (hl : l.Nodup) (hu : u.Sublist l.reverse) (he : e.Sublist u) (hf : f.Sublist u)
    (h : (l.filter fun i => i ∉ f) = l.filter fun i => i ∉ e) : f = e := by
  have hnd : u.Nodup := hu.nodup (List.nodup_reverse.mpr hl)
  have hmem : ∀ i ∈ u, (i ∈ f ↔ i ∈ e) := by
    intro i hi
    have hil : i ∈ l := List.mem_reverse.mp (hu.subset hi)
    have hiff := congrArg (i ∈ ·) h
    simpa [List.mem_filter, hil, not_iff_not] using hiff
  rw [eq_filter_mem hnd hf, eq_filter_mem hnd he]
  refine List.filter_congr fun i hi => ?_
  rw [decide_eq_decide]
  exact hmem i hi

theorem unused_reverse : vm.unused l.reverse = (vm.unused l).reverse := by
  unfold Vmcache.unused
  rw [List.filter_reverse]

/-- The segments that are freed are the least recently referenced ones, if there are none behind the tail. -/
theorem oldest_iff (hnd : (l₁ ++ l₂).Nodup) {e : List Nat} (he : e <+: (vm.unused l₁).reverse) :
    e <+: (vm.unused (l₁ ++ l₂)).reverse ↔ e = [] ∨ vm.unused l₂ = [] := by
  have happ : (vm.unused (l₁ ++ l₂)).reverse = (vm.unused l₂).reverse ++ (vm.unused l₁).reverse := by
    unfold Vmcache.unused
    rw [List.filter_append, List.reverse_append]
  rw [happ]
  constructor
  · intro hpre
    cases e with
    | nil => exact .inl rfl
    | cons i e =>
      refine .inr (List.reverse_eq_nil_iff.mp ?_)
      by_contra hne
      obtain ⟨j, u, hu⟩ := List.exists_cons_of_ne_nil hne
      -- the first one that is freed is before the tail and behind it
      rw [hu, List.cons_append] at hpre
      obtain ⟨rfl, -⟩ := List.cons_prefix_cons.mp hpre
      have h₁ : i ∈ l₁ := List.mem_of_mem_filter (List.mem_reverse.mp (he.mem List.mem_cons_self))
      have h₂ : i ∈ l₂ := List.mem_of_mem_filter (List.mem_reverse.mp (hu ▸ List.mem_cons_self))
      exact (List.nodup_append.mp hnd).2.2 i h₁ i h₂ rfl
  · rintro (rfl | hnil)
    · exact List.nil_prefix
    · rw [hnil]
      exact he

theorem unused_eq_nil : vm.unused l = [] ↔ ∀ i ∈ l, vm.refcnt i ≠ 0 := by
  unfold Vmcache.unused
  simp

/-- What the loop frees, and what is returned -/
theorem reservespace_leaves (h : Rep vm (l₁ ++ l₂)) (hback : Chain vm.links.prev vm.segmentTail l₁.reverse)
    (hen : vm.cacheEnabled = true) (hk : keeps ∨ nbytes < vm.cachesize - vm.cacheused ∨ vm.unused l₁ = []) :
    ∃ vm', reservespace keeps vm nbytes = some (vm', if nbytes ≤ vm'.cachesize - vm'.cacheused then 0 else -1) ∧
      Leaves vm (l₁ ++ l₂) (evicted vm.size vm.cachesize nbytes vm.cacheused (vm.unused l₁).reverse) vm' := by
  have hlen := h.length_le
  rw [List.length_append] at hlen
  rw [unused_eq_nil] at hk
  obtain ⟨vm', hloop, hleaves⟩ := reserveLoop_leaves nbytes (n := vm.calloced) h hback (by omega)
  obtain ⟨vm'', l', hkeeps, -⟩ := reserveLoop_drops (n := vm.calloced) h hback (by omega) hk
  have hsame := reserveLoop_keeps hkeeps
  rw [hloop] at hsame
  cases hsame
  refine ⟨vm', ?_, hleaves⟩
  rw [reservespace, hen, hkeeps]
  rfl

/-- A freed block is read. -/
theorem reservespace_stops (h : Rep vm (l₁ ++ l₂)) (hback : Chain vm.links.prev vm.segmentTail l₁.reverse)
    (hen : vm.cacheEnabled = true) (hlt : ¬ nbytes < vm.cachesize - vm.cacheused) (hu : vm.unused l₁ ≠ []) :
    reservespace false vm nbytes = none := by
  have hlen := h.length_le
  rw [List.length_append] at hlen
  rw [ne_eq, unused_eq_nil] at hu
  push Not at hu
  obtain ⟨i, hi, hr⟩ := hu
  have hnone := reserveLoop_none (n := vm.calloced) hback (by rw [List.length_reverse]; omega) hlt
    ⟨i, List.mem_reverse.mpr hi, hr⟩
  rw [reservespace, hen, hnone]
  rfl

/-- A segment is freed: there is not enough space, and the loop meets a segment that is not in use. -/
def Vmcache.Evicting (vm : Vmcache w) (nbytes : BitVec w) : Prop :=
  vm.cacheEnabled ∧ ¬ nbytes < vm.cachesize - vm.cacheused ∧
    ∃ r, Chain vm.links.prev vm.segmentTail r ∧ vm.unused r ≠ []

/-- Whatever is freed was not in use. -/
theorem reservespace_spares (h : Rep vm l) (hk : keeps ∨ ¬ vm.Evicting nbytes) :
    ∃ vm' status f, reservespace keeps vm nbytes = some (vm', status) ∧ Leaves vm l f vm' ∧ f ⊆ vm.unused l := by
  by_cases hen : vm.cacheEnabled = true
  · obtain ⟨l₁, l₂, rfl, hback⟩ := h.met
    have hk' : keeps ∨ nbytes < vm.cachesize - vm.cacheused ∨ vm.unused l₁ = [] := by
      refine hk.imp_right fun hk => ?_
      by_contra hn
      obtain ⟨hlt, hu⟩ := not_or.mp hn
      exact hk ⟨hen, hlt, l₁.reverse, hback, by rwa [unused_reverse, ne_eq, List.reverse_eq_nil_iff]⟩
    obtain ⟨vm', hres, hl⟩ := reservespace_leaves h hback hen hk'
    refine ⟨vm', _, _, hres, hl, fun i hi => ?_⟩
    have hi := List.mem_reverse.mp (evicted_initial.mem hi)
    exact ((List.sublist_append_left l₁ l₂).filter _).subset hi
  · rw [Bool.not_eq_true] at hen
    refine ⟨vm, 0, [], ?_, h.leaves_nil, List.nil_subset _⟩
    rw [reservespace, hen]
    rfl

theorem reservespace_evicting (h : Rep vm l) (hf : vm.Evicting nbytes) : reservespace false vm nbytes = none := by
  obtain ⟨hen, hlt, r, hr, hu⟩ := hf
  obtain ⟨l₁, l₂, rfl, hback⟩ := h.met
  obtain rfl := hr.unique hback
  rw [unused_reverse, ne_eq, List.reverse_eq_nil_iff] at hu
  exact reservespace_stops h hback hen hlt hu

/-- What `Evicts` says of the segments that the loop frees -/
theorem Leaves.evicts_iff {f : List Nat} {status : Int} (h : Rep vm (l₁ ++ l₂))
    (hl : Leaves vm (l₁ ++ l₂) (evicted vm.size vm.cachesize nbytes vm.cacheused (vm.unused l₁).reverse) vm')
    (hs : status = if nbytes ≤ vm'.cachesize - vm'.cacheused then 0 else -1) :
    Evicts vm nbytes vm' status (l₁ ++ l₂) f ↔
      f = evicted vm.size vm.cachesize nbytes vm.cacheused (vm.unused l₁).reverse ∧
        Exact vm.size vm.cachesize nbytes vm.cacheused (vm.unused l₁).reverse ∧
        (evicted vm.size vm.cachesize nbytes vm.cacheused (vm.unused l₁).reverse = [] ∨ vm.unused l₂ = []) := by
  have hstatus : status = 0 ↔ nbytes ≤ vm'.cachesize - vm'.cacheused := by
    rw [hs]
    split
    · next hle => exact ⟨fun _ => hle, fun _ => rfl⟩
    · next hle => exact ⟨fun h0 => absurd h0 (by decide), fun h => absurd h hle⟩
  have hpre : evicted vm.size vm.cachesize nbytes vm.cacheused (vm.unused l₁).reverse <+: (vm.unused l₁).reverse :=
    evicted_initial
  rw [exact_iff, ← oldest_iff h.nodup hpre, ← hl.used, ← hl.cachesize]
  rw [← hl.cachesize] at hl hpre
  generalize evicted vm.size vm'.cachesize nbytes vm.cacheused (vm.unused l₁).reverse = e at hl hpre ⊢
  constructor
  · rintro ⟨-, -, hrest, holdest, hneeded, hst⟩
    have hsub : (vm.unused l₁).reverse.Sublist (vm.unused (l₁ ++ l₂)).reverse :=
      ((List.sublist_append_left l₁ l₂).filter _).reverse
    obtain rfl : f = e := eq_of_rest h.nodup List.filter_sublist.reverse (hpre.sublist.trans hsub) holdest.sublist
      (hrest.unique hl.rep.dlist.next)
    exact ⟨rfl, ⟨by rwa [← hl.cachesize] at hneeded, hstatus.symm.trans hst⟩, holdest⟩
  · rintro ⟨rfl, ⟨hneeded, hst⟩, holdest⟩
    exact ⟨h.dlist.next, h.order, hl.rep.dlist.next, holdest, by rwa [← hl.cachesize], hstatus.trans hst⟩

end Loop

/-- The condition, on the cache and the request: if the cache is enabled, what is met from the tail on is `Exact`, and if
there is not space from the start, and a segment is met that is not in use, then freed blocks can be read, and no segment
that is not in use is behind the tail. If it is not enabled, there is space. -/
def Reservable (keeps : Bool) (vm : Vmcache w) (nbytes : BitVec w) : Prop :=
  if vm.cacheEnabled then
    ∃ r, Chain vm.links.prev vm.segmentTail r ∧
      Exact vm.size vm.cachesize nbytes vm.cacheused (vm.unused r) ∧
      (nbytes < vm.cachesize - vm.cacheused ∨ vm.unused r = [] ∨
        keeps ∧ ∀ i, vm.Listed i → vm.refcnt i = 0 → i ∈ r)
  else (nbytes.toNat : Int) ≤ space vm.cachesize vm.cacheused

section Reserves

variable {keeps enable : Bool} {cachesize pagesize nbytes : BitVec w} {vm : Vmcache w} {l l₁ l₂ : List Nat} {ops : List (Op w)}

/-- Nothing is freed if the cache is not enabled. -/
theorem reserves_disabled (h : Rep vm l) (hen : vm.cacheEnabled = false) :
    Reserves keeps vm nbytes ↔ (nbytes.toNat : Int) ≤ space vm.cachesize vm.cacheused := by
  have hres : reservespace keeps vm nbytes = some (vm, 0) := by
    rw [reservespace, hen]
    rfl
  constructor
  · rintro ⟨vm', status, l', f, hr, hev⟩
    rw [hres] at hr
    cases hr
    exact hev.status.mp rfl
  · intro hspace
    exact ⟨vm, 0, l, [], hres, h.dlist.next, h.order, by simpa using h.dlist.next, List.nil_prefix, forall_splits_nil,
      fun _ => hspace, fun _ => rfl⟩

/-- No segment is freed. -/
theorem evicted_eq_nil {size : Nat → BitVec w} {used : BitVec w} {u : List Nat} :
    evicted size cachesize nbytes used u = [] ↔ nbytes < cachesize - used ∨ u = [] := by
  cases u with
  | nil => exact ⟨fun _ => .inr rfl, fun _ => rfl⟩
  | cons i u =>
    unfold evicted
    split
    · next hlt => exact ⟨fun _ => .inl hlt, fun _ => rfl⟩
    · next hlt =>
      constructor
      · intro h
        cases h
      · rintro (h | h)
        · exact absurd h hlt
        · cases h

/-- The segments that are not in use are met if none of these is behind the tail. -/
theorem met_iff (hnd : (l₁ ++ l₂).Nodup) :
    vm.unused l₂ = [] ↔ ∀ i ∈ l₁ ++ l₂, vm.refcnt i = 0 → i ∈ l₁.reverse := by
  rw [unused_eq_nil]
  constructor
  · intro h i hi hr
    rcases List.mem_append.mp hi with hi | hi
    · exact List.mem_reverse.mpr hi
    · exact absurd hr (h i hi)
  · intro h i hi hr
    have hi₁ := List.mem_reverse.mp (h i (List.mem_append_right l₁ hi) hr)
    exact (List.nodup_append.mp hnd).2.2 i hi₁ i hi rfl

theorem reserves_enabled (h : Rep vm l) (hen : vm.cacheEnabled = true) :
    Reserves keeps vm nbytes ↔ ∃ r, Chain vm.links.prev vm.segmentTail r ∧
      Exact vm.size vm.cachesize nbytes vm.cacheused (vm.unused r) ∧
      (nbytes < vm.cachesize - vm.cacheused ∨ vm.unused r = [] ∨
        keeps ∧ ∀ i, vm.Listed i → vm.refcnt i = 0 → i ∈ r) := by
  obtain ⟨l₁, l₂, rfl, hback⟩ := h.met
  by_cases hk : keeps ∨ nbytes < vm.cachesize - vm.cacheused ∨ vm.unused l₁ = []
  · obtain ⟨vm', hres, hl⟩ := reservespace_leaves h hback hen hk
    constructor
    · rintro ⟨vm'', status, l', f, hr, hev⟩
      rw [hres] at hr
      cases hr
      obtain rfl := hev.segments.unique h.dlist.next
      obtain ⟨-, hexact, hbehind⟩ := (hl.evicts_iff h rfl).mp hev
      rw [evicted_eq_nil, List.reverse_eq_nil_iff] at hbehind
      refine ⟨l₁.reverse, hback, by rwa [unused_reverse], ?_⟩
      rw [unused_reverse, List.reverse_eq_nil_iff]
      by_cases hnil : nbytes < vm.cachesize - vm.cacheused ∨ vm.unused l₁ = []
      · exact hnil.imp_right .inl
      · have hall := (met_iff h.nodup).mp (hbehind.resolve_left hnil)
        exact .inr (.inr ⟨hk.resolve_right hnil, fun i hi => hall i (h.listed.mp hi)⟩)
    · rintro ⟨r, hr, hexact, hfree⟩
      obtain rfl := hr.unique hback
      rw [unused_reverse] at hexact hfree
      refine ⟨vm', _, _, _, hres, (hl.evicts_iff h rfl).mpr ⟨rfl, hexact, ?_⟩⟩
      rw [evicted_eq_nil]
      rcases hfree with hlt | hu | ⟨-, hall⟩
      · exact .inl (.inl hlt)
      · exact .inl (.inr hu)
      · exact .inr ((met_iff h.nodup).mpr fun i hi => hall i (h.listed.mpr hi))
  · simp only [not_or] at hk
    obtain ⟨hkeeps, hlt, hu⟩ := hk
    constructor
    · rintro ⟨vm', status, l', f, hr, -⟩
      rw [Bool.not_eq_true] at hkeeps
      rw [hkeeps, reservespace_stops h hback hen hlt hu] at hr
      cases hr
    · rintro ⟨r, hr, -, hfree⟩
      obtain rfl := hr.unique hback
      rw [unused_reverse, List.reverse_eq_nil_iff] at hfree
      rcases hfree with hlt' | hu' | ⟨hkeeps', -⟩
      · exact absurd hlt' hlt
      · exact absurd hu' hu
      · exact absurd hkeeps' hkeeps

/-- For every cache that calls lead to, and every request: `vm_reservespace` frees segments that are not in use, from the
least recently referenced one on and no more than needed, and returns 0 just when there is space then, if and only if
`Reservable` holds. -/
theorem reserves_iff (hrun : run (step keeps) (initcache enable cachesize pagesize) ops = some vm) :
    Reserves keeps vm nbytes ↔ Reservable keeps vm nbytes := by
  obtain ⟨l, h⟩ := rep_of_run hrun
  unfold Reservable
  by_cases hen : vm.cacheEnabled = true
  · rw [if_pos hen]
    exact reserves_enabled h hen
  · rw [if_neg hen]
    exact reserves_disabled h (Bool.not_eq_true _ ▸ hen)

/-- A page of each of two files is cached, and no longer in use. -/
def twoUnused : List (Op 32) :=
  [.cacheregion (some ⟨1, 0⟩) 0 4096 8192 true, .cacheregion (some ⟨2, 0⟩) 0 4096 16384 true,
    .uncacheregion (some ⟨1, 0⟩) 0 false false true, .uncacheregion (some ⟨2, 0⟩) 0 false false true]

/-- There is space after one of the pages is freed. -/
theorem reserves_twoUnused :
    ∃ vm, run (step true) (initcache true 12288 4096) twoUnused = some vm ∧ Reserves true vm 6000 := by
  have hsome : (run (step true) (initcache true 12288 4096) twoUnused).isSome := by decide +kernel
  obtain ⟨vm, hrun⟩ := Option.isSome_iff_exists.mp hsome
  have hv : (run (step true) (initcache true 12288 4096) twoUnused).map
      (fun vm => (vm.cacheEnabled, vm.cachesize, vm.cacheused, vm.size 1)) = some (true, 12288, 8192, 4096) := by
    decide +kernel
  have hl : (run (step true) (initcache true 12288 4096) twoUnused).map
      (fun vm => (vm.segmentHead, vm.links.next 2, vm.links.next 1, vm.segmentTail, vm.links.prev 1, vm.links.prev 2)) =
        some (2, 1, 0, 1, 2, 0) := by
    decide +kernel
  have hr : (run (step true) (initcache true 12288 4096) twoUnused).map (fun vm => (vm.refcnt 1, vm.refcnt 2)) =
      some (0, 0) := by
    decide +kernel
  simp only [hrun, Option.map_some, Option.some.injEq, Prod.mk.injEq] at hv hl hr
  obtain ⟨hen, hcachesize, hused, hsize⟩ := hv
  obtain ⟨hhead, hnext₂, hnext₁, htail, hprev₁, hprev₂⟩ := hl
  obtain ⟨hr₁, hr₂⟩ := hr
  have hback : Chain vm.links.prev vm.segmentTail [1, 2] := by simp [htail, hprev₁, hprev₂]
  have hunused : vm.unused [1, 2] = [1, 2] := by simp [Vmcache.unused, hr₁, hr₂]
  refine ⟨vm, hrun, (reserves_iff hrun).mpr ?_⟩
  rw [Reservable, if_pos hen]
  refine ⟨[1, 2], hback, ?_, .inr (.inr ⟨rfl, ?_⟩)⟩
  · rw [hunused, hcachesize, hused, Exact, if_neg (by decide), Exact, hsize, if_pos (by decide)]
    decide
  · rintro i ⟨l, hl, hi⟩ -
    have hforward : Chain vm.links.next vm.segmentHead [2, 1] := by simp [hhead, hnext₂, hnext₁]
    obtain rfl := hl.unique hforward
    simpa [or_comm] using hi

/-- Two pages are in use, and the cache is for one: the space is negative, and is taken for a large one. -/
theorem reserves_not :
    ¬ ∀ (keeps enable : Bool) (cachesize pagesize nbytes : BitVec 32) (ops : List (Op 32)) (vm : Vmcache 32),
      run (step keeps) (initcache enable cachesize pagesize) ops = some vm → Reserves keeps vm nbytes := by
  intro h
  have hsome : (run (step (w := 32) true) (initcache true 4096 4096)
      [.cacheregion (some ⟨1, 0⟩) 0 8192 8192 true]).isSome := by decide +kernel
  obtain ⟨vm, hrun⟩ := Option.isSome_iff_exists.mp hsome
  have hv : (run (step (w := 32) true) (initcache true 4096 4096) [.cacheregion (some ⟨1, 0⟩) 0 8192 8192 true]).map
      (fun vm => (vm.cacheEnabled, vm.cachesize, vm.cacheused, vm.segmentTail, vm.links.prev 1, vm.refcnt 1)) =
        some (true, 4096, 8192, 1, 0, 1) := by
    decide +kernel
  simp only [hrun, Option.map_some, Option.some.injEq, Prod.mk.injEq] at hv
  obtain ⟨hen, hcachesize, hused, htail, hprev, hr⟩ := hv
  obtain ⟨l, hl⟩ := rep_of_run hrun
  obtain ⟨r, hback, hexact, -⟩ := (reserves_enabled hl hen).mp (h true true 4096 4096 4096 _ vm hrun)
  have hchain : Chain vm.links.prev vm.segmentTail [1] := by simp [htail, hprev]
  obtain rfl := hback.unique hchain
  have hunused : vm.unused [1] = [] := by simp [Vmcache.unused, hr]
  rw [hunused, hcachesize, hused] at hexact
  exact absurd (hexact (by decide)) (by decide)

end Reserves

end Ndhs.Vm
