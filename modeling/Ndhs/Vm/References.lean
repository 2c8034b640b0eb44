import Ndhs.Vm.Evict

/-!
# The references to the segments of a cache

Every `vm_cacheregion` that succeeds is a reference to a segment, until a `vm_uncacheregion` for the same region matches
it. `vm_cacheregion` finds a segment that has the region, and `vm_uncacheregion` one that starts at the page of its offset.
If a segment is found, `vm_cacheregion` does not set the variable `addr` that its result is computed from.

* A `Session` is a cache with the references to it. `right` tells whether every call succeeded that should, and
  returned what it should.
* `Referenced`: the reference counts are the numbers of references.

`referenced_iff`: the calls after which this is so.
-/

namespace Ndhs.Vm

open Function Linked Machine

variable {w : Nat}

/-- `MAP_FAILED` -/
def mapFailed : BitVec w := 0 - 1

namespace Info

variable (x : Info w) (offset : BitVec w)

/-- The byte at `offset` of the file is in the segment. -/
def holds : Bool := decide (x.offset ≤ offset) && decide (offset - x.offset < x.nbytes)

/-- The segment is mapped, and `addr` is where it has the byte at `offset` of the file. -/
def maps (addr : BitVec w) : Bool :=
  x.addr != mapFailed && (x.holds offset && addr == x.addr + (offset - x.offset))

end Info

/-- A call of `vm_cacheregion` that succeeded, and the segment that it put at the head -/
structure Reference (w : Nat) where
  st : Option (Stat w)
  offset : BitVec w
  nbytes : BitVec w
  sp : Nat

/-- A cache, the references to it that are not matched yet, and whether every call was right. -/
structure Session (w : Nat) where
  vm : Vmcache w
  unmatched : List (Reference w)
  right : Bool

inductive Call (w : Nat) where
  | cache (st : Option (Stat w)) (offset nbytes addr : BitVec w) (mem : Bool)
  /-- The region of the reference with the index `k`. -/
  | uncache (k : Nat) (destroy cancel unmapped : Bool)

namespace Session

def call (keeps : Bool) (s : Session w) : Call w → Option (Session w)
  | .cache st offset nbytes addr mem =>
    (cacheregion keeps s.vm st offset nbytes addr mem).map fun (vm, p) =>
      if p = 0 then { s with vm }
      else
        { vm
          unmatched := ⟨st, offset, nbytes, vm.segmentHead⟩ :: s.unmatched
          right := s.right && (vm.info vm.segmentHead).maps offset p }
  | .uncache k destroy cancel unmapped =>
    match s.unmatched[k]? with
    | none => some s
    | some r =>
      (uncacheregion s.vm r.st r.offset destroy cancel unmapped).map fun (vm, status) =>
        { vm
          unmatched := s.unmatched.eraseIdx k
          right := s.right && status == 0 }

/-- The number of references to a segment -/
def count (s : Session w) (sp : Nat) : Nat := s.unmatched.countP fun r => r.sp == sp

end Session

/-- The references are to segments of `l`, and the segments have them counted. -/
structure Counts (s : Session w) (l : List Nat) : Prop where
  refcnt : ∀ sp ∈ l, s.vm.refcnt sp = s.count sp
  listed : ∀ r ∈ s.unmatched, r.sp ∈ l
  right : s.right = true

/-- Every call was right, and the reference counts are. -/
def Referenced (s : Session w) : Prop := ∃ l, Chain s.vm.links.next s.vm.segmentHead l ∧ Counts s l

/-- A new segment for a region -/
def Vmcache.region (vm : Vmcache w) (st : Stat w) (offset nbytes addr : BitVec w) : Info w :=
  ⟨st.ino, st.dev, vm.x0 offset, vm.x1 (offset + nbytes - 1) - vm.x0 offset + 1, addr⟩

/-- A region that is found has the address that `addr` happens to have, and one that is mapped is mapped where it should.
A region that is no longer needed is found where it was. -/
def Locates (keeps : Bool) (s : Session w) : Call w → Prop
  | .cache none _ _ _ _ => True
  | .cache (some st) offset nbytes addr mem =>
    let x0 := s.vm.x0 offset
    let x1 := s.vm.x1 (offset + nbytes - 1)
    ∃ sp, s.vm.search (s.vm.covers st x0) = some sp ∧
      if sp ≠ 0 then
        s.vm.covers st x1 sp → addr = (s.vm.info sp).addr ∧ (s.vm.info sp).holds offset ∧
          addr + (offset - (s.vm.info sp).offset) ≠ 0 ∧ s.vm.refcnt sp + 1 < 2 ^ 31
      else
        (keeps ∨ ¬ s.vm.Evicting (x1 - x0 + 1)) ∧
          (addr ≠ 0 → mem → addr ≠ mapFailed ∧ (s.vm.region st offset nbytes addr).holds offset ∧
            addr + (offset - x0) ≠ 0)
  | .uncache k destroy cancel unmapped =>
    ∀ r, s.unmatched[k]? = some r →
      (∃ st, r.st = some st ∧ s.vm.search (s.vm.starts st (s.vm.x0 r.offset)) = some r.sp) ∧
        (cancel → s.vm.refcnt r.sp = 1) ∧
        (s.vm.refcnt r.sp = 1 → destroy ∨ !s.vm.cacheEnabled → unmapped)

/-! ## Counting -/

section Count

variable {s : Session w} {vm : Vmcache w} {l l' : List Nat} {sp : Nat} {r : Reference w} {right : Bool}

theorem toInt_succ (n : Nat) : toInt (n + 1) = (n + 1 : Nat) ↔ n + 1 < 2 ^ 31 := by
  rw [toInt, Int.bmod_def]
  omega

theorem toInt_succ_ne (n : Nat) : toInt (n + 1) ≠ n := by
  rw [toInt, Int.bmod_def]
  omega

theorem toInt_pred {n : Nat} (h0 : n ≠ 0) (h : n < 2 ^ 31) : toInt (n - 1) = (n - 1 : Nat) := by
  rw [toInt, Int.bmod_def]
  omega

theorem count_cons (h : r.sp = sp) (i : Nat) :
    Session.count ⟨vm, r :: s.unmatched, right⟩ i = if i = sp then s.count sp + 1 else s.count i := by
  simp only [Session.count, List.countP_cons, h]
  by_cases hi : i = sp
  · simp [hi]
  · simp [hi, Ne.symm hi]

theorem count_eq_zero : s.count sp = 0 ↔ ∀ r ∈ s.unmatched, r.sp ≠ sp := by
  simp [Session.count, List.countP_eq_zero]

/-- Segments are freed that are not referenced. -/
theorem Counts.rest (h : Counts s l) (hr : vm.refcnt = s.vm.refcnt) (hsub : l' ⊆ l)
    (hall : ∀ i ∈ l, s.count i ≠ 0 → i ∈ l') : Counts { s with vm } l' where
  refcnt := fun i hi => by
    rw [hr]
    exact h.refcnt i (hsub hi)
  listed := fun r hr => by
    refine hall r.sp (h.listed r hr) fun h0 => ?_
    exact count_eq_zero.mp h0 r hr rfl
  right := h.right

/-- A reference is made, and is not known. -/
theorem not_counts_of_failed (hr : vm.refcnt = update s.vm.refcnt sp (toInt (s.count sp + 1))) :
    ¬ Counts { s with vm } (sp :: l') := by
  intro h
  have hsp := h.refcnt sp List.mem_cons_self
  rw [hr, update_self] at hsp
  exact toInt_succ_ne _ hsp

/-- A reference is made. -/
theorem counts_push (h : Counts s l) (hr : vm.refcnt = update s.vm.refcnt sp (toInt (s.count sp + 1))) (hsub : l' ⊆ l)
    (hall : ∀ i ∈ l, s.count i ≠ 0 → i ∈ sp :: l') (hrsp : r.sp = sp) (b : Bool) :
    Counts ⟨vm, r :: s.unmatched, s.right && b⟩ (sp :: l') ↔ s.count sp + 1 < 2 ^ 31 ∧ b = true := by
  constructor
  · intro hc
    have hnew := hc.refcnt sp List.mem_cons_self
    rw [hr, update_self, count_cons hrsp, if_pos rfl, toInt_succ] at hnew
    have hright := hc.right
    rw [h.right, Bool.true_and] at hright
    exact ⟨hnew, hright⟩
  · rintro ⟨hlt, rfl⟩
    refine ⟨fun i hi => ?_, fun r' hr' => ?_, ?_⟩
    · rw [count_cons hrsp, hr]
      by_cases his : i = sp
      · rw [his, update_self, if_pos rfl]
        exact (toInt_succ _).mpr hlt
      · rw [update_of_ne his, if_neg his]
        exact h.refcnt i (hsub ((List.mem_cons.mp hi).resolve_left his))
    · rcases List.mem_cons.mp hr' with rfl | hr'
      · rw [hrsp]
        exact List.mem_cons_self
      · refine hall r'.sp (h.listed r' hr') fun h0 => ?_
        exact count_eq_zero.mp h0 r' hr' rfl
    · rw [h.right]
      rfl

end Count

/-! ## A step -/

/-- The invariant -/
structure Inv (s : Session w) (l : List Nat) : Prop where
  rep : Rep s.vm l
  counts : Counts s l
  mapped : ∀ sp ∈ l, (s.vm.info sp).addr ≠ mapFailed
  bound : ∀ sp ∈ l, s.vm.refcnt sp < 2 ^ 31

theorem Inv.referenced {s : Session w} {l : List Nat} (h : Inv s l) : Referenced s :=
  ⟨l, h.rep.dlist.next, h.counts⟩

theorem not_referenced {s : Session w} {l : List Nat} (h : Rep s.vm l) (hn : ¬ Counts s l) : ¬ Referenced s := by
  rintro ⟨l', hl', hc⟩
  obtain rfl := hl'.unique h.dlist.next
  exact hn hc

/-- The call goes through and the invariant is kept, if the condition is met. If not, the session is not right, or there
is no result. -/
def Decides (keeps : Bool) (s : Session w) (c : Call w) : Prop :=
  (Locates keeps s c ∧ ∃ t l, s.call keeps c = some t ∧ Inv t l) ∨
    (¬ Locates keeps s c ∧ ∀ t, s.call keeps c = some t → ¬ Referenced t)

section Calls

variable {keeps : Bool} {s : Session w} {vm : Vmcache w} {l l' : List Nat} {sp k : Nat} {st : Stat w} {st? : Option (Stat w)}
  {offset nbytes addr p : BitVec w} {mem destroy cancel unmapped : Bool} {r : Reference w}

theorem call_cache (hcall : cacheregion keeps s.vm st? offset nbytes addr mem = some (vm, p)) :
    s.call keeps (.cache st? offset nbytes addr mem) = some (if p = 0 then { s with vm } else
      ⟨vm, ⟨st?, offset, nbytes, vm.segmentHead⟩ :: s.unmatched, s.right && (vm.info vm.segmentHead).maps offset p⟩) := by
  rw [Session.call, hcall]
  rfl

/-- A call of `vm_cacheregion` that returns null -/
theorem decides_null (h : Inv s l) (hcall : cacheregion keeps s.vm st? offset nbytes addr mem = some (vm, 0))
    (hrep : Rep vm l') (hr : vm.refcnt = s.vm.refcnt) (hinfo : vm.info = s.vm.info) (hsub : l' ⊆ l)
    (hall : ∀ i ∈ l, s.count i ≠ 0 → i ∈ l') (hlocates : Locates keeps s (.cache st? offset nbytes addr mem)) :
    Decides keeps s (.cache st? offset nbytes addr mem) := by
  refine .inl ⟨hlocates, _, l', call_cache hcall, ?_⟩
  rw [if_pos rfl]
  refine ⟨hrep, h.counts.rest hr hsub hall, fun i hi => ?_, fun i hi => ?_⟩
  · dsimp only
    rw [hinfo]
    exact h.mapped i (hsub hi)
  · dsimp only
    rw [hr]
    exact h.bound i (hsub hi)

/-- A call of `vm_cacheregion` that makes a reference to the segment `sp` -/
theorem decides_push (h : Inv s l) (hcall : cacheregion keeps s.vm st? offset nbytes addr mem = some (vm, p))
    (hrep : Rep vm (sp :: l')) (hr : vm.refcnt = update s.vm.refcnt sp (toInt (s.count sp + 1)))
    (hinfo : ∀ i ∈ l', vm.info i = s.vm.info i) (hsub : l' ⊆ l) (hall : ∀ i ∈ l, s.count i ≠ 0 → i ∈ sp :: l')
    (hlocates : Locates keeps s (.cache st? offset nbytes addr mem) ↔
      p ≠ 0 ∧ s.count sp + 1 < 2 ^ 31 ∧ (vm.info sp).maps offset p = true) :
    Decides keeps s (.cache st? offset nbytes addr mem) := by
  have hhead : vm.segmentHead = sp := hrep.dlist.next.1
  rw [Decides, hlocates, call_cache hcall]
  by_cases hp : p = 0
  · rw [if_pos hp]
    refine .inr ⟨fun hn => hn.1 hp, fun t ht => ?_⟩
    cases ht
    exact not_referenced hrep (not_counts_of_failed hr)
  · rw [if_neg hp, hhead]
    have hpush := counts_push (r := ⟨st?, offset, nbytes, sp⟩) h.counts hr hsub hall rfl ((vm.info sp).maps offset p)
    by_cases hok : s.count sp + 1 < 2 ^ 31 ∧ (vm.info sp).maps offset p = true
    · refine .inl ⟨⟨hp, hok⟩, _, sp :: l', rfl, hrep, hpush.mpr hok, fun i hi => ?_, fun i hi => ?_⟩
      · rcases List.mem_cons.mp hi with rfl | hi
        · simp only [Info.maps, Bool.and_eq_true, bne_iff_ne] at hok
          exact hok.2.1
        · dsimp only
          rw [hinfo i hi]
          exact h.mapped i (hsub hi)
      · dsimp only
        rw [hr]
        by_cases his : i = sp
        · rw [his, update_self, (toInt_succ _).mpr hok.1]
          exact_mod_cast hok.1
        · rw [update_of_ne his]
          exact h.bound i (hsub ((List.mem_cons.mp hi).resolve_left his))
    · refine .inr ⟨fun hn => hok hn.2, fun t ht => ?_⟩
      cases ht
      exact not_referenced hrep fun hc => hok (hpush.mp hc)

/-- A segment of the cache has the region. -/
theorem decides_hit (h : Inv s l) (hx : sp ∈ l) (hs : s.vm.search (s.vm.covers st (s.vm.x0 offset)) = some sp)
    (hc : s.vm.covers st (s.vm.x1 (offset + nbytes - 1)) sp = true) :
    Decides keeps s (.cache (some st) offset nbytes addr mem) := by
  have h0 := h.rep.dlist.next.ne_zero hx
  have hcount := h.counts.refcnt sp hx
  have hcall : cacheregion keeps s.vm (some st) offset nbytes addr mem =
      some (s.vm.refresh sp, addr + (offset - (s.vm.info sp).offset)) := by
    simp only [cacheregion, hs, Option.bind_some, ne_eq, h0, not_false_eq_true, if_true, hc]
  have hr : (s.vm.refresh sp).refcnt = update s.vm.refcnt sp (toInt (s.count sp + 1)) := by
    rw [← hcount]
    rfl
  have hall : ∀ i ∈ l, s.count i ≠ 0 → i ∈ sp :: l.erase sp := by
    intro i hi _
    by_cases his : i = sp
    · rw [his]
      exact List.mem_cons_self
    · exact List.mem_cons_of_mem _ ((List.mem_erase_of_ne his).mpr hi)
  refine decides_push h hcall (h.rep.refresh hx) hr (fun _ _ => rfl) List.erase_subset hall ?_
  have hmaps : (s.vm.info sp).maps offset (addr + (offset - (s.vm.info sp).offset)) = true ↔
      addr = (s.vm.info sp).addr ∧ (s.vm.info sp).holds offset = true := by
    simp only [Info.maps, Bool.and_eq_true, bne_iff_ne, ne_eq, h.mapped sp hx, not_false_eq_true, true_and, beq_iff_eq,
      add_left_inj, and_comm]
  show _ ↔ _ ∧ _ ∧ (s.vm.info sp).maps offset _ = true
  rw [hmaps]
  simp only [Locates, hs, Option.some.injEq, exists_eq_left', ne_eq, h0, not_false_eq_true, if_true, hc, true_imp_iff,
    hcount]
  constructor
  · rintro ⟨haddr, hholds, hp, hlt⟩
    exact ⟨hp, by omega, haddr, hholds⟩
  · rintro ⟨hp, hlt, haddr, hholds⟩
    exact ⟨haddr, hholds, hp, by omega⟩

/-- No segment of the cache has the region. -/
theorem decides_miss (h : Inv s l) (hs : s.vm.search (s.vm.covers st (s.vm.x0 offset)) = some 0) :
    Decides keeps s (.cache (some st) offset nbytes addr mem) := by
  have hlocates : Locates keeps s (.cache (some st) offset nbytes addr mem) ↔
      (keeps ∨ ¬ s.vm.Evicting (s.vm.x1 (offset + nbytes - 1) - s.vm.x0 offset + 1)) ∧
        (addr ≠ 0 → mem → addr ≠ mapFailed ∧ (s.vm.region st offset nbytes addr).holds offset ∧
          addr + (offset - s.vm.x0 offset) ≠ 0) := by
    simp only [Locates, hs, Option.some.injEq, exists_eq_left', ne_eq, not_true, if_false]
  by_cases hk : keeps ∨ ¬ s.vm.Evicting (s.vm.x1 (offset + nbytes - 1) - s.vm.x0 offset + 1)
  · obtain ⟨vm, status, f, hres, hl, hf⟩ := reservespace_spares h.rep hk
    have hall : ∀ i ∈ l, s.count i ≠ 0 → i ∈ l.filter fun i => i ∉ f := by
      intro i hi hn
      refine List.mem_filter.mpr ⟨hi, decide_eq_true fun hif => hn ?_⟩
      have hr : s.vm.refcnt i = 0 := of_decide_eq_true (List.mem_filter.mp (hf hif)).2
      rw [h.counts.refcnt i hi] at hr
      exact_mod_cast hr
    have hsub : (l.filter fun i => i ∉ f) ⊆ l := List.filter_subset_self l
    have hcall : cacheregion keeps s.vm (some st) offset nbytes addr mem =
        if addr = 0 then some (vm, 0) else if !mem then some (vm, 0) else
          some ((vm.insert (s.vm.region st offset nbytes addr)).refresh (vm.calloced + 1),
            addr + (offset - s.vm.x0 offset)) := by
      simp only [cacheregion, hs, Option.bind_some, ne_eq, not_true, if_false, hres]
      rfl
    by_cases ha : addr = 0
    · rw [if_pos ha] at hcall
      exact decides_null h hcall hl.rep hl.refcnt hl.info hsub hall (hlocates.mpr ⟨hk, fun hn => absurd ha hn⟩)
    rw [if_neg ha] at hcall
    by_cases hm : mem = true
    · rw [hm, if_neg (by decide)] at hcall
      have hnew : ∀ i ∈ l, i ≠ vm.calloced + 1 := by
        intro i hi hin
        have hb := h.rep.bound i hi
        rw [hl.calloced] at hin
        omega
      have hcount : s.count (vm.calloced + 1) = 0 :=
        count_eq_zero.mpr fun r hr => hnew r.sp (h.counts.listed r hr)
      rw [hm]
      refine decides_push h hcall (hl.rep.add _) ?_ (fun i hi => ?_) hsub
        (fun i hi hn => List.mem_cons_of_mem _ (hall i hi hn)) ?_
      · rw [hcount]
        simp only [Vmcache.refresh, Vmcache.relink, Vmcache.insert, update_self, update_idem, hl.refcnt]
        rfl
      · simp only [Vmcache.refresh, Vmcache.relink, Vmcache.insert, update_of_ne (hnew i (hsub hi)), hl.info]
      · have hinfo : ((vm.insert (s.vm.region st offset nbytes addr)).refresh (vm.calloced + 1)).info (vm.calloced + 1) =
            s.vm.region st offset nbytes addr := by
          simp only [Vmcache.refresh, Vmcache.relink, Vmcache.insert, update_self]
        have hmaps : (s.vm.region st offset nbytes addr).maps offset (addr + (offset - s.vm.x0 offset)) = true ↔
            addr ≠ mapFailed ∧ (s.vm.region st offset nbytes addr).holds offset = true := by
          simp only [Info.maps, Bool.and_eq_true, bne_iff_ne]
          refine and_congr_right fun _ => and_iff_left ?_
          exact beq_self_eq_true _
        rw [hm] at hlocates
        rw [hinfo, hmaps, hlocates, hcount]
        constructor
        · rintro ⟨-, hnew⟩
          obtain ⟨hfailed, hholds, hp⟩ := hnew ha rfl
          exact ⟨hp, by decide, hfailed, hholds⟩
        · rintro ⟨hp, -, hfailed, hholds⟩
          exact ⟨hk, fun _ _ => ⟨hfailed, hholds, hp⟩⟩
    · rw [Bool.not_eq_true] at hm
      rw [hm, Bool.not_false, if_pos rfl] at hcall
      rw [hm] at hlocates ⊢
      exact decides_null h hcall hl.rep hl.refcnt hl.info hsub hall (hlocates.mpr ⟨hk, fun _ hn => by cases hn⟩)
  · refine .inr ⟨fun hn => hk (hlocates.mp hn).1, fun t ht => ?_⟩
    rw [not_or, Bool.not_eq_true, not_not] at hk
    have hnone := reservespace_evicting h.rep hk.2
    rw [Session.call, cacheregion, hk.1] at ht
    dsimp only at ht
    rw [hs, Option.bind_some, if_neg (not_not.mpr rfl), hnone] at ht
    cases ht

theorem decides_cache (h : Inv s l) : Decides keeps s (.cache st? offset nbytes addr mem) := by
  cases st? with
  | none =>
    exact decides_null h rfl h.rep rfl rfl (List.Subset.refl l) (fun _ hi _ => hi) trivial
  | some st =>
    rcases h.rep.search (s.vm.covers st (s.vm.x0 offset)) with ⟨sp, hx, -, hs⟩ | ⟨-, hs⟩
    · by_cases hc : s.vm.covers st (s.vm.x1 (offset + nbytes - 1)) sp = true
      · exact decides_hit h hx hs hc
      · -- the region extends a segment
        have h0 := h.rep.dlist.next.ne_zero hx
        have hcall : cacheregion keeps s.vm (some st) offset nbytes addr mem = some (s.vm, 0) := by
          simp only [cacheregion, hs, Option.bind_some, ne_eq, h0, not_false_eq_true, if_true, hc]
          rfl
        refine decides_null h hcall h.rep rfl rfl (List.Subset.refl l) (fun _ hi _ => hi) ⟨sp, hs, ?_⟩
        rw [if_pos h0]
        exact fun hn => absurd hn hc
    · exact decides_miss h hs

/-- A reference is given up. -/
theorem count_eraseIdx (vm : Vmcache w) (right : Bool) (hr : s.unmatched[k]? = some r) (i : Nat) :
    s.count i = Session.count ⟨vm, s.unmatched.eraseIdx k, right⟩ i + if r.sp = i then 1 else 0 := by
  obtain ⟨hk, rfl⟩ := List.getElem?_eq_some_iff.mp hr
  have hperm := (List.getElem_cons_eraseIdx_perm hk).countP_eq fun r => r.sp == i
  rw [List.countP_cons] at hperm
  simp only [Session.count, ← hperm, beq_iff_eq]

theorem counts_pop (h : Counts s l) (hr : s.unmatched[k]? = some r) {v : Int}
    (hrefcnt : vm.refcnt = update s.vm.refcnt r.sp v) (hsub : l' ⊆ l) (hall : ∀ i ∈ l, i ≠ r.sp → i ∈ l') (b : Bool) :
    Counts ⟨vm, s.unmatched.eraseIdx k, s.right && b⟩ l' ↔
      (r.sp ∈ l' → v = s.count r.sp - 1) ∧ (s.count r.sp ≠ 1 → r.sp ∈ l') ∧ b = true := by
  have hcount := count_eraseIdx vm (s.right && b) hr
  constructor
  · intro hc
    refine ⟨fun hm => ?_, fun hn => ?_, ?_⟩
    · have hv := hc.refcnt r.sp hm
      rw [hrefcnt, update_self] at hv
      rw [hv, hcount r.sp, if_pos rfl]
      push_cast
      omega
    · rw [hcount r.sp, if_pos rfl, ne_eq, Nat.add_eq_right, count_eq_zero] at hn
      push Not at hn
      obtain ⟨r', hr', hsp⟩ := hn
      rw [← hsp]
      exact hc.listed r' hr'
    · have hright := hc.right
      rwa [h.right, Bool.true_and] at hright
  · rintro ⟨hv, hm, rfl⟩
    refine ⟨fun i hi => ?_, fun r' hr' => ?_, by rw [h.right]; rfl⟩
    · rw [hrefcnt]
      have hi' := hcount i
      by_cases his : r.sp = i
      · rw [if_pos his] at hi'
        rw [← his, update_self, hv (his ▸ hi), his]
        omega
      · rw [if_neg his] at hi'
        rw [update_of_ne (Ne.symm his), h.refcnt i (hsub hi)]
        omega
    · by_cases hsp : r'.sp = r.sp
      · rw [hsp]
        refine hm fun h1 => ?_
        rw [hcount r.sp, if_pos rfl, Nat.add_eq_right, count_eq_zero] at h1
        exact h1 r' hr' hsp
      · exact hall r'.sp (h.listed r' (List.mem_of_mem_eraseIdx hr')) hsp

/-- The counter of another segment goes down. -/
theorem not_counts_of_missed {right : Bool} (h : Counts s l) (hr : s.unmatched[k]? = some r) (hx : r.sp ∈ l')
    (hrefcnt : vm.refcnt r.sp = s.vm.refcnt r.sp) : ¬ Counts ⟨vm, s.unmatched.eraseIdx k, right⟩ l' := by
  intro hc
  have hv := hc.refcnt r.sp hx
  have hcount := count_eraseIdx vm right hr r.sp
  rw [if_pos rfl] at hcount
  dsimp only at hv
  rw [hrefcnt, h.refcnt r.sp (h.listed r (List.mem_of_getElem? hr))] at hv
  omega

variable (destroy cancel unmapped) in
/-- `vm_uncache` does nothing to the other segments. -/
theorem uncache_others (h : Rep vm l) (hx : sp ∈ l) :
    ∃ l', Rep (uncache vm sp destroy cancel unmapped).1 l' ∧ (∀ i ∈ l, i ≠ sp → i ∈ l') ∧
      ∀ i, i ≠ sp → (uncache vm sp destroy cancel unmapped).1.refcnt i = vm.refcnt i := by
  unfold uncache
  dsimp only
  generalize (if toInt (vm.refcnt sp - 1) < 0 ∨ cancel = true then 0 else toInt (vm.refcnt sp - 1)) = v
  have hr := h.refcnt (update vm.refcnt sp v)
  split
  · exact ⟨l.erase sp, hr.free hx, fun i hi hne => (List.mem_erase_of_ne hne).mpr hi, fun i hne => update_of_ne hne _ _⟩
  · exact ⟨l, hr, fun i hi _ => hi, fun i hne => update_of_ne hne _ _⟩

/-- A reference is given up, and the reference counts are right afterwards just when the condition is met. -/
theorem decides_pop (h : Inv s l) {v : Int} (hv : v < 2 ^ 31) {right : Bool}
    (hcall : s.call keeps (.uncache k destroy cancel unmapped) = some ⟨vm, s.unmatched.eraseIdx k, right⟩)
    (hrep : Rep vm l') (hsub : l' ⊆ l) (hinfo : vm.info = s.vm.info) (hrefcnt : vm.refcnt = update s.vm.refcnt sp v)
    (hcounts : Counts ⟨vm, s.unmatched.eraseIdx k, right⟩ l' ↔ Locates keeps s (.uncache k destroy cancel unmapped)) :
    Decides keeps s (.uncache k destroy cancel unmapped) := by
  by_cases hok : Locates keeps s (.uncache k destroy cancel unmapped)
  · refine .inl ⟨hok, _, l', hcall, hrep, hcounts.mpr hok, fun i hi => ?_, fun i hi => ?_⟩
    · dsimp only
      rw [hinfo]
      exact h.mapped i (hsub hi)
    · dsimp only
      rw [hrefcnt]
      by_cases his : i = sp
      · rwa [his, update_self]
      · rw [update_of_ne his]
        exact h.bound i (hsub hi)
  · refine .inr ⟨hok, fun t ht => ?_⟩
    rw [hcall] at ht
    cases ht
    exact not_referenced hrep (mt hcounts.mp hok)

/-- The segment of a reference is found. -/
theorem decides_found (h : Inv s l) (hr : s.unmatched[k]? = some r) (hst : r.st = some st)
    (hs : s.vm.search (s.vm.starts st (s.vm.x0 r.offset)) = some r.sp) :
    Decides keeps s (.uncache k destroy cancel unmapped) := by
  have hx : r.sp ∈ l := h.counts.listed r (List.mem_of_getElem? hr)
  have h0 := h.rep.dlist.next.ne_zero hx
  have hcount := h.counts.refcnt r.sp hx
  have hbound := h.bound r.sp hx
  have hpos : s.count r.sp ≠ 0 := fun hn => count_eq_zero.mp hn r (List.mem_of_getElem? hr) rfl
  have hlocates : Locates keeps s (.uncache k destroy cancel unmapped) ↔
      (cancel → s.count r.sp = 1) ∧ (s.count r.sp = 1 → destroy ∨ !s.vm.cacheEnabled → unmapped) := by
    have hone : s.vm.refcnt r.sp = 1 ↔ s.count r.sp = 1 := by omega
    simp only [Locates, hr, Option.some.injEq, forall_eq', hone]
    exact and_iff_right ⟨st, hst, hs⟩
  have hcall : s.call keeps (.uncache k destroy cancel unmapped) =
      some ⟨(uncache s.vm r.sp destroy cancel unmapped).1, s.unmatched.eraseIdx k,
        s.right && (uncache s.vm r.sp destroy cancel unmapped).2 == 0⟩ := by
    simp only [Session.call, hr, uncacheregion, hst, hs, Option.map_some, h0, if_false]
  have hpred : toInt (s.vm.refcnt r.sp - 1) = (s.count r.sp : Int) - 1 := by
    rw [hcount] at hbound ⊢
    rw [toInt_pred hpos (by omega)]
    omega
  have hnonneg : ¬ (s.count r.sp : Int) - 1 < 0 := by omega
  generalize hv : (if cancel = true then 0 else (s.count r.sp : Int) - 1) = v
  have hlt : v < 2 ^ 31 := by
    rw [← hv]
    split <;> omega
  have huncache : uncache s.vm r.sp destroy cancel unmapped =
      if v = 0 ∧ (destroy ∨ !s.vm.cacheEnabled) then
        ({ s.vm with refcnt := update s.vm.refcnt r.sp v }.free r.sp, if unmapped then 0 else -1)
      else ({ s.vm with refcnt := update s.vm.refcnt r.sp v }, 0) := by
    unfold uncache
    simp only [hpred, hnonneg, false_or, hv, update_self]
  have hrep := h.rep.refcnt (update s.vm.refcnt r.sp v)
  rw [huncache] at hcall
  by_cases hfree : v = 0 ∧ (destroy ∨ !s.vm.cacheEnabled)
  · rw [if_pos hfree] at hcall
    refine decides_pop h hlt hcall (hrep.free hx) List.erase_subset rfl rfl ?_
    rw [counts_pop h.counts hr rfl List.erase_subset (fun i hi hne => (List.mem_erase_of_ne hne).mpr hi), hlocates]
    have hnot : r.sp ∉ l.erase r.sp := h.rep.nodup.not_mem_erase
    have hstatus : ((if unmapped = true then 0 else -1 : Int) == 0) = unmapped := by
      cases unmapped <;> rfl
    rw [hstatus]
    constructor
    · rintro ⟨-, hm, hu⟩
      have hone : s.count r.sp = 1 := by
        by_contra hn
        exact hnot (hm hn)
      exact ⟨fun _ => hone, fun _ _ => hu⟩
    · rintro ⟨hcancel, hu⟩
      have hone : s.count r.sp = 1 := by
        by_cases hc : cancel = true
        · exact hcancel hc
        · rw [if_neg hc] at hv
          omega
      exact ⟨fun hm => absurd hm hnot, fun hn => absurd hone hn, hu hone hfree.2⟩
  · rw [if_neg hfree] at hcall
    refine decides_pop h hlt hcall hrep (List.Subset.refl l) rfl rfl ?_
    rw [counts_pop h.counts hr rfl (List.Subset.refl l) (fun i hi _ => hi), hlocates]
    constructor
    · rintro ⟨hpop, -⟩
      have hpop := hpop hx
      refine ⟨fun hc => ?_, fun hone hd => absurd ⟨by omega, hd⟩ hfree⟩
      rw [if_pos hc] at hv
      omega
    · rintro ⟨hcancel, -⟩
      refine ⟨fun _ => ?_, fun _ => hx, rfl⟩
      by_cases hc : cancel = true
      · have hone := hcancel hc
        rw [if_pos hc] at hv
        omega
      · rw [if_neg hc] at hv
        exact hv.symm

theorem decides_uncache (h : Inv s l) : Decides keeps s (.uncache k destroy cancel unmapped) := by
  cases hr : s.unmatched[k]? with
  | none =>
    have hcall : s.call keeps (.uncache k destroy cancel unmapped) = some s := by
      rw [Session.call, hr]
    refine .inl ⟨fun r hr' => ?_, s, l, hcall, h⟩
    rw [hr] at hr'
    cases hr'
  | some r =>
    have hx : r.sp ∈ l := h.counts.listed r (List.mem_of_getElem? hr)
    have hnot : (∀ st, r.st = some st → s.vm.search (s.vm.starts st (s.vm.x0 r.offset)) ≠ some r.sp) →
        ¬ Locates keeps s (.uncache k destroy cancel unmapped) := by
      intro hs hn
      obtain ⟨⟨st, hst, hfound⟩, -⟩ := hn r hr
      exact hs st hst hfound
    cases hst : r.st with
    | none =>
      refine .inr ⟨hnot fun st h' => absurd (hst.symm.trans h') (Option.some_ne_none st).symm, fun t ht => ?_⟩
      simp only [Session.call, hr, uncacheregion, hst, Option.map_some, Option.some.injEq] at ht
      cases ht
      exact not_referenced h.rep (not_counts_of_missed h.counts hr hx rfl)
    | some st =>
      rcases h.rep.search (s.vm.starts st (s.vm.x0 r.offset)) with ⟨sp, hsp, -, hs⟩ | ⟨-, hs⟩
      · by_cases hne : r.sp = sp
        · rw [← hne] at hs
          exact decides_found h hr hst hs
        · -- another segment starts where the region does
          refine .inr ⟨hnot fun st' h' hs' => ?_, fun t ht => ?_⟩
          · rw [hst] at h'
            cases h'
            rw [hs] at hs'
            exact hne (Option.some.inj hs').symm
          · have h0 := h.rep.dlist.next.ne_zero hsp
            simp only [Session.call, hr, uncacheregion, hst, hs, Option.map_some, h0, if_false, Option.some.injEq] at ht
            cases ht
            obtain ⟨l', hrep, hall, hrefcnt⟩ := uncache_others destroy cancel unmapped h.rep hsp
            exact not_referenced hrep (not_counts_of_missed h.counts hr (hall r.sp hx hne) (hrefcnt r.sp hne))
      · -- no segment starts where the region does
        refine .inr ⟨hnot fun st' h' hs' => ?_, fun t ht => ?_⟩
        · rw [hst] at h'
          cases h'
          rw [hs] at hs'
          exact h.rep.dlist.next.ne_zero hx (Option.some.inj hs').symm
        · simp only [Session.call, hr, uncacheregion, hst, hs, Option.map_some, if_true, Option.some.injEq] at ht
          cases ht
          exact not_referenced h.rep (not_counts_of_missed h.counts hr hx rfl)

end Calls

/-- The cache before the first call -/
def Session.init (enable : Bool) (cachesize pagesize : BitVec w) : Session w := ⟨initcache enable cachesize pagesize, [], true⟩

theorem inv_init (enable : Bool) (cachesize pagesize : BitVec w) : Inv (Session.init enable cachesize pagesize) [] where
  rep := rep_initcache enable cachesize pagesize
  counts := ⟨by simp, by simp [Session.init], rfl⟩
  mapped := by simp
  bound := by simp

/-- For all calls of `vm_cacheregion` and `vm_uncacheregion`: they are right and so are the reference counts in every state,
if and only if every call meets `Locates`. -/
theorem referenced_iff (keeps enable : Bool) (cachesize pagesize : BitVec w) (calls : List (Call w)) :
    Always Referenced (Session.call keeps) (Session.init enable cachesize pagesize) calls ↔
      Steps (Locates keeps) (Session.call keeps) (Session.init enable cachesize pagesize) calls := by
  have hdecides : ∀ (s : Session w) (c : Call w), (∃ l, Inv s l) → Decides keeps s c := by
    rintro s c ⟨l, h⟩
    cases c with
    | cache => exact decides_cache h
    | uncache => exact decides_uncache h
  refine always_iff_steps (I := fun s => ∃ l, Inv s l) ?_ ?_ ?_ ⟨[], inv_init enable cachesize pagesize⟩
  · rintro s ⟨l, h⟩
    exact h.referenced
  · rintro s c hI hok
    rcases hdecides s c hI with ⟨-, t, l, ht, hl⟩ | ⟨hn, -⟩
    · exact ⟨t, ht, l, hl⟩
    · exact absurd hok hn
  · rintro s c t hI hbad ht
    rcases hdecides s c hI with ⟨hok, -⟩ | ⟨-, hn⟩
    · exact absurd hok hbad
    · exact hn t ht

/-- Two pages of a file are cached, and then the second one, which the segment has. -/
def nested : List (Call 32) :=
  [.cache (some ⟨1, 0⟩) 0 8192 8192 true, .cache (some ⟨1, 0⟩) 4096 4096 8192 true, .uncache 0 false false true]

/-- No segment starts at the second page, so that it is not found when it is no longer needed. -/
theorem referenced_not :
    ¬ ∀ (keeps enable : Bool) (cachesize pagesize : BitVec 32) (calls : List (Call 32)),
      Always Referenced (Session.call keeps) (Session.init enable cachesize pagesize) calls := by
  intro h
  obtain ⟨s, hrun, l, -, hcounts⟩ := (h true true 1048576 4096 nested).last
  have hright : (run (Session.call (w := 32) true) (Session.init true 1048576 4096) nested).map Session.right = some false := by
    decide +kernel
  rw [hrun, Option.map_some, hcounts.right] at hright
  cases hright

end Ndhs.Vm
