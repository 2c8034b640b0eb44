import Ndhs.Vm.Cache

/-!
# The segments of a file do not overlap

A segment has the bytes of whole pages of a file (`Info.Has`). A request is for the pages from `first` to `behind`.

The source says that a new segment must not overlap an existing one, unless it falls within it. `vm_cacheregion` looks
for a segment that has the first byte of the request. It does not see a segment that the request reaches into from
before its start, and makes a second one (`fromBefore_not_apart`).

`apart_of_steps`: in a run whose requests start in a segment whenever they overlap one, and end before the last page of
the address space, no two segments overlap, and a request that overlaps a segment in part is refused.
-/

namespace Ndhs.Vm

open Function Linked Machine

variable {w : Nat}

/-! ## Pages -/

/-- The segment has the byte `b` of the file. -/
def Info.Has (x : Info w) (st : Stat w) (b : Nat) : Prop :=
  (x.inode = st.ino ∧ x.device = st.dev) ∧ x.offset.toNat ≤ b ∧ b < x.offset.toNat + x.nbytes.toNat

/-- The first byte of the page of `x` -/
def page (pagesize : BitVec w) (x : Nat) : Nat := x - x % pagesize.toNat

/-- The first byte of the pages of a request -/
def first (pagesize offset : BitVec w) : Nat := page pagesize offset.toNat

/-- The first byte behind the pages of a request -/
def behind (pagesize offset nbytes : BitVec w) : Nat :=
  page pagesize (offset.toNat + nbytes.toNat - 1) + pagesize.toNat

/-- The request is not empty, and an `unsigned long` holds the end of its pages. -/
structure InRange (pagesize offset nbytes : BitVec w) : Prop where
  positive : 0 < nbytes
  noWrap : behind pagesize offset nbytes < 2 ^ w

section Pages

variable {vm : Vmcache w} {offset nbytes x pagesize : BitVec w} {sp : Nat} {st : Stat w}

theorem toNat_page (x pagesize : BitVec w) : (x - x % pagesize).toNat = page pagesize x.toNat := by
  have hle : x % pagesize ≤ x := by
    rw [BitVec.le_def, BitVec.toNat_umod]
    exact Nat.mod_le _ _
  rw [BitVec.toNat_sub_of_le hle, BitVec.toNat_umod]
  rfl

theorem toNat_one_of_pos (hp : 0 < pagesize) : (1 : BitVec w).toNat = 1 := by
  have hpos : 0 < pagesize.toNat := BitVec.lt_def.mp hp
  exact Nat.mod_eq_of_lt (Nat.lt_of_le_of_lt hpos pagesize.isLt)

/-- The last byte of a request lies in the last page. -/
theorem InRange.lt_behind (h : InRange pagesize offset nbytes) (hp : 0 < pagesize) :
    offset.toNat + nbytes.toNat ≤ behind pagesize offset nbytes ∧ 0 < nbytes.toNat := by
  have h0 : 0 < nbytes.toNat := BitVec.lt_def.mp h.positive
  have hp : 0 < pagesize.toNat := BitVec.lt_def.mp hp
  have hmod := Nat.mod_lt (offset.toNat + nbytes.toNat - 1) hp
  refine ⟨?_, h0⟩
  unfold behind page
  omega

theorem InRange.first_lt_behind (h : InRange pagesize offset nbytes) (hp : 0 < pagesize) :
    first pagesize offset < behind pagesize offset nbytes := by
  have hlt := h.lt_behind hp
  have hle : first pagesize offset ≤ offset.toNat := Nat.sub_le _ _
  omega

theorem InRange.last_toNat (h : InRange pagesize offset nbytes) (hp : 0 < pagesize) :
    (offset + nbytes - 1).toNat = offset.toNat + nbytes.toNat - 1 := by
  have hlt := h.lt_behind hp
  have hend := h.noWrap
  have hadd : (offset + nbytes).toNat = offset.toNat + nbytes.toNat := by
    rw [BitVec.toNat_add, Nat.mod_eq_of_lt (by omega)]
  have hle : (1 : BitVec w) ≤ offset + nbytes := by
    rw [BitVec.le_def, hadd, toNat_one_of_pos hp]
    omega
  rw [BitVec.toNat_sub_of_le hle, hadd, toNat_one_of_pos hp]

theorem x0_toNat : (vm.x0 offset).toNat = first vm.pagesize offset := toNat_page offset vm.pagesize

theorem InRange.x1_toNat (h : InRange vm.pagesize offset nbytes) (hp : 0 < vm.pagesize) :
    (vm.x1 (offset + nbytes - 1)).toNat = behind vm.pagesize offset nbytes - 1 := by
  have hlt := h.lt_behind hp
  have hadd : ((offset + nbytes - 1) - (offset + nbytes - 1) % vm.pagesize + vm.pagesize).toNat =
      behind vm.pagesize offset nbytes := by
    rw [BitVec.toNat_add, toNat_page, h.last_toNat hp]
    exact Nat.mod_eq_of_lt h.noWrap
  have hle : (1 : BitVec w) ≤ (offset + nbytes - 1) - (offset + nbytes - 1) % vm.pagesize + vm.pagesize := by
    rw [BitVec.le_def, hadd, toNat_one_of_pos hp]
    omega
  rw [Vmcache.x1, BitVec.toNat_sub_of_le hle, hadd, toNat_one_of_pos hp]

/-- The size of a new segment -/
theorem InRange.size_toNat (h : InRange vm.pagesize offset nbytes) (hp : 0 < vm.pagesize) :
    (vm.x1 (offset + nbytes - 1) - vm.x0 offset + 1).toNat =
      behind vm.pagesize offset nbytes - first vm.pagesize offset := by
  have hlt := h.first_lt_behind hp
  have hend := h.noWrap
  have hle : vm.x0 offset ≤ vm.x1 (offset + nbytes - 1) := by
    rw [BitVec.le_def, h.x1_toNat hp, x0_toNat]
    omega
  rw [BitVec.toNat_add, BitVec.toNat_sub_of_le hle, h.x1_toNat hp, x0_toNat, toNat_one_of_pos hp, Nat.mod_eq_of_lt]
  · omega
  · omega

/-- The comparisons of the source, for a segment that ends before the last byte -/
theorem covers_iff (hb : (vm.info sp).offset.toNat + (vm.info sp).nbytes.toNat < 2 ^ w) :
    vm.covers st x sp ↔ (vm.info sp).Has st x.toNat := by
  have hadd : ((vm.info sp).offset + (vm.info sp).nbytes).toNat =
      (vm.info sp).offset.toNat + (vm.info sp).nbytes.toNat := by
    rw [BitVec.toNat_add, Nat.mod_eq_of_lt hb]
  simp only [Vmcache.covers, Info.Has, Bool.and_eq_true, beq_iff_eq, decide_eq_true_eq, BitVec.le_def,
    BitVec.lt_def, hadd]

end Pages

/-! ## Requests -/

/-- The segments, from the head of the list on -/
def Vmcache.Listed (vm : Vmcache w) (sp : Nat) : Prop := ∃ l, Chain vm.links.next vm.segmentHead l ∧ sp ∈ l

/-- The request is for a byte of the segment. -/
def Vmcache.Meets (vm : Vmcache w) (st : Stat w) (offset nbytes : BitVec w) (sp : Nat) : Prop :=
  ∃ b, first vm.pagesize offset ≤ b ∧ b < behind vm.pagesize offset nbytes ∧ (vm.info sp).Has st b

/-- The segment has all bytes of the request. -/
def Vmcache.Within (vm : Vmcache w) (st : Stat w) (offset nbytes : BitVec w) (sp : Nat) : Prop :=
  ∀ b, first vm.pagesize offset ≤ b → b < behind vm.pagesize offset nbytes → (vm.info sp).Has st b

/-- No two segments have the same byte of a file. -/
def Apart (vm : Vmcache w) : Prop :=
  ∃ l, Chain vm.links.next vm.segmentHead l ∧
    ∀ i ∈ l, ∀ j ∈ l, i ≠ j → ∀ st b, ¬ ((vm.info i).Has st b ∧ (vm.info j).Has st b)

/-- A request that overlaps a segment in part is refused, and nothing changes. -/
def Refuses (keeps : Bool) (vm : Vmcache w) : Op w → Prop
  | .cacheregion (some st) offset nbytes addr mem =>
    ∀ sp, vm.Listed sp → vm.Meets st offset nbytes sp → ¬ vm.Within st offset nbytes sp →
      cacheregion keeps vm (some st) offset nbytes addr mem = some (vm, 0)
  | _ => True

/-- A request that overlaps a segment starts in one, and an `unsigned long` holds the end of its pages. -/
def StartsInside (vm : Vmcache w) : Op w → Prop
  | .cacheregion (some st) offset nbytes _ _ =>
    InRange vm.pagesize offset nbytes ∧
      ((∃ sp, vm.Listed sp ∧ vm.Meets st offset nbytes sp) →
        ∃ sp, vm.Listed sp ∧ (vm.info sp).Has st (first vm.pagesize offset))
  | _ => True

/-- The invariant: the segments do not overlap, and an `unsigned long` holds the end of each. -/
structure Tidy (pagesize : BitVec w) (vm : Vmcache w) (l : List Nat) : Prop where
  rep : Rep vm l
  pagesize : vm.pagesize = pagesize
  apart : ∀ i ∈ l, ∀ j ∈ l, i ≠ j → ∀ st b, ¬ ((vm.info i).Has st b ∧ (vm.info j).Has st b)
  noWrap : ∀ i ∈ l, (vm.info i).offset.toNat + (vm.info i).nbytes.toNat < 2 ^ w

section Requests

variable {keeps : Bool} {vm vm' : Vmcache w} {l l' : List Nat} {pagesize offset nbytes addr : BitVec w} {mem : Bool}
  {st : Stat w} {op : Op w} {sp : Nat}

theorem Rep.listed (h : Rep vm l) : vm.Listed sp ↔ sp ∈ l := by
  constructor
  · rintro ⟨l', hc, hm⟩
    rwa [h.dlist.next.unique hc]
  · exact fun hm => ⟨l, h.dlist.next, hm⟩

/-- The pages of a new segment -/
theorem has_new (hr : InRange vm.pagesize offset nbytes) (hp : 0 < vm.pagesize) (st st' : Stat w) (b : Nat)
    (h : Info.Has ⟨st.ino, st.dev, vm.x0 offset, vm.x1 (offset + nbytes - 1) - vm.x0 offset + 1, addr⟩ st' b) :
    st' = st ∧ first vm.pagesize offset ≤ b ∧ b < behind vm.pagesize offset nbytes := by
  obtain ⟨⟨hino, hdev⟩, hlo, hhi⟩ := h
  have hlt := hr.first_lt_behind hp
  rw [x0_toNat] at hlo
  rw [x0_toNat, hr.size_toNat hp] at hhi
  refine ⟨?_, hlo, by omega⟩
  cases st
  cases st'
  simp_all

theorem Tidy.of_subset (h : Tidy pagesize vm l) (hr : Rep vm' l') (hp : vm'.pagesize = vm.pagesize) (hsub : l' ⊆ l)
    (hinfo : vm'.info = vm.info) : Tidy pagesize vm' l' where
  rep := hr
  pagesize := hp.trans h.pagesize
  apart := by
    rw [hinfo]
    exact fun i hi j hj => h.apart i (hsub hi) j (hsub hj)
  noWrap := by
    rw [hinfo]
    exact fun i hi => h.noWrap i (hsub hi)

/-- A new segment that meets no other is put in front. -/
theorem Tidy.insert (h : Tidy pagesize vm l) (hr : Rep vm' l') (hp' : vm'.pagesize = vm.pagesize) (hp : 0 < vm.pagesize)
    (hrange : InRange vm.pagesize offset nbytes) (hsp : sp ∉ l) (hsub : l' ⊆ sp :: l)
    (hmeet : ∀ i ∈ l, ¬ vm.Meets st offset nbytes i)
    (hinfo : vm'.info = update vm.info sp
      ⟨st.ino, st.dev, vm.x0 offset, vm.x1 (offset + nbytes - 1) - vm.x0 offset + 1, addr⟩) :
    Tidy pagesize vm' l' := by
  have hold : ∀ i ∈ l, vm'.info i = vm.info i := by
    intro i hi
    rw [hinfo]
    refine update_of_ne ?_ _ _
    rintro rfl
    exact hsp hi
  have hnew : vm'.info sp = ⟨st.ino, st.dev, vm.x0 offset, vm.x1 (offset + nbytes - 1) - vm.x0 offset + 1, addr⟩ := by
    rw [hinfo, update_self]
  have hapart : ∀ i ∈ l, ∀ st' b, (vm'.info sp).Has st' b → ¬ (vm'.info i).Has st' b := by
    intro i hi st' b hb hib
    rw [hnew] at hb
    obtain ⟨rfl, hlo, hhi⟩ := has_new hrange hp st st' b hb
    rw [hold i hi] at hib
    exact hmeet i hi ⟨b, hlo, hhi, hib⟩
  refine ⟨hr, hp'.trans h.pagesize, fun i hi j hj hne st' b hb => ?_, fun i hi => ?_⟩
  · rcases List.mem_cons.mp (hsub hi) with rfl | hi
    · rcases List.mem_cons.mp (hsub hj) with rfl | hj
      · exact hne rfl
      · exact hapart j hj st' b hb.1 hb.2
    · rcases List.mem_cons.mp (hsub hj) with rfl | hj
      · exact hapart i hi st' b hb.2 hb.1
      · rw [hold i hi, hold j hj] at hb
        exact h.apart i hi j hj hne st' b hb
  · rcases List.mem_cons.mp (hsub hi) with rfl | hi
    · have hlt := hrange.first_lt_behind hp
      have hend := hrange.noWrap
      rw [hnew]
      simp only [x0_toNat, hrange.size_toNat hp]
      omega
    · rw [hold i hi]
      exact h.noWrap i hi

/-- A step whose request does not reach into a segment from outside. -/
theorem Tidy.step (h : Tidy pagesize vm l) (hp : 0 < pagesize) (hok : StartsInside vm op)
    (hk : keeps ∨ ¬ ReadsFreed vm op) : ∃ vm' l', step keeps vm op = some vm' ∧ Tidy pagesize vm' l' := by
  obtain ⟨vm', l', hs, hst⟩ := step_rep h.rep op hk
  refine ⟨vm', l', hs, ?_⟩
  rcases hst.inserts with ⟨hsub, hinfo⟩ | ⟨st, offset, nbytes, addr, mem, sp, rfl, hnone, hsp, hsub, hinfo⟩
  · exact h.of_subset hst.rep hst.pagesize hsub hinfo
  · rw [← h.pagesize] at hp
    obtain ⟨hrange, hinside⟩ := hok
    refine h.insert hst.rep hst.pagesize hp hrange hsp hsub (fun i hi hmeet => ?_) hinfo
    obtain ⟨j, hj, hhas⟩ := hinside ⟨i, h.rep.listed.mpr hi, hmeet⟩
    have hj := h.rep.listed.mp hj
    refine hnone j hj ((covers_iff (h.noWrap j hj)).mpr ?_)
    rw [x0_toNat]
    exact hhas

/-- A request that overlaps a segment in part is refused. -/
theorem Tidy.refuses (h : Tidy pagesize vm l) (hp : 0 < pagesize) (hok : StartsInside vm op) :
    Refuses keeps vm op := by
  rw [← h.pagesize] at hp
  cases op with
  | cacheregion st offset nbytes addr mem =>
    cases st with
    | none => trivial
    | some st =>
      obtain ⟨hrange, hinside⟩ := hok
      intro sp hsp hmeet hwithin
      obtain ⟨j, hj, hhas⟩ := hinside ⟨sp, hsp, hmeet⟩
      have hsp := h.rep.listed.mp hsp
      have hj := h.rep.listed.mp hj
      have hcov : vm.covers st (vm.x0 offset) j := by
        rw [covers_iff (h.noWrap j hj), x0_toNat]
        exact hhas
      rcases h.rep.search (vm.covers st (vm.x0 offset)) with ⟨i, hi, hci, hs⟩ | ⟨hnone, -⟩
      · have hext : ¬ vm.covers st (vm.x1 (offset + nbytes - 1)) i := by
          intro hc
          rw [covers_iff (h.noWrap i hi), x0_toNat] at hci
          rw [covers_iff (h.noWrap i hi), hrange.x1_toNat hp] at hc
          -- the segment that was found has all bytes, so it is the one that the request meets
          have hall : vm.Within st offset nbytes i := by
            intro b hlo hhi
            have h₁ := hci.2
            have h₂ := hc.2
            exact ⟨hci.1, by omega, by omega⟩
          obtain ⟨b, hlo, hhi, hb⟩ := hmeet
          have his : i = sp := by
            by_contra hne
            exact h.apart i hi sp hsp hne st b ⟨hall b hlo hhi, hb⟩
          exact hwithin (his ▸ hall)
        simp only [cacheregion, hs, Option.bind_some, ne_eq, h.rep.dlist.next.ne_zero hi, not_false_eq_true, if_true,
          if_neg hext]
      · exact absurd hcov (hnone j hj)
  | uncacheregion => trivial
  | refreshregion => trivial
  | reservespace => trivial
  | closecache => trivial

end Requests

/-- In every run whose requests start in a segment whenever they overlap one, no two segments overlap in any state, and
every request that overlaps a segment in part is refused. -/
theorem apart_of_steps (keeps enable : Bool) (cachesize pagesize : BitVec w) (hp : 0 < pagesize) (ops : List (Op w))
    (h : Steps (fun vm op => StartsInside vm op ∧ (keeps ∨ ¬ ReadsFreed vm op)) (step keeps)
      (initcache enable cachesize pagesize) ops) :
    Always Apart (step keeps) (initcache enable cachesize pagesize) ops ∧
      Steps (Refuses keeps) (step keeps) (initcache enable cachesize pagesize) ops := by
  have hinit : Tidy pagesize (initcache enable cachesize pagesize) [] :=
    ⟨rep_initcache enable cachesize pagesize, rfl, by simp, by simp⟩
  have hstep : ∀ vm op, (∃ l, Tidy pagesize vm l) → StartsInside vm op ∧ (keeps ∨ ¬ ReadsFreed vm op) →
      ∃ vm', step keeps vm op = some vm' ∧ ∃ l, Tidy pagesize vm' l := by
    rintro vm op ⟨l, hl⟩ ⟨hok, hk⟩
    obtain ⟨vm', l', hs, ht⟩ := hl.step hp hok hk
    exact ⟨vm', hs, l', ht⟩
  constructor
  · refine (always_of_steps hstep ⟨[], hinit⟩ h).mono ?_
    rintro vm ⟨l, hl⟩
    exact ⟨l, hl.rep.dlist.next, hl.apart⟩
  · refine h.mono (I := fun vm => ∃ l, Tidy pagesize vm l) ?_ ?_ ⟨[], hinit⟩
    · intro vm op vm' hI hok hst
      obtain ⟨vm'', hs, hI'⟩ := hstep vm op hI hok
      obtain rfl : vm' = vm'' := Option.some.inj (hst.symm.trans hs)
      exact hI'
    · rintro vm op ⟨l, hl⟩ hok
      exact hl.refuses hp hok.1

/-- A page of a file is cached, then two pages from the same start: the second request is refused. -/
def growing : List (Op 32) :=
  [.cacheregion (some ⟨1, 0⟩) 0 4096 8192 true, .cacheregion (some ⟨1, 0⟩) 0 8192 16384 true]

theorem growing_startsInside :
    Steps (fun vm op => StartsInside vm op ∧ (true = true ∨ ¬ ReadsFreed vm op)) (step true)
      (initcache true 1048576 4096) growing := by
  refine ⟨⟨⟨⟨by decide, by decide⟩, ?_⟩, .inl rfl⟩, fun vm hvm => ⟨⟨⟨?_, ?_⟩, .inl rfl⟩, fun _ _ => trivial⟩⟩
  · rintro ⟨sp, hsp, -⟩
    have := (rep_initcache true 1048576 4096).listed.mp hsp
    cases this
  all_goals
    have hv : (step (w := 32) true (initcache true 1048576 4096) (.cacheregion (some ⟨1, 0⟩) 0 4096 8192 true)).map
        (fun vm => (vm.pagesize, vm.segmentHead, vm.links.next 1)) = some (4096, 1, 0) := by
      decide +kernel
    have hi : (step (w := 32) true (initcache true 1048576 4096) (.cacheregion (some ⟨1, 0⟩) 0 4096 8192 true)).map
        (fun vm => ((vm.info 1).inode, (vm.info 1).device, (vm.info 1).offset, (vm.info 1).nbytes)) =
          some (1, 0, 0, 4096) := by
      decide +kernel
    simp only [hvm, Option.map_some, Option.some.injEq, Prod.mk.injEq] at hv hi
    obtain ⟨hpage, hhead, hnext⟩ := hv
    obtain ⟨hino, hdev, hoff, hsize⟩ := hi
  · rw [hpage]
    exact ⟨by decide, by decide⟩
  · intro _
    refine ⟨1, ⟨[1], by simp [hhead, hnext], by simp⟩, ⟨hino, hdev⟩, ?_, ?_⟩
    · rw [hoff]
      exact Nat.zero_le _
    · rw [hoff, hsize, hpage]
      decide

theorem apart_growing :
    (0 : BitVec 32) < 4096 ∧ Always Apart (step true) (initcache true 1048576 4096) growing ∧
      Steps (Refuses true) (step true) (initcache true 1048576 4096) growing :=
  ⟨by decide, apart_of_steps true true 1048576 4096 (by decide) growing growing_startsInside⟩

/-- The second page of a file is cached, and then the first two. -/
def fromBefore : List (Op 32) :=
  [.cacheregion (some ⟨1, 0⟩) 4096 4096 8192 true, .cacheregion (some ⟨1, 0⟩) 0 8192 16384 true]

/-- Both segments have the second page. -/
theorem fromBefore_not_apart : ¬ Always Apart (step true) (initcache true 1048576 4096) fromBefore := by
  intro h
  obtain ⟨vm, hr, l, hl, hapart⟩ := h.last
  have hv : (run (step true) (initcache true 1048576 4096) fromBefore).map
      (fun vm => (vm.segmentHead, vm.links.next 2, vm.links.next 1)) = some (2, 1, 0) := by
    decide +kernel
  have h₁ : (run (step true) (initcache true 1048576 4096) fromBefore).map
      (fun vm => ((vm.info 1).inode, (vm.info 1).device, (vm.info 1).offset, (vm.info 1).nbytes)) =
        some (1, 0, 4096, 4096) := by
    decide +kernel
  have h₂ : (run (step true) (initcache true 1048576 4096) fromBefore).map
      (fun vm => ((vm.info 2).inode, (vm.info 2).device, (vm.info 2).offset, (vm.info 2).nbytes)) =
        some (1, 0, 0, 8192) := by
    decide +kernel
  simp only [hr, Option.map_some, Option.some.injEq, Prod.mk.injEq] at hv h₁ h₂
  obtain ⟨hhead, hnext₂, hnext₁⟩ := hv
  obtain ⟨hino₁, hdev₁, hoff₁, hsize₁⟩ := h₁
  obtain ⟨hino₂, hdev₂, hoff₂, hsize₂⟩ := h₂
  have hc : Chain vm.links.next vm.segmentHead [2, 1] := by simp [hhead, hnext₂, hnext₁]
  obtain rfl := hl.unique hc
  refine hapart 2 (by simp) 1 (by simp) (by decide) ⟨1, 0⟩ 4096 ⟨⟨⟨hino₂, hdev₂⟩, ?_⟩, ⟨hino₁, hdev₁⟩, ?_⟩
  · rw [hoff₂, hsize₂]
    decide
  · rw [hoff₁, hsize₁]
    decide

end Ndhs.Vm
