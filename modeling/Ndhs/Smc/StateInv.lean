import Mathlib.Data.List.InsertIdx
import Mathlib.Data.List.Nodup
import Ndhs.Smc.State

/-!
# What the process state arrays keep

The invariant of `Smc/State.lean`'s system, the calls that keep it, and what the others break.

* `StateSys.Inv.good`: the invariant gives every process what it is owed.
* `StateSys.Good.packed`: conversely, an array of live entries that is good has no hole.
* `stateSys_good_iff`: the exact condition on the calls of a run.
-/

namespace Ndhs

open Machine Slots

/-- The array has no hole, and its live entries are the registered processes. -/
structure StateSys.Inv (s : StateSys) : Prop where
  len : s.sa.length = maxProcs
  zero : s.alive 0 = false
  packed : Packed usedEntry s.sa
  nodup : ((s.sa.filter (liveEntry s.alive)).map SmState.pid).Nodup
  reg : ((s.sa.filter (liveEntry s.alive)).map SmState.reg).Perm s.reg

section Basic

variable {s : StateSys} {p : Nat}

theorem StateSys.Inv.start : StateSys.start.Inv := by
  exact ⟨by decide, rfl, by decide, by decide, List.Perm.nil⟩

/-- The pid of a free entry is no process. -/
theorem StateSys.Inv.pid_ne_zero (h : s.Inv) (hp : s.alive p = true) : p ≠ 0 := by
  rintro rfl
  rw [h.zero] at hp
  cases hp

/-- At most one live entry has the pid. -/
theorem countP_pid_le {alive : Nat → Bool} {sa : List SmState} (hp : alive p = true)
    (hnd : ((sa.filter (liveEntry alive)).map SmState.pid).Nodup) :
    sa.countP (fun e => e.pid == p) ≤ 1 := by
  have hle := List.nodup_iff_count_le_one.mp hnd p
  rw [List.count, List.countP_map, List.countP_filter] at hle
  refine (List.countP_mono_left fun e _ he => ?_).trans hle
  have he : e.pid = p := by simpa using he
  simp [he, liveEntry, hp]

theorem StateSys.Inv.good (h : s.Inv) : s.Good := by
  refine ⟨fun p hp => countP_pid_le hp h.nodup, fun r hr => ?_, fun p hp => ?_⟩
  · obtain ⟨e, he, her⟩ := List.mem_map.mp (h.reg.mem_iff.mpr hr)
    exact ⟨e, (List.mem_filter.mp he).1, her⟩
  · rw [Bool.eq_iff_iff, lookup_isSome]
    exact ⟨mem_of_defined, defined_of_mem h.packed (h.pid_ne_zero hp)⟩

/-- A good array whose entries in use are all live has no hole. -/
theorem StateSys.Good.packed (h : s.Good)
    (hlive : ∀ e ∈ s.sa, usedEntry e = true → liveEntry s.alive e = true) :
    Packed usedEntry s.sa := by
  refine packed_of_defined (List.nodup_iff_count_le_one.mpr fun p => ?_) fun e he hu => ?_
  · by_cases hmem : p ∈ (s.sa.filter usedEntry).map SmState.pid
    · obtain ⟨e, he, rfl⟩ := List.mem_map.mp hmem
      obtain ⟨he, hu⟩ := List.mem_filter.mp he
      rw [List.count, List.countP_map]
      exact (List.filter_sublist.countP_le).trans (h.one _ (hlive e he hu))
    · rw [List.count_eq_zero_of_not_mem hmem]
      exact Nat.zero_le 1
  · rw [h.defined _ (hlive e he hu), lookup_isSome]
    exact ⟨e, he, rfl⟩

/-- A registered process is live and has an entry. -/
theorem StateSys.Inv.mem_of_reg (h : s.Inv) {r : Reg} (hr : r ∈ s.reg) :
    ∃ e ∈ s.sa, liveEntry s.alive e = true ∧ e.reg = r := by
  obtain ⟨e, he, her⟩ := List.mem_map.mp (h.reg.mem_iff.mpr hr)
  obtain ⟨he, hl⟩ := List.mem_filter.mp he
  exact ⟨e, he, hl, her⟩

/-- A live process with an entry is registered. -/
theorem StateSys.Inv.reg_of_mem (h : s.Inv) {e : SmState} (he : e ∈ s.sa)
    (hl : liveEntry s.alive e = true) : e.reg ∈ s.reg :=
  h.reg.mem_iff.mp (List.mem_map_of_mem (List.mem_filter.mpr ⟨he, hl⟩))

end Basic

/-! ## Cleaning -/

section Clean

variable {s : StateSys} {alive : Nat → Bool} {l : List SmState}

/-- After cleaning, the entries in use are the live ones. -/
theorem used_iff_live (h0 : alive 0 = false) {e : SmState} (he : e ∈ l.map (wipe alive)) :
    usedEntry e = liveEntry alive e := by
  obtain ⟨x, -, rfl⟩ := List.mem_map.mp he
  exact used_wipe h0 x

theorem packed_wipe (h0 : alive 0 = false) :
    Packed usedEntry (l.map (wipe alive)) ↔ Packed (liveEntry alive) l := by
  refine packed_congr ?_
  rw [List.map_map]
  exact List.map_congr_left fun e _ => (used_wipe h0 e).trans (live_wipe h0 e)

/-- Cleaning keeps the invariant exactly if it leaves no hole. -/
theorem StateSys.Inv.clean (h : s.Inv) (hpk : Packed (liveEntry s.alive) s.sa) :
    ({ s with sa := s.sa.map (wipe s.alive) } : StateSys).Inv := by
  refine ⟨by simp [h.len], h.zero, (packed_wipe h.zero).mpr hpk, ?_, ?_⟩
  · simpa only [filter_wipe h.zero] using h.nodup
  · simpa only [filter_wipe h.zero] using h.reg

theorem StateSys.Inv.clean_bad (h : s.Inv) (hpk : ¬ Packed (liveEntry s.alive) s.sa)
    (reg : List Reg) : ¬ (⟨s.sa.map (wipe s.alive), s.alive, reg⟩ : StateSys).Good := by
  intro hg
  exact hpk ((packed_wipe h.zero).mp (hg.packed fun e he hu => by
    rwa [used_iff_live h.zero he] at hu))

end Clean

/-! ## Adding a process -/

section Add

variable {s : StateSys} {p : Nat} {atime : Rat} {addr : Nat} {attached : Bool}

/-- The entry that `smStateAdd` writes over an empty one. -/
def addEntry (p : Nat) (atime : Rat) (addr : Nat) (attached : Bool) (s : SmState) : SmState :=
  { s with
    pid := p
    atime := if attached then atime else 0
    ltime := atime
    utime := 0
    addr := addr
    attached := if attached then 1 else 0 }

theorem smStateAdd_defined (hpk : Packed usedEntry s.sa)
    (hd : smStateDefined (s.sa.map (wipe s.alive)) p = true) :
    smStateAdd s.alive s.sa p atime addr attached = s.sa.map (wipe s.alive) := by
  simp only [smStateAdd, clean_eq_map hpk, hd, if_true]

theorem mem_of_defined_wipe (h : s.Inv) (hp : s.alive p = true)
    (hd : smStateDefined (s.sa.map (wipe s.alive)) p = true) : ∃ e ∈ s.sa, e.pid = p := by
  obtain ⟨e, he, hep⟩ := mem_of_defined hd
  obtain ⟨x, hx, rfl⟩ := List.mem_map.mp he
  have hl : liveEntry s.alive x = true := by
    rw [← live_wipe h.zero, liveEntry, hep, hp]
  rw [wipe_live hl] at hep
  exact ⟨x, hx, hep⟩

/-- The first empty entry after cleaning is the first entry that is not live. -/
theorem find_empty (h : s.Inv) :
    (s.sa.map (wipe s.alive)).findIdx? (fun e => e.pid == 0) =
      (s.sa.map (wipe s.alive)).findIdx? fun e => !liveEntry s.alive e := by
  rw [List.findIdx?_map, List.findIdx?_map]
  congr 1
  funext e
  have := used_wipe h.zero e
  simp only [Function.comp_apply, ← this, usedEntry, bne, Bool.not_not]

/-- A new process goes to the first entry that is not live, if there is one. -/
theorem smStateAdd_new (h : s.Inv) (hd : smStateDefined (s.sa.map (wipe s.alive)) p = false)
    (atime : Rat) (addr : Nat) (attached : Bool) :
    ((∀ e ∈ s.sa, liveEntry s.alive e = true) ∧
      smStateAdd s.alive s.sa p atime addr attached = s.sa.map (wipe s.alive)) ∨
    ∃ k e, (s.sa.map (wipe s.alive)).findIdx? (fun e => !liveEntry s.alive e) = some k ∧
      smStateAdd s.alive s.sa p atime addr attached =
        (s.sa.map (wipe s.alive)).set k (addEntry p atime addr attached e) := by
  simp only [smStateAdd, clean_eq_map h.packed, hd, find_empty h, Bool.false_eq_true, if_false]
  cases hk : (s.sa.map (wipe s.alive)).findIdx? fun e => !liveEntry s.alive e with
  | none =>
    refine .inl ⟨fun e he => ?_, rfl⟩
    have := List.findIdx?_eq_none_iff.mp hk _ (List.mem_map_of_mem he)
    simpa [live_wipe h.zero] using this
  | some k =>
    obtain ⟨hlt, -⟩ := List.findIdx?_eq_some_iff_getElem.mp hk
    exact .inr ⟨k, _, rfl, List.modify_eq_set_get _ hlt⟩

/-- The array after a new process took the place of the first entry that is not live. -/
theorem packed_add (h : s.Inv) (hp : s.alive p = true) {k : Nat} {x : SmState} (hx : x.pid = p)
    (hk : (s.sa.map (wipe s.alive)).findIdx? (fun e => !liveEntry s.alive e) = some k) :
    (∀ e ∈ (s.sa.map (wipe s.alive)).set k x, usedEntry e = liveEntry s.alive e) ∧
    (Packed usedEntry ((s.sa.map (wipe s.alive)).set k x) ↔
      Packed (liveEntry s.alive) (s.sa.eraseP fun e => !liveEntry s.alive e)) := by
  have hxl : liveEntry s.alive x = true := by rw [liveEntry, hx, hp]
  have hused : ∀ e ∈ (s.sa.map (wipe s.alive)).set k x, usedEntry e = liveEntry s.alive e := by
    intro e he
    obtain he | rfl := List.mem_or_eq_of_mem_set he
    · exact used_iff_live h.zero he
    · rw [hxl, usedEntry, hx]
      simpa using h.pid_ne_zero hp
  refine ⟨hused, ?_⟩
  rw [packed_congr (List.map_congr_left hused), packed_set_first hxl hk, List.eraseP_map]
  have hcomp : ((fun e => !liveEntry s.alive e) ∘ wipe s.alive) = fun e => !liveEntry s.alive e :=
    funext fun e => by rw [Function.comp_apply, live_wipe h.zero]
  rw [hcomp]
  refine packed_congr ?_
  rw [List.map_map]
  exact List.map_congr_left fun e _ => live_wipe h.zero e

theorem StateSys.Inv.add (h : s.Inv) (hp : s.alive p = true)
    (hok : (StateOp.add p atime addr attached).Ok s) :
    ({ s with sa := smStateAdd s.alive s.sa p atime addr attached, reg := regAdd s.reg p atime } :
      StateSys).Inv := by
  have hok := hok hp
  by_cases hmem : ∃ e ∈ s.sa, e.pid = p
  · rw [if_pos hmem] at hok
    obtain ⟨e, he, hep⟩ := hmem
    have hl : liveEntry s.alive e = true := by rw [liveEntry, hep, hp]
    have hd : smStateDefined (s.sa.map (wipe s.alive)) p = true :=
      defined_of_mem ((packed_wipe h.zero).mpr hok) (h.pid_ne_zero hp)
        ⟨e, by rw [← wipe_live hl]; exact List.mem_map_of_mem he, hep⟩
    have hreg : regAdd s.reg p atime = s.reg :=
      if_pos (.inl ⟨e.reg, h.reg_of_mem he hl, hep⟩)
    rw [smStateAdd_defined h.packed hd, hreg]
    exact h.clean hok
  · rw [if_neg hmem] at hok
    have hd : smStateDefined (s.sa.map (wipe s.alive)) p = false :=
      Bool.eq_false_iff.mpr fun hd => hmem (mem_of_defined_wipe h hp hd)
    have hnot : ¬ ∃ r ∈ s.reg, r.pid = p := by
      rintro ⟨r, hr, hrp⟩
      obtain ⟨e, he, -, rfl⟩ := h.mem_of_reg hr
      exact hmem ⟨e, he, hrp⟩
    have hlen : s.reg.length = (s.sa.filter (liveEntry s.alive)).length := by
      rw [← h.reg.length_eq, List.length_map]
    obtain ⟨hall, heq⟩ | ⟨k, e, hk, heq⟩ := smStateAdd_new h hd atime addr attached
    · have hfull : maxProcs ≤ s.reg.length := by
        rw [hlen, List.filter_eq_self.mpr hall, h.len]
      rw [heq, regAdd, if_pos (.inr hfull)]
      exact h.clean (packed_of_forall hall)
    · obtain ⟨hused, hpk⟩ := packed_add (x := addEntry p atime addr attached e) h hp rfl hk
      have hxl : liveEntry s.alive (addEntry p atime addr attached e) = true := hp
      have hperm := filter_set_first hxl hk
      rw [filter_wipe h.zero] at hperm
      have hroom : ¬ ((∃ r ∈ s.reg, r.pid = p) ∨ maxProcs ≤ s.reg.length) := by
        rintro (hr | hfull)
        · exact hnot hr
        · obtain ⟨hlt, hno, -⟩ := List.findIdx?_eq_some_iff_getElem.mp hk
          have hle : (s.sa.filter (liveEntry s.alive)).length < s.sa.length := by
            rw [List.length_filter_lt_length_iff_exists]
            rw [List.length_map] at hlt
            refine ⟨s.sa[k], List.getElem_mem hlt, ?_⟩
            rw [List.getElem_map, live_wipe h.zero] at hno
            simpa using hno
          rw [h.len] at hle
          omega
      rw [heq, regAdd, if_neg hroom]
      refine ⟨by simp [h.len], h.zero, hpk.mpr hok, ?_, ?_⟩
      · rw [(hperm.map SmState.pid).nodup_iff, List.map_cons, List.nodup_cons]
        refine ⟨fun hin => ?_, h.nodup⟩
        obtain ⟨x, hx, hxp⟩ := List.mem_map.mp hin
        exact hmem ⟨x, (List.mem_filter.mp hx).1, hxp⟩
      · refine (hperm.map SmState.reg).trans ?_
        rw [List.map_cons]
        exact (h.reg.cons _).trans (List.perm_append_singleton _ _).symm

/-- Otherwise a live entry is left behind a hole, or the process has two entries. -/
theorem StateSys.Inv.add_bad (h : s.Inv) (hp : s.alive p = true)
    (hok : ¬ (StateOp.add p atime addr attached).Ok s) (reg : List Reg) :
    ¬ ({ s with sa := smStateAdd s.alive s.sa p atime addr attached, reg := reg } :
      StateSys).Good := by
  simp only [StateOp.Ok, hp, true_imp_iff] at hok
  cases hd : smStateDefined (s.sa.map (wipe s.alive)) p with
  | true =>
    rw [if_pos (mem_of_defined_wipe h hp hd)] at hok
    rw [smStateAdd_defined h.packed hd]
    exact h.clean_bad hok reg
  | false =>
    obtain ⟨hall, heq⟩ | ⟨k, e, hk, heq⟩ := smStateAdd_new h hd atime addr attached
    · refine absurd ?_ hok
      split
      · exact packed_of_forall hall
      · exact packed_of_forall fun a ha => hall a (List.mem_of_mem_eraseP ha)
    · obtain ⟨hused, hpk⟩ := packed_add (x := addEntry p atime addr attached e) h hp rfl hk
      rw [heq]
      intro hg
      by_cases hmem : ∃ e ∈ s.sa, e.pid = p
      · obtain ⟨y, hy, hyp⟩ := hmem
        have hperm := filter_set_first (f := liveEntry s.alive)
          (a := addEntry p atime addr attached e) hp hk
        rw [filter_wipe h.zero] at hperm
        have hle : (((s.sa.map (wipe s.alive)).set k (addEntry p atime addr attached e)).filter
            (liveEntry s.alive)).countP (fun e => e.pid == p) ≤ 1 :=
          (List.filter_sublist.countP_le).trans (hg.one p hp)
        rw [hperm.countP_eq, List.countP_cons_of_pos (by simp [addEntry])] at hle
        have hpos : 0 < (s.sa.filter (liveEntry s.alive)).countP (fun e => e.pid == p) :=
          List.countP_pos_iff.mpr ⟨y, List.mem_filter.mpr ⟨hy, by rw [liveEntry, hyp, hp]⟩,
            by simpa using hyp⟩
        omega
      · rw [if_neg hmem] at hok
        exact hok (hpk.mp (hg.packed fun e he hu => by rwa [hused e he] at hu))

end Add

/-! ## Removing a process -/

section Remove

variable {s : StateSys} {q k : Nat}

/-- The array after the entry at `k` is removed: the last entry stays in place. -/
theorem remove_eq (h : s.Inv) (hk : k < s.sa.length) :
    ∃ last, smStateShift ((smStateClean s.alive s.sa).set k {}) k =
        (s.sa.eraseIdx k).map (wipe s.alive) ++ [last] ∧
      usedEntry last = liveEntry s.alive last ∧
      (k = maxProcs - 1 → liveEntry s.alive last = false) ∧
      (k ≠ maxProcs - 1 → ∀ e ∈ s.sa[maxProcs - 1]?, last = wipe s.alive e) := by
  have hz : liveEntry s.alive {} = false := h.zero
  rw [clean_eq_map h.packed]
  obtain ⟨cl, hc⟩ : ∃ cl, cl = (s.sa.map (wipe s.alive)).set k {} := ⟨_, rfl⟩
  have hclen : cl.length = maxProcs := by rw [hc, List.length_set, List.length_map, h.len]
  have hlt : maxProcs - 1 < cl.length := by rw [hclen]; decide
  have hshift : smStateShift cl k = cl.eraseIdx k ++ [cl[maxProcs - 1]] := by
    rw [shift_eq cl k (by rw [hclen, ← h.len]; exact hk)]
    simp only [hclen]
  rw [← hc]
  refine ⟨cl[maxProcs - 1], ?_, ?_, fun hkl => ?_, fun hkl e he => ?_⟩
  · have hcerase : cl.eraseIdx k = (s.sa.eraseIdx k).map (wipe s.alive) := by
      rw [hc, List.eraseIdx_set_eq, List.eraseIdx_map]
    rw [hshift, hcerase]
  · have hmem : ∀ e ∈ cl, usedEntry e = liveEntry s.alive e := by
      intro e he
      rw [hc] at he
      obtain he | rfl := List.mem_or_eq_of_mem_set he
      · exact used_iff_live h.zero he
      · exact hz.symm
    exact hmem _ (List.getElem_mem hlt)
  · simp only [hc, ← hkl, List.getElem_set_self]
    exact hz
  · simp only [hc, List.getElem_set_of_ne hkl, List.getElem_map]
    rw [List.getElem?_eq_getElem (by rw [h.len]; decide), Option.mem_def, Option.some.injEq] at he
    rw [he]

theorem StateSys.Inv.remove (h : s.Inv) (hk : smStateLookupByPid s.sa q = some k)
    (hpk : Packed (liveEntry s.alive) (s.sa.eraseIdx k))
    (hlast : k = maxProcs - 1 ∨ ∀ e ∈ s.sa[maxProcs - 1]?, liveEntry s.alive e = false) :
    ({ s with sa := smStateShift ((smStateClean s.alive s.sa).set k {}) k,
              reg := regDrop s.reg q } : StateSys).Inv := by
  obtain ⟨hlt, -⟩ := List.findIdx?_eq_some_iff_getElem.mp hk
  obtain ⟨last, heq, hused, hl₁, hl₂⟩ := remove_eq h hlt
  have hend : maxProcs - 1 < s.sa.length := by rw [h.len]; decide
  have hdead : liveEntry s.alive last = false := by
    by_cases hkl : k = maxProcs - 1
    · exact hl₁ hkl
    · have hmem : s.sa[maxProcs - 1]? = some s.sa[maxProcs - 1] :=
        List.getElem?_eq_getElem hend
      rw [hl₂ hkl _ hmem, live_wipe h.zero]
      exact hlast.resolve_left hkl _ hmem
  have hfilter : ((s.sa.eraseIdx k).map (wipe s.alive) ++ [last]).filter (liveEntry s.alive) =
      (s.sa.filter (liveEntry s.alive)).filter fun e => e.pid != q := by
    rw [List.filter_append, filter_wipe h.zero, filter_eraseIdx_lookup h.nodup hk,
      List.filter_cons_of_neg (by simp [hdead]), List.filter_nil, List.append_nil]
  rw [heq]
  refine ⟨?_, h.zero, ?_, ?_, ?_⟩
  · have := h.len
    rw [List.length_append, List.length_map, List.length_eraseIdx_of_lt hlt, List.length_singleton]
    omega
  · rw [packed_append_false (hused.trans hdead)]
    exact (packed_wipe h.zero).mpr hpk
  · simp only [hfilter]
    exact h.nodup.sublist (List.filter_sublist.map _)
  · simp only [hfilter, regDrop]
    have := h.reg.filter fun r => r.pid != q
    rwa [List.filter_map] at this

/-- Otherwise the last entry has a second copy, or a live entry is left behind a hole. -/
theorem StateSys.Inv.remove_bad (h : s.Inv) (hk : smStateLookupByPid s.sa q = some k)
    (hok : ¬ (Packed (liveEntry s.alive) (s.sa.eraseIdx k) ∧
      (k = maxProcs - 1 ∨ ∀ e ∈ s.sa[maxProcs - 1]?, liveEntry s.alive e = false)))
    (reg : List Reg) :
    ¬ ({ s with sa := smStateShift ((smStateClean s.alive s.sa).set k {}) k, reg := reg } :
      StateSys).Good := by
  obtain ⟨hlt, -⟩ := List.findIdx?_eq_some_iff_getElem.mp hk
  obtain ⟨last, heq, hused, hl₁, hl₂⟩ := remove_eq h hlt
  rw [heq]
  intro hg
  cases hl : liveEntry s.alive last with
  | false =>
    refine hok ⟨?_, ?_⟩
    · rw [← packed_wipe h.zero, ← packed_append_false (hused.trans hl)]
      refine hg.packed fun e he hu => ?_
      obtain he | he := List.mem_append.mp he
      · rwa [used_iff_live h.zero he] at hu
      · rw [List.mem_singleton.mp he, hused, hl] at hu
        cases hu
    · by_cases hkl : k = maxProcs - 1
      · exact .inl hkl
      · exact .inr fun e he => by rw [← live_wipe h.zero, ← hl₂ hkl e he, hl]
  | true =>
    -- the last entry has moved down by one and is still at the end
    have hkl : k ≠ maxProcs - 1 := fun hkl => by
      rw [hl₁ hkl] at hl
      cases hl
    have hlast : maxProcs - 1 < s.sa.length := by rw [h.len]; decide
    have hmem : s.sa[maxProcs - 1]? = some s.sa[maxProcs - 1] := List.getElem?_eq_getElem hlast
    have hw := hl₂ hkl _ hmem
    have hin : last ∈ (s.sa.eraseIdx k).map (wipe s.alive) := by
      rw [hw]
      refine List.mem_map_of_mem (List.mem_eraseIdx_iff_getElem.mpr ?_)
      exact ⟨maxProcs - 1, hlast, fun hc => hkl hc.symm, rfl⟩
    have hle := hg.one last.pid hl
    rw [List.countP_append, List.countP_singleton, beq_self_eq_true, if_pos rfl] at hle
    have hpos : 0 < ((s.sa.eraseIdx k).map (wipe s.alive)).countP fun e => e.pid == last.pid :=
      List.countP_pos_iff.mpr ⟨last, hin, by simp⟩
    omega

end Remove

/-! ## Setting a member, and the death of a process -/

section Set

variable {s : StateSys} {p : Nat}

theorem SetCall.write_reg (c : SetCall) (e : SmState) : (c.write e).reg = c.writeReg e.reg := by
  cases c <;> rfl

theorem StateSys.Inv.set (h : s.Inv) (hp : s.alive p = true) (c : SetCall) :
    ({ s with sa := smStateSet s.sa p c.write, reg := regSet s.reg p c } : StateSys).Inv := by
  have hpids : (smStateSet s.sa p c.write).map SmState.pid = s.sa.map SmState.pid :=
    pids_set c.write c.write_pid
  have hfilter := filter_set c.write c.write_pid hp h.nodup
  refine ⟨?_, h.zero, ?_, ?_, ?_⟩
  · have := congrArg List.length hpids
    rw [List.length_map, List.length_map, h.len] at this
    exact this
  · refine (packed_congr ?_).mpr h.packed
    have := congrArg (List.map fun pid => pid != 0) hpids
    rwa [List.map_map, List.map_map] at this
  · simp only [hfilter, List.map_map]
    refine (List.map_congr_left fun e _ => ?_) ▸ h.nodup
    simp only [Function.comp_apply]
    split
    · rw [c.write_pid]
    · rfl
  · simp only [hfilter, List.map_map, regSet]
    have hmap := h.reg.map fun r => if r.pid = p then c.writeReg r else r
    rw [List.map_map] at hmap
    refine (List.map_congr_left fun e _ => ?_) ▸ hmap
    show (if e.pid = p then c.writeReg e.reg else e.reg) = (if e.pid = p then c.write e else e).reg
    split
    · exact (c.write_reg e).symm
    · rfl

theorem StateSys.Inv.die (h : s.Inv) (p : Nat) :
    (⟨s.sa, Function.update s.alive p false, regDrop s.reg p⟩ : StateSys).Inv := by
  have hfilter : s.sa.filter (liveEntry (Function.update s.alive p false)) =
      (s.sa.filter (liveEntry s.alive)).filter fun e => e.pid != p := by
    rw [List.filter_filter]
    refine List.filter_congr fun e _ => ?_
    by_cases he : e.pid = p
    · simp [liveEntry, he]
    · simp [liveEntry, he]
  refine ⟨h.len, ?_, h.packed, ?_, ?_⟩
  · by_cases hp : p = 0
    · simp [hp]
    · simp [Function.update_of_ne (Ne.symm hp), h.zero]
  · simp only [hfilter]
    exact h.nodup.sublist (List.filter_sublist.map _)
  · simp only [hfilter, regDrop]
    have := h.reg.filter fun r => r.pid != p
    rwa [List.filter_map] at this

end Set

/-! ## Runs -/

/-- `smStateRemove` for a pid without an entry does nothing. -/
theorem StateSys.Inv.remove_none {s : StateSys} {q : Nat} (h : s.Inv)
    (hk : smStateLookupByPid s.sa q = none) : regDrop s.reg q = s.reg := by
  refine List.filter_eq_self.mpr fun r hr => ?_
  obtain ⟨e, he, -, rfl⟩ := h.mem_of_reg hr
  have := List.findIdx?_eq_none_iff.mp hk e he
  simpa [SmState.reg] using this

theorem StateSys.Inv.step_ok {s : StateSys} (h : s.Inv) {op : StateOp} (hok : op.Ok s) :
    ∃ t, s.step op = some t ∧ t.Inv := by
  cases op with
  | add p atime addr attached =>
    by_cases hp : s.alive p = true
    · exact ⟨_, if_pos hp, h.add hp hok⟩
    · exact ⟨s, if_neg hp, h⟩
  | remove p rmpid =>
    by_cases hp : s.alive p = true
    · refine ⟨_, if_pos hp, ?_⟩
      unfold smStateRemove
      split
      · rename_i hk
        rw [h.remove_none hk]
        exact h
      · rename_i k hk
        obtain ⟨hpk, hlast⟩ := hok hp k hk
        exact h.remove hk hpk hlast
    · exact ⟨s, if_neg hp, h⟩
  | clean => exact ⟨_, rfl, by rw [clean_eq_map h.packed]; exact h.clean hok⟩
  | set p c =>
    by_cases hp : s.alive p = true
    · exact ⟨_, if_pos hp, h.set hp c⟩
    · exact ⟨s, if_neg hp, h⟩
  | die p => exact ⟨_, rfl, h.die p⟩

theorem StateSys.Inv.step_bad {s t : StateSys} (h : s.Inv) {op : StateOp} (hok : ¬ op.Ok s)
    (hst : s.step op = some t) : ¬ t.Good := by
  cases op with
  | add p atime addr attached =>
    have hp : s.alive p = true := by
      by_contra hp
      exact hok fun hp' => absurd hp' hp
    rw [StateSys.step, if_pos hp, Option.some.injEq] at hst
    subst hst
    exact h.add_bad hp hok _
  | remove p rmpid =>
    have hp : s.alive p = true := by
      by_contra hp
      exact hok fun hp' => absurd hp' hp
    rw [StateSys.step, if_pos hp, Option.some.injEq] at hst
    subst hst
    simp only [StateOp.Ok, hp, true_imp_iff, not_forall] at hok
    obtain ⟨k, hk, hno⟩ := hok
    simp only [smStateRemove, hk]
    exact h.remove_bad hk hno _
  | clean =>
    rw [StateSys.step, Option.some.injEq] at hst
    subst hst
    rw [clean_eq_map h.packed]
    exact h.clean_bad hok _
  | set p c => exact absurd trivial hok
  | die p => exact absurd trivial hok

/-- The array gives its processes what it owes them along a run exactly if every call of the run
meets the condition. -/
theorem stateSys_good_iff (ops : List StateOp) :
    Always StateSys.Good StateSys.step StateSys.start ops ↔
      Steps (fun s op => op.Ok s) StateSys.step StateSys.start ops :=
  always_iff_steps (fun _ h => h.good) (fun _ _ h hok => h.step_ok hok)
    (fun _ _ _ h hok hst => h.step_bad hok hst) StateSys.Inv.start

/-- Process 1 dies before process 2, which registered after it, calls `smStateAdd` again: process 2
gets a second entry, in front of its first. -/
theorem stateSys_second_entry :
    ¬ Always StateSys.Good StateSys.step StateSys.start
      [.add 1 10 0 true, .add 2 11 0 true, .die 1, .add 2 12 0 true] := by
  intro h
  obtain ⟨s, hs, hg⟩ := h.last
  have hrun : (run StateSys.step StateSys.start
      [.add 1 10 0 true, .add 2 11 0 true, .die 1, .add 2 12 0 true]).map
        (fun s => (s.alive 2, s.sa.countP fun e => e.pid == 2)) = some (true, 2) := by decide +kernel
  rw [hs] at hrun
  obtain ⟨hl, hc⟩ := Prod.mk.inj (Option.some.inj hrun)
  have := hg.one 2 hl
  omega

end Ndhs
