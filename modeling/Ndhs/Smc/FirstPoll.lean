import Ndhs.Smc.NextPage

/-!
# The pages that a new reader is given (`lib/smc/smCache.c`)

A process that has never asked for pages calls `smcNextPage` until it returns `NULL`. While it does, every page is
either new to it, with a `utime` of zero, or it has been returned and its `utime` is a time of the clock after its
`ltime`. So the first of the two keys of the search decides alone.

* `nextLoop_min`: `smcNextPage` finds a page that is new with the least `ltime`.
* `first_poll`: the pages come in the order of their `ltime`, each of them once, and then `NULL`.
-/

namespace Ndhs

open Function Loop

/-- The pages that `smcNextPage` may return -/
instance (smc : SmCache) (i : Nat) : Decidable (smc.Open i) := by
  unfold SmCache.Open
  infer_instance

def SmCache.openPages (smc : SmCache) : Finset Nat := (Finset.range smc.top.toNat).filter smc.Open

/-- The `ltime` of the process for a page: that of its entry, or the one that its entry will get. -/
def ltimeOf (smc : SmCache) (r : Nat) (ps : PState) (i : Nat) : Rat :=
  if smStateDefined (ps i) r then smStateGetLTime (ps i) r else (smc.pdata i).ctime

/-- The process has never been given one of the pages, each of which has an entry or room for it, and the times in
the table are not after `t`. -/
structure NeverChecked (smc : SmCache) (alive : Nat → Bool) (r : Nat) (ps : PState) (t : Rat) : Prop where
  fits : ∀ i ∈ smc.openPages, Fits alive (ps i) r
  unchecked : ∀ i ∈ smc.openPages, smStateDefined (ps i) r = true → smStateGetUTime (ps i) r = 0
  past : ∀ i ∈ smc.openPages, ltimeOf smc r ps i ≤ t

section FirstPoll

variable {smc : SmCache} {alive : Nat → Bool} {r : Nat} {ps : PState} {key : Nat → Rat} {new : Finset Nat} {i k : Nat}
  {t now : Rat}

theorem mem_openPages : i ∈ smc.openPages ↔ i < smc.top.toNat ∧ smc.Open i := by
  rw [SmCache.openPages, Finset.mem_filter, Finset.mem_range]

/-- The entry of a page that is new to the process -/
structure IsNew (sa : List SmState) (r : Nat) (ltime : Rat) : Prop where
  defined : smStateDefined sa r = true
  utime : smStateGetUTime sa r = 0
  ltime : smStateGetLTime sa r = ltime

/-- The entry of a page that has been returned -/
structure IsGiven (sa : List SmState) (r : Nat) : Prop where
  defined : smStateDefined sa r = true
  not_due : ¬ Due sa r

/-- What the registration makes of the entries: the pages of `new` are new with the `ltime` of `key`, the other open
pages have been returned. -/
structure Split (smc : SmCache) (alive : Nat → Bool) (r : Nat) (ps : PState) (key : Nat → Rat) (new : Finset Nat) :
    Prop where
  sub : new ⊆ smc.openPages
  isNew : ∀ i ∈ new, IsNew (register smc alive r ps i i) r (key i)
  isGiven : ∀ i ∈ smc.openPages, i ∉ new → IsGiven (register smc alive r ps i i) r

/-- `oldest` is a page with the least `ltime` of the new pages seen so far. -/
def Least (key : Nat → Rat) (new : Finset Nat) (n : Nat) : Option Nat → Prop
  | none => ∀ j < n, j ∉ new
  | some k => k < n ∧ k ∈ new ∧ ∀ j < n, j ∈ new → key k ≤ key j

/-- One round, for a page that is new -/
theorem nextRound_new {ps' : PState} {o : Option Nat} (hi : smc.Open i)
    (hnew : IsNew (register smc alive r ps' i i) r (key i)) :
    (nextRound smc alive r (ps', o) i).2 =
      some (if key i < smStateGetLTime (register smc alive r ps' i (o.getD i)) r then i else o.getD i) := by
  have hopen : ¬ ((smc.pdata i).memKey = 0 ∨ (smc.pdata i).acLocked = true) := by
    rintro (h | h)
    · exact hi.1 h
    · rw [hi.2] at h
      cases h
  simp only [nextRound, if_neg hopen, if_pos hnew.utime, hnew.ltime]

/-- One round, for a page that may not be returned or has been -/
theorem nextRound_skip {ps' : PState} {o : Option Nat} (h : ¬ (smc.Open i ∧ Due (register smc alive r ps' i i) r)) :
    (nextRound smc alive r (ps', o) i).2 = o := by
  obtain ⟨hop, hdue, -⟩ | ⟨-, hn⟩ := nextRound_oldest smc alive r (ps', o) i
  · exact absurd ⟨hop, hdue⟩ h
  · exact hn

theorem nextLoop_min (hs : Split smc alive r ps key new) {n : Nat} (hn : n ≤ smc.top.toNat) :
    Least key new n ((List.range n).foldl (nextRound smc alive r) (ps, none)).2 := by
  induction n with
  | zero =>
    intro j hj
    cases hj
  | succ n ih =>
    have ih := ih (by omega)
    have hps := (nextLoop_spec smc alive r ps n).1
    rw [List.range_succ, List.foldl_append, List.foldl_cons, List.foldl_nil]
    generalize (List.range n).foldl (nextRound smc alive r) (ps, none) = s at ih hps ⊢
    obtain ⟨ps', o⟩ := s
    dsimp only at ih hps
    have hreg : register smc alive r ps' n n = register smc alive r ps n n :=
      register_congr (by rw [hps]; exact if_neg (Nat.lt_irrefl n))
    by_cases hnew : n ∈ new
    · have hopen := (mem_openPages.mp (hs.sub hnew)).2
      rw [nextRound_new hopen (hreg ▸ hs.isNew n hnew)]
      cases o with
      | none =>
        rw [Option.getD_none, hreg, (hs.isNew n hnew).ltime, if_neg (lt_irrefl _)]
        refine ⟨Nat.lt_succ_self n, hnew, fun j hj hjn => ?_⟩
        obtain rfl : j = n := by
          by_contra hne
          exact ih j (by omega) hjn
        exact le_refl _
      | some k =>
        obtain ⟨hk, hkn, hmin⟩ := ih
        have hkey : smStateGetLTime (register smc alive r ps' n k) r = key k := by
          have hold : ps' k = register smc alive r ps k k := by rw [hps]; exact if_pos hk
          rw [register_of_ne ps' (by omega), hold, (hs.isNew k hkn).ltime]
        rw [Option.getD_some, hkey]
        by_cases hlt : key n < key k
        · rw [if_pos hlt]
          refine ⟨Nat.lt_succ_self n, hnew, fun j hj hjn => ?_⟩
          rcases Nat.lt_succ_iff_lt_or_eq.mp hj with hj | rfl
          · exact hlt.le.trans (hmin j hj hjn)
          · exact le_refl _
        · rw [if_neg hlt]
          refine ⟨Nat.lt_succ_of_lt hk, hkn, fun j hj hjn => ?_⟩
          rcases Nat.lt_succ_iff_lt_or_eq.mp hj with hj | rfl
          · exact hmin j hj hjn
          · exact not_lt.mp hlt
    · have hskip : ¬ (smc.Open n ∧ Due (register smc alive r ps' n n) r) := by
        rintro ⟨hopen, hdue⟩
        rw [hreg] at hdue
        exact (hs.isGiven n (mem_openPages.mpr ⟨by omega, hopen⟩) hnew).not_due hdue
      rw [nextRound_skip hskip]
      cases o with
      | none =>
        intro j hj hjn
        rcases Nat.lt_succ_iff_lt_or_eq.mp hj with hj | rfl
        · exact ih j hj hjn
        · exact hnew hjn
      | some k =>
        obtain ⟨hk, hkn, hmin⟩ := ih
        refine ⟨Nat.lt_succ_of_lt hk, hkn, fun j hj hjn => ?_⟩
        rcases Nat.lt_succ_iff_lt_or_eq.mp hj with hj | rfl
        · exact hmin j hj hjn
        · exact absurd hjn hnew

/-- `smcNextPage` returns a new page with the least `ltime`, `NULL` if there is no new page. -/
theorem nextPage_min (hs : Split smc alive r ps key new) (now : Rat) :
    (new = ∅ ∧ (smcNextPage smc alive r ps now).2 = none) ∨
    ∃ k ∈ new, (∀ j ∈ new, key k ≤ key j) ∧
      smcNextPage smc alive r ps now = (afterNext smc alive r ps k now, some k) := by
  have hmin := nextLoop_min hs (Nat.le_refl _)
  have hps : ((List.range smc.top.toNat).foldl (nextRound smc alive r) (ps, none)).1 = registerAll smc alive r ps :=
    (nextLoop_spec smc alive r ps smc.top.toNat).1
  have hlt : ∀ j ∈ new, j < smc.top.toNat := fun j hj => (mem_openPages.mp (hs.sub hj)).1
  unfold smcNextPage
  dsimp only
  generalize (List.range smc.top.toNat).foldl (nextRound smc alive r) (ps, none) = s at hmin hps
  obtain ⟨ps', o⟩ := s
  dsimp only at hmin hps ⊢
  subst hps
  cases o with
  | none =>
    refine .inl ⟨Finset.eq_empty_of_forall_notMem fun j hj => ?_, rfl⟩
    exact hmin j (hlt j hj) hj
  | some k =>
    obtain ⟨hk, hkn, hle⟩ := hmin
    refine .inr ⟨k, hkn, fun j hj => hle j (hlt j hj) hj, ?_⟩
    rw [afterNext]
    dsimp only
    rw [registerAll, if_pos hk]

/-- An entry that is there is not entered again. -/
theorem register_of_defined {ps' : PState} (h : smStateDefined (ps' i) r = true) :
    register smc alive r ps' i i = ps' i := by
  rw [register_apply, if_pos h]

/-- The page that was returned is no longer new; the other pages are as they were. -/
theorem Split.next (hs : Split smc alive r ps key new) (hk : k ∈ new) (hpos : 0 < now) (hle : key k ≤ now) :
    Split smc alive r (afterNext smc alive r ps k now) key (new.erase k) where
  sub := (new.erase_subset k).trans hs.sub
  isNew i hi := by
    obtain ⟨hne, hi⟩ := Finset.mem_erase.mp hi
    have hsame : afterNext smc alive r ps k now i = register smc alive r ps i i :=
      afterNext_of_ne (mem_openPages.mp (hs.sub hi)).1 hne
    have hnew := hs.isNew i hi
    rw [register_of_defined (hsame ▸ hnew.defined), hsame]
    exact hnew
  isGiven i hi hn := by
    by_cases hik : i = k
    · subst hik
      have hnew := hs.isNew i hk
      have hd : smStateDefined (afterNext smc alive r ps i now i) r = true := by
        rw [afterNext, update_self, defined_set _ (SetCall.utime now).write_pid]
        exact hnew.defined
      rw [register_of_defined hd]
      refine ⟨hd, fun hdue => ?_⟩
      obtain ⟨e, he⟩ := entry_of_defined hnew.defined
      have hltime : e.ltime = key i := by
        rw [← hnew.ltime, smStateGetLTime, he]
        rfl
      have hentry := entry_afterNext smc alive r ps i now
      rw [he] at hentry
      rcases (due_of_entry hentry).mp hdue with hz | hlt
      · exact absurd hz (ne_of_gt hpos)
      · exact absurd hlt (not_lt.mpr (hltime ▸ hle))
    · have hgiven := hs.isGiven i hi fun h => hn (Finset.mem_erase.mpr ⟨hik, h⟩)
      have hsame : afterNext smc alive r ps k now i = register smc alive r ps i i :=
        afterNext_of_ne (mem_openPages.mp hi).1 hik
      rw [register_of_defined (hsame ▸ hgiven.defined), hsame]
      exact hgiven

/-- The new pages come in the order of their `ltime`, each of them once, and then `NULL`. -/
theorem drain_sorted (ts : List Rat) : ∀ (ps : PState) (new : Finset Nat) (t : Rat),
    Split smc alive r ps key new → (∀ i ∈ new, key i ≤ t) → 0 < t → (t :: ts).Pairwise (· ≤ ·) →
      new.card < ts.length →
      ∃ l, drain smc alive r ps ts = (l, true) ∧ l.Nodup ∧ (∀ i, i ∈ l ↔ i ∈ new) ∧
        l.Pairwise fun i j => key i ≤ key j := by
  induction ts with
  | nil =>
    intro ps new t _ _ _ _ hcard
    cases hcard
  | cons now ts ih =>
    intro ps new t hs hpast hpos hclock hcard
    obtain ⟨hfirst, hclock⟩ := List.pairwise_cons.mp hclock
    have hle : t ≤ now := hfirst now List.mem_cons_self
    rcases nextPage_min hs now with ⟨rfl, hnone⟩ | ⟨k, hk, hmin, hnext⟩
    · refine ⟨[], ?_, .nil, by simp, .nil⟩
      rcases hn : smcNextPage smc alive r ps now with ⟨ps', o⟩
      rw [hn] at hnone
      obtain rfl : o = none := hnone
      rw [drain, hn]
    · have hcard' : (new.erase k).card < ts.length := by
        rw [Finset.card_erase_of_mem hk]
        have hpos := Finset.card_pos.mpr ⟨k, hk⟩
        rw [List.length_cons] at hcard
        omega
      obtain ⟨l, hl, hnodup, hmem, hsort⟩ := ih _ (new.erase k) now
        (hs.next hk (hpos.trans_le hle) ((hpast k hk).trans hle))
        (fun i hi => (hpast i (Finset.mem_of_mem_erase hi)).trans hle) (hpos.trans_le hle) hclock hcard'
      refine ⟨k :: l, by simp only [drain, hnext, hl], ?_, fun i => ?_, ?_⟩
      · exact List.nodup_cons.mpr ⟨fun h => (Finset.mem_erase.mp ((hmem k).mp h)).1 rfl, hnodup⟩
      · rw [List.mem_cons, hmem, Finset.mem_erase]
        constructor
        · rintro (rfl | ⟨-, hi⟩)
          · exact hk
          · exact hi
        · intro hi
          by_cases hik : i = k
          · exact .inl hik
          · exact .inr ⟨hik, hi⟩
      · exact List.pairwise_cons.mpr
          ⟨fun j hj => hmin j (Finset.mem_of_mem_erase ((hmem j).mp hj)), hsort⟩

/-- Before the first call every open page is new. -/
theorem NeverChecked.split (h0 : r ≠ 0) (h : NeverChecked smc alive r ps t) :
    Split smc alive r ps (ltimeOf smc r ps) smc.openPages where
  sub := Finset.Subset.refl _
  isGiven i hi hn := absurd hi hn
  isNew i hi := by
    rw [register_apply]
    cases hd : smStateDefined (ps i) r with
    | true =>
      rw [if_pos rfl]
      exact ⟨hd, h.unchecked i hi hd, by rw [ltimeOf, if_pos hd]⟩
    | false =>
      rw [if_neg Bool.noConfusion]
      have hroom := (h.fits i hi).resolve_left (by rw [hd]; exact Bool.noConfusion)
      obtain ⟨hdef, e, he, hu, hl⟩ := entry_add (smc.pdata i).ctime i false hd h0 hroom
      refine ⟨hdef, ?_, ?_⟩
      · rw [smStateGetUTime, he]
        exact hu
      · rw [smStateGetLTime, he, ltimeOf, hd, if_neg Bool.noConfusion]
        exact hl

/-- A process that has never checked the pages is given every open page once, in the order of its `ltime`, and then
`NULL`. The clock, at the times `ts` of the calls, does not go back. -/
theorem first_poll (smc : SmCache) (alive : Nat → Bool) (r : Nat) (ps : PState) (t : Rat) (ts : List Rat)
    (h0 : r ≠ 0) (h : NeverChecked smc alive r ps t) (hpos : 0 < t) (hclock : (t :: ts).Pairwise (· ≤ ·))
    (hcalls : smc.openPages.card < ts.length) :
    ∃ l, drain smc alive r ps ts = (l, true) ∧ l.Nodup ∧
      (∀ i, i ∈ l ↔ i < smc.top.toNat ∧ smc.Open i) ∧
      l.Pairwise fun i j => ltimeOf smc r ps i ≤ ltimeOf smc r ps j := by
  obtain ⟨l, hl, hnodup, hmem, hsort⟩ := drain_sorted ts ps smc.openPages t (h.split h0) h.past hpos hclock hcalls
  exact ⟨l, hl, hnodup, fun i => (hmem i).trans mem_openPages, hsort⟩

end FirstPoll

/-- Two pages, the second one the older, and a locked one -/
def threePages : SmCache where
  pdata i := if i = 0 then { memKey := 17, ctime := 2 } else if i = 1 then { memKey := 18, ctime := 1 }
    else { memKey := 19, ctime := 1, acLocked := true }
  top := 3

theorem first_poll_two :
    ∃ l, drain threePages (fun _ => true) 100 (fun _ => [{}, {}]) [4, 5, 6] = (l, true) ∧ l.Nodup ∧
      (∀ i, i ∈ l ↔ i < 3 ∧ threePages.Open i) ∧
      l.Pairwise fun i j => ltimeOf threePages 100 (fun _ => [{}, {}]) i ≤ ltimeOf threePages 100 (fun _ => [{}, {}]) j := by
  have hnew : NeverChecked threePages (fun _ => true) 100 (fun _ => [{}, {}]) 3 := by
    refine ⟨fun i _ => .inr ⟨{}, by simp [smStateClean], rfl⟩, fun i _ hd => absurd hd (by decide), fun i _ => ?_⟩
    have hctime : (threePages.pdata i).ctime ≤ 3 := by
      unfold threePages
      dsimp only
      split
      · decide
      · split <;> decide
    exact hctime
  exact first_poll threePages (fun _ => true) 100 (fun _ => [{}, {}]) 3 [4, 5, 6] (by decide) hnew (by decide)
    (by decide) (by decide)

end Ndhs
