import Ndhs.Lib.Run
import Ndhs.Smc.FirstPoll

/-!
# The pages of an exposure (`lib/smc/smCache.c`)

`smcNextByExpID` is a search and an iterator in one. It keeps the id that it searched for last, the pages that it found
and the one that it returned last; a call with another id searches anew, a call with the same id returns the next page.
At the end of the list it forgets the id by setting it to zero. The list has room for 128 pages, and its end is the
first entry that is `NULL`.

A program loops over the pages of an exposure until it gets `NULL` (`smcmgr/smcRectify.c`).

* `IdList.rest`: the pages that the next calls with the same id return, if there is an end.
* `exposure_loop_iff`: from which states a loop returns the pages of the exposure, each of them once.
-/

namespace Ndhs

open Function Machine

/-- `MAX_ID_PAGES` -/
def maxIdPages : Nat := 128

/-- The statics of `smcNextByExpID`. A page is given by its slot. -/
structure IdList where
  listID : ExpID := 0
  npages : Nat := 0
  curPage : Nat := 0
  plist : Nat → Option Nat := fun _ => none

/-- One round of the search; `none` if it writes behind the list. -/
def searchRound (smc : SmCache) (expID : ExpID) (s : (Nat → Option Nat) × Nat) (i : Nat) :
    Option ((Nat → Option Nat) × Nat) :=
  if (smc.pdata i).memKey = 0 ∨ (smc.pdata i).acLocked = true then some s
  else if smcEqualExpID (smc.pdata i).expID expID then
    if s.2 < maxIdPages then some (update s.1 s.2 (some i), s.2 + 1) else none
  else some s

/-- A call with an id that is not negative; `none` if it leaves the list. -/
def IdList.next (smc : SmCache) (expID : ExpID) (s : IdList) : Option (IdList × Option Nat) :=
  if expID ≠ s.listID then
    ((List.range smc.top.toNat).foldlM (searchRound smc expID) (fun _ => none, 0)).map fun r =>
      (⟨expID, r.2, 0, r.1⟩, r.1 0)
  else if s.curPage + 1 < maxIdPages then
    match s.plist (s.curPage + 1) with
    | some page => some ({ s with curPage := s.curPage + 1 }, some page)
    | none => some ({ s with listID := 0 }, none)
  else none

/-- The process that asks, which processes are alive, and the time -/
structure Caller where
  pid : Nat
  alive : Nat → Bool
  now : Rat

/-- `smcNextByExpID`. A negative id asks for the next page of the cache. -/
def smcNextByExpID (c : Caller) (smc : SmCache) (expID : ExpID) (s : IdList) (ps : PState) :
    Option (IdList × PState × Option Nat) :=
  if expID < 0 then some (s, smcNextPage smc c.alive c.pid ps c.now)
  else (s.next smc expID).map fun r => (r.1, ps, r.2)

/-- `while ((page = smcNextByExpID (smc, expID)))`, for `n` calls at most: the pages, and the statics at the end -/
def idLoop (c : Caller) (smc : SmCache) (expID : ExpID) (ps : PState) : Nat → IdList → Option (List Nat × IdList)
  | 0, _ => none
  | n + 1, s =>
    match smcNextByExpID c smc expID s ps with
    | none => none
    | some (t, _, none) => some ([], t)
    | some (t, ps, some page) => (idLoop c smc expID ps n t).map fun r => (page :: r.1, r.2)

/-- The live unlocked pages whose id matches, by their slots -/
def SmCache.pagesOf (smc : SmCache) (expID : ExpID) (n : Nat) : List Nat :=
  (List.range n).filter fun i => decide (smc.Open i) && smcEqualExpID (smc.pdata i).expID expID

/-- The loop ends, and it returns each page of the exposure once. -/
def LoopOk (c : Caller) (smc : SmCache) (expID : ExpID) (ps : PState) (s : IdList) : Prop :=
  ∃ n pages t, idLoop c smc expID ps n s = some (pages, t) ∧ pages.Perm (smc.pagesOf expID smc.top.toNat)

/-- The entries from `i` on up to the first that is `NULL`, if one of the next `n` is -/
def restFrom (plist : Nat → Option Nat) : Nat → Nat → Option (List Nat)
  | 0, _ => none
  | n + 1, i =>
    match plist i with
    | none => some []
    | some page => (restFrom plist n (i + 1)).map (page :: ·)

/-- The pages that the next calls with the id of the list return -/
def IdList.rest (s : IdList) : Option (List Nat) := restFrom s.plist (maxIdPages - 1 - s.curPage) (s.curPage + 1)

/-- Another id, and a list with room for its pages and the end; or the same id, and what is left of its list are the
pages of the exposure. -/
def Ready (smc : SmCache) (expID : ExpID) (s : IdList) : Prop :=
  (expID ≠ s.listID ∧ (smc.pagesOf expID smc.top.toNat).length < maxIdPages) ∨
  (expID = s.listID ∧ ∃ pages, s.rest = some pages ∧ pages.Perm (smc.pagesOf expID smc.top.toNat))

section ByExpID

variable {c : Caller} {smc : SmCache} {expID : ExpID} {ps : PState} {s t : IdList} {pages : List Nat}

/-! ## The search -/

theorem pagesOf_succ (n : Nat) : smc.pagesOf expID (n + 1) = smc.pagesOf expID n ++
    if smc.Open n ∧ smcEqualExpID (smc.pdata n).expID expID = true then [n] else [] := by
  rw [SmCache.pagesOf, List.range_succ, List.filter_append, SmCache.pagesOf]
  congr 1
  by_cases h : smc.Open n ∧ smcEqualExpID (smc.pdata n).expID expID = true
  · rw [if_pos h]
    simp [h.1, h.2]
  · rw [if_neg h, List.filter_cons_of_neg (by simpa using h), List.filter_nil]

/-- The list of the first pages found -/
theorem search_eq (n : Nat) :
    (List.range n).foldlM (searchRound smc expID) (fun _ => none, 0) =
      if (smc.pagesOf expID n).length ≤ maxIdPages then
        some (fun j => (smc.pagesOf expID n)[j]?, (smc.pagesOf expID n).length)
      else none := by
  induction n with
  | zero =>
    exact (if_pos (Nat.zero_le maxIdPages)).symm
  | succ n ih =>
    rw [List.range_succ, List.foldlM_append, ih, pagesOf_succ]
    by_cases hmatch : smc.Open n ∧ smcEqualExpID (smc.pdata n).expID expID = true
    · have hopen : ¬ ((smc.pdata n).memKey = 0 ∨ (smc.pdata n).acLocked = true) := by
        rintro (h | h)
        · exact hmatch.1.1 h
        · rw [hmatch.1.2] at h
          cases h
      rw [if_pos hmatch, List.length_append, List.length_singleton]
      by_cases hroom : (smc.pagesOf expID n).length + 1 ≤ maxIdPages
      · rw [if_pos (by omega), if_pos hroom]
        show (searchRound smc expID _ n).bind some = _
        rw [searchRound, if_neg hopen, if_pos hmatch.2, if_pos (by omega), Option.bind_some]
        congr 2
        funext j
        by_cases hj : j = (smc.pagesOf expID n).length
        · rw [hj, update_self, List.getElem?_append_right (le_refl _), Nat.sub_self]
          rfl
        · rw [update_of_ne hj]
          show (smc.pagesOf expID n)[j]? = _
          rcases Nat.lt_or_gt_of_ne hj with hlt | hgt
          · rw [List.getElem?_append_left hlt]
          · rw [List.getElem?_eq_none hgt.le, List.getElem?_eq_none]
            rw [List.length_append, List.length_singleton]
            omega
      · rw [if_neg hroom]
        by_cases hfull : (smc.pagesOf expID n).length ≤ maxIdPages
        · rw [if_pos hfull]
          show (searchRound smc expID _ n).bind some = _
          rw [searchRound, if_neg hopen, if_pos hmatch.2, if_neg (by omega)]
          rfl
        · rw [if_neg hfull]
          rfl
    · rw [if_neg hmatch, List.append_nil]
      split
      · show (searchRound smc expID _ n).bind some = _
        have hskip : searchRound smc expID (fun j => (smc.pagesOf expID n)[j]?, (smc.pagesOf expID n).length) n =
            some (fun j => (smc.pagesOf expID n)[j]?, (smc.pagesOf expID n).length) := by
          unfold searchRound
          split
          · rfl
          · rename_i hopen
            rw [not_or, Bool.not_eq_true] at hopen
            rw [if_neg fun h => hmatch ⟨hopen, h⟩]
        rw [hskip, Option.bind_some]
      · rfl

/-- What is left of a list with the given pages -/
theorem restFrom_eq (l : List Nat) (n i : Nat) (hi : i ≤ l.length) :
    restFrom (fun j => l[j]?) n i = if l.length < i + n then some (l.drop i) else none := by
  induction n generalizing i with
  | zero => rw [restFrom, if_neg (by omega)]
  | succ n ih =>
    rcases Nat.lt_or_eq_of_le hi with hlt | rfl
    · have hget : l[i]? = some l[i] := List.getElem?_eq_getElem hlt
      simp only [restFrom, hget]
      rw [ih (i + 1) hlt, List.drop_eq_getElem_cons hlt]
      by_cases hn : l.length < i + 1 + n
      · rw [if_pos hn, if_pos (by omega)]
        rfl
      · rw [if_neg hn, if_neg (by omega)]
        rfl
    · have hget : l[l.length]? = none := List.getElem?_eq_none (le_refl _)
      simp only [restFrom, hget]
      rw [if_pos (by omega), List.drop_length]

/-! ## The loop -/

theorem idLoop_succ (h0 : 0 ≤ expID) (n : Nat) : idLoop c smc expID ps (n + 1) s =
    match s.next smc expID with
    | none => none
    | some (t, none) => some ([], t)
    | some (t, some page) => (idLoop c smc expID ps n t).map fun r => (page :: r.1, r.2) := by
  rw [idLoop, smcNextByExpID, if_neg (not_lt.mpr h0)]
  rcases s.next smc expID with _ | ⟨t, _ | page⟩
  · rfl
  · rfl
  · rfl

/-- With the id of the list, a call goes on in the list. -/
theorem next_listed (smc : SmCache) (he : expID = s.listID) (hroom : s.curPage + 1 < maxIdPages) :
    s.next smc expID = match s.plist (s.curPage + 1) with
      | some page => some ({ s with curPage := s.curPage + 1 }, some page)
      | none => some ({ s with listID := 0 }, none) := by
  rw [IdList.next, if_neg (not_not.mpr he), if_pos hroom]

/-- With the id of the list, the loop returns what is left of it, and the id is forgotten. -/
theorem idLoop_rest (c : Caller) (smc : SmCache) (ps : PState) (h0 : 0 ≤ expID) {m : Nat}
    (hm : s.curPage + 1 + m = maxIdPages) (he : expID = s.listID) (hr : restFrom s.plist m (s.curPage + 1) = some pages) :
    ∃ n t, idLoop c smc expID ps n s = some (pages, t) ∧ t.listID = 0 ∧ t.rest = some [] := by
  induction m generalizing s pages with
  | zero => cases hr
  | succ m ih =>
    have hnext := next_listed smc he (by omega)
    rw [restFrom] at hr
    cases hp : s.plist (s.curPage + 1) with
    | none =>
      simp only [hp, Option.some.injEq] at hr hnext
      subst hr
      refine ⟨1, { s with listID := 0 }, by rw [idLoop_succ h0, hnext], rfl, ?_⟩
      rw [IdList.rest]
      dsimp only
      rw [show maxIdPages - 1 - s.curPage = m + 1 by omega, restFrom]
      simp only [hp]
    | some page =>
      simp only [hp] at hr hnext
      obtain ⟨pages', hr', rfl⟩ := Option.map_eq_some_iff.mp hr
      obtain ⟨n, t, hn, ht⟩ := ih (s := { s with curPage := s.curPage + 1 }) (by dsimp only; omega) he hr'
      exact ⟨n + 1, t, by simp only [idLoop_succ h0, hnext, hn, Option.map_some], ht⟩

theorem idLoop_of_rest (c : Caller) (smc : SmCache) (ps : PState) (h0 : 0 ≤ expID) (he : expID = s.listID)
    (hr : s.rest = some pages) :
    ∃ n t, idLoop c smc expID ps n s = some (pages, t) ∧ t.listID = 0 ∧ t.rest = some [] := by
  by_cases hcur : s.curPage + 1 ≤ maxIdPages
  · exact idLoop_rest c smc ps (m := maxIdPages - 1 - s.curPage) h0 (by omega) he hr
  · rw [IdList.rest, show maxIdPages - 1 - s.curPage = 0 by omega] at hr
    cases hr

/-- A loop with the id of the list that ends has returned what was left of it. -/
theorem rest_of_idLoop (h0 : 0 ≤ expID) (he : expID = s.listID) {n : Nat}
    (h : idLoop c smc expID ps n s = some (pages, t)) : s.rest = some pages := by
  induction n generalizing s pages with
  | zero => cases h
  | succ n ih =>
    rw [idLoop_succ h0] at h
    by_cases hroom : s.curPage + 1 < maxIdPages
    · have hrest : s.rest = restFrom s.plist (maxIdPages - 1 - (s.curPage + 1) + 1) (s.curPage + 1) := by
        rw [IdList.rest]
        congr 1
        omega
      have hnext := next_listed smc he hroom
      rw [hrest, restFrom]
      cases hp : s.plist (s.curPage + 1) with
      | none =>
        simp only [hp] at hnext
        rw [hnext] at h
        cases h
        rfl
      | some page =>
        simp only [hp] at hnext
        rw [hnext] at h
        obtain ⟨⟨pages', t'⟩, h', heq⟩ := Option.map_eq_some_iff.mp h
        cases heq
        have hr := ih (s := { s with curPage := s.curPage + 1 }) he h'
        dsimp only
        rw [IdList.rest] at hr
        dsimp only at hr
        rw [hr]
        rfl
    · rw [IdList.next, if_neg (not_not.mpr he), if_neg hroom] at h
      cases h

/-- The first call with another id -/
theorem next_search (smc : SmCache) (he : expID ≠ s.listID) : s.next smc expID =
    if (smc.pagesOf expID smc.top.toNat).length ≤ maxIdPages then
      some (⟨expID, (smc.pagesOf expID smc.top.toNat).length, 0, fun j => (smc.pagesOf expID smc.top.toNat)[j]?⟩,
        (smc.pagesOf expID smc.top.toNat)[0]?)
    else none := by
  rw [IdList.next, if_pos he, search_eq]
  split <;> rfl

/-- A loop with another id: all pages, if the list has room for them and the end -/
theorem idLoop_search (c : Caller) (ps : PState) (h0 : 0 ≤ expID) (he : expID ≠ s.listID)
    (hroom : (smc.pagesOf expID smc.top.toNat).length < maxIdPages) :
    ∃ n t, idLoop c smc expID ps n s = some (smc.pagesOf expID smc.top.toNat, t) ∧
      (t.listID = if smc.pagesOf expID smc.top.toNat = [] then expID else 0) ∧ t.rest = some [] := by
  have hnext := next_search smc he
  rw [if_pos hroom.le] at hnext
  cases hl : smc.pagesOf expID smc.top.toNat with
  | nil =>
    rw [hl] at hnext
    exact ⟨1, _, by rw [idLoop_succ h0, hnext]; rfl, by rw [if_pos rfl], rfl⟩
  | cons page l =>
    rw [hl] at hnext hroom
    have hrest := restFrom_eq (page :: l) (maxIdPages - 1) 1 (by simp)
    rw [List.length_cons] at hroom
    rw [List.length_cons, if_pos (by omega), List.drop_succ_cons, List.drop_zero] at hrest
    obtain ⟨n, t, hn, hid, ht⟩ := idLoop_rest c smc ps (m := maxIdPages - 1)
      (s := ⟨expID, l.length + 1, 0, fun j => (page :: l)[j]?⟩) h0 rfl rfl hrest
    refine ⟨n + 1, t, ?_, by rw [hid, if_neg (List.cons_ne_nil page l)], ht⟩
    rw [idLoop_succ h0, hnext]
    exact congrArg (Option.map _) hn

/-- A loop with another id that ends has found that room. -/
theorem room_of_idLoop (h0 : 0 ≤ expID) (he : expID ≠ s.listID) {n : Nat}
    (h : idLoop c smc expID ps n s = some (pages, t)) : (smc.pagesOf expID smc.top.toNat).length < maxIdPages := by
  cases n with
  | zero => cases h
  | succ n =>
    rw [idLoop_succ h0, next_search smc he] at h
    by_cases hfit : (smc.pagesOf expID smc.top.toNat).length ≤ maxIdPages
    · rw [if_pos hfit] at h
      cases hl : smc.pagesOf expID smc.top.toNat with
      | nil => exact (by decide : 0 < maxIdPages)
      | cons page l =>
        rw [hl] at h hfit
        obtain ⟨⟨pages', t'⟩, h', -⟩ := Option.map_eq_some_iff.mp h
        have hrest := rest_of_idLoop h0 rfl h'
        rw [IdList.rest, restFrom_eq (page :: l) _ 1 (by simp)] at hrest
        have hlt := (Option.ite_none_right_eq_some.mp hrest).1
        have hpos : 0 < maxIdPages := by decide
        dsimp only at hlt
        omega
    · rw [if_neg hfit] at h
      cases h

/-- From which states a loop returns the pages of the exposure, each of them once -/
theorem loopOk_iff (h0 : 0 ≤ expID) : LoopOk c smc expID ps s ↔ Ready smc expID s := by
  constructor
  · rintro ⟨n, pages, t, hn, hperm⟩
    by_cases he : expID = s.listID
    · exact .inr ⟨he, pages, rest_of_idLoop h0 he hn, hperm⟩
    · exact .inl ⟨he, room_of_idLoop h0 he hn⟩
  · rintro (⟨he, hroom⟩ | ⟨he, pages, hr, hperm⟩)
    · obtain ⟨n, t, hn, -⟩ := idLoop_search c ps h0 he hroom
      exact ⟨n, _, t, hn, .refl _⟩
    · obtain ⟨n, t, hn, -⟩ := idLoop_of_rest c smc ps h0 he hr
      exact ⟨n, pages, t, hn, hperm⟩

/-- A loop that ends has one result, however many calls it may make. -/
theorem idLoop_unique (h0 : 0 ≤ expID) {n m : Nat} {r r' : List Nat × IdList} (h : idLoop c smc expID ps n s = some r)
    (h' : idLoop c smc expID ps m s = some r') : r = r' := by
  induction n generalizing m s r r' with
  | zero => cases h
  | succ n ih =>
    cases m with
    | zero => cases h'
    | succ m =>
      rw [idLoop_succ h0] at h h'
      rcases hn : s.next smc expID with _ | ⟨t, _ | page⟩
      · rw [hn] at h
        cases h
      · rw [hn] at h h'
        cases h
        cases h'
        rfl
      · rw [hn] at h h'
        obtain ⟨r₁, h₁, rfl⟩ := Option.map_eq_some_iff.mp h
        obtain ⟨r₂, h₂, rfl⟩ := Option.map_eq_some_iff.mp h'
        rw [ih h₁ h₂]

/-- What a loop that has ended leaves behind: the end of its list, and the id zero or, if its search found nothing,
its own id. -/
theorem ended_of_idLoop (h0 : 0 ≤ expID) {n : Nat} (h : idLoop c smc expID ps n s = some (pages, t)) :
    t.rest = some [] ∧ t.listID = if expID ≠ s.listID ∧ pages = [] then expID else 0 := by
  by_cases he : expID = s.listID
  · obtain ⟨m, t', hm, hid, ht⟩ := idLoop_of_rest c smc ps h0 he (rest_of_idLoop h0 he h)
    obtain rfl : t = t' := congrArg Prod.snd (idLoop_unique h0 h hm)
    exact ⟨ht, by rw [hid, if_neg fun hc => hc.1 he]⟩
  · obtain ⟨m, t', hm, hid, ht⟩ := idLoop_search c ps h0 he (room_of_idLoop h0 he h)
    have heq := idLoop_unique h0 h hm
    obtain rfl : t = t' := congrArg Prod.snd heq
    obtain rfl : pages = smc.pagesOf expID smc.top.toNat := congrArg Prod.fst heq
    refine ⟨ht, ?_⟩
    rw [hid]
    exact if_congr (by simp [he]) rfl rfl

/-- After a loop that has ended, the next one returns the pages of its exposure if there are none, or if there are
fewer than 128 and its id is not the one that was left behind. -/
theorem ready_iff_of_ended (hr : s.rest = some []) : Ready smc expID s ↔
    smc.pagesOf expID smc.top.toNat = [] ∨
      (expID ≠ s.listID ∧ (smc.pagesOf expID smc.top.toNat).length < maxIdPages) := by
  have hpos : 0 < maxIdPages := by decide
  unfold Ready
  rw [hr]
  constructor
  · rintro (h | ⟨-, pages, hp, hperm⟩)
    · exact .inr h
    · cases hp
      exact .inl hperm.symm.eq_nil
  · rintro (h | h)
    · by_cases he : expID = s.listID
      · exact .inr ⟨he, [], rfl, by rw [h]⟩
      · exact .inl ⟨he, by rw [h]; exact hpos⟩
    · exact .inl h

/-- A loop over the pages of an exposure, from any statics that earlier calls left: it ends and returns each page once
if and only if it searches and the list has room, or continues a list whose rest are just these pages. For a loop that
is started after another one has ended, the second part says so without the lists. -/
theorem exposure_loop_iff (c : Caller) (smc : SmCache) (expID : ExpID) (ps : PState) (h0 : 0 ≤ expID) :
    (∀ s, LoopOk c smc expID ps s ↔ Ready smc expID s) ∧
    ∀ (c' : Caller) (smc' : SmCache) (expID' : ExpID) (ps' : PState) (n : Nat) (s t : IdList) (pages : List Nat),
      0 ≤ expID' → idLoop c' smc' expID' ps' n s = some (pages, t) →
      (t.listID = if expID' ≠ s.listID ∧ pages = [] then expID' else 0) ∧
      (LoopOk c smc expID ps t ↔ smc.pagesOf expID smc.top.toNat = [] ∨
        (expID ≠ t.listID ∧ (smc.pagesOf expID smc.top.toNat).length < maxIdPages)) := by
  refine ⟨fun s => loopOk_iff h0, fun c' smc' expID' ps' n s t pages h0' hloop => ?_⟩
  obtain ⟨hrest, hid⟩ := ended_of_idLoop h0' hloop
  exact ⟨hid, (loopOk_iff h0).trans (ready_iff_of_ended hrest)⟩

end ByExpID

/-- A cache with one page of the exposure 5 -/
def onePage : SmCache where
  pdata i := if i = 0 then { memKey := 17, expID := 5 } else {}
  top := 1

/-- A process that asks at the time 1 -/
def oneCaller : Caller := ⟨100, fun _ => true, 1⟩

theorem exposure_loop_onePage : LoopOk oneCaller onePage 5 (fun _ => []) {} :=
  ((exposure_loop_iff oneCaller onePage 5 (fun _ => []) (by decide)).1 {}).mpr
    (.inl ⟨by decide, by decide +kernel⟩)

/-- A loop before the page is there finds nothing; the loop after it is taken for the rest of the first one. -/
theorem exposure_loop_fails_after_empty :
    ∃ t, idLoop oneCaller {} 5 (fun _ => []) 1 {} = some ([], t) ∧ ¬ LoopOk oneCaller onePage 5 (fun _ => []) t := by
  have h0 : (0 : ExpID) ≤ 5 := by decide
  obtain ⟨t, ht⟩ : ∃ t, idLoop oneCaller {} 5 (fun _ => []) 1 {} = some ([], t) := by
    rw [idLoop_succ h0]
    exact ⟨_, rfl⟩
  obtain ⟨hrest, hid⟩ := ended_of_idLoop h0 ht
  have hid : t.listID = 5 := by rw [hid, if_pos ⟨by decide, rfl⟩]
  have hpages : onePage.pagesOf 5 1 = [0] := by decide +kernel
  refine ⟨t, ht, fun hok => ?_⟩
  rcases (ready_iff_of_ended hrest).mp ((loopOk_iff h0).mp hok) with hempty | ⟨hne, -⟩
  · have hfound := hpages.symm.trans hempty
    cases hfound
  · exact hne hid.symm

end Ndhs
