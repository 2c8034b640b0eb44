import Ndhs.Sup.Tables
import Mathlib.Data.List.Infix
import Mathlib.Data.List.TakeWhile

/-!
# Host names without domain and extension (`supNeuter` in `dhssup/supSocket.c`)

`Sup/Tables.lean` has `supNeuter`: the host name it returns, and what its argument is afterwards. Here is what it should
return (`plainHost`), and the lengths of the buffers for the names.

* `supNeuter_dot`: the dot of a name is part of the result, unless an extension in front of it is cut off with it.
* `plain_iff`, `domain_iff`, `argument_iff`, `stored_iff`: when each of the things that callers rely on holds.
  `supNeuter_idem`: a second call changes nothing.
* `neutral_iff`: when all of them hold.
-/

namespace Ndhs.Super

open Text

/-- A location-specific extension is at the start of the text. -/
def startsExtn (s : Str) : Bool :=
  strPre s ['-', 'c', 'r'] || strPre s ['-', 'f', 'r'] || strPre s ['-', '4', 'm']

/-- The text has an extension somewhere. -/
def hasExtn (s : Str) : Bool := s.tails.any startsExtn

/-- The host name without its domain -/
def hostOnly (name : Str) : Str := name.takeWhile (· ≠ '.')

/-- The host name without its domain, up to the first extension -/
def plainHost (name : Str) : Str := (hostOnly name).take ((hostOnly name).tails.findIdx startsExtn)

/-- `SZ_FNAME` and `SZ_PHOST` -/
def szFname : Nat := 64
def szPhost : Nat := 32

/-- `supNeuter`, whose copy of the name has to fit into `host[SZ_FNAME]` with its null. -/
def callNeuter (name : Str) : Option (Str × Str) :=
  if (throughDot name).length < szFname then some (supNeuter name) else none

/-- `strcpy (cp->host, supNeuter (host));` in `procAddClient`, with `cp->host[SZ_PHOST]` -/
def storedHost (host : Str) : Option Str :=
  (callNeuter host).bind fun r => if r.1.length < szPhost then some r.1 else none

/-- The host that `procAddClient` then looks for in the pairing table, `supNeuter (host)` -/
def comparedHost (host : Str) : Option Str :=
  (callNeuter host).bind fun r => (callNeuter r.2).map Prod.fst

theorem callNeuter_some {name : Str} {r : Str × Str} (h : callNeuter name = some r) :
    (throughDot name).length < szFname ∧ supNeuter name = r := by
  rw [callNeuter] at h
  split at h
  · rename_i hfit
    exact ⟨hfit, Option.some.inj h⟩
  · cases h

/-- These are the hosts in the table of clients and in the search. -/
theorem storedHost_eq {host r : Str} (h : storedHost host = some r) (chan : Option Chan) (name : Str)
    (port tid pid : Int) (status : Str) (now : Nat) :
    (newClient chan name host port tid pid status now).host = r := by
  obtain ⟨p, hp, hr⟩ := Option.bind_eq_some_iff.mp h
  obtain ⟨-, rfl⟩ := callNeuter_some hp
  split at hr
  · exact Option.some.inj hr
  · cases hr

theorem comparedHost_eq {host r : Str} (h : comparedHost host = some r) : (supNeuter (supNeuter host).2).1 = r := by
  obtain ⟨p, hp, hr⟩ := Option.bind_eq_some_iff.mp h
  obtain ⟨p', hp', rfl⟩ := Option.map_eq_some_iff.mp hr
  obtain ⟨-, rfl⟩ := callNeuter_some hp
  obtain ⟨-, rfl⟩ := callNeuter_some hp'
  rfl

/-! ## The two loops -/

section Loops

variable {s : Str}

theorem throughDot_of_not_mem (h : '.' ∉ s) : throughDot s = s := by
  induction s with
  | nil => rfl
  | cons c s ih =>
    rw [List.mem_cons, not_or] at h
    rw [throughDot, if_neg (Ne.symm h.1), ih h.2]

theorem throughDot_of_mem (h : '.' ∈ s) : throughDot s = hostOnly s ++ ['.'] := by
  induction s with
  | nil => cases h
  | cons c s ih =>
    by_cases hc : c = '.'
    · subst hc
      rfl
    · rw [throughDot, if_neg hc, hostOnly, List.takeWhile_cons_of_pos (by simpa using hc)]
      exact congrArg (c :: ·) (ih ((List.mem_cons.mp h).resolve_left (Ne.symm hc)))

theorem throughDot_append (h : '.' ∉ s) (d : Str) : throughDot (s ++ '.' :: d) = s ++ ['.'] := by
  induction s with
  | nil => rfl
  | cons c s ih =>
    rw [List.mem_cons, not_or] at h
    rw [List.cons_append, throughDot, if_neg (Ne.symm h.1), ih h.2, List.cons_append]

theorem throughDot_append_of_mem (h : '.' ∈ s) (t : Str) : throughDot (s ++ t) = throughDot s := by
  induction s with
  | nil => cases h
  | cons c s ih =>
    by_cases hc : c = '.'
    · rw [List.cons_append, throughDot, throughDot, if_pos hc, if_pos hc]
    · rw [List.cons_append, throughDot, throughDot, if_neg hc, if_neg hc,
        ih ((List.mem_cons.mp h).resolve_left (Ne.symm hc))]

theorem not_mem_hostOnly (s : Str) : '.' ∉ hostOnly s := fun h => by
  simpa using List.mem_takeWhile_imp h

theorem hostOnly_of_not_mem (h : '.' ∉ s) : hostOnly s = s := by
  rw [hostOnly, List.takeWhile_eq_self_iff]
  intro c hc
  simpa using fun hdot : c = '.' => h (hdot ▸ hc)

theorem cutExtn_cons (c : Char) (s : Str) : cutExtn (c :: s) = if startsExtn (c :: s) then [] else c :: cutExtn s := rfl

theorem cutExtn_eq (s : Str) : cutExtn s = s.take (s.tails.findIdx startsExtn) := by
  induction s with
  | nil => rfl
  | cons c s ih =>
    rw [cutExtn_cons, List.tails_cons, List.findIdx_cons, ih]
    cases startsExtn (c :: s) <;> rfl

theorem hasExtn_cons (c : Char) (s : Str) : hasExtn (c :: s) = (startsExtn (c :: s) || hasExtn s) := by
  rw [hasExtn, List.tails_cons, List.any_cons]
  rfl

/-- The text is cut exactly if it has an extension. -/
theorem cutExtn_of_not (h : hasExtn s = false) : cutExtn s = s := by
  induction s with
  | nil => rfl
  | cons c s ih =>
    rw [hasExtn_cons, Bool.or_eq_false_iff] at h
    rw [cutExtn_cons, h.1, ih h.2]
    rfl

theorem length_cutExtn_of (h : hasExtn s = true) : (cutExtn s).length < s.length := by
  induction s with
  | nil => cases h
  | cons c s ih =>
    rw [hasExtn_cons] at h
    rw [cutExtn_cons]
    cases hc : startsExtn (c :: s) with
    | true => exact Nat.succ_pos _
    | false =>
      rw [hc, Bool.false_or] at h
      exact Nat.succ_lt_succ (ih h)

theorem cutExtn_subset (s : Str) : cutExtn s ⊆ s := by
  rw [cutExtn_eq]
  exact List.take_subset _ _

/-- A longer text starts with what a shorter one starts with. -/
theorem strPre_mono {t pre : Str} (hp : s <+: t) (h : strPre s pre = true) : strPre t pre = true := by
  obtain ⟨u, rfl⟩ := hp
  have hlen : pre.length ≤ s.length := by
    rw [strPre, streq, beq_iff_eq] at h
    have hl := congrArg List.length h
    rw [List.length_map, List.length_map, List.length_take] at hl
    omega
  rwa [strPre, List.take_append_of_le_length hlen]

theorem startsExtn_mono {t : Str} (hp : s <+: t) (h : startsExtn s = true) : startsExtn t = true := by
  simp only [startsExtn, Bool.or_eq_true] at h ⊢
  exact h.imp (Or.imp (strPre_mono hp) (strPre_mono hp)) (strPre_mono hp)

theorem cutExtn_cutExtn (s : Str) : cutExtn (cutExtn s) = cutExtn s := by
  induction s with
  | nil => rfl
  | cons c s ih =>
    rw [cutExtn_cons]
    cases hc : startsExtn (c :: s) with
    | true => rfl
    | false =>
      have hpre : c :: cutExtn s <+: c :: s := by
        rw [cutExtn_eq]
        exact List.cons_prefix_cons.mpr ⟨rfl, List.take_prefix _ _⟩
      have hno : startsExtn (c :: cutExtn s) = false :=
        Bool.eq_false_iff.mpr fun h => by rw [startsExtn_mono hpre h] at hc; cases hc
      rw [if_neg (by simp), cutExtn_cons, hno, ih]
      rfl

/-- No extension has a dot in it. -/
theorem startsExtn_dot (c : Char) (s : Str) : startsExtn (c :: s ++ ['.']) = startsExtn (c :: s) := by
  match s with
  | [] => simp [startsExtn, strPre, streq]
  | [a] => simp [startsExtn, strPre, streq]
  | a :: b :: s => rfl

/-- A dot at the end stays, unless there is an extension in front of it. -/
theorem cutExtn_dot (s : Str) : cutExtn (s ++ ['.']) = if hasExtn s then cutExtn s else s ++ ['.'] := by
  induction s with
  | nil => rfl
  | cons c s ih =>
    have hdot := startsExtn_dot c s
    rw [hasExtn_cons, List.cons_append] at *
    rw [cutExtn_cons, cutExtn_cons, hdot, ih]
    cases startsExtn (c :: s) with
    | true => rfl
    | false => cases hasExtn s <;> rfl

end Loops

/-! ## The calls -/

section Calls

variable {h : Str}

theorem plainHost_eq (h : Str) : plainHost h = cutExtn (hostOnly h) := (cutExtn_eq _).symm

theorem supNeuter_of_not_mem (hdot : '.' ∉ h) : supNeuter h = (cutExtn h, h) := by
  rw [supNeuter, throughDot_of_not_mem hdot]
  exact congrArg _ (hostOnly_of_not_mem hdot)

/-- The result for a name with a domain -/
theorem supNeuter_dot (hdot : '.' ∈ h) :
    supNeuter h = (if hasExtn (hostOnly h) then plainHost h else hostOnly h ++ ['.'], hostOnly h) := by
  rw [supNeuter, throughDot_of_mem hdot, cutExtn_dot, plainHost_eq]
  rfl

theorem callNeuter_eq (hfit : (throughDot h).length < szFname) : callNeuter h = some (supNeuter h) := if_pos hfit

theorem hasExtn_nil_ne {s : Str} (hx : hasExtn s = false) : s ++ ['.'] ≠ cutExtn s := by
  rw [cutExtn_of_not hx]
  exact fun heq => by simpa using congrArg List.length heq

/-- The result is the plain host name for a name without a domain, or with an extension in front of it. -/
theorem plain_iff : (supNeuter h).1 = plainHost h ↔ '.' ∉ h ∨ hasExtn (hostOnly h) = true := by
  by_cases hdot : '.' ∈ h
  · rw [supNeuter_dot hdot, or_iff_right (not_not.mpr hdot)]
    cases hx : hasExtn (hostOnly h) with
    | true => exact iff_of_true rfl rfl
    | false => exact iff_of_false (fun heq => hasExtn_nil_ne hx (heq.trans (plainHost_eq h))) Bool.false_ne_true
  · rw [supNeuter_of_not_mem hdot, plainHost_eq, hostOnly_of_not_mem hdot]
    exact iff_of_true rfl (.inl hdot)

/-- A second call, on the result, gives the same. -/
theorem supNeuter_idem (h : Str) : (supNeuter (supNeuter h).1).1 = (supNeuter h).1 := by
  by_cases hdot : '.' ∈ h
  · rw [supNeuter_dot hdot]
    cases hx : hasExtn (hostOnly h) with
    | true =>
      have hno : '.' ∉ plainHost h := fun hm => not_mem_hostOnly h (cutExtn_subset _ (plainHost_eq h ▸ hm))
      show (supNeuter (plainHost h)).1 = plainHost h
      rw [supNeuter_of_not_mem hno, plainHost_eq]
      exact cutExtn_cutExtn _
    | false =>
      show cutExtn (throughDot (hostOnly h ++ ['.'])) = hostOnly h ++ ['.']
      rw [throughDot_append (not_mem_hostOnly h), cutExtn_dot, hx]
      rfl
  · have hno : '.' ∉ cutExtn h := fun hm => hdot (cutExtn_subset h hm)
    rw [supNeuter_of_not_mem hdot, supNeuter_of_not_mem hno]
    exact cutExtn_cutExtn h

/-- A domain makes no difference for a name that has one already, or that has an extension. -/
theorem domain_iff : (∀ d, (supNeuter (h ++ '.' :: d)).1 = (supNeuter h).1) ↔ '.' ∈ h ∨ hasExtn h = true := by
  by_cases hdot : '.' ∈ h
  · refine iff_of_true (fun d => ?_) (.inl hdot)
    rw [supNeuter, throughDot_append_of_mem hdot]
    rfl
  · rw [or_iff_right hdot, supNeuter_of_not_mem hdot]
    have hres : ∀ d, (supNeuter (h ++ '.' :: d)).1 = if hasExtn h then cutExtn h else h ++ ['.'] := fun d => by
      rw [supNeuter, throughDot_append hdot, cutExtn_dot]
    simp only [hres, forall_const]
    cases hx : hasExtn h with
    | true => exact iff_of_true rfl rfl
    | false => exact iff_of_false (hasExtn_nil_ne hx) Bool.false_ne_true

/-- The argument stays for a name without a domain. -/
theorem argument_iff : (supNeuter h).2 = h ↔ '.' ∉ h := by
  by_cases hdot : '.' ∈ h
  · rw [supNeuter_dot hdot]
    refine iff_of_false (fun heq => not_mem_hostOnly h ?_) (not_not.mpr hdot)
    exact (show hostOnly h = h from heq).symm ▸ hdot
  · rw [supNeuter_of_not_mem hdot]
    exact iff_of_true rfl hdot

/-- The host that is stored is the one that is looked for. -/
theorem stored_iff : (supNeuter (supNeuter h).2).1 = (supNeuter h).1 ↔ '.' ∉ h ∨ hasExtn (hostOnly h) = true := by
  by_cases hdot : '.' ∈ h
  · rw [← plain_iff, supNeuter_dot hdot, supNeuter_of_not_mem (not_mem_hostOnly h), ← plainHost_eq]
    exact eq_comm
  · rw [supNeuter_of_not_mem hdot, supNeuter_of_not_mem hdot]
    exact iff_of_true rfl (.inl hdot)

end Calls

/-- What callers rely on for one host name: the result is the plain name, a second call gives the same, a domain makes
no difference, the argument stays, and `procAddClient` looks for the host that it stores. -/
structure Neutral (h : Str) : Prop where
  plain : (callNeuter h).map Prod.fst = some (plainHost h)
  idem : ∃ r, (callNeuter h).map Prod.fst = some r ∧ (callNeuter r).map Prod.fst = some r
  domain : ∀ d, ∃ r, (callNeuter h).map Prod.fst = some r ∧ (callNeuter (h ++ '.' :: d)).map Prod.fst = some r
  argument : (callNeuter h).map Prod.snd = some h
  stored : ∃ r, storedHost h = some r ∧ comparedHost h = some r

/-- All of it holds for a name without a domain that has an extension, if the name and a dot fit into `host[SZ_FNAME]`
and the name without the extension into `cp->host[SZ_PHOST]`. -/
theorem neutral_iff (h : Str) :
    Neutral h ↔ '.' ∉ h ∧ hasExtn h = true ∧ h.length + 1 < szFname ∧ (cutExtn h).length < szPhost := by
  constructor
  · intro hn
    obtain ⟨r, hr, -⟩ := Option.map_eq_some_iff.mp hn.argument
    obtain ⟨-, rfl⟩ := callNeuter_some hr
    have harg := hn.argument
    rw [hr] at harg
    have hdot := argument_iff.mp (Option.some.inj harg)
    have hdomain : ∀ d, (throughDot (h ++ '.' :: d)).length < szFname ∧
        (supNeuter (h ++ '.' :: d)).1 = (supNeuter h).1 := fun d => by
      obtain ⟨r, hr', hd⟩ := hn.domain d
      obtain ⟨p, hp, rfl⟩ := Option.map_eq_some_iff.mp hd
      obtain ⟨hfit, rfl⟩ := callNeuter_some hp
      rw [hr] at hr'
      exact ⟨hfit, (Option.some.inj hr').symm⟩
    have hfit := (hdomain []).1
    rw [throughDot_append hdot, List.length_append] at hfit
    refine ⟨hdot, (domain_iff.mp fun d => (hdomain d).2).resolve_left hdot, hfit, ?_⟩
    obtain ⟨r, hs, -⟩ := hn.stored
    rw [storedHost, hr, Option.bind_some, supNeuter_of_not_mem hdot] at hs
    split at hs
    · assumption
    · cases hs
  · rintro ⟨hdot, hx, hfit, hlen⟩
    have hcut := length_cutExtn_of hx
    have hno : '.' ∉ cutExtn h := fun hm => hdot (cutExtn_subset h hm)
    have hcall : callNeuter h = some (cutExtn h, h) := by
      rw [callNeuter_eq (by rw [throughDot_of_not_mem hdot]; omega), supNeuter_of_not_mem hdot]
    have hagain : callNeuter (cutExtn h) = some (cutExtn h, cutExtn h) := by
      rw [callNeuter_eq (by rw [throughDot_of_not_mem hno]; omega), supNeuter_of_not_mem hno, cutExtn_cutExtn]
    have hdomain : ∀ d, callNeuter (h ++ '.' :: d) = some (supNeuter (h ++ '.' :: d)) := fun d =>
      callNeuter_eq (by rw [throughDot_append hdot, List.length_append]; exact hfit)
    refine ⟨?_, ⟨cutExtn h, ?_, ?_⟩, fun d => ⟨cutExtn h, ?_, ?_⟩, ?_, cutExtn h, ?_, ?_⟩
    · rw [hcall, plainHost_eq, hostOnly_of_not_mem hdot]
      rfl
    · rw [hcall]
      rfl
    · rw [hagain]
      rfl
    · rw [hcall]
      rfl
    · rw [hdomain, Option.map_some, domain_iff.mpr (.inr hx) d, supNeuter_of_not_mem hdot]
    · rw [hcall]
      rfl
    · rw [storedHost, hcall, Option.bind_some, if_pos hlen]
    · rw [comparedHost, hcall, Option.bind_some, hcall]
      rfl

/-- For the name `a.b` the result is `a.`, and the argument is cut to `a`. -/
theorem neutral_not : ¬ Neutral ['a', '.', 'b'] := by
  intro hn
  have harg := hn.argument
  revert harg
  decide

end Ndhs.Super
