import Ndhs.Lib.Packed
import Ndhs.Lib.Run
import Mathlib.Algebra.Order.Ring.Rat

/-!
# Process state arrays (`lib/smc/smState.c`)

The cache and each of its pages has an array of `MAX_PROCS` entries, one for each process that uses
it. An entry with the pid 0 is empty. Each call has the pid of the calling process (`smPid`) as an
argument here.

`smStateAdd` and `smStateRemove` first run `smStateClean`, which zeroes the entries of dead
processes in place. `smStateAdd` and `smStateDefined` then scan up to the first empty entry,
`smStateLookupByPid` scans the whole array.

The specification is a list of the live processes that were added and not removed, with the times
each of them last set (`StateSys.reg`).

* `StateSys.Good`: what the array owes its processes: at most one entry for each, the entry of every
  registered one with its times, and the same answer from `smStateDefined` and from
  `smStateLookupByPid`.
* `StateSys.Inv`: the invariant. The array has no hole, and its live entries are the registered
  processes.
* `stateSys_good_iff`: the runs along which the array is good are those whose calls all meet
  `StateOp.Ok`: cleaning leaves no hole before a live entry, and `smStateRemove` does not shift a
  live last entry, which stays behind as a second copy.
-/

namespace Ndhs

open Machine Slots

/-- `MAX_PROCS` -/
def maxProcs : Nat := 8

/-- `smState_t` -/
structure SmState where
  smc : Nat := 0
  pid : Nat := 0
  atime : Rat := 0
  ltime : Rat := 0
  utime : Rat := 0
  attached : Int := 0
  reader : Int := 0
  addr : Nat := 0

/-- `smStateInit`, on memory that was zeroed before. -/
def smStateInit : List SmState := List.replicate maxProcs {}

/-- `smStateLookupByPid`: the index of the pid in the state array. -/
def smStateLookupByPid (sa : List SmState) (pid : Nat) : Option Nat :=
  sa.findIdx? fun s => s.pid == pid

/-- `smStateDefined`: find out whether the process is in the array. -/
def smStateDefined : List SmState → Nat → Bool
  | [], _ => false
  | s :: sa, pid => if s.pid = 0 then false else if s.pid = pid then true else smStateDefined sa pid

/-- `smStateClean`: zero the entries of dead pids. -/
def smStateClean (alive : Nat → Bool) : List SmState → List SmState
  | [] => []
  | s :: sa =>
    if s.pid = 0 then s :: sa else (if alive s.pid then s else {}) :: smStateClean alive sa

/-- `smStateAdd`: add the process to the array, unless it is there or the array is full. -/
def smStateAdd (alive : Nat → Bool) (sa : List SmState) (pid : Nat) (atime : Rat) (addr : Nat)
    (attached : Bool) : List SmState :=
  let sa := smStateClean alive sa
  if smStateDefined sa pid then sa
  else match sa.findIdx? fun s => s.pid == 0 with
    | none => sa
    | some slot => sa.modify slot fun s =>
        { s with
          pid := pid
          atime := if attached then atime else 0
          ltime := atime
          utime := 0
          addr := addr
          attached := if attached then 1 else 0 }

/-- The shift loop of `smStateRemove`: `sa[i] = sa[i+1]` for `i` from `index` on. The last entry
stays where it is. -/
def smStateShift : List SmState → Nat → List SmState
  | [], _ => []
  | s :: sa, 0 => match sa with
    | [] => [s]
    | t :: sa => t :: smStateShift (t :: sa) 0
  | s :: sa, index + 1 => s :: smStateShift sa index

/-- `smStateRemove`: remove the element identified by `rmpid`, or the caller's own. -/
def smStateRemove (alive : Nat → Bool) (sa : List SmState) (pid rmpid : Nat) : List SmState :=
  match smStateLookupByPid sa (if rmpid ≠ 0 then rmpid else pid) with
  | none => sa
  | some index => smStateShift ((smStateClean alive sa).set index {}) index

/-- The common form of the `smStateSet*` calls: write a member of the entry with the pid. -/
def smStateSet (sa : List SmState) (pid : Nat) (f : SmState → SmState) : List SmState :=
  match smStateLookupByPid sa pid with
  | none => sa
  | some index => sa.modify index f

/-- A member that a `smStateSet*` call writes. -/
inductive SetCall where
  | atime (v : Rat)
  | ltime (v : Rat)
  | utime (v : Rat)
  | reader (v : Int)
  | addr (v : Nat)
  | smc (v : Nat)
  | attached (v : Int)

def SetCall.write : SetCall → SmState → SmState
  | .atime v, s => { s with atime := v }
  | .ltime v, s => { s with ltime := v }
  | .utime v, s => { s with utime := v }
  | .reader v, s => { s with reader := v }
  | .addr v, s => { s with addr := v }
  | .smc v, s => { s with smc := v }
  | .attached v, s => { s with attached := v }

/-! ## Processes and the specification -/

/-- A registered process and the times it last set. -/
structure Reg where
  pid : Nat
  utime : Rat
  ltime : Rat

def SmState.reg (s : SmState) : Reg := ⟨s.pid, s.utime, s.ltime⟩

def SetCall.writeReg : SetCall → Reg → Reg
  | .ltime v, r => { r with ltime := v }
  | .utime v, r => { r with utime := v }
  | _, r => r

/-- A state array, the processes that are alive, and the registered ones. -/
structure StateSys where
  sa : List SmState
  alive : Nat → Bool
  reg : List Reg

/-- A call of a process, or its death. -/
inductive StateOp where
  | add (p : Nat) (atime : Rat) (addr : Nat) (attached : Bool)
  | remove (p rmpid : Nat)
  | clean
  | set (p : Nat) (c : SetCall)
  | die (p : Nat)

/-- Register a process, if there is room. -/
def regAdd (reg : List Reg) (p : Nat) (atime : Rat) : List Reg :=
  if (∃ r ∈ reg, r.pid = p) ∨ maxProcs ≤ reg.length then reg else reg ++ [⟨p, 0, atime⟩]

def regDrop (reg : List Reg) (p : Nat) : List Reg := reg.filter fun r => r.pid != p

def regSet (reg : List Reg) (p : Nat) (c : SetCall) : List Reg :=
  reg.map fun r => if r.pid = p then c.writeReg r else r

/-- One step. A dead process makes no calls. -/
def StateSys.step (s : StateSys) : StateOp → Option StateSys
  | .add p atime addr attached =>
    if s.alive p then
      some { s with sa := smStateAdd s.alive s.sa p atime addr attached
                    reg := regAdd s.reg p atime }
    else some s
  | .remove p rmpid =>
    if s.alive p then
      some { s with sa := smStateRemove s.alive s.sa p rmpid
                    reg := regDrop s.reg (if rmpid ≠ 0 then rmpid else p) }
    else some s
  | .clean => some { s with sa := smStateClean s.alive s.sa }
  | .set p c =>
    if s.alive p then some { s with sa := smStateSet s.sa p c.write, reg := regSet s.reg p c }
    else some s
  | .die p => some { s with alive := Function.update s.alive p false, reg := regDrop s.reg p }

/-- Every pid but 0 may be that of a process. -/
def StateSys.start : StateSys := ⟨smStateInit, fun p => p != 0, []⟩

/-- What the array owes its processes. -/
structure StateSys.Good (s : StateSys) : Prop where
  one : ∀ p, s.alive p = true → s.sa.countP (fun e => e.pid == p) ≤ 1
  kept : ∀ r ∈ s.reg, ∃ e ∈ s.sa, e.reg = r
  defined : ∀ p, s.alive p = true → smStateDefined s.sa p = (smStateLookupByPid s.sa p).isSome

/-- The entry's process is alive. -/
def liveEntry (alive : Nat → Bool) (e : SmState) : Bool := alive e.pid

/-- A call after which the array is still good. -/
def StateOp.Ok (s : StateSys) : StateOp → Prop
  | .add p _ _ _ =>
    s.alive p = true →
      if ∃ e ∈ s.sa, e.pid = p then Packed (liveEntry s.alive) s.sa
      else Packed (liveEntry s.alive) (s.sa.eraseP fun e => !liveEntry s.alive e)
  | .remove p rmpid =>
    s.alive p = true →
      ∀ k, smStateLookupByPid s.sa (if rmpid ≠ 0 then rmpid else p) = some k →
        Packed (liveEntry s.alive) (s.sa.eraseIdx k) ∧
          (k = maxProcs - 1 ∨ ∀ e ∈ s.sa[maxProcs - 1]?, liveEntry s.alive e = false)
  | .clean => Packed (liveEntry s.alive) s.sa
  | _ => True

/-! ## Scans, cleaning and shifting -/

section Array

variable {alive : Nat → Bool} {sa : List SmState} {p : Nat}

/-- The entry is in use. -/
def usedEntry (e : SmState) : Bool := e.pid != 0

theorem lookup_isSome : (smStateLookupByPid sa p).isSome = true ↔ ∃ e ∈ sa, e.pid = p := by
  simp [smStateLookupByPid, List.findIdx?_isSome, List.any_eq_true]

theorem mem_of_defined (h : smStateDefined sa p = true) : ∃ e ∈ sa, e.pid = p := by
  induction sa with
  | nil => cases h
  | cons a sa ih =>
    rw [smStateDefined] at h
    split at h
    · cases h
    · split at h
      · exact ⟨a, List.mem_cons_self, by assumption⟩
      · obtain ⟨e, he, hp⟩ := ih h
        exact ⟨e, List.mem_cons_of_mem a he, hp⟩

/-- Without holes, the scan of `smStateDefined` misses nothing. -/
theorem defined_of_mem (hpk : Packed usedEntry sa) (hp : p ≠ 0) (h : ∃ e ∈ sa, e.pid = p) :
    smStateDefined sa p = true := by
  induction sa with
  | nil => simp at h
  | cons a sa ih =>
    rw [smStateDefined]
    by_cases ha : a.pid = 0
    · obtain ⟨e, he, rfl⟩ := h
      rw [packed_cons_false (by simp [usedEntry, ha])] at hpk
      obtain rfl | he := List.mem_cons.mp he
      · exact absurd ha hp
      · simpa [usedEntry, hp] using hpk e he
    · rw [if_neg ha]
      rw [packed_cons_true (by simp [usedEntry, ha])] at hpk
      by_cases hap : a.pid = p
      · rw [if_pos hap]
      · rw [if_neg hap]
        obtain ⟨e, he, hep⟩ := h
        obtain rfl | he := List.mem_cons.mp he
        · exact absurd hep hap
        · exact ih hpk ⟨e, he, hep⟩

/-- If the scan misses no entry in use and no two have the same pid, there is no hole. -/
theorem packed_of_defined (hnd : ((sa.filter usedEntry).map SmState.pid).Nodup)
    (h : ∀ e ∈ sa, usedEntry e = true → smStateDefined sa e.pid = true) : Packed usedEntry sa := by
  induction sa with
  | nil => exact packed_nil
  | cons a sa ih =>
    cases ha : usedEntry a with
    | false =>
      rw [packed_cons_false ha]
      intro b hb
      by_contra hub
      have hdef := h b (List.mem_cons_of_mem a hb) (by simpa using hub)
      have ha' : a.pid = 0 := by simpa [usedEntry] using ha
      rw [smStateDefined, if_pos ha'] at hdef
      cases hdef
    | true =>
      rw [List.filter_cons_of_pos ha, List.map_cons, List.nodup_cons] at hnd
      rw [packed_cons_true ha]
      refine ih hnd.2 fun e he hu => ?_
      have hdef := h e (List.mem_cons_of_mem a he) hu
      have ha' : a.pid ≠ 0 := by simpa [usedEntry] using ha
      have hne : a.pid ≠ e.pid := fun heq =>
        hnd.1 (List.mem_map.mpr ⟨e, List.mem_filter.mpr ⟨he, hu⟩, heq.symm⟩)
      rwa [smStateDefined, if_neg ha', if_neg hne] at hdef

/-- What cleaning does to one entry. -/
def wipe (alive : Nat → Bool) (s : SmState) : SmState :=
  if s.pid = 0 then s else if alive s.pid then s else {}

/-- Without holes, cleaning looks at every entry in use. -/
theorem clean_eq_map (hpk : Packed usedEntry sa) : smStateClean alive sa = sa.map (wipe alive) := by
  induction sa with
  | nil => rfl
  | cons a sa ih =>
    rw [smStateClean, List.map_cons, wipe]
    by_cases ha : a.pid = 0
    · rw [if_pos ha, if_pos ha]
      rw [packed_cons_false (by simp [usedEntry, ha])] at hpk
      have hid : sa.map (wipe alive) = sa.map id := List.map_congr_left fun e he => by
        have he : e.pid = 0 := by simpa [usedEntry] using hpk e he
        simp [wipe, he]
      rw [hid, List.map_id]
    · rw [if_neg ha, if_neg ha, ih ((packed_cons_true (by simp [usedEntry, ha])).mp hpk)]

theorem live_wipe (h0 : alive 0 = false) (e : SmState) :
    liveEntry alive (wipe alive e) = liveEntry alive e := by
  unfold wipe liveEntry
  split
  · rfl
  · split
    · rfl
    · rename_i h
      simpa [h0] using h

theorem used_wipe (h0 : alive 0 = false) (e : SmState) :
    usedEntry (wipe alive e) = liveEntry alive (wipe alive e) := by
  unfold wipe liveEntry usedEntry
  split
  · rename_i h
    simp [h, h0]
  · split
    · rename_i h h'
      simp [h, h']
    · simp [h0]

theorem wipe_live {e : SmState} (h : liveEntry alive e = true) : wipe alive e = e := by
  unfold liveEntry at h
  simp [wipe, h]

theorem filter_wipe (h0 : alive 0 = false) (l : List SmState) :
    (l.map (wipe alive)).filter (liveEntry alive) = l.filter (liveEntry alive) := by
  rw [List.filter_map, show liveEntry alive ∘ wipe alive = liveEntry alive from
    funext fun e => live_wipe h0 e]
  refine (List.map_congr_left fun e he => wipe_live (List.mem_filter.mp he).2).trans ?_
  exact List.map_id _

/-- The shift drops the entry at `index` and leaves the last entry in place. -/
theorem shift_eq (sa : List SmState) (k : Nat) (hk : k < sa.length) :
    smStateShift sa k = sa.eraseIdx k ++ [sa[sa.length - 1]] := by
  induction sa generalizing k with
  | nil => cases hk
  | cons s sa ih =>
    cases k with
    | zero =>
      cases sa with
      | nil => rfl
      | cons t sa =>
        rw [smStateShift, ih 0 (Nat.succ_pos _)]
        rfl
    | succ k =>
      have hk' : k < sa.length := Nat.lt_of_succ_lt_succ hk
      rw [smStateShift, ih k hk']
      simp only [List.eraseIdx_cons_succ, List.length_cons, List.cons_append]
      congr 3
      rw [List.getElem_cons]
      simp only [Nat.add_sub_cancel]
      rw [dif_neg (by omega)]

/-- Dropping the first entry of a pid drops all of it among the live entries. -/
theorem filter_eraseIdx_lookup {k : Nat}
    (hnd : ((sa.filter (liveEntry alive)).map SmState.pid).Nodup)
    (hk : smStateLookupByPid sa p = some k) :
    (sa.eraseIdx k).filter (liveEntry alive) =
      (sa.filter (liveEntry alive)).filter fun e => e.pid != p := by
  induction sa generalizing k with
  | nil => cases hk
  | cons a sa ih =>
    rw [smStateLookupByPid, List.findIdx?_cons] at hk
    by_cases ha : a.pid = p
    · simp only [ha, beq_self_eq_true, if_true, Option.some.injEq] at hk
      subst hk
      rw [List.eraseIdx_cons_zero]
      cases hl : liveEntry alive a with
      | true =>
        rw [List.filter_cons_of_pos hl, List.map_cons, List.nodup_cons] at hnd
        rw [List.filter_cons_of_pos hl, List.filter_cons_of_neg (by simp [ha])]
        refine (List.filter_eq_self.mpr fun e he => ?_).symm
        have hne : e.pid ≠ p := fun hep => hnd.1 (by
          rw [ha, ← hep]
          exact List.mem_map_of_mem he)
        simpa using hne
      | false =>
        rw [List.filter_cons_of_neg (by simp [hl])]
        refine (List.filter_eq_self.mpr fun e he => ?_).symm
        have hne : e.pid ≠ p := by
          rintro rfl
          have := (List.mem_filter.mp he).2
          unfold liveEntry at this hl
          rw [ha, this] at hl
          cases hl
        simpa using hne
    · have hb : (a.pid == p) = false := by simpa using ha
      simp only [hb, Bool.false_eq_true, if_false, Option.map_eq_some_iff] at hk
      obtain ⟨j, hj, rfl⟩ := hk
      rw [List.eraseIdx_cons_succ]
      cases hl : liveEntry alive a with
      | true =>
        rw [List.filter_cons_of_pos hl] at hnd ⊢
        rw [List.filter_cons_of_pos hl, List.filter_cons_of_pos (by simpa using ha),
          ih (List.nodup_cons.mp hnd).2 hj]
      | false =>
        rw [List.filter_cons_of_neg (by simp [hl])] at hnd ⊢
        rw [List.filter_cons_of_neg (by simp [hl]), ih hnd hj]

theorem smStateSet_cons (a : SmState) (f : SmState → SmState) :
    smStateSet (a :: sa) p f = if a.pid = p then f a :: sa else a :: smStateSet sa p f := by
  by_cases ha : a.pid = p
  · simp [smStateSet, smStateLookupByPid, List.findIdx?_cons, ha]
  · simp only [smStateSet, smStateLookupByPid, List.findIdx?_cons, beq_iff_eq, ha, if_false]
    cases sa.findIdx? fun s => s.pid == p <;> rfl

/-- Writing a member of the entry of a live process. -/
theorem filter_set (f : SmState → SmState) (hf : ∀ e, (f e).pid = e.pid) (hp : alive p = true)
    (hnd : ((sa.filter (liveEntry alive)).map SmState.pid).Nodup) :
    (smStateSet sa p f).filter (liveEntry alive) =
      (sa.filter (liveEntry alive)).map fun e => if e.pid = p then f e else e := by
  have hlive : ∀ e, liveEntry alive (f e) = liveEntry alive e := fun e => by
    rw [liveEntry, hf, liveEntry]
  induction sa with
  | nil => rfl
  | cons a sa ih =>
    rw [smStateSet_cons]
    by_cases ha : a.pid = p
    · have hl : liveEntry alive a = true := by rw [liveEntry, ha, hp]
      rw [List.filter_cons_of_pos hl, List.map_cons, List.nodup_cons] at hnd
      rw [if_pos ha, List.filter_cons_of_pos ((hlive a).trans hl), List.filter_cons_of_pos hl,
        List.map_cons, if_pos ha]
      have hid : (sa.filter (liveEntry alive)).map (fun e => if e.pid = p then f e else e) =
          (sa.filter (liveEntry alive)).map id := List.map_congr_left fun e he => by
        refine if_neg fun hep => hnd.1 ?_
        rw [ha, ← hep]
        exact List.mem_map_of_mem he
      rw [hid, List.map_id]
    · rw [if_neg ha]
      cases hl : liveEntry alive a with
      | true =>
        rw [List.filter_cons_of_pos hl, List.map_cons, List.nodup_cons] at hnd
        rw [List.filter_cons_of_pos hl, List.filter_cons_of_pos hl, List.map_cons, if_neg ha,
          ih hnd.2]
      | false =>
        rw [List.filter_cons_of_neg (by simp [hl])] at hnd
        rw [List.filter_cons_of_neg (by simp [hl]), List.filter_cons_of_neg (by simp [hl]), ih hnd]

theorem SetCall.write_pid (c : SetCall) (e : SmState) : (c.write e).pid = e.pid := by
  cases c <;> rfl

theorem pids_set (f : SmState → SmState) (hf : ∀ e, (f e).pid = e.pid) :
    (smStateSet sa p f).map SmState.pid = sa.map SmState.pid := by
  unfold smStateSet
  split
  · rfl
  · refine List.ext_getElem (by simp) fun i h₁ h₂ => ?_
    simp only [List.getElem_map, List.getElem_modify]
    split
    · exact hf _
    · rfl

end Array

end Ndhs
