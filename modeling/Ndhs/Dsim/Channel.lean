import Ndhs.Dsim.Geometry
import Ndhs.Kwdb.Header
import Ndhs.Lib.Run

/-!
# Header i/o through the table of open files (`dsim_ReadHeader`, `dsim_WriteHeader`)

Headers are read and written through a small file emulator: `ds_open` takes a slot of `fdtable`, and the other calls
get the number of the slot. An image file that is not yet mapped is read and written with ordinary file i/o.

The result of `ds_open` is assigned in the condition, `if (fd = ds_open (dsim, mode) < 0)`. So `fd` is the value of the
comparison: 0 when a slot was taken, whichever it is, and 1 when there was none. This is the right slot as long as the
table is empty before each call.

* `env n` is the answer to the `n`-th question to the environment: whether a system call on a file succeeds, whether
  memory is to be had, whether the mapping succeeds.
* `caller` and `want` are the image file and the offset that a call is to access; `trace` records them beside the ones
  that are accessed.
* A keyword database is the list of its entries; `headers` is the layout, and `reserved` are the keywords that
  `dsim_Configure` writes to a header.

`channels_iff`: in every state of a run each access is at its own image and offset and the table is empty if and only
if no seek of `dsim_ReadHeader` fails, and no blank or `END` card of `dsim_WriteHeader` is written in part.
-/

namespace Ndhs.Dsim

open Kwdb Text Function Machine

/-! ## The state -/

/-- `struct dsim_fio` -/
structure Fio where
  dsim : Nat
  mode : Bool
  fpos : Nat

/-- A header of an image file. -/
structure Hdr where
  offset : Nat
  maxkeywords : Nat
  nreserved : Nat
  reserved : List Card

/-- The parts of `struct dsimage` that header i/o uses. -/
structure Desc where
  configured : Bool
  configuring : Bool
  mapped : Bool
  nimages : Nat
  headers : Nat → Hdr
  filesize : Nat
  /-- the file -/
  bytes : Str
  /-- the offset of the file descriptor -/
  pos : Nat

/-- A read or a write: the image file and offset that were meant, and those that were accessed. -/
structure Access where
  caller : Nat
  want : Nat
  dsim : Nat
  off : Nat

structure St where
  table : Nat → Option Fio
  ds : Nat → Desc
  tick : Nat
  trace : List Access

/-- `MAX_FD` -/
def maxFd : Nat := 32

namespace St

variable (s : St)

def setDs (d : Nat) (x : Desc) : St := { s with ds := update s.ds d x }

def setSlot (i : Nat) (x : Option Fio) : St := { s with table := update s.table i x }

/-- A question to the environment. -/
def ask : St := { s with tick := s.tick + 1 }

def record (a : Access) : St := { s with trace := a :: s.trace }

end St

/-! ## The file emulator -/

/-- `ds_open` -/
def dsOpen (s : St) (d : Nat) (mode : Bool) : St × Int :=
  match (List.range maxFd).find? fun i => (s.table i).isNone with
  | some i => (s.setSlot i (some ⟨d, mode, 0⟩), i)
  | none => (s, -1)

/-- `ds_close` -/
def dsClose (s : St) (fd : Nat) : St := if maxFd ≤ fd then s else s.setSlot fd none

/-- Ordinary file i/o is performed. -/
def Desc.isFile (ds : Desc) : Bool := !ds.configured || !ds.mapped

/-- `ds_lseek`: whether the return value, which is an `int`, is not negative. There is no result if the slot is
empty. -/
def dsLseek (env : Nat → Bool) (s : St) (fd off : Nat) : Option (St × Bool) :=
  (s.table fd).map fun fp =>
    let ds := s.ds fp.dsim
    if ds.isFile then
      if env s.tick then (s.ask.setDs fp.dsim { ds with pos := off }, decide (0 ≤ int32 off)) else (s.ask, false)
    else (s.setSlot fd (some { fp with fpos := off }), decide (0 ≤ int32 off))

/-- `ds_read` of a card; none if it gives less. -/
def dsRead (env : Nat → Bool) (caller want : Nat) (s : St) (fd : Nat) : Option (St × Option Str) :=
  (s.table fd).map fun fp =>
    let ds := s.ds fp.dsim
    if ds.isFile then
      let s' := s.ask.record ⟨caller, want, fp.dsim, ds.pos⟩
      let card := (ds.bytes.drop ds.pos).take 80
      if env s.tick && card.length == 80 then (s'.setDs fp.dsim { ds with pos := ds.pos + 80 }, some card)
      else (s', none)
    else if ds.filesize < fp.fpos then (s, none)
    else
      let nbytes := min ds.filesize (fp.fpos + 80) - fp.fpos
      let s' := s.record ⟨caller, want, fp.dsim, fp.fpos⟩
      let s' := s'.setSlot fd (some { fp with fpos := fp.fpos + nbytes })
      (s', if nbytes = 80 then some ((ds.bytes.drop fp.fpos).take 80) else none)

/-- The file with a string written at an offset. -/
def writeAt (bytes : Str) (pos : Nat) (s : Str) : Str :=
  bytes.take pos ++ List.replicate (pos - bytes.length) '\x00' ++ s ++ bytes.drop (pos + s.length)

/-- `ds_write` of a card; whether all of it is written. -/
def dsWrite (env : Nat → Bool) (caller want : Nat) (s : St) (fd : Nat) (card : Str) : Option (St × Bool) :=
  (s.table fd).map fun fp =>
    let ds := s.ds fp.dsim
    if ds.isFile then
      let s' := s.ask.record ⟨caller, want, fp.dsim, ds.pos⟩
      if env s.tick then
        (s'.setDs fp.dsim { ds with bytes := writeAt ds.bytes ds.pos card, pos := ds.pos + 80 }, true)
      else (s', false)
    else if ds.filesize < fp.fpos then (s, false)
    else
      let nbytes := min ds.filesize (fp.fpos + 80) - fp.fpos
      let s' := s.record ⟨caller, want, fp.dsim, fp.fpos⟩
      let s' := s'.setDs fp.dsim { ds with bytes := writeAt ds.bytes fp.fpos (card.take nbytes) }
      (s'.setSlot fd (some { fp with fpos := fp.fpos + nbytes }), nbytes == 80)

/-! ## Reading a header -/

/-- The loop of `kwdb_ReadFITS` over `ds_read`, after the cards `cards`: the cards that are entered, or none if an
entry could not be added. The number of rounds is bounded by the length of the file; there is no result if it does not
suffice. -/
def readLoop (env : Nat → Bool) (caller fd maxcards : Nat) : Nat → Nat → List Str → St → Option (St × Option (List Str))
  | 0, _, _, _ => none
  | n + 1, want, cards, s =>
    if maxcards ≠ 0 ∧ maxcards ≤ cards.length then some (s, some cards)
    else
      (dsRead env caller want s fd).bind fun (s, card) =>
        match card with
        | none => some (s, some cards)
        | some card =>
          if streq (readKeyword card) ['E', 'N', 'D'] then some (s, some cards)
          else if env s.tick then readLoop env caller fd maxcards n (want + 80) (cards ++ [card]) s.ask
          else some (s.ask, none)

/-- The length of the file, mapped or not -/
def Desc.size (ds : Desc) : Nat := max ds.bytes.length ds.filesize

/-- The rounds of the loop: the cards of the file that the slot belongs to. -/
def St.rounds (s : St) (fd : Nat) : Nat :=
  match s.table fd with
  | none => 0
  | some fp => (s.ds fp.dsim).size / 80 + 1

/-- The entries of a header. The comment of a text card is that of the card before; it is not used here. -/
def headerEntries (cards : List Str) : List Card := (readEntries [] cards).rdropWhile Card.isEmptyText

/-- The offset of a header, as `dsim_ReadHeader` computes it -/
def readOffset (ds : Desc) (image : Nat) : Nat := if image = 0 then 0 else (ds.headers image).offset

/-- `dsim_ReadHeader` of a file that is configured, or is being configured. -/
def readHeader (env : Nat → Bool) (s : St) (d image maxentries : Nat) : Option (St × Option (List Card)) :=
  if (s.ds d).nimages < image then some (s, none)
  else if !env s.tick then some (s.ask, none)
  else
    let (s, r) := dsOpen s.ask d false
    -- the value of the comparison
    let fd := if r < 0 then 1 else 0
    if fd ≠ 0 then some (s, none)
    else
      let offset := readOffset (s.ds d) image
      (dsLseek env s fd offset).bind fun (s, ok) =>
        -- the slot is not released
        if !ok then some (s, none)
        else
          (readLoop env d fd maxentries (s.rounds fd) offset [] s).map fun (s, cards) =>
            (dsClose s fd, cards.map headerEntries)

/-! ## Writing a header -/

/-- Delete the most recent entry with a keyword. -/
def deleteLatest (keyword : Str) (kwdb : List Card) : List Card :=
  match (kwdb.reverse.findIdx? fun c => c.keyword != [] && streq c.keyword keyword) with
  | none => kwdb
  | some i => (kwdb.reverse.eraseIdx i).reverse

/-- Write cards one after the other; whether all were written. -/
def writeCards (env : Nat → Bool) (caller fd : Nat) : List Str → Nat → St → Option (St × Bool)
  | [], _, s => some (s, true)
  | card :: cards, want, s =>
    (dsWrite env caller want s fd card).bind fun (s, ok) =>
      if ok then writeCards env caller fd cards (want + 80) s else some (s, false)

/-- `END`, and blanks -/
def lastCard : Str := ['E', 'N', 'D'] ++ List.replicate 77 ' '

/-- The cards behind those of the database: blank cards, and the `END` card. -/
def fillCards (maxcards used : Nat) : List Str :=
  List.replicate (maxcards - (used + 1)) (List.replicate 80 ' ') ++ [lastCard]

/-- `dsim_WriteHeader` up to the blank cards, of a file that is configured, or is being configured: whether it gets
there, still with the slot, and the number of entries of the database that are left. -/
def writeEntries (env : Nat → Bool) (s : St) (d image : Nat) (kwdb : List Card) : Option (St × Bool × Nat) :=
  if (s.ds d).nimages < image then some (s, false, kwdb.length)
  else
    let h := (s.ds d).headers image
    (readHeader env s d image h.nreserved).bind fun (s, rskw) =>
      match rskw with
      | none => some (s, false, kwdb.length)
      | some rskw =>
        let kwdb := deleteLatest ['E', 'N', 'D'] (rskw.foldl (fun kwdb c => deleteLatest c.keyword kwdb) kwdb)
        let (s, r) := dsOpen s d true
        let fd := if r < 0 then 1 else 0
        if fd ≠ 0 then some (dsClose s fd, false, kwdb.length)
        else
          let offset := h.offset + h.nreserved * 80
          (dsLseek env s fd offset).bind fun (s, ok) =>
            if !ok then some (dsClose s fd, false, kwdb.length)
            else if h.maxkeywords < h.nreserved + kwdb.length + 1 then some (dsClose s fd, false, kwdb.length)
            else
              (writeCards env d fd (kwdb.map Card.format) offset s).map fun (s, ok) =>
                if !ok then (dsClose s fd, false, kwdb.length) else (s, true, kwdb.length)

/-- `dsim_WriteHeader`: whether it succeeds, and the number of entries that are left. -/
def writeHeader (env : Nat → Bool) (s : St) (d image : Nat) (kwdb : List Card) : Option (St × Bool × Nat) :=
  let h := (s.ds d).headers image
  (writeEntries env s d image kwdb).bind fun (s, ok, len) =>
    if !ok then some (s, false, len)
    else
      (writeCards env d 0 (fillCards h.maxkeywords (h.nreserved + len)) (h.offset + h.nreserved * 80 + 80 * len)
          s).map fun (s, ok) =>
        -- the function returns without releasing the slot
        if !ok then (s, false, len) else (dsClose s 0, true, len)

/-! ## Configuring -/

def Desc.setReserved (ds : Desc) (image nreserved : Nat) : Desc :=
  { ds with headers := update ds.headers image { ds.headers image with nreserved } }

/-- Write the reserved keywords to `n` headers, from number `image` on. -/
def configureHeaders (env : Nat → Bool) (d : Nat) : Nat → Nat → St → Option (St × Bool)
  | 0, _, s => some (s, true)
  | n + 1, image, s =>
    if !env s.tick then some (s.ask, false)
    else
      (writeHeader env s.ask d image ((s.ds d).headers image).reserved).bind fun (s, ok, len) =>
        if !ok then some (s, false)
        else configureHeaders env d n (image + 1) (s.setDs d ((s.ds d).setReserved image len))

/-- `dsim_Configure` -/
def configure (env : Nat → Bool) (s : St) (d : Nat) : Option (St × Bool) :=
  let s := s.setDs d { s.ds d with configuring := true }
  if (s.ds d).nimages = 0 then some (s, true)
  else
    (configureHeaders env d ((s.ds d).nimages + 1) 0 s).map fun (s, ok) =>
      -- set the physical file size, and map the file
      if !ok then (s, false)
      else if !env s.tick then (s.ask, false)
      else
        let ds := s.ds d
        (s.ask.ask.setDs d
          { ds with
            bytes := writeAt ds.bytes (ds.filesize - 1) ['\x00'], pos := ds.filesize
            configured := true, configuring := false, mapped := env (s.tick + 1) }, true)

/-- A file is configured by the first i/o operation; whether this succeeds. -/
def ready (env : Nat → Bool) (s : St) (d : Nat) : Option (St × Bool) :=
  if !(s.ds d).configured && !(s.ds d).configuring then configure env s d else some (s, true)

/-! ## Runs -/

/-- A call on one of the open image files. -/
inductive Op where
  | read (d image maxentries : Nat)
  | write (d image : Nat) (kwdb : List Card)

def step (env : Nat → Bool) (s : St) : Op → Option St
  | .read d image maxentries =>
    (ready env s d).bind fun (s, ok) =>
      if ok then (readHeader env s d image maxentries).map Prod.fst else some s
  | .write d image kwdb =>
    (ready env s d).bind fun (s, ok) =>
      if ok then (writeHeader env s d image kwdb).map Prod.fst else some s

/-- Each access was at its own image file and offset, and all slots are released. -/
structure Disciplined (s : St) : Prop where
  accesses : ∀ a ∈ s.trace, a.dsim = a.caller ∧ a.off = a.want
  released : ∀ i, s.table i = none

/-! ## The failures that leave a slot behind -/

/-- The seek of `dsim_ReadHeader` succeeds, if it comes to it. -/
def SeekOk (env : Nat → Bool) (s : St) (d image : Nat) : Prop :=
  image ≤ (s.ds d).nimages → env s.tick →
    ((s.ds d).isFile → env (s.tick + 1)) ∧ 0 ≤ int32 (readOffset (s.ds d) image)

/-- `n` cards from an offset on can be written: each write to the file succeeds, or they lie in the mapped file. -/
def Granted (env : Nat → Bool) (s : St) (d p n : Nat) : Prop :=
  if (s.ds d).isFile then ∀ k < n, env (s.tick + k) else p + 80 * n ≤ (s.ds d).filesize

/-- And the blank and `END` cards of `dsim_WriteHeader` are written whole, if it comes to them. -/
def WriteOk (env : Nat → Bool) (s : St) (d image : Nat) (kwdb : List Card) : Prop :=
  SeekOk env s d image ∧
    ∀ r ∈ writeEntries env s d image kwdb, r.2.1 →
      let h := (s.ds d).headers image
      Granted env r.1 d (h.offset + h.nreserved * 80 + 80 * r.2.2)
        (fillCards h.maxkeywords (h.nreserved + r.2.2)).length

/-- So for each header that `configureHeaders` writes. -/
def HeadersOk (env : Nat → Bool) (d : Nat) : Nat → Nat → St → Prop
  | 0, _, _ => True
  | n + 1, image, s =>
    env s.tick →
      WriteOk env s.ask d image ((s.ds d).headers image).reserved ∧
        ∀ r ∈ writeHeader env s.ask d image ((s.ds d).headers image).reserved, r.2.1 →
          HeadersOk env d n (image + 1) (r.1.setDs d ((r.1.ds d).setReserved image r.2.2))

/-- So for `configure`, ... -/
def ConfigureOk (env : Nat → Bool) (s : St) (d : Nat) : Prop :=
  (s.ds d).nimages ≠ 0 →
    HeadersOk env d ((s.ds d).nimages + 1) 0 (s.setDs d { s.ds d with configuring := true })

/-- ... and for a file that a call may have to configure. -/
def ReadyOk (env : Nat → Bool) (s : St) (d : Nat) : Prop :=
  !(s.ds d).configured && !(s.ds d).configuring → ConfigureOk env s d

/-- No seek of `dsim_ReadHeader` fails in the call, and all blank and `END` cards are written whole. -/
def NoFault (env : Nat → Bool) (s : St) : Op → Prop
  | .read d image _ => ReadyOk env s d ∧ ∀ r ∈ ready env s d, r.2 → SeekOk env r.1 d image
  | .write d image kwdb => ReadyOk env s d ∧ ∀ r ∈ ready env s d, r.2 → WriteOk env r.1 d image kwdb

/-! ## A slot that is held -/

section Held

variable {env : Nat → Bool} {s t : St} {d p : Nat}

/-- Where the next access through a slot is -/
def St.position (s : St) (fp : Fio) : Nat := if (s.ds fp.dsim).isFile then (s.ds fp.dsim).pos else fp.fpos

/-- Slot 0 is held for an image file, the others are free, and the accesses were right. -/
structure Held (d : Nat) (s : St) : Prop where
  accesses : ∀ a ∈ s.trace, a.dsim = a.caller ∧ a.off = a.want
  slot : ∃ fp, fp.dsim = d ∧ s.table = update (fun _ => none) 0 (some fp)

/-- And the next access is at `p`. -/
structure HeldAt (d p : Nat) (s : St) : Prop where
  accesses : ∀ a ∈ s.trace, a.dsim = a.caller ∧ a.off = a.want
  slot : ∃ fp, fp.dsim = d ∧ s.position fp = p ∧ s.table = update (fun _ => none) 0 (some fp)

theorem HeldAt.held (h : HeldAt d p s) : Held d s := by
  obtain ⟨fp, hd, -, ht⟩ := h.slot
  exact ⟨h.accesses, fp, hd, ht⟩

theorem Held.not_disciplined (h : Held d s) : ¬ Disciplined s := by
  intro hs
  obtain ⟨fp, -, ht⟩ := h.slot
  have h0 := hs.released 0
  rw [ht] at h0
  simp at h0

theorem dsOpen_disciplined (h : Disciplined s) (mode : Bool) :
    ∃ t, dsOpen s d mode = (t, 0) ∧ Held d t ∧ t.ds = s.ds ∧ t.tick = s.tick := by
  have hfind : ((List.range maxFd).find? fun i => (s.table i).isNone) = some 0 := by
    rw [maxFd, List.range_succ_eq_map]
    exact List.find?_cons_of_pos (by rw [h.released]; rfl)
  have htab : s.table = fun _ => none := funext h.released
  refine ⟨s.setSlot 0 (some ⟨d, mode, 0⟩), ?_, ⟨h.accesses, ⟨d, mode, 0⟩, rfl, ?_⟩, rfl, rfl⟩
  · simp [dsOpen, hfind]
  · simp [St.setSlot, htab]

theorem dsClose_held (h : Held d s) : Disciplined (dsClose s 0) := by
  obtain ⟨fp, -, ht⟩ := h.slot
  refine ⟨h.accesses, fun i => ?_⟩
  by_cases hi : i = 0
  · simp [dsClose, maxFd, St.setSlot, hi]
  · simp [dsClose, maxFd, St.setSlot, ht]

/-- The questions to the system for one access -/
def Desc.questions (ds : Desc) : Nat := if ds.isFile then 1 else 0

variable (env) in
theorem dsLseek_held (h : Held d s) (off : Nat) :
    ∃ t ok, dsLseek env s 0 off = some (t, ok) ∧ Held d t ∧ (ok → HeldAt d off t) ∧
      (ok = true ↔ ((s.ds d).isFile → env s.tick) ∧ 0 ≤ int32 off) ∧
      t.tick = s.tick + (s.ds d).questions ∧ (t.ds d).size = (s.ds d).size := by
  obtain ⟨fp, rfl, ht⟩ := h.slot
  have h0 : s.table 0 = some fp := by simp [ht]
  rw [Desc.questions]
  by_cases hf : (s.ds fp.dsim).isFile
  · by_cases he : env s.tick
    · have hat : HeldAt fp.dsim off (s.ask.setDs fp.dsim { s.ds fp.dsim with pos := off }) := by
        refine ⟨h.accesses, fp, rfl, ?_, ht⟩
        simp only [Desc.isFile] at hf
        simp [St.position, St.setDs, Desc.isFile, hf]
      refine ⟨_, decide (0 ≤ int32 off), by simp [dsLseek, h0, hf, he], hat.held, fun _ => hat, by simp [he], ?_, ?_⟩
      · rw [if_pos hf]
        rfl
      · simp [St.setDs, Desc.size]
    · refine ⟨s.ask, false, by simp [dsLseek, h0, hf, he], ⟨h.accesses, fp, rfl, ht⟩, by simp, by simp [hf, he], ?_, rfl⟩
      rw [if_pos hf]
      rfl
  · have hat : HeldAt fp.dsim off (s.setSlot 0 (some { fp with fpos := off })) := by
      refine ⟨h.accesses, { fp with fpos := off }, rfl, ?_, by simp [St.setSlot, ht]⟩
      simp [St.position, St.setSlot, hf]
    refine ⟨_, decide (0 ≤ int32 off), by simp [dsLseek, h0, hf], hat.held, fun _ => hat, by simp [hf], ?_, rfl⟩
    rw [if_neg hf]
    rfl

/-- An access at the place that was meant is a right one. -/
theorem HeldAt.record (h : HeldAt d p s) {fp : Fio} (hd : fp.dsim = d) :
    ∀ a ∈ (s.record ⟨d, p, fp.dsim, p⟩).trace, a.dsim = a.caller ∧ a.off = a.want := by
  intro a ha
  rcases List.mem_cons.mp ha with rfl | ha
  · exact ⟨hd, rfl⟩
  · exact h.accesses a ha

variable (env) in
theorem dsRead_held (h : HeldAt d p s) :
    ∃ t card, dsRead env d p s 0 = some (t, card) ∧ Held d t ∧
      (card.isSome → HeldAt d (p + 80) t ∧ p + 80 ≤ (s.ds d).size) ∧ (t.ds d).size = (s.ds d).size := by
  obtain ⟨fp, rfl, hp, ht⟩ := h.slot
  have h0 : s.table 0 = some fp := by simp [ht]
  by_cases hf : (s.ds fp.dsim).isFile
  · have hpos : (s.ds fp.dsim).pos = p := by simpa [St.position, hf] using hp
    by_cases he : (env s.tick && (((s.ds fp.dsim).bytes.drop p).take 80).length == 80) = true
    · have hat : HeldAt fp.dsim (p + 80)
          ((s.ask.record ⟨fp.dsim, p, fp.dsim, p⟩).setDs fp.dsim { s.ds fp.dsim with pos := p + 80 }) := by
        refine ⟨h.record rfl, fp, rfl, ?_, ht⟩
        simp only [Desc.isFile] at hf
        simp [St.position, St.setDs, Desc.isFile, hf]
      refine ⟨_, some (((s.ds fp.dsim).bytes.drop p).take 80), ?_, hat.held, fun _ => ⟨hat, ?_⟩, ?_⟩
      · simp only [dsRead, h0, Option.map_some, hf, if_true, hpos]
        rw [if_pos he]
      · simp only [Bool.and_eq_true, beq_iff_eq, List.length_take, List.length_drop] at he
        simp only [Desc.size]
        omega
      · simp [St.setDs, Desc.size]
    · refine ⟨s.ask.record ⟨fp.dsim, p, fp.dsim, p⟩, none, ?_, ⟨h.record rfl, fp, rfl, ht⟩, by simp, rfl⟩
      simp only [dsRead, h0, Option.map_some, hf, if_true, hpos]
      rw [if_neg he]
  · have hpos : fp.fpos = p := by simpa [St.position, hf] using hp
    by_cases hl : (s.ds fp.dsim).filesize < p
    · exact ⟨s, none, by simp [dsRead, h0, hf, hpos, hl], h.held, by simp, rfl⟩
    · set nbytes := min (s.ds fp.dsim).filesize (p + 80) - p with hn
      have hat : HeldAt fp.dsim (p + nbytes)
          ((s.record ⟨fp.dsim, p, fp.dsim, p⟩).setSlot 0 (some { fp with fpos := p + nbytes })) := by
        refine ⟨h.record rfl, { fp with fpos := p + nbytes }, rfl, ?_, by simp [St.setSlot, St.record, ht]⟩
        simp [St.position, St.setSlot, St.record, hf]
      refine ⟨_, if nbytes = 80 then some (((s.ds fp.dsim).bytes.drop p).take 80) else none,
        by simp [dsRead, h0, hf, hpos, hl, ← hn], hat.held, fun hc => ?_, rfl⟩
      have h80 : nbytes = 80 := by
        by_contra hne
        simp [hne] at hc
      refine ⟨by rw [h80] at hat; simpa [h80] using hat, ?_⟩
      simp only [Desc.size]
      omega

theorem granted_file {n : Nat} (hf : (s.ds d).isFile) : Granted env s d p n ↔ ∀ k < n, env (s.tick + k) :=
  iff_of_eq (if_pos hf)

theorem granted_mapped {n : Nat} (hf : ¬ (s.ds d).isFile) : Granted env s d p n ↔ p + 80 * n ≤ (s.ds d).filesize :=
  iff_of_eq (if_neg hf)

theorem Granted.mono {m n : Nat} (h : Granted env s d p n) (hle : m ≤ n) : Granted env s d p m := by
  by_cases hf : (s.ds d).isFile
  · rw [granted_file hf] at h ⊢
    exact fun k hk => h k (Nat.lt_of_lt_of_le hk hle)
  · rw [granted_mapped hf] at h ⊢
    omega

variable (env) in
/-- A card is written whole if the answer is yes, and what can be written behind it is what could be before. -/
theorem dsWrite_held (h : HeldAt d p s) (card : Str) :
    ∃ t ok, dsWrite env d p s 0 card = some (t, ok) ∧ Held d t ∧ (ok → HeldAt d (p + 80) t) ∧
      (ok = true ↔ Granted env s d p 1) ∧
      (ok → ∀ n, Granted env t d (p + 80) n ↔ Granted env s d p (n + 1)) := by
  obtain ⟨fp, rfl, hp, ht⟩ := h.slot
  have h0 : s.table 0 = some fp := by simp [ht]
  by_cases hf : (s.ds fp.dsim).isFile
  · have hpos : (s.ds fp.dsim).pos = p := by simpa [St.position, hf] using hp
    by_cases he : env s.tick
    · have hfile : ((s.ds fp.dsim).configured = false ∨ (s.ds fp.dsim).mapped = false) := by
        simpa [Desc.isFile] using hf
      set t := (s.ask.record ⟨fp.dsim, p, fp.dsim, p⟩).setDs fp.dsim
        { s.ds fp.dsim with bytes := writeAt (s.ds fp.dsim).bytes p card, pos := p + 80 } with htdef
      have hft : (t.ds fp.dsim).isFile := by simp [htdef, St.setDs, Desc.isFile, hfile]
      have hat : HeldAt fp.dsim (p + 80) t :=
        ⟨h.record rfl, fp, rfl, by simp only [St.position, hft, if_true]; simp [htdef, St.setDs], ht⟩
      refine ⟨t, true, by simp [dsWrite, h0, hf, he, hpos, htdef], hat.held, fun _ => hat,
        by simp [granted_file hf, he], fun _ n => ?_⟩
      rw [granted_file hft, granted_file hf, Nat.forall_lt_succ_left]
      have htick : t.tick = s.tick + 1 := rfl
      simp [htick, he, Nat.add_assoc, Nat.add_comm 1]
    · exact ⟨s.ask.record ⟨fp.dsim, p, fp.dsim, p⟩, false, by simp [dsWrite, h0, hf, he, hpos],
        ⟨h.record rfl, fp, rfl, ht⟩, by simp, by simp [granted_file hf, he], by simp⟩
  · have hpos : fp.fpos = p := by simpa [St.position, hf] using hp
    by_cases hl : (s.ds fp.dsim).filesize < p
    · refine ⟨s, false, by simp [dsWrite, h0, hf, hpos, hl], h.held, by simp, ?_, by simp⟩
      rw [granted_mapped hf]
      simp
      omega
    · set nbytes := min (s.ds fp.dsim).filesize (p + 80) - p with hn
      set t := ((s.record ⟨fp.dsim, p, fp.dsim, p⟩).setDs fp.dsim
        { s.ds fp.dsim with bytes := writeAt (s.ds fp.dsim).bytes p (card.take nbytes) }).setSlot 0
          (some { fp with fpos := p + nbytes }) with htdef
      have hft : ¬ (t.ds fp.dsim).isFile := by simpa [htdef, St.setDs, St.setSlot, Desc.isFile] using hf
      have hat : HeldAt fp.dsim (p + nbytes) t := by
        refine ⟨h.record rfl, { fp with fpos := p + nbytes }, rfl, ?_,
          by simp [htdef, St.setSlot, St.setDs, St.record, ht]⟩
        simp only [St.position, hft]
        simp
      refine ⟨t, nbytes == 80, by simp [dsWrite, h0, hf, hpos, hl, htdef, ← hn], hat.held, fun hc => ?_, ?_, fun _ n => ?_⟩
      · have h80 : nbytes = 80 := by simpa using hc
        simpa [h80] using hat
      · rw [granted_mapped hf, beq_iff_eq]
        omega
      · have hsize : (t.ds fp.dsim).filesize = (s.ds fp.dsim).filesize := by simp [htdef, St.setDs, St.setSlot]
        rw [granted_mapped hft, granted_mapped hf, hsize]
        omega

variable (env) in
/-- The loop keeps the slot. A card that is read lies in the file, so the rounds suffice. -/
theorem readLoop_held (maxcards n : Nat) (cards : List Str) (h : HeldAt d p s)
    (hn : (s.ds d).size < p + 80 * (n + 1)) :
    ∃ t r, readLoop env d 0 maxcards (n + 1) p cards s = some (t, r) ∧ Held d t := by
  induction n generalizing p cards s with
  | zero =>
    rw [readLoop]
    split
    · exact ⟨s, some cards, rfl, h.held⟩
    · obtain ⟨t, card, hr, ht, hc, -⟩ := dsRead_held env h
      rw [hr, Option.bind_some]
      cases card with
      | none => exact ⟨t, some cards, rfl, ht⟩
      | some card =>
        obtain ⟨-, hin⟩ := hc rfl
        omega
  | succ n ih =>
    rw [readLoop]
    split
    · exact ⟨s, some cards, rfl, h.held⟩
    · obtain ⟨t, card, hr, ht, hc, hsize⟩ := dsRead_held env h
      rw [hr, Option.bind_some]
      cases card with
      | none => exact ⟨t, some cards, rfl, ht⟩
      | some card =>
        obtain ⟨hat, -⟩ := hc rfl
        dsimp only
        split
        · exact ⟨t, some cards, rfl, ht⟩
        · split
          · have hat' : HeldAt d (p + 80) t.ask := ⟨hat.accesses, hat.slot⟩
            have hn' : (t.ask.ds d).size < p + 80 + 80 * (n + 1) := by
              have : (t.ask.ds d).size = (s.ds d).size := hsize
              omega
            exact ih (cards ++ [card]) hat' hn'
          · exact ⟨t.ask, none, rfl, ht.accesses, ht.slot⟩

variable (env) in
theorem writeCards_held (cards : List Str) (h : HeldAt d p s) :
    ∃ t ok, writeCards env d 0 cards p s = some (t, ok) ∧ Held d t ∧
      (ok → HeldAt d (p + 80 * cards.length) t) ∧ (cards ≠ [] → (ok = true ↔ Granted env s d p cards.length)) := by
  induction cards generalizing p s with
  | nil => exact ⟨s, true, rfl, h.held, fun _ => h, fun hne => absurd rfl hne⟩
  | cons card cards ih =>
    obtain ⟨t, ok, hw, ht, hok, hone, hmore⟩ := dsWrite_held env h card
    rw [writeCards, hw, Option.bind_some]
    cases ok with
    | false =>
      refine ⟨t, false, rfl, ht, by simp, fun _ => iff_of_false (by simp) fun hg => ?_⟩
      exact absurd (hone.mpr (hg.mono (Nat.succ_pos _))) (by simp)
    | true =>
      obtain ⟨u, ok, hu, hheld, hat, hrest⟩ := ih (hok rfl)
      refine ⟨u, ok, hu, hheld, fun h => ?_, fun _ => ?_⟩
      · have hlen : p + 80 * (card :: cards).length = p + 80 + 80 * cards.length := by
          rw [List.length_cons]
          omega
        rw [hlen]
        exact hat h
      · rw [List.length_cons, ← hmore rfl]
        cases cards with
        | nil =>
          cases hu
          exact iff_of_true rfl ((hmore rfl 0).mpr (hone.mp rfl))
        | cons card' cards => exact hrest (by simp)

/-- The rounds of the loop reach behind the file. -/
theorem HeldAt.rounds (h : HeldAt d p s) : ∃ n, s.rounds 0 = n + 1 ∧ (s.ds d).size < p + 80 * (n + 1) := by
  obtain ⟨fp, rfl, -, ht⟩ := h.slot
  refine ⟨(s.ds fp.dsim).size / 80, by simp [St.rounds, ht], ?_⟩
  omega

end Held

/-! ## The calls -/

section Calls

variable {env : Nat → Bool} {s t u : St} {ok : Bool} {d : Nat}

/-- How a call ends: with all slots released if `q`; otherwise it fails and leaves one behind. -/
def Ends (q : Prop) (t : St) (ok : Bool) : Prop := (Disciplined t ∧ q) ∨ (¬ Disciplined t ∧ ¬ q ∧ ok = false)

variable {q r : Prop}

theorem Ends.of_true (h : Disciplined t) (hq : q) : Ends q t ok := .inl ⟨h, hq⟩

theorem Disciplined.ask (h : Disciplined s) : Disciplined s.ask := ⟨h.accesses, h.released⟩

theorem Disciplined.setDs (h : Disciplined s) (d : Nat) (x : Desc) : Disciplined (s.setDs d x) :=
  ⟨h.accesses, h.released⟩

/-- A call that succeeded released its slots. -/
theorem Ends.disciplined (h : Ends q t true) : Disciplined t ∧ q := by
  rcases h with h | ⟨-, -, h⟩
  · exact h
  · cases h

/-- A slot that is held is closed, ... -/
theorem Held.close (h : Held d t) (hq : q) (ok : Bool) : Ends q (dsClose t 0) ok := .of_true (dsClose_held h) hq

/-- ... or left behind. -/
theorem Held.fault (h : Held d t) (hq : ¬ q) : Ends q t false := .inr ⟨h.not_disciplined, hq, rfl⟩

theorem Ends.forget (h : Ends q t ok) : Ends q t false := by
  rcases h with h | ⟨hd, hq, -⟩
  · exact .inl h
  · exact .inr ⟨hd, hq, rfl⟩

theorem Ends.congr (h : Ends q t ok) (hqr : q ↔ r) : Ends r t ok := by
  rwa [Ends, ← hqr]

/-- The call that follows one that succeeded. -/
theorem Ends.next (h : Ends r t ok) (hq : q) : Ends (q ∧ (true → r)) t ok :=
  h.congr ⟨fun hr => ⟨hq, fun _ => hr⟩, fun h => h.2 rfl⟩

/-- A call that failed is the last one. -/
theorem Ends.last (h : Ends q t ok) (hr : r) : Ends (q ∧ r) t ok := h.congr (and_iff_left hr).symm

variable (env) in
theorem readHeader_ends (h : Disciplined s) (image maxentries : Nat) :
    ∃ t r, readHeader env s d image maxentries = some (t, r) ∧ Ends (SeekOk env s d image) t r.isSome := by
  unfold readHeader
  split
  · rename_i himage
    exact ⟨s, none, rfl, .of_true h fun hle => absurd himage (Nat.not_lt.mpr hle)⟩
  rename_i himage
  split
  · rename_i hmem
    exact ⟨s.ask, none, rfl, .of_true h.ask fun _ henv => by simp [henv] at hmem⟩
  rename_i hmem
  obtain ⟨s₁, ho, h₁, hds, htick⟩ := dsOpen_disciplined (d := d) h.ask false
  simp only [ho, lt_irrefl, if_false, ne_eq, not_true]
  obtain ⟨s₂, ok, hl, h₂, hat, hok, -, hsize⟩ := dsLseek_held env h₁ (readOffset (s₁.ds d) image)
  rw [hl, Option.bind_some]
  have hseek : SeekOk env s d image ↔ ok = true := by
    rw [hok, hds, htick]
    have hmem : env s.tick := by simpa using hmem
    exact ⟨fun h => h (Nat.not_lt.mp himage) hmem, fun h _ _ => h⟩
  cases ok with
  | false => exact ⟨s₂, none, rfl, h₂.fault fun h => nomatch hseek.mp h⟩
  | true =>
    obtain ⟨n, hn, hsize⟩ := (hat rfl).rounds
    obtain ⟨s₃, r, hr, h₃⟩ := readLoop_held env maxentries n [] (hat rfl) hsize
    simp only [hn, hr, Bool.not_true, Bool.false_eq_true, if_false, Option.map_some]
    exact ⟨_, _, rfl, h₃.close (hseek.mpr rfl) _⟩

variable (env) in
/-- The writing of a header gets to the blank cards with the slot, or it ends before them. -/
theorem writeEntries_ends (h : Disciplined s) (image : Nat) (kwdb : List Card) :
    ∃ t ok len, writeEntries env s d image kwdb = some (t, ok, len) ∧
      (ok = false → Ends (SeekOk env s d image) t false) ∧
      (ok = true → SeekOk env s d image ∧ HeldAt d
        (((s.ds d).headers image).offset + ((s.ds d).headers image).nreserved * 80 + 80 * len) t) := by
  rw [writeEntries]
  by_cases himage : (s.ds d).nimages < image
  · refine ⟨s, false, _, if_pos himage, fun _ => .of_true h fun hle => ?_, nofun⟩
    exact absurd himage (Nat.not_lt.mpr hle)
  rw [if_neg himage]
  dsimp only
  obtain ⟨s₁, rskw, hr, h₁⟩ := readHeader_ends env (d := d) h image ((s.ds d).headers image).nreserved
  rw [hr, Option.bind_some]
  cases rskw with
  | none => exact ⟨s₁, false, _, rfl, fun _ => h₁, nofun⟩
  | some rskw =>
    obtain ⟨h₁, hseek⟩ := h₁.disciplined
    dsimp only
    generalize deleteLatest ['E', 'N', 'D'] (rskw.foldl (fun kwdb c => deleteLatest c.keyword kwdb) kwdb) = kwdb
    obtain ⟨s₂, ho, h₂, -⟩ := dsOpen_disciplined (d := d) h₁ true
    simp only [ho, lt_irrefl, if_false, ne_eq, not_true]
    generalize hoff : ((s.ds d).headers image).offset + ((s.ds d).headers image).nreserved * 80 = offset
    obtain ⟨s₃, ok, hl, h₃, hat, -⟩ := dsLseek_held env h₂ offset
    rw [hl, Option.bind_some]
    cases ok with
    | false => exact ⟨_, _, _, rfl, fun _ => h₃.close hseek _, nofun⟩
    | true =>
      simp only [Bool.not_true, Bool.false_eq_true, if_false]
      by_cases hroom : ((s.ds d).headers image).maxkeywords < ((s.ds d).headers image).nreserved + kwdb.length + 1
      · exact ⟨_, _, _, if_pos hroom, fun _ => h₃.close hseek _, nofun⟩
      rw [if_neg hroom]
      obtain ⟨s₄, ok, hw, h₄, hat₄, -⟩ := writeCards_held env (kwdb.map Card.format) (hat rfl)
      rw [hw, Option.map_some]
      rw [List.length_map] at hat₄
      cases ok with
      | false => exact ⟨_, _, _, rfl, fun _ => h₄.close hseek _, nofun⟩
      | true => exact ⟨_, _, _, rfl, nofun, fun _ => ⟨hseek, hat₄ rfl⟩⟩

variable (env) in
theorem writeHeader_ends (h : Disciplined s) (image : Nat) (kwdb : List Card) :
    ∃ t ok len, writeHeader env s d image kwdb = some (t, ok, len) ∧ Ends (WriteOk env s d image kwdb) t ok := by
  obtain ⟨s₁, ok, len, hentries, hbefore, hat⟩ := writeEntries_ends env (d := d) h image kwdb
  rw [writeHeader, hentries, Option.bind_some]
  cases ok with
  | false =>
    refine ⟨s₁, false, len, rfl, (hbefore rfl).last fun r hr hok => ?_⟩
    obtain rfl : (s₁, false, len) = r := Option.some.inj (hentries.symm.trans hr)
    cases hok
  | true =>
    obtain ⟨hseek, hat⟩ := hat rfl
    obtain ⟨s₂, ok, hw, h₂, -, hfill⟩ := writeCards_held env
      (fillCards ((s.ds d).headers image).maxkeywords (((s.ds d).headers image).nreserved + len)) hat
    have hok : WriteOk env s d image kwdb ↔ ok = true := by
      rw [hfill (by simp [fillCards]), WriteOk, hentries]
      simp [hseek]
    simp only [hw, Bool.not_true, Bool.false_eq_true, if_false, Option.map_some]
    cases ok with
    | false => exact ⟨_, _, _, rfl, h₂.fault fun h => nomatch hok.mp h⟩
    | true => exact ⟨_, _, _, rfl, h₂.close (hok.mpr rfl) _⟩

variable (env) in
theorem configureHeaders_ends (n image : Nat) (h : Disciplined s) :
    ∃ t ok, configureHeaders env d n image s = some (t, ok) ∧ Ends (HeadersOk env d n image s) t ok := by
  induction n generalizing image s with
  | zero => exact ⟨s, true, rfl, .of_true h trivial⟩
  | succ n ih =>
    rw [configureHeaders]
    split
    · rename_i hmem
      exact ⟨s.ask, false, rfl, .of_true h.ask fun henv => by simp [henv] at hmem⟩
    rename_i hmem
    have hmem : env s.tick := by simpa using hmem
    obtain ⟨s₁, ok, len, hw, h₁⟩ := writeHeader_ends env (d := d) h.ask image ((s.ds d).headers image).reserved
    have hheaders : HeadersOk env d (n + 1) image s ↔
        WriteOk env s.ask d image ((s.ds d).headers image).reserved ∧
          (ok → HeadersOk env d n (image + 1) (s₁.setDs d ((s₁.ds d).setReserved image len))) := by
      rw [HeadersOk, hw]
      simp [hmem]
    rw [hw, Option.bind_some]
    cases ok with
    | false => exact ⟨s₁, false, rfl, (h₁.last nofun).congr hheaders.symm⟩
    | true =>
      obtain ⟨h₁, hwrite⟩ := h₁.disciplined
      obtain ⟨s₂, ok, hc, h₂⟩ := ih (image + 1) (h₁.setDs d ((s₁.ds d).setReserved image len))
      exact ⟨s₂, ok, hc, (h₂.next hwrite).congr hheaders.symm⟩

variable (env) in
theorem configure_ends (h : Disciplined s) :
    ∃ t ok, configure env s d = some (t, ok) ∧ Ends (ConfigureOk env s d) t ok := by
  unfold configure
  dsimp only
  have h₀ := h.setDs d { s.ds d with configuring := true }
  have hnimages : ((s.setDs d { s.ds d with configuring := true }).ds d).nimages = (s.ds d).nimages := by
    simp [St.setDs]
  rw [hnimages]
  split
  · rename_i hzero
    exact ⟨_, _, rfl, .of_true h₀ fun hne => absurd hzero hne⟩
  rename_i hne
  obtain ⟨s₁, ok, hc, h₁⟩ := configureHeaders_ends env (d := d) ((s.ds d).nimages + 1) 0 h₀
  have h₁ : Ends (ConfigureOk env s d) s₁ ok := h₁.congr ⟨fun h _ => h, fun h => h hne⟩
  rw [hc, Option.map_some]
  cases ok with
  | false => exact ⟨s₁, false, rfl, h₁⟩
  | true =>
    obtain ⟨h₁, hok⟩ := h₁.disciplined
    simp only [Bool.not_true, Bool.false_eq_true, if_false]
    split
    · exact ⟨_, _, rfl, .of_true h₁.ask hok⟩
    · exact ⟨_, _, rfl, .of_true (h₁.ask.ask.setDs d _) hok⟩

variable (env) in
theorem ready_ends (h : Disciplined s) : ∃ t ok, ready env s d = some (t, ok) ∧ Ends (ReadyOk env s d) t ok := by
  unfold ready
  split
  · rename_i hnew
    obtain ⟨t, ok, hc, hend⟩ := configure_ends env (d := d) h
    exact ⟨t, ok, hc, hend.congr ⟨fun h _ => h, fun h => h hnew⟩⟩
  · rename_i hold
    exact ⟨s, true, rfl, .of_true h fun hnew => absurd hnew hold⟩

variable (env) in
/-- A step ends with the slots released, or one of its failures leaves a slot behind. -/
theorem step_ends (h : Disciplined s) (op : Op) : ∃ t, step env s op = some t ∧ Ends (NoFault env s op) t false := by
  cases op with
  | read d image maxentries =>
    obtain ⟨s₁, ok, hr, h₁⟩ := ready_ends env (d := d) h
    have hfault : NoFault env s (.read d image maxentries) ↔ ReadyOk env s d ∧ (ok → SeekOk env s₁ d image) := by
      rw [NoFault, hr]
      simp
    rw [step, hr, Option.bind_some]
    cases ok with
    | false => exact ⟨s₁, rfl, (h₁.last nofun).congr hfault.symm⟩
    | true =>
      obtain ⟨h₁, hready⟩ := h₁.disciplined
      obtain ⟨s₂, r, hh, h₂⟩ := readHeader_ends env (d := d) h₁ image maxentries
      exact ⟨s₂, by simp [hh], ((h₂.next hready).congr hfault.symm).forget⟩
  | write d image kwdb =>
    obtain ⟨s₁, ok, hr, h₁⟩ := ready_ends env (d := d) h
    have hfault : NoFault env s (.write d image kwdb) ↔ ReadyOk env s d ∧ (ok → WriteOk env s₁ d image kwdb) := by
      rw [NoFault, hr]
      simp
    rw [step, hr, Option.bind_some]
    cases ok with
    | false => exact ⟨s₁, rfl, (h₁.last nofun).congr hfault.symm⟩
    | true =>
      obtain ⟨h₁, hready⟩ := h₁.disciplined
      obtain ⟨s₂, ok, len, hh, h₂⟩ := writeHeader_ends env (d := d) h₁ image kwdb
      exact ⟨s₂, by simp [hh], ((h₂.next hready).congr hfault.symm).forget⟩

end Calls

/-- In every state of a run the accesses are right and the table is empty, if and only if no call fails in a way that
leaves a slot behind. -/
theorem channels_iff (env : Nat → Bool) (s : St) (hs : Disciplined s) (ops : List Op) :
    Always Disciplined (step env) s ops ↔ Steps (NoFault env) (step env) s ops := by
  refine always_iff_steps (I := Disciplined) (fun _ h => h) ?_ ?_ hs
  · intro s op h hok
    obtain ⟨t, ht, ⟨hd, -⟩ | ⟨-, hnot, -⟩⟩ := step_ends env h op
    · exact ⟨t, ht, hd⟩
    · exact absurd hok hnot
  · intro s op t h hn hst hd
    obtain ⟨t', ht, hend⟩ := step_ends env h op
    obtain rfl : t = t' := Option.some.inj (hst.symm.trans ht)
    rcases hend with ⟨-, hok⟩ | ⟨hnd, -⟩
    · exact hn hok
    · exact hnd hd

instance SeekOk.decidable (env : Nat → Bool) (s : St) (d image : Nat) : Decidable (SeekOk env s d image) :=
  inferInstanceAs (Decidable (image ≤ (s.ds d).nimages → env s.tick →
    ((s.ds d).isFile → env (s.tick + 1)) ∧ 0 ≤ int32 (readOffset (s.ds d) image)))

instance Granted.decidable (env : Nat → Bool) (s : St) (d p n : Nat) : Decidable (Granted env s d p n) :=
  inferInstanceAs (Decidable
    (if (s.ds d).isFile then ∀ k < n, env (s.tick + k) else p + 80 * n ≤ (s.ds d).filesize))

instance WriteOk.decidable (env : Nat → Bool) (s : St) (d image : Nat) (kwdb : List Card) :
    Decidable (WriteOk env s d image kwdb) :=
  inferInstanceAs (Decidable (SeekOk env s d image ∧ ∀ r ∈ writeEntries env s d image kwdb, r.2.1 → Granted ..))

instance HeadersOk.decidable (env : Nat → Bool) (d : Nat) : (n image : Nat) → (s : St) →
    Decidable (HeadersOk env d n image s)
  | 0, _, _ => .isTrue trivial
  | n + 1, image, s =>
    have (image : Nat) (s : St) : Decidable (HeadersOk env d n image s) := HeadersOk.decidable env d n image s
    inferInstanceAs (Decidable (env s.tick →
      WriteOk env s.ask d image ((s.ds d).headers image).reserved ∧
        ∀ r ∈ writeHeader env s.ask d image ((s.ds d).headers image).reserved, r.2.1 →
          HeadersOk env d n (image + 1) (r.1.setDs d ((r.1.ds d).setReserved image r.2.2))))

instance ReadyOk.decidable (env : Nat → Bool) (s : St) (d : Nat) : Decidable (ReadyOk env s d) :=
  inferInstanceAs (Decidable (!(s.ds d).configured && !(s.ds d).configuring → (s.ds d).nimages ≠ 0 →
    HeadersOk env d ((s.ds d).nimages + 1) 0 (s.setDs d { s.ds d with configuring := true })))

instance NoFault.decidable (env : Nat → Bool) (s : St) : (op : Op) → Decidable (NoFault env s op)
  | .read d image _ =>
    inferInstanceAs (Decidable (ReadyOk env s d ∧ ∀ r ∈ ready env s d, r.2 → SeekOk env r.1 d image))
  | .write d image kwdb =>
    inferInstanceAs (Decidable (ReadyOk env s d ∧ ∀ r ∈ ready env s d, r.2 → WriteOk env r.1 d image kwdb))

/-- Two image files with one image each, configured and not mapped, and empty. -/
def twoFiles : St where
  table := fun _ => none
  ds := fun _ => ⟨true, false, false, 1, fun _ => ⟨2880, 2, 0, []⟩, 5760, [], 0⟩
  tick := 0
  trace := []

theorem twoFiles_disciplined : Disciplined twoFiles := ⟨by simp [twoFiles], fun _ => rfl⟩

/-- A header is read from each file, and one is written to the second. -/
def twoFilesRun : List Op := [.read 0 1 0, .write 1 1 [], .read 1 1 0]

theorem twoFilesRun_noFault : Steps (NoFault fun _ => true) (step fun _ => true) twoFiles twoFilesRun := by
  decide +kernel

theorem channels_twoFiles :
    Steps (NoFault fun _ => true) (step fun _ => true) twoFiles twoFilesRun ∧
      Always Disciplined (step fun _ => true) twoFiles twoFilesRun :=
  ⟨twoFilesRun_noFault, (channels_iff _ _ twoFiles_disciplined _).mpr twoFilesRun_noFault⟩

/-- The seek in the first file fails: the header of the second file is then read from the first. -/
theorem channels_lost :
    ¬ Always Disciplined (step (· != 1)) twoFiles [.read 0 1 0, .read 1 1 0] ∧
      (run (step (· != 1)) twoFiles [.read 0 1 0, .read 1 1 0]).map (fun t => t.trace.map fun a => (a.caller, a.dsim)) =
        some [(1, 0)] := by
  constructor
  · rintro ⟨-, t, ht, h⟩
    have h0 : (step (· != 1) twoFiles (.read 0 1 0)).map (fun t => (t.table 0).isSome) = some true := by
      decide +kernel
    rw [ht, Option.map_some, h.head.released 0] at h0
    simp at h0
  · decide +kernel

end Ndhs.Dsim
