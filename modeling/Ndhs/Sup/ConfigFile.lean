import Ndhs.Lib.Lines
import Mathlib.Data.List.TakeWhile

/-!
# The configuration file of the supervisor (`supReadConfigFile`)

The file has lines of a task name, a host and a command; a backslash at its end continues a line. `supReadConfigFile`
reads it with `fgets` into a buffer of 512 bytes, and copies the three columns of a line with loops that stop at a
blank, at a newline or at a backslash, but not at the terminator:

    for (i=0, j=0; !isspace(line[i]); i++)
        cp->name[j++] = line[i];

* A line is what `fgets` has put into the buffer, and a pointer into it is the rest of the line from there on, so `[]`
  stands at the terminator.
* `none` is a character behind the terminator that is read, or one that is written outside of a field or of the table.
* A field has the bytes that were written to it; the other ones are zero.
* The bytes are those of any file, also zeros. `isspace` is that of the C locale.

`supReadConfigFile_iff`: the files that are read, by a grammar of their lines. `readsConfig_iff`: the files that are read
safely and, if they are well-formed, into the tasks that they mean.
-/

namespace Ndhs.Sup.ConfigFile

open Text

/-- `SZ_CONFIG_LINE` -/
def szConfigLine : Nat := 512

/-- `SZ_PNAME` -/
def szPname : Nat := 12

/-- `SZ_PHOST` -/
def szPhost : Nat := 32

/-- `SZ_LINE` -/
def szLine : Nat := 1024

/-- `SZ_PROCTABLE` -/
def szProctable : Nat := 128

/-- A field of `n` bytes, cleared before it's written. -/
structure Field (n : Nat) where
  bytes : Str
  fits : bytes.length ≤ n

/-- The string in a field, if it is terminated in the field. -/
def Field.text {n : Nat} (f : Field n) : Option Str :=
  if '\x00' ∈ f.bytes ∨ f.bytes.length < n then some (f.bytes.takeWhile (· != '\x00')) else none

/-- `confTask` -/
structure ConfTask where
  name : Field szPname
  host : Field szPhost
  command : Field szLine

/-- `for (; !isspace (line[i]); i++)`: the characters up to a blank, and the rest. The terminator is no blank. -/
def word : Str → Option (Str × Str)
  | [] => none
  | c :: ip => if isSpace c then some ([], c :: ip) else (word ip).map fun (w, rest) => (c :: w, rest)

/-- `for (; line[i] != '\n' && line[i] != '\\'; i++)`: the characters before, and whether a backslash follows. -/
def piece : Str → Option (Str × Bool)
  | [] => none
  | c :: ip =>
    if c = '\n' then some ([], false)
    else if c = '\\' then some ([], true)
    else (piece ip).map fun (s, more) => (c :: s, more)

/-- The loop that extracts the command, with the lines that follow; it also gives those that it has left. -/
def command : List Str → Str → Option (Str × List Str)
  | [], ip => (piece ip).map fun (s, _) => (s, [])
  | line :: lines, ip =>
    match piece ip with
    | none => none
    | some (s, false) => some (s, line :: lines)
    | some (s, true) => (command lines (line.dropWhile isSpace)).map fun (s', rest) => (s ++ s', rest)

/-- The name, the host and the rest of a line -/
def columns (line : Str) : Option (Str × Str × Str) :=
  (word line).bind fun (name, ip) =>
    (word (ip.dropWhile isSpace)).map fun (host, ip) => (name, host, ip.dropWhile isSpace)

/-- The bytes of a field, which have to be in it. -/
def field (n : Nat) (bytes : Str) : Option (Field n) := if h : bytes.length ≤ n then some ⟨bytes, h⟩ else none

/-- The task of a line, and the lines behind it -/
def readTask (line : Str) (lines : List Str) : Option (ConfTask × List Str) :=
  (columns line).bind fun (name, host, ip) =>
    (command lines ip).bind fun (cmd, rest) =>
      (field szPname name).bind fun name =>
        (field szPhost host).bind fun host =>
          (field szLine cmd).map fun command => (⟨name, host, command⟩, rest)

/-- Comments and blanks are skipped. -/
def isSkipped (line : Str) : Bool :=
  match line with
  | [] => true
  | c :: _ => c == '#' || c == '\n' || c == '\x00'

/-- The loop over the lines, with the number of the next task. It takes at least one line a round. -/
def readLoop : Nat → Nat → List Str → Option (List ConfTask)
  | _, _, [] => some []
  | 0, _, _ :: _ => none
  | fuel + 1, cnum, line :: lines =>
    if isSkipped line then readLoop fuel cnum lines
    else if cnum < szProctable then
      (readTask line lines).bind fun (cp, rest) => (readLoop fuel (cnum + 1) rest).map (cp :: ·)
    else none

/-- `supReadConfigFile` of the file, if it is opened: the table, or `some none` for `ERR`. -/
def supReadConfigFile : Option Str → Option (Option (List ConfTask))
  | none => some none
  | some text =>
    let lines := fgetsAll (szConfigLine - 1) text
    (readLoop lines.length 0 lines).map some

/-! ## The lines that are read -/

/-- The columns of a task -/
structure Entry where
  name : Str
  host : Str
  command : Str

def ConfTask.entry (t : ConfTask) : Entry := ⟨t.name.bytes, t.host.bytes, t.command.bytes⟩

/-- Characters that are no blanks -/
def IsWord (s : Str) : Prop := ∀ c ∈ s, isSpace c = false

/-- One or more blanks -/
def IsGap (s : Str) : Prop := s ≠ [] ∧ ∀ c ∈ s, isSpace c = true

/-- A text does not begin with a blank. -/
def Flush (s : Str) : Prop := ∀ c ∈ s.head?, isSpace c = false

/-- Characters before a newline or a backslash -/
def IsPlain (s : Str) : Prop := ∀ c ∈ s, c ≠ '\n' ∧ c ≠ '\\'

/-- `Command lines ip cmd rest`: the command `cmd` is at the end `ip` of a line and continued in `lines`, with `rest`
behind it. What stands in a line behind a backslash does not matter, and nothing has to follow one in the file. -/
inductive Command : List Str → Str → Str → List Str → Prop
  | ends {lines : List Str} {s t : Str} : IsPlain s → Command lines (s ++ '\n' :: t) s lines
  | last {s t : Str} : IsPlain s → Command [] (s ++ '\\' :: t) s []
  | more {lines rest : List Str} {s t indent ip cmd : Str} : IsPlain s → (∀ c ∈ indent, isSpace c = true) → Flush ip →
      Command lines ip cmd rest → Command ((indent ++ ip) :: lines) (s ++ '\\' :: t) (s ++ cmd) rest

/-- `Readable lines es`: the lines have the tasks `es`, and lines that are skipped. -/
inductive Readable : List Str → List Entry → Prop
  | nil : Readable [] []
  | skip {line : Str} {lines : List Str} {es : List Entry} : isSkipped line = true → Readable lines es →
      Readable (line :: lines) es
  | task {name gap host gap' ip cmd : Str} {lines rest : List Str} {es : List Entry} :
      isSkipped (name ++ gap ++ host ++ gap' ++ ip) = false → IsWord name → IsGap gap → host ≠ [] → IsWord host →
      IsGap gap' → Flush ip → Command lines ip cmd rest → Readable rest es →
      Readable ((name ++ gap ++ host ++ gap' ++ ip) :: lines) (⟨name, host, cmd⟩ :: es)

section Grammar

variable {s t w ip name host cmd rest line : Str} {lines left : List Str} {more : Bool}

theorem dropWhile_blank (hs : ∀ c ∈ s, isSpace c = true) (ht : Flush t) : (s ++ t).dropWhile isSpace = t := by
  rw [List.dropWhile_append_of_pos hs]
  cases t with
  | nil => rfl
  | cons c t => exact List.dropWhile_cons_of_neg (by simp [ht c rfl])

theorem flush_dropWhile (s : Str) : Flush (s.dropWhile isSpace) := by
  intro c hc
  have h := List.head?_dropWhile_not isSpace s
  rw [Option.mem_def.mp hc] at h
  exact h

/-- A text is its blanks and what follows them. -/
theorem exists_blanks (s : Str) : ∃ b, (∀ c ∈ b, isSpace c = true) ∧ s = b ++ s.dropWhile isSpace :=
  ⟨s.takeWhile isSpace, fun _ hc => List.mem_takeWhile_imp hc, (List.takeWhile_append_dropWhile).symm⟩

theorem word_iff : word ip = some (w, rest) ↔ ip = w ++ rest ∧ IsWord w ∧ ∃ c ∈ rest.head?, isSpace c = true := by
  induction ip generalizing w with
  | nil =>
    refine ⟨fun h => (by cases h), ?_⟩
    rintro ⟨h, -, c, hc, -⟩
    rw [(List.append_eq_nil_iff.mp h.symm).2] at hc
    cases hc
  | cons c ip ih =>
    rw [word]
    split
    · next hc =>
      refine ⟨fun h => ?_, ?_⟩
      · cases h
        exact ⟨rfl, by simp [IsWord], c, rfl, hc⟩
      · rintro ⟨h, hw, -⟩
        cases w with
        | nil => rw [h, List.nil_append]
        | cons d w =>
          cases h
          exact absurd hc (by simp [hw c List.mem_cons_self])
    · next hc =>
      rw [Option.map_eq_some_iff]
      constructor
      · rintro ⟨⟨w', r⟩, h, heq⟩
        cases heq
        obtain ⟨rfl, hw, hr⟩ := ih.mp h
        exact ⟨rfl, List.forall_mem_cons.mpr ⟨eq_false_of_ne_true hc, hw⟩, hr⟩
      · rintro ⟨h, hw, hr⟩
        cases w with
        | nil =>
          obtain ⟨d, hd, hblank⟩ := hr
          rw [← (show c :: ip = rest from h)] at hd
          cases hd
          exact absurd hblank hc
        | cons d w =>
          cases h
          exact ⟨(w, rest), ih.mpr ⟨rfl, (List.forall_mem_cons.mp hw).2, hr⟩, rfl⟩

theorem piece_iff : piece ip = some (s, more) ↔ ∃ t, ip = s ++ (if more then '\\' else '\n') :: t ∧ IsPlain s := by
  induction ip generalizing s with
  | nil => exact ⟨fun h => (by cases h), fun ⟨t, h, _⟩ => (by simp at h)⟩
  | cons c ip ih =>
    rw [piece]
    split
    · next hc =>
      constructor
      · intro h
        cases h
        exact ⟨ip, by rw [hc]; rfl, by simp [IsPlain]⟩
      · rintro ⟨t, h, hs⟩
        cases s with
        | nil =>
          rw [hc] at h
          cases more <;> simp_all
        | cons d s =>
          cases h
          exact absurd hc (hs c List.mem_cons_self).1
    · next hc =>
      split
      · next hb =>
        constructor
        · intro h
          cases h
          exact ⟨ip, by rw [hb]; rfl, by simp [IsPlain]⟩
        · rintro ⟨t, h, hs⟩
          cases s with
          | nil =>
            rw [hb] at h
            cases more <;> simp_all
          | cons d s =>
            cases h
            exact absurd hb (hs c List.mem_cons_self).2
      · next hb =>
        rw [Option.map_eq_some_iff]
        constructor
        · rintro ⟨⟨s', m⟩, h, heq⟩
          cases heq
          obtain ⟨t, rfl, hs⟩ := ih.mp h
          exact ⟨t, rfl, List.forall_mem_cons.mpr ⟨⟨hc, hb⟩, hs⟩⟩
        · rintro ⟨t, h, hs⟩
          cases s with
          | nil => cases more <;> simp_all
          | cons d s =>
            cases h
            exact ⟨(s, more), ih.mpr ⟨t, rfl, (List.forall_mem_cons.mp hs).2⟩, rfl⟩

theorem piece_ends (hs : IsPlain s) : piece (s ++ '\n' :: t) = some (s, false) := piece_iff.mpr ⟨t, rfl, hs⟩

theorem piece_more (hs : IsPlain s) : piece (s ++ '\\' :: t) = some (s, true) := piece_iff.mpr ⟨t, rfl, hs⟩

theorem columns_iff :
    columns line = some (name, host, ip) ↔
      ∃ gap gap', line = name ++ gap ++ host ++ gap' ++ ip ∧ IsWord name ∧ IsGap gap ∧ host ≠ [] ∧ IsWord host ∧
        IsGap gap' ∧ Flush ip := by
  -- behind a word comes a gap
  have hgap : ∀ r : Str, (∃ c ∈ r.head?, isSpace c = true) → ∃ gap, IsGap gap ∧ r = gap ++ r.dropWhile isSpace := by
    rintro r ⟨c, hc, hblank⟩
    obtain ⟨b, hb, hr⟩ := exists_blanks r
    refine ⟨b, ⟨?_, hb⟩, hr⟩
    rintro rfl
    rw [hr, List.nil_append] at hc
    exact absurd hblank (by simp [flush_dropWhile r c hc])
  have hhead : ∀ {g : Str} (r : Str), IsGap g → ∃ c ∈ (g ++ r).head?, isSpace c = true := by
    intro g r hg
    obtain ⟨c, g, rfl⟩ := List.exists_cons_of_ne_nil hg.1
    exact ⟨c, rfl, hg.2 c List.mem_cons_self⟩
  constructor
  · intro h
    obtain ⟨⟨name', r⟩, hname, h⟩ := Option.bind_eq_some_iff.mp h
    obtain ⟨⟨host', r'⟩, hhost, h⟩ := Option.map_eq_some_iff.mp h
    cases h
    obtain ⟨rfl, hw, hr⟩ := word_iff.mp hname
    obtain ⟨gap, hg, hgr⟩ := hgap r hr
    obtain ⟨hdrop, hw', hr'⟩ := word_iff.mp hhost
    obtain ⟨gap', hg', hgr'⟩ := hgap r' hr'
    refine ⟨gap, gap', ?_, hw, hg, ?_, hw', hg', flush_dropWhile r'⟩
    · rw [List.append_assoc, ← hgr', List.append_assoc, ← hdrop, List.append_assoc, ← hgr]
    · rintro rfl
      obtain ⟨c, hc, hblank⟩ := hr'
      have := flush_dropWhile r c (hdrop ▸ hc)
      simp [this] at hblank
  · rintro ⟨gap, gap', rfl, hw, hg, hne, hw', hg', hf⟩
    have hflush : Flush (host ++ (gap' ++ ip)) := by
      obtain ⟨c, host, rfl⟩ := List.exists_cons_of_ne_nil hne
      intro d hd
      cases hd
      exact hw' c List.mem_cons_self
    have hname : word (name ++ gap ++ host ++ gap' ++ ip) = some (name, gap ++ (host ++ (gap' ++ ip))) :=
      word_iff.mpr ⟨by simp only [List.append_assoc], hw, hhead _ hg⟩
    have hhost : word (host ++ (gap' ++ ip)) = some (host, gap' ++ ip) := word_iff.mpr ⟨rfl, hw', hhead _ hg'⟩
    rw [columns, hname, Option.bind_some]
    dsimp only
    rw [dropWhile_blank hg.2 hflush, hhost, Option.map_some, dropWhile_blank hg'.2 hf]

theorem command_iff : command lines ip = some (cmd, left) ↔ Command lines ip cmd left := by
  constructor
  · intro h
    induction lines generalizing ip cmd with
    | nil =>
      obtain ⟨⟨s, more⟩, hp, h⟩ := Option.map_eq_some_iff.mp h
      cases h
      obtain ⟨t, rfl, hs⟩ := piece_iff.mp hp
      cases more with
      | false => exact .ends hs
      | true => exact .last hs
    | cons line lines ih =>
      rw [command] at h
      split at h
      · cases h
      · next s hp =>
        cases h
        obtain ⟨t, rfl, hs⟩ := piece_iff.mp hp
        exact .ends hs
      · next s hp =>
        obtain ⟨⟨s', left'⟩, hc, h⟩ := Option.map_eq_some_iff.mp h
        cases h
        obtain ⟨t, rfl, hs⟩ := piece_iff.mp hp
        obtain ⟨b, hb, hline⟩ := exists_blanks line
        rw [hline]
        exact .more hs hb (flush_dropWhile line) (ih hc)
  · intro h
    induction h with
    | @ends lines s t hs =>
      cases lines with
      | nil => rw [command, piece_ends hs, Option.map_some]
      | cons line lines => rw [command, piece_ends hs]
    | last hs => rw [command, piece_more hs, Option.map_some]
    | more hs hb hf _ ih =>
      rw [command, piece_more hs, dropWhile_blank hb hf, ih]
      rfl

theorem command_length (h : Command lines ip cmd left) : left.length ≤ lines.length := by
  induction h with
  | ends => exact le_rfl
  | last => exact le_rfl
  | more _ _ _ _ ih => exact Nat.le_succ_of_le ih

theorem field_eq_some {n : Nat} {f : Field n} : field n s = some f ↔ f.bytes = s := by
  unfold field
  split
  · next h =>
    rw [Option.some.injEq]
    exact ⟨fun hf => hf ▸ rfl, fun hf => by cases hf; rfl⟩
  · next h =>
    refine ⟨fun hf => (by cases hf), fun hf => ?_⟩
    exact absurd (hf ▸ f.fits) h

theorem readTask_iff {t : ConfTask} :
    readTask line lines = some (t, left) ↔
      ∃ ip, columns line = some (t.name.bytes, t.host.bytes, ip) ∧ command lines ip = some (t.command.bytes, left) := by
  constructor
  · intro h
    obtain ⟨⟨name, host, ip⟩, hcol, h⟩ := Option.bind_eq_some_iff.mp h
    obtain ⟨⟨cmd, left'⟩, hcmd, h⟩ := Option.bind_eq_some_iff.mp h
    obtain ⟨fname, hname, h⟩ := Option.bind_eq_some_iff.mp h
    obtain ⟨fhost, hhost, h⟩ := Option.bind_eq_some_iff.mp h
    obtain ⟨fcmd, hfcmd, h⟩ := Option.map_eq_some_iff.mp h
    cases h
    cases field_eq_some.mp hname
    cases field_eq_some.mp hhost
    cases field_eq_some.mp hfcmd
    exact ⟨ip, hcol, hcmd⟩
  · rintro ⟨ip, hcol, hcmd⟩
    rw [readTask, hcol, Option.bind_some]
    dsimp only
    rw [hcmd, Option.bind_some]
    dsimp only
    rw [field_eq_some.mpr rfl, Option.bind_some, field_eq_some.mpr rfl, Option.bind_some, field_eq_some.mpr rfl]
    rfl

theorem readable_skip {es : List Entry} (hl : isSkipped line = true) :
    Readable (line :: lines) es ↔ Readable lines es := by
  constructor
  · intro h
    cases h with
    | skip _ h => exact h
    | task hn =>
      rw [hl] at hn
      cases hn
  · exact .skip hl

theorem readable_task {es : List Entry} (hl : isSkipped line = false) :
    Readable (line :: lines) es ↔ ∃ name host ip cmd left es', columns line = some (name, host, ip) ∧
      command lines ip = some (cmd, left) ∧ Readable left es' ∧ es = ⟨name, host, cmd⟩ :: es' := by
  constructor
  · intro h
    cases h with
    | skip hs =>
      rw [hl] at hs
      cases hs
    | task _ hw hg hne hw' hg' hf hc hr =>
      exact ⟨_, _, _, _, _, _, columns_iff.mpr ⟨_, _, rfl, hw, hg, hne, hw', hg', hf⟩, command_iff.mpr hc, hr, rfl⟩
  · rintro ⟨name, host, ip, cmd, left, es', hcol, hcmd, hr, rfl⟩
    obtain ⟨gap, gap', rfl, hw, hg, hne, hw', hg', hf⟩ := columns_iff.mp hcol
    exact .task hl hw hg hne hw' hg' hf (command_iff.mp hcmd) hr

/-- The tasks that are read, if the rounds of the loop do not run out -/
theorem readLoop_iff {fuel cnum : Nat} {tasks : List ConfTask} (hfuel : lines.length ≤ fuel)
    (hcnum : cnum ≤ szProctable) :
    readLoop fuel cnum lines = some tasks ↔
      Readable lines (tasks.map ConfTask.entry) ∧ cnum + tasks.length ≤ szProctable := by
  induction fuel generalizing cnum lines tasks with
  | zero =>
    rw [List.length_eq_zero_iff.mp (Nat.le_zero.mp hfuel), readLoop, Option.some.injEq]
    constructor
    · rintro rfl
      exact ⟨.nil, hcnum⟩
    · rintro ⟨h, -⟩
      cases tasks with
      | nil => rfl
      | cons t tasks => cases h
  | succ fuel ih =>
    cases lines with
    | nil =>
      rw [readLoop, Option.some.injEq]
      constructor
      · rintro rfl
        exact ⟨.nil, hcnum⟩
      · rintro ⟨h, -⟩
        cases tasks with
        | nil => rfl
        | cons t tasks => cases h
    | cons line lines =>
      rw [List.length_cons] at hfuel
      rw [readLoop]
      cases hl : isSkipped line with
      | true => rw [if_pos rfl, ih (by omega) hcnum, readable_skip hl]
      | false =>
        rw [if_neg Bool.false_ne_true, readable_task hl]
        constructor
        · intro h
          split at h
          · next hroom =>
            obtain ⟨⟨t, left⟩, ht, h⟩ := Option.bind_eq_some_iff.mp h
            obtain ⟨ts, hts, rfl⟩ := Option.map_eq_some_iff.mp h
            obtain ⟨ip, hcol, hcmd⟩ := readTask_iff.mp ht
            have hlen := command_length (command_iff.mp hcmd)
            obtain ⟨hr, hsize⟩ := (ih (by omega) (by omega)).mp hts
            rw [List.length_cons]
            exact ⟨⟨_, _, ip, _, left, _, hcol, hcmd, hr, rfl⟩, by omega⟩
          · cases h
        · rintro ⟨⟨name, host, ip, cmd, left, es, hcol, hcmd, hr, hes⟩, hsize⟩
          obtain ⟨t, ts, rfl, ht, rfl⟩ := List.map_eq_cons_iff.mp hes
          cases ht
          rw [List.length_cons] at hsize
          have hlen := command_length (command_iff.mp hcmd)
          rw [if_pos (by omega), readTask_iff.mpr ⟨ip, hcol, hcmd⟩, Option.bind_some]
          dsimp only
          rw [(ih (by omega) (by omega)).mpr ⟨hr, by omega⟩]
          rfl

/-- The files that are read: their lines have a table of tasks that fit. -/
theorem supReadConfigFile_iff {text : Str} {tasks : List ConfTask} :
    supReadConfigFile (some text) = some (some tasks) ↔
      Readable (fgetsAll (szConfigLine - 1) text) (tasks.map ConfTask.entry) ∧ tasks.length ≤ szProctable := by
  rw [supReadConfigFile, Option.map_eq_some_iff]
  simp only [Option.some.injEq, exists_eq_right]
  rw [readLoop_iff le_rfl (Nat.zero_le _), Nat.zero_add]

end Grammar

/-! ## Well-formed files -/

/-- The text from the first piece of a command on: each of the other pieces is on a line of its own, indented. -/
def commandText (first : Str) : List (Str × Str) → Str
  | [] => first ++ ['\n']
  | (indent, next) :: pieces => first ++ '\\' :: '\n' :: (indent ++ commandText next pieces)

/-- The pieces of a command, joined -/
def joined (first : Str) (pieces : List (Str × Str)) : Str := first ++ (pieces.map Prod.snd).flatten

/-- What a configuration file consists of -/
inductive Item where
  | comment (text : Str)
  | blank
  | task (name gap host gap' first : Str) (pieces : List (Str × Str))

/-- The text of an item -/
def Item.text : Item → Str
  | .comment text => '#' :: text ++ ['\n']
  | .blank => ['\n']
  | .task name gap host gap' first pieces => name ++ gap ++ host ++ gap' ++ commandText first pieces

/-- The task that an item means -/
def Item.entry : Item → Option Entry
  | .task name _ host _ first pieces => some ⟨name, host, joined first pieces⟩
  | _ => none

/-- The blanks inside of a line -/
def IsBlank (s : Str) : Prop := ∀ c ∈ s, isSpace c = true ∧ c ≠ '\n'

/-- A name or a host: some characters that are neither blanks nor backslashes -/
def IsName (s : Str) : Prop := s ≠ [] ∧ ∀ c ∈ s, isSpace c = false ∧ c ≠ '\\' ∧ c ≠ '\x00'

/-- A piece of a command: characters of a line, without blanks in front and without a backslash at the end -/
def IsPiece (s : Str) : Prop := (∀ c ∈ s, c ≠ '\n' ∧ c ≠ '\x00') ∧ Flush s ∧ s.getLast? ≠ some '\\'

/-- A well-formed item -/
def Item.WellFormed : Item → Prop
  | .comment text => ∀ c ∈ text, c ≠ '\n' ∧ c ≠ '\x00'
  | .blank => True
  | .task name gap host gap' first pieces =>
    (IsName name ∧ name.head? ≠ some '#') ∧ (gap ≠ [] ∧ IsBlank gap) ∧ IsName host ∧ (gap' ≠ [] ∧ IsBlank gap') ∧
      IsPiece first ∧ ∀ p ∈ pieces, IsBlank p.1 ∧ IsPiece p.2

/-- `Config items text`: the text is a well-formed file with these items. -/
def Config (items : List Item) (text : Str) : Prop := (∀ i ∈ items, i.WellFormed) ∧ text = items.flatMap Item.text

/-- The strings of a task -/
def ConfTask.strings (t : ConfTask) : Option Str × Option Str × Option Str := (t.name.text, t.host.text, t.command.text)

def Entry.strings (e : Entry) : Option Str × Option Str × Option Str := (some e.name, some e.host, some e.command)

/-- The file is read safely and, if it is well-formed, into the tasks that it means. -/
def Reads (text : Str) : Prop :=
  ∃ tasks, supReadConfigFile (some text) = some (some tasks) ∧
    ∀ items, Config items text → tasks.map ConfTask.strings = (items.filterMap Item.entry).map Entry.strings

/-- What the columns of a task have to be: strings that are shorter than the fields, and no backslash that does not
end a line. -/
def Entry.Short (e : Entry) : Prop :=
  e.name.length < szPname ∧ e.host.length < szPhost ∧ e.command.length < szLine ∧ '\\' ∉ e.command

/-- The parts in which a comment is read are all skipped. -/
def Item.Unseen : Item → Prop
  | .comment text => ∀ line ∈ fgetsAll (szConfigLine - 1) ('#' :: text ++ ['\n']), isSkipped line = true
  | _ => True

/-- The lines of the file have a table of tasks that fit; in a well-formed file the tasks are short, and the comments
are skipped. -/
def Fits (text : Str) : Prop :=
  (∃ tasks : List ConfTask, Readable (fgetsAll (szConfigLine - 1) text) (tasks.map ConfTask.entry) ∧
    tasks.length ≤ szProctable) ∧
  ∀ items, Config items text → (∀ e ∈ items.filterMap Item.entry, e.Short) ∧ ∀ i ∈ items, i.Unseen

/-! ## How the lines of an item are read -/

section Lines

variable {n : Nat} {s t u name gap host gap' first ip cut rest cmd line : Str} {lines left : List Str}
  {pieces : List (Str × Str)}

/-- The end of the first line of a command -/
def commandEnd (pieces : List (Str × Str)) : Str := if pieces = [] then ['\n'] else ['\\', '\n']

/-- The other lines of a command -/
def commandTail : List (Str × Str) → Str
  | [] => []
  | (indent, next) :: pieces => indent ++ commandText next pieces

theorem commandText_eq (first : Str) (pieces : List (Str × Str)) :
    commandText first pieces = first ++ commandEnd pieces ++ commandTail pieces := by
  cases pieces with
  | nil => simp [commandText, commandEnd, commandTail]
  | cons p pieces => simp [commandText, commandEnd, commandTail]

theorem commandEnd_eq (pieces : List (Str × Str)) : ∃ e, commandEnd pieces = e ++ ['\n'] := by
  unfold commandEnd
  split
  · exact ⟨[], rfl⟩
  · exact ⟨['\\'], rfl⟩

/-- Where the plain characters of a text end -/
theorem plain_inj {c d : Char} (hs : IsPlain s) (ht : IsPlain first) (hc : c = '\n' ∨ c = '\\')
    (hd : d = '\n' ∨ d = '\\') (h : s ++ c :: t = first ++ d :: u) : s = first ∧ c = d ∧ t = u := by
  have hmem : ∀ {x : Char} {l : Str}, IsPlain l → (x = '\n' ∨ x = '\\') → x ∉ l := by
    rintro x l hl (rfl | rfl) hx
    · exact (hl _ hx).1 rfl
    · exact (hl _ hx).2 rfl
  induction s generalizing first with
  | nil =>
    cases first with
    | nil =>
      cases h
      exact ⟨rfl, rfl, rfl⟩
    | cons a first =>
      cases h
      exact absurd List.mem_cons_self (hmem ht hc)
  | cons a s ih =>
    cases first with
    | nil =>
      cases h
      exact absurd List.mem_cons_self (hmem hs hd)
    | cons b first =>
      obtain ⟨rfl, h'⟩ := List.cons.inj h
      obtain ⟨rfl, hcd, htu⟩ := ih (List.forall_mem_cons.mp hs).2 (List.forall_mem_cons.mp ht).2 h'
      exact ⟨rfl, hcd, htu⟩

theorem command_nil (lines : List Str) : command lines [] = none := by
  cases lines <;> rfl

/-- The steps of `command` -/
theorem command_cons {cmd : Str} (h : command (line :: lines) ip = some (cmd, left)) :
    (piece ip = some (cmd, false) ∧ left = line :: lines) ∨
      ∃ s s', piece ip = some (s, true) ∧ cmd = s ++ s' ∧ command lines (line.dropWhile isSpace) = some (s', left) := by
  rw [command] at h
  split at h
  · cases h
  · next s hp =>
    cases h
    exact .inl ⟨hp, rfl⟩
  · next s hp =>
    obtain ⟨⟨s', left'⟩, hc, h⟩ := Option.map_eq_some_iff.mp h
    cases h
    exact .inr ⟨s, s', hp, rfl, hc⟩

theorem command_piece (h : command lines ip = some (cmd, left)) : ∃ s more, piece ip = some (s, more) := by
  cases lines with
  | nil =>
    obtain ⟨⟨s, more⟩, hp, -⟩ := Option.map_eq_some_iff.mp h
    exact ⟨s, more, hp⟩
  | cons line lines =>
    rcases command_cons h with ⟨hp, -⟩ | ⟨s, -, hp, -⟩
    · exact ⟨cmd, false, hp⟩
    · exact ⟨s, true, hp⟩

/-- A line that is cut behind its blanks -/
theorem dropWhile_cut (hne : s.dropWhile isSpace ≠ []) (t : Str) :
    (s ++ t).dropWhile isSpace = s.dropWhile isSpace ++ t := by
  rw [List.dropWhile_append, if_neg (by simpa using hne)]

/-- Behind the blanks of a line is its piece, if the line isn't blank. -/
theorem dropWhile_first (hf : Flush first) (hne : (first ++ commandEnd pieces).dropWhile isSpace ≠ []) :
    (first ++ commandEnd pieces).dropWhile isSpace = first ++ commandEnd pieces := by
  cases first with
  | nil =>
    unfold commandEnd at hne ⊢
    split at hne
    · exact absurd rfl hne
    · next hp =>
      rw [if_neg hp]
      rfl
  | cons c first => exact List.dropWhile_cons_of_neg (by simp [hf c rfl])

/-- What is read of the first line of a command if it is cut -/
theorem command_first (hfirst : IsPlain first) (hip : ip ++ cut = first ++ commandEnd pieces)
    (h : command lines ip = some (cmd, left)) :
    (pieces = [] ∧ ip = first ++ ['\n'] ∧ cut = []) ∨
      (pieces ≠ [] ∧ ∃ t, ip = first ++ '\\' :: t ∧ t ++ cut = ['\n']) := by
  obtain ⟨s, more, hp⟩ := command_piece h
  obtain ⟨t, rfl, hs⟩ := piece_iff.mp hp
  have hstop : (if more then '\\' else '\n') = '\n' ∨ (if more then '\\' else '\n') = '\\' := by
    cases more <;> simp
  rw [List.append_assoc, List.cons_append] at hip
  by_cases hnil : pieces = []
  · rw [commandEnd, if_pos hnil] at hip
    obtain ⟨rfl, hmore, htc⟩ := plain_inj hs hfirst hstop (.inl rfl) hip
    obtain ⟨rfl, rfl⟩ := List.append_eq_nil_iff.mp htc
    exact .inl ⟨hnil, by rw [hmore], rfl⟩
  · rw [commandEnd, if_neg hnil] at hip
    obtain ⟨rfl, hmore, htc⟩ := plain_inj hs hfirst hstop (.inr rfl) hip
    exact .inr ⟨hnil, t, by rw [hmore], htc⟩

/-- A command that is continued goes on in the first part of the next line, which isn't blank. -/
theorem command_continued (hn : 0 < n) (hs : IsPlain s) (line : Str)
    (h : command (fgetsAll n (line ++ '\n' :: rest)) (s ++ '\\' :: t) = some (cmd, left)) :
    ∃ l₁ l₂ cmd', l₁ ++ l₂ = line ++ ['\n'] ∧ l₁.dropWhile isSpace ≠ [] ∧ cmd = s ++ cmd' ∧
      command (fgetsAll n (l₂ ++ rest)) (l₁.dropWhile isSpace) = some (cmd', left) := by
  obtain ⟨l₁, l₂, -, hl, hg⟩ := fgetsAll_cut hn line
  rw [hg] at h
  rcases command_cons h with ⟨hp, -⟩ | ⟨s', cmd', hp, rfl, hnext⟩
  · rw [piece_more hs] at hp
    cases hp
  · rw [piece_more hs] at hp
    cases hp
    refine ⟨l₁, l₂, cmd', hl, fun hnil => ?_, rfl, hnext⟩
    rw [hnil, command_nil] at hnext
    cases hnext

/-- The command of a well-formed task is read whole or not at all, wherever its lines are cut. -/
theorem command_pieces (hn : 0 < n) (hfirst : IsPlain first)
    (hpieces : ∀ p ∈ pieces, IsBlank p.1 ∧ Flush p.2 ∧ IsPlain p.2) (hip : ip ++ cut = first ++ commandEnd pieces)
    (h : command (fgetsAll n (cut ++ (commandTail pieces ++ rest))) ip = some (cmd, left)) :
    cmd = joined first pieces ∧ left = fgetsAll n rest := by
  induction pieces generalizing first ip cut cmd with
  | nil =>
    rcases command_first hfirst hip h with ⟨-, rfl, rfl⟩ | ⟨hne, -⟩
    · rw [command_iff.mpr (.ends hfirst)] at h
      cases h
      exact ⟨by simp [joined], rfl⟩
    · exact absurd rfl hne
  | cons p pieces ih =>
    obtain ⟨indent, next⟩ := p
    obtain ⟨⟨hindent, hflush, hnext⟩, hpieces⟩ := List.forall_mem_cons.mp hpieces
    rcases command_first hfirst hip h with ⟨hnil, -⟩ | ⟨-, t, rfl, ht⟩
    · cases hnil
    rcases List.append_eq_cons_iff.mp ht with ⟨rfl, rfl⟩ | ⟨t', rfl, ht'⟩
    · -- what is left of the line is its newline, and the command goes on in a blank line
      obtain ⟨l₁, l₂, -, hl, hne, -⟩ := command_continued hn hfirst [] h
      refine absurd (List.dropWhile_eq_nil_iff.mpr fun c hc => ?_) hne
      have : c ∈ ([] : Str) ++ ['\n'] := hl ▸ List.mem_append_left l₂ hc
      rw [List.mem_singleton.mp this]
      rfl
    · obtain ⟨rfl, rfl⟩ := List.append_eq_nil_iff.mp ht'.symm
      obtain ⟨e, he⟩ := commandEnd_eq pieces
      have hline : ([] : Str) ++ (commandTail ((indent, next) :: pieces) ++ rest) =
          (indent ++ next ++ e) ++ '\n' :: (commandTail pieces ++ rest) := by
        rw [commandTail, commandText_eq, he]
        simp
      rw [hline] at h
      obtain ⟨l₁, l₂, cmd', hl, hne, rfl, h'⟩ := command_continued hn hfirst (indent ++ next ++ e) h
      have hdrop : l₁.dropWhile isSpace ++ l₂ = (next ++ commandEnd pieces).dropWhile isSpace := by
        rw [← dropWhile_cut hne, hl, he, List.append_assoc, List.append_assoc,
          List.dropWhile_append_of_pos fun c hc => (hindent c hc).1]
      rw [dropWhile_first hflush (hdrop ▸ by simp [hne])] at hdrop
      obtain ⟨rfl, hleft⟩ := ih hnext hpieces hdrop h'
      exact ⟨by simp [joined], hleft⟩

/-- The columns of a line, and what follows them -/
theorem columns_append (hname : IsName name) (hgap : gap ≠ [] ∧ IsBlank gap) (hhost : IsName host)
    (hgap' : gap' ≠ [] ∧ IsBlank gap') (s : Str) :
    columns (name ++ gap ++ host ++ gap' ++ s) = some (name, host, s.dropWhile isSpace) := by
  obtain ⟨b, hb, hs⟩ := exists_blanks s
  refine columns_iff.mpr ⟨gap, gap' ++ b, ?_, fun c hc => (hname.2 c hc).1, ⟨hgap.1, fun c hc => (hgap.2 c hc).1⟩,
    hhost.1, fun c hc => (hhost.2 c hc).1, ⟨by simp [hgap'.1], fun c hc => ?_⟩, flush_dropWhile s⟩
  · rw [← List.append_assoc, List.append_assoc _ b, ← hs]
  · rcases List.mem_append.mp hc with hc | hc
    · exact (hgap'.2 c hc).1
    · exact hb c hc

/-- The columns of a line are those of its first part, if they're not cut. -/
theorem columns_cut (h : columns s = some (name, host, ip)) (hip : ip ≠ []) (t : Str) :
    columns (s ++ t) = some (name, host, ip ++ t) := by
  obtain ⟨gap, gap', rfl, hw, hg, hne, hw', hg', hf⟩ := columns_iff.mp h
  refine columns_iff.mpr ⟨gap, gap', by simp, hw, hg, hne, hw', hg', ?_⟩
  obtain ⟨c, ip, rfl⟩ := List.exists_cons_of_ne_nil hip
  exact hf

end Lines

/-! ## The sizes of tasks -/

/-- The lines of a well-formed task without other backslashes: it's read whole or not at all, and if it's taken for
a part of another command, it is as a whole. -/
theorem task_lines {n : Nat} (hn : 0 < n) {name gap host gap' first : Str} {pieces : List (Str × Str)}
    (hwf : (Item.task name gap host gap' first pieces).WellFormed) (hplain : '\\' ∉ joined first pieces)
    (rest : Str) :
    ∃ line lines,
      fgetsAll n ((Item.task name gap host gap' first pieces).text ++ rest) = line :: lines ∧
      isSkipped line = false ∧
      (∀ t left, readTask line lines = some (t, left) →
        t.entry = ⟨name, host, joined first pieces⟩ ∧ left = fgetsAll n rest) ∧
      ∀ cmd left, command lines (line.dropWhile isSpace) = some (cmd, left) →
        name.length + host.length + (joined first pieces).length < cmd.length ∧ left = fgetsAll n rest := by
  obtain ⟨⟨hname, hhash⟩, hgap, hhost, hgap', hfirst, hpieces⟩ := hwf
  have hf : IsPlain first := fun c hc =>
    ⟨(hfirst.1 c hc).1, fun h => hplain (List.mem_append_left _ (h ▸ hc))⟩
  have hp : ∀ p ∈ pieces, IsBlank p.1 ∧ Flush p.2 ∧ IsPlain p.2 := by
    intro p hmem
    obtain ⟨hblank, hpiece⟩ := hpieces p hmem
    refine ⟨hblank, hpiece.2.1, fun c hc => ⟨(hpiece.1 c hc).1, fun h => hplain ?_⟩⟩
    exact List.mem_append_right _ (List.mem_flatten.mpr ⟨p.2, List.mem_map_of_mem hmem, h ▸ hc⟩)
  obtain ⟨e, he⟩ := commandEnd_eq pieces
  obtain ⟨l₁, l₂, hne, hl, hg⟩ := fgetsAll_cut hn (name ++ gap ++ host ++ gap' ++ first ++ e)
  have htext : (Item.task name gap host gap' first pieces).text ++ rest =
      (name ++ gap ++ host ++ gap' ++ first ++ e) ++ '\n' :: (commandTail pieces ++ rest) := by
    rw [Item.text, commandText_eq, he]
    simp
  rw [List.append_assoc, ← he, List.append_assoc] at hl
  -- the first part of the line begins with the name
  obtain ⟨c, l₁, rfl⟩ := List.exists_cons_of_ne_nil hne
  obtain ⟨c', name', rfl⟩ := List.exists_cons_of_ne_nil hname.1
  obtain rfl : c = c' := (List.cons.inj hl).1
  obtain ⟨hspace, -, hnull⟩ := hname.2 c List.mem_cons_self
  have hnewline : c ≠ '\n' := by
    rintro rfl
    cases hspace
  have hskip : isSkipped (c :: l₁) = false := by
    have hhash : c ≠ '#' := fun h => hhash (by rw [h]; rfl)
    simp [isSkipped, hhash, hnewline, hnull]
  refine ⟨c :: l₁, _, by rw [htext, hg], hskip, fun t left ht => ?_, fun cmd left hcmd => ?_⟩
  · obtain ⟨ip, hcol, hcmd⟩ := readTask_iff.mp ht
    have hip : ip ≠ [] := by
      rintro rfl
      rw [command_nil] at hcmd
      cases hcmd
    have hwhole := columns_cut hcol hip l₂
    rw [hl, columns_append hname hgap hhost hgap'] at hwhole
    simp only [Option.some.injEq, Prod.mk.injEq] at hwhole
    obtain ⟨hname', hhost', hdrop⟩ := hwhole
    rw [dropWhile_first hfirst.2.1 (by rw [hdrop]; simp [hip])] at hdrop
    obtain ⟨hcommand, hleft⟩ := command_pieces hn hf hp hdrop.symm hcmd
    exact ⟨by rw [ConfTask.entry, ← hname', ← hhost', hcommand], hleft⟩
  · have hplain' : IsPlain ((c :: name') ++ gap ++ host ++ gap' ++ first) := by
      have hword : ∀ {s : Str}, IsName s → IsPlain s := by
        intro s hs d hd
        refine ⟨?_, (hs.2 d hd).2.1⟩
        rintro rfl
        cases (hs.2 _ hd).1
      have hblank : ∀ {s : Str}, IsBlank s → IsPlain s := by
        intro s hs d hd
        refine ⟨(hs d hd).2, ?_⟩
        rintro rfl
        cases (hs _ hd).1
      intro d hd
      simp only [List.mem_append] at hd
      rcases hd with (((hd | hd) | hd) | hd) | hd
      · exact hword hname d hd
      · exact hblank hgap.2 d hd
      · exact hword hhost d hd
      · exact hblank hgap'.2 d hd
      · exact hf d hd
    rw [List.dropWhile_cons_of_neg (by simp [hspace])] at hcmd
    obtain ⟨rfl, hleft⟩ := command_pieces hn hplain' hp (by rw [hl]; simp) hcmd
    refine ⟨?_, hleft⟩
    have := List.length_pos_of_ne_nil hgap.1
    simp only [joined, List.length_append]
    omega

/-- The size of a task -/
def Entry.size (e : Entry) : Nat := e.name.length + e.host.length + e.command.length + 1

def weight (es : List Entry) : Nat := (es.map Entry.size).sum

@[simp] theorem weight_cons (e : Entry) (es : List Entry) : weight (e :: es) = e.size + weight es := rfl

/-- Whatever is read in front of the lines, tasks of this weight are read, or are in the command of a task. -/
structure Heavy (lines : List Str) (w : Nat) : Prop where
  fresh : ∀ {fuel cnum tasks}, readLoop fuel cnum lines = some tasks → w ≤ weight (tasks.map ConfTask.entry)
  inside : ∀ {fuel cnum ip cmd left tasks}, command lines ip = some (cmd, left) →
    readLoop fuel cnum left = some tasks → w ≤ cmd.length + weight (tasks.map ConfTask.entry)

section Weight

variable {fuel cnum w : Nat} {line : Str} {lines front : List Str} {tasks : List ConfTask}

/-- The rounds of `readLoop` -/
theorem readLoop_cons (h : readLoop fuel cnum (line :: lines) = some tasks) :
    (isSkipped line = true ∧ ∃ fuel, readLoop fuel cnum lines = some tasks) ∨
      (isSkipped line = false ∧ ∃ fuel t left ts, readTask line lines = some (t, left) ∧
        readLoop fuel (cnum + 1) left = some ts ∧ tasks = t :: ts) := by
  cases fuel with
  | zero => cases h
  | succ fuel =>
    rw [readLoop] at h
    cases hl : isSkipped line with
    | true =>
      rw [hl, if_pos rfl] at h
      exact .inl ⟨rfl, fuel, h⟩
    | false =>
      rw [hl, if_neg Bool.false_ne_true] at h
      split at h
      · obtain ⟨⟨t, left⟩, ht, h⟩ := Option.bind_eq_some_iff.mp h
        obtain ⟨ts, hts, rfl⟩ := Option.map_eq_some_iff.mp h
        exact .inr ⟨rfl, fuel, t, left, ts, ht, hts, rfl⟩
      · cases h

/-- A line that is not skipped makes the tasks heavier. -/
theorem Heavy.lt (hw : Heavy lines w) (hl : isSkipped line = false)
    (h : readLoop fuel cnum (line :: lines) = some tasks) : w < weight (tasks.map ConfTask.entry) := by
  rcases readLoop_cons h with ⟨hs, -⟩ | ⟨-, fuel, t, left, ts, ht, hts, rfl⟩
  · rw [hl] at hs
    cases hs
  · obtain ⟨ip, -, hcmd⟩ := readTask_iff.mp ht
    have := hw.inside hcmd hts
    rw [List.map_cons, weight_cons, Entry.size]
    change w < _ + _ + t.command.bytes.length + 1 + _
    omega

theorem Heavy.cons (hw : Heavy lines w) (line : Str) : Heavy (line :: lines) w := by
  have hfresh : ∀ {fuel cnum tasks}, readLoop fuel cnum (line :: lines) = some tasks →
      w ≤ weight (tasks.map ConfTask.entry) := by
    intro fuel cnum tasks h
    rcases readLoop_cons h with ⟨-, fuel, h'⟩ | ⟨hl, -⟩
    · exact hw.fresh h'
    · exact (hw.lt hl h).le
  refine ⟨hfresh, fun hc h => ?_⟩
  rcases command_cons hc with ⟨-, rfl⟩ | ⟨s, s', -, rfl, hc'⟩
  · exact (hfresh h).trans (Nat.le_add_left _ _)
  · have := hw.inside hc' h
    rw [List.length_append]
    omega

theorem Heavy.append (hw : Heavy lines w) (front : List Str) : Heavy (front ++ lines) w := by
  induction front with
  | nil => exact hw
  | cons line front ih => exact ih.cons line

/-- Lines that are skipped -/
theorem readLoop_skipped (hskip : ∀ line ∈ front, isSkipped line = true)
    (h : readLoop fuel cnum (front ++ lines) = some tasks) : ∃ fuel, readLoop fuel cnum lines = some tasks := by
  induction front generalizing fuel with
  | nil => exact ⟨fuel, h⟩
  | cons line front ih =>
    obtain ⟨hl, hskip⟩ := List.forall_mem_cons.mp hskip
    rcases readLoop_cons h with ⟨-, fuel, h'⟩ | ⟨hn, -⟩
    · exact ih hskip h'
    · rw [hl] at hn
      cases hn

/-- The lines in front are skipped if the tasks are not heavier. -/
theorem Heavy.skipped (hw : Heavy lines w) (h : readLoop fuel cnum (front ++ lines) = some tasks)
    (hle : weight (tasks.map ConfTask.entry) ≤ w) :
    (∀ line ∈ front, isSkipped line = true) ∧ ∃ fuel, readLoop fuel cnum lines = some tasks := by
  have hskip : ∀ line ∈ front, isSkipped line = true := by
    induction front generalizing fuel with
    | nil => simp
    | cons line front ih =>
      rcases readLoop_cons h with ⟨hl, fuel, h'⟩ | ⟨hl, -⟩
      · exact List.forall_mem_cons.mpr ⟨hl, ih h'⟩
      · exact absurd ((hw.append front).lt hl h) (Nat.not_lt.mpr hle)
  exact ⟨hskip, readLoop_skipped hskip h⟩

end Weight

/-! ## The tasks of a well-formed file -/

section Items

variable {fuel cnum w : Nat} {i : Item} {e : Entry} {items : List Item} {tasks : List ConfTask} {rest : Str}

theorem szConfigLine_pos : 0 < szConfigLine - 1 := by decide

/-- A comment or an empty line -/
theorem Item.line_of_none (he : i.entry = none) : ∃ l, i.text = l ++ ['\n'] ∧
    (i.Unseen ↔ ∀ line ∈ fgetsAll (szConfigLine - 1) (l ++ ['\n']), isSkipped line = true) := by
  cases i with
  | comment text => exact ⟨'#' :: text, rfl, Iff.rfl⟩
  | blank => exact ⟨[], rfl, fun _ => by decide, fun _ => trivial⟩
  | task => cases he

theorem lines_of_none (he : i.entry = none) (rest : Str) : ∃ front,
    fgetsAll (szConfigLine - 1) (i.text ++ rest) = front ++ fgetsAll (szConfigLine - 1) rest ∧
      (i.Unseen ↔ ∀ line ∈ front, isSkipped line = true) := by
  obtain ⟨l, ht, hu⟩ := Item.line_of_none he
  refine ⟨_, ?_, hu⟩
  rw [ht, List.append_assoc]
  exact fgetsAll_line_append szConfigLine_pos l rest

/-- The task that a well-formed line is read into -/
theorem task_read (hwf : i.WellFormed) (he : i.entry = some e) (hplain : '\\' ∉ e.command)
    (h : readLoop fuel cnum (fgetsAll (szConfigLine - 1) (i.text ++ rest)) = some tasks) :
    ∃ fuel t ts, readLoop fuel (cnum + 1) (fgetsAll (szConfigLine - 1) rest) = some ts ∧ tasks = t :: ts ∧
      t.entry = e := by
  cases i with
  | task name gap host gap' first pieces =>
    cases he
    obtain ⟨line, lines, hlines, hskip, hread, -⟩ := task_lines szConfigLine_pos hwf hplain rest
    rw [hlines] at h
    rcases readLoop_cons h with ⟨hs, -⟩ | ⟨-, fuel, t, left, ts, ht, hts, rfl⟩
    · rw [hskip] at hs
      cases hs
    · obtain ⟨hentry, rfl⟩ := hread t left ht
      exact ⟨fuel, t, ts, hts, rfl, hentry⟩
  | _ => cases he

theorem task_heavy (hwf : i.WellFormed) (he : i.entry = some e) (hplain : '\\' ∉ e.command)
    (hw : Heavy (fgetsAll (szConfigLine - 1) rest) w) :
    Heavy (fgetsAll (szConfigLine - 1) (i.text ++ rest)) (e.size + w) := by
  have hfresh : ∀ {fuel cnum tasks}, readLoop fuel cnum (fgetsAll (szConfigLine - 1) (i.text ++ rest)) = some tasks →
      e.size + w ≤ weight (tasks.map ConfTask.entry) := by
    intro fuel cnum tasks h
    obtain ⟨fuel, t, ts, hts, rfl, rfl⟩ := task_read hwf he hplain h
    rw [List.map_cons, weight_cons]
    exact Nat.add_le_add_left (hw.fresh hts) _
  refine ⟨hfresh, fun hc h => ?_⟩
  cases i with
  | task name gap host gap' first pieces =>
    cases he
    obtain ⟨line, lines, hlines, -, -, hinside⟩ := task_lines szConfigLine_pos hwf hplain rest
    rw [hlines] at hc
    rcases command_cons hc with ⟨-, rfl⟩ | ⟨s, s', -, rfl, hc'⟩
    · rw [← hlines] at h
      exact (hfresh h).trans (Nat.le_add_left _ _)
    · obtain ⟨hlen, rfl⟩ := hinside s' _ hc'
      have := hw.fresh h
      rw [List.length_append, Entry.size]
      dsimp only
      omega
  | _ => cases he

theorem items_heavy (hwf : ∀ i ∈ items, i.WellFormed)
    (hplain : ∀ e ∈ items.filterMap Item.entry, '\\' ∉ e.command) :
    Heavy (fgetsAll (szConfigLine - 1) (items.flatMap Item.text)) (weight (items.filterMap Item.entry)) := by
  induction items with
  | nil => exact ⟨fun _ => Nat.zero_le _, fun _ _ => Nat.zero_le _⟩
  | cons i items ih =>
    obtain ⟨hi, hitems⟩ := List.forall_mem_cons.mp hwf
    rw [List.flatMap_cons]
    cases he : i.entry with
    | none =>
      rw [List.filterMap_cons_none he] at hplain ⊢
      obtain ⟨front, hfront, -⟩ := lines_of_none he (items.flatMap Item.text)
      rw [hfront]
      exact (ih hitems hplain).append front
    | some e =>
      rw [List.filterMap_cons_some he] at hplain ⊢
      obtain ⟨hplaine, hplain'⟩ := List.forall_mem_cons.mp hplain
      exact task_heavy hi he hplaine (ih hitems hplain')

/-- If no more is read than the tasks, the comments are skipped. -/
theorem items_unseen (hwf : ∀ i ∈ items, i.WellFormed)
    (hplain : ∀ e ∈ items.filterMap Item.entry, '\\' ∉ e.command)
    (h : readLoop fuel cnum (fgetsAll (szConfigLine - 1) (items.flatMap Item.text)) = some tasks)
    (hle : weight (tasks.map ConfTask.entry) ≤ weight (items.filterMap Item.entry)) : ∀ i ∈ items, i.Unseen := by
  induction items generalizing fuel cnum tasks with
  | nil => simp
  | cons i items ih =>
    obtain ⟨hi, hitems⟩ := List.forall_mem_cons.mp hwf
    rw [List.flatMap_cons] at h
    refine List.forall_mem_cons.mpr ?_
    cases he : i.entry with
    | none =>
      rw [List.filterMap_cons_none he] at hplain hle
      obtain ⟨front, hfront, hunseen⟩ := lines_of_none he (items.flatMap Item.text)
      rw [hfront] at h
      obtain ⟨hskip, fuel, h⟩ := (items_heavy hitems hplain).skipped h hle
      exact ⟨hunseen.mpr hskip, ih hitems hplain h hle⟩
    | some e =>
      rw [List.filterMap_cons_some he] at hplain hle
      obtain ⟨hplaine, hplain'⟩ := List.forall_mem_cons.mp hplain
      obtain ⟨fuel, t, ts, hts, rfl, rfl⟩ := task_read hi he hplaine h
      rw [List.map_cons, weight_cons, weight_cons] at hle
      refine ⟨?_, ih hitems hplain' hts (Nat.le_of_add_le_add_left hle)⟩
      cases i with
      | task => trivial
      | _ => cases he

/-- If the comments are skipped, the tasks are read. -/
theorem items_read (hwf : ∀ i ∈ items, i.WellFormed)
    (hplain : ∀ e ∈ items.filterMap Item.entry, '\\' ∉ e.command) (hunseen : ∀ i ∈ items, i.Unseen)
    (h : readLoop fuel cnum (fgetsAll (szConfigLine - 1) (items.flatMap Item.text)) = some tasks) :
    tasks.map ConfTask.entry = items.filterMap Item.entry := by
  induction items generalizing fuel cnum tasks with
  | nil =>
    cases fuel <;>
    · cases h
      rfl
  | cons i items ih =>
    obtain ⟨hi, hitems⟩ := List.forall_mem_cons.mp hwf
    obtain ⟨hu, hunseen⟩ := List.forall_mem_cons.mp hunseen
    rw [List.flatMap_cons] at h
    cases he : i.entry with
    | none =>
      rw [List.filterMap_cons_none he] at hplain ⊢
      obtain ⟨front, hfront, hskip⟩ := lines_of_none he (items.flatMap Item.text)
      rw [hfront] at h
      obtain ⟨fuel, h⟩ := readLoop_skipped (hskip.mp hu) h
      exact ih hitems hplain hunseen h
    | some e =>
      rw [List.filterMap_cons_some he] at hplain ⊢
      obtain ⟨hplaine, hplain'⟩ := List.forall_mem_cons.mp hplain
      obtain ⟨fuel, t, ts, hts, rfl, rfl⟩ := task_read hi he hplaine h
      rw [List.map_cons, ih hitems hplain' hunseen hts]

end Items

/-! ## The characters of the tasks -/

section Chars

variable {n : Nat} {ip cmd text : Str} {lines left : List Str} {es : List Entry} {e : Entry} {items : List Item}
  {i : Item} {c : Char}

/-- The characters of a command and the lines behind it are from the file. -/
theorem Command.chars (h : Command lines ip cmd left) :
    '\\' ∉ cmd ∧ (∀ c ∈ cmd, c ∈ ip ∨ c ∈ lines.flatten) ∧ ∀ c ∈ left.flatten, c ∈ lines.flatten := by
  have hback : ∀ {s : Str}, IsPlain s → '\\' ∉ s := fun hs hc => (hs _ hc).2 rfl
  induction h with
  | ends hs => exact ⟨hback hs, fun c hc => .inl (List.mem_append_left _ hc), fun c hc => hc⟩
  | last hs => exact ⟨hback hs, fun c hc => .inl (List.mem_append_left _ hc), fun c hc => hc⟩
  | more hs _ _ _ ih =>
    obtain ⟨hb, hcmd, hleft⟩ := ih
    refine ⟨fun hc => ?_, fun c hc => ?_, fun c hc => ?_⟩
    · rcases List.mem_append.mp hc with hc | hc
      · exact hback hs hc
      · exact hb hc
    · rcases List.mem_append.mp hc with hc | hc
      · exact .inl (List.mem_append_left _ hc)
      · refine .inr ?_
        rw [List.flatten_cons, List.append_assoc]
        refine List.mem_append_right _ (List.mem_append.mpr ?_)
        exact hcmd c hc
    · exact List.mem_append_right _ (hleft c hc)

/-- The characters of an entry -/
def Entry.chars (e : Entry) : Str := e.name ++ e.host ++ e.command

theorem Readable.chars (h : Readable lines es) (he : e ∈ es) :
    '\\' ∉ e.command ∧ ∀ c ∈ e.chars, c ∈ lines.flatten := by
  induction h with
  | nil => cases he
  | skip _ _ ih => exact ⟨(ih he).1, fun c hc => List.mem_append_right _ ((ih he).2 c hc)⟩
  | task _ _ _ _ _ _ _ hcmd _ ih =>
    obtain ⟨hback, hchars, hleft⟩ := hcmd.chars
    rw [List.flatten_cons]
    rcases List.mem_cons.mp he with rfl | he
    · refine ⟨hback, fun c hc => ?_⟩
      simp only [Entry.chars, List.mem_append] at hc
      simp only [List.mem_append]
      rcases hc with (hc | hc) | hc
      · simp [hc]
      · simp [hc]
      · rcases hchars c hc with hc | hc <;> simp [hc]
    · exact ⟨(ih he).1, fun c hc => List.mem_append_right _ (hleft c ((ih he).2 c hc))⟩

/-- A well-formed file has no zeros. -/
theorem Item.WellFormed.text_ne (hwf : i.WellFormed) (hc : c ∈ i.text) : c ≠ '\x00' := by
  have hblank : ∀ {s : Str}, IsBlank s → c ∈ s → c ≠ '\x00' := by
    rintro s hs hc rfl
    cases (hs _ hc).1
  cases i with
  | comment text =>
    rcases List.mem_append.mp hc with hc | hc
    · rcases List.mem_cons.mp hc with rfl | hc
      · decide
      · exact (hwf c hc).2
    · rw [List.mem_singleton.mp hc]
      decide
  | blank =>
    rw [List.mem_singleton.mp hc]
    decide
  | task name gap host gap' first pieces =>
    obtain ⟨⟨hname, -⟩, hgap, hhost, hgap', hfirst, hpieces⟩ := hwf
    rw [Item.text] at hc
    simp only [List.mem_append] at hc
    rcases hc with (((hc | hc) | hc) | hc) | hc
    · exact (hname.2 c hc).2.2
    · exact hblank hgap.2 hc
    · exact (hhost.2 c hc).2.2
    · exact hblank hgap'.2 hc
    · induction pieces generalizing first with
      | nil =>
        rcases List.mem_append.mp hc with hc | hc
        · exact (hfirst.1 c hc).2
        · rw [List.mem_singleton.mp hc]
          decide
      | cons p pieces ih =>
        obtain ⟨indent, next⟩ := p
        obtain ⟨⟨hindent, hnext⟩, hpieces⟩ := List.forall_mem_cons.mp hpieces
        rcases List.mem_append.mp hc with hc | hc
        · exact (hfirst.1 c hc).2
        · simp only [List.mem_cons, List.mem_append] at hc
          rcases hc with rfl | rfl | hc | hc
          · decide
          · decide
          · exact hblank hindent hc
          · exact ih next hnext hpieces hc

/-- The strings of a task -/
theorem Field.text_eq_some {f : Field n} {s : Str} (h : f.text = some s) (hnull : '\x00' ∉ f.bytes) :
    f.bytes = s ∧ s.length < n := by
  unfold Field.text at h
  split at h
  · next hterm =>
    have hs : f.bytes.takeWhile (· != '\x00') = f.bytes := by
      refine List.takeWhile_eq_self_iff.mpr fun c hc => bne_iff_ne.mpr ?_
      rintro rfl
      exact hnull hc
    rw [hs] at h
    cases h
    exact ⟨rfl, hterm.resolve_left hnull⟩
  · cases h

theorem Field.text_of_short {f : Field n} (hlen : f.bytes.length < n) (hnull : '\x00' ∉ f.bytes) :
    f.text = some f.bytes := by
  rw [Field.text, if_pos (.inr hlen), List.takeWhile_eq_self_iff.mpr]
  intro c hc
  refine bne_iff_ne.mpr ?_
  rintro rfl
  exact hnull hc

/-- The tasks that are read from a well-formed file have no zeros, and their commands no backslashes. -/
theorem entry_chars (hc : Config items text) {tasks : List ConfTask}
    (hr : Readable (fgetsAll (szConfigLine - 1) text) (tasks.map ConfTask.entry)) {t : ConfTask} (ht : t ∈ tasks) :
    '\\' ∉ t.command.bytes ∧ '\x00' ∉ t.name.bytes ∧ '\x00' ∉ t.host.bytes ∧ '\x00' ∉ t.command.bytes := by
  obtain ⟨hwf, rfl⟩ := hc
  obtain ⟨hback, hchars⟩ := hr.chars (List.mem_map_of_mem ht)
  rw [fgetsAll_flatten szConfigLine_pos] at hchars
  have hnull : '\x00' ∉ t.entry.chars := by
    intro h0
    obtain ⟨i, hi, hc⟩ := List.mem_flatMap.mp (hchars _ h0)
    exact (hwf i hi).text_ne hc rfl
  simp only [Entry.chars, List.mem_append, not_or] at hnull
  exact ⟨hback, hnull.1.1, hnull.1.2, hnull.2⟩

end Chars

/-! ## The files that are read into their tasks -/

/-- The strings of short tasks without zeros -/
theorem strings_eq_iff {tasks : List ConfTask} {es : List Entry}
    (hchars : ∀ t ∈ tasks, '\\' ∉ t.command.bytes ∧ '\x00' ∉ t.name.bytes ∧ '\x00' ∉ t.host.bytes ∧
      '\x00' ∉ t.command.bytes) :
    tasks.map ConfTask.strings = es.map Entry.strings ↔ tasks.map ConfTask.entry = es ∧ ∀ e ∈ es, e.Short := by
  induction tasks generalizing es with
  | nil =>
    cases es with
    | nil => simp
    | cons e es => simp
  | cons t tasks ih =>
    obtain ⟨⟨hback, hname, hhost, hcmd⟩, hchars⟩ := List.forall_mem_cons.mp hchars
    cases es with
    | nil => simp
    | cons e es =>
      rw [List.map_cons, List.map_cons, List.map_cons, List.cons.injEq, List.cons.injEq, ih hchars,
        List.forall_mem_cons]
      constructor
      · rintro ⟨h, htasks, hshort⟩
        simp only [ConfTask.strings, Entry.strings, Prod.mk.injEq] at h
        obtain ⟨hn, hnlen⟩ := Field.text_eq_some h.1 hname
        obtain ⟨hh, hhlen⟩ := Field.text_eq_some h.2.1 hhost
        obtain ⟨hc, hclen⟩ := Field.text_eq_some h.2.2 hcmd
        exact ⟨⟨by rw [ConfTask.entry, hn, hh, hc], htasks⟩, ⟨hnlen, hhlen, hclen, hc ▸ hback⟩, hshort⟩
      · rintro ⟨⟨rfl, htasks⟩, hshort, hrest⟩
        refine ⟨?_, htasks, hrest⟩
        rw [ConfTask.strings, Field.text_of_short hshort.1 hname, Field.text_of_short hshort.2.1 hhost,
          Field.text_of_short hshort.2.2.1 hcmd]
        rfl

/-- A file is read safely and, if it is well-formed, into the tasks that it means exactly if its lines have a table of
tasks that fit and, if it is well-formed, the tasks are short and the comments are skipped. -/
theorem readsConfig_iff (text : Str) : Reads text ↔ Fits text := by
  constructor
  · rintro ⟨tasks, htasks, hmeans⟩
    obtain ⟨hr, hlen⟩ := supReadConfigFile_iff.mp htasks
    refine ⟨⟨tasks, hr, hlen⟩, fun items hc => ?_⟩
    obtain ⟨hentries, hshort⟩ := (strings_eq_iff fun t ht => entry_chars hc hr ht).mp (hmeans items hc)
    refine ⟨hshort, ?_⟩
    obtain ⟨hwf, rfl⟩ := hc
    exact items_unseen hwf (fun e he => (hshort e he).2.2.2)
      ((readLoop_iff le_rfl (Nat.zero_le _)).mpr ⟨hr, by omega⟩) (by rw [hentries])
  · rintro ⟨⟨tasks, hr, hlen⟩, hplain⟩
    refine ⟨tasks, supReadConfigFile_iff.mpr ⟨hr, hlen⟩, fun items hc => ?_⟩
    obtain ⟨hshort, hunseen⟩ := hplain items hc
    refine (strings_eq_iff fun t ht => entry_chars hc hr ht).mpr ⟨?_, hshort⟩
    obtain ⟨hwf, rfl⟩ := hc
    exact items_read hwf (fun e he => (hshort e he).2.2.2) hunseen
      ((readLoop_iff le_rfl (Nat.zero_le _)).mpr ⟨hr, by omega⟩)

example : ((supReadConfigFile (some (chars "# pairs\npair tucana \\\n\tlocalhost\n"))).join.getD []).map
    ConfTask.strings = [(some (chars "pair"), some (chars "tucana"), some (chars "localhost"))] := by
  decide +kernel

/-- The last task of the configuration file that is delivered: its last line is continued by an empty one. -/
def dcaTask : Str := chars "DCA localhost /ndhs/bin/mosdca \\\n\n"

/-- The empty line is read on to behind its end. -/
theorem dcaTask_not_read : supReadConfigFile (some dcaTask) = none ∧ ¬ Reads dcaTask := by
  have hnone : supReadConfigFile (some dcaTask) = none := by decide +kernel
  refine ⟨hnone, ?_⟩
  rintro ⟨tasks, htasks, -⟩
  rw [hnone] at htasks
  cases htasks

end Ndhs.Sup.ConfigFile
