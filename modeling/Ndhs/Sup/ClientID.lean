import Ndhs.Lib.Buffer
import Ndhs.Lib.Ints
import Ndhs.Lib.Words

/-!
# The identity of a client (`dhssup/supProc.c`, `dhssup/supSocket.c`, `lib/dcalib/dcaSuper.c`)

A client tells the supervisor who it is in a `sup_ready` message (`dcaSupOpenConn`). The `READY` branch of `supClientIO`
takes the id out of the message, and `procBreakoutClientID` breaks it into the fields of the channel.

* `ClientIoChan`: the fields that are written, with what they held before. A field ends without a null if the bytes
  that are there already do not give it one.
* `procBreakoutClientID` gives `none` where it reads behind the null of the id or writes outside a field.
* `nameOf`, `hostOf`, `pidOf`: the parts of an id, and `Identified`: the fields hold them, or the defaults.
* `long` is the number of bits of a `long`: `atoi` reads one and gives an `int`.
* `ready_iff`: the ids that are broken out right. `yields_iff`: the messages of `dcaSupOpenConn`.
-/

namespace Ndhs.Sup

open Text Buffer Words

/-- `SZ_FNAME`. A field has one byte more. -/
def szFname : Nat := 64

/-- The fields of a channel that say who the client is -/
structure ClientIoChan where
  name : Buf
  host : Buf
  pid : Int

/-- The bytes of a text, without a null behind them -/
def put (b : Buf) (s : Str) : Buf := fun j => s.getD j (b j)

def unknown : Str := chars "unknown"

/-- The end of the host name -/
def inHost (c : Char) : Bool := c != ':' && c != '.'

section
variable (long : Nat)

/-- The third part: behind the next byte, which is read even if the text has ended. -/
def breakoutPid (chan : ClientIoChan) : Str → Option ClientIoChan
  | [] => none
  | _ :: ip => some { chan with pid := CInt.atoi long ip }

/-- The second part: the host up to its domain, which is skipped. -/
def breakoutHost (chan : ClientIoChan) (ip : Str) : Option ClientIoChan :=
  let host := ip.takeWhile inHost
  let rest := ip.dropWhile inHost
  let ended := rest.head? == some '.'
  if (if ended then host.length + 1 else host.length) ≤ szFname + 1 then
    let copied := put chan.host host
    let chan := { chan with host := if ended then memset copied host.length '\x00' 1 else copied }
    -- the default goes to the name
    let chan := if host = [] then { chan with name := strcpy chan.name 0 unknown } else chan
    breakoutPid long chan (rest.dropWhile (· != ':'))
  else none

/-- `procBreakoutClientID`. `none` is `NULL`. -/
def procBreakoutClientID (chan : ClientIoChan) : Option Str → Option ClientIoChan
  | none => some { name := strcpy chan.name 0 unknown, host := strcpy chan.host 0 unknown, pid := 0 }
  | some id =>
    let name := id.takeWhile (· != '@')
    if name.length ≤ szFname + 1 then
      let chan := { chan with name := if name = [] then strcpy chan.name 0 unknown else put chan.name name }
      match id.dropWhile (· != '@') with
      | [] => none
      | _ :: ip => breakoutHost long chan ip
    else none

/-- `sscanf (text, "sup_ready rc_%s", id)`, to a buffer of zeros -/
def scanReady (text : Str) : Str :=
  match (chars "sup_ready").isPrefixOf? text with
  | none => []
  | some text =>
    match (chars "rc_").isPrefixOf? (text.dropWhile isSpace) with
    | none => []
    | some text => (text.dropWhile isSpace).takeWhile (!isSpace ·)

/-- `bzero (b, SZ_FNAME)`: the last byte of the field stays. -/
def cleared (b : Buf) : Buf := memset b 0 '\x00' szFname

/-- The `READY` branch of `supClientIO` -/
def ready (chan : ClientIoChan) (text : Str) : Option ClientIoChan :=
  procBreakoutClientID long
    { chan with name := cleared chan.name, host := cleared chan.host }
    (some (scanReady text))

end

/-- The message of `dcaSupOpenConn` -/
def supReady (name host domain : Str) (pid : Int) : Str :=
  chars "sup_ready rc_" ++ name ++ '@' :: host ++ '.' :: domain ++ ':' :: printInt pid

/-! ## The parts of an id -/

section
variable (id : Str)

def nameOf : Str := id.takeWhile (· != '@')

/-- What follows the first `@` -/
def afterAt : Str := (id.dropWhile (· != '@')).drop 1

def hostOf : Str := (afterAt id).takeWhile inHost

/-- The host has a domain. -/
def hasDomain : Bool := ((afterAt id).dropWhile inHost).head? == some '.'

/-- The bytes of the host field that are written -/
def hostSpan : Nat := if hasDomain id then (hostOf id).length + 1 else (hostOf id).length

def pidOf : Str := ((afterAt id).dropWhile (· != ':')).drop 1

/-- The default for a part that is missing -/
def orUnknown (s : Str) : Str := if s = [] then unknown else s

end

/-- The string is in the field, with its null. -/
def Field (b : Buf) (s : Str) : Prop := Holds b 0 s ∧ s.length ≤ szFname

/-- The channel has the name, the host and the process id. -/
def ClientIoChan.Has (chan : ClientIoChan) (name host : Str) (pid : Int) : Prop :=
  Field chan.name name ∧ Field chan.host host ∧ chan.pid = pid

/-- The message is read without going too far, and its id is broken out with the defaults for what is missing. -/
def Identified (long : Nat) (chan : ClientIoChan) (text : Str) : Prop :=
  let id := scanReady text
  ∃ c, ready long chan text = some c ∧ c.Has (orUnknown (nameOf id)) (orUnknown (hostOf id)) (atoi (pidOf id))

/-- The field has room for the string, and a null behind it. -/
def Ends (b : Buf) (s : Str) : Prop := s.length ≤ szFname ∧ (s.length = szFname → b szFname = '\x00')

/-- There is an `@`, a host and a colon behind it. The name and the host end in their fields, and the process id is an
`int`. -/
def Complete (chan : ClientIoChan) (id : Str) : Prop :=
  '@' ∈ id ∧ ':' ∈ afterAt id ∧ hostOf id ≠ [] ∧ Ends chan.name (nameOf id) ∧
    (hostOf id).length ≤ szFname ∧ (hasDomain id = true ∨ Ends chan.host (hostOf id)) ∧
    CInt.Fits 32 (atoi (pidOf id))

/-! ## The fields -/

section
variable {long : Nat} {b : Buf} {s : Str} {chan c : ClientIoChan} {id : Str}

theorem put_below {j : Nat} (hj : j < s.length) : put b s j = s.getD j '\x00' := by
  rw [put, List.getD_eq_getElem _ _ hj, List.getD_eq_getElem _ _ hj]

theorem put_above {j : Nat} (hj : s.length ≤ j) : put b s j = b j := List.getD_eq_default _ _ hj

/-- A text that is put in a field is a string there if there is a null behind it. -/
theorem holds_put : Holds (put b s) 0 s ↔ b s.length = '\x00' := by
  constructor
  · intro h
    have hend := h s.length le_rfl
    rwa [Nat.zero_add, put_above le_rfl, List.getD_eq_default _ _ le_rfl] at hend
  · intro h k hk
    rw [Nat.zero_add]
    rcases Nat.lt_or_eq_of_le hk with hk | rfl
    · exact put_below hk
    · rw [put_above le_rfl, h, List.getD_eq_default _ _ le_rfl]

theorem cleared_below {j : Nat} (hj : j < szFname) : cleared b j = '\x00' := if_pos ⟨Nat.zero_le j, by omega⟩

theorem cleared_last : cleared b szFname = b szFname := memset_of_not_mem (Or.inr (by omega))

theorem field_put : Field (put (cleared b) s) s ↔ Ends b s := by
  unfold Field Ends
  rw [holds_put, and_comm]
  refine and_congr_right fun hs => ?_
  rcases Nat.lt_or_eq_of_le hs with hs | hs
  · exact ⟨fun _ h => absurd h (Nat.ne_of_lt hs), fun _ => cleared_below hs⟩
  · rw [hs, cleared_last]
    exact ⟨fun h _ => h, fun h => h rfl⟩

theorem field_memset : Field (memset (put b s) s.length '\x00' 1) s ↔ s.length ≤ szFname := by
  refine ⟨And.right, fun h => ⟨fun k hk => ?_, h⟩⟩
  rw [Nat.zero_add]
  rcases Nat.lt_or_eq_of_le hk with hk | rfl
  · rw [memset_of_not_mem (Or.inl hk), put_below hk]
  · rw [memset, if_pos ⟨le_rfl, Nat.lt_succ_self _⟩, List.getD_eq_default _ _ le_rfl]

theorem unknown_eq : unknown = ['u', 'n', 'k', 'n', 'o', 'w', 'n'] := chars_ofList _

theorem field_unknown : Field (strcpy b 0 unknown) unknown :=
  ⟨holds_strcpy _ _ _, by rw [unknown_eq]; decide⟩

/-- A field with two strings: they are the same, if there is no null in them. -/
theorem Field.unique {t : Str} (hs : Field b s) (ht : Field b t) (hs0 : '\x00' ∉ s) (ht0 : '\x00' ∉ t) : s = t := by
  rw [← hs.1.strAt (n := szFname + 1) hs0 (by have := hs.2; omega),
    ← ht.1.strAt (n := szFname + 1) ht0 (by have := ht.2; omega)]

/-! ## What is broken out -/

/-- The fields after an id that is read to its end -/
def brokenOut (long : Nat) (chan : ClientIoChan) (id : Str) : ClientIoChan where
  name :=
    let b := if nameOf id = [] then strcpy chan.name 0 unknown else put chan.name (nameOf id)
    if hostOf id = [] then strcpy b 0 unknown else b
  host :=
    let b := put chan.host (hostOf id)
    if hasDomain id then memset b (hostOf id).length '\x00' 1 else b
  pid := CInt.atoi long (pidOf id)

theorem dropWhile_colon (ip : Str) : (ip.dropWhile inHost).dropWhile (· != ':') = ip.dropWhile (· != ':') := by
  induction ip with
  | nil => rfl
  | cons c ip ih =>
    by_cases hc : inHost c = true
    · have hcolon : (c != ':') = true := (Bool.and_eq_true_iff.mp hc).1
      rw [List.dropWhile_cons_of_pos hc, List.dropWhile_cons_of_pos (p := (· != ':')) hcolon, ih]
    · rw [List.dropWhile_cons_of_neg hc]

theorem dropWhile_ne_eq_nil {ch : Char} : id.dropWhile (· != ch) = [] ↔ ch ∉ id := by
  rw [List.dropWhile_eq_nil_iff]
  exact ⟨fun h hmem => by simpa using h ch hmem, fun h c hc => bne_iff_ne.mpr fun he => h (he ▸ hc)⟩

theorem breakoutPid_eq (chan : ClientIoChan) (ip : Str) :
    breakoutPid long chan ip = if ip = [] then none else some { chan with pid := CInt.atoi long (ip.drop 1) } := by
  cases ip with
  | nil => rfl
  | cons c ip => rfl

/-- The host and the process id, behind the `@` -/
theorem breakoutHost_eq_some {ip : Str} (ha : afterAt id = ip) :
    breakoutHost long chan ip = some c ↔
      hostSpan id ≤ szFname + 1 ∧ ':' ∈ afterAt id ∧
        { name := if hostOf id = [] then strcpy chan.name 0 unknown else chan.name
          host :=
            if hasDomain id then memset (put chan.host (hostOf id)) (hostOf id).length '\x00' 1
            else put chan.host (hostOf id)
          pid := CInt.atoi long (pidOf id) } = c := by
  subst ha
  show (if hostSpan id ≤ szFname + 1 then _ else none) = _ ↔ _
  by_cases hspan : hostSpan id ≤ szFname + 1
  · rw [if_pos hspan, breakoutPid_eq, dropWhile_colon, and_iff_right hspan]
    by_cases hcolon : ':' ∈ afterAt id
    · rw [if_neg (mt dropWhile_ne_eq_nil.mp (not_not_intro hcolon)), and_iff_right hcolon]
      by_cases h0 : hostOf id = []
      · rw [if_pos h0, if_pos (show (afterAt id).takeWhile inHost = [] from h0), Option.some.injEq]
        rfl
      · rw [if_neg h0, if_neg (show ¬ (afterAt id).takeWhile inHost = [] from h0), Option.some.injEq]
        rfl
    · rw [if_pos (dropWhile_ne_eq_nil.mpr hcolon)]
      exact ⟨nofun, fun h => absurd h.1 hcolon⟩
  · rw [if_neg hspan]
    exact ⟨nofun, fun h => absurd h.1 hspan⟩

theorem procBreakoutClientID_eq_some :
    procBreakoutClientID long chan (some id) = some c ↔
      (nameOf id).length ≤ szFname + 1 ∧ '@' ∈ id ∧ hostSpan id ≤ szFname + 1 ∧ ':' ∈ afterAt id ∧
        brokenOut long chan id = c := by
  show (if (nameOf id).length ≤ szFname + 1 then _ else none) = _ ↔ _
  split
  · rename_i hname
    rw [and_iff_right hname]
    cases hd : id.dropWhile (· != '@') with
    | nil => exact ⟨nofun, fun h => absurd h.1 (dropWhile_ne_eq_nil.mp hd)⟩
    | cons a ip =>
      have hat : '@' ∈ id := by
        by_contra hn
        rw [dropWhile_ne_eq_nil.mpr hn] at hd
        cases hd
      have ha : afterAt id = ip := by rw [afterAt, hd, List.drop_one, List.tail_cons]
      rw [and_iff_right hat]
      exact breakoutHost_eq_some ha
  · rename_i hname
    exact ⟨nofun, fun h => absurd h.1 hname⟩

theorem unknown_ne_nil : unknown ≠ [] := by
  rw [unknown_eq]
  exact List.cons_ne_nil _ _

theorem null_not_mem_unknown : '\x00' ∉ unknown := by
  rw [unknown_eq]
  decide

/-- The default for the name -/
theorem field_name_of_nil (h : nameOf id = []) : Field (brokenOut long chan id).name unknown := by
  simp only [brokenOut, if_pos h]
  split
  · exact field_unknown
  · exact field_unknown

/-- The field of a host that is put there -/
theorem field_host (chan : ClientIoChan) (id : Str) :
    Field (brokenOut long { chan with name := cleared chan.name, host := cleared chan.host } id).host (hostOf id) ↔
      (hostOf id).length ≤ szFname ∧ (hasDomain id = true ∨ Ends chan.host (hostOf id)) := by
  simp only [brokenOut]
  cases hasDomain id with
  | true => simp only [if_true, field_memset, true_or, and_true]
  | false =>
    simp only [Bool.false_eq_true, if_false, field_put, false_or]
    exact ⟨fun h => ⟨h.1, h⟩, And.right⟩

/-- The ids that are broken out right -/
theorem ready_iff (hlong : 32 ≤ long) (chan : ClientIoChan) (text : Str) :
    Identified long chan text ↔ Complete chan (scanReady text) := by
  show (∃ c, procBreakoutClientID _ _ (some (scanReady text)) = some c ∧ c.Has _ _ _) ↔ _
  generalize scanReady text = id
  simp only [procBreakoutClientID_eq_some]
  constructor
  · rintro ⟨c, ⟨-, hat, -, hcolon, rfl⟩, hname, hhost, hpid⟩
    have hne : hostOf id ≠ [] := by
      intro h0
      have hempty := (@field_host long chan id).mpr (by
        rw [h0]
        exact ⟨Nat.zero_le _, Or.inr ⟨Nat.zero_le _, nofun⟩⟩)
      rw [orUnknown, if_pos h0] at hhost
      rw [h0] at hempty
      exact unknown_ne_nil (hhost.unique hempty null_not_mem_unknown List.not_mem_nil)
    rw [orUnknown, if_neg hne] at hhost
    obtain ⟨hlen, hend⟩ := (field_host chan id).mp hhost
    refine ⟨hat, hcolon, hne, ?_, hlen, hend, (CInt.atoi_eq_iff hlong).mp hpid⟩
    by_cases hn : nameOf id = []
    · rw [hn]
      exact ⟨Nat.zero_le _, nofun⟩
    · simp only [brokenOut, if_neg hn, if_neg hne, orUnknown] at hname
      exact field_put.mp hname
  · rintro ⟨hat, hcolon, hne, hname, hhost, hend, hpid⟩
    refine ⟨_, ⟨?_, hat, ?_, hcolon, rfl⟩, ?_, ?_, (CInt.atoi_eq_iff hlong).mpr hpid⟩
    · have := hname.1
      omega
    · unfold hostSpan
      split <;> omega
    · simp only [brokenOut, if_neg hne, orUnknown]
      split
      · exact field_unknown
      · exact field_put.mpr hname
    · rw [orUnknown, if_neg hne]
      exact (field_host chan id).mpr ⟨hhost, hend⟩

end

/-! ## The messages of `dcaSupOpenConn` -/

/-- The parts of a message that fits -/
structure Sendable (name host domain : Str) (pid : Int) : Prop where
  name_noBlank : ∀ c ∈ name, isSpace c = false
  name_noAt : '@' ∉ name
  name_noNull : '\x00' ∉ name
  host_noBlank : ∀ c ∈ host, isSpace c = false
  host_inHost : ∀ c ∈ host, inHost c = true
  domain_noBlank : ∀ c ∈ domain, isSpace c = false
  domain_noColon : ':' ∉ domain
  pid_nonneg : 0 ≤ pid
  pid_int : CInt.Fits 32 pid
  fits : (supReady name host domain pid).length ≤ 119

/-- The message is broken out to what was sent. -/
def Yields (long : Nat) (chan : ClientIoChan) (name host domain : Str) (pid : Int) : Prop :=
  ∃ c, ready long chan (supReady name host domain pid) = some c ∧ c.Has name host pid

section
variable {name host domain : Str} {pid : Int}

theorem isPrefixOf?_append (s t : Str) : s.isPrefixOf? (s ++ t) = some t := by
  induction s with
  | nil => rfl
  | cons c s ih => rw [List.cons_append, List.isPrefixOf?, if_pos BEq.rfl, ih]

/-- The id of a message -/
def clientId (name host domain : Str) (pid : Int) : Str := name ++ '@' :: (host ++ '.' :: (domain ++ ':' :: printInt pid))

theorem Sendable.noBlank (h : Sendable name host domain pid) :
    ∀ c ∈ clientId name host domain pid, isSpace c = false := by
  obtain ⟨n, rfl⟩ := Int.eq_ofNat_of_zero_le h.pid_nonneg
  intro c hc
  simp only [clientId, List.mem_append, List.mem_cons] at hc
  obtain hc | rfl | hc | rfl | hc | rfl | hc := hc
  · exact h.name_noBlank c hc
  · rfl
  · exact h.host_noBlank c hc
  · rfl
  · exact h.domain_noBlank c hc
  · rfl
  · exact not_isSpace_of_isDigit (isDigit_toDigits hc)

theorem scanReady_supReady (h : Sendable name host domain pid) :
    scanReady (supReady name host domain pid) = clientId name host domain pid := by
  have htext : supReady name host domain pid =
      chars "sup_ready" ++ (' ' :: (chars "rc_" ++ clientId name host domain pid)) := by
    have hfront : chars "sup_ready rc_" = chars "sup_ready" ++ ' ' :: chars "rc_" := by
      have hready : chars "sup_ready rc_" = ['s', 'u', 'p', '_', 'r', 'e', 'a', 'd', 'y', ' ', 'r', 'c', '_'] :=
        chars_ofList _
      have hname : chars "sup_ready" = ['s', 'u', 'p', '_', 'r', 'e', 'a', 'd', 'y'] := chars_ofList _
      have hrc : chars "rc_" = ['r', 'c', '_'] := chars_ofList _
      rw [hready, hname, hrc]
      rfl
    simp only [supReady, hfront, clientId, List.append_assoc, List.cons_append]
  have hrc : (' ' :: (chars "rc_" ++ clientId name host domain pid)).dropWhile isSpace =
      chars "rc_" ++ clientId name host domain pid := by
    have hchars : chars "rc_" = ['r', 'c', '_'] := chars_ofList _
    rw [hchars]
    rfl
  have hword : ∀ c ∈ clientId name host domain pid, (!isSpace c) = true := fun c hc => by
    rw [h.noBlank c hc]
    rfl
  have hdrop : (clientId name host domain pid).dropWhile isSpace = clientId name host domain pid :=
    List.dropWhile_eq_self_iff.mpr fun hlen => by simpa using h.noBlank _ (List.getElem_mem hlen)
  rw [scanReady, htext, isPrefixOf?_append]
  show (match (chars "rc_").isPrefixOf? ((' ' :: _).dropWhile isSpace) with | none => [] | some text => _) = _
  rw [hrc, isPrefixOf?_append]
  show ((clientId name host domain pid).dropWhile isSpace).takeWhile (!isSpace ·) = _
  rw [hdrop, List.takeWhile_eq_self_iff.mpr hword]

/-- The parts of the id of a message are what was sent. -/
theorem parts_clientId (h : Sendable name host domain pid) :
    nameOf (clientId name host domain pid) = name ∧ hostOf (clientId name host domain pid) = host ∧
      hasDomain (clientId name host domain pid) = true ∧ atoi (pidOf (clientId name host domain pid)) = pid ∧
      '@' ∈ clientId name host domain pid ∧ ':' ∈ afterAt (clientId name host domain pid) := by
  have hname := span_sep (host ++ '.' :: (domain ++ ':' :: printInt pid)) (p := (· != '@')) (a := '@')
    (fun d hd => bne_iff_ne.mpr fun he => h.name_noAt (he ▸ hd)) rfl
  have hafter : afterAt (clientId name host domain pid) = host ++ '.' :: (domain ++ ':' :: printInt pid) := by
    rw [afterAt, clientId, hname.2]
    rfl
  have hhost := span_sep (a := '.') (domain ++ ':' :: printInt pid) h.host_inHost rfl
  have hdomain := span_sep (printInt pid) (p := (· != ':')) (a := ':') (w := host ++ '.' :: domain)
    (fun d hd => by
      rcases List.mem_append.mp hd with hd | hd
      · exact (Bool.and_eq_true_iff.mp (h.host_inHost d hd)).1
      · rcases List.mem_cons.mp hd with rfl | hd
        · rfl
        · exact bne_iff_ne.mpr fun he => h.domain_noColon (he ▸ hd)) rfl
  rw [List.append_assoc, List.cons_append] at hdomain
  refine ⟨hname.1, ?_, ?_, ?_, ?_, ?_⟩
  · rw [hostOf, hafter, hhost.1]
  · rw [hasDomain, hafter, hhost.2]
    rfl
  · rw [pidOf, hafter, hdomain.2]
    show atoi (printInt pid) = pid
    rw [← List.append_nil (printInt pid), atoi_printInt pid [] (by simp)]
  · simp [clientId]
  · rw [hafter]
    simp

/-- What was sent is what is broken out exactly if no part is missing (an empty host does no harm to a client called
`unknown`) and the name and the host end in their fields. -/
theorem yields_iff {long : Nat} (hlong : 32 ≤ long) {chan : ClientIoChan} (h : Sendable name host domain pid) :
    Yields long chan name host domain pid ↔
      name ≠ [] ∧ (host = [] → name = unknown) ∧ Ends chan.name name ∧ host.length ≤ szFname := by
  obtain ⟨hname, hhost, hdomain, hread, hat, hcolon⟩ := parts_clientId h
  have hpid : CInt.atoi long (pidOf (clientId name host domain pid)) = pid :=
    ((CInt.atoi_eq_iff hlong).mpr (hread.symm ▸ h.pid_int)).trans hread
  have hfield := @field_host long chan (clientId name host domain pid)
  show (∃ c, procBreakoutClientID _ _ (some (scanReady _)) = some c ∧ c.Has _ _ _) ↔ _
  rw [scanReady_supReady h]
  simp only [procBreakoutClientID_eq_some]
  have hnull := h.name_noNull
  generalize clientId name host domain pid = id at *
  subst hname hhost
  constructor
  · rintro ⟨c, ⟨-, -, -, -, rfl⟩, hfname, hfhost, -⟩
    have hempty : hostOf id = [] → nameOf id = unknown := by
      intro h0
      simp only [brokenOut, if_pos h0] at hfname
      exact hfname.unique field_unknown hnull null_not_mem_unknown
    refine ⟨fun h0 => ?_, hempty, ?_, hfhost.2⟩
    · exact unknown_ne_nil (((field_name_of_nil h0).unique hfname null_not_mem_unknown hnull).trans h0)
    · by_cases h0 : hostOf id = []
      · rw [hempty h0, unknown_eq]
        exact ⟨by decide, fun hlen => absurd hlen (by decide)⟩
      · by_cases hn : nameOf id = []
        · rw [hn]
          exact ⟨Nat.zero_le _, nofun⟩
        · simp only [brokenOut, if_neg h0, if_neg hn] at hfname
          exact field_put.mp hfname
  · rintro ⟨hne, hempty, hends, hlen⟩
    refine ⟨_, ⟨Nat.le_succ_of_le hends.1, hat, ?_, hcolon, rfl⟩, ?_, hfield.mpr ⟨hlen, Or.inl hdomain⟩, hpid⟩
    · rw [hostSpan, if_pos hdomain]
      exact Nat.succ_le_succ hlen
    · simp only [brokenOut, if_neg hne]
      split
      · rename_i h0
        rw [hempty h0]
        exact field_unknown
      · exact field_put.mpr hends

end

/-- Which messages of `dcaSupOpenConn`, and which texts, give the channel the identity of the client -/
theorem client_identity_iff (long : Nat) (hlong : 32 ≤ long) (chan : ClientIoChan) :
    (∀ name host domain pid, Sendable name host domain pid →
      (Yields long chan name host domain pid ↔
        name ≠ [] ∧ (host = [] → name = unknown) ∧ Ends chan.name name ∧ host.length ≤ szFname)) ∧
    ∀ text, Identified long chan text ↔ Complete chan (scanReady text) :=
  ⟨fun _ _ _ _ h => yields_iff hlong h, ready_iff hlong chan⟩

/-- A channel that was not used before -/
def ClientIoChan.zero : ClientIoChan where
  name := fun _ => '\x00'
  host := fun _ => '\x00'
  pid := 0

theorem client_identity_pan : Yields 32 .zero (chars "pan") (chars "newfirm") (chars "kpno.noao.edu") 4711 := by
  have h : Sendable (chars "pan") (chars "newfirm") (chars "kpno.noao.edu") 4711 := by
    constructor <;> decide +kernel
  have hname : chars "pan" = ['p', 'a', 'n'] := chars_ofList _
  have hhost : chars "newfirm" = ['n', 'e', 'w', 'f', 'i', 'r', 'm'] := chars_ofList _
  refine ((client_identity_iff 32 le_rfl .zero).1 _ _ _ _ h).mpr ⟨?_, fun h0 => ?_, ⟨?_, fun _ => rfl⟩, ?_⟩
  · rw [hname]
    exact List.cons_ne_nil _ _
  · rw [hhost] at h0
    cases h0
  · rw [hname]
    decide
  · rw [hhost]
    decide

/-- Without an `@` the loop for the host starts behind the null. Without a host the name is lost. -/
theorem client_identity_not :
    ready 32 .zero (chars "sup_ready rc_pan") = none ∧ ¬ Identified 32 .zero (chars "sup_ready rc_pan") ∧
      ¬ Identified 32 .zero (chars "sup_ready rc_pan@:4711") := by
  refine ⟨?_, fun h => ?_, fun h => ?_⟩
  · refine Option.eq_none_iff_forall_ne_some.mpr fun c hc => ?_
    exact absurd (procBreakoutClientID_eq_some.mp hc).2.1 (by decide +kernel)
  · exact absurd ((ready_iff le_rfl _ _).mp h).1 (by decide +kernel)
  · exact ((ready_iff le_rfl _ _).mp h).2.2.1 (by decide +kernel)

end Ndhs.Sup
