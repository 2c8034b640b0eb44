import Mathlib.Data.List.DropRight
import Ndhs.Col.Connect
import Ndhs.Lib.Socket
import Ndhs.Lib.Words

/-!
# The device that the Supervisor names (`lib/dcalib/dcaDev.c`)

A PAN asks the Supervisor for a Collector. The reply has 120 bytes with a text `node:port`; if no Collector is free, the
Supervisor closes the connection instead. `dcaInitChannel` takes the node and the port from whatever is in the buffer.

* `Outcome`: what comes of the three calls. None of them has a status, so `failed` is not reached by the code.
* `Names`: a reply that is complete and well-formed. `GoodReply`: such a reply gives its node and port, and any other is
  reported.
* `dcaGetNode_text`, `dcaGetPort_text`: with a null in the buffer the functions see the text in front of it, as in
  `Col/Connect.lean`.
* `goodReply_iff`: this is so exactly for the well-formed replies with a node that fits its buffer.
-/

namespace Ndhs.Collector.Device

open Text Socket Words

/-- `SZMSG` -/
def szMsg : Nat := 120

/-- The characters of bytes -/
def ofBytes (bs : List UInt8) : Str := bs.map fun b => Char.ofNat b.toNat

/-- `dcaGetDCADev`: what is received is put in a buffer of zeros. The status of `dcaRecvMsg` is not looked at. -/
def dcaGetDCADev (l : List Arrival) : Str :=
  let got := ofBytes (recv szMsg l).got
  got ++ List.replicate (szMsg - got.length) '\x00'

/-- `dcaGetNode`: the loop ends in `device`, and the node and its null fit. -/
def dcaGetNode (device : Str) : Option Str :=
  let node := device.takeWhile fun c => c != '\x00' && c != ':'
  if node.length < device.length ∧ node.length < szNode then some node else none

/-- `s` without a sign -/
def unsigned : Str → Str
  | '-' :: s => s
  | '+' :: s => s
  | s => s

/-- `atoi` of a text that is not terminated: a character that ends the number is looked for. -/
def atoiWithin (s : Str) : Option Int :=
  if (unsigned (s.dropWhile isSpace)).dropWhile Char.isDigit = [] then none else some (atoi s)

/-- `dcaGetPort`: `strchr` ends at the null, and gives `NULL` there. -/
def dcaGetPort (device : Str) : Option Int :=
  match device.dropWhile fun c => c != '\x00' && c != ':' with
  | ':' :: s => atoiWithin s
  | _ => none

/-- What comes of the calls: a node and a port, a failure that is reported, or an invalid pointer or an overrun. -/
inductive Outcome where
  | device (node : Str) (port : Int)
  | failed
  | crashed
  deriving DecidableEq

/-- The three calls in `dcaInitChannel` -/
def collectorDevice (l : List Arrival) : Outcome :=
  let device := dcaGetDCADev l
  match dcaGetNode device, dcaGetPort device with
  | some node, some port => .device node port
  | _, _ => .crashed

/-! ## What is wanted -/

/-- A text `node:port` in 120 bytes, and a null behind it -/
structure Names (reply : Str) (node : Str) (port : Nat) : Prop where
  length : reply.length = szMsg
  text : ∃ digits rest, reply = node ++ ':' :: (digits ++ '\x00' :: rest) ∧ digits ≠ [] ∧
    (∀ c ∈ digits, c.isDigit = true) ∧ port = Nat.ofDigitChars 10 digits 0
  node_ne_nil : node ≠ []
  node_plain : ∀ c ∈ node, c ≠ '\x00' ∧ c ≠ ':'
  port_lt : port < 2 ^ 16

/-- The reply is used as it should be. -/
structure GoodReply (l : List Arrival) : Prop where
  named : ∀ node port, Names (ofBytes (recv szMsg l).got) node port → collectorDevice l = .device node port
  reported : (¬ ∃ node port, Names (ofBytes (recv szMsg l).got) node port) → collectorDevice l = .failed
  safe : collectorDevice l ≠ .crashed

/-! ## The buffer -/

section
variable {l : List Arrival} {reply node : Str} {port : Nat} {device : Str}

theorem span_text {rest : Str} (hnull : '\x00' ∉ device) :
    (device ++ '\x00' :: rest).takeWhile (fun c => c != '\x00' && c != ':') = device.takeWhile (· != ':') ∧
      (device ++ '\x00' :: rest).dropWhile (fun c => c != '\x00' && c != ':') =
        device.dropWhile (· != ':') ++ '\x00' :: rest := by
  induction device with
  | nil => exact ⟨rfl, rfl⟩
  | cons c device ih =>
    rw [List.mem_cons, not_or] at hnull
    have hc : (c != '\x00') = true := bne_iff_ne.mpr (Ne.symm hnull.1)
    obtain ⟨htake, hdrop⟩ := ih hnull.2
    rw [List.cons_append, List.takeWhile_cons, List.takeWhile_cons, List.dropWhile_cons, List.dropWhile_cons, hc,
      Bool.true_and, htake, hdrop]
    split
    · exact ⟨rfl, rfl⟩
    · exact ⟨rfl, rfl⟩

/-- The functions see the text in front of the null. -/
theorem dcaGetNode_text {rest : Str} (hnull : '\x00' ∉ device) :
    dcaGetNode (device ++ '\x00' :: rest) = Collector.dcaGetNode device := by
  have hlt : (device.takeWhile (· != ':')).length < (device ++ '\x00' :: rest).length := by
    have := (List.takeWhile_prefix (· != ':') (l := device)).length_le
    rw [List.length_append, List.length_cons]
    omega
  rw [dcaGetNode, Collector.dcaGetNode, (span_text hnull).1]
  simp only [hlt, true_and]

theorem readDigits_text (s : Str) {rest : Str} : readDigits (s ++ '\x00' :: rest) = readDigits s := by
  have htake : (s ++ '\x00' :: rest).takeWhile Char.isDigit = s.takeWhile Char.isDigit := by
    rw [List.takeWhile_append]
    split
    · rename_i h
      rw [List.takeWhile_cons_of_neg (by decide), List.append_nil,
        (List.takeWhile_prefix Char.isDigit).eq_of_length h]
    · rfl
  rw [readDigits, readDigits, htake]

theorem atoi_dropWhile (s : Str) : atoi (s.dropWhile isSpace) = atoi s := by
  unfold atoi
  rw [List.dropWhile_idempotent]

/-- A null ends the number. -/
theorem atoiWithin_text (s : Str) {rest : Str} : atoiWithin (s ++ '\x00' :: rest) = some (atoi s) := by
  have hspace : (s ++ '\x00' :: rest).dropWhile isSpace = s.dropWhile isSpace ++ '\x00' :: rest := by
    rw [List.dropWhile_append]
    split
    · rename_i h
      rw [List.isEmpty_iff.mp h]
      rfl
    · rfl
  have hstop : ∀ d : Str, ¬ (d ++ '\x00' :: rest).dropWhile Char.isDigit = [] := by
    intro d h0
    have hdigit := List.dropWhile_eq_nil_iff.mp h0 '\x00' (by simp)
    cases hdigit
  have hunsigned : ∃ d, unsigned (s.dropWhile isSpace ++ '\x00' :: rest) = d ++ '\x00' :: rest := by
    generalize s.dropWhile isSpace = d
    cases d with
    | nil => exact ⟨[], rfl⟩
    | cons c d =>
      by_cases hm : c = '-'
      · exact ⟨d, by rw [hm]; rfl⟩
      · by_cases hp : c = '+'
        · exact ⟨d, by rw [hp]; rfl⟩
        · refine ⟨c :: d, ?_⟩
          unfold unsigned
          split
          · rename_i h
            exact absurd (List.cons.inj h).1 hm
          · rename_i h
            exact absurd (List.cons.inj h).1 hp
          · rfl
  obtain ⟨d, hd⟩ := hunsigned
  have hatoi : atoi (s ++ '\x00' :: rest) = atoi s := by
    have hnot := List.head?_dropWhile_not isSpace s
    rw [← atoi_dropWhile, hspace, ← atoi_dropWhile s]
    generalize s.dropWhile isSpace = d at hnot
    cases d with
    | nil => rfl
    | cons c d =>
      by_cases hm : c = '-'
      · subst hm
        exact congrArg (fun n : Nat => -(n : Int)) (readDigits_text d)
      · by_cases hp : c = '+'
        · subst hp
          exact congrArg (fun n : Nat => (n : Int)) (readDigits_text d)
        · rw [List.cons_append, atoi_of_plain hnot hm hp, atoi_of_plain hnot hm hp]
          exact congrArg (fun n : Nat => (n : Int)) (readDigits_text (c :: d))
  rw [atoiWithin, hspace, hd, if_neg (hstop d), hatoi]

theorem dcaGetPort_text {rest : Str} (hnull : '\x00' ∉ device) :
    dcaGetPort (device ++ '\x00' :: rest) = Collector.dcaGetPort device := by
  rw [dcaGetPort, Collector.dcaGetPort, (span_text hnull).2]
  cases hd : device.dropWhile (· != ':') with
  | nil => rfl
  | cons c s =>
    have hc := List.head?_dropWhile_not (· != ':') device
    rw [hd] at hc
    obtain rfl : c = ':' := by simpa using hc
    exact atoiWithin_text s

/-- No failure is reported. -/
theorem collectorDevice_ne_failed (l : List Arrival) : collectorDevice l ≠ .failed := by
  unfold collectorDevice
  dsimp only
  split
  · exact Outcome.noConfusion
  · exact Outcome.noConfusion

theorem dcaGetDCADev_complete (h : (ofBytes (recv szMsg l).got).length = szMsg) :
    dcaGetDCADev l = ofBytes (recv szMsg l).got := by
  rw [dcaGetDCADev, h, Nat.sub_self]
  exact List.append_nil _

end

/-- A reply that names a node and a port -/
theorem collectorDevice_of_names {l : List Arrival} {node : Str} {port : Nat}
    (h : Names (ofBytes (recv szMsg l).got) node port) :
    collectorDevice l = if node.length < szNode then .device node port else .crashed := by
  obtain ⟨digits, rest, htext, hne, hdigit, hport⟩ := h.text
  have hnull : '\x00' ∉ node ++ ':' :: digits := by
    intro hm
    rcases List.mem_append.mp hm with hm | hm
    · exact (h.node_plain _ hm).1 rfl
    · rcases List.mem_cons.mp hm with hm | hm
      · cases hm
      · cases hdigit _ hm
  have hreply : dcaGetDCADev l = (node ++ ':' :: digits) ++ '\x00' :: rest := by
    rw [dcaGetDCADev_complete h.length, htext, List.append_assoc, List.cons_append]
  have hspan := span_sep (p := (· != ':')) (a := ':') digits (fun c hc => bne_iff_ne.mpr (h.node_plain c hc).2) rfl
  have hnode : dcaGetNode (dcaGetDCADev l) = if node.length < szNode then some node else none := by
    rw [hreply, dcaGetNode_text hnull, Collector.dcaGetNode, hspan.1]
  have hatoi : atoi digits = port := by
    obtain ⟨d, ds, rfl⟩ := List.exists_cons_of_ne_nil hne
    have hread := readDigits_append [] hdigit (by simp)
    rw [List.append_nil] at hread
    rw [atoi_of_isDigit (hdigit d List.mem_cons_self), hread, hport]
  have hgetPort : dcaGetPort (dcaGetDCADev l) = some port := by
    rw [hreply, dcaGetPort_text hnull, Collector.dcaGetPort, hspan.2]
    exact congrArg some hatoi
  unfold collectorDevice
  dsimp only
  rw [hnode, hgetPort]
  split_ifs
  · rfl
  · rfl

/-- The reply is used as it should be exactly if it names a node that fits its buffer, and a port. -/
theorem goodReply_iff (l : List Arrival) :
    GoodReply l ↔ ∃ node port, Names (ofBytes (recv szMsg l).got) node port ∧ node.length < szNode := by
  constructor
  · intro h
    by_cases hnames : ∃ node port, Names (ofBytes (recv szMsg l).got) node port
    · obtain ⟨node, port, hn⟩ := hnames
      refine ⟨node, port, hn, ?_⟩
      by_contra hlong
      have hcrash := collectorDevice_of_names hn
      rw [if_neg hlong] at hcrash
      exact h.safe hcrash
    · exact absurd (h.reported hnames) (collectorDevice_ne_failed l)
  · rintro ⟨node, port, hn, hshort⟩
    have hdevice := collectorDevice_of_names hn
    rw [if_pos hshort] at hdevice
    refine ⟨fun node' port' hn' => ?_, fun hnot => absurd ⟨node, port, hn⟩ hnot, ?_⟩
    · have hdevice' := collectorDevice_of_names hn'
      rw [hdevice] at hdevice'
      split_ifs at hdevice'
      rw [hdevice, hdevice']
    · rw [hdevice]
      exact Outcome.noConfusion

/-- `localhost` -/
def localhost : Str := ['l', 'o', 'c', 'a', 'l', 'h', 'o', 's', 't']

/-- The reply `localhost:4100`, in two pieces -/
def localReply : List Arrival :=
  let bs := (localhost ++ [':', '4', '1', '0', '0'] ++ List.replicate 106 '\x00').map fun c => UInt8.ofNat c.toNat
  [.again, .data (bs.headD 0) ((bs.drop 1).take 9), .data (bs.getD 10 0) (bs.drop 11)]

theorem goodReply_local : GoodReply localReply := by
  have hreply : ofBytes (recv szMsg localReply).got =
      localhost ++ ':' :: (['4', '1', '0', '0'] ++ '\x00' :: List.replicate 105 '\x00') := by decide +kernel
  refine (goodReply_iff _).mpr ⟨localhost, 4100, ?_, by decide⟩
  rw [hreply]
  exact ⟨by decide, ⟨_, _, rfl, by decide, by decide, by decide⟩, by decide, by decide, by decide⟩

/-- The Supervisor closes the connection: the number is read from an invalid pointer. -/
theorem goodReply_not : ¬ GoodReply [] := fun h => h.safe (by decide +kernel)

end Ndhs.Collector.Device
