import Mathlib.Data.List.Infix

/-!
# A register behind a channel

A receiver takes its messages in the order in which they were sent. Some messages write a register
of the receiver, others make it read the register. What a message will read is decided when it is
sent: by the register and the messages before it in the channel.

* `after write v L`: the register after the messages `L`, `v` before them.
* `Sees write reads v L k`: every message of `L` that reads the register will find `k`.
* `Sees.send`, `Sees.deliver`: how the two ends of the channel keep it.
-/

namespace Channel

variable {μ ν : Type*} {write : μ → Option ν} {reads : μ → Prop} {v k : ν} {m : μ} {L L' : List μ}

/-- The register after the messages of a channel. -/
def after (write : μ → Option ν) (v : ν) (L : List μ) : ν := L.foldl (fun v m => (write m).getD v) v

@[simp] theorem after_nil : after write v [] = v := rfl

@[simp] theorem after_cons : after write v (m :: L) = after write ((write m).getD v) L := rfl

theorem after_append : after write v (L ++ L') = after write (after write v L) L' := List.foldl_append

@[simp] theorem after_snoc : after write v (L ++ [m]) = (write m).getD (after write v L) := after_append

/-- A message that does not write leaves the register. -/
theorem after_snoc_of_none (h : write m = none) : after write v (L ++ [m]) = after write v L := by
  rw [after_snoc, h]
  rfl

/-- Every message that reads the register will find `k`. -/
def Sees (write : μ → Option ν) (reads : μ → Prop) (v : ν) (L : List μ) (k : ν) : Prop :=
  ∀ L' m, reads m → L' ++ [m] <+: L → after write v L' = k

/-- A channel without a message that reads. -/
theorem Sees.of_none (h : ∀ m ∈ L, ¬ reads m) : Sees write reads v L k :=
  fun _ m hm hp => absurd hm (h m (hp.subset (List.mem_append_right _ List.mem_cons_self)))

theorem Sees.head (h : Sees write reads v (m :: L) k) (hm : reads m) : v = k :=
  h [] m hm (List.cons_prefix_cons.mpr ⟨rfl, List.nil_prefix⟩)

/-- The oldest message is delivered. -/
theorem Sees.deliver (h : Sees write reads v (m :: L) k) :
    Sees write reads ((write m).getD v) L k :=
  fun L' m' hm' hp => h (m :: L') m' hm' (List.cons_prefix_cons.mpr ⟨rfl, hp⟩)

/-- A message is sent; if it reads the register, the messages before it leave `k`. -/
theorem Sees.send (h : Sees write reads v L k) (hm : reads m → after write v L = k) :
    Sees write reads v (L ++ [m]) k := by
  intro L' m' hm' hp
  rcases List.prefix_concat_iff.mp hp with heq | hp
  · obtain ⟨rfl, hmm⟩ := List.append_inj' heq rfl
    cases hmm
    exact hm hm'
  · exact h L' m' hm' hp

/-- Messages that do not read the register are sent. -/
theorem Sees.append (h : Sees write reads v L k) (hL : ∀ m ∈ L', ¬ reads m) : Sees write reads v (L ++ L') k := by
  induction L' generalizing L with
  | nil => rwa [List.append_nil]
  | cons m L' ih =>
    rw [List.append_cons]
    exact ih (h.send fun hm => absurd hm (hL m List.mem_cons_self)) fun m' hm' => hL m' (List.mem_cons_of_mem m hm')

end Channel
