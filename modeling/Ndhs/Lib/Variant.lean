import Ndhs.Lib.Run

/-!
# Runs that come to an end

A variant is a number that every input of some kind lowers. A run of such inputs is then no longer
than the variant at its start (`run_variant`), and one of them leads to a state in which no input
of the kind has a step (`exists_stuck`). `run_snoc` and `Steps.snoc` split off the last step. For a kind
that depends on the state, `restrict` leaves the other steps out.
-/

namespace Machine

variable {σ ι : Type*} {step : σ → ι → Option σ} {I : σ → Prop} {kind : ι → Prop} {μ : σ → Nat}
  {s t : σ}

theorem run_snoc {as : List ι} (hr : run step s as = some t) (a : ι) :
    run step s (as ++ [a]) = step t a := by
  induction as generalizing s with
  | nil =>
    cases hr
    rw [List.nil_append, run_cons]
    cases step t a <;> rfl
  | cons b as ih =>
    rw [run_cons] at hr
    obtain ⟨u, hu, hr⟩ := Option.bind_eq_some_iff.mp hr
    rw [List.cons_append, run_cons, hu]
    exact ih hr

theorem Steps.snoc {ok : σ → ι → Prop} {as : List ι} {a : ι} (h : Steps ok step s as)
    (ha : ∀ t, run step s as = some t → ok t a) : Steps ok step s (as ++ [a]) := by
  induction as generalizing s with
  | nil => exact ⟨ha s rfl, fun _ _ => trivial⟩
  | cons b as ih =>
    refine ⟨h.1, fun u hu => ih (h.2 u hu) fun t hr => ha t ?_⟩
    rw [run_cons, hu]
    exact hr

/-- The steps that meet `ok`. -/
def restrict (ok : σ → ι → Prop) [∀ s a, Decidable (ok s a)] (step : σ → ι → Option σ) : σ → ι → Option σ :=
  fun s a => if ok s a then step s a else none

section Restrict

variable {ok : σ → ι → Prop} [∀ s a, Decidable (ok s a)] {a : ι}

theorem restrict_eq_some : restrict ok step s a = some t ↔ ok s a ∧ step s a = some t := by
  unfold restrict
  split <;> simp_all

theorem restrict_eq_none : restrict ok step s a = none ↔ (ok s a → step s a = none) := by
  unfold restrict
  split <;> simp_all

theorem run_restrict {as : List ι} :
    run (restrict ok step) s as = some t ↔ Steps ok step s as ∧ run step s as = some t := by
  induction as generalizing s with
  | nil => exact ⟨fun h => ⟨trivial, h⟩, And.right⟩
  | cons a as ih =>
    rw [run_cons, run_cons, Option.bind_eq_some_iff, Option.bind_eq_some_iff]
    constructor
    · rintro ⟨u, hu, hr⟩
      obtain ⟨ho, hu⟩ := restrict_eq_some.mp hu
      obtain ⟨hs, hr⟩ := ih.mp hr
      refine ⟨⟨ho, fun v hv => ?_⟩, u, hu, hr⟩
      obtain rfl := Option.some.inj (hu.symm.trans hv)
      exact hs
    · rintro ⟨⟨ho, hs⟩, u, hu, hr⟩
      exact ⟨u, restrict_eq_some.mpr ⟨ho, hu⟩, ih.mpr ⟨hs u hu, hr⟩⟩

end Restrict

/-- No input of the kind has a step. -/
def Stuck (kind : ι → Prop) (step : σ → ι → Option σ) (s : σ) : Prop :=
  ∀ a, kind a → step s a = none

/-- The variant rule: the inputs of a run are paid for by the variant. -/
theorem run_variant (hI : ∀ s a t, I s → kind a → step s a = some t → I t ∧ μ t < μ s) {as : List ι}
    (hs : I s) (hk : ∀ a ∈ as, kind a) (hr : run step s as = some t) :
    I t ∧ as.length + μ t ≤ μ s := by
  induction as generalizing s with
  | nil =>
    cases hr
    exact ⟨hs, Nat.le_of_eq (Nat.zero_add _)⟩
  | cons a as ih =>
    rw [run_cons] at hr
    obtain ⟨u, hu, hr⟩ := Option.bind_eq_some_iff.mp hr
    obtain ⟨hIu, hlt⟩ := hI s a u hs (hk a List.mem_cons_self) hu
    obtain ⟨hIt, hle⟩ := ih hIu (fun b hb => hk b (List.mem_cons_of_mem a hb)) hr
    refine ⟨hIt, ?_⟩
    rw [List.length_cons]
    omega

/-- Some run of inputs of the kind cannot go on. -/
theorem exists_stuck (hI : ∀ s a t, I s → kind a → step s a = some t → I t ∧ μ t < μ s) (hs : I s) :
    ∃ as t, (∀ a ∈ as, kind a) ∧ run step s as = some t ∧ Stuck kind step t := by
  induction hm : μ s using Nat.strongRecOn generalizing s with
  | ind m ih =>
    by_cases hstuck : Stuck kind step s
    · exact ⟨[], s, (fun _ ha => nomatch ha), rfl, hstuck⟩
    · unfold Stuck at hstuck
      push Not at hstuck
      obtain ⟨a, ha, hne⟩ := hstuck
      obtain ⟨u, hu⟩ := Option.ne_none_iff_exists'.mp hne
      obtain ⟨hIu, hlt⟩ := hI s a u hs ha hu
      obtain ⟨as, t, has, hr, ht⟩ := ih (μ u) (hm ▸ hlt) hIu rfl
      refine ⟨a :: as, t, ?_, ?_, ht⟩
      · rintro b (_ | ⟨_, hb⟩)
        · exact ha
        · exact has b hb
      · rw [run_cons, hu]
        exact hr

end Machine
