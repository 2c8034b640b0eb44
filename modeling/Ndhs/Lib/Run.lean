import Mathlib.Data.List.Basic

/-!
# Runs of a program that may stop

A program is a partial step function `step : σ → ι → Option σ`: a state and an input give the
next state, or `none` if the program stopped (it called `exit`, or it has no such step). A run is
a list of inputs.

* `run step s as`: the state after the inputs `as`. `Reach step s t`: some run leads from `s`
  to `t`.
* `Always P step s as`: the run goes through and `P` holds in every state of it, the first and the
  last included.
* `Throughout P step s as`: `P` holds in every state of the run, which may end early.
* `Steps ok step s as`: every input of the run meets `ok` in the state it is given to.

`Reach.inv` is the invariant rule. `always_of_steps` is its form for a property that needs a side
condition on the inputs, and `always_iff_steps` is the exact form: if one bad input already breaks
`P`, the runs in which `P` always holds are the runs without a bad input;
`always_iff_steps_of_legal` is the same for the inputs that a caller may give.
`throughout_of_steps` and `throughout_iff_steps` are for runs that may end early, and `Steps.mono`
and `steps_iff` compare two side conditions.
-/

namespace Machine

variable {σ ι : Type*}

/-- The state after the inputs `as` from `s`; `none` if the program stopped. -/
def run (step : σ → ι → Option σ) : σ → List ι → Option σ
  | s, [] => some s
  | s, a :: as => (step s a).bind fun t => run step t as

/-- A run leads from `s` to `t`. -/
def Reach (step : σ → ι → Option σ) (s t : σ) : Prop := ∃ as, run step s as = some t

/-- The run goes through, and `P` holds in every state of it. -/
def Always (P : σ → Prop) (step : σ → ι → Option σ) : σ → List ι → Prop
  | s, [] => P s
  | s, a :: as => P s ∧ ∃ t, step s a = some t ∧ Always P step t as

/-- `P` holds in every state of the run, as far as it goes. -/
def Throughout (P : σ → Prop) (step : σ → ι → Option σ) : σ → List ι → Prop
  | s, [] => P s
  | s, a :: as => P s ∧ ∀ t, step s a = some t → Throughout P step t as

/-- Every input of the run meets `ok` in the state it is given to. -/
def Steps (ok : σ → ι → Prop) (step : σ → ι → Option σ) : σ → List ι → Prop
  | _, [] => True
  | s, a :: as => ok s a ∧ ∀ t, step s a = some t → Steps ok step t as

/-- The side condition of a run can be evaluated. -/
instance Steps.decidable (ok : σ → ι → Prop) [∀ s a, Decidable (ok s a)] (step : σ → ι → Option σ) :
    ∀ s as, Decidable (Steps ok step s as)
  | _, [] => .isTrue trivial
  | s, a :: as =>
    match h : step s a with
    | none => decidable_of_iff (ok s a)
      ⟨fun ho => ⟨ho, fun _ ht => nomatch h.symm.trans ht⟩, fun ho => ho.1⟩
    | some t =>
      have := Steps.decidable ok step t as
      decidable_of_iff (ok s a ∧ Steps ok step t as)
        ⟨fun ho => ⟨ho.1, fun _ ht => Option.some.inj (h.symm.trans ht) ▸ ho.2⟩,
          fun ho => ⟨ho.1, ho.2 t h⟩⟩

variable {step : σ → ι → Option σ} {P I : σ → Prop} {ok : σ → ι → Prop} {s t u : σ}

@[simp] theorem run_nil : run step s [] = some s := rfl

theorem run_cons (a : ι) (as : List ι) :
    run step s (a :: as) = (step s a).bind fun t => run step t as := rfl

/-- The invariant rule along one run. -/
theorem run_inv (hI : ∀ s a t, I s → step s a = some t → I t) {as : List ι} (hs : I s)
    (h : run step s as = some t) : I t := by
  induction as generalizing s with
  | nil => cases h; exact hs
  | cons a as ih =>
    rw [run_cons] at h
    cases hst : step s a with
    | none => rw [hst] at h; cases h
    | some s' =>
      rw [hst] at h
      exact ih (hI s a s' hs hst) h

/-- The invariant rule: what every step keeps holds in every state reached. -/
theorem Reach.inv (hI : ∀ s a t, I s → step s a = some t → I t) (hs : I s)
    (h : Reach step s t) : I t := by
  obtain ⟨as, ha⟩ := h
  exact run_inv hI hs ha

/-- `Always` weakens along an implication that an invariant gives. -/
theorem Always.mono {Q : σ → Prop} (hPQ : ∀ s, P s → Q s) {as : List ι}
    (h : Always P step s as) : Always Q step s as := by
  induction as generalizing s with
  | nil => exact hPQ s h
  | cons a as ih =>
    obtain ⟨hp, t, hst, ht⟩ := h
    exact ⟨hPQ s hp, t, hst, ih ht⟩

theorem Always.head {as : List ι} (h : Always P step s as) : P s := by
  cases as with
  | nil => exact h
  | cons a as => exact h.1

/-- What always holds along a run holds in the state it ends in. -/
theorem Always.last {as : List ι} (h : Always P step s as) :
    ∃ t, run step s as = some t ∧ P t := by
  induction as generalizing s with
  | nil => exact ⟨s, rfl, h⟩
  | cons a as ih =>
    obtain ⟨-, t, hst, ht⟩ := h
    obtain ⟨u, hu, hP⟩ := ih ht
    exact ⟨u, by rw [run_cons, hst]; exact hu, hP⟩

theorem Steps.last {as : List ι} {a : ι} (h : Steps ok step s (as ++ [a]))
    (hr : run step s as = some t) : ok t a := by
  induction as generalizing s with
  | nil => cases hr; exact h.1
  | cons b as ih =>
    rw [run_cons] at hr
    obtain ⟨u, hu, hr⟩ := Option.bind_eq_some_iff.mp hr
    exact ih (h.2 u hu) hr

theorem steps_and {ok' : σ → ι → Prop} {as : List ι} :
    Steps (fun s a => ok s a ∧ ok' s a) step s as ↔ Steps ok step s as ∧ Steps ok' step s as := by
  induction as generalizing s with
  | nil => exact ⟨fun _ => ⟨trivial, trivial⟩, fun _ => trivial⟩
  | cons a as ih =>
    constructor
    · rintro ⟨⟨h, h'⟩, ht⟩
      exact ⟨⟨h, fun t hst => (ih.mp (ht t hst)).1⟩, ⟨h', fun t hst => (ih.mp (ht t hst)).2⟩⟩
    · rintro ⟨⟨h, ht⟩, ⟨h', ht'⟩⟩
      exact ⟨⟨h, h'⟩, fun t hst => ih.mpr ⟨ht t hst, ht' t hst⟩⟩

/-- A side condition on the inputs alone -/
theorem steps_of_forall {p : ι → Prop} {as : List ι} (h : ∀ a ∈ as, p a) : Steps (fun _ => p) step s as := by
  induction as generalizing s with
  | nil => trivial
  | cons a as ih =>
    exact ⟨h a List.mem_cons_self, fun t _ => ih fun b hb => h b (List.mem_cons_of_mem a hb)⟩

/-- A side condition that every input meets in every state -/
theorem steps_of_all (h : ∀ s a, ok s a) (s : σ) (as : List ι) : Steps ok step s as := by
  induction as generalizing s with
  | nil => trivial
  | cons a as ih => exact ⟨h s a, fun t _ => ih t⟩

/-- The invariant rule along a run whose inputs all meet a side condition. -/
theorem Steps.run_inv (hI : ∀ s a t, I s → ok s a → step s a = some t → I t) {as : List ι}
    (hs : I s) (h : Steps ok step s as) (hr : run step s as = some t) : I t := by
  induction as generalizing s with
  | nil => cases hr; exact hs
  | cons a as ih =>
    rw [run_cons] at hr
    obtain ⟨s', hst, hr'⟩ := Option.bind_eq_some_iff.mp hr
    exact ih (hI s a s' hs h.1 hst) (h.2 s' hst) hr'

/-- The invariant rule for a property of the inputs so far and the state that they lead to. -/
theorem Steps.run_hist {H : List ι → σ → Prop} (hI : ∀ as u a v, H as u → ok u a → step u a = some v → H (as ++ [a]) v)
    {bs as : List ι} (hs : H bs s) (h : Steps ok step s as) (hr : run step s as = some t) : H (bs ++ as) t := by
  induction as generalizing bs s with
  | nil =>
    cases hr
    rwa [List.append_nil]
  | cons a as ih =>
    rw [run_cons] at hr
    obtain ⟨u, hu, hr⟩ := Option.bind_eq_some_iff.mp hr
    have h' := ih (hI bs s a u hs h.1 hu) (h.2 u hu) hr
    rwa [List.append_assoc] at h'

/-- One side condition gives another wherever an invariant holds that the steps which meet it keep. -/
theorem Steps.mono {ok' : σ → ι → Prop} (hI : ∀ s a t, I s → ok s a → step s a = some t → I t)
    (h : ∀ s a, I s → ok s a → ok' s a) {as : List ι} (hs : I s) (ho : Steps ok step s as) : Steps ok' step s as := by
  induction as generalizing s with
  | nil => trivial
  | cons a as ih =>
    obtain ⟨ha, ht⟩ := ho
    exact ⟨h s a hs ha, fun t hst => ih (hI s a t hs ha hst) (ht t hst)⟩

/-- The invariant rule with a side condition on the inputs: such a run goes through. -/
theorem always_of_steps (hI : ∀ s a, I s → ok s a → ∃ t, step s a = some t ∧ I t)
    {as : List ι} (hs : I s) (h : Steps ok step s as) : Always I step s as := by
  induction as generalizing s with
  | nil => exact hs
  | cons a as ih =>
    obtain ⟨t, hst, ht⟩ := hI s a hs h.1
    exact ⟨hs, t, hst, ih ht (h.2 t hst)⟩

/-- The exact form for the inputs that a caller may give. An invariant `I` that gives `P`, that every good
input keeps, and from which a bad input does not lead to a state with `P`: `P` always holds along the runs
without a bad input, and along no other. -/
theorem always_iff_steps_of_legal {legal : σ → ι → Prop} (hP : ∀ s, I s → P s)
    (hok : ∀ s a, I s → legal s a → ok s a → ∃ t, step s a = some t ∧ I t)
    (hbad : ∀ s a t, I s → legal s a → ¬ ok s a → step s a = some t → ¬ P t)
    {as : List ι} (hs : I s) (hl : Steps legal step s as) :
    Always P step s as ↔ Steps ok step s as := by
  constructor
  · intro h
    induction as generalizing s with
    | nil => trivial
    | cons a as ih =>
      obtain ⟨-, t, hst, ht⟩ := h
      have ha : ok s a := by
        by_contra hn
        exact hbad s a t hs hl.1 hn hst ht.head
      obtain ⟨t', hst', hI⟩ := hok s a hs hl.1 ha
      refine ⟨ha, fun u hu => ?_⟩
      rw [hst] at hu hst'
      cases hu
      cases hst'
      exact ih hI (hl.2 t hst) ht
  · intro h
    have hboth := always_of_steps
      (fun s a hI ha => hok s a hI ha.1 ha.2) hs (steps_and.mpr ⟨hl, h⟩)
    exact hboth.mono hP

/-- The exact form: every input is one that a caller may give. -/
theorem always_iff_steps (hP : ∀ s, I s → P s)
    (hok : ∀ s a, I s → ok s a → ∃ t, step s a = some t ∧ I t)
    (hbad : ∀ s a t, I s → ¬ ok s a → step s a = some t → ¬ P t)
    {as : List ι} (hs : I s) : Always P step s as ↔ Steps ok step s as := by
  exact always_iff_steps_of_legal hP (fun s a hI _ => hok s a hI) (fun s a t hI _ => hbad s a t hI) hs
    (steps_of_all (fun _ _ => trivial) s as)

/-- What holds in every state holds along every run. -/
theorem throughout_of_forall (h : ∀ s, P s) (s : σ) (as : List ι) : Throughout P step s as := by
  induction as generalizing s with
  | nil => exact h s
  | cons a as ih => exact ⟨h s, fun t _ => ih t⟩

theorem Throughout.head {as : List ι} (h : Throughout P step s as) : P s := by
  cases as with
  | nil => exact h
  | cons a as => exact h.1

theorem Throughout.last {as : List ι} (h : Throughout P step s as) (hr : run step s as = some t) :
    P t := by
  induction as generalizing s with
  | nil => cases hr; exact h
  | cons a as ih =>
    rw [run_cons] at hr
    obtain ⟨u, hu, hr⟩ := Option.bind_eq_some_iff.mp hr
    exact ih (h.2 u hu) hr

/-- A run to a state without `P`, by evaluation. -/
theorem not_throughout_of_run [DecidablePred P] {as : List ι}
    (h : (run step s as).any (fun t => !decide (P t)) = true) : ¬ Throughout P step s as := by
  obtain ⟨t, hr, hP⟩ := (Option.any_eq_true _ _).mp h
  exact fun hall => absurd (hall.last hr) (by simpa using hP)

/-- The invariant rule with a side condition on the inputs, for runs that may end early. -/
theorem throughout_of_steps (hP : ∀ s, I s → P s)
    (hok : ∀ s a t, I s → ok s a → step s a = some t → I t)
    {as : List ι} (hs : I s) (h : Steps ok step s as) : Throughout P step s as := by
  induction as generalizing s with
  | nil => exact hP s hs
  | cons a as ih =>
    obtain ⟨ha, ht⟩ := h
    exact ⟨hP s hs, fun t hst => ih (hok s a t hs ha hst) (ht t hst)⟩

/-- The exact form for runs that may end early: a bad input leads to a state without `P`. -/
theorem throughout_iff_steps (hP : ∀ s, I s → P s)
    (hok : ∀ s a t, I s → ok s a → step s a = some t → I t)
    (hbad : ∀ s a, I s → ¬ ok s a → ∃ t, step s a = some t ∧ ¬ P t)
    {as : List ι} (hs : I s) : Throughout P step s as ↔ Steps ok step s as := by
  refine ⟨fun h => ?_, throughout_of_steps hP hok hs⟩
  induction as generalizing s with
  | nil => trivial
  | cons a as ih =>
    obtain ⟨-, ht⟩ := h
    have ha : ok s a := by
      by_contra hn
      obtain ⟨t, hst, hnP⟩ := hbad s a hs hn
      exact hnP (ht t hst).head
    exact ⟨ha, fun t hst => ih (hok s a t hs ha hst) (ht t hst)⟩

/-- Two side conditions agree along every run if they agree wherever an invariant holds that the steps
which meet them keep. -/
theorem steps_iff {ok' : σ → ι → Prop} (hI : ∀ s a t, I s → ok s a → step s a = some t → I t)
    (h : ∀ s a, I s → (ok' s a ↔ ok s a)) {as : List ι} (hs : I s) :
    Steps ok' step s as ↔ Steps ok step s as := by
  constructor
  · exact Steps.mono (fun s a t hs ha => hI s a t hs ((h s a hs).mp ha)) (fun s a hs => (h s a hs).mp) hs
  · exact Steps.mono hI (fun s a hs => (h s a hs).mpr) hs

end Machine
