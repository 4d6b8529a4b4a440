import HttpBody.Support.Call
import Mathlib.Data.List.Basic

/-!
# Runs of pollable machines

A pollable machine is given by the ways in which one call on it may go.  This
file has the finite runs of such a machine, properties that hold in every
reachable state, and answers that are repeated forever.
-/

namespace HttpBody.Support

universe u v

variable {σ : Type u} {ω : Type v}

/-- `T s t r s'`: a call in the state `s` may poll the leaves in `t`, answer
`r` and leave `s'`. -/
abbrev StepRel (σ : Type u) (ω : Type v) :=
  σ → List Event → Poll ω → σ → Prop

/-- The calls of a poll function that return. -/
def Call.steps {σ ω : Type u} (poll : σ → Call (Poll ω × σ)) : StepRel σ ω :=
  fun s t r s' => poll s = ⟨t, .ok (r, s')⟩

theorem Call.steps_of_value {σ ω : Type u} {poll : σ → Call (Poll ω × σ)} {s s' : σ}
    {r : Poll ω} (h : (poll s).value = .ok (r, s')) :
    Call.steps poll s (poll s).trace r s' :=
  Call.ext rfl h

/-- A call that only returns after its last poll: nothing is left to be done. -/
theorem StepRel.of_pure {σ ω : Type u} {T : StepRel σ ω} {s s₁ s' : σ} {t u : List Event}
    {r r' : Poll ω} (h : (pure (r, s₁) : Call _) = ⟨u, .ok (r', s')⟩) (hstep : T s t r s₁) :
    T s (t ++ u) r' s' := by
  obtain ⟨rfl, heq⟩ := Call.pure_eq_ok.mp h
  cases heq
  rwa [List.append_nil]

/-- A call has at most one outcome. -/
def StepRel.Functional (T : StepRel σ ω) : Prop :=
  ∀ ⦃s t₁ r₁ s₁ t₂ r₂ s₂⦄, T s t₁ r₁ s₁ → T s t₂ r₂ s₂ →
    t₁ = t₂ ∧ r₁ = r₂ ∧ s₁ = s₂

theorem Call.steps_functional {σ ω : Type u} (poll : σ → Call (Poll ω × σ)) :
    (Call.steps poll).Functional := by
  intro s t₁ r₁ s₁ t₂ r₂ s₂ h₁ h₂
  have heq : (⟨t₁, .ok (r₁, s₁)⟩ : Call _) = ⟨t₂, .ok (r₂, s₂)⟩ := h₁.symm.trans h₂
  simpa using heq

/-! ## Finite runs -/

/-- `Runs T s rs s'`: as many calls as `rs` has entries all return, with these
answers in turn, and leave `s'`. -/
inductive Runs (T : StepRel σ ω) : σ → List (Poll ω) → σ → Prop where
  | nil (s : σ) : Runs T s [] s
  | cons {s t r s₁ rs s'} :
      T s t r s₁ → Runs T s₁ rs s' → Runs T s (r :: rs) s'

/-- A run together with all the leaves polled in it. -/
inductive TracedRuns (T : StepRel σ ω) :
    σ → List Event → List (Poll ω) → σ → Prop where
  | nil (s : σ) : TracedRuns T s [] [] s
  | cons {s t r s₁ ts rs s'} :
      T s t r s₁ → TracedRuns T s₁ ts rs s' →
        TracedRuns T s (t ++ ts) (r :: rs) s'

section Basic

variable {T : StepRel σ ω}

theorem TracedRuns.runs {s s' : σ} {t : List Event} {rs : List (Poll ω)}
    (h : TracedRuns T s t rs s') : Runs T s rs s' := by
  induction h with
  | nil s => exact .nil s
  | cons hstep _ ih => exact .cons hstep ih

theorem Runs.traced {s s' : σ} {rs : List (Poll ω)} (h : Runs T s rs s') :
    ∃ t, TracedRuns T s t rs s' := by
  induction h with
  | nil s => exact ⟨[], .nil s⟩
  | cons hstep _ ih =>
      obtain ⟨t, ht⟩ := ih
      exact ⟨_, .cons hstep ht⟩

/-- What every call preserves holds of every run: `I` may depend on the leaves
polled and the answers given so far. -/
theorem TracedRuns.invariant {I : List Event → List (Poll ω) → σ → Prop} {s s' : σ}
    {t : List Event} {rs : List (Poll ω)} (h : TracedRuns T s t rs s') (hs : I [] [] s)
    (hstep : ∀ t rs s u r s', I t rs s → T s u r s' → I (t ++ u) (rs ++ [r]) s') :
    I t rs s' := by
  suffices hgen : ∀ t₀ rs₀, I t₀ rs₀ s → I (t₀ ++ t) (rs₀ ++ rs) s' by
    simpa using hgen [] [] hs
  clear hs
  induction h with
  | nil s =>
      intro t₀ rs₀ hI
      simpa using hI
  | cons hst _ ih =>
      intro t₀ rs₀ hI
      simpa using ih _ _ (hstep _ _ _ _ _ _ hI hst)

theorem TracedRuns.single {s s' : σ} {t : List Event} {r : Poll ω} (h : T s t r s') :
    TracedRuns T s t [r] s' := by
  have hrun : TracedRuns T s (t ++ []) [r] s' := .cons h (.nil s')
  rwa [List.append_nil] at hrun

theorem TracedRuns.append {s s₁ s' : σ} {t u : List Event} {rs qs : List (Poll ω)}
    (hrs : TracedRuns T s t rs s₁) (hqs : TracedRuns T s₁ u qs s') :
    TracedRuns T s (t ++ u) (rs ++ qs) s' := by
  induction hrs with
  | nil s => exact hqs
  | cons hstep _ ih =>
      rw [List.append_assoc]
      exact .cons hstep (ih hqs)

theorem tracedRuns_nil_iff {s s' : σ} {t : List Event} :
    TracedRuns T s t [] s' ↔ t = [] ∧ s' = s := by
  constructor
  · rintro ⟨⟩
    exact ⟨rfl, rfl⟩
  · rintro ⟨rfl, rfl⟩
    exact .nil s'

theorem tracedRuns_cons_iff {s s' : σ} {t : List Event} {r : Poll ω} {rs : List (Poll ω)} :
    TracedRuns T s t (r :: rs) s' ↔
      ∃ t₁ s₁ t₂, T s t₁ r s₁ ∧ TracedRuns T s₁ t₂ rs s' ∧ t = t₁ ++ t₂ := by
  constructor
  · rintro (_ | ⟨hstep, hrest⟩)
    exact ⟨_, _, _, hstep, hrest, rfl⟩
  · rintro ⟨t₁, s₁, t₂, hstep, hrest, rfl⟩
    exact .cons hstep hrest

@[simp] theorem runs_nil_iff {s s' : σ} : Runs T s [] s' ↔ s = s' := by
  constructor
  · rintro ⟨⟩
    rfl
  · rintro rfl
    exact .nil s

theorem runs_cons_iff {s s' : σ} {r : Poll ω} {rs : List (Poll ω)} :
    Runs T s (r :: rs) s' ↔ ∃ t s₁, T s t r s₁ ∧ Runs T s₁ rs s' := by
  constructor
  · rintro (_ | ⟨hstep, hrest⟩)
    exact ⟨_, _, hstep, hrest⟩
  · rintro ⟨t, s₁, hstep, hrest⟩
    exact .cons hstep hrest

theorem Runs.single {s s' : σ} {t : List Event} {r : Poll ω}
    (h : T s t r s') : Runs T s [r] s' :=
  .cons h (.nil s')

theorem Runs.append {s s₁ s' : σ} {rs qs : List (Poll ω)}
    (hrs : Runs T s rs s₁) (hqs : Runs T s₁ qs s') :
    Runs T s (rs ++ qs) s' := by
  induction hrs with
  | nil s => exact hqs
  | cons hstep _ ih => exact .cons hstep (ih hqs)

theorem runs_append_iff {s s' : σ} {rs qs : List (Poll ω)} :
    Runs T s (rs ++ qs) s' ↔ ∃ s₁, Runs T s rs s₁ ∧ Runs T s₁ qs s' := by
  constructor
  · intro h
    induction rs generalizing s with
    | nil => exact ⟨s, .nil s, h⟩
    | cons r rs ih =>
        obtain ⟨t, s₁, hstep, hrest⟩ := runs_cons_iff.mp h
        obtain ⟨s₂, hrs, hqs⟩ := ih hrest
        exact ⟨s₂, .cons hstep hrs, hqs⟩
  · rintro ⟨s₁, hrs, hqs⟩
    exact hrs.append hqs

theorem runs_snoc_iff {s s' : σ} {r : Poll ω} {rs : List (Poll ω)} :
    Runs T s (rs ++ [r]) s' ↔ ∃ s₁ t, Runs T s rs s₁ ∧ T s₁ t r s' := by
  constructor
  · intro h
    obtain ⟨s₁, hrs, hlast⟩ := runs_append_iff.mp h
    obtain ⟨t, s₂, hstep, hnil⟩ := runs_cons_iff.mp hlast
    obtain rfl := runs_nil_iff.mp hnil
    exact ⟨s₁, t, hrs, hstep⟩
  · rintro ⟨s₁, t, hrs, hstep⟩
    exact hrs.append (.single hstep)

end Basic

/-! ## Properties of every reachable state -/

/-- `P` holds in every state that calls can reach from `s`. -/
def Always (T : StepRel σ ω) (P : σ → Prop) (s : σ) : Prop :=
  ∀ ⦃rs s'⦄, Runs T s rs s' → P s'

namespace Always

variable {T : StepRel σ ω} {P Q : σ → Prop} {s : σ}

theorem here (h : Always T P s) : P s := h (.nil s)

theorem next (h : Always T P s) {t : List Event} {r : Poll ω} {s' : σ}
    (hstep : T s t r s') : Always T P s' :=
  fun _ _ hrest => h (.cons hstep hrest)

theorem runs (h : Always T P s) {rs : List (Poll ω)} {s' : σ}
    (hrs : Runs T s rs s') : Always T P s' :=
  fun _ _ hrest => h (hrs.append hrest)

theorem always (h : Always T P s) : Always T (Always T P) s :=
  fun _ _ hrs => h.runs hrs

theorem mono (h : Always T P s) (himp : ∀ s, P s → Q s) : Always T Q s :=
  fun _ _ hrs => himp _ (h hrs)

theorem and (hP : Always T P s) (hQ : Always T Q s) : Always T (fun s => P s ∧ Q s) s :=
  fun _ _ hrs => ⟨hP hrs, hQ hrs⟩

/-- The induction behind every statement about reachable states. -/
theorem of_invariant (I : σ → Prop) (hs : I s) (hP : ∀ s, I s → P s)
    (hstep : ∀ s t r s', I s → T s t r s' → I s') : Always T P s := by
  intro rs s' hrun
  induction hrun with
  | nil s => exact hP s hs
  | cons hst _ ih => exact ih (hstep _ _ _ _ hs hst)

end Always

/-! ## Answers repeated forever -/

/-- Every call from `s` on returns `r`, and `P` holds before and after each. -/
def Stays (T : StepRel σ ω) (r : Poll ω) (P : σ → Prop) (s : σ) : Prop :=
  ∀ n, ∃ s', Runs T s (List.replicate n r) s' ∧ P s'

namespace Stays

variable {T : StepRel σ ω} {r : Poll ω} {P Q : σ → Prop} {s : σ}

theorem here (h : Stays T r P s) : P s := by
  obtain ⟨s', hrun, hP⟩ := h 0
  obtain rfl := runs_nil_iff.mp hrun
  exact hP

theorem step (hT : T.Functional) (h : Stays T r P s) :
    ∃ t s', T s t r s' ∧ Stays T r P s' := by
  obtain ⟨s₁, hrun, -⟩ := h 1
  obtain ⟨t, s', hstep, -⟩ := runs_cons_iff.mp hrun
  refine ⟨t, s', hstep, fun n => ?_⟩
  obtain ⟨s₂, hrun₂, hP⟩ := h (n + 1)
  rw [List.replicate_succ] at hrun₂
  obtain ⟨t', s'', hstep', hrest⟩ := runs_cons_iff.mp hrun₂
  obtain ⟨-, -, rfl⟩ := hT hstep hstep'
  exact ⟨s₂, hrest, hP⟩

/-- The one call that can be made from a state that stays at `r`. -/
theorem step_eq (hT : T.Functional) (h : Stays T r P s)
    {t : List Event} {r' : Poll ω} {s' : σ} (hstep : T s t r' s') :
    r' = r ∧ Stays T r P s' := by
  obtain ⟨t₁, s₁, hstep₁, hrest⟩ := h.step hT
  obtain ⟨-, rfl, rfl⟩ := hT hstep hstep₁
  exact ⟨rfl, hrest⟩

theorem runs (hT : T.Functional) (h : Stays T r P s)
    {rs : List (Poll ω)} {s' : σ} (hrs : Runs T s rs s') :
    rs = List.replicate rs.length r ∧ Stays T r P s' := by
  induction hrs with
  | nil s => exact ⟨rfl, h⟩
  | cons hstep _ ih =>
      obtain ⟨rfl, hnext⟩ := h.step_eq hT hstep
      obtain ⟨hrest, hlast⟩ := ih hnext
      refine ⟨?_, hlast⟩
      rw [List.length_cons, List.replicate_succ, ← hrest]

/-- The answers that can be had from a state that stays at `r`. -/
theorem exists_runs_iff (hT : T.Functional) (h : Stays T r P s) {rs : List (Poll ω)} :
    (∃ s', Runs T s rs s') ↔ rs = List.replicate rs.length r := by
  constructor
  · intro hruns
    obtain ⟨s', hrs⟩ := hruns
    exact (h.runs hT hrs).1
  · intro hrs
    obtain ⟨s', hrun, -⟩ := h rs.length
    exact ⟨s', hrs ▸ hrun⟩

theorem mono (h : Stays T r P s) (himp : ∀ s, P s → Q s) : Stays T r Q s := by
  intro n
  obtain ⟨s', hrun, hP⟩ := h n
  exact ⟨s', hrun, himp s' hP⟩

/-- A set of states closed under calls that answer `r` stays at `r`. -/
theorem of_invariant (I : σ → Prop) (hs : I s)
    (hI : ∀ s, I s → P s ∧ ∃ t s', T s t r s' ∧ I s') : Stays T r P s := by
  intro n
  induction n generalizing s with
  | zero => exact ⟨s, .nil s, (hI s hs).1⟩
  | succ n ih =>
      obtain ⟨-, t, s₁, hstep, hs₁⟩ := hI s hs
      obtain ⟨s', hrun, hP⟩ := ih hs₁
      exact ⟨s', .cons hstep hrun, hP⟩

/-- A state that a call leaves as it is stays at the answer of this call. -/
theorem of_step {t : List Event} {s' : σ} (hP : P s) (hstep : T s t r s')
    (h : Stays T r P s') : Stays T r P s := by
  intro n
  cases n with
  | zero => exact ⟨s, .nil s, hP⟩
  | succ n =>
      obtain ⟨s'', hrun, hP'⟩ := h n
      exact ⟨s'', .cons hstep hrun, hP'⟩

theorem of_fixed {t : List Event} (hP : P s) (hstep : T s t r s) : Stays T r P s := by
  apply of_invariant fun s' => s' = s
  · rfl
  · intro s' hs'
    subst hs'
    exact ⟨hP, t, _, hstep, rfl⟩

end Stays

end HttpBody.Support
