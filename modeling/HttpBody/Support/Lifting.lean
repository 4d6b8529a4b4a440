import HttpBody.Support.Lockstep
import HttpBody.Support.Loop
import HttpBody.Support.Relay

/-!
# Calls that cannot be told apart

A relation on values lifts to calls: related calls poll the same leaves, and return
related values or stop for the same reason.  Two states are indistinct if their calls
are related for good.  That is kept by sequencing, by relays and by loops, so it is
shown of large machines from what is known of their parts.
-/

namespace HttpBody.Support

universe u

variable {α α' β β' γ : Type u}

/-- Two calls that poll the same leaves, and return values related by `P` or stop for
the same reason. -/
inductive Call.Lifts (P : α → β → Prop) : Call α → Call β → Prop where
  | returns (t : List Event) {a : α} {b : β} : P a b → Call.Lifts P ⟨t, .ok a⟩ ⟨t, .ok b⟩
  | stops (t : List Event) (e : Stop) : Call.Lifts P ⟨t, .error e⟩ ⟨t, .error e⟩

namespace Call.Lifts

variable {P : α → β → Prop} {c : Call α} {d : Call β}

theorem pure {a : α} {b : β} (h : P a b) : Call.Lifts P (Pure.pure a) (Pure.pure b) :=
  .returns [] h

theorem refl {P : α → α → Prop} (h : ∀ a, P a a) (c : Call α) : Call.Lifts P c c := by
  rcases c with ⟨t, e | a⟩
  · exact .stops t e
  · exact .returns t (h a)

theorem symm (h : Call.Lifts P c d) : Call.Lifts (fun b a => P a b) d c := by
  cases h with
  | returns t hP => exact .returns t hP
  | stops t e => exact .stops t e

theorem trans {Q : β → γ → Prop} {e : Call γ} (h : Call.Lifts P c d) (h' : Call.Lifts Q d e) :
    Call.Lifts (fun a g => ∃ b, P a b ∧ Q b g) c e := by
  cases h with
  | returns t hP =>
      cases h' with
      | returns _ hQ => exact .returns t ⟨_, hP, hQ⟩
  | stops t stop =>
      cases h'
      exact .stops t stop

theorem mono {Q : α → β → Prop} (himp : ∀ a b, P a b → Q a b) (h : Call.Lifts P c d) :
    Call.Lifts Q c d := by
  cases h with
  | returns t hP => exact .returns t (himp _ _ hP)
  | stops t e => exact .stops t e

theorem after (t : List Event) (h : Call.Lifts P c d) : Call.Lifts P (c.after t) (d.after t) := by
  cases h with
  | returns u hP => exact .returns (t ++ u) hP
  | stops u e => exact .stops (t ++ u) e

/-- Related calls that go on in a related way are related. -/
theorem bind {Q : α' → β' → Prop} {f : α → Call α'} {g : β → Call β'} (h : Call.Lifts P c d)
    (hnext : ∀ a b, P a b → Call.Lifts Q (f a) (g b)) : Call.Lifts Q (c >>= f) (d >>= g) := by
  cases h with
  | returns t hP => exact (hnext _ _ hP).after t
  | stops t e => exact .stops t e

end Call.Lifts

/-! ## Answers -/

section Indistinct

variable {σ τ υ ω ω' ω'' : Type u}

/-- Equal answers up to `V`, with states related by `R`. -/
inductive Answers (V : ω → ω' → Prop) (R : σ → τ → Prop) : Poll ω × σ → Poll ω' × τ → Prop where
  | pending {s u} : R s u → Answers V R (.pending, s) (.pending, u)
  | ready {o o' s u} : V o o' → R s u → Answers V R (.ready o, s) (.ready o', u)

theorem Answers.mono {V : ω → ω' → Prop} {R R' : σ → τ → Prop} (himp : ∀ s u, R s u → R' s u)
    {p : Poll ω × σ} {q : Poll ω' × τ} (h : Answers V R p q) : Answers V R' p q := by
  cases h with
  | pending hR => exact .pending (himp _ _ hR)
  | ready hV hR => exact .ready hV (himp _ _ hR)

theorem Answers.of_eq {R : σ → τ → Prop} (r : Poll ω) {s : σ} {u : τ} (h : R s u) :
    Answers Eq R (r, s) (r, u) := by
  cases r with
  | pending => exact .pending h
  | ready o => exact .ready rfl h

theorem Answers.eq {R : σ → τ → Prop} {p : Poll ω × σ} {q : Poll ω × τ} (h : Answers Eq R p q) :
    p.1 = q.1 ∧ R p.2 q.2 := by
  cases h with
  | pending hR => exact ⟨rfl, hR⟩
  | ready hV hR => exact ⟨congrArg _ hV, hR⟩

/-- However often they are called, the two machines poll the same leaves, give answers
related by `V`, show the same in between, and stop for the same reason. -/
def Indistinct (f : σ → Call (Poll ω × σ)) (g : τ → Call (Poll ω' × τ)) (V : ω → ω' → Prop)
    (look : σ → γ) (look' : τ → γ) (s : σ) (u : τ) : Prop :=
  ∃ R : σ → τ → Prop, R s u ∧
    (∀ s u, R s u → Call.Lifts (Answers V R) (f s) (g u)) ∧ ∀ s u, R s u → look s = look' u

namespace Indistinct

variable {f : σ → Call (Poll ω × σ)} {g : τ → Call (Poll ω' × τ)} {V : ω → ω' → Prop}
  {look : σ → γ} {look' : τ → γ} {s : σ} {u : τ}

theorem call (h : Indistinct f g V look look' s u) :
    Call.Lifts (Answers V (Indistinct f g V look look')) (f s) (g u) := by
  obtain ⟨R, hR, hcall, hlook⟩ := h
  exact (hcall s u hR).mono fun _ _ hanswer =>
    hanswer.mono fun s u hnext => ⟨R, hnext, hcall, hlook⟩

theorem shows (h : Indistinct f g V look look' s u) : look s = look' u := by
  obtain ⟨R, hR, -, hlook⟩ := h
  exact hlook s u hR

theorem refl {f : σ → Call (Poll ω × σ)} (look : σ → γ) (s : σ) :
    Indistinct f f Eq look look s s := by
  refine ⟨Eq, rfl, ?_, fun s u hsu => congrArg look hsu⟩
  rintro s _ rfl
  exact .refl (fun p => .of_eq p.1 rfl) (f s)

theorem symm {g : τ → Call (Poll ω × τ)} (h : Indistinct f g Eq look look' s u) :
    Indistinct g f Eq look' look u s := by
  obtain ⟨R, hR, hcall, hlook⟩ := h
  refine ⟨fun u s => R s u, hR, fun u s hus => ?_, fun u s hus => (hlook s u hus).symm⟩
  refine (hcall s u hus).symm.mono fun q p hanswer => ?_
  cases hanswer with
  | pending hnext => exact .pending hnext
  | ready hV hnext => exact .ready hV.symm hnext

theorem trans {g : τ → Call (Poll ω × τ)} {k : υ → Call (Poll ω × υ)} {look'' : υ → γ} {v : υ}
    (h : Indistinct f g Eq look look' s u) (h' : Indistinct g k Eq look' look'' u v) :
    Indistinct f k Eq look look'' s v := by
  refine ⟨fun s v => ∃ u, Indistinct f g Eq look look' s u ∧
    Indistinct g k Eq look' look'' u v, ⟨u, h, h'⟩, ?_, ?_⟩
  · rintro s v ⟨u, hsu, huv⟩
    refine (hsu.call.trans huv.call).mono fun p q hboth => ?_
    obtain ⟨_, hfirst, hsecond⟩ := hboth
    cases hfirst with
    | pending hnext =>
        cases hsecond with
        | pending hlast => exact .pending ⟨_, hnext, hlast⟩
    | ready hV hnext =>
        cases hsecond with
        | ready hV' hlast => exact .ready (hV.trans hV') ⟨_, hnext, hlast⟩
  · rintro s v ⟨u, hsu, huv⟩
    exact hsu.shows.trans huv.shows

/-- Indistinct states make the same calls. -/
theorem calls_eq {g : τ → Call (Poll ω × τ)} (h : Indistinct f g Eq look look' s u) (n : ℕ) :
    calls f look n s = calls g look' n u := by
  refine Lockstep.calls_eq (R := Indistinct f g Eq look look') ?_ h n
  refine ⟨fun {s u} hsu => ?_, fun hsu => hsu.shows⟩
  have hcall := hsu.call
  generalize f s = c at hcall
  generalize g u = d at hcall
  cases hcall with
  | stops t e => exact .stops t e
  | @returns t p q hanswer =>
      obtain ⟨r, s'⟩ := p
      obtain ⟨r', u'⟩ := q
      obtain ⟨rfl, hnext⟩ := hanswer.eq
      exact .returns t r hnext

theorem step {g : τ → Call (Poll ω × τ)} (h : Indistinct f g Eq look look' s u) {t : List Event}
    {r : Poll ω} {s' : σ} (hstep : Call.steps f s t r s') :
    ∃ u', Call.steps g u t r u' ∧ Indistinct f g Eq look look' s' u' := by
  have hcall := h.call
  rw [show f s = ⟨t, .ok (r, s')⟩ from hstep] at hcall
  generalize hg : g u = d at hcall
  cases hcall with
  | @returns _ _ q hanswer =>
      obtain ⟨r', u'⟩ := q
      obtain ⟨rfl, hnext⟩ := hanswer.eq
      exact ⟨u', hg, hnext⟩

theorem runs {g : τ → Call (Poll ω × τ)} (h : Indistinct f g Eq look look' s u)
    {rs : List (Poll ω)} {s' : σ} (hrun : Runs (Call.steps f) s rs s') :
    ∃ u', Runs (Call.steps g) u rs u' ∧ Indistinct f g Eq look look' s' u' := by
  induction hrun generalizing u with
  | nil s => exact ⟨u, .nil u, h⟩
  | cons hstep _ ih =>
      obtain ⟨u₁, hstep', hnext⟩ := h.step hstep
      obtain ⟨u', hrun', hlast⟩ := ih hnext
      exact ⟨u', .cons hstep' hrun', hlast⟩

theorem awaits {g : τ → Call (Poll ω × τ)} (h : Indistinct f g Eq look look' s u) {o : ω}
    {s' : σ} (hawait : Awaits (Call.steps f) s o s') :
    ∃ u', Awaits (Call.steps g) u o u' ∧ Indistinct f g Eq look look' s' u' := by
  obtain ⟨n, hrun⟩ := hawait.runs
  obtain ⟨u', hrun', hlast⟩ := h.runs hrun
  exact ⟨u', .of_runs hrun', hlast⟩

theorem stays {g : τ → Call (Poll ω × τ)} (h : Indistinct f g Eq look look' s u) {r : Poll ω}
    {P : σ → Prop} {Q : τ → Prop} (hPQ : ∀ s u, Indistinct f g Eq look look' s u → P s → Q u)
    (hs : Stays (Call.steps f) r P s) : Stays (Call.steps g) r Q u := by
  intro n
  obtain ⟨s', hrun, hP⟩ := hs n
  obtain ⟨u', hrun', hlast⟩ := h.runs hrun
  exact ⟨u', hrun', hPQ s' u' hlast hP⟩

theorem always {g : τ → Call (Poll ω × τ)} (h : Indistinct f g Eq look look' s u)
    {P : σ → Prop} {Q : τ → Prop} (hPQ : ∀ s u, Indistinct f g Eq look look' s u → P s → Q u)
    (hs : Always (Call.steps f) P s) : Always (Call.steps g) Q u := by
  intro rs u' hrun
  obtain ⟨s', hrun', hlast⟩ := h.symm.runs hrun
  exact hPQ s' u' hlast.symm (hs hrun')

/-- Relays with the same own state, of indistinct machines. -/
theorem relay {S W W' : Type u} {inner : σ → Call (Poll ω × σ)} {inner' : τ → Call (Poll ω × τ)}
    {outer : W → Call (Poll ω' × W)} {outer' : W' → Call (Poll ω' × W')} {mk : S → σ → W}
    {mk' : S → τ → W'} {fn : S → ω → ω' × S} {δ : Type u} {show₁ : W → δ} {show₂ : W' → δ}
    (h : Relays inner outer mk fn) (h' : Relays inner' outer' mk' fn)
    (hshow : ∀ s b b', look b = look' b' → show₁ (mk s b) = show₂ (mk' s b')) {b : σ} {b' : τ}
    (hb : Indistinct inner inner' Eq look look' b b') (s : S) :
    Indistinct outer outer' Eq show₁ show₂ (mk s b) (mk' s b') := by
  refine ⟨fun w w' => ∃ s b b', Indistinct inner inner' Eq look look' b b' ∧ w = mk s b ∧
    w' = mk' s b', ⟨s, b, b', hb, rfl, rfl⟩, ?_, ?_⟩
  · rintro _ _ ⟨s, b, b', hb, rfl, rfl⟩
    rw [h s b, h' s b']
    refine hb.call.bind fun p q hanswer => ?_
    cases hanswer with
    | pending hnext => exact .pure (.pending ⟨s, _, _, hnext, rfl, rfl⟩)
    | @ready o _ b₁ b₁' hV hnext =>
        subst hV
        exact .pure (.ready rfl ⟨_, b₁, b₁', hnext, rfl, rfl⟩)
  · rintro _ _ ⟨s, b, b', hb, rfl, rfl⟩
    exact hshow s b b' hb.shows

/-- A relay that hands every answer on unchanged, and its inner machine. -/
theorem of_relays {S W : Type u} {inner : σ → Call (Poll ω × σ)} {outer : W → Call (Poll ω × W)}
    {mk : S → σ → W} {fn : S → ω → ω × S} {shown : W → γ} (h : Relays inner outer mk fn)
    (hfn : ∀ s x, (fn s x).1 = x) (hshown : ∀ s b, shown (mk s b) = look b) (s : S) (b : σ) :
    Indistinct outer inner Eq shown look (mk s b) b := by
  refine ⟨fun w b => ∃ s, w = mk s b, ⟨s, rfl⟩, ?_, ?_⟩
  · rintro _ b ⟨s, rfl⟩
    rw [h s b, Support.relay]
    rcases inner b with ⟨t, e | ⟨_ | x, b'⟩⟩
    · exact .stops t e
    · rw [Call.mk_ok_bind, Call.after_pure]
      exact .returns t (.pending ⟨s, rfl⟩)
    · rw [Call.mk_ok_bind, Call.after_pure]
      exact .returns t (.ready (hfn s x) ⟨_, rfl⟩)
  · rintro _ b ⟨s, rfl⟩
    exact hshown s b

/-- Loops whose turns are indistinct. -/
theorem loop {turn : σ → Call (Poll (Option ω) × σ)} {turn' : τ → Call (Poll (Option ω) × τ)}
    (h : Indistinct turn turn' Eq look look' s u) (fuel : ℕ) :
    Indistinct (loop turn fuel) (Support.loop turn' fuel) Eq look look' s u := by
  refine ⟨Indistinct turn turn' Eq look look', h, fun s u hsu => ?_, fun _ _ hsu => hsu.shows⟩
  induction fuel generalizing s u with
  | zero => exact .stops [] .outOfFuel
  | succ fuel ih =>
      refine hsu.call.bind fun p q hanswer => ?_
      cases hanswer with
      | pending hnext => exact .pure (.pending hnext)
      | @ready x _ s₁ u₁ hV hnext =>
          subst hV
          cases x with
          | none => exact ih s₁ u₁ hnext
          | some o => exact .pure (.ready rfl hnext)

end Indistinct

end Indistinct

end HttpBody.Support
