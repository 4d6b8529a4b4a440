import HttpBody.Support.Lifting

/-!
# Resuming where a call was suspended

A call that is pending was suspended by one leaf, or by none at all.  A machine resumes if
its next call polls that leaf first, and does nothing else as long as the leaf is pending.
So polling it when nothing has happened is harmless.
-/

namespace HttpBody.Support

universe u

variable {σ τ ω ω' W : Type u}

/-- What a suspended machine polls when nothing has happened. -/
def pendingAt (l : Option ℕ) : List Event := (l.map fun leaf => ⟨leaf, .pending⟩).toList

/-- A call of a machine that is suspended at `l`.  It is pending again, in a state that is
in `Q`, or the leaf has something to give. -/
inductive Call.Wakes (Q : σ → Prop) : Option ℕ → Call (Poll ω × σ) → Prop where
  | again {l s} : Q s → Call.Wakes Q l ⟨pendingAt l, .ok (.pending, s)⟩
  | woken {leaf o t v} : o ≠ .pending → Call.Wakes Q (some leaf) ⟨⟨leaf, o⟩ :: t, v⟩

theorem Call.Wakes.mono {Q Q' : σ → Prop} {l : Option ℕ} {c : Call (Poll ω × σ)}
    (himp : ∀ s, Q s → Q' s) (h : Call.Wakes Q l c) : Call.Wakes Q' l c := by
  cases h with
  | again hs => exact .again (himp _ hs)
  | woken ho => exact .woken ho

/-- The machine is suspended at `l`, and stays so until the leaf is no longer pending. -/
def Suspended (poll : σ → Call (Poll ω × σ)) (l : Option ℕ) (s : σ) : Prop :=
  ∃ Q : σ → Prop, Q s ∧ ∀ s, Q s → Call.Wakes Q l (poll s)

theorem Suspended.call {poll : σ → Call (Poll ω × σ)} {l : Option ℕ} {s : σ}
    (h : Suspended poll l s) : Call.Wakes (Suspended poll l) l (poll s) := by
  obtain ⟨Q, hs, hcall⟩ := h
  exact (hcall s hs).mono fun s hs => ⟨Q, hs, hcall⟩

/-- A call that leaves a state in `R`; when it is pending, the machine is suspended at the
leaf that was polled last. -/
inductive Call.Resumes (poll : σ → Call (Poll ω × σ)) (R : σ → Prop) :
    Call (Poll ω × σ) → Prop where
  | pending {l s} (t : List Event) : R s → Suspended poll l s →
      Call.Resumes poll R ⟨t ++ pendingAt l, .ok (.pending, s)⟩
  | ready {t o s} : R s → Call.Resumes poll R ⟨t, .ok (.ready o, s)⟩
  | stops (t : List Event) (e : Stop) : Call.Resumes poll R ⟨t, .error e⟩

namespace Call.Resumes

variable {poll : σ → Call (Poll ω × σ)} {R R' : σ → Prop} {c : Call (Poll ω × σ)}

theorem mono (himp : ∀ s, R s → R' s) (h : Call.Resumes poll R c) :
    Call.Resumes poll R' c := by
  cases h with
  | pending t hs hsuspended => exact .pending t (himp _ hs) hsuspended
  | ready hs => exact .ready (himp _ hs)
  | stops t e => exact .stops t e

theorem after (t : List Event) (h : Call.Resumes poll R c) :
    Call.Resumes poll R (c.after t) := by
  cases h with
  | pending u hs hsuspended =>
      rw [Call.after_mk, ← List.append_assoc]
      exact .pending (t ++ u) hs hsuspended
  | ready hs => exact .ready hs
  | stops u e => exact .stops (t ++ u) e

end Call.Resumes

/-- However often it is called, the machine resumes where it was suspended. -/
def Resumes (poll : σ → Call (Poll ω × σ)) (s : σ) : Prop :=
  ∃ R : σ → Prop, R s ∧ ∀ s, R s → Call.Resumes poll R (poll s)

namespace Resumes

variable {poll : σ → Call (Poll ω × σ)} {s : σ}

theorem call (h : Resumes poll s) : Call.Resumes poll (Resumes poll) (poll s) := by
  obtain ⟨R, hs, hcall⟩ := h
  exact (hcall s hs).mono fun s hs => ⟨R, hs, hcall⟩

/-- A machine that is never pending. -/
theorem of_never_pending (h : ∀ s s' t, poll s ≠ ⟨t, .ok (.pending, s')⟩) (s : σ) :
    Resumes poll s := by
  refine ⟨fun _ => True, trivial, fun s _ => ?_⟩
  rcases hpoll : poll s with ⟨t, e | ⟨_ | o, s'⟩⟩
  · exact .stops t e
  · exact (h s s' t hpoll).elim
  · exact .ready trivial

/-- What a pending call leaves is suspended, whatever was called before it. -/
theorem suspended {rs : List (Poll ω)} {s₁ s' : σ} {t : List Event} (h : Resumes poll s)
    (hrun : Runs (Call.steps poll) s rs s₁) (hstep : Call.steps poll s₁ t .pending s') :
    ∃ l, pendingAt l <:+ t ∧ Suspended poll l s' := by
  have hs₁ : Resumes poll s₁ := by
    clear hstep
    induction hrun with
    | nil s => exact h
    | @cons s u r s₂ _ _ hcall _ ih =>
        have hresumes := h.call
        rw [show poll s = ⟨u, .ok (r, s₂)⟩ from hcall] at hresumes
        cases hresumes with
        | pending _ hs _ => exact ih hs
        | ready hs => exact ih hs
  have hresumes := hs₁.call
  rw [show poll s₁ = ⟨t, .ok (.pending, s')⟩ from hstep] at hresumes
  cases hresumes with
  | @pending l _ u _ hsuspended => exact ⟨l, List.suffix_append u _, hsuspended⟩

end Resumes

section Leaf

variable {poll : σ → Call (Poll ω × σ)} {leafOf : σ → ℕ}

/-- A machine of which every call is one poll of its leaf. -/
theorem Suspended.of_leaf (h : ∀ s, Call.OfLeaf leafOf (leafOf s) (poll s)) (s : σ) :
    Suspended poll (some (leafOf s)) s := by
  refine ⟨fun s' => leafOf s' = leafOf s, rfl, fun s' hs' => ?_⟩
  have hcall := h s'
  rw [hs'] at hcall
  generalize poll s' = c at hcall
  cases hcall with
  | pending hs => exact .again hs
  | ready _ => exact .woken (by simp)
  | stopped _ => exact .woken (by simp)

theorem Resumes.of_leaf (h : ∀ s, Call.OfLeaf leafOf (leafOf s) (poll s)) (s : σ) :
    Resumes poll s := by
  refine ⟨fun _ => True, trivial, fun s _ => ?_⟩
  have hcall := h s
  generalize poll s = c at hcall
  cases hcall with
  | @pending s' hs =>
      have hsuspended := Suspended.of_leaf h s'
      rw [hs] at hsuspended
      exact .pending [] trivial hsuspended
  | ready _ => exact .ready trivial
  | stopped e => exact .stops _ e

end Leaf

section Indistinct

variable {poll : σ → Call (Poll ω × σ)} {g : τ → Call (Poll ω' × τ)} {γ : Type u}
  {V : ω → ω' → Prop} {look : σ → γ} {look' : τ → γ} {s : σ} {v : τ}

/-- A machine that cannot be told from a suspended one is suspended. -/
theorem Suspended.of_indistinct {l : Option ℕ} (hsame : Indistinct poll g V look look' s v)
    (h : Suspended poll l s) : Suspended g l v := by
  refine ⟨fun v => ∃ s, Indistinct poll g V look look' s v ∧ Suspended poll l s,
    ⟨s, hsame, h⟩, ?_⟩
  rintro v ⟨s, hsame, h⟩
  have hlifts := hsame.call
  have hwakes := h.call
  generalize poll s = c at hlifts hwakes
  generalize g v = d at hlifts
  cases hwakes with
  | again hs =>
      cases hlifts with
      | returns _ hanswer =>
          cases hanswer with
          | pending hnext => exact .again ⟨_, hnext, hs⟩
  | woken ho =>
      cases hlifts with
      | stops _ _ => exact .woken ho
      | returns _ _ => exact .woken ho

theorem Resumes.of_indistinct (hsame : Indistinct poll g V look look' s v)
    (h : Resumes poll s) : Resumes g v := by
  refine ⟨fun v => ∃ s, Indistinct poll g V look look' s v ∧ Resumes poll s,
    ⟨s, hsame, h⟩, ?_⟩
  rintro v ⟨s, hsame, h⟩
  have hlifts := hsame.call
  have hresumes := h.call
  generalize poll s = c at hlifts hresumes
  generalize g v = d at hlifts
  cases hresumes with
  | pending t hs hsuspended =>
      cases hlifts with
      | returns _ hanswer =>
          cases hanswer with
          | pending hnext => exact .pending t ⟨_, hnext, hs⟩ (hsuspended.of_indistinct hnext)
  | ready hs =>
      cases hlifts with
      | returns _ hanswer =>
          cases hanswer with
          | ready _ hnext => exact .ready ⟨_, hnext, hs⟩
  | stops t e =>
      cases hlifts with
      | stops _ _ => exact .stops t e

end Indistinct

/-- As long as the leaf is pending, calls poll it and nothing else, and are pending. -/
theorem Suspended.run {poll : σ → Call (Poll ω × σ)} {l : Option ℕ} {s s' : σ}
    {u : List Event} {qs : List (Poll ω)} (h : Suspended poll l s)
    (hrun : TracedRuns (Call.steps poll) s u qs s') (hu : ∀ e ∈ u, e.outcome = .pending) :
    qs = List.replicate qs.length .pending ∧
      u = (List.replicate qs.length (pendingAt l)).flatten ∧ Suspended poll l s' := by
  induction hrun with
  | nil s => exact ⟨rfl, rfl, h⟩
  | @cons s t r s₁ ts rs s' hstep _ ih =>
      have hwakes := h.call
      rw [show poll s = ⟨t, .ok (r, s₁)⟩ from hstep] at hwakes
      generalize hc : (⟨t, .ok (r, s₁)⟩ : Call (Poll ω × σ)) = c at hwakes
      cases hwakes with
      | again hs =>
          cases hc
          obtain ⟨hqs, hts, hlast⟩ := ih hs fun e he => hu e (List.mem_append_right _ he)
          refine ⟨?_, ?_, hlast⟩
          · rw [List.length_cons, List.replicate_succ, ← hqs]
          · rw [List.length_cons, List.replicate_succ, List.flatten_cons, ← hts]
      | @woken leaf o t' v ho =>
          cases hc
          exact (ho (hu ⟨leaf, o⟩ (by simp))).elim

/-! ## Passing a suspension on -/

section Passing

variable {inner : σ → Call (Poll ω × σ)} {outer : W → Call (Poll ω' × W)} {hold : σ → W}
  {next : ω → σ → Call (Poll ω' × W)}

/-- A machine that passes a suspension on is suspended where its inner machine is. -/
theorem Passes.suspended (h : Passes inner outer hold next) {b : σ} {l : Option ℕ}
    (hb : Suspended inner l b) : Suspended outer l (hold b) := by
  refine ⟨fun w => ∃ b, Suspended inner l b ∧ w = hold b, ⟨b, hb, rfl⟩, ?_⟩
  rintro _ ⟨b, hb, rfl⟩
  have hwakes := hb.call
  rw [h b, passing]
  generalize inner b = c at hwakes
  cases hwakes with
  | @again _ b' hb' =>
      have hagain : Call.Wakes (fun w => ∃ b, Suspended inner l b ∧ w = hold b) l
          ((pure (.pending, hold b') : Call (Poll ω' × W)).after (pendingAt l)) := by
        rw [Call.after_pure]
        exact .again ⟨b', hb', rfl⟩
      exact hagain
  | @woken leaf o t v ho =>
      rcases v with e | ⟨r, b'⟩
      · exact .woken ho
      · exact .woken ho

theorem Passes.resumes {R : W → Prop} (h : Passes inner outer hold next) {b : σ}
    (hb : Resumes inner b)
    (hhold : ∀ t b', Call.steps inner b t .pending b' → Resumes inner b' → R (hold b'))
    (hnext : ∀ t o b', Call.steps inner b t (.ready o) b' → Resumes inner b' →
      Call.Resumes outer R (next o b')) : Call.Resumes outer R (outer (hold b)) := by
  have hcall := hb.call
  rw [h b, passing]
  rcases hpoll : inner b with ⟨t, e | ⟨_ | o, b'⟩⟩
  · exact .stops t e
  · rw [hpoll] at hcall
    generalize hc : (⟨t, .ok (.pending, b')⟩ : Call (Poll ω × σ)) = c at hcall
    cases hcall with
    | @pending l _ u hb₁ hsuspended =>
        cases hc
        have hpasses : Call.Resumes outer R
            ((pure (.pending, hold b') : Call (Poll ω' × W)).after (u ++ pendingAt l)) := by
          rw [Call.after_pure]
          exact .pending u (hhold _ b' hpoll hb₁) (h.suspended hsuspended)
        exact hpasses
    | ready _ => cases hc
    | stops _ _ => cases hc
  · rw [hpoll] at hcall
    generalize hc : (⟨t, .ok (.ready o, b')⟩ : Call (Poll ω × σ)) = c at hcall
    cases hcall with
    | pending _ _ _ => cases hc
    | ready hb₁ =>
        cases hc
        exact (hnext t o b' hpoll hb₁).after t
    | stops _ _ => cases hc

theorem Relays.resumes {S : Type u} {mk : S → σ → W} {f : S → ω → ω' × S}
    (h : Relays inner outer mk f) {b : σ} (hb : Resumes inner b) (s : S) :
    Resumes outer (mk s b) := by
  refine ⟨fun w => ∃ s b, Resumes inner b ∧ w = mk s b, ⟨s, b, hb, rfl⟩, ?_⟩
  rintro _ ⟨s, b, hb, rfl⟩
  refine (h.passes s).resumes hb (fun _ b _ hb => ⟨s, b, hb, rfl⟩) fun _ o b _ hb => ?_
  exact .ready ⟨_, b, hb, rfl⟩

end Passing

end HttpBody.Support
