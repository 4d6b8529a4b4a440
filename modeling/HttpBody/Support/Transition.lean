import Mathlib.Data.List.Basic

/-!
# Labelled transitions

The interleavings of concurrent parties are the paths of one transition system,
whose labels say which party moved and what it observed.  A path records its
labels together with the states in which they were taken.
-/

namespace HttpBody.Support

universe u v

variable {σ : Type u} {ℓ : Type v}

/-- `Path step s h s'`: from `s` the steps in `h` lead to `s'`. -/
inductive Path (step : σ → ℓ → σ → Prop) : σ → List (σ × ℓ) → σ → Prop where
  | nil (s : σ) : Path step s [] s
  | cons {s l s₁ h s'} : step s l s₁ → Path step s₁ h s' → Path step s ((s, l) :: h) s'

/-- The labels of a path, in order. -/
def labels (h : List (σ × ℓ)) : List ℓ :=
  h.map Prod.snd

@[simp] theorem labels_nil : labels ([] : List (σ × ℓ)) = [] := rfl

@[simp] theorem labels_cons (s : σ) (l : ℓ) (h : List (σ × ℓ)) :
    labels ((s, l) :: h) = l :: labels h := rfl

@[simp] theorem labels_append (h h' : List (σ × ℓ)) :
    labels (h ++ h') = labels h ++ labels h' :=
  List.map_append

namespace Path

variable {step : σ → ℓ → σ → Prop} {s s' : σ} {h : List (σ × ℓ)}

theorem snoc {l : ℓ} {s₁ : σ} (hpath : Path step s h s₁) (hstep : step s₁ l s') :
    Path step s (h ++ [(s₁, l)]) s' := by
  induction hpath with
  | nil s => exact .cons hstep (.nil s')
  | cons hfirst _ ih => exact .cons hfirst (ih hstep)

/-- The step after `pre` was taken in a state to which `pre` leads. -/
theorem split {pre post : List (σ × ℓ)} {s₁ : σ} {l : ℓ}
    (hpath : Path step s (pre ++ (s₁, l) :: post) s') :
    Path step s pre s₁ ∧ ∃ s₂, step s₁ l s₂ ∧ Path step s₂ post s' := by
  induction pre generalizing s with
  | nil =>
      cases hpath with
      | cons hstep hrest => exact ⟨.nil s₁, _, hstep, hrest⟩
  | cons p pre ih =>
      cases hpath with
      | cons hstep hrest =>
          obtain ⟨hpre, hpost⟩ := ih hrest
          exact ⟨.cons hstep hpre, hpost⟩

/-- What every step preserves holds of every path: `I` may depend on the steps
taken so far. -/
theorem invariant {I : List (σ × ℓ) → σ → Prop} (hpath : Path step s h s') (hs : I [] s)
    (hstep : ∀ h s l s', I h s → step s l s' → I (h ++ [(s, l)]) s') : I h s' := by
  suffices hgen : ∀ h₀, I h₀ s → I (h₀ ++ h) s' by
    simpa using hgen [] hs
  clear hs
  induction hpath with
  | nil s =>
      intro h₀ hI
      simpa using hI
  | cons hfirst _ ih =>
      intro h₀ hI
      have hnext := ih _ (hstep h₀ _ _ _ hI hfirst)
      simpa using hnext

end Path

end HttpBody.Support
