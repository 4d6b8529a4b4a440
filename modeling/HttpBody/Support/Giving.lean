import HttpBody.Support.Await

/-!
# What a machine gives

A machine whose calls have one outcome gives a list of answers if it can be
awaited for them: then every run is on its way through the list, and every long
enough run has come through.
-/

namespace HttpBody.Support

universe u v

variable {σ : Type u} {ω : Type v} {T : StepRel σ ω} {s s' s₁ s₂ : σ} {os : List ω}
  {rs qs : List (Poll ω)}

/-- Of two runs from the same state, the longer one goes on from the shorter one. -/
theorem Runs.prefix_of_le (hT : T.Functional) (h : Runs T s rs s₁) (h' : Runs T s qs s₂)
    (hle : rs.length ≤ qs.length) : rs <+: qs := by
  induction h generalizing qs with
  | nil s => exact List.nil_prefix
  | cons hstep _ ih =>
      cases h' with
      | nil => cases hle
      | cons hstep' hrest' =>
          obtain ⟨-, rfl, rfl⟩ := hT hstep hstep'
          have htail := ih hrest' (Nat.le_of_succ_le_succ hle)
          exact List.cons_prefix_cons.mpr ⟨rfl, htail⟩

theorem prefix_readies (h : rs <+: qs) : readies rs <+: readies qs := by
  obtain ⟨later, rfl⟩ := h
  exact ⟨readies later, (readies_append rs later).symm⟩

/-- A run is still on its way through the answers that can be awaited, or it has
come through. -/
theorem AwaitsAll.along (hT : T.Functional) (h : AwaitsAll T s os s') (hrun : Runs T s rs s₁) :
    (∃ later, later ≠ [] ∧ os = readies rs ++ later ∧ AwaitsAll T s₁ later s') ∨
      ∃ pre post, rs = pre ++ post ∧ readies pre = os ∧ Runs T s' post s₁ := by
  induction hrun generalizing os with
  | nil s =>
      cases h with
      | nil => exact .inr ⟨[], [], rfl, rfl, .nil _⟩
      | cons hawait hrest => exact .inl ⟨_, List.cons_ne_nil _ _, rfl, .cons hawait hrest⟩
  | @cons s t r s₂ rs s₁ hstep hrest ih =>
      cases h with
      | nil => exact .inr ⟨[], _, rfl, rfl, .cons hstep hrest⟩
      | @cons _ o s₃ os _ hawait hlater =>
          cases r with
          | pending =>
              have hawait₂ := (awaits_pending_iff hT hstep).mp hawait
              rcases ih (.cons hawait₂ hlater) with ⟨later, hne, hos, hall⟩ |
                ⟨pre, post, rfl, hpre, hpost⟩
              · exact .inl ⟨later, hne, hos, hall⟩
              · exact .inr ⟨.pending :: pre, post, rfl, hpre, hpost⟩
          | ready o' =>
              obtain ⟨rfl, rfl⟩ := hawait.unique hT (.ready hstep)
              rcases ih hlater with ⟨later, hne, rfl, hall⟩ | ⟨pre, post, rfl, rfl, hpost⟩
              · exact .inl ⟨later, hne, rfl, hall⟩
              · exact .inr ⟨.ready o :: pre, post, rfl, rfl, hpost⟩

/-- The answers of a machine whose calls have one outcome come in one order. -/
theorem AwaitsAll.prefix_total (hT : T.Functional) {os ps : List ω} (h : AwaitsAll T s os s₁)
    (h' : AwaitsAll T s ps s₂) : os <+: ps ∨ ps <+: os := by
  induction h generalizing ps with
  | nil s => exact .inl List.nil_prefix
  | cons hawait _ ih =>
      cases h' with
      | nil => exact .inr List.nil_prefix
      | cons hawait' hrest' =>
          obtain ⟨rfl, rfl⟩ := hawait.unique hT hawait'
          exact (ih hrest').imp (fun hpre => List.cons_prefix_cons.mpr ⟨rfl, hpre⟩)
            fun hpre => List.cons_prefix_cons.mpr ⟨rfl, hpre⟩

theorem AwaitsAll.of_prefix {os ps : List ω} (h : AwaitsAll T s ps s') (hpre : os <+: ps) :
    ∃ s₁, AwaitsAll T s os s₁ := by
  induction h generalizing os with
  | nil s =>
      obtain rfl := List.prefix_nil.mp hpre
      exact ⟨s, .nil s⟩
  | @cons s o s₁ ps s' hawait _ ih =>
      cases os with
      | nil => exact ⟨s, .nil s⟩
      | cons o' os =>
          obtain ⟨rfl, hrest⟩ := List.cons_prefix_cons.mp hpre
          obtain ⟨s₂, hall⟩ := ih hrest
          exact ⟨s₂, .cons hawait hall⟩

/-- The machine in the state `s` gives the answers `os` and comes to a state with `P`.
A run gives a prefix of them, and never gets stuck before it has given all, which every
run of some length has; what it gives then it gives from a state with `P`. -/
structure Gives (T : StepRel σ ω) (os : List ω) (P : σ → Prop) (s : σ) : Prop where
  along : ∀ ⦃rs s'⦄, Runs T s rs s' → (readies rs <+: os ∧ readies rs ≠ os) ∨
    ∃ pre post s₁, rs = pre ++ post ∧ readies pre = os ∧ P s₁ ∧ Runs T s₁ post s'
  moves : ∀ ⦃rs s'⦄, Runs T s rs s' → ¬ os <+: readies rs → ∃ t r s'', T s' t r s''
  ends : ∃ rs s', Runs T s rs s' ∧ readies rs = os ∧
    ∀ qs s'', Runs T s qs s'' → rs.length ≤ qs.length → os <+: readies qs

theorem AwaitsAll.gives (hT : T.Functional) {P : σ → Prop} (h : AwaitsAll T s os s') (hP : P s') :
    Gives T os P s where
  along := by
    intro rs s₁ hrun
    rcases h.along hT hrun with ⟨later, hne, rfl, -⟩ | ⟨pre, post, rfl, hpre, hpost⟩
    · exact .inl ⟨⟨later, rfl⟩, by simpa using hne⟩
    · exact .inr ⟨pre, post, s', rfl, hpre, hP, hpost⟩
  moves := by
    intro rs s₁ hrun hnot
    rcases h.along hT hrun with ⟨later, hne, rfl, hall⟩ | ⟨pre, post, rfl, rfl, -⟩
    · cases hall with
      | nil => exact (hne rfl).elim
      | cons hawait _ => exact hawait.step
    · exact (hnot (prefix_readies ⟨post, rfl⟩)).elim
  ends := by
    obtain ⟨rs, hrs, hos⟩ := h.runs
    refine ⟨rs, s', hrs, hos, fun qs s'' hqs hle => ?_⟩
    rw [← hos]
    exact prefix_readies (hrs.prefix_of_le hT hqs hle)

end HttpBody.Support
