import HttpBody.Support.Await

/-!
# Poll functions that loop

Some poll functions poll an inner machine in a loop, until it is pending or an
answer can be given.  One turn of such a loop is a poll function of its own: it
is ready with `none` when the loop goes on, and with an answer when it ends.
The loop is modelled with fuel, and a call is one that does not depend on the
fuel once there is enough of it.
-/

namespace HttpBody.Support

universe u

variable {σ τ ω : Type u}

/-- The loop over `turn`, cut off after `fuel` turns. -/
def loop (turn : σ → Call (Poll (Option ω) × σ)) : ℕ → σ → Call (Poll ω × σ)
  | 0, _ => ⟨[], .error .outOfFuel⟩
  | fuel + 1, s => do
      let (r, s) ← turn s
      match r with
      | .pending => return (.pending, s)
      | .ready (some o) => return (.ready o, s)
      | .ready none => loop turn fuel s

/-- The calls that return, given enough fuel. -/
def Call.loops (turn : σ → Call (Poll (Option ω) × σ)) : StepRel σ ω :=
  fun s t r s' => ∃ n, ∀ fuel, n ≤ fuel → loop turn fuel s = ⟨t, .ok (r, s')⟩

theorem Call.loops_functional (turn : σ → Call (Poll (Option ω) × σ)) :
    (Call.loops turn).Functional := by
  intro s t₁ r₁ s₁ t₂ r₂ s₂ h₁ h₂
  obtain ⟨n₁, hn₁⟩ := h₁
  obtain ⟨n₂, hn₂⟩ := h₂
  have hcall₁ := hn₁ (max n₁ n₂) (Nat.le_max_left n₁ n₂)
  have hcall₂ := hn₂ (max n₁ n₂) (Nat.le_max_right n₁ n₂)
  simpa using hcall₁.symm.trans hcall₂

/-- The turns of a call that returns. -/
inductive Turns (turn : σ → Call (Poll (Option ω) × σ)) : StepRel σ ω where
  | pending {s t s'} : Call.steps turn s t .pending s' → Turns turn s t .pending s'
  | ready {s t o s'} : Call.steps turn s t (.ready (some o)) s' →
      Turns turn s t (.ready o) s'
  | again {s t s₁ u r s'} : Call.steps turn s t (.ready none) s₁ →
      Turns turn s₁ u r s' → Turns turn s (t ++ u) r s'

section Turns

variable {turn : σ → Call (Poll (Option ω) × σ)}

theorem turns_of_loop {fuel : ℕ} {s s' : σ} {t : List Event} {r : Poll ω}
    (h : loop turn fuel s = ⟨t, .ok (r, s')⟩) : Turns turn s t r s' := by
  induction fuel generalizing s t with
  | zero => simp [loop] at h
  | succ fuel ih =>
      obtain ⟨t₁, ⟨r₁, s₁⟩, t₂, hturn, hrest, rfl⟩ := Call.bind_eq_ok.mp h
      rcases r₁ with _ | (_ | o)
      · exact StepRel.of_pure hrest (.pending hturn)
      · exact .again hturn (ih hrest)
      · exact StepRel.of_pure hrest (.ready hturn)

theorem loops_of_turns {s s' : σ} {t : List Event} {r : Poll ω}
    (h : Turns turn s t r s') : Call.loops turn s t r s' := by
  induction h with
  | pending hturn =>
      refine ⟨1, fun fuel hfuel => ?_⟩
      obtain ⟨fuel, rfl⟩ := Nat.exists_eq_add_of_le' hfuel
      exact Call.bind_pure_ok hturn rfl
  | ready hturn =>
      refine ⟨1, fun fuel hfuel => ?_⟩
      obtain ⟨fuel, rfl⟩ := Nat.exists_eq_add_of_le' hfuel
      exact Call.bind_pure_ok hturn rfl
  | again hturn _ ih =>
      obtain ⟨n, hn⟩ := ih
      refine ⟨n + 1, fun fuel hfuel => ?_⟩
      obtain ⟨fuel, rfl⟩ := Nat.exists_eq_add_of_le' (Nat.le_trans (Nat.le_add_left 1 n) hfuel)
      exact Call.bind_eq_ok.mpr ⟨_, _, _, hturn, hn fuel (by omega), rfl⟩

/-- A call of the loop returns exactly when finitely many turns lead to it. -/
theorem loops_iff {s s' : σ} {t : List Event} {r : Poll ω} :
    Call.loops turn s t r s' ↔ Turns turn s t r s' := by
  constructor
  · rintro ⟨n, hn⟩
    exact turns_of_loop (hn n (Nat.le_refl n))
  · exact loops_of_turns

/-- A loop that goes on gives, in the same call, what its next state gives. -/
theorem loops_again {s s₁ s' : σ} {t u : List Event} {r : Poll ω}
    (hturn : Call.steps turn s t (.ready none) s₁) (h : Call.loops turn s₁ u r s') :
    Call.loops turn s (t ++ u) r s' :=
  loops_iff.mpr (.again hturn (loops_iff.mp h))

/-- The same for a run that starts in the middle of a call. -/
theorem TracedRuns.loops_again {s s₁ s' : σ} {t u : List Event} {rs : List (Poll ω)}
    (hturn : Call.steps turn s t (.ready none) s₁)
    (h : TracedRuns (Call.loops turn) s₁ u rs s') (hrs : rs ≠ []) :
    TracedRuns (Call.loops turn) s (t ++ u) rs s' := by
  cases h with
  | nil => exact (hrs rfl).elim
  | cons hstep hrest =>
      rw [← List.append_assoc]
      exact .cons (Support.loops_again hturn hstep) hrest

/-- A loop that cannot go on forever returns, or stops where one of its turns
stops. -/
theorem loop_ends {n : ℕ} {s : σ}
    (h : ∀ s', ¬ Runs (Call.steps turn) s (List.replicate n (.ready none)) s') :
    (∃ t r s', Call.loops turn s t r s') ∨
      ∃ k s₁ t u stop, Runs (Call.steps turn) s (List.replicate k (.ready none)) s₁ ∧
        turn s₁ = ⟨t, .error stop⟩ ∧ ∃ m, ∀ fuel, m ≤ fuel →
          loop turn fuel s = ⟨u, .error stop⟩ := by
  induction n generalizing s with
  | zero => exact (h s (.nil s)).elim
  | succ n ih =>
      rcases hturn : turn s with ⟨t, stop | ⟨_ | (_ | o), s₁⟩⟩
      · refine .inr ⟨0, s, t, t, stop, .nil s, hturn, 1, fun fuel hfuel => ?_⟩
        obtain ⟨fuel, rfl⟩ := Nat.exists_eq_add_of_le' hfuel
        exact Call.bind_eq_error.mpr (.inl hturn)
      · exact .inl ⟨t, .pending, s₁, loops_iff.mpr (.pending hturn)⟩
      · have hrest : ∀ s', ¬ Runs (Call.steps turn) s₁ (List.replicate n (.ready none)) s' := by
          intro s' hrun
          apply h s'
          rw [List.replicate_succ]
          exact .cons hturn hrun
        rcases ih hrest with ⟨u, r, s', hcall⟩ | ⟨k, s₂, t₂, u, stop, hrun, hstop, m, hm⟩
        · exact .inl ⟨t ++ u, r, s', loops_again hturn hcall⟩
        · refine .inr ⟨k + 1, s₂, t₂, t ++ u, stop, ?_, hstop, m + 1, fun fuel hfuel => ?_⟩
          · rw [List.replicate_succ]
            exact .cons hturn hrun
          · obtain ⟨fuel, rfl⟩ :=
              Nat.exists_eq_add_of_le' (Nat.le_trans (Nat.le_add_left 1 m) hfuel)
            have hlater : loop turn fuel s₁ = ⟨u, .error stop⟩ := hm fuel (by omega)
            exact Call.bind_eq_error.mpr (.inr ⟨t, _, u, hturn, hlater, rfl⟩)
      · exact .inl ⟨t, .ready o, s₁, loops_iff.mpr (.ready hturn)⟩

/-- A call of the loop leaves a state that turns lead to. -/
theorem Turns.runs {s s' : σ} {t : List Event} {r : Poll ω}
    (h : Turns turn s t r s') : ∃ rs, Runs (Call.steps turn) s rs s' := by
  induction h with
  | pending hturn => exact ⟨_, .single hturn⟩
  | ready hturn => exact ⟨_, .single hturn⟩
  | again hturn _ ih =>
      obtain ⟨rs, hrs⟩ := ih
      exact ⟨_, .cons hturn hrs⟩

/-- What holds in all states that turns can reach holds in all states that
calls of the loop can reach. -/
theorem Always.loops {P : σ → Prop} {s : σ} (h : Always (Call.steps turn) P s) :
    Always (Call.loops turn) P s := by
  refine Always.of_invariant (Always (Call.steps turn) P) h (fun s hs => hs.here) ?_
  intro s t r s' hs hcall
  obtain ⟨rs, hrs⟩ := (loops_iff.mp hcall).runs
  exact hs.runs hrs

/-! ## Awaiting a loop -/

/-- The turns of the loop, each of them awaited, finally give `o`. -/
inductive AwaitsTurns (turn : σ → Call (Poll (Option ω) × σ)) : σ → ω → σ → Prop where
  | ready {s o s'} : Awaits (Call.steps turn) s (some o) s' → AwaitsTurns turn s o s'
  | again {s s₁ o s'} : Awaits (Call.steps turn) s none s₁ →
      AwaitsTurns turn s₁ o s' → AwaitsTurns turn s o s'

theorem AwaitsTurns.of_pending {s s₁ s' : σ} {t : List Event} {o : ω}
    (hturn : Call.steps turn s t .pending s₁) (h : AwaitsTurns turn s₁ o s') :
    AwaitsTurns turn s o s' := by
  cases h with
  | ready hawait => exact .ready (.pending hturn hawait)
  | again hawait hrest => exact .again (.pending hturn hawait) hrest

theorem AwaitsTurns.of_turns {s s₁ s' : σ} {t : List Event} {r : Poll ω} {o : ω}
    (h : Turns turn s t r s₁)
    (hrest : (r = .ready o ∧ s₁ = s') ∨ (r = .pending ∧ AwaitsTurns turn s₁ o s')) :
    AwaitsTurns turn s o s' := by
  induction h with
  | pending hturn =>
      obtain ⟨hr, -⟩ | ⟨-, hlater⟩ := hrest
      · cases hr
      · exact .of_pending hturn hlater
  | ready hturn =>
      obtain ⟨hr, rfl⟩ | ⟨hr, -⟩ := hrest
      · cases hr
        exact .ready (.ready hturn)
      · cases hr
  | again hturn _ ih => exact .again (.ready hturn) (ih hrest)

theorem awaits_loops_of_again {s s₁ s' : σ} {o : ω}
    (hawait : Awaits (Call.steps turn) s none s₁) (h : Awaits (Call.loops turn) s₁ o s') :
    Awaits (Call.loops turn) s o s' := by
  generalize hx : (none : Option ω) = x at hawait
  induction hawait with
  | ready hturn =>
      subst hx
      cases h with
      | ready hcall => exact .ready (loops_again hturn hcall)
      | pending hcall hlater => exact .pending (loops_again hturn hcall) hlater
  | pending hturn _ ih =>
      exact .pending (loops_iff.mpr (.pending hturn)) (ih h hx)

/-- Awaiting a loop is awaiting its turns. -/
theorem awaits_loops_iff {s s' : σ} {o : ω} :
    Awaits (Call.loops turn) s o s' ↔ AwaitsTurns turn s o s' := by
  constructor
  · intro h
    induction h with
    | ready hcall => exact .of_turns (loops_iff.mp hcall) (.inl ⟨rfl, rfl⟩)
    | pending hcall _ ih => exact .of_turns (loops_iff.mp hcall) (.inr ⟨rfl, ih⟩)
  · intro h
    induction h with
    | @ready s o s' hawait =>
        generalize hx : some o = x at hawait
        induction hawait with
        | ready hturn =>
            subst hx
            exact .ready (loops_iff.mpr (.ready hturn))
        | pending hturn _ ih => exact .pending (loops_iff.mpr (.pending hturn)) (ih hx)
    | again hawait _ ih => exact awaits_loops_of_again hawait ih

/-- Loops over turns that await alike await alike. -/
theorem AwaitSim.loops {turn' : τ → Call (Poll (Option ω) × τ)} {again : ω → Prop}
    {R : σ → τ → Prop}
    (h : AwaitSim (Call.steps turn) (Call.steps turn') (fun x => ∀ o, x = some o → again o) R) :
    AwaitSim (Call.loops turn) (Call.loops turn') again R := by
  intro s u o s' hR hawait
  replace hawait := awaits_loops_iff.mp hawait
  induction hawait generalizing u with
  | ready hawait =>
      obtain ⟨u', hu', hnext⟩ := h hR hawait
      refine ⟨u', awaits_loops_iff.mpr (.ready hu'), fun hagain => hnext ?_⟩
      rintro o' ⟨⟩
      exact hagain
  | again hawait _ ih =>
      obtain ⟨u₁, hu₁, hnext⟩ := h hR hawait
      have hR₁ := hnext (by simp)
      obtain ⟨u', hu', hlast⟩ := ih hR₁
      exact ⟨u', awaits_loops_of_again hu₁ hu', hlast⟩

/-- A loop is woken whenever its turns are, however far it is followed. -/
theorem Wakeful.loop {s : σ}
    (h : Always (Call.steps turn) (fun s => Wakeful (turn s)) s) (fuel : ℕ) :
    Wakeful (loop turn fuel s) := by
  induction fuel generalizing s with
  | zero => exact .error .outOfFuel
  | succ fuel ih =>
      refine h.here.bind (fun s' => ⟨s', rfl⟩) fun x s' hvalue => ?_
      cases x with
      | none => exact ih (h.next (Call.steps_of_value hvalue))
      | some o => exact .pure_ready o s'

end Turns

end HttpBody.Support
