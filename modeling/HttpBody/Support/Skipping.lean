import HttpBody.Support.Loop
import HttpBody.Support.Relay

/-!
# Loops that skip answers

A loop may poll an inner machine until it gives an answer that is wanted, and
hand that answer on.  Its runs are those of the inner machine with the unwanted
answers left out; and its calls end unless unwanted answers go on forever.
-/

namespace HttpBody.Support

universe u

variable {σ ω ω' W : Type u}

/-- One turn of such a loop is a relay without a state of its own: the answers
that `g` maps to `none` are skipped. -/
def Skips (inner : σ → Call (Poll ω × σ)) (turn : W → Call (Poll (Option ω') × W))
    (mk : σ → W) (g : ω → Option ω') : Prop :=
  Relays inner turn (fun (_ : PUnit) b => mk b) fun u o => (g o, u)

/-- What is seen of an answer. -/
def seen (g : ω → Option ω') : Poll ω → Option (Poll ω')
  | .pending => some .pending
  | .ready o => (g o).map .ready

theorem seen_ready_some {g : ω → Option ω'} {o : ω} {o' : ω'} (h : g o = some o') :
    seen g (.ready o) = some (.ready o') := by
  rw [seen, h]
  rfl

theorem seen_ready_none {g : ω → Option ω'} {o : ω} (h : g o = none) :
    seen g (.ready o) = none := by
  rw [seen, h]
  rfl

/-- What is seen of the answers of a run. -/
def visible (g : ω → Option ω') (rs : List (Poll ω)) : List (Poll ω') :=
  rs.filterMap (seen g)

@[simp] theorem visible_nil (g : ω → Option ω') : visible g [] = [] := rfl

@[simp] theorem visible_append (g : ω → Option ω') (rs qs : List (Poll ω)) :
    visible g (rs ++ qs) = visible g rs ++ visible g qs :=
  List.filterMap_append

theorem visible_cons_some {g : ω → Option ω'} {r : Poll ω} {q : Poll ω'} (h : seen g r = some q)
    (rs : List (Poll ω)) : visible g (r :: rs) = q :: visible g rs :=
  List.filterMap_cons_some h

theorem visible_cons_none {g : ω → Option ω'} {r : Poll ω} (h : seen g r = none)
    (rs : List (Poll ω)) : visible g (r :: rs) = visible g rs :=
  List.filterMap_cons_none h

/-- The last answer was seen, so that no call is in progress after it. -/
def AtRest (g : ω → Option ω') (rs : List (Poll ω)) : Prop :=
  ∀ r ∈ rs.getLast?, seen g r ≠ none

namespace AtRest

variable {g : ω → Option ω'}

theorem nil : AtRest g [] := by
  simp [AtRest]

theorem single {r : Poll ω} {q : Poll ω'} (h : seen g r = some q) : AtRest g [r] := by
  simp [AtRest, h]

theorem append {rs qs : List (Poll ω)} (hrs : AtRest g rs) (hqs : AtRest g qs) :
    AtRest g (rs ++ qs) := by
  intro r hr
  rw [List.getLast?_append, Option.mem_def, Option.or_eq_some_iff] at hr
  rcases hr with hlast | ⟨-, hlast⟩
  · exact hqs r hlast
  · exact hrs r hlast

theorem cons {r : Poll ω} {rs : List (Poll ω)} (h : AtRest g rs) (hrs : rs ≠ []) :
    AtRest g (r :: rs) := by
  obtain ⟨q, qs, rfl⟩ := List.exists_cons_of_ne_nil hrs
  intro x hx
  rw [List.getLast?_cons_cons] at hx
  exact h x hx

theorem tail {r : Poll ω} {rs : List (Poll ω)} (h : AtRest g (r :: rs)) : AtRest g rs := by
  rcases rs with _ | ⟨q, qs⟩
  · exact nil
  · intro x hx
    apply h x
    rwa [List.getLast?_cons_cons]

theorem ne_nil {r : Poll ω} {rs : List (Poll ω)} (h : AtRest g (r :: rs))
    (hr : seen g r = none) : rs ≠ [] := by
  rintro rfl
  exact h r rfl hr

theorem visible_ne_nil {rs : List (Poll ω)} (h : AtRest g rs) (hrs : rs ≠ []) :
    visible g rs ≠ [] := by
  obtain ⟨pre, r, rfl⟩ := (List.eq_nil_or_concat rs).resolve_left hrs
  obtain ⟨q, hq⟩ := Option.ne_none_iff_exists'.mp (h r (by simp))
  rw [List.concat_eq_append, visible_append, visible_cons_some hq]
  simp

end AtRest

namespace Skips

variable {inner : σ → Call (Poll ω × σ)} {turn : W → Call (Poll (Option ω') × W)} {mk : σ → W}
  {g : ω → Option ω'}

theorem step_cases (h : Skips inner turn mk g) {b : σ} {t : List Event}
    {r : Poll (Option ω')} {w : W} (hstep : Call.steps turn (mk b) t r w) :
    (∃ b', Call.steps inner b t .pending b' ∧ r = .pending ∧ w = mk b') ∨
      ∃ o b', Call.steps inner b t (.ready o) b' ∧ r = .ready (g o) ∧ w = mk b' :=
  Relays.step_cases h (s := ⟨⟩) hstep

theorem step_pending (h : Skips inner turn mk g) {b b' : σ} {t : List Event}
    (hstep : Call.steps inner b t .pending b') : Call.steps turn (mk b) t .pending (mk b') :=
  (Relays.passes h ⟨⟩).step_pending hstep

theorem step_ready (h : Skips inner turn mk g) {b b' : σ} {t : List Event} {o : ω}
    (hstep : Call.steps inner b t (.ready o) b') :
    Call.steps turn (mk b) t (.ready (g o)) (mk b') :=
  Relays.step_ready h (s := ⟨⟩) hstep

/-- A call makes as many calls of the inner machine as are skipped, and one. -/
theorem turns (h : Skips inner turn mk g) {b : σ} {t : List Event} {q : Poll ω'} {w : W}
    (hturns : Turns turn (mk b) t q w) :
    ∃ rs b', TracedRuns (Call.steps inner) b t rs b' ∧ AtRest g rs ∧ visible g rs = [q] ∧
      w = mk b' := by
  generalize hw : mk b = w₀ at hturns
  induction hturns generalizing b with
  | pending hturn =>
      subst hw
      rcases h.step_cases hturn with ⟨b', hpoll, -, rfl⟩ | ⟨o, b', -, hr, -⟩
      · exact ⟨[.pending], b', .single hpoll, .single rfl, rfl, rfl⟩
      · cases hr
  | ready hturn =>
      subst hw
      rcases h.step_cases hturn with ⟨b', -, hr, -⟩ | ⟨o, b', hpoll, hr, rfl⟩
      · cases hr
      · have hseen := seen_ready_some (Poll.ready.inj hr).symm
        exact ⟨[.ready o], b', .single hpoll, .single hseen, visible_cons_some hseen [], rfl⟩
  | again hturn _ ih =>
      subst hw
      rcases h.step_cases hturn with ⟨b₁, -, hr, -⟩ | ⟨o, b₁, hpoll, hr, rfl⟩
      · cases hr
      · have hseen := seen_ready_none (Poll.ready.inj hr).symm
        obtain ⟨rs, b', hrun, hrest, hvisible, rfl⟩ := ih rfl
        have hrs : rs ≠ [] := by
          rintro rfl
          cases hvisible
        refine ⟨.ready o :: rs, b', .cons hpoll hrun, hrest.cons hrs, ?_, rfl⟩
        rw [visible_cons_none hseen, hvisible]

/-- The runs of the loop are the runs of the inner machine, without the answers
that are skipped. -/
theorem tracedRuns_iff (h : Skips inner turn mk g) {b : σ} {t : List Event}
    {qs : List (Poll ω')} {w : W} :
    TracedRuns (Call.loops turn) (mk b) t qs w ↔
      ∃ rs b', TracedRuns (Call.steps inner) b t rs b' ∧ AtRest g rs ∧ qs = visible g rs ∧
        w = mk b' := by
  constructor
  · intro hrun
    generalize hw : mk b = w₀ at hrun
    induction hrun generalizing b with
    | nil w =>
        subst hw
        exact ⟨[], b, .nil b, .nil, rfl, rfl⟩
    | cons hcall _ ih =>
        subst hw
        obtain ⟨rs, b₁, hrs, hrest, hvisible, rfl⟩ := h.turns (loops_iff.mp hcall)
        obtain ⟨rs', b', hrs', hrest', rfl, rfl⟩ := ih rfl
        refine ⟨rs ++ rs', b', hrs.append hrs', hrest.append hrest', ?_, rfl⟩
        rw [visible_append, hvisible]
        rfl
  · rintro ⟨rs, b', hrun, hrest, rfl, rfl⟩
    induction hrun with
    | nil b => exact .nil (mk b)
    | @cons b t r b₁ u rs b' hstep _ ih =>
        have hlater := ih hrest.tail
        rcases r with _ | o
        · exact .cons (loops_iff.mpr (.pending (h.step_pending hstep))) hlater
        · have hturn := h.step_ready hstep
          rcases ho : g o with _ | o'
          · have hseen := seen_ready_none ho
            rw [ho] at hturn
            rw [visible_cons_none hseen]
            have hne : visible g rs ≠ [] := hrest.tail.visible_ne_nil (hrest.ne_nil hseen)
            exact hlater.loops_again hturn hne
          · have hseen := seen_ready_some ho
            rw [ho] at hturn
            rw [visible_cons_some hseen]
            exact .cons (loops_iff.mpr (.ready hturn)) hlater

/-- Turns that go on are answers that are skipped. -/
theorem skipped_runs (h : Skips inner turn mk g) {b : σ} {k : ℕ} {w : W}
    (hrun : Runs (Call.steps turn) (mk b) (List.replicate k (.ready none)) w) :
    ∃ (os : List ω) (b' : σ), Runs (Call.steps inner) b (os.map .ready) b' ∧
      (∀ o ∈ os, g o = none) ∧ os.length = k ∧ w = mk b' := by
  induction k generalizing b with
  | zero =>
      obtain rfl := runs_nil_iff.mp hrun
      exact ⟨[], b, .nil b, by simp, rfl, rfl⟩
  | succ k ih =>
      rw [List.replicate_succ] at hrun
      obtain ⟨t, w₁, hturn, hrest⟩ := runs_cons_iff.mp hrun
      rcases h.step_cases hturn with ⟨b₁, -, hr, -⟩ | ⟨o, b₁, hpoll, hr, rfl⟩
      · cases hr
      · obtain ⟨os, b', hos, hskip, hlength, rfl⟩ := ih hrest
        refine ⟨o :: os, b', .cons hpoll hos, ?_, congrArg Nat.succ hlength, rfl⟩
        rw [List.forall_mem_cons]
        exact ⟨(Poll.ready.inj hr).symm, hskip⟩

/-- If only finitely many answers are skipped in a row, a call returns, or it
stops where the inner machine stops. -/
theorem ends (h : Skips inner turn mk g) {b : σ} {n : ℕ}
    (hn : ∀ (os : List ω) b', Runs (Call.steps inner) b (os.map .ready) b' →
      (∀ o ∈ os, g o = none) → os.length < n) :
    (∃ t r w, Call.loops turn (mk b) t r w) ∨
      ∃ (os : List ω) (b' : σ) (t u : List Event) (stop : Stop),
        Runs (Call.steps inner) b (os.map .ready) b' ∧ (∀ o ∈ os, g o = none) ∧
        inner b' = ⟨t, .error stop⟩ ∧ ∃ m, ∀ fuel, m ≤ fuel →
          loop turn fuel (mk b) = ⟨u, .error stop⟩ := by
  have hfew : ∀ w, ¬ Runs (Call.steps turn) (mk b) (List.replicate n (.ready none)) w := by
    intro w hrun
    obtain ⟨os, b', hos, hskip, hlength, -⟩ := h.skipped_runs hrun
    exact Nat.lt_irrefl n (hlength ▸ hn os b' hos hskip)
  rcases loop_ends hfew with hreturns | ⟨k, w, t, u, stop, hrun, hstop, hloop⟩
  · exact .inl hreturns
  · obtain ⟨os, b', hos, hskip, -, rfl⟩ := h.skipped_runs hrun
    exact .inr ⟨os, b', t, u, stop, hos, hskip, Relays.stop h (s := ⟨⟩) hstop, hloop⟩

end Skips

end HttpBody.Support
