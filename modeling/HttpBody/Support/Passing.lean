import HttpBody.Support.Await

/-!
# Passing a suspension on

A poll function that polls an inner machine returns at once when that machine
is pending, and goes on with the answer otherwise.  Awaiting such a function is
awaiting the inner machine and then going on; and it is woken whenever the inner
machine is.
-/

namespace HttpBody.Support

universe u

variable {σ ω ω' W : Type u}

/-- Poll `b`.  A pending answer is returned in the state `hold b`; with any
other answer the call goes on as `next` says. -/
def passing (poll : σ → Call (Poll ω × σ)) (hold : σ → W)
    (next : ω → σ → Call (Poll ω' × W)) (b : σ) : Call (Poll ω' × W) := do
  let (r, b) ← poll b
  match r with
  | .pending => return (.pending, hold b)
  | .ready o => next o b

/-- `outer` calls `inner` in this way. -/
def Passes (inner : σ → Call (Poll ω × σ)) (outer : W → Call (Poll ω' × W))
    (hold : σ → W) (next : ω → σ → Call (Poll ω' × W)) : Prop :=
  ∀ b, outer (hold b) = passing inner hold next b

/-- After the call `c` has returned, `poll` is called until it is ready. -/
inductive AwaitsFrom (poll : W → Call (Poll ω × W)) :
    Call (Poll ω × W) → ω → W → Prop where
  | ready {t o w} : AwaitsFrom poll ⟨t, .ok (.ready o, w)⟩ o w
  | pending {t w₁ o w} : Awaits (Call.steps poll) w₁ o w →
      AwaitsFrom poll ⟨t, .ok (.pending, w₁)⟩ o w

section AwaitsFrom

variable {poll : W → Call (Poll ω × W)} {o : ω} {w : W}

theorem awaitsFrom_call {w₀ : W} :
    AwaitsFrom poll (poll w₀) o w ↔ Awaits (Call.steps poll) w₀ o w := by
  constructor
  · intro h
    generalize hc : poll w₀ = c at h
    cases h with
    | ready => exact .ready hc
    | pending hrest => exact .pending hc hrest
  · intro h
    cases h with
    | ready hstep =>
        have heq : poll w₀ = ⟨_, .ok (.ready o, w)⟩ := hstep
        exact heq ▸ .ready
    | @pending _ t w₁ _ _ hstep hrest =>
        have heq : poll w₀ = ⟨t, .ok (.pending, w₁)⟩ := hstep
        exact heq ▸ .pending hrest

@[simp] theorem awaitsFrom_pure {a : ω} {w' : W} :
    AwaitsFrom poll (pure (.ready a, w')) o w ↔ o = a ∧ w = w' := by
  constructor
  · rintro ⟨⟩
    exact ⟨rfl, rfl⟩
  · rintro ⟨rfl, rfl⟩
    exact .ready

@[simp] theorem not_awaitsFrom_error {t : List Event} {e : Stop} :
    ¬ AwaitsFrom poll ⟨t, .error e⟩ o w := by
  rintro ⟨⟩

end AwaitsFrom

namespace Passes

variable {inner : σ → Call (Poll ω × σ)} {outer : W → Call (Poll ω' × W)}
  {hold : σ → W} {next : ω → σ → Call (Poll ω' × W)}

theorem of_bind {rest : Poll ω × σ → Call (Poll ω' × W)}
    (hcall : ∀ b, outer (hold b) = inner b >>= rest)
    (hpending : ∀ b, rest (.pending, b) = pure (.pending, hold b))
    (hready : ∀ o b, rest (.ready o, b) = next o b) : Passes inner outer hold next := by
  intro b
  rw [hcall b, passing]
  refine bind_congr fun answer => ?_
  obtain ⟨r, b⟩ := answer
  cases r with
  | pending => exact hpending b
  | ready o => exact hready o b

theorem step_cases (h : Passes inner outer hold next) {b : σ} {t : List Event}
    {r : Poll ω'} {w : W} (hstep : Call.steps outer (hold b) t r w) :
    (∃ b', Call.steps inner b t .pending b' ∧ r = .pending ∧ w = hold b') ∨
      ∃ t₁ x b' t₂, Call.steps inner b t₁ (.ready x) b' ∧
        next x b' = ⟨t₂, .ok (r, w)⟩ ∧ t = t₁ ++ t₂ := by
  rw [Call.steps, h b, passing, Call.bind_eq_ok] at hstep
  obtain ⟨t₁, ⟨r₁, b'⟩, t₂, hpoll, hrest, rfl⟩ := hstep
  cases r₁ with
  | pending =>
      obtain ⟨rfl, heq⟩ := Call.pure_eq_ok.mp hrest
      rw [Prod.mk.injEq] at heq
      exact .inl ⟨b', by simpa [Call.steps] using hpoll, heq.1.symm, heq.2.symm⟩
  | ready x => exact .inr ⟨t₁, x, b', t₂, hpoll, hrest, rfl⟩

theorem step_pending (h : Passes inner outer hold next) {b b' : σ}
    {t : List Event} (hstep : Call.steps inner b t .pending b') :
    Call.steps outer (hold b) t .pending (hold b') := by
  rw [Call.steps, h b]
  exact Call.bind_pure_ok hstep rfl

theorem step_ready (h : Passes inner outer hold next) {b b' : σ}
    {t u : List Event} {x : ω} {r : Poll ω'} {w : W}
    (hstep : Call.steps inner b t (.ready x) b') (hnext : next x b' = ⟨u, .ok (r, w)⟩) :
    Call.steps outer (hold b) (t ++ u) r w := by
  rw [Call.steps, h b]
  exact Call.bind_eq_ok.mpr ⟨t, _, u, hstep, hnext, rfl⟩

/-- Awaiting the outer machine is awaiting the inner one and going on. -/
theorem awaits_iff (h : Passes inner outer hold next) {b : σ} {o : ω'} {w : W} :
    Awaits (Call.steps outer) (hold b) o w ↔
      ∃ x b', Awaits (Call.steps inner) b x b' ∧ AwaitsFrom outer (next x b') o w := by
  constructor
  · intro hawait
    generalize hw : hold b = w₀ at hawait
    induction hawait generalizing b with
    | ready hstep =>
        subst hw
        rcases h.step_cases hstep with ⟨b', -, hr, -⟩ | ⟨t₁, x, b', t₂, hpoll, hnext, -⟩
        · cases hr
        · exact ⟨x, b', .ready hpoll, hnext ▸ .ready⟩
    | pending hstep hrest ih =>
        subst hw
        rcases h.step_cases hstep with ⟨b', hpoll, -, rfl⟩ | ⟨t₁, x, b', t₂, hpoll, hnext, -⟩
        · obtain ⟨x, b'', hawait, hfrom⟩ := ih rfl
          exact ⟨x, b'', .pending hpoll hawait, hfrom⟩
        · exact ⟨x, b', .ready hpoll, hnext ▸ .pending hrest⟩
  · rintro ⟨x, b', hawait, hfrom⟩
    induction hawait with
    | @ready b t x b' hpoll =>
        generalize hc : next x b' = c at hfrom
        cases hfrom with
        | ready => exact .ready (h.step_ready hpoll hc)
        | pending hrest => exact .pending (h.step_ready hpoll hc) hrest
    | pending hpoll _ ih => exact .pending (h.step_pending hpoll) (ih hfrom)

theorem awaits_of_pure (h : Passes inner outer hold next) {b b' : σ} {x : ω} {o : ω'} {w : W}
    (hawait : Awaits (Call.steps inner) b x b') (hnext : next x b' = pure (.ready o, w)) :
    Awaits (Call.steps outer) (hold b) o w := by
  refine h.awaits_iff.mpr ⟨x, b', hawait, ?_⟩
  rw [hnext]
  exact awaitsFrom_pure.mpr ⟨rfl, rfl⟩

/-- The outer machine is woken whenever the inner one is, if it keeps the
discipline when it goes on. -/
theorem wakeful (h : Passes inner outer hold next) {b : σ} (hb : Wakeful (inner b))
    (hnext : ∀ t x b', Call.steps inner b t (.ready x) b' → Wakeful (next x b')) :
    Wakeful (outer (hold b)) := by
  rw [h b]
  refine hb.bind (fun b' => ⟨hold b', rfl⟩) fun x b' hvalue => ?_
  exact hnext _ x b' (Call.steps_of_value hvalue)

end Passes

/-! ## Calls that are followed by the same answers -/

section Follows

variable {τ V ω₁ : Type u} {poll : W → Call (Poll ω × W)} {poll' : V → Call (Poll ω × V)}
  {again : ω → Prop} {R : W → V → Prop}

/-- Every answer that is awaited from `c` on is awaited from `c'` on, and leaves
related states if the machine is called again after it. -/
def Follows (poll : W → Call (Poll ω × W)) (poll' : V → Call (Poll ω × V))
    (again : ω → Prop) (R : W → V → Prop) (c : Call (Poll ω × W)) (c' : Call (Poll ω × V)) :
    Prop :=
  ∀ ⦃o w⦄, AwaitsFrom poll c o w → ∃ w', AwaitsFrom poll' c' o w' ∧ (again o → R w w')

theorem Follows.ready {a : ω} {w : W} {w' : V} (h : again a → R w w') :
    Follows poll poll' again R (pure (.ready a, w)) (pure (.ready a, w')) := by
  intro o w₁ hfrom
  obtain ⟨rfl, rfl⟩ := awaitsFrom_pure.mp hfrom
  exact ⟨w', awaitsFrom_pure.mpr ⟨rfl, rfl⟩, h⟩

theorem Follows.stops {t : List Event} {e : Stop} {c' : Call (Poll ω × V)} :
    Follows poll poll' again R ⟨t, .error e⟩ c' :=
  fun _ _ hfrom => (not_awaitsFrom_error hfrom).elim

/-- A simulation is a relation whose calls follow each other. -/
theorem awaitSim_iff : AwaitSim (Call.steps poll) (Call.steps poll') again R ↔
    ∀ ⦃w w'⦄, R w w' → Follows poll poll' again R (poll w) (poll' w') := by
  constructor
  · intro h w w' hR o w₁ hfrom
    obtain ⟨w₁', hawait, hnext⟩ := h hR (awaitsFrom_call.mp hfrom)
    exact ⟨w₁', awaitsFrom_call.mpr hawait, hnext⟩
  · intro h w w' o w₁ hR hawait
    obtain ⟨w₁', hfrom, hnext⟩ := h hR (awaitsFrom_call.mpr hawait)
    exact ⟨w₁', awaitsFrom_call.mp hfrom, hnext⟩

/-- Machines that pass a suspension on follow each other, if their inner
machines do and they go on in the same way. -/
theorem Passes.follows {inner : σ → Call (Poll ω' × σ)} {hold : σ → W}
    {next : ω' → σ → Call (Poll ω × W)} {inner' : τ → Call (Poll ω₁ × τ)} {hold' : τ → V}
    {next' : ω₁ → τ → Call (Poll ω × V)} (h : Passes inner poll hold next)
    (h' : Passes inner' poll' hold' next') {b : σ} {b' : τ}
    (hinner : ∀ x b₁, Awaits (Call.steps inner) b x b₁ →
      ∃ x' b₁', Awaits (Call.steps inner') b' x' b₁' ∧
        Follows poll poll' again R (next x b₁) (next' x' b₁')) :
    Follows poll poll' again R (poll (hold b)) (poll' (hold' b')) := by
  intro o w hfrom
  obtain ⟨x, b₁, hawait, hfrom⟩ := h.awaits_iff.mp (awaitsFrom_call.mp hfrom)
  obtain ⟨x', b₁', hawait', hfollows⟩ := hinner x b₁ hawait
  obtain ⟨w', hfrom', hnext⟩ := hfollows hfrom
  exact ⟨w', awaitsFrom_call.mpr (h'.awaits_iff.mpr ⟨x', b₁', hawait', hfrom'⟩), hnext⟩

end Follows

end HttpBody.Support
