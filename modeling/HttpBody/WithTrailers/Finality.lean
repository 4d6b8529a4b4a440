import HttpBody.Core.HeaderTable
import HttpBody.Util.Leaves
import HttpBody.Util.WithTrailers

/-!
# When a body with added trailers stays ended

The state is set to `Done` only where trailers are returned.  A body that ends
without any, from its inner body and from the future alike, keeps the resolved
future and polls it again in the next call.  That is the only way in which the
end is not final.
-/

namespace HttpBody

open Support

namespace WithTrailers

variable [Foreign] {T F D E : Type}

/-- A result with which the body has ended, other than an error. -/
def Over (rs : List (PollFrame D E)) : Prop :=
  ∃ x, .ready x ∈ rs ∧ x.isTerminal = true

/-- Only `Ready(None)` follows the first answer that ends the body. -/
def OnlyEndAfterEnd (rs : List (PollFrame D E)) : Prop :=
  ∀ pre x post, rs = pre ++ .ready x :: post → x.isTerminal = true →
    ∀ r ∈ post, r = .ready none

theorem not_over_of_inProgress {rs : List (PollFrame D E)}
    (h : ∀ r ∈ rs, Item.InProgress r) : ¬Over rs := by
  rintro ⟨x, hx, hterm⟩
  cases h _ hx
  simp [Item.isTerminal] at hterm

theorem onlyEndAfterEnd_of_inProgress {rs : List (PollFrame D E)}
    (h : ∀ r ∈ rs, Item.InProgress r) : OnlyEndAfterEnd rs := by
  rintro pre x post rfl hterm
  exact (not_over_of_inProgress h ⟨x, by simp, hterm⟩).elim

theorem onlyEndAfterEnd_snoc {rs : List (PollFrame D E)} {r : PollFrame D E}
    (hrs : OnlyEndAfterEnd rs) (hr : r = .ready none ∨ ¬Over rs) :
    OnlyEndAfterEnd (rs ++ [r]) := by
  intro pre x post heq hterm
  rcases List.eq_nil_or_concat post with rfl | ⟨post, y, rfl⟩
  · simp
  · have heq' : rs ++ [r] = (pre ++ .ready x :: post) ++ [y] := by
      simpa using heq
    obtain ⟨rfl, hy⟩ := List.append_inj' heq' rfl
    obtain rfl : r = y := by simpa using hy
    rcases hr with rfl | hr
    · intro q hq
      rcases List.mem_append.mp (List.concat_eq_append ▸ hq) with hq | hq
      · exact hrs pre x post rfl hterm q hq
      · simpa using hq
    · exact (hr ⟨x, by simp, hterm⟩).elim

variable [Body T D E] [Future F (Option (Except E HeaderMap))]

/-- The body stays ended in every run without errors, and no run polls the
trailers future again once it has resolved.  The inner body and the future are
observed under the names `0` and `1`. -/
def StaysEnded (b : T) (f : F) : Prop :=
  ∀ ⦃t rs⦄ ⦃w : WithTrailers (Probe T) (Probe F)⦄,
    TracedRuns Body.Steps (new ⟨0, b⟩ ⟨1, f⟩) t rs w →
    (∀ e : E, .ready (.error e) ∉ rs) →
      OnlyEndAfterEnd rs ∧ NotRepolled 1 (t ++ (Body.pollFrame w).trace) ∧
      (Over rs → ∃ u w', Body.pollFrame w = ⟨u, .ok (.ready none, w')⟩)

/-- The inner body ends without trailers and the future resolves to none. -/
def BareEnd (b : T) (f : F) : Prop :=
  (∃ rs, Body.EndsWith b rs none) ∧ ∃ f', Awaits Future.Steps f none f'

/-! ## How far a run has come -/

/-- The runs without errors, unless the end is bare. -/
inductive Progress (b : T) (f : F) : List Event → List (PollFrame D E) →
    WithTrailers (Probe T) (Probe F) → Prop where
  | body {t rs b'} : Runs Body.Steps b rs b' → (∀ r ∈ rs, Item.InProgress r) →
      (∀ e ∈ t, e.leaf = 0) → Progress b f t rs (.pollBody ⟨0, b'⟩ (some ⟨1, f⟩))
  | trailers {t rs f' prev n} : (prev = none → ∃ qs, Body.EndsWith b qs none) →
      Runs Future.Steps f (List.replicate n .pending) f' →
      (∀ r ∈ rs, Item.InProgress r) → ⟨1, .ready true⟩ ∉ t →
      Progress b f t rs (.pollTrailers ⟨1, f'⟩ prev)
  | done {t rs} : OnlyEndAfterEnd rs → NotRepolled 1 t → Progress b f t rs .done

theorem Progress.trailersStep {b : T} {f f' : F} {prev : Option HeaderMap}
    {t u : List Event} {rs : List (PollFrame D E)} {r : PollFrame D E}
    {w : WithTrailers (Probe T) (Probe F)} {n : ℕ} (hbare : ¬BareEnd b f)
    (hprev : prev = none → ∃ qs, Body.EndsWith b qs none)
    (hrun : Runs Future.Steps f (List.replicate n .pending) f')
    (hrs : ∀ r ∈ rs, Item.InProgress r) (ht : ⟨1, .ready true⟩ ∉ t)
    (hstep : Step (.pollTrailers ⟨1, f'⟩ prev) u r w) (hr : ∀ e, r ≠ .ready (.error e)) :
    Progress b f (t ++ u) (rs ++ [r]) w := by
  cases hstep with
  | futurePending hstep =>
      obtain ⟨v, f'', hv, rfl, rfl⟩ := Probe.future_step_cases hstep
      refine .trailers (n := n + 1) hprev ?_ ?_ ?_
      · rw [List.replicate_succ', runs_snoc_iff]
        exact ⟨f', v, hrun, hv⟩
      · simpa [or_imp, forall_and] using ⟨hrs, Item.InProgress.pending⟩
      · simp [ht, Poll.outcome]
  | @futureReady _ _ _ x _ hstep =>
      obtain ⟨v, f'', hv, rfl, rfl⟩ := Probe.future_step_cases hstep
      have hawait : Awaits Future.Steps f x f'' := .pendings hrun (.ready hv)
      have hend : ∀ r, OnlyEndAfterEnd (rs ++ [r]) := fun _ =>
        onlyEndAfterEnd_snoc (onlyEndAfterEnd_of_inProgress hrs)
          (.inr (not_over_of_inProgress hrs))
      have hpoll : NotRepolled 1 (t ++ [⟨1, .ready true⟩]) := .snoc ht _
      rcases x with _ | (err | map)
      · rcases prev with _ | prev
        · exact (hbare ⟨hprev rfl, f'', hawait⟩).elim
        · exact .done (hend _) hpoll
      · exact (hr err rfl).elim
      · cases prev <;> exact .done (hend _) hpoll

theorem Progress.step {b : T} {f : F} {t u : List Event} {rs : List (PollFrame D E)}
    {r : PollFrame D E} {w w' : WithTrailers (Probe T) (Probe F)}
    (hbare : ¬BareEnd b f) (h : Progress b f t rs w) (hstep : Body.Steps w u r w')
    (hr : ∀ e, r ≠ .ready (.error e)) : Progress b f (t ++ u) (rs ++ [r]) w' := by
  cases h with
  | body hrun hrs ht =>
      replace hstep := step_of_steps (by trivial) hstep
      cases hstep with
      | bodyPending hstep =>
          obtain ⟨v, b'', hv, rfl, rfl⟩ := Probe.step_cases hstep
          refine .body (hrun.append (.single hv)) ?_ ?_
          · simpa [or_imp, forall_and] using ⟨hrs, Item.InProgress.pending⟩
          · simpa [or_imp, forall_and, Item.event] using ht
      | @bodyData _ _ _ d _ hstep =>
          obtain ⟨v, b'', hv, rfl, rfl⟩ := Probe.step_cases hstep
          refine .body (hrun.append (.single hv)) ?_ ?_
          · simpa [or_imp, forall_and] using ⟨hrs, Item.InProgress.data d⟩
          · simpa [or_imp, forall_and, Item.event] using ht
      | @bodyError _ _ _ e _ _ => exact (hr e rfl).elim
      | bodyEnds hstep hends hnext =>
          obtain ⟨v, b'', hv, rfl, rfl⟩ := Probe.step_cases hstep
          rw [← List.append_assoc]
          refine trailersStep (n := 0) hbare ?_ (.nil f) hrs ?_ hnext hr
          · rintro rfl
            exact ⟨_, rs, _, b'', rfl, hrs, hends, hrun.append (.single hv)⟩
          · intro hmem
            rcases List.mem_append.mp hmem with hmem | hmem
            · exact absurd (ht _ hmem) (by decide)
            · simp [Item.event] at hmem
  | trailers hprev hrun hrs ht =>
      exact trailersStep hbare hprev hrun hrs ht (step_of_steps (by trivial) hstep) hr
  | done hend hpoll =>
      cases step_of_steps (by trivial) hstep
      rw [List.append_nil]
      exact .done (onlyEndAfterEnd_snoc hend (.inl rfl)) hpoll

theorem Progress.of_runs {b : T} {f : F} {t : List Event} {rs : List (PollFrame D E)}
    {w : WithTrailers (Probe T) (Probe F)} (hbare : ¬BareEnd b f)
    (h : TracedRuns Body.Steps (new ⟨0, b⟩ ⟨1, f⟩) t rs w)
    (herr : ∀ e : E, .ready (.error e) ∉ rs) : Progress b f t rs w := by
  refine h.invariant
    (I := fun t rs w => (∀ e : E, .ready (.error e) ∉ rs) → Progress b f t rs w)
    (fun _ => .body (.nil b) (by simp) (by simp)) ?_ herr
  intro t rs w u r w' hI hstep herr
  refine Progress.step hbare (hI fun e he => herr e (by simp [he])) hstep ?_
  rintro e rfl
  exact herr e (by simp)

/-! ## The next call -/

theorem trace_pollTrailers (f : F) (prev : Option HeaderMap) :
    ∃ o, (Body.pollFrame (.pollTrailers ⟨1, f⟩ prev :
      WithTrailers (Probe T) (Probe F))).trace = [⟨1, o⟩] := by
  obtain ⟨o, v, hpoll⟩ : ∃ o v, Future.poll (⟨1, f⟩ : Probe F) = ⟨[⟨1, o⟩], v⟩ :=
    ⟨_, _, rfl⟩
  refine ⟨o, ?_⟩
  change (pollFrame _).trace = _
  rw [pollFrame, pollTrailersArm, hpoll]
  rcases v with s | ⟨_ | x, f'⟩ <;> rfl

theorem trace_pollBody (b : T) (f : F) :
    ∃ o, (Body.pollFrame (.pollBody ⟨0, b⟩ (some ⟨1, f⟩) :
        WithTrailers (Probe T) (Probe F))).trace = [⟨0, o⟩] ∨
      ∃ o', (Body.pollFrame (.pollBody ⟨0, b⟩ (some ⟨1, f⟩) :
        WithTrailers (Probe T) (Probe F))).trace = [⟨0, o⟩, ⟨1, o'⟩] := by
  obtain ⟨o, v, hpoll⟩ : ∃ o v, Body.pollFrame (⟨0, b⟩ : Probe T) = ⟨[⟨0, o⟩], v⟩ :=
    ⟨_, _, rfl⟩
  have henter : ∀ prev, ∃ o', (pollTrailersArm (⟨1, f⟩ : Probe F) prev :
      Call (PollFrame D E × WithTrailers (Probe T) (Probe F))).trace = [⟨1, o'⟩] :=
    fun prev => trace_pollTrailers f prev
  refine ⟨o, ?_⟩
  change (pollFrame _).trace = _ ∨ ∃ o', (pollFrame _).trace = _
  rw [pollFrame, hpoll]
  rcases v with s | ⟨_ | (_ | (err | (d | map))), b'⟩
  · exact .inl rfl
  · exact .inl rfl
  · obtain ⟨o', ho'⟩ := henter none
    exact .inr ⟨o', (congrArg (List.cons ⟨0, o⟩) ho' :)⟩
  · exact .inl rfl
  · exact .inl rfl
  · obtain ⟨o', ho'⟩ := henter (some map)
    exact .inr ⟨o', (congrArg (List.cons ⟨0, o⟩) ho' :)⟩

theorem Progress.next {b : T} {f : F} {t : List Event} {rs : List (PollFrame D E)}
    {w : WithTrailers (Probe T) (Probe F)} (h : Progress b f t rs w) :
    OnlyEndAfterEnd rs ∧ NotRepolled 1 (t ++ (Body.pollFrame w).trace) ∧
      (Over rs → ∃ u w', Body.pollFrame w = ⟨u, .ok (.ready none, w')⟩) := by
  cases h with
  | @body b' _ hrs ht =>
      have hlast : (⟨1, .ready true⟩ : Event) ∉ t := fun hmem =>
        absurd (ht _ hmem) (by decide)
      refine ⟨onlyEndAfterEnd_of_inProgress hrs, ?_,
        fun hover => (not_over_of_inProgress hrs hover).elim⟩
      obtain ⟨o, htrace | ⟨o', htrace⟩⟩ := trace_pollBody b' f
      · rw [htrace]
        exact .snoc hlast _
      · rw [htrace, List.append_cons]
        exact .snoc (by simp [hlast]) _
  | @trailers f' prev _ _ _ hrs ht =>
      obtain ⟨o, htrace⟩ := trace_pollTrailers (T := T) f' prev
      refine ⟨onlyEndAfterEnd_of_inProgress hrs, ?_,
        fun hover => (not_over_of_inProgress hrs hover).elim⟩
      rw [htrace]
      exact .snoc ht _
  | done hend hpoll =>
      refine ⟨hend, ?_, fun _ => ⟨[], .done, rfl⟩⟩
      exact (List.append_nil t).symm ▸ hpoll

/-! ## The bare end -/

theorem inProgress_run {b b' : T} (f : F) {rs : List (PollFrame D E)}
    (h : Runs Body.Steps b rs b') (hrs : ∀ r ∈ rs, Item.InProgress r) :
    ∃ t, TracedRuns Body.Steps (.pollBody ⟨0, b⟩ (some ⟨1, f⟩)) t rs
      (.pollBody ⟨0, b'⟩ (some ⟨1, f⟩) : WithTrailers (Probe T) (Probe F)) := by
  induction h with
  | nil b => exact ⟨[], .nil _⟩
  | @cons b u r b₁ rs b' hstep _ ih =>
      obtain ⟨t, ht⟩ := ih fun q hq => hrs q (by simp [hq])
      cases hrs r (by simp) with
      | pending => exact ⟨_, .cons (steps_of_step (.bodyPending (Probe.step 0 hstep))) ht⟩
      | data d => exact ⟨_, .cons (steps_of_step (.bodyData (Probe.step 0 hstep))) ht⟩

theorem await_run {f f' : F} {x : Option (Except E HeaderMap)}
    (h : Awaits Future.Steps f x f') (hx : x = none) :
    ∃ t r rs, TracedRuns Body.Steps (.pollTrailers ⟨1, f⟩ none) t (r :: rs)
        (.pollTrailers ⟨1, f'⟩ none : WithTrailers (Probe T) (Probe F)) ∧
      ⟨1, .ready true⟩ ∈ t ∧ ∀ e : E, .ready (.error e) ∉ r :: rs := by
  induction h with
  | ready hstep =>
      have hcall : Body.Steps (.pollTrailers _ none : WithTrailers (Probe T) (Probe F))
        _ _ _ := steps_of_step (.futureReady (Probe.future_step 1 hstep))
      subst hx
      exact ⟨_, _, [], .cons hcall (.nil _), by simp [Poll.outcome], by simp [resolved]⟩
  | pending hstep _ ih =>
      obtain ⟨t, r, rs, hrun, hlast, herr⟩ := ih hx
      have hcall : Body.Steps (.pollTrailers _ none : WithTrailers (Probe T) (Probe F))
        _ _ _ := steps_of_step (.futurePending (Probe.future_step 1 hstep))
      refine ⟨_, .pending, r :: rs, .cons hcall hrun, by simp [hlast], fun e => ?_⟩
      simpa using herr e

theorem not_staysEnded_of_bareEnd {b : T} {f : F} (h : BareEnd b f) :
    ¬StaysEnded b f := by
  intro hstays
  obtain ⟨⟨_, pre, x, b', rfl, hpre, hends, hrun⟩, f', hawait⟩ := h
  obtain ⟨b₁, v, hbefore, hlast⟩ := runs_snoc_iff.mp hrun
  obtain ⟨t, ht⟩ := inProgress_run f hbefore hpre
  obtain ⟨u, r, rs, hu, hresolved, herr⟩ := await_run (T := T) hawait rfl
  cases hu with
  | @cons _ u₁ _ w u₂ _ _ hcall hrest =>
      have henter : Body.Steps (.pollBody ⟨0, b₁⟩ (some ⟨1, f⟩))
          ([Item.event 0 (.ready x)] ++ u₁) r w :=
        steps_of_step (.bodyEnds (Probe.step 0 hlast) hends (step_of_steps (by trivial) hcall))
      have hall := ht.append (.cons henter hrest)
      obtain ⟨-, hpoll, -⟩ := hstays hall fun e he => by
        rcases List.mem_append.mp he with he | he
        · cases hpre _ he
        · exact herr e he
      obtain ⟨o, htrace⟩ := trace_pollTrailers (T := T) f' none
      rw [htrace] at hpoll
      refine (NotRepolled.append_iff.mp hpoll).2.2 ?_ ⟨1, o⟩ (by simp) rfl
      simp only [List.mem_append, List.append_assoc] at hresolved ⊢
      exact .inr (.inr hresolved)

/-- A body with added trailers stays ended, in every run without errors, if
and only if its end is not bare. -/
theorem staysEnded_iff (b : T) (f : F) : StaysEnded b f ↔ ¬BareEnd b f := by
  constructor
  · intro hstays hbare
    exact not_staysEnded_of_bareEnd hbare hstays
  · intro hbare t rs w hrun herr
    exact (Progress.of_runs hbare hrun herr).next

end WithTrailers

/-! ## A future that is ready at once -/

namespace WithTrailers

/-- An empty body, whose end is final, with a future that is ready and yields no
trailers: the second call panics. -/
theorem not_staysEnded_empty :
    Body.Ended (Empty.new Bytes) ∧
      ¬StaysEnded (Empty.new Bytes)
        (⟨some none⟩ : Ready (Option (Except Infallible HeaderMap))) := by
  constructor
  · exact Stays.of_fixed (t := []) trivial rfl
  · intro hstays
    have hrun : TracedRuns Body.Steps
        (new (⟨0, Empty.new Bytes⟩ : Probe (Empty Bytes))
          (⟨1, ⟨some none⟩⟩ : Probe (Ready (Option (Except Infallible HeaderMap)))))
        [⟨0, .ready true⟩, ⟨1, .ready true⟩] [.ready none]
        (.pollTrailers ⟨1, ⟨none⟩⟩ none) :=
      .cons (t := [⟨0, .ready true⟩, ⟨1, .ready true⟩]) rfl (.nil _)
    obtain ⟨-, -, hnext⟩ := hstays hrun (by simp)
    obtain ⟨u, w', hcall⟩ := hnext ⟨none, by simp, rfl⟩
    cases congrArg Call.value hcall

end WithTrailers

end HttpBody
