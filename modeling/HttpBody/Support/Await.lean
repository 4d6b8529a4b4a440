import HttpBody.Support.Machine

/-!
# Awaiting a pollable machine

`Awaits` reads a poll function the way an `await` does: the machine is called
until it is ready, and only the answer counts.  Machines that await alike
cannot be told apart by where they suspend.  The second half of the file is the
discipline under which suspending is safe: a pending answer is passed on at
once, by the leaf that was polled last.
-/

namespace HttpBody.Support

universe u v w

variable {σ : Type u} {τ : Type w} {ω : Type v}

/-- Called as long as it is pending, `s` finally answers `o` and leaves `s'`. -/
inductive Awaits (T : StepRel σ ω) : σ → ω → σ → Prop where
  | ready {s t o s'} : T s t (.ready o) s' → Awaits T s o s'
  | pending {s t s₁ o s'} :
      T s t .pending s₁ → Awaits T s₁ o s' → Awaits T s o s'

/-- A sequence of awaited answers. -/
inductive AwaitsAll (T : StepRel σ ω) : σ → List ω → σ → Prop where
  | nil (s : σ) : AwaitsAll T s [] s
  | cons {s o s₁ os s'} :
      Awaits T s o s₁ → AwaitsAll T s₁ os s' → AwaitsAll T s (o :: os) s'

/-- The answers of a run, with every `pending` erased. -/
def readies (rs : List (Poll ω)) : List ω :=
  rs.filterMap fun
    | .pending => none
    | .ready o => some o

/-- The number of times that a run was suspended. -/
def suspensions : List (Poll ω) → ℕ
  | [] => 0
  | .pending :: rs => suspensions rs + 1
  | .ready _ :: rs => suspensions rs

@[simp] theorem readies_nil : readies ([] : List (Poll ω)) = [] := rfl

@[simp] theorem readies_pending_cons (rs : List (Poll ω)) :
    readies (.pending :: rs) = readies rs := rfl

@[simp] theorem readies_ready_cons (o : ω) (rs : List (Poll ω)) :
    readies (.ready o :: rs) = o :: readies rs := rfl

@[simp] theorem readies_append (rs qs : List (Poll ω)) :
    readies (rs ++ qs) = readies rs ++ readies qs :=
  List.filterMap_append

@[simp] theorem readies_replicate_pending (n : ℕ) :
    readies (List.replicate n (.pending : Poll ω)) = [] := by
  induction n with
  | zero => rfl
  | succ n ih => rw [List.replicate_succ, readies_pending_cons, ih]

section Awaiting

variable {T : StepRel σ ω} {U : StepRel τ ω}

theorem Awaits.pendings {s s₁ s' : σ} {o : ω} {n : ℕ}
    (hrun : Runs T s (List.replicate n .pending) s₁) (h : Awaits T s₁ o s') :
    Awaits T s o s' := by
  induction n generalizing s with
  | zero =>
      obtain rfl := runs_nil_iff.mp hrun
      exact h
  | succ n ih =>
      rw [List.replicate_succ] at hrun
      obtain ⟨t, s₂, hstep, hrest⟩ := runs_cons_iff.mp hrun
      exact .pending hstep (ih hrest)

/-- A suspension changes nothing about the answer that is awaited. -/
theorem awaits_pending_iff (hT : T.Functional) {s s₁ s' : σ} {t : List Event} {o : ω}
    (hstep : T s t .pending s₁) : Awaits T s o s' ↔ Awaits T s₁ o s' := by
  constructor
  · intro h
    cases h with
    | ready hready =>
        obtain ⟨-, hr, -⟩ := hT hstep hready
        cases hr
    | pending hfirst hrest =>
        obtain ⟨-, -, rfl⟩ := hT hstep hfirst
        exact hrest
  · exact .pending hstep

/-- A machine whose calls have one outcome has one answer to be awaited. -/
theorem Awaits.unique (hT : T.Functional) {s s₁ s₂ : σ} {o₁ o₂ : ω} (h₁ : Awaits T s o₁ s₁)
    (h₂ : Awaits T s o₂ s₂) : o₁ = o₂ ∧ s₁ = s₂ := by
  induction h₁ with
  | ready hfirst =>
      cases h₂ with
      | ready hready =>
          obtain ⟨-, hr, hs⟩ := hT hfirst hready
          cases hr
          exact ⟨rfl, hs⟩
      | pending hpending _ =>
          obtain ⟨-, hr, -⟩ := hT hfirst hpending
          cases hr
  | pending hfirst _ ih => exact ih ((awaits_pending_iff hT hfirst).mp h₂)

theorem Awaits.step {s s' : σ} {o : ω} (h : Awaits T s o s') : ∃ t r s₁, T s t r s₁ := by
  cases h with
  | ready hstep => exact ⟨_, _, _, hstep⟩
  | pending hstep _ => exact ⟨_, _, _, hstep⟩

theorem Awaits.runs {s s' : σ} {o : ω} (h : Awaits T s o s') :
    ∃ n, Runs T s (List.replicate n .pending ++ [.ready o]) s' := by
  induction h with
  | ready hstep => exact ⟨0, .single hstep⟩
  | pending hstep _ ih =>
      obtain ⟨n, hn⟩ := ih
      exact ⟨n + 1, .cons hstep hn⟩

/-- All of `N` calls give answers of the form `f p`, or there is a first that cannot. -/
theorem runs_or_first {α : Type*} (T : StepRel σ ω) (f : α → Poll ω) (s : σ) (N : ℕ) :
    (∃ (ps : List α) (s' : σ), ps.length = N ∧ Runs T s (ps.map f) s') ∨
      ∃ (ps : List α) (m : ℕ) (s' : σ), N = ps.length + (m + 1) ∧ Runs T s (ps.map f) s' ∧
        ∀ p t s'', ¬ T s' t (f p) s'' := by
  induction N generalizing s with
  | zero => exact .inl ⟨[], s, rfl, .nil s⟩
  | succ N ih =>
      by_cases hnext : ∃ p t s₁, T s t (f p) s₁
      · obtain ⟨p, t, s₁, hstep⟩ := hnext
        rcases ih s₁ with ⟨ps, s', rfl, hrun⟩ | ⟨ps, m, s', rfl, hrun, hfirst⟩
        · exact .inl ⟨p :: ps, s', rfl, .cons hstep hrun⟩
        · refine .inr ⟨p :: ps, m, s', ?_, .cons hstep hrun, hfirst⟩
          rw [List.length_cons, Nat.add_right_comm]
      · refine .inr ⟨[], N, s, (Nat.zero_add _).symm, .nil s, ?_⟩
        intro p t s₁ hstep
        exact hnext ⟨p, t, s₁, hstep⟩

/-- Among `N` calls all are pending, or there is a first that cannot be. -/
theorem pendings_or_first (T : StepRel σ ω) (s : σ) (N : ℕ) :
    (∃ s', Runs T s (List.replicate N .pending) s') ∨
      ∃ n m s', N = n + (m + 1) ∧ Runs T s (List.replicate n .pending) s' ∧
        ∀ t s'', ¬ T s' t .pending s'' := by
  rcases runs_or_first T (fun _ : Unit => .pending) s N with
    ⟨ps, s', rfl, hrun⟩ | ⟨ps, m, s', hN, hrun, hfirst⟩
  · rw [List.map_const'] at hrun
    exact .inl ⟨s', hrun⟩
  · rw [List.map_const'] at hrun
    exact .inr ⟨ps.length, m, s', hN, hrun, hfirst ()⟩

/-- A machine whose calls are those of another one, up to the leaves polled, is
awaited like it. -/
theorem Awaits.map_iff {U : StepRel τ ω} (mk : σ → τ)
    (h : ∀ s r u, (∃ t, U (mk s) t r u) ↔ ∃ t s', T s t r s' ∧ u = mk s') {s : σ} {o : ω}
    {u : τ} : Awaits U (mk s) o u ↔ ∃ s', Awaits T s o s' ∧ u = mk s' := by
  constructor
  · intro hawait
    generalize hu : mk s = u₀ at hawait
    induction hawait generalizing s with
    | ready hstep =>
        subst hu
        obtain ⟨t, s', hcall, rfl⟩ := (h s _ _).mp ⟨_, hstep⟩
        exact ⟨s', .ready hcall, rfl⟩
    | pending hstep _ ih =>
        subst hu
        obtain ⟨t, s₁, hcall, rfl⟩ := (h s _ _).mp ⟨_, hstep⟩
        obtain ⟨s', hrest, rfl⟩ := ih rfl
        exact ⟨s', .pending hcall hrest, rfl⟩
  · rintro ⟨s', hawait, rfl⟩
    induction hawait with
    | ready hcall =>
        obtain ⟨t, hstep⟩ := (h _ _ _).mpr ⟨_, _, hcall, rfl⟩
        exact .ready hstep
    | pending hcall _ ih =>
        obtain ⟨t, hstep⟩ := (h _ _ _).mpr ⟨_, _, hcall, rfl⟩
        exact .pending hstep ih

theorem Awaits.of_runs {s s' : σ} {o : ω} {n : ℕ}
    (h : Runs T s (List.replicate n .pending ++ [.ready o]) s') : Awaits T s o s' := by
  obtain ⟨s₁, t, hpending, hlast⟩ := runs_snoc_iff.mp h
  exact .pendings hpending (.ready hlast)

theorem AwaitsAll.runs {s s' : σ} {os : List ω} (h : AwaitsAll T s os s') :
    ∃ rs, Runs T s rs s' ∧ readies rs = os := by
  induction h with
  | nil s => exact ⟨[], .nil s, rfl⟩
  | cons hawait _ ih =>
      obtain ⟨n, hn⟩ := hawait.runs
      obtain ⟨rs, hrs, rfl⟩ := ih
      exact ⟨_, hn.append hrs, by simp⟩

/-- Every run is a sequence of awaited answers and some last suspensions. -/
theorem Runs.awaitsAll {s s' : σ} {rs : List (Poll ω)} (h : Runs T s rs s') :
    ∃ s₁ n, AwaitsAll T s (readies rs) s₁ ∧
      Runs T s₁ (List.replicate n .pending) s' := by
  induction h with
  | nil s => exact ⟨s, 0, .nil s, .nil s⟩
  | @cons s t r s₁ rs s' hstep _ ih =>
      obtain ⟨s₂, n, hall, hrun⟩ := ih
      cases r with
      | ready o => exact ⟨s₂, n, .cons (.ready hstep) hall, hrun⟩
      | pending =>
          rw [readies_pending_cons]
          generalize readies rs = os at hall
          cases hall with
          | nil => exact ⟨s, n + 1, .nil s, .cons hstep hrun⟩
          | cons hfirst hrest => exact ⟨s₂, n, .cons (.pending hstep hfirst) hrest, hrun⟩

/-- The answers that runs can give are those that can be awaited. -/
theorem exists_runs_readies_iff {s : σ} {os : List ω} :
    (∃ rs s', Runs T s rs s' ∧ readies rs = os) ↔ ∃ s', AwaitsAll T s os s' := by
  constructor
  · rintro ⟨rs, s', hrun, rfl⟩
    obtain ⟨s₁, -, hall, -⟩ := hrun.awaitsAll
    exact ⟨s₁, hall⟩
  · rintro ⟨s', hall⟩
    obtain ⟨rs, hrun, hrs⟩ := hall.runs
    exact ⟨rs, s', hrun, hrs⟩

/-- Along `R`, every awaited answer of the first machine is one of the second.
Nothing is asked of the states left behind by an answer after which the machine
is not called again. -/
def AwaitSim (T : StepRel σ ω) (U : StepRel τ ω) (again : ω → Prop)
    (R : σ → τ → Prop) : Prop :=
  ∀ ⦃s u o s'⦄, R s u → Awaits T s o s' →
    ∃ u', Awaits U u o u' ∧ (again o → R s' u')

/-- Two machines await alike along `R`. -/
structure AwaitBisim (T : StepRel σ ω) (U : StepRel τ ω) (again : ω → Prop)
    (R : σ → τ → Prop) : Prop where
  forth : AwaitSim T U again R
  back : AwaitSim U T again fun u s => R s u

theorem AwaitBisim.of_sims {again : ω → Prop} {R : σ → τ → Prop} {R' : τ → σ → Prop}
    (hflip : ∀ s u, R s u ↔ R' u s) (hforth : AwaitSim T U again R)
    (hback : AwaitSim U T again R') : AwaitBisim T U again R := by
  refine ⟨hforth, fun u s o u' hR hawait => ?_⟩
  obtain ⟨s', hs', hnext⟩ := hback ((hflip s u).mp hR) hawait
  exact ⟨s', hs', fun hagain => (hflip s' u').mpr (hnext hagain)⟩

theorem AwaitSim.awaitsAll {again : ω → Prop} {R : σ → τ → Prop}
    (h : AwaitSim T U again R) {s s' : σ} {u : τ} {os : List ω}
    (hR : R s u) (hagain : ∀ o ∈ os.dropLast, again o)
    (hall : AwaitsAll T s os s') : ∃ u', AwaitsAll U u os u' := by
  induction hall generalizing u with
  | nil s => exact ⟨u, .nil u⟩
  | @cons s o s₁ os s' hfirst hrest ih =>
      obtain ⟨u₁, hu₁, hnext⟩ := h hR hfirst
      cases hrest with
      | nil => exact ⟨u₁, .cons hu₁ (.nil u₁)⟩
      | cons hsecond hlater =>
          have hgo : again o := hagain o (by simp)
          obtain ⟨u', hu'⟩ := ih (hnext hgo) fun p hp => hagain p (by
            simp [hp])
          exact ⟨u', .cons hu₁ hu'⟩

/-- Up to the first answer after which they are not called again, `s` and `u`
can give the same answers, wherever they suspend. -/
def SameAnswers (T : StepRel σ ω) (U : StepRel τ ω) (again : ω → Prop)
    (s : σ) (u : τ) : Prop :=
  ∀ os : List ω, (∀ o ∈ os.dropLast, again o) →
    ((∃ rs s', Runs T s rs s' ∧ readies rs = os) ↔
      ∃ rs u', Runs U u rs u' ∧ readies rs = os)

/-- Machines that await alike give the same answers. -/
theorem AwaitBisim.sameAnswers {again : ω → Prop} {R : σ → τ → Prop}
    (h : AwaitBisim T U again R) {s : σ} {u : τ} (hR : R s u) :
    SameAnswers T U again s u := by
  intro os hagain
  rw [exists_runs_readies_iff, exists_runs_readies_iff]
  constructor
  · rintro ⟨s', hs'⟩
    exact h.forth.awaitsAll hR hagain hs'
  · rintro ⟨u', hu'⟩
    exact h.back.awaitsAll hR hagain hu'

/-- The next awaited answers of `s` and `u` are related by `V`. -/
def AwaitsLike {ω' : Type*} (T : StepRel σ ω) (U : StepRel τ ω')
    (V : ω → ω' → Prop) (s : σ) (u : τ) : Prop :=
  (∀ o s', Awaits T s o s' → ∃ o' u', Awaits U u o' u' ∧ V o o') ∧
    ∀ o' u', Awaits U u o' u' → ∃ o s', Awaits T s o s' ∧ V o o'

theorem AwaitsLike.symm {ω' : Type*} {T : StepRel σ ω} {U : StepRel τ ω'}
    {V : ω → ω' → Prop} {V' : ω' → ω → Prop} (hV : ∀ o o', V o o' → V' o' o) {s : σ} {u : τ}
    (h : AwaitsLike T U V s u) : AwaitsLike U T V' u s := by
  constructor
  · intro o' u' hawait
    obtain ⟨o, s', hs, hoo⟩ := h.2 o' u' hawait
    exact ⟨o, s', hs, hV o o' hoo⟩
  · intro o s' hawait
    obtain ⟨o', u', hu, hoo⟩ := h.1 o s' hawait
    exact ⟨o', u', hu, hV o o' hoo⟩

end Awaiting

/-! ## The waking discipline -/

/-- A call is only pending if the leaf that it polled last was, and polls nothing
after a leaf was pending: so a waker is registered, and nothing is half done. -/
structure SafelySuspended {α β : Type u} (c : Call (Poll α × β)) : Prop where
  last_pending : ∀ b, c.value = .ok (.pending, b) →
    ∃ t leaf, c.trace = t ++ [⟨leaf, .pending⟩]
  nothing_after : ∀ t leaf t', c.trace = t ++ ⟨leaf, .pending⟩ :: t' → t' = []

/-- No leaf in `t` was pending. -/
def NoPending (t : List Event) : Prop :=
  ∀ e ∈ t, e.outcome ≠ .pending

/-- The same by cases on what the call gives, which is how it is proved. -/
inductive Wakeful {α β : Type u} : Call (Poll α × β) → Prop where
  | pending {t : List Event} {e : Event} {b : β} :
      NoPending t → e.outcome = .pending →
        Wakeful ⟨t ++ [e], .ok (.pending, b)⟩
  | ready {t : List Event} {a : α} {b : β} :
      NoPending t → Wakeful ⟨t, .ok (.ready a, b)⟩
  | stops {t : List Event} {s : Stop} :
      NoPending t → Wakeful ⟨t, .error s⟩

theorem NoPending.nil : NoPending [] := by
  simp [NoPending]

theorem NoPending.append {t t' : List Event} (h : NoPending t)
    (h' : NoPending t') : NoPending (t ++ t') := by
  intro e he
  rcases List.mem_append.mp he with he | he
  · exact h e he
  · exact h' e he

namespace Wakeful

variable {α β γ δ : Type u}

theorem after {t : List Event} {c : Call (Poll α × β)} (ht : NoPending t)
    (h : Wakeful c) : Wakeful (c.after t) := by
  cases h with
  | pending hpre he =>
      rw [Call.after_mk, ← List.append_assoc]
      exact .pending (ht.append hpre) he
  | ready hpre => exact .ready (ht.append hpre)
  | stops hpre => exact .stops (ht.append hpre)

/-- Passing a pending answer on at once, and going on in the discipline
otherwise, keeps the discipline. -/
theorem bind {c : Call (Poll α × β)} {f : Poll α × β → Call (Poll γ × δ)}
    (h : Wakeful c) (hpending : ∀ b, ∃ d, f (.pending, b) = pure (.pending, d))
    (hready : ∀ a b, c.value = .ok (.ready a, b) → Wakeful (f (.ready a, b))) :
    Wakeful (c >>= f) := by
  cases h with
  | @pending t e b hpre he =>
      obtain ⟨d, hd⟩ := hpending b
      rw [Call.mk_ok_bind, hd, Call.after_pure]
      exact .pending hpre he
  | ready hpre => exact (hready _ _ rfl).after hpre
  | stops hpre => exact .stops hpre

theorem pure_ready (a : α) (b : β) :
    Wakeful (pure (.ready a, b) : Call (Poll α × β)) :=
  .ready .nil

theorem error (s : Stop) : Wakeful (⟨[], .error s⟩ : Call (Poll α × β)) :=
  .stops .nil

/-- An observed leaf keeps the discipline, whatever it does. -/
theorem observe (leaf : ℕ) (last : α → Bool) (c : Call (Poll α × β)) :
    Wakeful (c.observe leaf last) := by
  rcases c with ⟨t, s | ⟨_ | a, b⟩⟩
  · exact .stops (by simp [NoPending, Outcome.of])
  · exact .pending (t := []) .nil rfl
  · exact .ready (by simp [NoPending, Outcome.of, Poll.outcome])

theorem last_pending {c : Call (Poll α × β)} (h : Wakeful c) {b : β}
    (hb : c.value = .ok (.pending, b)) :
    ∃ t leaf, c.trace = t ++ [⟨leaf, .pending⟩] := by
  cases h with
  | @pending t e b hpre he =>
      obtain ⟨leaf, outcome⟩ := e
      cases he
      exact ⟨t, leaf, rfl⟩
  | ready _ => simp at hb
  | stops _ => simp at hb

theorem nothing_after_pending {c : Call (Poll α × β)} (h : Wakeful c)
    {t t' : List Event} {leaf : ℕ} (htrace : c.trace = t ++ ⟨leaf, .pending⟩ :: t') :
    t' = [] := by
  have hmem : ∀ {u u' : List Event}, NoPending u → u ≠ t ++ ⟨leaf, .pending⟩ :: u' := by
    intro u u' hu heq
    exact hu ⟨leaf, .pending⟩ (by simp [heq]) rfl
  cases h with
  | @pending u e' b hpre _ =>
      rcases List.eq_nil_or_concat t' with rfl | ⟨t'', x, rfl⟩
      · rfl
      · have heq : u ++ [e'] = (t ++ ⟨leaf, .pending⟩ :: t'') ++ [x] := by
          simpa using htrace
        exact absurd (List.append_inj_left' heq rfl) (hmem hpre)
  | ready hpre => exact absurd htrace (hmem hpre)
  | stops hpre => exact absurd htrace (hmem hpre)

theorem safelySuspended {c : Call (Poll α × β)} (h : Wakeful c) : SafelySuspended c :=
  ⟨fun _ hb => h.last_pending hb, fun _ _ _ htrace => h.nothing_after_pending htrace⟩

end Wakeful

end HttpBody.Support
