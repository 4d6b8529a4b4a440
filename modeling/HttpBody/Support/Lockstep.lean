import HttpBody.Support.Machine

/-!
# Lockstep

Two poll functions run in lockstep when every call polls the same leaves, gives
the same answer and leaves related states, or stops for the same reason.
-/

namespace HttpBody.Support

universe u

variable {σ τ α β : Type u}

/-- Two calls with the same trace and the same answer, leaving states related
by `R`. -/
inductive Call.Related (R : σ → τ → Prop) :
    Call (α × σ) → Call (α × τ) → Prop where
  | returns {s u} (t : List Event) (r : α) :
      R s u → Call.Related R ⟨t, .ok (r, s)⟩ ⟨t, .ok (r, u)⟩
  | stops (t : List Event) (e : Stop) :
      Call.Related R ⟨t, .error e⟩ ⟨t, .error e⟩

namespace Call.Related

variable {R S : σ → τ → Prop}

theorem of_eq {c : Call (α × σ)} {d : Call (α × τ)} {t : List Event} {r : α} {s : σ}
    {u : τ} (hc : c = ⟨t, .ok (r, s)⟩) (hd : d = ⟨t, .ok (r, u)⟩) (h : R s u) :
    Call.Related R c d :=
  hc ▸ hd ▸ .returns t r h

theorem of_stops {c : Call (α × σ)} {d : Call (α × τ)} {t : List Event} {e : Stop}
    (hc : c = ⟨t, .error e⟩) (hd : d = ⟨t, .error e⟩) : Call.Related R c d :=
  hc ▸ hd ▸ .stops t e

theorem after {c : Call (α × σ)} {d : Call (α × τ)} (t : List Event)
    (h : Call.Related R c d) : Call.Related R (c.after t) (d.after t) := by
  cases h with
  | returns t' r hR => exact .returns (t ++ t') r hR
  | stops t' e => exact .stops (t ++ t') e

theorem pure (r : α) {s : σ} {u : τ} (h : R s u) :
    Call.Related R (Pure.pure (r, s)) (Pure.pure (r, u)) :=
  .returns [] r h

end Call.Related

/-- The answers of `n` calls, each with what `look` shows of the state after
it. -/
def observations (poll : σ → Call (α × σ)) (look : σ → β) :
    ℕ → σ → Call (List (α × β))
  | 0, _ => pure []
  | n + 1, s => do
      let (r, s') ← poll s
      let rest ← observations poll look n s'
      return (r, look s') :: rest

/-- `R` is kept by every pair of calls, and `look` does not tell related states
apart. -/
structure Lockstep (f : σ → Call (α × σ)) (g : τ → Call (α × τ))
    (look : σ → β) (look' : τ → β) (R : σ → τ → Prop) : Prop where
  call {s u} : R s u → Call.Related R (f s) (g u)
  look {s u} : R s u → look s = look' u

/-- Machines in lockstep cannot be told apart by any number of calls. -/
theorem Lockstep.observations_eq {f : σ → Call (α × σ)} {g : τ → Call (α × τ)}
    {look : σ → β} {look' : τ → β} {R : σ → τ → Prop}
    (h : Lockstep f g look look' R) {s : σ} {u : τ} (hR : R s u) (n : ℕ) :
    observations f look n s = observations g look' n u := by
  induction n generalizing s u with
  | zero => rfl
  | succ n ih =>
      have hcall := h.call hR
      simp only [observations]
      generalize f s = c at hcall
      generalize g u = d at hcall
      cases hcall with
      | stops t e => rfl
      | returns t r hnext =>
          simp only [Call.mk_ok_bind, ih hnext, h.look hnext]

/-! ## Up to a last answer -/

/-- The first calls of a machine, at most `n` and none after one that stopped or
gave a last answer: the leaves that each polled, and its answer. -/
def callsUntil (last : α → Bool) (poll : σ → Call (α × σ)) :
    ℕ → σ → List (List Event × Except Stop α)
  | 0, _ => []
  | n + 1, s =>
      match poll s with
      | ⟨t, .error e⟩ => [(t, .error e)]
      | ⟨t, .ok (r, s')⟩ =>
          (t, .ok r) :: if last r then [] else callsUntil last poll n s'

section CallsUntil

variable {last : α → Bool} {poll : σ → Call (α × σ)} {s s' : σ} {t : List Event} {r : α}

theorem callsUntil_stops {e : Stop} (h : poll s = ⟨t, .error e⟩) (n : ℕ) :
    callsUntil last poll (n + 1) s = [(t, .error e)] := by
  simp only [callsUntil, h]

theorem callsUntil_last (h : poll s = ⟨t, .ok (r, s')⟩) (hlast : last r = true) (n : ℕ) :
    callsUntil last poll (n + 1) s = [(t, .ok r)] := by
  simp only [callsUntil, h, hlast, if_true]

theorem callsUntil_next (h : poll s = ⟨t, .ok (r, s')⟩) (hlast : last r = false) (n : ℕ) :
    callsUntil last poll (n + 1) s = (t, .ok r) :: callsUntil last poll n s' := by
  simp only [callsUntil, h, hlast, Bool.false_eq_true, if_false]

variable (last) in
/-- A call that first polls `t` and then goes on as the call of another state. -/
theorem callsUntil_after (h : poll s = (poll s').after t) (n : ℕ) :
    ∃ v rest, callsUntil last poll (n + 1) s' = ((poll s').trace, v) :: rest ∧
      callsUntil last poll (n + 1) s = (t ++ (poll s').trace, v) :: rest := by
  rcases hpoll : poll s' with ⟨u, e | ⟨r, s''⟩⟩
  · rw [hpoll] at h
    exact ⟨_, _, callsUntil_stops hpoll n, callsUntil_stops h n⟩
  · rw [hpoll] at h
    by_cases hlast : last r = true
    · exact ⟨_, _, callsUntil_last hpoll hlast n, callsUntil_last h hlast n⟩
    · have hgoes : last r = false := Bool.not_eq_true _ ▸ hlast
      exact ⟨_, _, callsUntil_next hpoll hgoes n, callsUntil_next h hgoes n⟩

end CallsUntil

/-- Two calls with the same trace and the same answer, leaving states related
by `R` unless the answer is a last one. -/
inductive Call.RelatedUntil (last : α → Bool) (R : σ → τ → Prop) :
    Call (α × σ) → Call (α × τ) → Prop where
  | returns {s u} (t : List Event) (r : α) : (last r = false → R s u) →
      Call.RelatedUntil last R ⟨t, .ok (r, s)⟩ ⟨t, .ok (r, u)⟩
  | stops (t : List Event) (e : Stop) :
      Call.RelatedUntil last R ⟨t, .error e⟩ ⟨t, .error e⟩

namespace Call.RelatedUntil

variable {last : α → Bool} {R : σ → τ → Prop}

theorem after {c : Call (α × σ)} {d : Call (α × τ)} (t : List Event)
    (h : Call.RelatedUntil last R c d) : Call.RelatedUntil last R (c.after t) (d.after t) := by
  cases h with
  | returns t' r hR => exact .returns (t ++ t') r hR
  | stops t' e => exact .stops (t ++ t') e

theorem ofStops {c : Call (α × σ)} {d : Call (α × τ)} {t : List Event} {e : Stop}
    (hc : c = ⟨t, .error e⟩) (hd : d = ⟨t, .error e⟩) : Call.RelatedUntil last R c d :=
  hc ▸ hd ▸ .stops t e

theorem ofLast {c : Call (α × σ)} {d : Call (α × τ)} {t : List Event} {r : α} {s : σ} {u : τ}
    (hc : c = ⟨t, .ok (r, s)⟩) (hd : d = ⟨t, .ok (r, u)⟩) (hlast : last r = true) :
    Call.RelatedUntil last R c d := by
  subst hc hd
  apply Call.RelatedUntil.returns
  intro hfalse
  cases hlast.symm.trans hfalse

theorem ofNext {c : Call (α × σ)} {d : Call (α × τ)} {t : List Event} {r : α} {s : σ} {u : τ}
    (hc : c = ⟨t, .ok (r, s)⟩) (hd : d = ⟨t, .ok (r, u)⟩) (h : R s u) :
    Call.RelatedUntil last R c d := by
  subst hc hd
  exact .returns t r fun _ => h

end Call.RelatedUntil

/-- Machines whose calls are related until a last answer make the same calls up
to it. -/
theorem callsUntil_eq {last : α → Bool} {f : σ → Call (α × σ)} {g : τ → Call (α × τ)}
    {R : σ → τ → Prop} (h : ∀ s u, R s u → Call.RelatedUntil last R (f s) (g u)) {s : σ} {u : τ}
    (hR : R s u) (n : ℕ) : callsUntil last f n s = callsUntil last g n u := by
  induction n generalizing s u with
  | zero => rfl
  | succ n ih =>
      have hcall := h s u hR
      generalize hf : f s = c at hcall
      generalize hg : g u = d at hcall
      cases hcall with
      | stops t e => rw [callsUntil_stops hf, callsUntil_stops hg]
      | returns t r hnext =>
          by_cases hlast : last r = true
          · rw [callsUntil_last hf hlast, callsUntil_last hg hlast]
          · have hgoes : last r = false := Bool.not_eq_true _ ▸ hlast
            rw [callsUntil_next hf hgoes, callsUntil_next hg hgoes, ih (hnext hgoes)]

/-! ## Calls one by one -/

/-- A call together with what `look` shows of the state that it leaves. -/
def showing (poll : σ → Call (α × σ)) (look : σ → β) (s : σ) : Call ((α × β) × σ) := do
  let (r, s') ← poll s
  return ((r, look s'), s')

/-- The first `n` calls of a machine, and none after one that stopped: the leaves
that each polled, its answer, and what `look` shows after it. -/
def calls (poll : σ → Call (α × σ)) (look : σ → β) (n : ℕ) (s : σ) :
    List (List Event × Except Stop (α × β)) :=
  callsUntil (fun _ => false) (showing poll look) n s

section Calls

variable {poll : σ → Call (α × σ)} {look : σ → β} {s s' : σ} {t : List Event} {r : α}

theorem showing_ok (h : poll s = ⟨t, .ok (r, s')⟩) :
    showing poll look s = ⟨t, .ok ((r, look s'), s')⟩ :=
  Call.bind_pure_ok h rfl

theorem showing_stops {e : Stop} (h : poll s = ⟨t, .error e⟩) :
    showing poll look s = ⟨t, .error e⟩ :=
  Call.bind_eq_error.mpr (.inl h)

theorem calls_stops {e : Stop} (h : poll s = ⟨t, .error e⟩) (n : ℕ) :
    calls poll look (n + 1) s = [(t, .error e)] :=
  callsUntil_stops (showing_stops h) n

theorem calls_next (h : poll s = ⟨t, .ok (r, s')⟩) (n : ℕ) :
    calls poll look (n + 1) s = (t, .ok (r, look s')) :: calls poll look n s' :=
  callsUntil_next (showing_ok h) rfl n

/-- A first call that polls `t` and then goes on as the call of another state. -/
theorem calls_after (h : poll s = (poll s').after t) (n : ℕ) :
    calls poll look (n + 1) s =
      (calls poll look (n + 1) s').modifyHead fun call => (t ++ call.1, call.2) := by
  rcases hpoll : poll s' with ⟨u, e | ⟨r, s''⟩⟩
  · rw [hpoll] at h
    rw [calls_stops hpoll, calls_stops h]
    rfl
  · rw [hpoll] at h
    rw [calls_next hpoll, calls_next h]
    rfl

/-- The leaves polled in the calls are polled by the machine. -/
theorem mem_trace_of_mem_calls {n : ℕ} {event : Event}
    (h : event ∈ (calls poll look n s).flatMap Prod.fst) : ∃ s, event ∈ (poll s).trace := by
  induction n generalizing s with
  | zero => cases h
  | succ n ih =>
      rcases hpoll : poll s with ⟨t, e | ⟨r, s'⟩⟩
      · rw [calls_stops hpoll, List.flatMap_singleton] at h
        exact ⟨s, hpoll ▸ h⟩
      · rw [calls_next hpoll, List.flatMap_cons] at h
        rcases List.mem_append.mp h with hfirst | hlater
        · exact ⟨s, hpoll ▸ hfirst⟩
        · exact ih hlater

end Calls

/-- Machines in lockstep make the same calls. -/
theorem Lockstep.calls_eq {f : σ → Call (α × σ)} {g : τ → Call (α × τ)}
    {look : σ → β} {look' : τ → β} {R : σ → τ → Prop}
    (h : Lockstep f g look look' R) {s : σ} {u : τ} (hR : R s u) (n : ℕ) :
    calls f look n s = calls g look' n u := by
  refine callsUntil_eq (fun s u hR => ?_) hR n
  have hcall := h.call hR
  generalize hf : f s = c at hcall
  generalize hg : g u = d at hcall
  cases hcall with
  | stops t e => exact .ofStops (showing_stops hf) (showing_stops hg)
  | returns t r hnext =>
      rw [showing_ok hf, showing_ok hg, h.look hnext]
      exact .returns t _ fun _ => hnext

end HttpBody.Support
