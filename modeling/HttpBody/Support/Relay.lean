import HttpBody.Support.Lockstep
import HttpBody.Support.Passing

/-!
# Relays

A relay polls one inner machine in every call and hands each answer on, changed
by a function with a state of its own; a pending answer is handed on as it is.
Most wrappers are relays, and what is proved here holds of all of them.
-/

namespace HttpBody.Support

universe u

variable {σ ω ω' S W : Type u}

/-- One call of a relay with inner state `b` and own state `s`, packed by `mk`. -/
def relay (poll : σ → Call (Poll ω × σ)) (mk : S → σ → W)
    (f : S → ω → ω' × S) (s : S) (b : σ) : Call (Poll ω' × W) := do
  let (r, b) ← poll b
  match r with
  | .pending => return (.pending, mk s b)
  | .ready r => return (.ready (f s r).1, mk (f s r).2 b)

/-- The answers of a relay to the answers of its inner machine, and the state
of its own that they leave. -/
def relayRun (f : S → ω → ω' × S) : S → List (Poll ω) → List (Poll ω') × S
  | s, [] => ([], s)
  | s, .pending :: rs => (.pending :: (relayRun f s rs).1, (relayRun f s rs).2)
  | s, .ready r :: rs =>
      (.ready (f s r).1 :: (relayRun f (f s r).2 rs).1, (relayRun f (f s r).2 rs).2)

theorem relayRun_append (f : S → ω → ω' × S) (s : S) (rs qs : List (Poll ω)) :
    relayRun f s (rs ++ qs) =
      ((relayRun f s rs).1 ++ (relayRun f (relayRun f s rs).2 qs).1,
        (relayRun f (relayRun f s rs).2 qs).2) := by
  induction rs generalizing s with
  | nil => rfl
  | cons r rs ih => cases r <;> simp [relayRun, ih]

@[simp] theorem relayRun_length (f : S → ω → ω' × S) (s : S) (rs : List (Poll ω)) :
    (relayRun f s rs).1.length = rs.length := by
  induction rs generalizing s with
  | nil => rfl
  | cons r rs ih => cases r <;> simp [relayRun, ih]

/-- What of each answer does not show the relay is the same in a whole run. -/
theorem relayRun_map {β : Type*} {f : S → ω → ω' × S} {g : Poll ω' → β} {g' : Poll ω → β}
    (hpending : g .pending = g' .pending)
    (hready : ∀ s o, g (.ready (f s o).1) = g' (.ready o)) (s : S) (rs : List (Poll ω)) :
    (relayRun f s rs).1.map g = rs.map g' := by
  induction rs generalizing s with
  | nil => rfl
  | cons r rs ih =>
      cases r with
      | pending => rw [relayRun, List.map_cons, List.map_cons, hpending, ih]
      | ready o => rw [relayRun, List.map_cons, List.map_cons, hready, ih]

/-- The answer of a relay to `r` depends on its state before `r`. -/
theorem relayRun_getElem? (f : S → ω → ω' × S) (s : S) (pre : List (Poll ω))
    (r : Poll ω) (post : List (Poll ω)) :
    (relayRun f s (pre ++ r :: post)).1[pre.length]? =
      (relayRun f (relayRun f s pre).2 [r]).1.head? := by
  rw [relayRun_append, ← relayRun_length f s pre, List.getElem?_append_right (Nat.le_refl _),
    Nat.sub_self]
  cases r <;> rfl

/-- `outer` calls `inner` as a relay does. -/
def Relays (inner : σ → Call (Poll ω × σ)) (outer : W → Call (Poll ω' × W))
    (mk : S → σ → W) (f : S → ω → ω' × S) : Prop :=
  ∀ s b, outer (mk s b) = relay inner mk f s b

namespace Relays

variable {inner : σ → Call (Poll ω × σ)} {outer : W → Call (Poll ω' × W)}
  {mk : S → σ → W} {f : S → ω → ω' × S}

/-- A relay passes a pending answer on and is ready otherwise. -/
theorem passes (h : Relays inner outer mk f) (s : S) :
    Passes inner outer (mk s) fun o b => pure (.ready (f s o).1, mk (f s o).2 b) := by
  intro b
  exact (h s b).trans rfl

theorem of_passes (h : ∀ s, Passes inner outer (mk s) fun o b =>
    pure (.ready (f s o).1, mk (f s o).2 b)) : Relays inner outer mk f := by
  intro s b
  exact (h s b).trans rfl

theorem step_cases (h : Relays inner outer mk f) {s : S} {b : σ}
    {t : List Event} {r' : Poll ω'} {w : W}
    (hstep : Call.steps outer (mk s b) t r' w) :
    (∃ b', Call.steps inner b t .pending b' ∧ r' = .pending ∧ w = mk s b') ∨
      ∃ r b', Call.steps inner b t (.ready r) b' ∧
        r' = .ready (f s r).1 ∧ w = mk (f s r).2 b' := by
  rcases (h.passes s).step_cases hstep with hpending | ⟨t₁, r, b', t₂, hpoll, hnext, rfl⟩
  · exact .inl hpending
  · obtain ⟨rfl, heq⟩ := Call.pure_eq_ok.mp hnext
    rw [Prod.mk.injEq] at heq
    rw [List.append_nil]
    exact .inr ⟨r, b', hpoll, heq.1.symm, heq.2.symm⟩

theorem step_ready (h : Relays inner outer mk f) {s : S} {b b' : σ}
    {t : List Event} {r : ω} (hstep : Call.steps inner b t (.ready r) b') :
    Call.steps outer (mk s b) t (.ready (f s r).1) (mk (f s r).2 b') := by
  have hout := (h.passes s).step_ready hstep rfl
  rwa [List.append_nil] at hout

/-- A relay only stops where its inner machine does. -/
theorem stop (h : Relays inner outer mk f) {s : S} {b : σ} {t : List Event}
    {e : Stop} (hstop : outer (mk s b) = ⟨t, .error e⟩) :
    inner b = ⟨t, .error e⟩ := by
  rw [h s b, relay, Call.bind_eq_error] at hstop
  rcases hstop with hstop | ⟨t₁, ⟨r, b'⟩, t₂, -, hrest, -⟩
  · exact hstop
  · cases r <;> simp [Call.pure_def] at hrest

/-- The runs of a relay are the runs of its inner machine, seen through `f`. -/
theorem runs (h : Relays inner outer mk f) {s : S} {b : σ}
    {qs : List (Poll ω')} {w : W} (hrun : Runs (Call.steps outer) (mk s b) qs w) :
    ∃ rs b', Runs (Call.steps inner) b rs b' ∧ qs = (relayRun f s rs).1 ∧
      w = mk (relayRun f s rs).2 b' := by
  induction qs generalizing s b with
  | nil =>
      obtain rfl := runs_nil_iff.mp hrun
      exact ⟨[], b, .nil b, rfl, rfl⟩
  | cons q qs ih =>
      obtain ⟨t, w₁, hstep, hrest⟩ := runs_cons_iff.mp hrun
      rcases h.step_cases hstep with ⟨b₁, hb₁, rfl, rfl⟩ | ⟨r, b₁, hb₁, rfl, rfl⟩
      · obtain ⟨rs, b', hrs, rfl, rfl⟩ := ih hrest
        exact ⟨.pending :: rs, b', .cons hb₁ hrs, rfl, rfl⟩
      · obtain ⟨rs, b', hrs, rfl, rfl⟩ := ih hrest
        exact ⟨.ready r :: rs, b', .cons hb₁ hrs, rfl, rfl⟩

theorem runs_iff (h : Relays inner outer mk f) {s : S} {b : σ} {qs : List (Poll ω')} {w : W} :
    Runs (Call.steps outer) (mk s b) qs w ↔
      ∃ rs b', Runs (Call.steps inner) b rs b' ∧ qs = (relayRun f s rs).1 ∧
        w = mk (relayRun f s rs).2 b' := by
  refine ⟨h.runs, ?_⟩
  rintro ⟨rs, b', hrun, rfl, rfl⟩
  induction hrun generalizing s with
  | nil b => exact .nil _
  | @cons b t r b₁ rs b' hstep _ ih =>
      cases r with
      | pending => exact .cons ((h.passes s).step_pending hstep) ih
      | ready o => exact .cons (h.step_ready hstep) ih

/-- Every state that a relay reaches holds a reachable state of its inner
machine. -/
theorem always (h : Relays inner outer mk f) {P : σ → Prop} {Q : W → Prop}
    {s : S} {b : σ} (hP : Always (Call.steps inner) P b)
    (himp : ∀ s b, Always (Call.steps inner) P b → Q (mk s b)) :
    Always (Call.steps outer) Q (mk s b) := by
  intro qs w hrun
  obtain ⟨rs, b', hrs, -, rfl⟩ := h.runs hrun
  exact himp _ _ (hP.runs hrs)

/-- A relay stays at an answer that it hands on unchanged. -/
theorem stays (h : Relays inner outer mk f) {P : σ → Prop} {Q : W → Prop}
    {o : ω} {o' : ω'} (ho : ∀ s, f s o = (o', s)) (hQ : ∀ s b, P b → Q (mk s b))
    {s : S} {b : σ} (hstays : Stays (Call.steps inner) (.ready o) P b) :
    Stays (Call.steps outer) (.ready o') Q (mk s b) := by
  refine Stays.of_invariant
    (fun w => ∃ s b, w = mk s b ∧ Stays (Call.steps inner) (.ready o) P b)
    ⟨s, b, rfl, hstays⟩ ?_
  rintro w ⟨s, b, rfl, hb⟩
  refine ⟨hQ s b hb.here, ?_⟩
  obtain ⟨t, b', hstep, hb'⟩ := hb.step (Call.steps_functional _)
  refine ⟨t, mk s b', ?_, s, b', rfl, hb'⟩
  have hout := h.step_ready (s := s) hstep
  rwa [ho s] at hout

/-- A relay wakes whenever its inner machine does. -/
theorem wakeful (h : Relays inner outer mk f) {s : S} {b : σ}
    (hb : Wakeful (inner b)) : Wakeful (outer (mk s b)) :=
  (h.passes s).wakeful hb fun _ _ _ _ => .pure_ready _ _

/-- A relay of a relay is a relay, whose own state is that of both. -/
theorem comp {mid : W → Call (Poll ω' × W)} {S' ω'' W' : Type u}
    {outer : W' → Call (Poll ω'' × W')} {mk' : S' → W → W'} {g : S' → ω' → ω'' × S'}
    (h : Relays inner mid mk f) (h' : Relays mid outer mk' g) :
    Relays inner outer (fun s b => mk' s.2 (mk s.1 b)) fun (s : S × S') x =>
      ((g s.2 (f s.1 x).1).1, ((f s.1 x).2, (g s.2 (f s.1 x).1).2)) := by
  intro s b
  rw [h' s.2 (mk s.1 b), relay, h s.1 b, relay, relay]
  rcases inner b with ⟨t, e | ⟨_ | x, b'⟩⟩
  · rfl
  · simp [Call.pure_def]
  · simp [Call.pure_def]

/-- Two relays of one machine are in lockstep when their own states are related
in a way that every answer keeps. -/
theorem lockstep {U W' β : Type u} {outer' : W' → Call (Poll ω' × W')} {mk' : U → σ → W'}
    {g : U → ω → ω' × U} {R : S → U → Prop} {P : σ → Prop} {look : W → β} {look' : W' → β}
    (h : Relays inner outer mk f) (h' : Relays inner outer' mk' g)
    (hR : ∀ s u x, R s u → (f s x).1 = (g u x).1 ∧ R (f s x).2 (g u x).2)
    (hlook : ∀ s u b, R s u → P b → look (mk s b) = look' (mk' u b)) :
    Lockstep outer outer' look look' fun w w' =>
      ∃ s u b, R s u ∧ Always (Call.steps inner) P b ∧ w = mk s b ∧ w' = mk' u b := by
  constructor
  · intro w w' hrelated
    obtain ⟨s, u, b, hsu, hb, rfl, rfl⟩ := hrelated
    rw [h s b, h' u b, relay, relay]
    rcases hpoll : inner b with ⟨t, e | ⟨_ | x, b'⟩⟩
    · exact .stops t e
    · have hnext := hb.next hpoll
      exact .of_eq (Call.bind_pure_ok rfl rfl) (Call.bind_pure_ok rfl rfl)
        ⟨s, u, b', hsu, hnext, rfl, rfl⟩
    · have hnext := hb.next hpoll
      obtain ⟨hanswer, hsu'⟩ := hR s u x hsu
      have hright : (relay inner mk' g u b) =
          ⟨t, .ok (.ready (f s x).1, mk' (g u x).2 b')⟩ := by
        rw [relay, hpoll, hanswer]
        exact Call.bind_pure_ok rfl rfl
      rw [relay, hpoll] at hright
      exact .of_eq (Call.bind_pure_ok rfl rfl) hright ⟨_, _, b', hsu', hnext, rfl, rfl⟩
  · intro w w' hrelated
    obtain ⟨s, u, b, hsu, hb, rfl, rfl⟩ := hrelated
    exact hlook s u b hsu hb.here

end Relays

end HttpBody.Support
