import HttpBody.Composition.EndOfStream
import HttpBody.Core.HeaderTable
import HttpBody.Support.Lockstep

/-!
# Fuse is transparent and final

A fused body hands on what its inner body answers, up to and including the
answer at which it drops the inner body.  From then on it answers the end, and
polls nothing.
-/

namespace HttpBody

open Support

namespace Fuse

section

variable [Foreign] {B D E : Type} [Body B D E]

/-- The answers at which a fused body drops its inner body, which the answer
leaves in the state `b`. -/
inductive Drops (b : B) : PollFrame D E → Prop where
  | finish : Drops b (.ready none)
  | error (err : E) : Drops b (.ready (.error err))
  | frame (frame : Frame D) : Body.isEndStream b = true → Drops b (.ready (some (.ok frame)))

/-- `UntilDrop b rs b'`: the answers of `b` in a run that is cut off after the
first answer at which a fused body drops it; `b'` is what is still held then. -/
inductive UntilDrop : B → List (PollFrame D E) → Option B → Prop where
  | nil (b : B) : UntilDrop b [] (some b)
  | drop {b t r b'} : Body.Steps b t r b' → Drops b' r → UntilDrop b [r] none
  | keep {b t r b' rs b''} : Body.Steps b t r b' → ¬ Drops b' r → UntilDrop b' rs b'' →
      UntilDrop b (r :: rs) b''

/-- The runs of a fused body over the observed leaf `b`: the run of the leaf, and
the end for as many calls as are made after the leaf was dropped. -/
inductive FusedRun (b : B) :
    List Event → List (PollFrame D E) → Fuse (Probe B) → Prop where
  | held {rs b'} : UntilDrop b rs (some b') →
      FusedRun b (rs.map (Item.event 0)) rs ⟨some ⟨0, b'⟩⟩
  | dropped {rs} (n : ℕ) : UntilDrop b rs none →
      FusedRun b (rs.map (Item.event 0)) (rs ++ List.replicate n (.ready none)) ⟨none⟩

theorem drops_iff {b : B} {r : PollFrame D E} : Drops b r ↔ eos b r = true := by
  constructor
  · intro h
    cases h with
    | finish => rfl
    | error err => rfl
    | frame frame hend => exact hend
  · intro h
    rcases r with _ | (_ | (err | frame))
    · cases h
    · exact .finish
    · exact .error err
    · exact .frame frame h

/-- One call of a fused body that still holds its inner body. -/
theorem step_held_iff {b : B} {t : List Event} {r : PollFrame D E} {w : Fuse B} :
    Body.Steps (⟨some b⟩ : Fuse B) t r w ↔ ∃ b', Body.Steps b t r b' ∧
      (Drops b' r ∧ w = ⟨none⟩ ∨ ¬ Drops b' r ∧ w = ⟨some b'⟩) := by
  rw [steps_iff]
  constructor
  · intro h
    cases h with
    | @inner _ _ _ b' hstep =>
        refine ⟨b', hstep, ?_⟩
        by_cases hdrop : Drops b' r
        · rw [if_pos (drops_iff.mp hdrop)]
          exact .inl ⟨hdrop, rfl⟩
        · rw [if_neg (mt drops_iff.mpr hdrop)]
          exact .inr ⟨hdrop, rfl⟩
  · rintro ⟨b', hstep, ⟨hdrop, rfl⟩ | ⟨hkeep, rfl⟩⟩
    · have hnext := Step.inner hstep
      rwa [if_pos (drops_iff.mp hdrop)] at hnext
    · have hnext := Step.inner hstep
      rwa [if_neg (mt drops_iff.mpr hkeep)] at hnext

/-! ## The runs of a fused body -/

theorem step_fused : Body.Steps (⟨none⟩ : Fuse B) [] (.ready none) ⟨none⟩ :=
  steps_iff.mpr .fused

theorem ended_fused : Body.Ended (⟨none⟩ : Fuse B) :=
  .of_fixed trivial step_fused

theorem tracedRuns_fused (n : ℕ) :
    TracedRuns Body.Steps (⟨none⟩ : Fuse B) [] (List.replicate n (.ready none)) ⟨none⟩ := by
  induction n with
  | zero => exact .nil _
  | succ n ih => exact .cons step_fused ih

theorem tracedRuns_fused_iff {t : List Event} {rs : List (PollFrame D E)} {w : Fuse B} :
    TracedRuns Body.Steps (⟨none⟩ : Fuse B) t rs w ↔
      t = [] ∧ rs = List.replicate rs.length (.ready none) ∧ w = ⟨none⟩ := by
  constructor
  · intro h
    induction rs generalizing t with
    | nil =>
        obtain ⟨rfl, rfl⟩ := tracedRuns_nil_iff.mp h
        exact ⟨rfl, rfl, rfl⟩
    | cons r rs ih =>
        obtain ⟨t₁, w₁, t₂, hstep, hrest, rfl⟩ := tracedRuns_cons_iff.mp h
        cases steps_iff.mp hstep with
        | fused =>
            obtain ⟨rfl, hrs, rfl⟩ := ih hrest
            refine ⟨rfl, ?_, rfl⟩
            rw [List.length_cons, List.replicate_succ, ← hrs]
  · rintro ⟨rfl, hrs, rfl⟩
    rw [hrs]
    exact tracedRuns_fused _

theorem FusedRun.keep {b b' : B} {t : List Event} {r : PollFrame D E}
    {rs : List (PollFrame D E)} {w : Fuse (Probe B)} {u : List Event}
    (hstep : Body.Steps b t r b') (hkeep : ¬ Drops b' r) (h : FusedRun b' u rs w) :
    FusedRun b (Item.event 0 r :: u) (r :: rs) w := by
  cases h with
  | held h => exact .held (.keep hstep hkeep h)
  | dropped n h => exact .dropped n (.keep hstep hkeep h)

/-- An answer of an observed leaf drops it just as it would drop the leaf. -/
theorem drops_probe {leaf : ℕ} {b : B} {r : PollFrame D E} :
    Drops (⟨leaf, b⟩ : Probe B) r ↔ Drops b r := by
  have hprobe : eos (⟨leaf, b⟩ : Probe B) r = eos b r := rfl
  rw [drops_iff, drops_iff, hprobe]

theorem fusedRun_of_runs {b : B} {t : List Event} {rs : List (PollFrame D E)}
    {w : Fuse (Probe B)} (h : TracedRuns Body.Steps ⟨some ⟨0, b⟩⟩ t rs w) :
    FusedRun b t rs w := by
  induction rs generalizing b t with
  | nil =>
      obtain ⟨rfl, rfl⟩ := tracedRuns_nil_iff.mp h
      exact .held (.nil b)
  | cons r rs ih =>
      obtain ⟨t₁, w₁, t₂, hstep, hrest, rfl⟩ := tracedRuns_cons_iff.mp h
      obtain ⟨p, hprobe, hnext⟩ := step_held_iff.mp hstep
      obtain ⟨u, b', hb, rfl, rfl⟩ := Probe.step_cases hprobe
      rcases hnext with ⟨hdrop, rfl⟩ | ⟨hkeep, rfl⟩
      · obtain ⟨rfl, hrs, rfl⟩ := tracedRuns_fused_iff.mp hrest
        rw [hrs]
        exact .dropped rs.length (.drop hb (drops_probe.mp hdrop))
      · exact FusedRun.keep hb (mt drops_probe.mpr hkeep) (ih hrest)

theorem UntilDrop.runs {b : B} {rs : List (PollFrame D E)} {b' : Option B}
    (h : UntilDrop b rs b') :
    TracedRuns Body.Steps (⟨some ⟨0, b⟩⟩ : Fuse (Probe B)) (rs.map (Item.event 0)) rs
      ⟨b'.map (Probe.mk 0)⟩ := by
  induction h with
  | nil b => exact .nil _
  | @drop b t r b' hstep hdrop =>
      have hprobe := Probe.step 0 hstep
      exact .cons (step_held_iff.mpr ⟨_, hprobe, .inl ⟨drops_probe.mpr hdrop, rfl⟩⟩) (.nil _)
  | keep hstep hkeep _ ih =>
      have hprobe := Probe.step 0 hstep
      exact .cons (step_held_iff.mpr ⟨_, hprobe, .inr ⟨mt drops_probe.mp hkeep, rfl⟩⟩) ih

theorem tracedRuns_held_iff {b : B} {t : List Event} {rs : List (PollFrame D E)}
    {w : Fuse (Probe B)} :
    TracedRuns Body.Steps ⟨some ⟨0, b⟩⟩ t rs w ↔ FusedRun b t rs w := by
  constructor
  · exact fusedRun_of_runs
  · intro h
    cases h with
    | held h => exact h.runs
    | dropped n h =>
        have hrun := h.runs.append (tracedRuns_fused n)
        rwa [List.append_nil] at hrun

/-! ## Runs without errors -/

/-- In every reachable state, `is_end_stream` is only true at the end. -/
def SaysEnd (b : B) : Prop :=
  Always Body.Steps (fun b : B => Body.isEndStream b = true → Body.Ended b) b

/-- In every reachable state, the end is only answered if it is answered from
then on. -/
def StaysEnded (b : B) : Prop :=
  Always Body.Steps
    (fun b : B => ∀ ⦃t b'⦄, Body.Steps b t (.ready none) b' → Body.Ended b') b

/-- A fused body only drops a body that has ended, or failed. -/
theorem Drops.ended {b b' : B} {t : List Event} {r : PollFrame D E} (hsaid : SaysEnd b)
    (hstays : StaysEnded b) (hstep : Body.Steps b t r b') (hdrop : Drops b' r)
    (hno : ∀ err, r ≠ .ready (.error err)) : Body.Ended b' := by
  cases hdrop with
  | finish => exact hstays.here hstep
  | error err => exact (hno err rfl).elim
  | frame frame hend => exact (hsaid.next hstep).here hend

theorem runs_held_iff {b : B} {rs : List (PollFrame D E)} (hsaid : SaysEnd b)
    (hstays : StaysEnded b) (hno : ∀ err, .ready (.error err) ∉ rs) :
    (∃ b', Runs Body.Steps b rs b') ↔ ∃ w, Runs Body.Steps (⟨some b⟩ : Fuse B) rs w := by
  have hfunctional : (Body.Steps (B := B)).Functional := Call.steps_functional _
  have hfunctional' : (Body.Steps (B := Fuse B)).Functional := Call.steps_functional _
  induction rs generalizing b with
  | nil => exact ⟨fun _ => ⟨_, .nil _⟩, fun _ => ⟨_, .nil _⟩⟩
  | cons r rs ih =>
      have hno_rest : ∀ err, .ready (.error err) ∉ rs := by
        intro err hmem
        exact hno err (List.mem_cons_of_mem _ hmem)
      have hno_first : ∀ err, r ≠ .ready (.error err) := by
        intro err hr
        exact hno err (hr ▸ List.mem_cons_self)
      -- what is left of either run is the same, also when the body is dropped
      have hrest : ∀ {t b'}, Body.Steps b t r b' → Drops b' r →
          ((∃ b'', Runs Body.Steps b' rs b'') ↔
            ∃ w, Runs Body.Steps (⟨none⟩ : Fuse B) rs w) := by
        intro t b' hstep hdrop
        have hended := hdrop.ended hsaid hstays hstep hno_first
        rw [hended.exists_runs_iff hfunctional, ended_fused.exists_runs_iff hfunctional']
      constructor
      · intro hruns
        obtain ⟨b'', hrun⟩ := hruns
        obtain ⟨t, b', hstep, htail⟩ := runs_cons_iff.mp hrun
        by_cases hdrop : Drops b' r
        · obtain ⟨w, hw⟩ := (hrest hstep hdrop).mp ⟨b'', htail⟩
          exact ⟨w, .cons (step_held_iff.mpr ⟨b', hstep, .inl ⟨hdrop, rfl⟩⟩) hw⟩
        · obtain ⟨w, hw⟩ := (ih (hsaid.next hstep) (hstays.next hstep) hno_rest).mp ⟨b'', htail⟩
          exact ⟨w, .cons (step_held_iff.mpr ⟨b', hstep, .inr ⟨hdrop, rfl⟩⟩) hw⟩
      · intro hruns
        obtain ⟨w, hrun⟩ := hruns
        obtain ⟨t, w₁, hstep, htail⟩ := runs_cons_iff.mp hrun
        obtain ⟨b', hb, ⟨hdrop, rfl⟩ | ⟨hkeep, rfl⟩⟩ := step_held_iff.mp hstep
        · obtain ⟨b'', hb'⟩ := (hrest hb hdrop).mpr ⟨w, htail⟩
          exact ⟨b'', .cons hb hb'⟩
        · obtain ⟨b'', hb'⟩ := (ih (hsaid.next hb) (hstays.next hb) hno_rest).mpr ⟨w, htail⟩
          exact ⟨b'', .cons hb hb'⟩

theorem new_of_ended {b : B} (hend : Body.isEndStream b = true) : new b = ⟨none⟩ := by
  rw [new, if_pos hend]

theorem new_of_live {b : B} (hlive : Body.isEndStream b = false) : new b = ⟨some b⟩ := by
  simp [new, hlive]

theorem runs_new_iff {b : B} {rs : List (PollFrame D E)} (hsaid : SaysEnd b)
    (hstays : StaysEnded b) (hno : ∀ err, .ready (.error err) ∉ rs) :
    (∃ b', Runs Body.Steps b rs b') ↔ ∃ w, Runs Body.Steps (new b) rs w := by
  by_cases hend : Body.isEndStream b = true
  · have hended : Body.Ended b := hsaid.here hend
    have hfused : Body.Ended (⟨none⟩ : Fuse B) := ended_fused
    rw [new_of_ended hend, hended.exists_runs_iff (Call.steps_functional _),
      hfused.exists_runs_iff (Call.steps_functional _)]
  · rw [new_of_live (Bool.not_eq_true _ ▸ hend)]
    exact runs_held_iff hsaid hstays hno

/-! ## Fusing twice -/

/-- Fused bodies that were fused twice and once, and hold the same body. -/
inductive Refused : Fuse (Fuse B) → Fuse B → Prop where
  | held (b : B) : Refused ⟨some ⟨some b⟩⟩ ⟨some b⟩
  | dropped : Refused ⟨none⟩ ⟨none⟩

theorem refused_new (b : B) : Refused (new (new b)) (new b) := by
  by_cases hend : Body.isEndStream b = true
  · have hinner : new b = ⟨none⟩ := new_of_ended hend
    have houter : new (⟨none⟩ : Fuse B) = ⟨none⟩ := new_of_ended rfl
    rw [hinner, houter]
    exact .dropped
  · have hinner : new b = ⟨some b⟩ := new_of_live (Bool.not_eq_true _ ▸ hend)
    have houter : new (⟨some b⟩ : Fuse B) = ⟨some ⟨some b⟩⟩ := new_of_live rfl
    rw [hinner, houter]
    exact .held b

/-- Both levels drop what they hold at the same answers. -/
theorem refused_next (b : B) (r : PollFrame D E) :
    Refused
      ⟨if eos (⟨if eos b r then none else some b⟩ : Fuse B) r then none
        else some ⟨if eos b r then none else some b⟩⟩
      ⟨if eos b r then none else some b⟩ := by
  by_cases hdrop : Drops b r
  · have houter : eos (⟨none⟩ : Fuse B) r = true := by
      cases hdrop with
      | finish => rfl
      | error err => rfl
      | frame frame hend => rfl
    simp only [drops_iff.mp hdrop, if_true, houter]
    exact .dropped
  · have hkeep : eos b r = false := Bool.not_eq_true _ ▸ mt drops_iff.mpr hdrop
    have houter : eos (⟨some b⟩ : Fuse B) r = false := by
      rcases r with _ | (_ | (err | frame))
      · rfl
      · cases hkeep
      · cases hkeep
      · rfl
    simp only [hkeep, houter, Bool.false_eq_true, if_false]
    exact .held b

theorem lockstep_refused (ar : Arith) :
    Lockstep (Body.pollFrame (B := Fuse (Fuse B))) (Body.pollFrame (B := Fuse B))
      (Body.look ar) (Body.look ar) Refused := by
  constructor
  · intro w w' h
    cases h with
    | dropped => exact .pure _ .dropped
    | held b =>
        rcases hpoll : Body.pollFrame b with ⟨t, stop | ⟨r, b'⟩⟩
        · have hinner : Body.pollFrame (⟨some b⟩ : Fuse B) = ⟨t, .error stop⟩ :=
            Call.bind_eq_error.mpr (.inl hpoll)
          have houter : Body.pollFrame (⟨some ⟨some b⟩⟩ : Fuse (Fuse B)) = ⟨t, .error stop⟩ :=
            Call.bind_eq_error.mpr (.inl hinner)
          exact .of_stops houter hinner
        · have hinner := steps_iff.mpr (.inner hpoll)
          have houter := steps_iff.mpr (.inner hinner)
          exact .of_eq houter hinner (refused_next b' r)
  · intro w w' h
    cases h with
    | held b => rfl
    | dropped => rfl

/-- A body that says at once that it has ended is never polled by a fused body.
Any other is polled up to the answer at which it is dropped, and all of its
answers are handed on; then the fused body says that it has ended.  A body that
is right about its end cannot be told from the fused one by runs without errors,
and fusing twice cannot be told from fusing once. -/
theorem transparent_and_final (ar : Arith) (b : B) :
    (Body.isEndStream b = true → ∀ t rs w,
      TracedRuns Body.Steps (new (⟨0, b⟩ : Probe B)) t rs w ↔
        t = [] ∧ rs = List.replicate rs.length (.ready none) ∧ w = ⟨none⟩) ∧
    (Body.isEndStream b = false → ∀ t rs w,
      TracedRuns Body.Steps (new (⟨0, b⟩ : Probe B)) t rs w ↔ FusedRun b t rs w) ∧
    Body.look ar (⟨none⟩ : Fuse (Probe B)) = (true, .ok (.withExact 0)) ∧
    (SaysEnd b → StaysEnded b → ∀ rs : List (PollFrame D E), (∀ err, .ready (.error err) ∉ rs) →
      ((∃ b', Runs Body.Steps b rs b') ↔ ∃ w, Runs Body.Steps (new b) rs w)) ∧
    ∀ n, Body.look ar (new (new b)) = Body.look ar (new b) ∧
      observations Body.pollFrame (Body.look ar) n (new (new b)) =
        observations Body.pollFrame (Body.look ar) n (new b) := by
  have hlockstep := lockstep_refused (B := B) ar
  refine ⟨?_, ?_, rfl, ?_, ?_⟩
  · intro hend t rs w
    have hnew : new (⟨0, b⟩ : Probe B) = ⟨none⟩ := new_of_ended hend
    rw [hnew]
    exact tracedRuns_fused_iff
  · intro hlive t rs w
    have hnew : new (⟨0, b⟩ : Probe B) = ⟨some ⟨0, b⟩⟩ := new_of_live hlive
    rw [hnew]
    exact tracedRuns_held_iff
  · intro hsaid hstays rs hno
    exact runs_new_iff hsaid hstays hno
  · intro n
    exact ⟨hlockstep.look (refused_new b), hlockstep.observations_eq (refused_new b) n⟩

end

/-- A single chunk, which is right about its end. -/
theorem transparent_and_final_full :
    ∀ rs : List (PollFrame Bytes Infallible), (∀ err, .ready (.error err) ∉ rs) →
      ((∃ b', Runs Body.Steps (Full.new (⟨[1], by decide⟩ : Bytes)) rs b') ↔
        ∃ w, Runs Body.Steps (new (Full.new (⟨[1], by decide⟩ : Bytes))) rs w) := by
  have hended : Body.Ended (⟨none⟩ : Full Bytes) := ((Full.endStreamSound _).here rfl).ended
  have hsaid : SaysEnd (Full.new (⟨[1], by decide⟩ : Bytes)) :=
    (Full.endStreamSound _).mono fun _ h hend => (h hend).ended
  have hstays : StaysEnded (Full.new (⟨[1], by decide⟩ : Bytes)) := by
    intro rs b hrun t b' hstep
    have hb' : b' = ⟨none⟩ := by
      obtain ⟨_ | data⟩ := b
      · cases hstep
        rfl
      · cases hstep
    exact hb' ▸ hended
  exact (transparent_and_final .checked _).2.2.2.1 hsaid hstays

end Fuse

end HttpBody
