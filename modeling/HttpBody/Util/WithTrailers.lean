import HttpBody.Core.Body
import HttpBody.Support.Passing

/-!
# WithTrailers

A body whose trailers come from a future, which is polled once the inner body
is complete.
-/

namespace HttpBody

open Support

/-- A body with added trailers.  The states are those of the source's `State`. -/
inductive WithTrailers [Foreign] (T F : Type) where
  | pollBody (body : T) (trailers : Option F)
  | pollTrailers (trailers : F) (prevTrailers : Option HeaderMap)
  | done

namespace WithTrailers

variable [Foreign] {T F D E : Type}

def new (body : T) (trailers : F) : WithTrailers T F :=
  .pollBody body (some trailers)

/-- The answer and the next state when the trailers future, now `f`, resolves.
The state is only set where the source sets it: an error leaves it by `?`, and
so does the end without any trailers. -/
def resolved (f : F) (prevTrailers : Option HeaderMap) :
    Option (Except E HeaderMap) → Item D E × WithTrailers T F
  | some (.error err) => (.error err, .pollTrailers f prevTrailers)
  | none =>
      match prevTrailers with
      | none => (none, .pollTrailers f none)
      | some trailers => (.trailers trailers, .done)
  | some (.ok newTrailers) =>
      match prevTrailers with
      | none => (.trailers newTrailers, .done)
      | some prev => (.trailers (Foreign.extend prev newTrailers), .done)

/-- A body that has not lost its trailers future. -/
def Stored : WithTrailers T F → Prop
  | .pollBody _ none => False
  | _ => True

theorem stored_resolved (f : F) (prev : Option HeaderMap)
    (x : Option (Except E HeaderMap)) :
    (resolved (D := D) (T := T) f prev x).2.Stored := by
  rcases x with _ | (_ | _) <;> cases prev <;> trivial

variable [Future F (Option (Except E HeaderMap))]

/-- The arm of the loop for the trailers future. -/
def pollTrailersArm (f : F) (prevTrailers : Option HeaderMap) :
    Call (PollFrame D E × WithTrailers T F) := do
  let (poll, f) ← Future.poll f
  match poll with
  | .pending => return (.pending, .pollTrailers f prevTrailers)
  | .ready trailers =>
      let (r, state) := resolved f prevTrailers trailers
      return (.ready r, state)

/-- The inner body is complete: the loop goes on with the trailers future. -/
def startTrailers (f : Option F) (prevTrailers : Option HeaderMap) :
    Call (PollFrame D E × WithTrailers T F) := do
  let f ← Call.unwrap f
  pollTrailersArm f prevTrailers

variable [Body T D E]

def pollFrame : WithTrailers T F → Call (PollFrame D E × WithTrailers T F)
  | .pollBody body trailers => do
      let (poll, body) ← Body.pollFrame body
      match poll with
      | .pending => return (.pending, .pollBody body trailers)
      | .ready (some (.error err)) => return (.ready (.error err), .pollBody body trailers)
      | .ready (some (.ok frame)) =>
          match frame.intoTrailers with
          | .ok prevTrailers => startTrailers trailers (some prevTrailers)
          | .error frame => return (.ready (some (.ok frame)), .pollBody body trailers)
      | .ready none => startTrailers trailers none
  | .pollTrailers f prevTrailers => pollTrailersArm f prevTrailers
  | .done => return (.ready none, .done)

instance instBody : Body (WithTrailers T F) D E where
  pollFrame := pollFrame
  sizeHint ar
    | .pollBody body _ => Body.sizeHint ar body
    | .pollTrailers _ _ => .ok .new
    | .done => .ok .new

/-! ## The calls of a body with added trailers -/

/-- The calls of a body that holds its trailers future. -/
inductive Step : WithTrailers T F → List Event → PollFrame D E →
    WithTrailers T F → Prop where
  | bodyPending {b f t b'} : Body.Steps b t .pending b' →
      Step (.pollBody b (some f)) t .pending (.pollBody b' (some f))
  | bodyData {b f t d b'} : Body.Steps b t (.ready (.data d)) b' →
      Step (.pollBody b (some f)) t (.ready (.data d)) (.pollBody b' (some f))
  | bodyError {b f t e b'} : Body.Steps b t (.ready (.error e)) b' →
      Step (.pollBody b (some f)) t (.ready (.error e)) (.pollBody b' (some f))
  | bodyEnds {b f t x prev b' u r w} : Body.Steps b t (.ready x) b' →
      Item.Ends x prev → Step (.pollTrailers f prev) u r w →
      Step (.pollBody b (some f)) (t ++ u) r w
  | futurePending {f prev t f'} : Future.Steps f t .pending f' →
      Step (.pollTrailers f prev) t .pending (.pollTrailers f' prev)
  | futureReady {f prev t x f'} : Future.Steps f t (.ready x) f' →
      Step (.pollTrailers f prev) t (.ready (resolved (T := T) f' prev x).1)
        (resolved (D := D) f' prev x).2
  | done : Step .done [] (.ready none) .done

theorem Step.stored {w w' : WithTrailers T F} {t : List Event}
    {r : PollFrame D E} (h : Step w t r w') : w'.Stored := by
  induction h with
  | bodyEnds _ _ _ ih => exact ih
  | futureReady _ => exact stored_resolved _ _ _
  | _ => trivial

theorem step_of_trailers {f : F} {prev : Option HeaderMap}
    {w : WithTrailers T F} {t : List Event} {r : PollFrame D E}
    (h : Body.Steps (.pollTrailers f prev) t r w) :
    Step (.pollTrailers f prev) t r w := by
  obtain ⟨t₁, ⟨poll, f'⟩, t₂, hpoll, hrest, rfl⟩ := Call.bind_eq_ok.mp h
  cases poll with
  | pending =>
      exact StepRel.of_pure hrest (.futurePending hpoll)
  | ready x =>
      exact StepRel.of_pure hrest (.futureReady hpoll)

theorem step_of_steps {w w' : WithTrailers T F} {t : List Event}
    {r : PollFrame D E} (hstored : w.Stored) (h : Body.Steps w t r w') :
    Step w t r w' := by
  rcases w with ⟨b, _ | f⟩ | ⟨f, prev⟩ | _
  · exact hstored.elim
  · obtain ⟨t₁, ⟨poll, b'⟩, t₂, hpoll, hrest, rfl⟩ := Call.bind_eq_ok.mp h
    rcases poll with _ | (_ | (err | (d | map)))
    · exact StepRel.of_pure hrest (.bodyPending hpoll)
    · exact .bodyEnds hpoll .finish (step_of_trailers hrest)
    · exact StepRel.of_pure hrest (.bodyError hpoll)
    · exact StepRel.of_pure hrest (.bodyData hpoll)
    · exact .bodyEnds hpoll (.trailers map) (step_of_trailers hrest)
  · exact step_of_trailers h
  · obtain ⟨rfl, heq⟩ := Call.pure_eq_ok.mp h
    cases heq
    exact .done

theorem steps_of_step {w w' : WithTrailers T F} {t : List Event}
    {r : PollFrame D E} (h : Step w t r w') : Body.Steps w t r w' := by
  induction h with
  | bodyPending hstep => exact Call.bind_pure_ok hstep rfl
  | bodyData hstep => exact Call.bind_pure_ok hstep rfl
  | bodyError hstep => exact Call.bind_pure_ok hstep rfl
  | bodyEnds hstep hends _ ih =>
      cases hends with
      | finish => exact Call.bind_eq_ok.mpr ⟨_, _, _, hstep, ih, rfl⟩
      | trailers map => exact Call.bind_eq_ok.mpr ⟨_, _, _, hstep, ih, rfl⟩
  | futurePending hstep => exact Call.bind_pure_ok hstep rfl
  | futureReady hstep => exact Call.bind_pure_ok hstep rfl
  | done => rfl

/-- The code makes exactly the calls of `Step`. -/
theorem steps_iff {w w' : WithTrailers T F} {t : List Event}
    {r : PollFrame D E} (hstored : w.Stored) :
    Body.Steps w t r w' ↔ Step w t r w' :=
  ⟨step_of_steps hstored, steps_of_step⟩

/-! ## Suspensions of a body with added trailers -/

/-- How a call goes on when the inner body is ready. -/
def afterBody (f : Option F) : Item D E → T → Call (PollFrame D E × WithTrailers T F)
  | none, _ => startTrailers f none
  | .data d, body => pure (.ready (.data d), .pollBody body f)
  | .trailers map, _ => startTrailers f (some map)
  | .error err, body => pure (.ready (.error err), .pollBody body f)

theorem passes_body (f : Option F) :
    Passes (Body.pollFrame (B := T)) (Body.pollFrame (B := WithTrailers T F))
      (fun body => .pollBody body f) (afterBody f) := by
  refine .of_bind (fun _ => rfl) (fun _ => rfl) ?_
  rintro (_ | (err | (d | map))) body <;> rfl

/-- How a call goes on when the future is ready. -/
def afterTrailers (prev : Option HeaderMap) (x : Option (Except E HeaderMap)) (f : F) :
    Call (PollFrame D E × WithTrailers T F) :=
  let (r, state) := resolved f prev x
  pure (.ready r, state)

theorem passes_trailers (prev : Option HeaderMap) :
    Passes (Future.poll (F := F)) (Body.pollFrame (B := WithTrailers T F))
      (fun f => .pollTrailers f prev) (afterTrailers prev) :=
  .of_bind (fun _ => rfl) (fun _ => rfl) fun _ _ => rfl

end WithTrailers

end HttpBody
