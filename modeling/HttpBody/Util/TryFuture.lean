import HttpBody.Core.Body
import HttpBody.Support.Relay

/-!
# TryFutureBody

A body that a fallible future yields.
-/

namespace HttpBody

open Support

/-- A body backed by a fallible future.  The states are those of the source's
`Inner`. -/
inductive TryFutureBody (F B : Type) where
  | future (future : F)
  | body (body : B)
  | failed

namespace TryFutureBody

variable [Foreign] {F B D E E₁ : Type}

def new (f : F) : TryFutureBody F B := .future f

variable [Body B D E]

/-- The arm of `poll_frame` for the body. -/
def pollBody (b : B) : Call (PollFrame D E × TryFutureBody F B) := do
  let (poll, b) ← Body.pollFrame b
  return (poll, .body b)

variable [Future F (Except E₁ B)] [Into E₁ E]

def pollFrame : TryFutureBody F B → Call (PollFrame D E × TryFutureBody F B)
  | .failed => return (.ready none, .failed)
  | .body b => pollBody b
  | .future f => do
      let (poll, f) ← Future.poll f
      match poll with
      | .pending => return (.pending, .future f)
      | .ready (.ok b) => pollBody b
      | .ready (.error err) => return (.ready (.error (Into.into err)), .failed)

instance instBody : Body (TryFutureBody F B) D E where
  pollFrame := pollFrame
  isEndStream
    | .future _ => false
    | .body b => Body.isEndStream b
    | .failed => true
  sizeHint ar
    | .future _ => .ok .new
    | .body b => Body.sizeHint ar b
    | .failed => .ok (.withExact 0)

/-- The calls of a body backed by a future. -/
inductive Step : TryFutureBody F B → List Event → PollFrame D E →
    TryFutureBody F B → Prop where
  | futurePending {f t f'} : Future.Steps f t .pending f' →
      Step (.future f) t .pending (.future f')
  | futureError {f t e f'} : Future.Steps f t (.ready (.error e)) f' →
      Step (.future f) t (.ready (.error (Into.into e))) .failed
  | futureBody {f t b f' u r b'} : Future.Steps f t (.ready (.ok b)) f' →
      Body.Steps b u r b' → Step (.future f) (t ++ u) r (.body b')
  | body {b t r b'} : Body.Steps b t r b' → Step (.body b) t r (.body b')
  | failed : Step .failed [] (.ready none) .failed

theorem pollBody_eq_ok {b : B} {t : List Event} {r : PollFrame D E}
    {w : TryFutureBody F B} (h : pollBody b = ⟨t, .ok (r, w)⟩) :
    ∃ b', Body.Steps b t r b' ∧ w = .body b' := by
  obtain ⟨t₁, ⟨poll, b'⟩, t₂, hpoll, hrest, rfl⟩ := Call.bind_eq_ok.mp h
  obtain ⟨rfl, heq⟩ := Call.pure_eq_ok.mp hrest
  cases heq
  rw [List.append_nil]
  exact ⟨b', hpoll, rfl⟩

theorem pollBody_of_steps {b b' : B} {t : List Event} {r : PollFrame D E}
    (h : Body.Steps b t r b') :
    (pollBody b : Call (_ × TryFutureBody F B)) = ⟨t, .ok (r, .body b')⟩ :=
  Call.bind_pure_ok h rfl

/-- The code makes exactly the calls of `Step`. -/
theorem steps_iff {w w' : TryFutureBody F B} {t : List Event}
    {r : PollFrame D E} : Body.Steps w t r w' ↔ Step w t r w' := by
  constructor
  · intro h
    rcases w with f | b | _
    · obtain ⟨t₁, ⟨poll, f'⟩, t₂, hpoll, hrest, rfl⟩ := Call.bind_eq_ok.mp h
      rcases poll with _ | (err | b)
      · exact StepRel.of_pure hrest (.futurePending hpoll)
      · exact StepRel.of_pure hrest (.futureError hpoll)
      · obtain ⟨b', hb', rfl⟩ := pollBody_eq_ok hrest
        exact .futureBody hpoll hb'
    · obtain ⟨b', hb', rfl⟩ := pollBody_eq_ok h
      exact .body hb'
    · obtain ⟨rfl, heq⟩ := Call.pure_eq_ok.mp h
      cases heq
      exact .failed
  · intro h
    cases h with
    | futurePending hstep => exact Call.bind_pure_ok hstep rfl
    | futureError hstep => exact Call.bind_pure_ok hstep rfl
    | futureBody hstep hbody =>
        exact Call.bind_eq_ok.mpr ⟨_, _, _, hstep, pollBody_of_steps hbody, rfl⟩
    | body hbody => exact pollBody_of_steps hbody
    | failed => rfl

/-! ## Suspensions of a body backed by a future -/

/-- How a call goes on when the future is ready. -/
def afterFuture : Except E₁ B → F → Call (PollFrame D E × TryFutureBody F B)
  | .ok b, _ => pollBody b
  | .error err, _ => pure (.ready (.error (Into.into err)), .failed)

theorem passes_future :
    Passes (Future.poll (F := F)) (Body.pollFrame (B := TryFutureBody F B))
      .future afterFuture := by
  refine .of_bind (fun _ => rfl) (fun _ => rfl) ?_
  rintro (err | b) f <;> rfl

/-- Once the future has resolved, the body is relayed as it is. -/
theorem relays_body :
    Relays (Body.pollFrame (B := B)) (Body.pollFrame (B := TryFutureBody F B))
      (fun _ b => .body b) fun (u : Unit) o => (o, u) :=
  .of_passes fun _ => .of_bind (fun _ => rfl) (fun _ => rfl) fun _ _ => rfl

end TryFutureBody

end HttpBody
