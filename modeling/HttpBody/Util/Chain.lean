import HttpBody.Core.Body
import HttpBody.Support.Passing

/-!
# Chain

A chain yields the data of its first body, then the data of its second body,
and merges the trailers of both.
-/

namespace HttpBody

open Support

/-- A body that links two bodies together.  The states are those of the
source's `Inner`. -/
inductive Chain [Foreign] (A B : Type) where
  | first (first : A) (second : Option B)
  | second (second : B) (trailers : Option HeaderMap)
  | finished

namespace Chain

variable [Foreign] {A B D E₁ E₂ : Type}

def new (first : A) (second : B) : Chain A B := .first first (some second)

/-- The arm of `poll_frame` for the second body. -/
def pollSecond [Body B D E₂] (b : B) (trailersFirst : Option HeaderMap) :
    Call (PollFrame D E₂ × Chain A B) := do
  let (poll, b) ← Body.pollFrame b
  match poll with
  | .pending => return (.pending, .second b trailersFirst)
  | .ready none =>
      return (.ready (Item.ofTrailers (mergeTrailers trailersFirst none)), .finished)
  | .ready (some (.ok frame)) =>
      match frame.intoTrailers with
      | .ok trls =>
          return (.ready (Item.ofTrailers (mergeTrailers trailersFirst (some trls))), .finished)
      | .error frame => return (.ready (some (.ok frame)), .second b trailersFirst)
  | .ready (some (.error err)) => return (.ready (.error err), .finished)

/-- The first body is complete: take the second one and poll again. -/
def handOver [Body B D E₂] (b : Option B) (trailers : Option HeaderMap) :
    Call (PollFrame D E₂ × Chain A B) := do
  let b ← Call.unwrap b
  pollSecond b trailers

variable [Body A D E₁] [Body B D E₂] [Into E₁ E₂]

def pollFrame : Chain A B → Call (PollFrame D E₂ × Chain A B)
  | .first a b => do
      let (poll, a) ← Body.pollFrame a
      match poll with
      | .pending => return (.pending, .first a b)
      | .ready none => handOver b none
      | .ready (some (.ok frame)) =>
          match frame.intoTrailers with
          | .ok trls => handOver b (some trls)
          | .error frame => return (.ready (some (.ok frame)), .first a b)
      | .ready (some (.error err)) => return (.ready (.error (Into.into err)), .finished)
  | .second b trailers => pollSecond b trailers
  | .finished => return (.ready none, .finished)

def isEndStream : Chain A B → Bool
  | .first _ _ => false
  | .second _ _ => false
  | .finished => true

def sizeHint (ar : Arith) : Chain A B → Except Stop SizeHint
  | .first a b => do
      let first ← Body.sizeHint ar a
      let second ← match b with
        | some b => Body.sizeHint ar b
        | none => .ok .new
      SizeHint.add ar first second
  | .second b _ => Body.sizeHint ar b
  | .finished => .ok (SizeHint.new.setExact 0)

instance instBody : Body (Chain A B) D E₂ where
  pollFrame := pollFrame
  isEndStream := isEndStream
  sizeHint := sizeHint

/-! ## The calls of a chain -/

/-- The calls of a chain that holds its second body. -/
inductive Step : Chain A B → List Event → PollFrame D E₂ → Chain A B → Prop where
  | firstPending {a b t a'} : Body.Steps a t .pending a' →
      Step (.first a (some b)) t .pending (.first a' (some b))
  | firstData {a b t d a'} : Body.Steps a t (.ready (.data d)) a' →
      Step (.first a (some b)) t (.ready (.data d)) (.first a' (some b))
  | firstError {a b t e a'} : Body.Steps a t (.ready (.error e)) a' →
      Step (.first a (some b)) t (.ready (.error (Into.into e))) .finished
  | handOver {a b t x ta a' u r c} : Body.Steps a t (.ready x) a' → Item.Ends x ta →
      Step (.second b ta) u r c → Step (.first a (some b)) (t ++ u) r c
  | secondPending {b ta t b'} : Body.Steps b t .pending b' →
      Step (.second b ta) t .pending (.second b' ta)
  | secondData {b ta t d b'} : Body.Steps b t (.ready (.data d)) b' →
      Step (.second b ta) t (.ready (.data d)) (.second b' ta)
  | secondError {b ta t e b'} : Body.Steps b t (.ready (.error e)) b' →
      Step (.second b ta) t (.ready (.error e)) .finished
  | secondEnds {b ta t x tb b'} : Body.Steps b t (.ready x) b' → Item.Ends x tb →
      Step (.second b ta) t (.ready (Item.ofTrailers (mergeTrailers ta tb))) .finished
  | finished : Step .finished [] (.ready none) .finished

/-- A chain that has not lost its second body. -/
def Stored : Chain A B → Prop
  | .first _ none => False
  | _ => True

theorem Step.stored {c c' : Chain A B} {t : List Event} {r : PollFrame D E₂}
    (h : Step c t r c') : c'.Stored := by
  induction h with
  | handOver _ _ _ ih => exact ih
  | _ => trivial

theorem step_of_second {b : B} {ta : Option HeaderMap} {c : Chain A B}
    {t : List Event} {r : PollFrame D E₂} (h : Body.Steps (.second b ta) t r c) :
    Step (.second b ta) t r c := by
  obtain ⟨t₁, ⟨poll, b'⟩, t₂, hpoll, hrest, rfl⟩ := Call.bind_eq_ok.mp h
  rcases poll with _ | (_ | (err | (d | map)))
  · exact StepRel.of_pure hrest (.secondPending hpoll)
  · exact StepRel.of_pure hrest (.secondEnds hpoll .finish)
  · exact StepRel.of_pure hrest (.secondError hpoll)
  · exact StepRel.of_pure hrest (.secondData hpoll)
  · exact StepRel.of_pure hrest (.secondEnds hpoll (.trailers map))

theorem step_of_steps {c c' : Chain A B} {t : List Event} {r : PollFrame D E₂}
    (hstored : c.Stored) (h : Body.Steps c t r c') : Step c t r c' := by
  rcases c with ⟨a, _ | b⟩ | ⟨b, ta⟩ | _
  · exact hstored.elim
  · obtain ⟨t₁, ⟨poll, a'⟩, t₂, hpoll, hrest, rfl⟩ := Call.bind_eq_ok.mp h
    rcases poll with _ | (_ | (err | (d | map)))
    · exact StepRel.of_pure hrest (.firstPending hpoll)
    · exact .handOver hpoll .finish (step_of_second hrest)
    · exact StepRel.of_pure hrest (.firstError hpoll)
    · exact StepRel.of_pure hrest (.firstData hpoll)
    · exact .handOver hpoll (.trailers map) (step_of_second hrest)
  · exact step_of_second h
  · obtain ⟨rfl, heq⟩ := Call.pure_eq_ok.mp h
    cases heq
    exact .finished

theorem steps_of_step {c c' : Chain A B} {t : List Event} {r : PollFrame D E₂}
    (h : Step c t r c') : Body.Steps c t r c' := by
  induction h with
  | firstPending hstep => exact Call.bind_pure_ok hstep rfl
  | firstData hstep => exact Call.bind_pure_ok hstep rfl
  | firstError hstep => exact Call.bind_pure_ok hstep rfl
  | handOver hstep hends _ ih =>
      cases hends with
      | finish => exact Call.bind_eq_ok.mpr ⟨_, _, _, hstep, ih, rfl⟩
      | trailers map => exact Call.bind_eq_ok.mpr ⟨_, _, _, hstep, ih, rfl⟩
  | secondPending hstep => exact Call.bind_pure_ok hstep rfl
  | secondData hstep => exact Call.bind_pure_ok hstep rfl
  | secondError hstep => exact Call.bind_pure_ok hstep rfl
  | secondEnds hstep hends =>
      cases hends with
      | finish => exact Call.bind_pure_ok hstep rfl
      | trailers map => exact Call.bind_pure_ok hstep rfl
  | finished => rfl

theorem first_stops {a : A} {b : Option B} {t : List Event} {s : Stop}
    (h : Body.pollFrame a = ⟨t, .error s⟩) :
    Body.pollFrame (.first a b : Chain A B) = ⟨t, .error s⟩ :=
  Call.bind_eq_error.mpr (.inl h)

theorem second_stops {b : B} {ta : Option HeaderMap} {t : List Event} {s : Stop}
    (h : Body.pollFrame b = ⟨t, .error s⟩) :
    Body.pollFrame (.second b ta : Chain A B) = ⟨t, .error s⟩ :=
  Call.bind_eq_error.mpr (.inl h)

/-- The code makes exactly the calls of `Step`. -/
theorem steps_iff {c c' : Chain A B} {t : List Event} {r : PollFrame D E₂}
    (hstored : c.Stored) : Body.Steps c t r c' ↔ Step c t r c' :=
  ⟨step_of_steps hstored, steps_of_step⟩

/-! ## Suspensions of a chain -/

/-- How a call goes on when the first body is ready. -/
def afterFirst (b : Option B) : Item D E₁ → A → Call (PollFrame D E₂ × Chain A B)
  | none, _ => handOver b none
  | .data d, a => pure (.ready (.data d), .first a b)
  | .trailers map, _ => handOver b (some map)
  | .error err, _ => pure (.ready (.error (Into.into err)), .finished)

/-- How a call goes on when the second body is ready. -/
def afterSecond (ta : Option HeaderMap) : Item D E₂ → B → Call (PollFrame D E₂ × Chain A B)
  | none, _ => pure (.ready (Item.ofTrailers (mergeTrailers ta none)), .finished)
  | .data d, b => pure (.ready (.data d), .second b ta)
  | .trailers map, _ =>
      pure (.ready (Item.ofTrailers (mergeTrailers ta (some map))), .finished)
  | .error err, _ => pure (.ready (.error err), .finished)

theorem passes_first (b : Option B) :
    Passes (Body.pollFrame (B := A)) (Body.pollFrame (B := Chain A B))
      (fun a => .first a b) (afterFirst b) := by
  refine .of_bind (fun _ => rfl) (fun _ => rfl) ?_
  rintro (_ | (err | (d | map))) a <;> rfl

theorem passes_second (ta : Option HeaderMap) :
    Passes (Body.pollFrame (B := B)) (Body.pollFrame (B := Chain A B))
      (fun b => .second b ta) (afterSecond ta) := by
  refine .of_bind (fun _ => rfl) (fun _ => rfl) ?_
  rintro (_ | (err | (d | map))) b <;> rfl

end Chain

end HttpBody
