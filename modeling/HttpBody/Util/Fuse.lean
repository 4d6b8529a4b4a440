import HttpBody.Core.Body
import HttpBody.Support.Passing

/-!
# Fuse

A fused body drops its inner body at its end, at an error, and as soon as the
inner body says after a frame that its end has been reached.
-/

namespace HttpBody

open Support

/-- A fused body. -/
structure Fuse (B : Type) where
  inner : Option B

namespace Fuse

variable [Foreign] {B D E : Type} [Body B D E]

def new (body : B) : Fuse B :=
  ⟨if Body.isEndStream body then none else some body⟩

/-- Whether the inner body is dropped after an answer. -/
def eos (inner : B) : PollFrame D E → Bool
  | .ready (some (.ok _)) => Body.isEndStream inner
  | .ready (some (.error _)) => true
  | .ready none => true
  | .pending => false

def pollFrame (b : Fuse B) : Call (PollFrame D E × Fuse B) :=
  match b.inner with
  | some inner => do
      let (poll, inner) ← Body.pollFrame inner
      return (poll, ⟨if eos inner poll then none else some inner⟩)
  | none => return (.ready none, ⟨none⟩)

instance instBody : Body (Fuse B) D E where
  pollFrame := pollFrame
  isEndStream b := b.inner.isNone
  sizeHint ar b :=
    match b.inner with
    | some inner => Body.sizeHint ar inner
    | none => .ok (.withExact 0)

/-- The calls of a fused body. -/
inductive Step : Fuse B → List Event → PollFrame D E → Fuse B → Prop where
  | inner {b t r b'} : Body.Steps b t r b' →
      Step ⟨some b⟩ t r ⟨if eos b' r then none else some b'⟩
  | fused : Step ⟨none⟩ [] (.ready none) ⟨none⟩

theorem steps_iff {b b' : Fuse B} {t : List Event} {r : PollFrame D E} :
    Body.Steps b t r b' ↔ Step b t r b' := by
  constructor
  · intro h
    rcases b with ⟨_ | inner⟩
    · obtain ⟨rfl, heq⟩ := Call.pure_eq_ok.mp h
      cases heq
      exact .fused
    · obtain ⟨t₁, ⟨r', inner'⟩, t₂, hpoll, hrest, rfl⟩ := Call.bind_eq_ok.mp h
      exact StepRel.of_pure hrest (.inner hpoll)
  · rintro (hpoll | _)
    · exact Call.bind_pure_ok hpoll rfl
    · rfl

/-- A fused body is never dropped by a suspension. -/
theorem passes :
    Passes (Body.pollFrame (B := B)) (Body.pollFrame (B := Fuse B)) (fun b => ⟨some b⟩)
      fun o b => pure (.ready o, ⟨if eos b (.ready o) then none else some b⟩) :=
  .of_bind (fun _ => rfl) (fun _ => rfl) fun _ _ => rfl

end Fuse

end HttpBody
