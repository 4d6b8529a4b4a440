import HttpBody.Core.Body
import HttpBody.Support.Loop
import HttpBody.Support.Relay

/-!
# BodyDataStream

A stream of the data of a body: every other frame is skipped.
-/

namespace HttpBody

open Support

/-- A data stream created from a body. -/
structure BodyDataStream (B : Type) where
  body : B

namespace BodyDataStream

variable [Foreign] {B D E : Type} [Body B D E]

def new (body : B) : BodyDataStream B := ⟨body⟩

/-- One turn of the loop of `poll_next`. -/
def turn (self : BodyDataStream B) :
    Call (Poll (Option (Option (Except E D))) × BodyDataStream B) := do
  let (poll, body) ← Body.pollFrame self.body
  match poll with
  | .pending => return (.pending, ⟨body⟩)
  | .ready (some (.ok frame)) =>
      match frame.intoData with
      | .ok bytes => return (.ready (some (some (.ok bytes))), ⟨body⟩)
      | .error _ => return (.ready none, ⟨body⟩)
  | .ready (some (.error err)) => return (.ready (some (some (.error err))), ⟨body⟩)
  | .ready none => return (.ready (some none), ⟨body⟩)

/-- `BodyDataStream::poll_next`, cut off after `fuel` frames. -/
def pollNext (fuel : ℕ) (self : BodyDataStream B) :
    Call (Poll (Option (Except E D)) × BodyDataStream B) :=
  loop turn fuel self

/-- The calls of `BodyDataStream::poll_next` that return. -/
abbrev Steps : StepRel (BodyDataStream B) (Option (Except E D)) :=
  Call.loops turn

/-- What one turn makes of an answer of the body: it skips trailers. -/
def onReady (u : Unit) : Item D E → Option (Option (Except E D)) × Unit
  | none => (some none, u)
  | .data d => (some (some (.ok d)), u)
  | .trailers _ => (none, u)
  | .error err => (some (some (.error err)), u)

theorem relays :
    Relays (Body.pollFrame (B := B)) turn (fun _ body => ⟨body⟩) onReady := by
  intro u body
  simp only [turn, relay]
  congr 1
  funext answer
  rcases answer with ⟨_ | (_ | (err | (d | map))), body⟩ <;> rfl

end BodyDataStream

end HttpBody
