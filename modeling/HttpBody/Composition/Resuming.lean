import HttpBody.Composition.Sweeping
import HttpBody.Support.Resuming

/-!
# Spurious polls

An expression that was suspended by one of its leaves goes on with that leaf: its next call
polls it first, and polls nothing else as long as the leaf is pending.  So nothing is lost,
repeated or skipped when a body is polled without having been woken.
-/

namespace HttpBody

open Support
open scoped List

section Rules

variable [Foreign]

/-- However often `b` is polled, it resumes where it was suspended. -/
abbrev Body.Resumes {B D E : Type} [Body B D E] (b : B) : Prop :=
  Support.Resumes Body.pollFrame b

variable {A B D E E₁ E₂ F : Type}

/-! ## Leaves -/

theorem Str.resumes (s : Str) : Body.Resumes s := by
  refine .of_never_pending (fun s s' t => ?_) s
  by_cases hempty : s.isEmpty = true
  · simp [Body.pollFrame, hempty, Call.pure_def]
  · simp [Body.pollFrame, hempty, Call.pure_def]

/-- This body is never woken, by no leaf. -/
theorem Pending.resumes (b : Pending D E) : Body.Resumes b := by
  have hsuspended : ∀ b : Pending D E, Suspended Body.pollFrame none b :=
    fun b => ⟨fun _ => True, trivial, fun _ _ => .again trivial⟩
  exact ⟨fun _ => True, trivial, fun b _ => .pending [] trivial (hsuspended b)⟩

/-! ## Chain -/

namespace Chain

variable [Body A D E₁] [Body B D E₂]

/-- The states of a chain of bodies that resume. -/
def Resumable : Chain A B → Prop
  | .first a (some b) => Body.Resumes a ∧ Body.Resumes b
  | .first _ none => False
  | .second b _ => Body.Resumes b
  | .finished => True

variable [Into E₁ E₂]

theorem resumes_second {b : B} (hb : Body.Resumes b) (ta : Option HeaderMap) :
    Call.Resumes Body.pollFrame Resumable (Body.pollFrame (.second b ta : Chain A B)) := by
  refine (passes_second ta).resumes hb (fun _ b _ hb => hb) fun _ x b _ hb => ?_
  rcases x with _ | (err | (d | map))
  · exact .ready trivial
  · exact .ready trivial
  · exact .ready hb
  · exact .ready trivial

theorem resumes {a : A} {b : B} (ha : Body.Resumes a) (hb : Body.Resumes b) :
    Body.Resumes (Chain.new a b) := by
  refine ⟨Resumable, ⟨ha, hb⟩, ?_⟩
  rintro (⟨a, _ | b⟩ | ⟨b, ta⟩ | _) hc
  · exact hc.elim
  · refine (passes_first (some b)).resumes hc.1 (fun _ a _ ha => ⟨ha, hc.2⟩) fun _ x a _ ha => ?_
    rcases x with _ | (err | (d | map))
    · exact resumes_second hc.2 none
    · exact .ready trivial
    · exact .ready ⟨ha, hc.2⟩
    · exact resumes_second hc.2 (some map)
  · exact resumes_second hc ta
  · exact .ready trivial

end Chain

/-! ## WithTrailers -/

namespace WithTrailers

variable [Body B D E] [Future F (Option (Except E HeaderMap))]

/-- The states of a body and a future that resume. -/
def Resumable : WithTrailers B F → Prop
  | .pollBody b (some f) => Body.Resumes b ∧ Support.Resumes Future.poll f
  | .pollBody _ none => False
  | .pollTrailers f _ => Support.Resumes Future.poll f
  | .done => True

theorem resumes_trailers {f : F} (hf : Support.Resumes Future.poll f) (prev : Option HeaderMap) :
    Call.Resumes Body.pollFrame Resumable
      (Body.pollFrame (.pollTrailers f prev : WithTrailers B F)) := by
  refine (passes_trailers prev).resumes hf (fun _ f _ hf => hf) fun _ x f _ hf => .ready ?_
  rcases x with _ | (err | map)
  · cases prev with
    | none => exact hf
    | some prev => trivial
  · exact hf
  · cases prev with
    | none => trivial
    | some prev => trivial

theorem resumes {b : B} {f : F} (hb : Body.Resumes b) (hf : Support.Resumes Future.poll f) :
    Body.Resumes (WithTrailers.new b f) := by
  refine ⟨Resumable, ⟨hb, hf⟩, ?_⟩
  rintro (⟨b, _ | f⟩ | ⟨f, prev⟩ | _) hw
  · exact hw.elim
  · refine (passes_body (some f)).resumes hw.1 (fun _ b _ hb => ⟨hb, hw.2⟩) fun _ x b _ hb => ?_
    rcases x with _ | (err | (d | map))
    · exact resumes_trailers hw.2 none
    · exact .ready ⟨hb, hw.2⟩
    · exact .ready ⟨hb, hw.2⟩
    · exact resumes_trailers hw.2 (some map)
  · exact resumes_trailers hw prev
  · exact .ready trivial

end WithTrailers

/-! ## Fuse -/

namespace Fuse

variable [Body B D E]

/-- A fused body that resumes, or is dropped. -/
def Resumable : Fuse B → Prop
  | ⟨some b⟩ => Body.Resumes b
  | ⟨none⟩ => True

theorem resumable_drop {b : B} (hb : Body.Resumes b) (drop : Bool) :
    Resumable (⟨if drop then none else some b⟩ : Fuse B) := by
  cases drop with
  | false => exact hb
  | true => trivial

theorem resumes {b : B} (hb : Body.Resumes b) : Body.Resumes (Fuse.new b) := by
  refine ⟨Resumable, resumable_drop hb _, ?_⟩
  rintro ⟨_ | b⟩ hw
  · exact .ready trivial
  · exact passes.resumes hw (fun _ b _ hb => hb) fun _ _ b _ hb => .ready (resumable_drop hb _)

end Fuse

/-! ## TryFutureBody -/

namespace TryFutureBody

variable [Body B D E] [Future F (Except E₁ B)] [Into E₁ E]

/-- The states of a future that resumes and yields bodies that resume. -/
def Resumable : TryFutureBody F B → Prop
  | .future f => Support.Resumes Future.poll f ∧
      ∀ (b : B) f', Awaits Future.Steps f (.ok b) f' → Body.Resumes b
  | .body b => Body.Resumes b
  | .failed => True

theorem resumes_body {b : B} (hb : Body.Resumes b) :
    Call.Resumes Body.pollFrame Resumable (Body.pollFrame (.body b : TryFutureBody F B)) :=
  (relays_body.passes ()).resumes hb (fun _ _ _ hb => hb) fun _ _ _ _ hb => .ready hb

theorem resumes {f : F} (hf : Support.Resumes Future.poll f)
    (hyields : ∀ (b : B) f', Awaits Future.Steps f (.ok b) f' → Body.Resumes b) :
    Body.Resumes (TryFutureBody.new f : TryFutureBody F B) := by
  refine ⟨Resumable, ⟨hf, hyields⟩, ?_⟩
  rintro (f | b | _) hw
  · refine passes_future.resumes hw.1 (fun t f' hpoll hf => ⟨hf, fun b f'' hawait => ?_⟩)
      fun t x f' hpoll _ => ?_
    · exact hw.2 b f'' (.pending hpoll hawait)
    · rcases x with err | b
      · exact .ready trivial
      · exact resumes_body (hw.2 b f' (.ready hpoll))
  · exact resumes_body hw
  · exact .ready trivial

end TryFutureBody

end Rules

/-! ## Expressions -/

section Expressions

variable [Foreign] {B D E : Type} [Buf D] [Body B D E] {b : B} {ls : List ℕ}

theorem Laid.resumes (h : Laid b ls) : Body.Resumes b := by
  induction h with
  | probe leaf b => exact .of_leaf Probe.ofLeaf (⟨leaf, b⟩ : Probe _)
  | empty D => exact .of_never_pending (by rintro _ _ _ ⟨⟩) _
  | full data => exact .of_never_pending (by rintro _ _ _ ⟨⟩) _
  | string s => exact Str.resumes s
  | errorBody D error => exact .of_never_pending (by rintro ⟨_ | _⟩ _ _ ⟨⟩) _
  | pending D E => exact Pending.resumes _
  | collected c =>
      exact .of_never_pending (by rintro ⟨⟨_ | _⟩, _ | _⟩ _ _ ⟨⟩) c
  | chain _ _ iha ihb => exact Chain.resumes iha ihb
  | withTrailers leaf f _ ih =>
      exact WithTrailers.resumes ih (.of_leaf Probe.future_ofLeaf ⟨leaf, f⟩)
  | limited limit _ ih => exact Limited.relays.resumes ih limit
  | fuse _ ih => exact Fuse.resumes ih
  | mapFrame f _ ih => exact MapFrame.relays.resumes ih f
  | mapErr f _ ih => exact MapErr.relays.resumes ih f
  | inspectFrame f _ ih => exact InspectFrame.relays.resumes ih f
  | inspectErr f _ ih => exact InspectErr.relays.resumes ih f
  | left R _ ih => exact Either.relays_left.resumes ih ()
  | right L _ ih => exact Either.relays_right.resumes ih ()
  | tryFuture leaf f _ ih =>
      refine TryFutureBody.resumes (.of_leaf Probe.future_ofLeaf ⟨leaf, f⟩) fun b f' hawait => ?_
      obtain ⟨f'', hinner, -⟩ := Probe.future_awaits_iff.mp hawait
      exact ih b f'' hinner
  | held hw _ ih => exact .of_indistinct (Indistinct.symm hw.same) ih
  | bodyStream _ ih => exact BodyStream.relays.resumes ih ()

end Expressions

end HttpBody
