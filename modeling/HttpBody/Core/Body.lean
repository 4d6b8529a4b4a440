import HttpBody.Core.Buf
import HttpBody.Core.Frame
import HttpBody.Support.Await
import Mathlib.Algebra.BigOperators.Group.List.Basic
import Mathlib.Algebra.GroupWithZero.Nat

/-!
# The body trait

Bodies, futures, streams and closures are state machines: a method that takes
`&mut self` returns the new state together with its result.
-/

namespace HttpBody

open Support

variable [Foreign]

/-- The trait `Body`.  `is_end_stream` and `size_hint` have the defaults of the
source. -/
class Body (B : Type) (D E : outParam Type) where
  pollFrame : B → Call (PollFrame D E × B)
  isEndStream : B → Bool := fun _ => false
  sizeHint : Arith → B → Except Stop SizeHint := fun _ _ => .ok .new

/-- `std::future::Future`. -/
class Future (F : Type) (O : outParam Type) where
  poll : F → Call (Poll O × F)

/-- `futures_core::Stream`. -/
class Stream (S : Type) (I : outParam Type) where
  pollNext : S → Call (Poll (Option I) × S)

/-- A closure of type `FnMut(α) -> β`, which may change what it captured.  Closures
return: one that panics is outside this development. -/
class FnMut (F : Type) (α : Type) (β : outParam Type) where
  call : F → α → β × F

/-- A closure that captured nothing mutable. -/
instance FnMut.function (α β : Type) : FnMut (α → β) α β :=
  ⟨fun f a => (f a, f)⟩

/-- The calls of `poll_frame` that return. -/
abbrev Body.Steps {B D E : Type} [Body B D E] : StepRel B (Item D E) :=
  Call.steps Body.pollFrame

/-- The calls of `poll` that return. -/
abbrev Future.Steps {F O : Type} [Future F O] : StepRel F O :=
  Call.steps Future.poll

/-- What a body shows between two calls: whether it says that its end has been
reached, and its size hint. -/
def Body.look {B D E : Type} [Body B D E] (ar : Arith) (b : B) : Bool × Except Stop SizeHint :=
  (Body.isEndStream b, Body.sizeHint ar b)

/-! ## The data of a run -/

section Data

variable {D E : Type} [Buf D]

/-- The number of data bytes in an answer. -/
def Item.dataLen : Item D E → ℕ
  | .data d => Buf.remaining d
  | _ => 0

/-- The number of data bytes in a result of `poll_frame`. -/
def dataLen : PollFrame D E → ℕ
  | .pending => 0
  | .ready r => r.dataLen

/-- The number of data bytes in the results of a run. -/
def dataTotal (rs : List (PollFrame D E)) : ℕ :=
  (rs.map dataLen).sum

@[simp] theorem dataTotal_nil : dataTotal ([] : List (PollFrame D E)) = 0 := rfl

@[simp] theorem dataTotal_cons (r : PollFrame D E) (rs : List (PollFrame D E)) :
    dataTotal (r :: rs) = dataLen r + dataTotal rs := by
  simp [dataTotal]

@[simp] theorem dataTotal_append (rs qs : List (PollFrame D E)) :
    dataTotal (rs ++ qs) = dataTotal rs + dataTotal qs := by
  simp [dataTotal]

@[simp] theorem dataLen_pending : dataLen (.pending : PollFrame D E) = 0 := rfl

@[simp] theorem dataLen_finish :
    dataLen (.ready none : PollFrame D E) = 0 := rfl

@[simp] theorem dataLen_data (d : D) :
    dataLen (.ready (.data d) : PollFrame D E) = Buf.remaining d := rfl

@[simp] theorem dataLen_trailers (map : HeaderMap) :
    dataLen (.ready (.trailers map) : PollFrame D E) = 0 := rfl

@[simp] theorem dataLen_error (e : E) :
    dataLen (.ready (.error e) : PollFrame D E) = 0 := rfl

end Data

/-! ## The contract of a body -/

section Contract

variable {B D E : Type} [Body B D E]

/-- Polled on, `b` keeps returning `Ready(None)`. -/
def Body.Ended (b : B) : Prop :=
  Stays Body.Steps (.ready none) (fun _ => True) b

/-- Polled on, `b` keeps returning `Ready(None)` and keeps saying that the end
of the stream has been reached. -/
def Body.EndedStream (b : B) : Prop :=
  Stays Body.Steps (.ready none) (fun b : B => Body.isEndStream b = true) b

/-- In every reachable state, `is_end_stream` is only true at the end, and
stays true there. -/
def Body.EndStreamSound (b : B) : Prop :=
  Always Body.Steps
    (fun b : B => Body.isEndStream b = true → Body.EndedStream b) b

/-- Polled up to its first terminal answer, `b` gives the results `rs`, which
end it without an error and with the trailers `ta`. -/
def Body.EndsWith (b : B) (rs : List (PollFrame D E)) (ta : Option HeaderMap) :
    Prop :=
  ∃ pre x b', rs = pre ++ [.ready x] ∧ (∀ r ∈ pre, Item.InProgress r) ∧
    Item.Ends x ta ∧ Runs Body.Steps b rs b'

namespace Body.EndsWith

variable {b b₁ : B} {t : List Event} {r : PollFrame D E} {rs : List (PollFrame D E)} {x : Item D E}
  {ta : Option HeaderMap}

theorem single (hstep : Body.Steps b t (.ready x) b₁) (hx : Item.Ends x ta) :
    Body.EndsWith b [.ready x] ta :=
  ⟨[], x, b₁, rfl, by simp, hx, .single hstep⟩

theorem cons (hstep : Body.Steps b t r b₁) (hr : Item.InProgress r)
    (h : Body.EndsWith b₁ rs ta) : Body.EndsWith b (r :: rs) ta := by
  obtain ⟨pre, x, b', rfl, hpre, hends, hrun⟩ := h
  refine ⟨r :: pre, x, b', rfl, ?_, hends, .cons hstep hrun⟩
  intro q hq
  rcases List.mem_cons.mp hq with rfl | hq
  · exact hr
  · exact hpre q hq

/-- The first answer of a run that ends a body. -/
theorem first (h : Body.EndsWith b rs ta) : ∃ t r b₁, Body.Steps b t r b₁ ∧
    ((Item.InProgress r ∧ ∃ rs', rs = r :: rs' ∧ Body.EndsWith b₁ rs' ta) ∨
      ∃ x, r = .ready x ∧ Item.Ends x ta ∧ rs = [r]) := by
  obtain ⟨pre, x, b', rfl, hpre, hends, hrun⟩ := h
  rcases pre with _ | ⟨r, pre⟩
  · obtain ⟨t, b₁, hstep, -⟩ := runs_cons_iff.mp hrun
    exact ⟨t, _, b₁, hstep, .inr ⟨x, rfl, hends, rfl⟩⟩
  · obtain ⟨t, b₁, hstep, hrest⟩ := runs_cons_iff.mp hrun
    have hlater : Body.EndsWith b₁ (pre ++ [.ready x]) ta :=
      ⟨pre, x, b', rfl, fun q hq => hpre q (List.mem_cons_of_mem _ hq), hends, hrest⟩
    exact ⟨t, r, b₁, hstep, .inl ⟨hpre r List.mem_cons_self, _, rfl, hlater⟩⟩

end Body.EndsWith

theorem Body.EndedStream.ended {b : B} (h : Body.EndedStream b) :
    Body.Ended b :=
  h.mono fun _ _ => trivial

variable [Buf D]

/-- A run that reached the end of the body without an error. -/
def Complete (rs : List (PollFrame D E)) : Prop :=
  .ready none ∈ rs ∧ ∀ e, .ready (.error e) ∉ rs

/-- The size hint of `b` does not panic, its bounds are in order, and they
bound the data of every complete run from `b`. -/
def Body.HintOk (b : B) : Prop :=
  ∃ hint, Body.sizeHint .exact b = .ok hint ∧ hint.WellFormed ∧
    ∀ ⦃rs b'⦄, Runs Body.Steps b rs b' → Complete rs →
      hint.Contains (dataTotal rs)

/-- The size hint is right in every reachable state. -/
def Body.HintSound (b : B) : Prop :=
  Always Body.Steps (fun b : B => Body.HintOk b) b

/-- The documented contract of the trait: sound hints, nothing after trailers
and nothing after the end. -/
structure Body.Contract (b : B) : Prop where
  hint : Body.HintSound b
  endStream : Body.EndStreamSound b
  trailers : Always Body.Steps (fun b : B => ∀ ⦃t map b'⦄,
    Body.Steps b t (.ready (.trailers map)) b' → Body.Ended b') b
  finish : Always Body.Steps (fun b : B => ∀ ⦃t b'⦄,
    Body.Steps b t (.ready none) b' → Body.Ended b') b

end Contract

/-! ## Observed leaves -/

instance Probe.instBody {B D E : Type} [Body B D E] : Body (Probe B) D E where
  pollFrame p := Call.observe p.leaf Item.isTerminal do
    let (r, b) ← Body.pollFrame p.inner
    return (r, ⟨p.leaf, b⟩)
  isEndStream p := Body.isEndStream p.inner
  sizeHint ar p := Body.sizeHint ar p.inner

instance Probe.instFuture {F O : Type} [Future F O] : Future (Probe F) O where
  poll p := Call.observe p.leaf (fun _ => true) do
    let (r, f) ← Future.poll p.inner
    return (r, ⟨p.leaf, f⟩)

/-- What an observed body shows of a result. -/
def Item.event {D E : Type} (leaf : ℕ) (r : PollFrame D E) : Event :=
  ⟨leaf, r.outcome Item.isTerminal⟩

section Probe

variable {B D E F O : Type} [Body B D E] [Future F O]

theorem Probe.ofLeaf (p : Probe B) : Call.OfLeaf Probe.leaf p.leaf (Body.pollFrame p) :=
  .probe p.leaf _ _

omit [Foreign] in
theorem Probe.future_ofLeaf (p : Probe F) : Call.OfLeaf Probe.leaf p.leaf (Future.poll p) :=
  .probe p.leaf _ _

/-- An observed body stops where the body does. -/
theorem Probe.stops {b : B} {t : List Event} {stop : Stop}
    (h : Body.pollFrame b = ⟨t, .error stop⟩) (leaf : ℕ) :
    Body.pollFrame (⟨leaf, b⟩ : Probe B) = ⟨[⟨leaf, .stopped⟩], .error stop⟩ := by
  simp only [Body.pollFrame, Call.observe]
  rw [h]
  rfl

omit [Foreign] in
theorem Probe.future_stops {f : F} {t : List Event} {stop : Stop}
    (h : Future.poll f = ⟨t, .error stop⟩) (leaf : ℕ) :
    Future.poll (⟨leaf, f⟩ : Probe F) = ⟨[⟨leaf, .stopped⟩], .error stop⟩ := by
  simp only [Future.poll, Call.observe]
  rw [h]
  rfl

/-- An observed body answers as the body does. -/
theorem Probe.step_cases {leaf : ℕ} {b : B} {t : List Event} {r : PollFrame D E}
    {q : Probe B} (h : Body.Steps (⟨leaf, b⟩ : Probe B) t r q) :
    ∃ u b', Body.Steps b u r b' ∧ t = [Item.event leaf r] ∧ q = ⟨leaf, b'⟩ := by
  simp only [Call.steps, Body.pollFrame, Call.observe] at h ⊢
  rcases hb : Body.pollFrame b with ⟨u, s | ⟨r', b'⟩⟩
  · simp [hb] at h
  · simp only [hb, Call.mk_ok_bind, Call.after_pure, Call.mk.injEq, Except.ok.injEq,
      Prod.mk.injEq] at h
    obtain ⟨rfl, rfl, rfl⟩ := h
    exact ⟨u, b', rfl, rfl, rfl⟩

theorem Probe.step {b b' : B} {u : List Event} {r : PollFrame D E}
    (leaf : ℕ) (h : Body.Steps b u r b') :
    Body.Steps (⟨leaf, b⟩ : Probe B) [Item.event leaf r] r ⟨leaf, b'⟩ := by
  simp only [Call.steps] at h
  simp only [Call.steps, Body.pollFrame, Call.observe, h]
  rfl

omit [Foreign] in
/-- An observed future answers as the future does. -/
theorem Probe.future_step_cases {leaf : ℕ} {f : F} {t : List Event} {r : Poll O}
    {q : Probe F} (h : Future.Steps (⟨leaf, f⟩ : Probe F) t r q) :
    ∃ u f', Future.Steps f u r f' ∧ t = [⟨leaf, r.outcome fun _ => true⟩] ∧
      q = ⟨leaf, f'⟩ := by
  simp only [Call.steps, Future.poll, Call.observe] at h ⊢
  rcases hf : Future.poll f with ⟨u, s | ⟨r', f'⟩⟩
  · simp [hf] at h
  · simp only [hf, Call.mk_ok_bind, Call.after_pure, Call.mk.injEq, Except.ok.injEq,
      Prod.mk.injEq] at h
    obtain ⟨rfl, rfl, rfl⟩ := h
    exact ⟨u, f', rfl, rfl, rfl⟩

omit [Foreign] in
theorem Probe.future_step {f f' : F} {u : List Event} {r : Poll O}
    (leaf : ℕ) (h : Future.Steps f u r f') :
    Future.Steps (⟨leaf, f⟩ : Probe F) [⟨leaf, r.outcome fun _ => true⟩] r
      ⟨leaf, f'⟩ := by
  simp only [Call.steps] at h
  simp only [Call.steps, Future.poll, Call.observe, h]
  rfl

end Probe

end HttpBody
