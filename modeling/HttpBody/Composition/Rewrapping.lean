import HttpBody.Core.HeaderTable
import HttpBody.Support.Lifting
import HttpBody.Util.Chain
import HttpBody.Util.Collected
import HttpBody.Util.DataStream
import HttpBody.Util.Fuse
import HttpBody.Util.Holders
import HttpBody.Util.Limited
import HttpBody.Util.TryFuture
import HttpBody.Util.WithTrailers
import HttpBody.Util.Wrappers

/-!
# References, boxes, messages and observers are transparent

A body may be held by a reference, a box, a pinned pointer, a request, a response or a
boxed trait object, or be observed by a closure, anywhere in an expression: no caller can
tell, call by call.  It cannot tell the leaves that are polled, the answers, the hints in
between, or the panics.  The adapters between bodies and streams only lose the hints.
-/

namespace HttpBody

open Support

section Transparency

variable [Foreign]

section Same

variable {B B' D E : Type} [Body B D E] [Body B' D E]

/-- What a body says between two calls, in every reading of the additions. -/
def Body.hints (b : B) : Bool × (Arith → Except Stop SizeHint) :=
  (Body.isEndStream b, fun ar => Body.sizeHint ar b)

/-- No caller can tell `b` from `b'`. -/
def Body.Same (b : B) (b' : B') : Prop :=
  Indistinct Body.pollFrame Body.pollFrame Eq Body.hints Body.hints b b'

/-- No caller can tell `f` from `f'`, up to `V` in what they resolve to. -/
def Future.Same {F F' O O' : Type} [Future F O] [Future F' O'] (V : O → O' → Prop) (f : F)
    (f' : F') : Prop :=
  Indistinct Future.poll Future.poll V (fun _ => ()) (fun _ => ()) f f'

theorem Body.Same.isEndStream {b : B} {b' : B'} (h : Body.Same b b') :
    Body.isEndStream b = Body.isEndStream b' :=
  congrArg Prod.fst h.shows

theorem Body.Same.sizeHint {b : B} {b' : B'} (h : Body.Same b b') (ar : Arith) :
    Body.sizeHint ar b = Body.sizeHint ar b' :=
  congrFun (congrArg Prod.snd h.shows) ar

theorem Body.hints_eq {b : B} {b' : B'} (hend : Body.isEndStream b = Body.isEndStream b')
    (hhint : ∀ ar, Body.sizeHint ar b = Body.sizeHint ar b') : Body.hints b = Body.hints b' :=
  Prod.ext hend (funext hhint)

/-- Wrappers that forward every call; `R` says which body a wrapper holds. -/
theorem Body.Same.of_forward {W : Type} [Body W D E] (R : W → B → Prop)
    (hcall : ∀ w b, R w b → ∃ hold : B → W, Body.pollFrame w = forward hold b ∧
      ∀ b, R (hold b) b)
    (hhints : ∀ w b, R w b → Body.hints w = Body.hints b) {w : W} {b : B} (h : R w b) :
    Body.Same w b := by
  refine ⟨R, h, fun w b hR => ?_, hhints⟩
  obtain ⟨hold, hpoll, hhold⟩ := hcall w b hR
  rw [hpoll, forward]
  rcases Body.pollFrame b with ⟨t, e | ⟨r, b₁⟩⟩
  · exact .stops t e
  · rw [Call.mk_ok_bind, Call.after_pure]
    exact .returns t (.of_eq r (hhold b₁))

/-- Wrappers that are built around the body. -/
theorem Body.Same.of_mk {W : Type} [Body W D E] (mk : B → W)
    (hcall : ∀ b, Body.pollFrame (mk b) = forward mk b)
    (hhints : ∀ b, Body.hints (mk b) = Body.hints b) (b : B) : Body.Same (mk b) b := by
  refine .of_forward (fun w b => w = mk b) ?_ ?_ rfl
  · rintro _ b rfl
    exact ⟨mk, hcall b, fun _ => rfl⟩
  · rintro _ b rfl
    exact hhints b

end Same

/-! ## Congruence -/

section Congruence

variable {A A' B B' D E E₁ E₂ : Type}

namespace Chain

variable [Body A D E₁] [Body A' D E₁] [Body B D E₂] [Body B' D E₂] [Into E₁ E₂]

/-- Chains of the same bodies. -/
inductive SameStates : Chain A B → Chain A' B' → Prop where
  | first {a a' b b'} : Body.Same a a' → Body.Same b b' →
      SameStates (.first a (some b)) (.first a' (some b'))
  | second {b b'} (ta : Option HeaderMap) : Body.Same b b' →
      SameStates (.second b ta) (.second b' ta)
  | finished : SameStates .finished .finished

omit [Into E₁ E₂] in
theorem lifts_second {b : B} {b' : B'} (hb : Body.Same b b') (ta : Option HeaderMap) :
    Call.Lifts (Answers Eq SameStates) (pollSecond b ta : Call (PollFrame D E₂ × Chain A B))
      (pollSecond b' ta : Call (PollFrame D E₂ × Chain A' B')) := by
  refine hb.call.bind fun p q hanswer => ?_
  cases hanswer with
  | pending hnext => exact .pure (.pending (.second ta hnext))
  | @ready x _ b₁ b₁' hV hnext =>
      subst hV
      rcases x with _ | (err | (d | map))
      · exact .pure (.ready rfl .finished)
      · exact .pure (.ready rfl .finished)
      · exact .pure (.ready rfl (.second ta hnext))
      · exact .pure (.ready rfl .finished)

theorem lifts {c : Chain A B} {c' : Chain A' B'} (h : SameStates c c') :
    Call.Lifts (Answers Eq SameStates) (Body.pollFrame c) (Body.pollFrame c') := by
  cases h with
  | first ha hb =>
      refine ha.call.bind fun p q hanswer => ?_
      cases hanswer with
      | pending hnext => exact .pure (.pending (.first hnext hb))
      | @ready x _ a₁ a₁' hV hnext =>
          subst hV
          rcases x with _ | (err | (d | map))
          · exact lifts_second hb none
          · exact .pure (.ready rfl .finished)
          · exact .pure (.ready rfl (.first hnext hb))
          · exact lifts_second hb (some map)
  | second ta hb => exact lifts_second hb ta
  | finished => exact .pure (.ready rfl .finished)

theorem same {a : A} {a' : A'} {b : B} {b' : B'} (ha : Body.Same a a') (hb : Body.Same b b') :
    Body.Same (Chain.new a b) (Chain.new a' b') := by
  refine ⟨SameStates, .first ha hb, fun _ _ h => lifts h, fun c c' h => ?_⟩
  cases h with
  | first ha hb =>
      refine Body.hints_eq rfl fun ar => ?_
      simp only [Body.sizeHint, sizeHint, ha.sizeHint ar, hb.sizeHint ar]
  | second ta hb => exact Body.hints_eq rfl fun ar => hb.sizeHint ar
  | finished => rfl

end Chain

namespace WithTrailers

variable {F F' : Type} [Body B D E] [Body B' D E] [Future F (Option (Except E HeaderMap))]
  [Future F' (Option (Except E HeaderMap))]

/-- The same bodies with the same futures. -/
inductive SameStates : WithTrailers B F → WithTrailers B' F' → Prop where
  | pollBody {b b' f f'} : Body.Same b b' → Future.Same Eq f f' →
      SameStates (.pollBody b (some f)) (.pollBody b' (some f'))
  | pollTrailers {f f'} (prev : Option HeaderMap) : Future.Same Eq f f' →
      SameStates (.pollTrailers f prev) (.pollTrailers f' prev)
  | done : SameStates .done .done

theorem answers_resolved {f : F} {f' : F'} (hf : Future.Same Eq f f') (prev : Option HeaderMap)
    (x : Option (Except E HeaderMap)) :
    Answers Eq (SameStates (D := D) (E := E) (B := B) (F := F))
      (.ready (resolved f prev x : Item D E × WithTrailers B F).1,
        (resolved f prev x : Item D E × WithTrailers B F).2)
      (.ready (resolved f' prev x : Item D E × WithTrailers B' F').1,
        (resolved f' prev x : Item D E × WithTrailers B' F').2) := by
  rcases x with _ | (err | map)
  · cases prev with
    | none => exact .ready rfl (.pollTrailers none hf)
    | some map => exact .ready rfl .done
  · exact .ready rfl (.pollTrailers prev hf)
  · cases prev with
    | none => exact .ready rfl .done
    | some prev => exact .ready rfl .done

theorem lifts_trailers {f : F} {f' : F'} (hf : Future.Same Eq f f') (prev : Option HeaderMap) :
    Call.Lifts (Answers Eq SameStates)
      (pollTrailersArm f prev : Call (PollFrame D E × WithTrailers B F))
      (pollTrailersArm f' prev : Call (PollFrame D E × WithTrailers B' F')) := by
  refine hf.call.bind fun p q hanswer => ?_
  cases hanswer with
  | pending hnext => exact .pure (.pending (.pollTrailers prev hnext))
  | @ready x _ f₁ f₁' hV hnext =>
      subst hV
      exact .pure (answers_resolved hnext prev x)

theorem lifts {w : WithTrailers B F} {w' : WithTrailers B' F'} (h : SameStates w w') :
    Call.Lifts (Answers Eq SameStates) (Body.pollFrame w) (Body.pollFrame w') := by
  cases h with
  | pollBody hb hf =>
      refine hb.call.bind fun p q hanswer => ?_
      cases hanswer with
      | pending hnext => exact .pure (.pending (.pollBody hnext hf))
      | @ready x _ b₁ b₁' hV hnext =>
          subst hV
          rcases x with _ | (err | (d | map))
          · exact lifts_trailers hf none
          · exact .pure (.ready rfl (.pollBody hnext hf))
          · exact .pure (.ready rfl (.pollBody hnext hf))
          · exact lifts_trailers hf (some map)
  | pollTrailers prev hf => exact lifts_trailers hf prev
  | done => exact .pure (.ready rfl .done)

theorem same {b : B} {b' : B'} {f : F} {f' : F'} (hb : Body.Same b b')
    (hf : Future.Same Eq f f') : Body.Same (WithTrailers.new b f) (WithTrailers.new b' f') := by
  refine ⟨SameStates, .pollBody hb hf, fun _ _ h => lifts h, fun w w' h => ?_⟩
  cases h with
  | pollBody hb hf => exact Body.hints_eq rfl fun ar => hb.sizeHint ar
  | pollTrailers prev hf => rfl
  | done => rfl

end WithTrailers

namespace Fuse

variable [Body B D E] [Body B' D E]

/-- The same bodies, dropped or not. -/
inductive SameStates : Fuse B → Fuse B' → Prop where
  | inner {b b'} : Body.Same b b' → SameStates ⟨some b⟩ ⟨some b'⟩
  | fused : SameStates ⟨none⟩ ⟨none⟩

theorem SameStates.drop {b : B} {b' : B'} (hb : Body.Same b b') {drop drop' : Bool}
    (h : drop = drop') :
    SameStates (⟨if drop then none else some b⟩ : Fuse B) ⟨if drop' then none else some b'⟩ := by
  subst h
  cases drop with
  | false => exact .inner hb
  | true => exact .fused

theorem eos_eq {b : B} {b' : B'} (hb : Body.Same b b') (r : PollFrame D E) :
    eos b r = eos b' r := by
  rcases r with _ | (_ | (err | frame))
  · rfl
  · rfl
  · rfl
  · exact hb.isEndStream

theorem same {b : B} {b' : B'} (hb : Body.Same b b') :
    Body.Same (Fuse.new b) (Fuse.new b') := by
  refine ⟨SameStates, .drop hb hb.isEndStream, fun w w' h => ?_, fun w w' h => ?_⟩
  · cases h with
    | inner hb =>
        refine hb.call.bind fun p q hanswer => ?_
        obtain ⟨r, b₁⟩ := p
        obtain ⟨r', b₁'⟩ := q
        obtain ⟨rfl, hnext⟩ := hanswer.eq
        exact .pure (.of_eq r (.drop hnext (eos_eq hnext r)))
    | fused => exact .pure (.ready rfl .fused)
  · cases h with
    | inner hb => exact Body.hints_eq rfl fun ar => hb.sizeHint ar
    | fused => rfl

end Fuse

/-- Both futures fail with the same error, or they yield bodies related by `P`. -/
inductive Outcomes (P : B → B' → Prop) : Except E₁ B → Except E₁ B' → Prop where
  | ok {b b'} : P b b' → Outcomes P (.ok b) (.ok b')
  | error (err : E₁) : Outcomes P (.error err) (.error err)

namespace TryFutureBody

variable {F F' : Type} [Body B D E] [Body B' D E] [Future F (Except E₁ B)]
  [Future F' (Except E₁ B')] [Into E₁ E] {P : B → B' → Prop}

/-- Futures for the same bodies. -/
inductive SameStates (P : B → B' → Prop) : TryFutureBody F B → TryFutureBody F' B' → Prop where
  | future {f f'} : Future.Same (Outcomes P) f f' → SameStates P (.future f) (.future f')
  | body {b b'} : Body.Same b b' → SameStates P (.body b) (.body b')
  | failed : SameStates P .failed .failed

omit [Into E₁ E] in
theorem lifts_body {b : B} {b' : B'} (hb : Body.Same b b') :
    Call.Lifts (Answers Eq (SameStates P)) (pollBody b : Call (PollFrame D E × TryFutureBody F B))
      (pollBody b' : Call (PollFrame D E × TryFutureBody F' B')) := by
  refine hb.call.bind fun p q hanswer => ?_
  obtain ⟨r, b₁⟩ := p
  obtain ⟨r', b₁'⟩ := q
  obtain ⟨rfl, hnext⟩ := hanswer.eq
  exact .pure (.of_eq r (.body hnext))

theorem same (hP : ∀ b b', P b b' → Body.Same b b') {f : F} {f' : F'}
    (hf : Future.Same (Outcomes P) f f') :
    Body.Same (TryFutureBody.new f : TryFutureBody F B)
      (TryFutureBody.new f' : TryFutureBody F' B') := by
  refine ⟨SameStates P, .future hf, fun w w' h => ?_, fun w w' h => ?_⟩
  · cases h with
    | future hf =>
        refine hf.call.bind fun p q hanswer => ?_
        cases hanswer with
        | pending hnext => exact .pure (.pending (.future hnext))
        | ready hV hnext =>
            cases hV with
            | ok hb => exact lifts_body (hP _ _ hb)
            | error err => exact .pure (.ready rfl .failed)
    | body hb => exact lifts_body hb
    | failed => exact .pure (.ready rfl .failed)
  · cases h with
    | future hf => rfl
    | body hb => exact Body.hints_eq hb.isEndStream fun ar => hb.sizeHint ar
    | failed => rfl

end TryFutureBody

theorem Limited.hints_eq [Body B D E] [Body B' D E] [Buf D] [Into E BoxError] (remaining : ℕ)
    {b : B} {b' : B'} (h : Body.hints b = Body.hints b') :
    Body.hints (⟨remaining, b⟩ : Limited B) = Body.hints (⟨remaining, b'⟩ : Limited B') := by
  refine Body.hints_eq (congrArg Prod.fst h) fun ar => ?_
  have hhint : Body.sizeHint ar b = Body.sizeHint ar b' := congrFun (congrArg Prod.snd h) ar
  simp only [Body.sizeHint, sizeHint] at hhint ⊢
  rw [hhint]

end Congruence

/-! ## Wrappers that hold a body -/

/-- `Holds w b`: the wrapper `w` holds the body `b` and forwards every call to it. -/
inductive Holds : ∀ {W B D E : Type} [Body W D E] [Body B D E], W → B → Prop where
  | refMut {B D E : Type} [Body B D E] (b : B) : Holds (⟨b⟩ : RefMut B) b
  | box {B D E : Type} [Body B D E] (b : B) : Holds (⟨b⟩ : Box B) b
  | pin {P B D E : Type} [Body B D E] [DerefMut P B] (p : P) :
      Holds (⟨p⟩ : Pin P) (DerefMut.deref p)
  | request {Parts B D E : Type} [Body B D E] (head : Parts) (b : B) :
      Holds (⟨head, b⟩ : Request Parts B) b
  | response {Parts B D E : Type} [Body B D E] (head : Parts) (b : B) :
      Holds (⟨head, b⟩ : Response Parts B) b
  | dyn {ι : Type} {T : ι → Type} {D E : Type} [∀ i, Body (T i) D E] (i : ι) (b : T i) :
      Holds (⟨i, b⟩ : DynBody T) b
  | boxed {ι : Type} {T : ι → Type} {D E : Type} [∀ i, Body (T i) D E] (b : BoxBody T) :
      Holds b b.inner
  | boxedUnsync {ι : Type} {T : ι → Type} {D E : Type} [∀ i, Body (T i) D E]
      (b : UnsyncBoxBody T) : Holds b b.inner

theorem Holds.same {W B D E : Type} [Body W D E] [Body B D E] {w : W} {b : B}
    (h : Holds w b) : Body.Same w b := by
  cases h with
  | refMut b => exact .of_mk RefMut.mk (fun _ => rfl) (fun _ => rfl) b
  | box b => exact .of_mk Box.mk (fun _ => rfl) (fun _ => rfl) b
  | pin p =>
      refine .of_forward (fun w b => DerefMut.deref w.pointer = b) ?_ ?_ rfl
      · rintro w _ rfl
        exact ⟨_, rfl, fun b => DerefMut.deref_assign w.pointer b⟩
      · rintro w _ rfl
        rfl
  | request head b => exact .of_mk (Request.mk head) (fun _ => rfl) (fun _ => rfl) b
  | response head b => exact .of_mk (Response.mk head) (fun _ => rfl) (fun _ => rfl) b
  | dyn i b => exact .of_mk (DynBody.mk i) (fun _ => rfl) (fun _ => rfl) b
  | boxed b => exact .of_mk BoxBody.mk (fun _ => rfl) (fun _ => rfl) b.inner
  | boxedUnsync b => exact .of_mk UnsyncBoxBody.mk (fun _ => rfl) (fun _ => rfl) b.inner

/-! ## Observers -/

section Observers

variable {B D E F : Type} [Body B D E]

theorem InspectFrame.onReady_answer [FnMut F (Frame D) Unit] (f : F) (x : Item D E) :
    (onReady f x).1 = x := by
  rcases x with _ | (_ | _) <;> rfl

theorem InspectErr.onReady_answer [FnMut F E Unit] (f : F) (x : Item D E) :
    (onReady f x).1 = x := by
  rcases x with _ | (_ | _) <;> rfl

theorem InspectFrame.same [FnMut F (Frame D) Unit] (f : F) (b : B) :
    Body.Same (InspectFrame.new b f) b :=
  .of_relays relays onReady_answer (fun _ _ => rfl) f b

theorem InspectErr.same [FnMut F E Unit] (f : F) (b : B) : Body.Same (InspectErr.new b f) b :=
  .of_relays relays onReady_answer (fun _ _ => rfl) f b

end Observers

/-! ## Expressions -/

/-- `Rewrapped b b'`: the two expressions differ only in what holds or observes their
parts. -/
inductive Rewrapped :
    ∀ {B B' D E : Type} [Buf D] [Body B D E] [Body B' D E], B → B' → Prop where
  | refl {B D E : Type} [Buf D] [Body B D E] (b : B) : Rewrapped b b
  | symm {B B' D E : Type} [Buf D] [Body B D E] [Body B' D E] {b : B} {b' : B'} :
      Rewrapped b b' → Rewrapped b' b
  | trans {B B' B'' D E : Type} [Buf D] [Body B D E] [Body B' D E] [Body B'' D E] {b : B}
      {b' : B'} {b'' : B''} : Rewrapped b b' → Rewrapped b' b'' → Rewrapped b b''
  | held {W B D E : Type} [Buf D] [Body W D E] [Body B D E] {w : W} {b : B} :
      Holds w b → Rewrapped w b
  | inspectedFrame {B F D E : Type} [Buf D] [Body B D E] [FnMut F (Frame D) Unit] (f : F)
      (b : B) : Rewrapped (InspectFrame.new b f) b
  | inspectedErr {B F D E : Type} [Buf D] [Body B D E] [FnMut F E Unit] (f : F) (b : B) :
      Rewrapped (InspectErr.new b f) b
  | chain {A A' B B' D E₁ E₂ : Type} [Buf D] [Body A D E₁] [Body A' D E₁] [Body B D E₂]
      [Body B' D E₂] [Into E₁ E₂] {a : A} {a' : A'} {b : B} {b' : B'} :
      Rewrapped a a' → Rewrapped b b' → Rewrapped (Chain.new a b) (Chain.new a' b')
  | withTrailers {B B' F F' D E : Type} [Buf D] [Body B D E] [Body B' D E]
      [Future F (Option (Except E HeaderMap))] [Future F' (Option (Except E HeaderMap))]
      {b : B} {b' : B'} {f : F} {f' : F'} : Rewrapped b b' → Future.Same Eq f f' →
      Rewrapped (WithTrailers.new b f) (WithTrailers.new b' f')
  | limited {B B' D E : Type} [Buf D] [Body B D E] [Body B' D E] [Into E BoxError] {b : B}
      {b' : B'} (limit : ℕ) : Rewrapped b b' →
      Rewrapped (Limited.new b limit) (Limited.new b' limit)
  | fuse {B B' D E : Type} [Buf D] [Body B D E] [Body B' D E] {b : B} {b' : B'} :
      Rewrapped b b' → Rewrapped (Fuse.new b) (Fuse.new b')
  | mapFrame {B B' F D D' E : Type} [Buf D] [Buf D'] [Body B D E] [Body B' D E]
      [FnMut F (Frame D) (Frame D')] {b : B} {b' : B'} (f : F) : Rewrapped b b' →
      Rewrapped (MapFrame.new b f) (MapFrame.new b' f)
  | mapErr {B B' F D E E' : Type} [Buf D] [Body B D E] [Body B' D E] [FnMut F E E'] {b : B}
      {b' : B'} (f : F) : Rewrapped b b' → Rewrapped (MapErr.new b f) (MapErr.new b' f)
  | inspectFrame {B B' F D E : Type} [Buf D] [Body B D E] [Body B' D E]
      [FnMut F (Frame D) Unit] {b : B} {b' : B'} (f : F) : Rewrapped b b' →
      Rewrapped (InspectFrame.new b f) (InspectFrame.new b' f)
  | inspectErr {B B' F D E : Type} [Buf D] [Body B D E] [Body B' D E] [FnMut F E Unit] {b : B}
      {b' : B'} (f : F) : Rewrapped b b' → Rewrapped (InspectErr.new b f) (InspectErr.new b' f)
  | left {L L' R R' D E₁ E₂ E₃ : Type} [Buf D] [Body L D E₁] [Body L' D E₁] [Body R D E₂]
      [Body R' D E₃] [Into E₁ BoxError] [Into E₂ BoxError] [Into E₃ BoxError] {l : L} {l' : L'} :
      Rewrapped l l' → Rewrapped (Either.left l : Either L R) (Either.left l' : Either L' R')
  | right {L L' R R' D E₁ E₂ E₃ : Type} [Buf D] [Body R D E₁] [Body R' D E₁] [Body L D E₂]
      [Body L' D E₃] [Into E₁ BoxError] [Into E₂ BoxError] [Into E₃ BoxError] {r : R} {r' : R'} :
      Rewrapped r r' → Rewrapped (Either.right r : Either L R) (Either.right r' : Either L' R')
  | tryFuture {F F' B B' D E E₁ : Type} [Buf D] [Body B D E] [Body B' D E]
      [Future F (Except E₁ B)] [Future F' (Except E₁ B')] [Into E₁ E] {f : F} {f' : F'}
      (P : B → B' → Prop) : Future.Same (Outcomes P) f f' →
      (∀ b b', P b b' → Rewrapped b b') →
      Rewrapped (TryFutureBody.new f : TryFutureBody F B)
        (TryFutureBody.new f' : TryFutureBody F' B')

section Rewrapped

variable {B B' D E : Type} [Buf D] [Body B D E] [Body B' D E] {b : B} {b' : B'}

theorem Rewrapped.same (h : Rewrapped b b') : Body.Same b b' := by
  induction h with
  | refl b => exact .refl Body.hints b
  | symm _ ih => exact Indistinct.symm ih
  | trans _ _ ih ih' => exact Indistinct.trans ih ih'
  | held h => exact h.same
  | inspectedFrame f b => exact InspectFrame.same f b
  | inspectedErr f b => exact InspectErr.same f b
  | chain _ _ iha ihb => exact Chain.same iha ihb
  | withTrailers _ hf ih => exact WithTrailers.same ih hf
  | limited limit _ ih =>
      exact .relay Limited.relays Limited.relays (fun n _ _ => Limited.hints_eq n) ih limit
  | fuse _ ih => exact Fuse.same ih
  | mapFrame f _ ih =>
      exact .relay MapFrame.relays MapFrame.relays
        (fun _ _ _ h => Body.hints_eq (congrArg Prod.fst h) fun _ => rfl) ih f
  | mapErr f _ ih => exact .relay MapErr.relays MapErr.relays (fun _ _ _ h => h) ih f
  | inspectFrame f _ ih =>
      exact .relay InspectFrame.relays InspectFrame.relays (fun _ _ _ h => h) ih f
  | inspectErr f _ ih => exact .relay InspectErr.relays InspectErr.relays (fun _ _ _ h => h) ih f
  | left _ ih => exact .relay Either.relays_left Either.relays_left (fun _ _ _ h => h) ih ()
  | right _ ih => exact .relay Either.relays_right Either.relays_right (fun _ _ _ h => h) ih ()
  | tryFuture P hf _ ih => exact TryFutureBody.same ih hf

omit [Buf D] in
theorem BodyDataStream.indistinct (h : Body.Same b b') :
    Indistinct (turn (B := B)) (turn (B := B')) Eq (fun _ => ()) (fun _ => ()) (new b) (new b') :=
  .relay relays relays (fun _ _ _ _ => rfl) h ()

theorem Collect.indistinct (h : Body.Same b b') :
    Indistinct (turn (T := B)) (turn (T := B')) Eq (fun me => me.collected)
      (fun me => me.collected) (new b) (new b') := by
  refine ⟨fun me me' => me.collected = me'.collected ∧ Body.Same me.body me'.body, ⟨rfl, h⟩, ?_,
    fun me me' hme => hme.1⟩
  rintro ⟨collected, b⟩ ⟨_, b'⟩ ⟨rfl, hb⟩
  rw [passes collected b, passes collected b', passing]
  refine hb.call.bind fun p q hanswer => ?_
  cases hanswer with
  | pending hnext => exact .pure (.pending ⟨rfl, hnext⟩)
  | @ready x _ b₁ b₁' hV hnext =>
      subst hV
      rcases x with _ | (err | frame)
      · cases collected with
        | none => exact .stops _ _
        | some collected => exact .pure (.ready rfl ⟨rfl, hnext⟩)
      · exact .pure (.ready rfl ⟨rfl, hnext⟩)
      · refine .bind (.refl (fun _ => rfl) (Call.unwrap collected)) ?_
        rintro collected _ rfl
        refine .bind (.refl (fun _ => rfl) (Call.lift (collected.pushFrame frame))) ?_
        rintro collected' _ rfl
        exact .pure (.ready rfl ⟨rfl, hnext⟩)

/-- Polled as a body, as a stream of data or to be collected, expressions that differ in
what holds or observes their parts make the same calls: they poll the same leaves and give
the same answers, hints and panics.  Frame by frame, they give the same answers. -/
theorem rewrapped_unobservable (h : Rewrapped b b') (ar : Arith) (n : ℕ) :
    Body.look ar b = Body.look ar b' ∧
      calls Body.pollFrame (Body.look ar) n b = calls Body.pollFrame (Body.look ar) n b' ∧
      (∀ fuel, calls (BodyDataStream.pollNext fuel) (fun _ => ()) n (.new b) =
        calls (BodyDataStream.pollNext fuel) (fun _ => ()) n (.new b')) ∧
      (∀ fuel, calls (Collect.poll fuel) (fun me => me.collected) n (.new b) =
        calls (Collect.poll fuel) (fun me => me.collected) n (.new b')) ∧
      ∀ rs, (∃ b₁, Combinators.Frame.Sessions b rs b₁) ↔
        ∃ b₁, Combinators.Frame.Sessions b' rs b₁ := by
  have hsame := h.same
  have hlook : ∀ {s : B} {u : B'}, Body.Same s u → Body.look ar s = Body.look ar u :=
    fun hsu => Prod.ext hsu.isEndStream (hsu.sizeHint ar)
  refine ⟨hlook hsame, ?_, fun fuel => ?_, fun fuel => ?_, fun rs => ?_⟩
  · have hindistinct : Indistinct Body.pollFrame Body.pollFrame Eq (Body.look ar) (Body.look ar)
        b b' := ⟨Body.Same, hsame, fun _ _ hsu => hsu.call, fun _ _ hsu => hlook hsu⟩
    exact hindistinct.calls_eq n
  · exact ((BodyDataStream.indistinct hsame).loop fuel).calls_eq n
  · exact ((Collect.indistinct hsame).loop fuel).calls_eq n
  · constructor
    · rintro ⟨b₁, hrun⟩
      obtain ⟨b₁', hrun', -⟩ := hsame.runs (Combinators.Frame.sessions_iff.mp hrun)
      exact ⟨b₁', Combinators.Frame.sessions_iff.mpr hrun'⟩
    · rintro ⟨b₁', hrun'⟩
      obtain ⟨b₁, hrun, -⟩ := hsame.symm.runs (Combinators.Frame.sessions_iff.mp hrun')
      exact ⟨b₁, Combinators.Frame.sessions_iff.mpr hrun⟩

end Rewrapped

end Transparency

/-- A boxed request and a reference, in a chain within a limit. -/
theorem rewrapped_unobservable_boxed :
    calls Body.pollFrame (Body.look .checked) 3
        (Limited.new (Chain.new
          (⟨⟨(), Full.new ⟨[1], by decide⟩⟩⟩ : Box (Request Unit (Full Bytes)))
          (⟨Full.new ⟨[2], by decide⟩⟩ : RefMut (Full Bytes))) 1) =
      calls Body.pollFrame (Body.look .checked) 3
        (Limited.new (Chain.new (Full.new (⟨[1], by decide⟩ : Bytes))
          (Full.new (⟨[2], by decide⟩ : Bytes))) 1) := by
  have hfirst : Rewrapped (⟨⟨(), Full.new ⟨[1], by decide⟩⟩⟩ : Box (Request Unit (Full Bytes)))
      (Full.new (⟨[1], by decide⟩ : Bytes)) := .trans (.held (.box _)) (.held (.request () _))
  have hsecond : Rewrapped (⟨Full.new ⟨[2], by decide⟩⟩ : RefMut (Full Bytes))
      (Full.new (⟨[2], by decide⟩ : Bytes)) := .held (.refMut _)
  exact (rewrapped_unobservable (.limited 1 (.chain hfirst hsecond)) .checked 3).2.1

end HttpBody
