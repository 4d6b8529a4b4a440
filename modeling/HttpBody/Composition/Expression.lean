import HttpBody.Util.Chain
import HttpBody.Util.Collected
import HttpBody.Util.Fuse
import HttpBody.Util.Leaves
import HttpBody.Util.Limited
import HttpBody.Util.TryFuture
import HttpBody.Util.WithTrailers
import HttpBody.Util.Wrappers

/-!
# Body expressions

A body expression is a nesting of the combinators over the leaf bodies of the
crate and over bodies of the user.  What is proved of every expression is
proved by induction on it, with one rule for each combinator.
-/

namespace HttpBody

open Support

/-- A property of bodies of any type. -/
abbrev BodyPred [Foreign] :=
  ∀ (B D E : Type) [Buf D] [Body B D E], B → Prop

/-- `Composed User b`: the body `b` is an expression whose leaves are bodies of
the crate and bodies with the property `User`. -/
inductive Composed [Foreign] (User : BodyPred) :
    ∀ {B D E : Type} [Buf D] [Body B D E], B → Prop where
  | user {B D E : Type} [Buf D] [Body B D E] {b : B} : User B D E b → Composed User b
  | empty (D : Type) [Buf D] : Composed User (Empty.new D)
  | full {D : Type} [Buf D] (data : D) : Composed User (Full.new data)
  | string (s : Str) : Composed User s
  | errorBody (D : Type) {E : Type} [Buf D] (error : E) :
      Composed User (ErrorBody.new D error)
  | pending (D E : Type) [Buf D] : Composed User (Pending.new D E)
  | collected {D : Type} [Buf D] (collected : Collected D) : Composed User collected
  | streamBody {S D E : Type} [Buf D] [Stream S (Except E (Frame D))] (stream : S) :
      Composed User (StreamBody.new stream)
  | chain {A B D E₁ E₂ : Type} [Buf D] [Body A D E₁] [Body B D E₂] [Into E₁ E₂]
      {a : A} {b : B} : Composed User a → Composed User b → Composed User (Chain.new a b)
  | withTrailers {T F D E : Type} [Buf D] [Body T D E]
      [Future F (Option (Except E HeaderMap))] {b : T} (trailers : F) :
      Composed User b → Composed User (WithTrailers.new b trailers)
  | limited {B D E : Type} [Buf D] [Body B D E] [Into E BoxError] {b : B} (limit : ℕ) :
      Composed User b → Composed User (Limited.new b limit)
  | fuse {B D E : Type} [Buf D] [Body B D E] {b : B} :
      Composed User b → Composed User (Fuse.new b)
  | mapFrame {B F D D' E : Type} [Buf D] [Buf D'] [Body B D E]
      [FnMut F (Frame D) (Frame D')] {b : B} (f : F) :
      Composed User b → Composed User (MapFrame.new b f)
  | mapErr {B F D E E' : Type} [Buf D] [Body B D E] [FnMut F E E'] {b : B} (f : F) :
      Composed User b → Composed User (MapErr.new b f)
  | inspectFrame {B F D E : Type} [Buf D] [Body B D E] [FnMut F (Frame D) Unit] {b : B}
      (f : F) : Composed User b → Composed User (InspectFrame.new b f)
  | inspectErr {B F D E : Type} [Buf D] [Body B D E] [FnMut F E Unit] {b : B} (f : F) :
      Composed User b → Composed User (InspectErr.new b f)
  | left {L D E₁ E₂ : Type} (R : Type) [Buf D] [Body L D E₁] [Body R D E₂]
      [Into E₁ BoxError] [Into E₂ BoxError] {l : L} :
      Composed User l → Composed User (Either.left l : Either L R)
  | right {R D E₁ E₂ : Type} (L : Type) [Buf D] [Body L D E₁] [Body R D E₂]
      [Into E₁ BoxError] [Into E₂ BoxError] {r : R} :
      Composed User r → Composed User (Either.right r : Either L R)
  | tryFuture {F B D E E₁ : Type} [Buf D] [Body B D E] [Future F (Except E₁ B)]
      [Into E₁ E] {f : F} :
      (∀ (b : B) (f' : F), Awaits Future.Steps f (.ok b) f' → Composed User b) →
      Composed User (TryFutureBody.new f : TryFutureBody F B)

variable [Foreign]

theorem Composed.mono {User User' : BodyPred}
    (himp : ∀ (B D E : Type) [Buf D] [Body B D E] (b : B), User B D E b → User' B D E b)
    {B D E : Type} [Buf D] [Body B D E] {b : B} (h : Composed User b) :
    Composed User' b := by
  induction h with
  | user hb => exact .user (himp _ _ _ _ hb)
  | empty D => exact .empty D
  | full data => exact .full data
  | string s => exact .string s
  | errorBody D error => exact .errorBody D error
  | pending D E => exact .pending D E
  | collected c => exact .collected c
  | streamBody stream => exact .streamBody stream
  | chain _ _ iha ihb => exact .chain iha ihb
  | withTrailers f _ ih => exact .withTrailers f ih
  | limited limit _ ih => exact .limited limit ih
  | fuse _ ih => exact .fuse ih
  | mapFrame f _ ih => exact .mapFrame f ih
  | mapErr f _ ih => exact .mapErr f ih
  | inspectFrame f _ ih => exact .inspectFrame f ih
  | inspectErr f _ ih => exact .inspectErr f ih
  | left R _ ih => exact .left R ih
  | right L _ ih => exact .right L ih
  | tryFuture _ ih => exact .tryFuture ih

end HttpBody
