import HttpBody.Core.Body
import HttpBody.Support.Relay
import HttpBody.Util.Leaves

/-!
# Bodies behind pointers

References, boxes, pinned pointers, requests, responses and boxed trait objects forward
every call to the body that they hold.  `BodyStream` forwards its polls only, and `Frame`
is the future that polls a borrowed body until it is ready.
-/

namespace HttpBody

open Support

/-! ## Pointers -/

/-- `&mut T`. -/
structure RefMut (T : Type) where
  target : T

/-- `Box<T>`. -/
structure Box (T : Type) where
  target : T

/-- `Pin<P>`. -/
structure Pin (P : Type) where
  pointer : P

/-- `ops::DerefMut`: what a pointer points at, and the pointer after its target was
changed. -/
class DerefMut (P : Type) (T : outParam Type) where
  deref : P → T
  assign : P → T → P
  deref_assign (p : P) (t : T) : deref (assign p t) = t

instance RefMut.instDerefMut (T : Type) : DerefMut (RefMut T) T :=
  ⟨fun p => p.target, fun _ t => ⟨t⟩, fun _ _ => rfl⟩

instance Box.instDerefMut (T : Type) : DerefMut (Box T) T :=
  ⟨fun p => p.target, fun _ t => ⟨t⟩, fun _ _ => rfl⟩

/-! ## Messages -/

/-- `http::Request`: its head, which belongs to another crate, and its body. -/
structure Request (Parts B : Type) where
  head : Parts
  body : B

/-- `http::Response`. -/
structure Response (Parts B : Type) where
  head : Parts
  body : B

/-! ## Trait objects -/

/-- `dyn Body<Data = D, Error = E>`: an object of one of the types `T i` that are made
into trait objects, with its vtable. -/
structure DynBody {ι : Type} (T : ι → Type) where
  vtable : ι
  object : T vtable

/-- A boxed trait object. -/
structure BoxBody {ι : Type} (T : ι → Type) where
  inner : Pin (Box (DynBody T))

/-- A boxed trait object that is not `Sync`. -/
structure UnsyncBoxBody {ι : Type} (T : ι → Type) where
  inner : Pin (Box (DynBody T))

def BoxBody.new {ι : Type} {T : ι → Type} (i : ι) (body : T i) : BoxBody T := ⟨⟨⟨⟨i, body⟩⟩⟩⟩

def UnsyncBoxBody.new {ι : Type} {T : ι → Type} (i : ι) (body : T i) : UnsyncBoxBody T :=
  ⟨⟨⟨⟨i, body⟩⟩⟩⟩

/-! ## Streams and futures -/

/-- A stream created from a body. -/
structure BodyStream (B : Type) where
  body : B

def BodyStream.new {B : Type} (body : B) : BodyStream B := ⟨body⟩

/-- `combinators::Frame`, the future of the next frame. -/
structure Combinators.Frame (T : Type) where
  body : T

/-! ## Forwarding -/

variable [Foreign]

/-- Forward `poll_frame` to the body `b`, which is put back by `hold`. -/
def forward {W B D E : Type} [Body B D E] (hold : B → W) (b : B) : Call (PollFrame D E × W) := do
  let (r, b) ← Body.pollFrame b
  return (r, hold b)

section Instances

variable {B D E : Type} [Body B D E]

instance RefMut.instBody : Body (RefMut B) D E where
  pollFrame self := forward (fun b => ⟨b⟩) self.target
  isEndStream self := Body.isEndStream self.target
  sizeHint ar self := Body.sizeHint ar self.target

instance Box.instBody : Body (Box B) D E where
  pollFrame self := forward (fun b => ⟨b⟩) self.target
  isEndStream self := Body.isEndStream self.target
  sizeHint ar self := Body.sizeHint ar self.target

instance Pin.instBody {P : Type} [DerefMut P B] : Body (Pin P) D E where
  pollFrame self := forward (fun b => ⟨DerefMut.assign self.pointer b⟩)
    (DerefMut.deref self.pointer)
  isEndStream self := Body.isEndStream (DerefMut.deref self.pointer)
  sizeHint ar self := Body.sizeHint ar (DerefMut.deref self.pointer)

instance Request.instBody {Parts : Type} : Body (Request Parts B) D E where
  pollFrame self := forward (fun b => ⟨self.head, b⟩) self.body
  isEndStream self := Body.isEndStream self.body
  sizeHint ar self := Body.sizeHint ar self.body

instance Response.instBody {Parts : Type} : Body (Response Parts B) D E where
  pollFrame self := forward (fun b => ⟨self.head, b⟩) self.body
  isEndStream self := Body.isEndStream self.body
  sizeHint ar self := Body.sizeHint ar self.body

/-- `is_end_stream` and `size_hint` are not forwarded. -/
instance BodyStream.instBody : Body (BodyStream B) D E where
  pollFrame self := forward (fun b => ⟨b⟩) self.body

instance BodyStream.instStream : Stream (BodyStream B) (Except E (Frame D)) where
  pollNext self := do
    let (poll, b) ← Body.pollFrame self.body
    match poll with
    | .ready (some frame) => return (.ready (some frame), ⟨b⟩)
    | .ready none => return (.ready none, ⟨b⟩)
    | .pending => return (.pending, ⟨b⟩)

theorem BodyStream.relays :
    Relays (Body.pollFrame (B := B)) Body.pollFrame (fun _ b => (⟨b⟩ : BodyStream B))
      fun (u : Unit) x => (x, u) :=
  .of_passes fun _ => .of_bind (fun _ => rfl) (fun _ => rfl) fun _ _ => rfl

theorem BodyStream.relays_stream :
    Relays (Body.pollFrame (B := B)) Stream.pollNext (fun _ b => (⟨b⟩ : BodyStream B))
      fun (u : Unit) x => (x, u) :=
  .of_passes fun _ => .of_bind (fun _ => rfl) (fun _ => rfl) fun x _ => by cases x <;> rfl

instance StreamBody.instStream {S I : Type} [Stream S I] : Stream (StreamBody S) I where
  pollNext self := do
    let (poll, stream) ← Stream.pollNext self.stream
    return (poll, ⟨stream⟩)

theorem StreamBody.relays {S : Type} [Stream S (Except E (Frame D))] :
    Relays (Stream.pollNext (S := S)) Body.pollFrame
      (fun (_ : Unit) stream => (⟨stream⟩ : StreamBody S)) fun u (x : Item D E) => (x, u) := by
  refine .of_passes fun _ => .of_bind (fun _ => rfl) (fun _ => rfl) ?_
  rintro (_ | result) stream <;> rfl

instance Combinators.Frame.instFuture : Future (Combinators.Frame B) (Item D E) where
  poll self := do
    let (poll, b) ← Body.pollFrame self.body
    return (poll, ⟨b⟩)

variable {ι : Type} {T : ι → Type} [∀ i, Body (T i) D E]

instance DynBody.instBody : Body (DynBody T) D E where
  pollFrame self := forward (fun object => ⟨self.vtable, object⟩) self.object
  isEndStream self := Body.isEndStream self.object
  sizeHint ar self := Body.sizeHint ar self.object

instance BoxBody.instBody : Body (BoxBody T) D E where
  pollFrame self := forward (fun inner => ⟨inner⟩) self.inner
  isEndStream self := Body.isEndStream self.inner
  sizeHint ar self := Body.sizeHint ar self.inner

instance UnsyncBoxBody.instBody : Body (UnsyncBoxBody T) D E where
  pollFrame self := forward (fun inner => ⟨inner⟩) self.inner
  isEndStream self := Body.isEndStream self.inner
  sizeHint ar self := Body.sizeHint ar self.inner

end Instances

/-! ## The next frames of a body -/

/-- `body.frame()` is called time and again.  Each of the futures is polled as long as one
likes, and may be dropped before it is ready. -/
inductive Combinators.Frame.Sessions {B D E : Type} [Body B D E] :
    B → List (PollFrame D E) → B → Prop where
  | nil (b : B) : Sessions b [] b
  | session {b rs b₁ qs b'} : Runs Future.Steps (⟨b⟩ : Combinators.Frame B) rs ⟨b₁⟩ →
      Sessions b₁ qs b' → Sessions b (rs ++ qs) b'

section Frame

variable {B D E : Type} [Body B D E]

theorem Combinators.Frame.steps_iff {b : B} {t : List Event} {r : PollFrame D E}
    {f : Combinators.Frame B} :
    Future.Steps (⟨b⟩ : Combinators.Frame B) t r f ↔ Body.Steps b t r f.body := by
  constructor
  · intro h
    obtain ⟨t₁, ⟨r₁, b₁⟩, t₂, hpoll, hrest, rfl⟩ := Call.bind_eq_ok.mp h
    obtain ⟨rfl, heq⟩ := Call.pure_eq_ok.mp hrest
    cases heq
    rw [List.append_nil]
    exact hpoll
  · intro h
    exact Call.bind_pure_ok h rfl

theorem Combinators.Frame.runs_iff {b : B} {rs : List (PollFrame D E)}
    {f : Combinators.Frame B} :
    Runs Future.Steps (⟨b⟩ : Combinators.Frame B) rs f ↔ Runs Body.Steps b rs f.body := by
  induction rs generalizing b with
  | nil =>
      rw [runs_nil_iff, runs_nil_iff]
      exact ⟨fun h => h ▸ rfl, fun h => h ▸ rfl⟩
  | cons r rs ih =>
      rw [runs_cons_iff, runs_cons_iff]
      constructor
      · rintro ⟨t, ⟨b₁⟩, hstep, hrest⟩
        exact ⟨t, b₁, steps_iff.mp hstep, ih.mp hrest⟩
      · rintro ⟨t, b₁, hstep, hrest⟩
        exact ⟨t, ⟨b₁⟩, steps_iff.mpr hstep, ih.mpr hrest⟩

/-- No frame is lost with a future that is dropped, and none comes twice. -/
theorem Combinators.Frame.sessions_iff {b b' : B} {rs : List (PollFrame D E)} :
    Sessions b rs b' ↔ Runs Body.Steps b rs b' := by
  constructor
  · intro h
    induction h with
    | nil b => exact .nil b
    | session hrun _ ih => exact (runs_iff.mp hrun).append ih
  · intro h
    have hsession := Sessions.session (runs_iff.mpr h) (.nil b')
    rwa [List.append_nil] at hsession

end Frame

end HttpBody
