import HttpBody.Core.Body
import HttpBody.Support.Relay

/-!
# Wrappers of one body

`MapFrame`, `MapErr`, `InspectFrame`, `InspectErr` and the two sides of
`Either` poll their inner body once in every call and hand the answer on.  They
differ in what they do to the answer and in the hints that they forward.
-/

namespace HttpBody

open Support

structure MapFrame (B F : Type) where
  inner : B
  f : F

structure MapErr (B F : Type) where
  inner : B
  f : F

structure InspectFrame (B F : Type) where
  inner : B
  f : F

structure InspectErr (B F : Type) where
  inner : B
  f : F

inductive Either (L R : Type) where
  | left (left : L)
  | right (right : R)

variable [Foreign] {B L R D D' E E' E₁ E₂ F : Type}

/-! ## MapFrame -/

namespace MapFrame

def new (body : B) (f : F) : MapFrame B F := ⟨body, f⟩

/-- What `MapFrame` makes of an answer. -/
def onReady [FnMut F (Frame D) (Frame D')] (f : F) :
    Item D E → Item D' E × F
  | none => (none, f)
  | some (.ok frame) =>
      let (frame, f) := FnMut.call f frame
      (some (.ok frame), f)
  | some (.error err) => (some (.error err), f)

/-- The hint of the inner body is not forwarded: `f` may change the data. -/
instance instBody [Body B D E] [FnMut F (Frame D) (Frame D')] :
    Body (MapFrame B F) D' E where
  pollFrame b := relay Body.pollFrame (fun f inner => ⟨inner, f⟩) onReady b.f b.inner
  isEndStream b := Body.isEndStream b.inner

theorem relays [Body B D E] [FnMut F (Frame D) (Frame D')] :
    Relays (Body.pollFrame (B := B)) Body.pollFrame
      (fun f inner => (⟨inner, f⟩ : MapFrame B F)) onReady :=
  fun _ _ => rfl

end MapFrame

/-! ## MapErr -/

namespace MapErr

def new (body : B) (f : F) : MapErr B F := ⟨body, f⟩

/-- What `MapErr` makes of an answer. -/
def onReady [FnMut F E E'] (f : F) : Item D E → Item D E' × F
  | none => (none, f)
  | some (.ok frame) => (some (.ok frame), f)
  | some (.error err) =>
      let (err, f) := FnMut.call f err
      (some (.error err), f)

instance instBody [Body B D E] [FnMut F E E'] : Body (MapErr B F) D E' where
  pollFrame b := relay Body.pollFrame (fun f inner => ⟨inner, f⟩) onReady b.f b.inner
  isEndStream b := Body.isEndStream b.inner
  sizeHint ar b := Body.sizeHint ar b.inner

theorem relays [Body B D E] [FnMut F E E'] :
    Relays (Body.pollFrame (B := B)) Body.pollFrame
      (fun f inner => (⟨inner, f⟩ : MapErr B F)) onReady :=
  fun _ _ => rfl

end MapErr

/-! ## InspectFrame and InspectErr -/

namespace InspectFrame

def new (body : B) (f : F) : InspectFrame B F := ⟨body, f⟩

/-- `f` sees the frame; the answer is handed on unchanged. -/
def onReady [FnMut F (Frame D) Unit] (f : F) : Item D E → Item D E × F
  | none => (none, f)
  | some (.error err) => (some (.error err), f)
  | some (.ok frame) => (some (.ok frame), (FnMut.call f frame).2)

instance instBody [Body B D E] [FnMut F (Frame D) Unit] :
    Body (InspectFrame B F) D E where
  pollFrame b := relay Body.pollFrame (fun f inner => ⟨inner, f⟩) onReady b.f b.inner
  isEndStream b := Body.isEndStream b.inner
  sizeHint ar b := Body.sizeHint ar b.inner

theorem relays [Body B D E] [FnMut F (Frame D) Unit] :
    Relays (Body.pollFrame (B := B)) Body.pollFrame
      (fun f inner => (⟨inner, f⟩ : InspectFrame B F)) onReady :=
  fun _ _ => rfl

end InspectFrame

namespace InspectErr

def new (body : B) (f : F) : InspectErr B F := ⟨body, f⟩

/-- `f` sees the error; the answer is handed on unchanged. -/
def onReady [FnMut F E Unit] (f : F) : Item D E → Item D E × F
  | none => (none, f)
  | some (.ok frame) => (some (.ok frame), f)
  | some (.error err) => (some (.error err), (FnMut.call f err).2)

instance instBody [Body B D E] [FnMut F E Unit] : Body (InspectErr B F) D E where
  pollFrame b := relay Body.pollFrame (fun f inner => ⟨inner, f⟩) onReady b.f b.inner
  isEndStream b := Body.isEndStream b.inner
  sizeHint ar b := Body.sizeHint ar b.inner

theorem relays [Body B D E] [FnMut F E Unit] :
    Relays (Body.pollFrame (B := B)) Body.pollFrame
      (fun f inner => (⟨inner, f⟩ : InspectErr B F)) onReady :=
  fun _ _ => rfl

end InspectErr

/-! ## Either -/

/-- `opt.map_err(Into::into)`, for a relay without a state of its own. -/
def intoErr [Into E E'] (u : Unit) (r : Item D E) : Item D E' × Unit :=
  (r.mapErr Into.into, u)

namespace Either

instance instBody [Body L D E₁] [Body R D E₂] [Into E₁ BoxError] [Into E₂ BoxError] :
    Body (Either L R) D BoxError where
  pollFrame
    | .left l => relay Body.pollFrame (fun _ l => .left l) intoErr () l
    | .right r => relay Body.pollFrame (fun _ r => .right r) intoErr () r
  isEndStream
    | .left l => Body.isEndStream l
    | .right r => Body.isEndStream r
  sizeHint ar
    | .left l => Body.sizeHint ar l
    | .right r => Body.sizeHint ar r

variable [Body L D E₁] [Body R D E₂] [Into E₁ BoxError] [Into E₂ BoxError]

theorem relays_left :
    Relays (Body.pollFrame (B := L)) Body.pollFrame
      (fun _ l => (.left l : Either L R)) intoErr :=
  fun _ _ => rfl

theorem relays_right :
    Relays (Body.pollFrame (B := R)) Body.pollFrame
      (fun _ r => (.right r : Either L R)) intoErr :=
  fun _ _ => rfl

end Either

/-! ## Wrappers that keep every frame -/

/-- `f` changes nothing but errors. -/
structure KeepsFrames {S : Type} (f : S → Item D E → Item D E' × S) : Prop where
  finish (s : S) : f s none = (none, s)
  ok (s : S) (frame : Frame D) : (f s (some (.ok frame))).1 = some (.ok frame)
  error (s : S) (e : E) : ∃ e', (f s (.error e)).1 = .error e'

theorem KeepsFrames.isFrame {S : Type} {f : S → Item D E → Item D E' × S}
    (h : KeepsFrames f) (s : S) (o : Item D E) (ho : (f s o).1.isFrame) : o.isFrame := by
  rcases o with _ | (err | frame)
  · rw [h.finish] at ho
    exact ho
  · obtain ⟨err', herr'⟩ := h.error s err
    rw [herr'] at ho
    exact ho
  · rfl

theorem MapErr.keepsFrames [FnMut F E E'] :
    KeepsFrames (MapErr.onReady : F → Item D E → Item D E' × F) :=
  ⟨fun _ => rfl, fun _ _ => rfl, fun _ _ => ⟨_, rfl⟩⟩

theorem InspectFrame.keepsFrames [FnMut F (Frame D) Unit] :
    KeepsFrames (InspectFrame.onReady : F → Item D E → Item D E × F) :=
  ⟨fun _ => rfl, fun _ _ => rfl, fun _ _ => ⟨_, rfl⟩⟩

theorem InspectErr.keepsFrames [FnMut F E Unit] :
    KeepsFrames (InspectErr.onReady : F → Item D E → Item D E × F) :=
  ⟨fun _ => rfl, fun _ _ => rfl, fun _ _ => ⟨_, rfl⟩⟩

theorem intoErr_keepsFrames [Into E E'] :
    KeepsFrames (intoErr : Unit → Item D E → Item D E' × Unit) :=
  ⟨fun _ => rfl, fun _ _ => rfl, fun _ _ => ⟨_, rfl⟩⟩

end HttpBody
