import HttpBody.Support.Call

/-!
# Frames

A frame is a chunk of data or a map of trailers.  The header map belongs to
another crate: what the code uses of it is a parameter of the development, and
so is the boxed error into which some bodies convert their errors.
-/

namespace HttpBody

open Support

/-- The error of a body that is longer than its limit. -/
inductive LengthLimitError where
  | lengthLimitError
  deriving DecidableEq, Repr

/-- The foreign types that frames and errors are made of: `http::HeaderMap`
with its `get_all` and `extend`, and `Box<dyn Error + Send + Sync>`.  `extend` is
taken to return: that it panics on a map that grows past its maximum size is
outside this development. -/
class Foreign where
  HeaderMap : Type
  HeaderName : Type
  HeaderValue : Type
  getAll : HeaderMap → HeaderName → List HeaderValue
  extend : HeaderMap → HeaderMap → HeaderMap
  BoxError : Type
  boxLengthLimitError : LengthLimitError → BoxError

export Foreign (HeaderMap HeaderName HeaderValue BoxError)

/-- The documented behaviour of `http::HeaderMap`.  Extending a map by another
one replaces, name by name, all values of a name that the other map has; and
maps with the same values under every name are equal. -/
class LawfulHeaderMap [Foreign] : Prop where
  getAll_extend (a b : HeaderMap) (name : HeaderName) :
    Foreign.getAll (Foreign.extend a b) name =
      if (Foreign.getAll b name).isEmpty then Foreign.getAll a name
      else Foreign.getAll b name
  ext {a b : HeaderMap} :
    (∀ name, Foreign.getAll a name = Foreign.getAll b name) → a = b

/-- The conversion trait `Into`. -/
class Into (α : Type) (β : Type) where
  into : α → β

/-- Every type converts into itself. -/
instance Into.refl (α : Type) : Into α α := ⟨id⟩

@[simp] theorem Into.into_refl {α : Type} (a : α) : (Into.into a : α) = a := rfl

instance [Foreign] : Into LengthLimitError BoxError :=
  ⟨Foreign.boxLengthLimitError⟩

section

variable [Foreign]

/-- A frame of a body with data of type `D`.  The source wraps this
enumeration, its `Kind`, in a structure without further fields. -/
inductive Frame (D : Type) where
  | data (buf : D)
  | trailers (map : HeaderMap)

namespace Frame

variable {D D' : Type}

/-- Map the data of a frame. -/
def mapData (f : D → D') : Frame D → Frame D'
  | .data d => .data (f d)
  | .trailers map => .trailers map

/-- The data of a frame, or the frame itself. -/
def intoData : Frame D → Except (Frame D) D
  | .data d => .ok d
  | frame => .error frame

/-- The trailers of a frame, or the frame itself. -/
def intoTrailers : Frame D → Except (Frame D) HeaderMap
  | .trailers map => .ok map
  | frame => .error frame

def dataRef : Frame D → Option D
  | .data d => some d
  | .trailers _ => none

end Frame

/-- What a ready body answers: `Option<Result<Frame<D>, E>>`. -/
abbrev Item (D E : Type) := Option (Except E (Frame D))

/-- The result of `Body::poll_frame`. -/
abbrev PollFrame (D E : Type) := Poll (Item D E)

namespace Item

variable {D D' E E' : Type}

/-- `Some(Ok(Frame::data(d)))`. -/
@[match_pattern] abbrev data (d : D) : Item D E := some (.ok (.data d))

/-- `Some(Ok(Frame::trailers(map)))`. -/
@[match_pattern] abbrev trailers (map : HeaderMap) : Item D E :=
  some (.ok (.trailers map))

/-- `Some(Err(e))`. -/
@[match_pattern] abbrev error (e : E) : Item D E := some (.error e)

/-- `Ready(None)`, after which nothing is to come. -/
@[match_pattern] abbrev finish : Item D E := none

/-- Data frames, one for each chunk. -/
def datas (ds : List D) : List (Item D E) :=
  ds.map .data

@[simp] theorem datas_nil : (datas [] : List (Item D E)) = [] := rfl

/-- The events after which a body has no more data: its end, its trailers or
an error. -/
def isTerminal : Item D E → Bool
  | .data _ => false
  | _ => true

/-- A frame, after which a body may be polled on. -/
def isFrame : Item D E → Bool
  | some (.ok _) => true
  | _ => false

/-- The results after which a body has more to come: none yet, or a data
frame. -/
inductive InProgress : PollFrame D E → Prop where
  | pending : InProgress .pending
  | data (d : D) : InProgress (.ready (.data d))

/-- The last answer of a body that ended without an error, and the trailers
that it had. -/
inductive Ends : Item D E → Option HeaderMap → Prop where
  | finish : Ends none none
  | trailers (map : HeaderMap) : Ends (.trailers map) (some map)

theorem Ends.isTerminal {x : Item D E} {ta : Option HeaderMap} (h : Ends x ta) :
    x.isTerminal = true := by
  cases h <;> rfl

/-- A trailers frame, if there are trailers, and the end otherwise. -/
def ofTrailers (t : Option HeaderMap) : Item D E :=
  t.map fun map => .ok (.trailers map)

theorem Ends.ofTrailers (t : Option HeaderMap) :
    Ends (Item.ofTrailers t : Item D E) t := by
  cases t with
  | none => exact .finish
  | some map => exact .trailers map

@[simp] theorem ofTrailers_none : (ofTrailers none : Item D E) = none := rfl

@[simp] theorem ofTrailers_some (map : HeaderMap) :
    (ofTrailers (some map) : Item D E) = .trailers map := rfl

def mapErr (f : E → E') : Item D E → Item D E'
  | none => none
  | some (.ok frame) => some (.ok frame)
  | some (.error e) => some (.error (f e))

/-- Convert the error of a poll result. -/
def mapErrPoll (f : E → E') : PollFrame D E → PollFrame D E'
  | .pending => .pending
  | .ready r => .ready (r.mapErr f)

@[simp] theorem mapErr_finish (f : E → E') :
    mapErr f (none : Item D E) = none := rfl

@[simp] theorem mapErr_ok (f : E → E') (frame : Frame D) :
    mapErr f (some (.ok frame)) = some (.ok frame) := rfl

@[simp] theorem mapErr_error (f : E → E') (e : E) :
    mapErr f (.error e : Item D E) = .error (f e) := rfl

@[simp] theorem mapErr_id (r : Item D E) : mapErr id r = r := by
  rcases r with _ | _ | _ <;> rfl

end Item

/-! ## Merging trailers -/

/-- Trailers followed by later trailers: the later ones extend the earlier. -/
def mergeTrailers : Option HeaderMap → Option HeaderMap → Option HeaderMap
  | some a, some b => some (Foreign.extend a b)
  | some t, none => some t
  | none, t => t

@[simp] theorem mergeTrailers_none_right (t : Option HeaderMap) :
    mergeTrailers t none = t := by
  cases t <;> rfl

@[simp] theorem mergeTrailers_none_left (t : Option HeaderMap) :
    mergeTrailers none t = t := rfl

theorem extend_assoc [LawfulHeaderMap] (a b c : HeaderMap) :
    Foreign.extend (Foreign.extend a b) c =
      Foreign.extend a (Foreign.extend b c) := by
  apply LawfulHeaderMap.ext
  intro name
  simp only [LawfulHeaderMap.getAll_extend]
  by_cases hc : (Foreign.getAll c name).isEmpty
  · simp [hc]
  · simp [hc]

theorem mergeTrailers_assoc [LawfulHeaderMap] (t u v : Option HeaderMap) :
    mergeTrailers (mergeTrailers t u) v =
      mergeTrailers t (mergeTrailers u v) := by
  rcases t with _ | a
  · rfl
  · rcases u with _ | b
    · rfl
    · rcases v with _ | c
      · rfl
      · exact congrArg some (extend_assoc a b c)

end

end HttpBody
