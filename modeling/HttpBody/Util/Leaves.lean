import HttpBody.Core.Body

/-!
# The leaf bodies

`Empty`, `Full`, `String`, `ErrorBody`, `Pending` and `StreamBody`: bodies that
are not built from other bodies.  `Ready` is a future for them to wait for.
-/

namespace HttpBody

open Support

/-- `std::convert::Infallible`. -/
inductive Infallible

def Infallible.elim {α : Type} (e : Infallible) : α := nomatch e

/-- A body that is always empty. -/
structure Empty (D : Type) where

/-- A body that consists of a single chunk. -/
structure Full (D : Type) where
  data : Option D

/-- The type `String`, whose length is a `usize`. -/
structure Str where
  val : String
  len_lt : val.utf8ByteSize < wordSize

/-- A body that returns an error when polled. -/
structure ErrorBody (D E : Type) where
  error : Option E

/-- A body that always returns `Pending`. -/
structure Pending (D E : Type) where

/-- A body created from a stream of frames. -/
structure StreamBody (S : Type) where
  stream : S

variable [Foreign] {D E S : Type}

/-- There is no error to convert. -/
instance Infallible.intoBoxError : Into Infallible BoxError := ⟨fun e => e.elim⟩

/-! ## Empty -/

def Empty.new (D : Type) : Empty D := ⟨⟩

instance Empty.instBody : Body (Empty D) D Infallible where
  pollFrame b := return (.ready none, b)
  isEndStream _ := true
  sizeHint _ _ := .ok (.withExact 0)

/-! ## Full -/

/-- A chunk without data makes an empty body. -/
def Full.new [Buf D] (data : D) : Full D :=
  ⟨if Buf.hasRemaining data then some data else none⟩

instance Full.instBody [Buf D] : Body (Full D) D Infallible where
  pollFrame b := return (.ready (b.data.map fun d => .ok (.data d)), ⟨none⟩)
  isEndStream b := b.data.isNone
  sizeHint _ b :=
    match b.data with
    | some data =>
        match u64TryFrom (Buf.remaining data) with
        | some n => .ok (.withExact n)
        | none => .error .unwrapNone
    | none => .ok (.withExact 0)

/-! ## String -/

namespace Str

def empty : Str := ⟨"", by decide⟩

def isEmpty (s : Str) : Bool := s.val.utf8ByteSize == 0

def intoBytes (s : Str) : Bytes :=
  ⟨s.val.toByteArray.data.toList, s.len_lt⟩

instance instBody : Body Str Bytes Infallible where
  pollFrame s :=
    if !s.isEmpty then return (.ready (.data s.intoBytes), empty)
    else return (.ready none, s)
  isEndStream s := s.isEmpty
  sizeHint _ s := .ok (.withExact (s.val.utf8ByteSize % wordSize))

end Str

/-! ## ErrorBody and Pending -/

def ErrorBody.new (D : Type) (error : E) : ErrorBody D E := ⟨some error⟩

instance ErrorBody.instBody : Body (ErrorBody D E) D E where
  pollFrame b :=
    match b.error with
    | some error => return (.ready (.error error), ⟨none⟩)
    | none => return (.ready none, b)
  isEndStream b := b.error.isNone
  sizeHint _ _ := .ok .new

def Pending.new (D E : Type) : Pending D E := ⟨⟩

instance Pending.instBody : Body (Pending D E) D E where
  pollFrame b := return (.pending, b)
  isEndStream _ := false
  sizeHint _ _ := .ok .new

/-! ## StreamBody -/

def StreamBody.new (stream : S) : StreamBody S := ⟨stream⟩

instance StreamBody.instBody [Stream S (Except E (Frame D))] :
    Body (StreamBody S) D E where
  pollFrame b := do
    let (poll, stream) ← Stream.pollNext b.stream
    match poll with
    | .ready (some result) => return (.ready (some result), ⟨stream⟩)
    | .ready none => return (.ready none, ⟨stream⟩)
    | .pending => return (.pending, ⟨stream⟩)

/-! ## A future that is ready at once -/

/-- `std::future::Ready`, which panics when it is polled again. -/
structure Ready (O : Type) where
  value : Option O

instance Ready.instFuture {O : Type} : Future (Ready O) O where
  poll f :=
    match f.value with
    | some o => return (.ready o, ⟨none⟩)
    | none => ⟨[], .error (.expectNone "`Ready` polled after completion")⟩

/-! ## Answers in turn -/

/-- A body or a future that gives these answers in turn, and panics after the last. -/
structure Playback (ω : Type) where
  answers : List (Poll ω)

namespace Playback

/-- The next answer. -/
def poll {ω : Type} (self : Playback ω) : Call (Poll ω × Playback ω) :=
  match self.answers with
  | r :: answers => return (r, ⟨answers⟩)
  | [] => ⟨[], .error (.foreign "no answer is left")⟩

instance instBody : Body (Playback (Item D E)) D E where
  pollFrame := poll

instance instFuture {O : Type} : Future (Playback O) O where
  poll := poll

theorem tracedRuns (rs answers : List (PollFrame D E)) :
    TracedRuns Body.Steps (⟨rs ++ answers⟩ : Playback (Item D E)) [] rs ⟨answers⟩ := by
  induction rs with
  | nil => exact .nil _
  | cons r rs ih => exact .cons (t := []) rfl ih

end Playback

end HttpBody
