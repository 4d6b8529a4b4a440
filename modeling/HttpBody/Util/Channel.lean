import HttpBody.Core.Body
import HttpBody.Core.Tokio

/-!
# Channel

A body whose frames are sent from elsewhere.  One call of `poll_frame` polls
first the queue of frames and then, unless it got a frame, the receiver of the
error, whose end is also the end of the body.
-/

namespace HttpBody

open Support

/-- A body backed by a channel. -/
structure Channel (M O : Type) where
  rxFrame : M
  rxError : O

/-- The sending half of a channel. -/
structure Sender (M O : Type) where
  txFrame : M
  txError : O

/-- The error of a sender whose body was dropped. -/
inductive SendError where
  | sendError

variable [Foreign] {M O D E : Type}

namespace Sender

section Send

variable [Mpsc M (Frame D)]

/-- One poll of the future that `send` returns. -/
def send (self : Sender M O) (frame : Frame D) : Poll (Except SendError Unit) × Sender M O :=
  match Mpsc.pollSend frame self.txFrame with
  | (.pending, txFrame) => (.pending, { self with txFrame := txFrame })
  | (.ready (.ok ()), txFrame) => (.ready (.ok ()), { self with txFrame := txFrame })
  | (.ready (.error _), txFrame) => (.ready (.error .sendError), { self with txFrame := txFrame })

def sendData (self : Sender M O) (buf : D) : Poll (Except SendError Unit) × Sender M O :=
  self.send (.data buf)

def sendTrailers (self : Sender M O) (trailers : HeaderMap) :
    Poll (Except SendError Unit) × Sender M O :=
  self.send (.trailers trailers : Frame D)

def trySend (self : Sender M O) (frame : Frame D) : Except (Frame D) Unit × Sender M O :=
  match Mpsc.trySend frame self.txFrame with
  | (.ok (), txFrame) => (.ok (), { self with txFrame := txFrame })
  | (.error err, txFrame) => (.error err.intoInner, { self with txFrame := txFrame })

/-- The frame is sent, by either way of sending it. -/
def Sends (self : Sender M O) (frame : Frame D) (self' : Sender M O) : Prop :=
  self.send frame = (.ready (.ok ()), self') ∨ self.trySend frame = (.ok (), self')

/-- The first field of a sender that is dropped, or that was aborted, is
dropped. -/
def dropFrame (self : Sender M O) : Sender M O :=
  { self with txFrame := Mpsc.dropSender self.txFrame }

end Send

section Error

variable [Oneshot O E]

/-- The second field of a sender that is dropped is dropped. -/
def dropError (self : Sender M O) : Sender M O :=
  { self with txError := Oneshot.dropSender self.txError }

/-- `abort` sends the error; the rest of the sender is dropped when it
returns. -/
def abort (self : Sender M O) (error : E) : Sender M O :=
  { self with txError := (Oneshot.send error self.txError).2 }

end Error

theorem Sends.queue [Mpsc M (Frame D)] [LawfulMpsc M] {self self' : Sender M O}
    {frame : Frame D} (h : self.Sends frame self') :
    LawfulMpsc.queue self'.txFrame = LawfulMpsc.queue self.txFrame ++ [frame] ∧
      LawfulMpsc.alive self'.txFrame = LawfulMpsc.alive self.txFrame ∧
      self'.txError = self.txError := by
  rcases h with h | h
  · simp only [send] at h
    split at h
    · cases h
    · rename_i txFrame hsend
      cases h
      obtain ⟨hqueue, halive⟩ := LawfulMpsc.pollSend_ok hsend
      exact ⟨hqueue, halive, rfl⟩
    · cases h
  · simp only [trySend] at h
    split at h
    · rename_i txFrame hsend
      cases h
      obtain ⟨hqueue, halive⟩ := LawfulMpsc.trySend_ok hsend
      exact ⟨hqueue, halive, rfl⟩
    · cases h

end Sender

variable [Mpsc M (Frame D)] [Oneshot O E]

namespace Channel

/-- Both halves hold the same two channels. -/
def new (buffer : ℕ) : Except Stop (Sender M O × Channel M O) := do
  let frames ← Mpsc.channel buffer
  let error := Oneshot.channel
  return (⟨frames, error⟩, ⟨frames, error⟩)

/-- The first inner poll: the frame that the call returns, if there is one. -/
def pollRecv (rxFrame : M) : Option (Frame D) × M :=
  match Mpsc.pollRecv rxFrame with
  | (.ready (some frame), rxFrame) => (some frame, rxFrame)
  | (.ready none, rxFrame) => (none, rxFrame)
  | (.pending, rxFrame) => (none, rxFrame)

/-- The second inner poll, which decides the call. -/
def pollError (rxError : O) : Except Stop (PollFrame D E × O) := do
  let (poll, rxError) ← Oneshot.poll rxError
  match poll with
  | .ready (.ok error) => return (.ready (.error error), rxError)
  | .ready (.error _) => return (.ready none, rxError)
  | .pending => return (.pending, rxError)

def pollFrame (this : Channel M O) : Call (PollFrame D E × Channel M O) := do
  match pollRecv this.rxFrame with
  | (some frame, rxFrame) => return (.ready (some (.ok frame)), ⟨rxFrame, this.rxError⟩)
  | (none, rxFrame) => do
      let (result, rxError) ← Call.lift (pollError this.rxError)
      return (result, ⟨rxFrame, rxError⟩)

instance instBody : Body (Channel M O) D E where
  pollFrame := pollFrame

/-! ## The two inner polls -/

omit [Oneshot O E] in
/-- The first inner poll takes the first frame of the queue, and fails to only
if there is none. -/
theorem pollRecv_spec [LawfulMpsc M] {m m' : M} {frame : Option (Frame D)}
    (h : pollRecv m = (frame, m')) :
    LawfulMpsc.queue m = frame.toList ++ LawfulMpsc.queue m' ∧
      (frame = none → LawfulMpsc.queue m' = []) := by
  rcases hqueue : LawfulMpsc.queue m with _ | ⟨f, rest⟩
  · have hpoll : ∃ m₁, pollRecv m = (none, m₁) ∧ LawfulMpsc.queue m₁ = [] := by
      cases halive : LawfulMpsc.alive m with
      | true =>
          obtain ⟨m₁, hrecv, hempty, -⟩ := LawfulMpsc.pollRecv_pending hqueue halive
          exact ⟨m₁, by simp [pollRecv, hrecv], hempty⟩
      | false =>
          obtain ⟨m₁, hrecv, hempty, -⟩ := LawfulMpsc.pollRecv_none hqueue halive
          exact ⟨m₁, by simp [pollRecv, hrecv], hempty⟩
    obtain ⟨m₁, hrecv, hempty⟩ := hpoll
    rw [hrecv] at h
    cases h
    refine ⟨?_, fun _ => hempty⟩
    simp [hempty]
  · obtain ⟨m₁, hrecv, hrest, -⟩ := LawfulMpsc.pollRecv_cons hqueue
    have hpoll : pollRecv m = (some f, m₁) := by simp [pollRecv, hrecv]
    rw [hpoll] at h
    cases h
    refine ⟨?_, ?_⟩
    · simp [hrest]
    · intro hnone
      cases hnone

/-- The results of the second inner poll, by what the error channel holds. -/
inductive Decides : Slot E → PollFrame D E → Slot E → Prop where
  | pending : Decides .waiting .pending .waiting
  | error (e : E) : Decides (.sent e) (.ready (.error e)) .taken
  | finish : Decides .dropped (.ready none) .taken

omit [Mpsc M (Frame D)] [Oneshot O E] in
theorem Decides.of_pending {slot slot' : Slot E}
    (h : Decides slot (.pending : PollFrame D E) slot') : slot = .waiting ∧ slot' = .waiting := by
  cases h
  exact ⟨rfl, rfl⟩

omit [Mpsc M (Frame D)] [Oneshot O E] in
theorem Decides.of_finish {slot slot' : Slot E}
    (h : Decides slot (.ready none : PollFrame D E) slot') :
    slot = .dropped ∧ slot' = .taken := by
  cases h
  exact ⟨rfl, rfl⟩

omit [Mpsc M (Frame D)] [Oneshot O E] in
theorem Decides.of_error {slot slot' : Slot E} {error : E}
    (h : Decides slot (.ready (some (.error error)) : PollFrame D E) slot') :
    slot = .sent error := by
  cases h
  rfl

omit [Mpsc M (Frame D)] [Oneshot O E] in
theorem Decides.not_frame {slot slot' : Slot E} {frame : Frame D} :
    ¬ Decides slot (.ready (some (.ok frame)) : PollFrame D E) slot' := by
  intro h
  cases h

omit [Mpsc M (Frame D)] [Oneshot O E] in
/-- The body does not send errors. -/
theorem Decides.of_sent {slot slot' : Slot E} {result : PollFrame D E} {error : E}
    (h : Decides slot result slot') (hsent : slot' = .sent error) : slot = .sent error := by
  subst hsent
  cases h

omit [Mpsc M (Frame D)] in
theorem pollError_ok [LawfulOneshot O] {o o' : O} {result : PollFrame D E}
    (h : pollError o = .ok (result, o')) :
    Decides (LawfulOneshot.slot o) result (LawfulOneshot.slot o') := by
  cases hslot : LawfulOneshot.slot o with
  | waiting =>
      obtain ⟨o₁, hpoll, hwaiting⟩ := LawfulOneshot.poll_waiting hslot
      rw [pollError, hpoll] at h
      cases h
      exact hwaiting ▸ .pending
  | sent e =>
      obtain ⟨o₁, hpoll, htaken⟩ := LawfulOneshot.poll_sent hslot
      rw [pollError, hpoll] at h
      cases h
      exact htaken ▸ .error e
  | dropped =>
      obtain ⟨o₁, hpoll, htaken⟩ := LawfulOneshot.poll_dropped hslot
      rw [pollError, hpoll] at h
      cases h
      exact htaken ▸ .finish
  | taken =>
      rw [pollError, LawfulOneshot.poll_taken hslot] at h
      cases h

omit [Mpsc M (Frame D)] in
theorem pollError_error [LawfulOneshot O] {o : O} {stop : Stop}
    (h : (pollError o : Except Stop (PollFrame D E × O)) = .error stop) :
    LawfulOneshot.slot o = .taken := by
  cases hslot : LawfulOneshot.slot o with
  | waiting =>
      obtain ⟨o₁, hpoll, -⟩ := LawfulOneshot.poll_waiting hslot
      rw [pollError, hpoll] at h
      cases h
  | sent e =>
      obtain ⟨o₁, hpoll, -⟩ := LawfulOneshot.poll_sent hslot
      rw [pollError, hpoll] at h
      cases h
  | dropped =>
      obtain ⟨o₁, hpoll, -⟩ := LawfulOneshot.poll_dropped hslot
      rw [pollError, hpoll] at h
      cases h
  | taken => rfl

end Channel

end HttpBody
