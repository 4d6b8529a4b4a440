import HttpBody.Support.Transition
import HttpBody.Util.Channel

/-!
# A channel and its sender

The sender of a channel lives on another thread, so its steps may fall between
any two steps of the body, also between the two inner polls of one call.  The
system of both has one transition for each such step.
-/

namespace HttpBody.Channel

open Support

/-- How far the sender is.  A sender that is dropped drops the sender of the
frames first; one that is aborted sends the error first. -/
inductive Sending where
  | active
  | frameDropped
  | dropped
  | errorSent
  | aborted
  deriving DecidableEq

/-- What the error channel can hold, by how far the sender is. -/
inductive SlotAt {E : Type} : Sending → Slot E → Prop where
  | active : SlotAt .active .waiting
  | frameDropped : SlotAt .frameDropped .waiting
  | dropped : SlotAt .dropped .dropped
  | finished : SlotAt .dropped .taken
  | errorSent (e : E) : SlotAt .errorSent (.sent e)
  | aborted (e : E) : SlotAt .aborted (.sent e)
  | reported : SlotAt .errorSent .taken
  | abortReported : SlotAt .aborted .taken

theorem SlotAt.of_active {E : Type} {slot : Slot E} (h : SlotAt .active slot) :
    slot = .waiting := by
  cases h
  rfl

theorem SlotAt.of_frameDropped {E : Type} {slot : Slot E} (h : SlotAt .frameDropped slot) :
    slot = .waiting := by
  cases h
  rfl

theorem SlotAt.of_slot_dropped {E : Type} {tx : Sending} {slot : Slot E} (h : SlotAt tx slot)
    (hslot : slot = .dropped) : tx = .dropped := by
  subst hslot
  cases h
  rfl

theorem SlotAt.of_sent {E : Type} {tx : Sending} {slot : Slot E} {error : E} (h : SlotAt tx slot)
    (hslot : slot = .sent error) : tx = .errorSent ∨ tx = .aborted := by
  subst hslot
  cases h with
  | errorSent => exact .inl rfl
  | aborted => exact .inr rfl

/-- The error channel only resolves when the sender is through with it. -/
theorem SlotAt.of_taken {E : Type} {tx : Sending} {slot : Slot E} (h : SlotAt tx slot)
    (hslot : slot = .taken) : tx = .dropped ∨ tx = .errorSent ∨ tx = .aborted := by
  subst hslot
  cases h with
  | finished => exact .inl rfl
  | reported => exact .inr (.inl rfl)
  | abortReported => exact .inr (.inr rfl)

theorem SlotAt.abortDrop {E : Type} {slot : Slot E} (h : SlotAt .errorSent slot) :
    SlotAt .aborted slot := by
  cases h with
  | errorSent e => exact .aborted e
  | reported => exact .abortReported

/-- Where the body is: between two calls, between the two inner polls of a call,
or stopped by a panic. -/
inductive Receiving where
  | idle
  | between
  | stopped
  deriving DecidableEq

/-- The two shared channels, the sender and the body. -/
structure System (M O : Type) where
  frames : M
  error : O
  tx : Sending
  rx : Receiving

/-- One step of one party.  The steps of the body carry what they gave: the
first inner poll the frame that the call returned, the second the result of the
call. -/
inductive Label [Foreign] (D E : Type) where
  | send (frame : Frame D)
  | dropFrame
  | dropError
  | abort (error : E)
  | abortDrop
  | pollRecv (frame : Option (Frame D))
  | pollError (result : PollFrame D E)
  | panic (stop : Stop)

variable [Foreign] {M O D E : Type}

/-- The body leaves a possible slot. -/
theorem SlotAt.next {tx : Sending} {slot slot' : Slot E} {result : PollFrame D E}
    (h : SlotAt tx slot) (hdecides : Decides slot result slot') : SlotAt tx slot' := by
  cases h <;> cases hdecides
  · exact .active
  · exact .frameDropped
  · exact .finished
  · exact .reported
  · exact .abortReported

/-- Once the sender was dropped, the error channel resolves to the end. -/
theorem SlotAt.finish_of_dropped {tx : Sending} {slot slot' : Slot E} {result : PollFrame D E}
    (h : SlotAt tx slot) (htx : tx = .dropped) (hdecides : Decides slot result slot')
    (htaken : slot' = .taken) : result = .ready none := by
  subst htx
  cases h <;> cases hdecides
  rfl

namespace Label

/-- A step of the sender. -/
def bySender : Label D E → Bool
  | .send _ => true
  | .dropFrame => true
  | .dropError => true
  | .abort _ => true
  | .abortDrop => true
  | .pollRecv _ => false
  | .pollError _ => false
  | .panic _ => false

/-- The frames that were sent. -/
def sent (ls : List (Label D E)) : List (Frame D) :=
  ls.filterMap fun
    | .send frame => some frame
    | _ => none

/-- The frames that the body returned. -/
def received (ls : List (Label D E)) : List (Frame D) :=
  ls.filterMap fun
    | .pollRecv frame => frame
    | _ => none

/-- The steps of the sender since the last step of the body. -/
def gap (ls : List (Label D E)) : List (Label D E) :=
  ls.foldl (fun steps l => if l.bySender then steps ++ [l] else []) []

@[simp] theorem sent_nil : sent ([] : List (Label D E)) = [] := rfl

@[simp] theorem received_nil : received ([] : List (Label D E)) = [] := rfl

@[simp] theorem sent_append (ls ks : List (Label D E)) :
    sent (ls ++ ks) = sent ls ++ sent ks :=
  List.filterMap_append

@[simp] theorem received_append (ls ks : List (Label D E)) :
    received (ls ++ ks) = received ls ++ received ks :=
  List.filterMap_append

@[simp] theorem gap_snoc (ls : List (Label D E)) (l : Label D E) :
    gap (ls ++ [l]) = if l.bySender then gap ls ++ [l] else [] := by
  simp [gap]

theorem sent_eq_nil_iff {ls : List (Label D E)} :
    sent ls = [] ↔ ∀ frame, .send frame ∉ ls := by
  simp only [sent, List.filterMap_eq_nil_iff]
  constructor
  · intro h frame hmem
    have hnone := h _ hmem
    cases hnone
  · intro h l hmem
    cases l with
    | send frame => exact (h frame hmem).elim
    | _ => rfl

end Label

namespace System

variable [Mpsc M (Frame D)] [Oneshot O E]

/-- The state after a step of the sender that leaves `tx`. -/
def afterSender (self : Sender M O) (tx : Sending) (rx : Receiving) : System M O :=
  ⟨self.txFrame, self.txError, tx, rx⟩

/-- The channel and its sender right after `Channel::new`. -/
def new (buffer : ℕ) : Except Stop (System M O) := do
  let (sender, _) ← Channel.new buffer
  return afterSender sender .active .idle

/-- The steps of the sender and of the body. -/
inductive Step : System M O → Label D E → System M O → Prop where
  | send {m o rx frame self'} : Sender.Sends (⟨m, o⟩ : Sender M O) frame self' →
      Step ⟨m, o, .active, rx⟩ (.send frame) (afterSender self' .active rx)
  | dropFrame {m o rx} : Step ⟨m, o, .active, rx⟩ .dropFrame
      (afterSender (Sender.dropFrame ⟨m, o⟩) .frameDropped rx)
  | dropError {m o rx} : Step ⟨m, o, .frameDropped, rx⟩ .dropError
      (afterSender (Sender.dropError ⟨m, o⟩) .dropped rx)
  | abort {m o rx} (error : E) : Step ⟨m, o, .active, rx⟩ (.abort error)
      (afterSender (Sender.abort ⟨m, o⟩ error) .errorSent rx)
  | abortDrop {m o rx} : Step ⟨m, o, .errorSent, rx⟩ .abortDrop
      (afterSender (Sender.dropFrame ⟨m, o⟩) .aborted rx)
  | received {m o tx frame m'} : pollRecv m = (some frame, m') →
      Step ⟨m, o, tx, .idle⟩ (.pollRecv (some frame)) ⟨m', o, tx, .idle⟩
  | noFrame {m o tx m'} : pollRecv m = (none, m') →
      Step ⟨m, o, tx, .idle⟩ (.pollRecv none) ⟨m', o, tx, .between⟩
  | pollError {m o tx result o'} : pollError o = .ok (result, o') →
      Step ⟨m, o, tx, .between⟩ (.pollError result) ⟨m, o', tx, .idle⟩
  | panic {m o tx stop} :
      (Channel.pollError o : Except Stop (PollFrame D E × O)) = .error stop →
      Step ⟨m, o, tx, .between⟩ (.panic stop) ⟨m, o, tx, .stopped⟩

/-! ## The invariant of the system -/

section Invariant

variable [LawfulMpsc M] [LawfulOneshot O]

/-- Every frame that was sent has been returned or is queued.  In the middle of
a call, the frames that are queued are those sent since its first poll. -/
structure Accounted (h : List (System M O × Label D E)) (s : System M O) : Prop where
  slot : SlotAt s.tx (LawfulOneshot.slot s.error)
  frames : Label.sent (labels h) =
    Label.received (labels h) ++ LawfulMpsc.queue s.frames
  between : s.rx = .between →
    LawfulMpsc.queue s.frames = Label.sent (Label.gap (labels h))

theorem new_spec {buffer : ℕ} {s : System M O}
    (h : new buffer = .ok s) : s.tx = .active ∧ s.rx = .idle ∧
      LawfulOneshot.slot s.error = .waiting ∧ LawfulMpsc.queue s.frames = [] := by
  cases hchannel : (Mpsc.channel buffer : Except Stop M) with
  | error stop =>
      simp only [new, Channel.new, hchannel] at h
      cases h
  | ok m =>
      simp only [new, Channel.new, hchannel] at h
      cases h
      exact ⟨rfl, rfl, LawfulOneshot.channel, (LawfulMpsc.channel hchannel).1⟩

theorem accounted_new {buffer : ℕ} {s : System M O} (h : new buffer = .ok s) :
    Accounted ([] : List (System M O × Label D E)) s := by
  obtain ⟨htx, hrx, hslot, hqueue⟩ := new_spec h
  refine ⟨?_, by simp [hqueue], fun hbetween => ?_⟩
  · rw [htx, hslot]
    exact .active
  · cases hrx.symm.trans hbetween

/-- A step of the sender that queues `frames` and leaves a possible slot. -/
theorem Accounted.sender {h : List (System M O × Label D E)} {s s' : System M O}
    {l : Label D E} (hs : Accounted h s) (hby : l.bySender = true)
    (hreceived : Label.received [l] = []) (hslot : SlotAt s'.tx (LawfulOneshot.slot s'.error))
    (hqueue : LawfulMpsc.queue s'.frames = LawfulMpsc.queue s.frames ++ Label.sent [l])
    (hrx : s'.rx = s.rx) : Accounted (h ++ [(s, l)]) s' := by
  refine ⟨hslot, ?_, fun hbetween => ?_⟩
  · simp [hs.frames, hqueue, hreceived]
  · have hgap := hs.between (hrx ▸ hbetween)
    simp [hqueue, hgap, hby]

theorem Accounted.step {h : List (System M O × Label D E)} {s s' : System M O}
    {l : Label D E} (hs : Accounted h s) (hstep : Step s l s') :
    Accounted (h ++ [(s, l)]) s' := by
  cases hstep with
  | send hsends =>
      obtain ⟨hqueue, -, herror⟩ := hsends.queue
      have hslot := hs.slot
      refine hs.sender rfl rfl ?_ hqueue rfl
      simpa [afterSender, herror] using hslot
  | @dropFrame m o rx =>
      have hwaiting := hs.slot.of_active
      refine hs.sender rfl rfl (hwaiting ▸ .frameDropped) ?_ rfl
      exact (LawfulMpsc.dropSender m).1.trans (List.append_nil _).symm
  | dropError =>
      have hdropped := LawfulOneshot.dropSender hs.slot.of_frameDropped
      refine hs.sender rfl rfl (hdropped ▸ .dropped) ?_ rfl
      exact (List.append_nil _).symm
  | abort error =>
      have hsent := LawfulOneshot.send error hs.slot.of_active
      refine hs.sender rfl rfl (hsent ▸ .errorSent error) ?_ rfl
      exact (List.append_nil _).symm
  | @abortDrop m o rx =>
      refine hs.sender rfl rfl hs.slot.abortDrop ?_ rfl
      exact (LawfulMpsc.dropSender m).1.trans (List.append_nil _).symm
  | @received m o tx frame m' hrecv =>
      have hqueue := (pollRecv_spec hrecv).1
      refine ⟨hs.slot, ?_, ?_⟩
      · simpa [Label.sent, Label.received, hqueue] using hs.frames
      · intro hbetween
        cases hbetween
  | @noFrame m o tx m' hrecv =>
      obtain ⟨hqueue, hempty⟩ := pollRecv_spec hrecv
      refine ⟨hs.slot, ?_, fun _ => ?_⟩
      · simpa [Label.sent, Label.received, hqueue] using hs.frames
      · simpa [Label.bySender] using hempty rfl
  | pollError herror =>
      have hslot := hs.slot.next (pollError_ok herror)
      refine ⟨hslot, ?_, ?_⟩
      · simpa [Label.sent, Label.received] using hs.frames
      · intro hbetween
        cases hbetween
  | panic herror =>
      refine ⟨hs.slot, ?_, ?_⟩
      · simpa [Label.sent, Label.received] using hs.frames
      · intro hbetween
        cases hbetween

theorem accounted {buffer : ℕ} {h : List (System M O × Label D E)} {s₀ s : System M O}
    (hnew : new buffer = .ok s₀) (hpath : Path Step s₀ h s) : Accounted h s :=
  hpath.invariant (accounted_new hnew) fun _ _ _ _ hs hstep => hs.step hstep

end Invariant

/-! ## Calls without a step of the sender in between -/

/-- The steps of one call that gave `result`. -/
inductive CallLabels : PollFrame D E → List (Label D E) → Prop where
  | received (frame : Frame D) :
      CallLabels (.ready (some (.ok frame))) [.pollRecv (some frame)]
  | decided (result : PollFrame D E) :
      CallLabels result [.pollRecv none, .pollError result]

/-- A call of `poll_frame` is its two inner polls, one after the other. -/
theorem pollFrame_path {m m' : M} {o o' : O} {t : List Event} {result : PollFrame D E}
    (tx : Sending) (h : Body.Steps (⟨m, o⟩ : Channel M O) t result ⟨m', o'⟩) :
    ∃ h : List (System M O × Label D E),
      Path Step ⟨m, o, tx, .idle⟩ h ⟨m', o', tx, .idle⟩ ∧ CallLabels result (labels h) := by
  simp only [Call.steps, Body.pollFrame, pollFrame] at h
  rcases hrecv : pollRecv m with ⟨_ | frame, m₁⟩
  · rw [hrecv] at h
    simp only at h
    cases herror : (Channel.pollError o : Except Stop (PollFrame D E × O)) with
    | error stop =>
        rw [herror] at h
        cases h
    | ok p =>
        obtain ⟨result', o₁⟩ := p
        rw [herror] at h
        cases h
        refine ⟨_, .cons (.noFrame hrecv) (.cons (.pollError herror) (.nil _)), ?_⟩
        exact .decided _
  · rw [hrecv] at h
    cases h
    exact ⟨_, .cons (.received hrecv) (.nil _), .received frame⟩

/-- A call that panics panics in its second inner poll. -/
theorem pollFrame_panics {m : M} {o : O} {t : List Event} {stop : Stop} (tx : Sending)
    (h : (Body.pollFrame (⟨m, o⟩ : Channel M O) : Call (PollFrame D E × Channel M O)) =
      ⟨t, .error stop⟩) :
    ∃ m', Path Step (⟨m, o, tx, .idle⟩ : System M O)
      [(⟨m, o, tx, .idle⟩, (.pollRecv none : Label D E)),
        (⟨m', o, tx, .between⟩, .panic stop)] ⟨m', o, tx, .stopped⟩ := by
  simp only [Body.pollFrame, pollFrame] at h
  rcases hrecv : pollRecv m with ⟨_ | frame, m₁⟩
  · rw [hrecv] at h
    simp only at h
    cases herror : (Channel.pollError o : Except Stop (PollFrame D E × O)) with
    | error stop' =>
        rw [herror] at h
        cases h
        exact ⟨m₁, .cons (.noFrame hrecv) (.cons (.panic herror) (.nil _))⟩
    | ok p =>
        rw [herror] at h
        cases h
  · rw [hrecv] at h
    cases h

end System

end HttpBody.Channel
