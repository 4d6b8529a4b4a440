import HttpBody.Channel.Ending

/-!
# Draining a channel

Once its sender is gone, a channel body is not pending again: its next calls return
the frames that are queued, and then the ending.  This is so from one call to the next;
a call that the sender overtook on the way may lose a frame.
-/

namespace HttpBody.Channel

open Support

section Draining

variable [Foreign] {M O D E : Type} [Mpsc M (Frame D)] [Oneshot O E]

/-- The results of calls that return these frames. -/
def frameResults (frames : List (Frame D)) : List (PollFrame D E) :=
  frames.map fun frame => .ready (some (.ok frame))

theorem steps_frame {m m' : M} {o : O} {frame : Frame D} (h : pollRecv m = (some frame, m')) :
    Body.Steps (⟨m, o⟩ : Channel M O) [] (.ready (some (.ok frame))) ⟨m', o⟩ := by
  simp only [Call.steps, Body.pollFrame, Channel.pollFrame, h]
  rfl

variable [LawfulMpsc M]

/-- The first frame of the queue is returned. -/
theorem steps_front {m : M} {o : O} {frame : Frame D} {frames : List (Frame D)}
    (hqueue : LawfulMpsc.queue m = frame :: frames) :
    ∃ m', Body.Steps (⟨m, o⟩ : Channel M O) [] (.ready (some (.ok frame))) ⟨m', o⟩ ∧
      LawfulMpsc.queue m' = frames := by
  obtain ⟨m', hrecv, hrest, -⟩ := LawfulMpsc.pollRecv_cons hqueue
  have hfirst : pollRecv m = (some frame, m') := by
    simp only [pollRecv, hrecv]
  exact ⟨m', steps_frame hfirst, hrest⟩

/-- The queued frames are returned one by one. -/
theorem runs_queue (m : M) (o : O) :
    ∃ m', Runs Body.Steps (⟨m, o⟩ : Channel M O) (frameResults (LawfulMpsc.queue m)) ⟨m', o⟩ ∧
      LawfulMpsc.queue m' = [] := by
  generalize hqueue : LawfulMpsc.queue m = frames
  induction frames generalizing m with
  | nil => exact ⟨m, .nil _, hqueue⟩
  | cons frame frames ih =>
      obtain ⟨m₁, hstep, hrest⟩ := steps_front (o := o) hqueue
      obtain ⟨m', hrun, hempty⟩ := ih m₁ hrest
      exact ⟨m', .cons hstep hrun, hempty⟩

/-- With an empty queue, the error channel decides the call. -/
theorem steps_decided {m : M} {o o' : O} {result : PollFrame D E}
    (hqueue : LawfulMpsc.queue m = []) (h : Channel.pollError o = .ok (result, o')) :
    ∃ m', Body.Steps (⟨m, o⟩ : Channel M O) [] result ⟨m', o'⟩ := by
  rcases hrecv : pollRecv m with ⟨_ | frame, m'⟩
  · refine ⟨m', ?_⟩
    simp only [Call.steps, Body.pollFrame, Channel.pollFrame, hrecv, h]
    rfl
  · have hcons := (pollRecv_spec hrecv).1
    rw [hqueue] at hcons
    cases hcons

variable [LawfulOneshot O]

/-- A sender has dropped its half of the error channel, or has sent its error. -/
def Sending.Gone (tx : Sending) : Prop :=
  tx = .dropped ∨ tx = .errorSent ∨ tx = .aborted

/-- What the error channel holds when it was not polled since its sender went, and the
ending that it stands for. -/
inductive Leaves : Slot E → Item D E → Prop where
  | dropped : Leaves .dropped none
  | aborted (error : E) : Leaves (.sent error) (.error error)

omit [LawfulMpsc M] [Mpsc M (Frame D)] in
theorem Leaves.pollError {o : O} {ending : Item D E}
    (h : Leaves (LawfulOneshot.slot o) ending) :
    ∃ o', Channel.pollError o = .ok (.ready ending, o') := by
  generalize hslot : LawfulOneshot.slot o = slot at h
  cases h with
  | dropped =>
      obtain ⟨o', hpoll, -⟩ := LawfulOneshot.poll_dropped hslot
      exact ⟨o', by rw [Channel.pollError, hpoll]; rfl⟩
  | aborted error =>
      obtain ⟨o', hpoll, -⟩ := LawfulOneshot.poll_sent hslot
      exact ⟨o', by rw [Channel.pollError, hpoll]; rfl⟩

/-- The frames that are queued are returned, and then the ending. -/
theorem runs_drain {m : M} {o : O} {ending : Item D E}
    (h : Leaves (LawfulOneshot.slot o) ending) :
    ∃ b', Runs Body.Steps (⟨m, o⟩ : Channel M O)
      (frameResults (LawfulMpsc.queue m) ++ [.ready ending]) b' := by
  obtain ⟨m', hrun, hempty⟩ := runs_queue m o
  obtain ⟨o', hpoll⟩ := h.pollError
  obtain ⟨m'', hlast⟩ := steps_decided hempty hpoll
  exact ⟨_, hrun.append (.single hlast)⟩

end Draining

namespace System

section Drains

variable [Foreign] {M O D E : Type} [Mpsc M (Frame D)] [Oneshot O E]
  [LawfulMpsc M] [LawfulOneshot O] {buffer : ℕ} {h : List (System M O × Label D E)}
  {s₀ s : System M O} {m : M} {o : O} {tx : Sending}

/-- A sender that is gone left an ending, unless it was returned already. -/
theorem Closing.leaves (hs : Closing h s) (htx : s.tx.Gone)
    (hslot : LawfulOneshot.slot s.error ≠ .taken) :
    ∃ ending : Item D E, Leaves (LawfulOneshot.slot s.error) ending ∧
      ((ending = none ∧ Label.aborts (labels h) = []) ∨
        ∃ error, ending = .error error ∧ Label.aborts (labels h) = [error]) := by
  have hat := hs.accounted.slot
  have hunaborted := hs.unaborted
  have haborted := hs.aborted
  generalize LawfulOneshot.slot s.error = slot at hat haborted hslot ⊢
  generalize s.tx = tx at hat hunaborted htx
  cases hat with
  | active => simp [Sending.Gone] at htx
  | frameDropped => simp [Sending.Gone] at htx
  | dropped => exact ⟨none, .dropped, .inl ⟨rfl, hunaborted (by simp) (by simp)⟩⟩
  | errorSent error => exact ⟨_, .aborted error, .inr ⟨error, rfl, haborted error rfl⟩⟩
  | aborted error => exact ⟨_, .aborted error, .inr ⟨error, rfl, haborted error rfl⟩⟩
  | finished => exact (hslot rfl).elim
  | reported => exact (hslot rfl).elim
  | abortReported => exact (hslot rfl).elim

/-- Once the sender is gone, and until its ending was returned, the calls that begin then are
not pending: they return the frames that were sent and not yet returned, all of them, and
then the end, or the error of the abort. -/
theorem drains (hnew : new buffer = .ok s₀) (hpath : Path Step s₀ h ⟨m, o, tx, .idle⟩)
    (htx : tx.Gone) (hslot : LawfulOneshot.slot o ≠ .taken) :
    ∃ (frames : List (Frame D)) (ending : Item D E) (b' : Channel M O),
      Label.sent (labels h) = Label.received (labels h) ++ frames ∧
      Runs Body.Steps (⟨m, o⟩ : Channel M O) (frameResults frames ++ [.ready ending]) b' ∧
      ((ending = none ∧ Label.aborts (labels h) = []) ∨
        ∃ error, ending = .error error ∧ Label.aborts (labels h) = [error]) := by
  have hs := closing hnew hpath
  obtain ⟨ending, hleaves, hending⟩ := hs.leaves htx hslot
  obtain ⟨b', hrun⟩ := runs_drain (m := m) hleaves
  exact ⟨_, ending, b', hs.accounted.frames, hrun, hending⟩

end Drains

/-- One frame is sent, and the sender dropped. -/
theorem path_dropped :
    ∃ (s₀ : System (Queue (Frame Bytes)) (Slot String)) (m : Queue (Frame Bytes))
      (h : List (System (Queue (Frame Bytes)) (Slot String) × Label Bytes String)),
      new 1 = .ok s₀ ∧ Path Step s₀ h ⟨m, .dropped, .dropped, .idle⟩ ∧
        LawfulOneshot.slot (.dropped : Slot String) ≠ .taken ∧
        Label.sent (labels h) = [.data ⟨[1], by decide⟩] ∧
        Label.received (labels h) = [] ∧ Label.aborts (labels h) = [] := by
  have hnew : (new 1 : Except Stop (System (Queue (Frame Bytes)) (Slot String))) =
      .ok ⟨⟨1, [], true⟩, .waiting, .active, .idle⟩ := rfl
  have hpath := Path.cons (step_send_chunk .idle)
    (.cons .dropFrame (.cons .dropError (.nil _)))
  have hslot : LawfulOneshot.slot (.dropped : Slot String) ≠ .taken := by
    intro htaken
    cases htaken
  exact ⟨_, _, _, hnew, hpath, hslot, rfl, rfl, rfl⟩

/-- A frame is sent and the sender dropped before the first call. -/
theorem drains_dropped :
    ∃ (s₀ : System (Queue (Frame Bytes)) (Slot String)) (m : Queue (Frame Bytes))
      (h : List (System (Queue (Frame Bytes)) (Slot String) × Label Bytes String))
      (b' : Channel (Queue (Frame Bytes)) (Slot String)),
      new 1 = .ok s₀ ∧ Path Step s₀ h ⟨m, .dropped, .dropped, .idle⟩ ∧
        Runs Body.Steps (⟨m, .dropped⟩ : Channel (Queue (Frame Bytes)) (Slot String))
          [.ready (.data ⟨[1], by decide⟩), .ready none] b' := by
  obtain ⟨s₀, m, h, hnew, hpath, hslot, hone, hnone, hunaborted⟩ := path_dropped
  obtain ⟨frames, ending, b', hsent, hrun, hending⟩ := drains hnew hpath (.inl rfl) hslot
  have hframes : frames = [.data ⟨[1], by decide⟩] := by
    rw [hone, hnone] at hsent
    exact hsent.symm
  subst hframes
  rcases hending with ⟨rfl, -⟩ | ⟨error, -, haborts⟩
  · exact ⟨s₀, m, h, b', hnew, hpath, hrun⟩
  · rw [hunaborted] at haborts
    cases haborts

end System

end HttpBody.Channel
