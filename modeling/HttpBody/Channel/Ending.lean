import HttpBody.Channel.CleanClose

/-!
# The ending that a channel reports

A sender ends either by being dropped or by an abort with an error.  The error
travels beside the frames, so it may overtake them, but it cannot be mistaken
for the end of the body, nor the end for an error.
-/

namespace HttpBody.Channel

open Support

namespace Label

variable [Foreign] {D E : Type}

/-- The errors given to `abort`. -/
def aborts (ls : List (Label D E)) : List E :=
  ls.filterMap fun
    | .abort error => some error
    | _ => none

@[simp] theorem aborts_nil : aborts ([] : List (Label D E)) = [] := rfl

@[simp] theorem aborts_append (ls ks : List (Label D E)) :
    aborts (ls ++ ks) = aborts ls ++ aborts ks :=
  List.filterMap_append

end Label

namespace System

section Ending

variable [Foreign] {M O D E : Type} [Mpsc M (Frame D)] [Oneshot O E]
  [LawfulMpsc M] [LawfulOneshot O]

/-- What the steps in `h` tell about the way in which the sender ended. -/
structure Closing (h : List (System M O × Label D E)) (s : System M O) : Prop where
  accounted : Accounted h s
  unaborted : s.tx ≠ .errorSent → s.tx ≠ .aborted → Label.aborts (labels h) = []
  aborted : ∀ error, LawfulOneshot.slot s.error = .sent error →
    Label.aborts (labels h) = [error]
  frameDropped : s.tx = .frameDropped ∨ s.tx = .dropped → .dropFrame ∈ labels h
  errorDropped : s.tx = .dropped → .dropError ∈ labels h

variable {h : List (System M O × Label D E)} {s s' : System M O} {l : Label D E}

theorem closing_new {buffer : ℕ} (hnew : new buffer = .ok s) :
    Closing ([] : List (System M O × Label D E)) s := by
  have htx : s.tx = .active := (new_spec hnew).1
  have hslot : LawfulOneshot.slot s.error = .waiting := (new_spec hnew).2.2.1
  constructor
  · exact accounted_new hnew
  · intro _ _
    rfl
  · intro error hsent
    cases hslot.symm.trans hsent
  · intro hdropped
    simp [htx] at hdropped
  · intro hdropped
    simp [htx] at hdropped

/-- A step that neither aborts nor drops anything, and sends no error. -/
theorem Closing.quiet (hs : Closing h s) (hstep : Step s l s') (htx : s'.tx = s.tx)
    (haborts : Label.aborts [l] = [])
    (hslot : ∀ error, LawfulOneshot.slot s'.error = .sent error →
      LawfulOneshot.slot s.error = .sent error) : Closing (h ++ [(s, l)]) s' := by
  have hsame : Label.aborts (labels (h ++ [(s, l)])) = Label.aborts (labels h) := by
    simp [haborts]
  constructor
  · exact hs.accounted.step hstep
  · intro hsent habort
    rw [hsame]
    exact hs.unaborted (htx ▸ hsent) (htx ▸ habort)
  · intro error hsent
    rw [hsame]
    exact hs.aborted error (hslot error hsent)
  · intro hdropped
    have hbefore := hs.frameDropped (htx ▸ hdropped)
    simp [hbefore]
  · intro hdropped
    have hbefore := hs.errorDropped (htx ▸ hdropped)
    simp [hbefore]

/-- A step in which a sender that has not aborted drops one of its fields. -/
theorem Closing.drops (hs : Closing h s) (hstep : Step s l s')
    (hnone : Label.aborts (labels h) = []) (haborts : Label.aborts [l] = [])
    (hunsent : ∀ error, LawfulOneshot.slot s'.error ≠ .sent error)
    (hframe : .dropFrame ∈ labels (h ++ [(s, l)]))
    (herror : s'.tx = .dropped → .dropError ∈ labels (h ++ [(s, l)])) :
    Closing (h ++ [(s, l)]) s' := by
  constructor
  · exact hs.accounted.step hstep
  · intro _ _
    rw [labels_append, Label.aborts_append, hnone]
    exact haborts
  · intro error hsent
    exact (hunsent error hsent).elim
  · intro _
    exact hframe
  · exact herror

theorem Closing.step (hs : Closing h s) (hstep : Step s l s') : Closing (h ++ [(s, l)]) s' := by
  have haccounted := hs.accounted.step hstep
  cases hstep with
  | send hsends =>
      have herror := hsends.queue.2.2
      apply hs.quiet (.send hsends) rfl rfl
      intro error hsent
      simpa [afterSender, herror] using hsent
  | dropFrame =>
      have hnone : Label.aborts (labels h) = [] := hs.unaborted (by simp) (by simp)
      have hwaiting := hs.accounted.slot.of_active
      apply hs.drops .dropFrame hnone rfl
      · intro error hsent
        cases hwaiting.symm.trans hsent
      · simp
      · intro hdropped
        cases hdropped
  | dropError =>
      have hnone : Label.aborts (labels h) = [] := hs.unaborted (by simp) (by simp)
      have hframe : .dropFrame ∈ labels h := hs.frameDropped (.inl rfl)
      have hdropped := LawfulOneshot.dropSender hs.accounted.slot.of_frameDropped
      apply hs.drops .dropError hnone rfl
      · intro error hsent
        cases hdropped.symm.trans hsent
      · simp [hframe]
      · intro _
        simp
  | abort error =>
      have hnone : Label.aborts (labels h) = [] := hs.unaborted (by simp) (by simp)
      have hslot := LawfulOneshot.send error hs.accounted.slot.of_active
      constructor
      · exact haccounted
      · intro hsent _
        exact (hsent rfl).elim
      · intro error' hsent
        cases hslot.symm.trans hsent
        rw [labels_append, Label.aborts_append, hnone]
        rfl
      · intro hdropped
        simp [afterSender] at hdropped
      · intro hdropped
        cases hdropped
  | abortDrop =>
      constructor
      · exact haccounted
      · intro _ habort
        exact (habort rfl).elim
      · intro error hsent
        have hbefore := hs.aborted error hsent
        rw [labels_append, Label.aborts_append, hbefore]
        rfl
      · intro hdropped
        simp [afterSender] at hdropped
      · intro hdropped
        cases hdropped
  | received hrecv =>
      apply hs.quiet (.received hrecv) rfl rfl
      intro error hsent
      exact hsent
  | noFrame hrecv =>
      apply hs.quiet (.noFrame hrecv) rfl rfl
      intro error hsent
      exact hsent
  | pollError herror =>
      apply hs.quiet (.pollError herror) rfl rfl
      intro error hsent
      exact (pollError_ok herror).of_sent hsent
  | panic herror =>
      apply hs.quiet (.panic herror) rfl rfl
      intro error hsent
      exact hsent

theorem closing {buffer : ℕ} {s₀ : System M O} (hnew : new buffer = .ok s₀)
    (hpath : Path Step s₀ h s) : Closing h s :=
  hpath.invariant (closing_new hnew) fun _ _ _ _ hs hstep => hs.step hstep

omit [LawfulMpsc M] in
/-- The second inner poll decides by what the error channel holds. -/
theorem decides_of_step {result : PollFrame D E}
    (hstep : Step s (.pollError result : Label D E) s') : s.rx = .between ∧
      Decides (LawfulOneshot.slot s.error) result (LawfulOneshot.slot s'.error) := by
  cases hstep with
  | pollError herror => exact ⟨rfl, pollError_ok herror⟩

/-- The frames that the body returns are the first of those that were sent, and
only its first inner poll returns one.  It returns an error only after an abort
with this error, and by then all frames unless a step of the sender fell into the
call.  It returns the end only when the sender was dropped and not aborted. -/
theorem right_ending {buffer : ℕ} {s₀ : System M O} (hnew : new buffer = .ok s₀)
    (hpath : Path Step s₀ h s) :
    Label.received (labels h) <+: Label.sent (labels h) ∧
      (∀ frame s', ¬ Step s (.pollError (.ready (some (.ok frame))) : Label D E) s') ∧
      (∀ error s', Step s (.pollError (.ready (some (.error error))) : Label D E) s' →
        Label.aborts (labels h) = [error] ∧
          (Label.gap (labels h) = [] → Label.received (labels h) = Label.sent (labels h))) ∧
      ∀ s', Step s (.pollError (.ready none) : Label D E) s' →
        Label.aborts (labels h) = [] ∧ .dropFrame ∈ labels h ∧ .dropError ∈ labels h := by
  have hs := closing hnew hpath
  have hframes := hs.accounted.frames
  refine ⟨?_, ?_, ?_, ?_⟩
  · rw [hframes]
    exact List.prefix_append _ _
  · intro frame s' hstep
    exact (decides_of_step hstep).2.not_frame
  · intro error s' hstep
    obtain ⟨hbetween, hdecides⟩ := decides_of_step hstep
    have hsent := hdecides.of_error
    refine ⟨hs.aborted error hsent, ?_⟩
    intro hgap
    have hqueue := hs.accounted.between hbetween
    rw [hframes, hqueue, hgap]
    simp
  · intro s' hstep
    have hslot := (dropped_of_end hstep).2
    have hdropped := hs.accounted.slot.of_slot_dropped hslot
    refine ⟨?_, ?_, ?_⟩
    · apply hs.unaborted
      · simp [hdropped]
      · simp [hdropped]
    · exact hs.frameDropped (.inr hdropped)
    · exact hs.errorDropped hdropped

end Ending

/-- A frame is sent and the body aborted; the frame is returned before the
error. -/
theorem right_ending_aborted :
    ∃ (s₀ s : System (Queue (Frame Bytes)) (Slot String))
      (h : List (System (Queue (Frame Bytes)) (Slot String) × Label Bytes String)),
      new 1 = .ok s₀ ∧ Path Step s₀ h s ∧
        (∃ s', Step s (.pollError (.ready (some (.error "reset"))) : Label Bytes String) s') ∧
        Label.received (labels h) <+: Label.sent (labels h) ∧
        (∀ frame s', ¬ Step s (.pollError (.ready (some (.ok frame))) : Label Bytes String) s') ∧
        (∀ error s', Step s (.pollError (.ready (some (.error error))) : Label Bytes String) s' →
          Label.aborts (labels h) = [error] ∧
            (Label.gap (labels h) = [] → Label.received (labels h) = Label.sent (labels h))) ∧
        ∀ s', Step s (.pollError (.ready none) : Label Bytes String) s' →
          Label.aborts (labels h) = [] ∧ .dropFrame ∈ labels h ∧ .dropError ∈ labels h := by
  have hnew : (new 1 : Except Stop (System (Queue (Frame Bytes)) (Slot String))) =
      .ok ⟨⟨1, [], true⟩, .waiting, .active, .idle⟩ := rfl
  have hpath := Path.cons (step_send_chunk .idle)
    (.cons (.abort "reset") (.cons .abortDrop (.cons (.received rfl)
      (.cons (.noFrame rfl) (.nil _)))))
  exact ⟨_, _, _, hnew, hpath, ⟨_, .pollError rfl⟩, right_ending hnew hpath⟩

end System

end HttpBody.Channel
