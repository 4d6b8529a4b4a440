import HttpBody.Channel.System
import HttpBody.Core.Buf
import HttpBody.Core.HeaderTable

/-!
# Frames at a clean close

The end of a channel body is decided by its error channel, which is not ordered
with the frames.  A frame that is sent between the two inner polls of the last
call is lost; no other frame is.
-/

namespace HttpBody.Channel.System

open Support

section CleanClose

variable [Foreign] {M O D E : Type} [Mpsc M (Frame D)] [Oneshot O E]

/-- Whenever the end is returned, the frames returned before it are those that
were sent, in order. -/
def LosesNothing (s₀ : System M O) : Prop :=
  ∀ ⦃h : List (System M O × Label D E)⦄ ⦃s s'⦄, Path Step s₀ h s →
    Step s (.pollError (.ready none) : Label D E) s' →
      Label.received (labels h) = Label.sent (labels h)

variable [LawfulMpsc M] [LawfulOneshot O] {buffer : ℕ} {h : List (System M O × Label D E)}
  {s₀ s s' : System M O}

omit [LawfulMpsc M] in
/-- The end is only returned when the sender was dropped without an abort. -/
theorem dropped_of_end (hend : Step s (.pollError (.ready none) : Label D E) s') :
    s.rx = .between ∧ LawfulOneshot.slot s.error = .dropped := by
  cases hend with
  | pollError herror => exact ⟨rfl, (pollError_ok herror).of_finish.1⟩

/-- When the end is returned, the frames that are lost are those that were sent
since the first inner poll of this call. -/
theorem lost_of_end (hnew : new buffer = .ok s₀) (hpath : Path Step s₀ h s)
    (hend : Step s (.pollError (.ready none) : Label D E) s') :
    Label.sent (labels h) =
      Label.received (labels h) ++ Label.sent (Label.gap (labels h)) := by
  have hs := accounted hnew hpath
  obtain ⟨hbetween, -⟩ := dropped_of_end hend
  rw [hs.frames, hs.between hbetween]

/-- At the end nothing is lost exactly when no frame was sent between the two
inner polls of the call that returned the end. -/
theorem cleanClose_iff (hnew : new buffer = .ok s₀) (hpath : Path Step s₀ h s)
    (hend : Step s (.pollError (.ready none) : Label D E) s') :
    Label.received (labels h) = Label.sent (labels h) ↔
      ∀ frame, .send frame ∉ Label.gap (labels h) := by
  rw [lost_of_end hnew hpath hend, ← Label.sent_eq_nil_iff]
  constructor
  · intro hall
    exact List.self_eq_append_right.mp hall
  · intro hnone
    rw [hnone, List.append_nil]

end CleanClose

/-- A chunk of one byte fits into an empty queue. -/
theorem step_send_chunk (rx : Receiving) :
    Step (⟨⟨1, [], true⟩, .waiting, .active, rx⟩ : System (Queue (Frame Bytes)) (Slot String))
      (.send (.data ⟨[1], by decide⟩) : Label Bytes String)
      ⟨⟨1, [.data ⟨[1], by decide⟩], true⟩, .waiting, .active, rx⟩ := by
  have hsends : Sender.Sends
      (⟨⟨1, [], true⟩, .waiting⟩ : Sender (Queue (Frame Bytes)) (Slot String))
      (.data ⟨[1], by decide⟩) ⟨⟨1, [.data ⟨[1], by decide⟩], true⟩, .waiting⟩ := .inl rfl
  exact .send hsends

/-- A frame is sent, received and followed by the end. -/
theorem cleanClose_iff_received :
    ∃ (s₀ s s' : System (Queue (Frame Bytes)) (Slot String))
      (h : List (System (Queue (Frame Bytes)) (Slot String) × Label Bytes String)),
      new 1 = .ok s₀ ∧ Path Step s₀ h s ∧ Step s (.pollError (.ready none)) s' ∧
        (Label.received (labels h) = Label.sent (labels h) ↔
          ∀ frame, .send frame ∉ Label.gap (labels h)) := by
  have hnew : (new 1 : Except Stop (System (Queue (Frame Bytes)) (Slot String))) =
      .ok ⟨⟨1, [], true⟩, .waiting, .active, .idle⟩ := rfl
  have hpath := Path.cons (step_send_chunk .idle)
    (.cons .dropFrame (.cons .dropError (.cons (.received rfl) (.cons (.noFrame rfl) (.nil _)))))
  exact ⟨_, _, _, _, hnew, hpath, .pollError rfl, cleanClose_iff hnew hpath (.pollError rfl)⟩

/-- The first inner poll finds nothing; then a frame is sent and the sender
dropped; then the second inner poll ends the body. -/
theorem not_losesNothing :
    ∃ s₀ : System (Queue (Frame Bytes)) (Slot String), new 1 = .ok s₀ ∧ ¬ LosesNothing s₀ := by
  refine ⟨⟨⟨1, [], true⟩, .waiting, .active, .idle⟩, rfl, fun hlossless => ?_⟩
  have hfirst : Step (⟨⟨1, [], true⟩, .waiting, .active, .idle⟩ :
      System (Queue (Frame Bytes)) (Slot String)) (.pollRecv none : Label Bytes String)
      ⟨⟨1, [], true⟩, .waiting, .active, .between⟩ := .noFrame rfl
  have hpath := Path.cons hfirst (.cons (step_send_chunk .between)
    (.cons .dropFrame (.cons .dropError (.nil _))))
  have hall := hlossless hpath (.pollError rfl)
  simp [Label.received, Label.sent, labels] at hall

end HttpBody.Channel.System
