import HttpBody.Channel.Draining
import HttpBody.Content.Denotation

/-!
# The content of a channel

Once its sender is gone, a channel has a content as other bodies have: the data that was
sent and not yet returned, and the way in which the sender went.  After trailers the
channel must still be polled for its end, and not again after that, so with trailers it is
the fused channel that has a content.
-/

namespace HttpBody.Channel

open Support

section Contents

variable [Foreign] {M O D E : Type} [Mpsc M (Frame D)] [Oneshot O E]

/-- `Spells frames ending c`: the frames and the ending after them are those of the
content `c`. -/
inductive Spells : List (Frame D) → Item D E → Content D E → Prop where
  | data {ending r} (ds : List D) : ending.split = .inr r →
      Spells (ds.map Frame.data) ending ⟨ds, r⟩
  | trailers (ds : List D) (map : HeaderMap) :
      Spells (ds.map Frame.data ++ [.trailers map]) none ⟨ds, .ok (some map)⟩

theorem endStreamSound (b : Channel M O) : Body.EndStreamSound b :=
  .of_step (fun _ hb => by cases hb) b

variable [LawfulMpsc M] [LawfulOneshot O] {m : M} {o : O} {ending : Item D E} {r : Conclusion E}

/-- With an empty queue, the ending is returned. -/
theorem steps_ending (hqueue : LawfulMpsc.queue m = [])
    (h : Leaves (LawfulOneshot.slot o) ending) :
    ∃ b', Body.Steps (⟨m, o⟩ : Channel M O) [] (.ready ending) b' := by
  obtain ⟨o', hpoll⟩ := h.pollError
  obtain ⟨m', hstep⟩ := steps_decided hqueue hpoll
  exact ⟨_, hstep⟩

/-- Queued data and the ending, without trailers. -/
theorem delivers_data {ds : List D} (hqueue : LawfulMpsc.queue m = ds.map Frame.data)
    (h : Leaves (LawfulOneshot.slot o) ending) (hr : ending.split = .inr r) :
    Body.Delivers (⟨m, o⟩ : Channel M O) ⟨ds, r⟩ := by
  induction ds generalizing m with
  | nil =>
      obtain ⟨b', hstep⟩ := steps_ending hqueue h
      generalize LawfulOneshot.slot o = slot at h
      cases h with
      | dropped =>
          cases hr
          exact .finish hstep
      | aborted error =>
          cases hr
          exact .error hstep
  | cons d ds ih =>
      obtain ⟨m', hstep, hrest⟩ := steps_front (o := o) hqueue
      exact (ih hrest).data hstep

/-- Queued data and trailers, after which the fused channel stays at its end. -/
theorem fused_delivers_trailers {ds : List D} {map : HeaderMap}
    (hqueue : LawfulMpsc.queue m = ds.map Frame.data ++ [.trailers map])
    (h : Leaves (LawfulOneshot.slot o) (none : Item D E)) :
    Body.Delivers (⟨some ⟨m, o⟩⟩ : Fuse (Channel M O)) ⟨ds, .ok (some map)⟩ := by
  induction ds generalizing m with
  | nil =>
      obtain ⟨m', hstep, hrest⟩ := steps_front (o := o) hqueue
      refine .trailers (Fuse.steps_iff.mpr (.inner hstep)) ?_
      obtain ⟨b', hend⟩ := steps_ending hrest h
      have hdrop : Body.Steps (⟨some ⟨m', o⟩⟩ : Fuse (Channel M O)) [] (.ready none) ⟨none⟩ :=
        Fuse.steps_iff.mpr (.inner hend)
      exact .of_step trivial hdrop Fuse.ended_none
  | cons d ds ih =>
      obtain ⟨m', hstep, hrest⟩ := steps_front (o := o) hqueue
      exact (ih hrest).data (Fuse.steps_iff.mpr (.inner hstep))

/-- What is queued, with the ending after it, is the content of the fused channel. -/
theorem Spells.denotes [Buf D] {frames : List (Frame D)} {c : Content D E}
    (hspells : Spells frames ending c) (hqueue : LawfulMpsc.queue m = frames)
    (h : Leaves (LawfulOneshot.slot o) ending) :
    Denotes (Fuse.new (⟨m, o⟩ : Channel M O)) c ∧
      (c.result.toOption.join = none → Denotes (⟨m, o⟩ : Channel M O) c) := by
  cases hspells with
  | data ds hr =>
      have hdelivers := delivers_data hqueue h hr
      have hdenotes : Denotes (⟨m, o⟩ : Channel M O) ⟨ds, _⟩ :=
        .user hdelivers (endStreamSound _)
      exact ⟨.fuse hdenotes, fun _ => hdenotes⟩
  | trailers ds map =>
      refine ⟨.user (fused_delivers_trailers hqueue h) (Fuse.endStreamSound _), ?_⟩
      intro hnone
      cases hnone

end Contents

namespace System

section Denotes

variable [Foreign] {M O D E : Type} [Mpsc M (Frame D)] [Oneshot O E] [LawfulMpsc M]
  [LawfulOneshot O] [Buf D] {buffer : ℕ} {h : List (System M O × Label D E)} {s₀ : System M O}
  {m : M} {o : O} {tx : Sending}

/-- Once the sender is gone, and until the ending was returned, a fused channel is an
expression like any other between two calls: its content is what was sent and not yet
returned, in order, if trailers were sent last or not at all, and it ends as the sender
went.  Without trailers, it need not be fused. -/
theorem denotes_unreturned (hnew : new buffer = .ok s₀)
    (hpath : Path Step s₀ h ⟨m, o, tx, .idle⟩) (htx : tx.Gone)
    (hslot : LawfulOneshot.slot o ≠ .taken) :
    ∃ (frames : List (Frame D)) (ending : Item D E),
      Label.sent (labels h) = Label.received (labels h) ++ frames ∧
      ((ending = none ∧ Label.aborts (labels h) = []) ∨
        ∃ error, ending = .error error ∧ Label.aborts (labels h) = [error]) ∧
      ∀ c : Content D E, Spells frames ending c →
        Denotes (Fuse.new (⟨m, o⟩ : Channel M O)) c ∧
          (c.result.toOption.join = none → Denotes (⟨m, o⟩ : Channel M O) c) := by
  have hs := closing hnew hpath
  obtain ⟨ending, hleaves, hending⟩ := hs.leaves htx hslot
  exact ⟨_, ending, hs.accounted.frames, hending, fun c hspells => hspells.denotes rfl hleaves⟩

end Denotes

/-- A frame is sent and the sender dropped. -/
theorem denotes_unreturned_dropped :
    ∃ (s₀ : System (Queue (Frame Bytes)) (Slot String)) (m : Queue (Frame Bytes))
      (h : List (System (Queue (Frame Bytes)) (Slot String) × Label Bytes String)),
      new 1 = .ok s₀ ∧ Path Step s₀ h ⟨m, .dropped, .dropped, .idle⟩ ∧
        Denotes (⟨m, .dropped⟩ : Channel (Queue (Frame Bytes)) (Slot String))
          (⟨[⟨[1], by decide⟩], .ok none⟩ : Content Bytes String) := by
  obtain ⟨s₀, m, h, hnew, hpath, hslot, hone, hnone, hunaborted⟩ := path_dropped
  obtain ⟨frames, ending, hsent, hending, hdenotes⟩ :=
    denotes_unreturned hnew hpath (.inl rfl) hslot
  have hframes : frames = [(⟨[1], by decide⟩ : Bytes)].map Frame.data := by
    rw [hone, hnone] at hsent
    exact hsent.symm
  subst hframes
  rcases hending with ⟨rfl, -⟩ | ⟨error, -, haborts⟩
  · exact ⟨s₀, m, h, hnew, hpath, (hdenotes _ (.data _ rfl)).2 rfl⟩
  · rw [hunaborted] at haborts
    cases haborts

end System

end HttpBody.Channel
