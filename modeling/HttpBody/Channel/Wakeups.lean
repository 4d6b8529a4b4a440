import HttpBody.Channel.Ended

/-!
# Wakeups of a channel

A task whose last call was pending is parked: it only calls again after its waker
was called.  The call has two wakers to leave, one with each of its inner polls, and
the sender may move between them.  No wakeup is lost all the same: as long as none
has come, a further call would be pending.
-/

namespace HttpBody.Channel

open Support

namespace Label

variable [Foreign] {D E : Type}

/-- The second inner poll of a call that is pending. -/
def isPending : Label D E → Bool
  | .pollError .pending => true
  | _ => false

/-- The last step of the body was the end of a call that was pending. -/
def parked (ls : List (Label D E)) : Bool :=
  ls.foldl (fun parked l => if l.bySender then parked else l.isPending) false

@[simp] theorem parked_snoc (ls : List (Label D E)) (l : Label D E) :
    parked (ls ++ [l]) = if l.bySender then parked ls else l.isPending := by
  simp [parked]

end Label

namespace System

section Wakeups

variable [Foreign] {M O D E : Type} [Mpsc M (Frame D)] [Oneshot O E]
  [WakingMpsc M] [WakingOneshot O]

/-- Whether a step in the state `s` calls the waker of the body. -/
def wakes (s : System M O) : Label D E → Bool
  | .send _ => WakingMpsc.waits s.frames
  | .dropFrame => WakingMpsc.waits s.frames
  | .abortDrop => WakingMpsc.waits s.frames
  | .dropError => WakingOneshot.waits s.error
  | .abort _ => WakingOneshot.waits s.error
  | _ => false

/-- The waker was called since the last call of the body began. -/
def woken (h : List (System M O × Label D E)) : Bool :=
  h.foldl (fun woken p => if p.2.beginsCall then false else woken || wakes p.1 p.2) false

@[simp] theorem woken_snoc (h : List (System M O × Label D E)) (s : System M O)
    (l : Label D E) :
    woken (h ++ [(s, l)]) = if l.beginsCall then false else woken h || wakes s l := by
  simp [woken]

variable [LawfulMpsc M] [LawfulOneshot O]

/-- Nothing is queued, and the next frame would wake the body. -/
structure Quiet (m : M) : Prop where
  empty : LawfulMpsc.queue m = []
  waits : LawfulMpsc.alive m = true → WakingMpsc.waits m = true

omit [Oneshot O E] [WakingMpsc M] [WakingOneshot O] [LawfulOneshot O] in
theorem pollRecv_alive {m m' : M} {frame : Option (Frame D)} (h : pollRecv m = (frame, m')) :
    LawfulMpsc.alive m' = LawfulMpsc.alive m := by
  rcases hqueue : LawfulMpsc.queue m with _ | ⟨f, rest⟩
  · cases halive : LawfulMpsc.alive m with
    | true =>
        obtain ⟨m₁, hrecv, -, halive'⟩ := LawfulMpsc.pollRecv_pending hqueue halive
        simp only [pollRecv, hrecv, Prod.mk.injEq] at h
        rw [← h.2, halive']
    | false =>
        obtain ⟨m₁, hrecv, -, halive'⟩ := LawfulMpsc.pollRecv_none hqueue halive
        simp only [pollRecv, hrecv, Prod.mk.injEq] at h
        rw [← h.2, halive']
  · obtain ⟨m₁, hrecv, -, halive⟩ := LawfulMpsc.pollRecv_cons hqueue
    simp only [pollRecv, hrecv, Prod.mk.injEq] at h
    rw [← h.2, halive]

omit [Oneshot O E] [WakingOneshot O] [LawfulOneshot O] in
/-- A first inner poll without a frame leaves its waker, unless no frame can come. -/
theorem pollRecv_quiet {m m' : M} (h : pollRecv m = (none, m')) : Quiet m' := by
  have hempty : LawfulMpsc.queue m' = [] := (pollRecv_spec h).2 rfl
  refine ⟨hempty, fun halive => ?_⟩
  rw [pollRecv_alive h] at halive
  have hqueue : LawfulMpsc.queue m = [] := by
    simpa [hempty] using (pollRecv_spec h).1
  obtain ⟨m₁, hrecv, -, -⟩ := LawfulMpsc.pollRecv_pending hqueue halive
  simp only [pollRecv, hrecv, Prod.mk.injEq] at h
  exact h.2 ▸ WakingMpsc.pollRecv_pending hrecv

omit [Mpsc M (Frame D)] [WakingMpsc M] [LawfulMpsc M] in
/-- A second inner poll that is pending leaves its waker. -/
theorem pollError_waits {o o' : O}
    (h : (Channel.pollError o : Except Stop (PollFrame D E × O)) = .ok (.pending, o')) :
    LawfulOneshot.slot o' = .waiting ∧ WakingOneshot.waits o' = true := by
  have hslot : LawfulOneshot.slot o = .waiting := (pollError_ok h).of_pending.1
  obtain ⟨o₁, hpoll, hwaiting⟩ := LawfulOneshot.poll_waiting hslot
  rw [Channel.pollError, hpoll] at h
  cases h
  exact ⟨hwaiting, WakingOneshot.poll_pending hpoll⟩

/-- As long as the waker was not called, nothing has come: in the middle of a call
no frame, and after a call that was pending no end either. -/
structure Watched (h : List (System M O × Label D E)) (s : System M O) : Prop where
  alive : LawfulMpsc.alive s.frames = true ↔ s.tx = .active ∨ s.tx = .errorSent
  between : s.rx = .between → woken h = false → Quiet s.frames
  parked : s.rx = .idle → Label.parked (labels h) = true → woken h = false →
    Quiet s.frames ∧ LawfulOneshot.slot s.error = .waiting ∧
      WakingOneshot.waits s.error = true

variable {h : List (System M O × Label D E)} {s s' : System M O} {l : Label D E}

theorem watched_new {buffer : ℕ} (hnew : new buffer = .ok s) :
    Watched ([] : List (System M O × Label D E)) s := by
  cases hchannel : (Mpsc.channel buffer : Except Stop M) with
  | error stop =>
      simp only [new, Channel.new, hchannel] at hnew
      cases hnew
  | ok m =>
      simp only [new, Channel.new, hchannel] at hnew
      cases hnew
      refine ⟨?_, ?_, ?_⟩
      · simp [afterSender, (LawfulMpsc.channel hchannel).2]
      · intro hbetween
        cases hbetween
      · intro _ hparked
        simp [Label.parked] at hparked

/-- A step of the sender at the frames wakes a body that waits for them. -/
theorem Watched.frames (hs : Watched h s) (hby : l.bySender = true)
    (hwakes : wakes s l = WakingMpsc.waits s.frames) (htx : s.tx = .active ∨ s.tx = .errorSent)
    (halive : LawfulMpsc.alive s'.frames = true ↔ s'.tx = .active ∨ s'.tx = .errorSent)
    (hrx : s'.rx = s.rx) : Watched (h ++ [(s, l)]) s' := by
  have hquiet : l.beginsCall = false := by
    cases l <;> first | rfl | cases hby
  have hnot : Quiet s.frames → woken (h ++ [(s, l)]) = true := by
    intro hframes
    rw [woken_snoc, hquiet, hwakes, hframes.waits (hs.alive.mpr htx)]
    simp
  have hbefore : woken (h ++ [(s, l)]) = false → woken h = false := by
    intro hwoken
    rw [woken_snoc, hquiet] at hwoken
    simp at hwoken
    exact hwoken.1
  refine ⟨halive, fun hbetween hwoken => ?_, fun hidle hparked hwoken => ?_⟩
  · have hframes := hs.between (hrx ▸ hbetween) (hbefore hwoken)
    rw [hnot hframes] at hwoken
    cases hwoken
  · rw [labels_append, labels_cons, labels_nil, Label.parked_snoc, hby] at hparked
    have hframes := (hs.parked (hrx ▸ hidle) hparked (hbefore hwoken)).1
    rw [hnot hframes] at hwoken
    cases hwoken

/-- A step of the sender at the error wakes a body that waits for it. -/
theorem Watched.error (hs : Watched h s) (hby : l.bySender = true)
    (hwakes : wakes s l = WakingOneshot.waits s.error) (hframes : s'.frames = s.frames)
    (halive : s'.tx = .active ∨ s'.tx = .errorSent ↔ s.tx = .active ∨ s.tx = .errorSent)
    (hrx : s'.rx = s.rx) : Watched (h ++ [(s, l)]) s' := by
  have hquiet : l.beginsCall = false := by
    cases l <;> first | rfl | cases hby
  have hbefore : woken (h ++ [(s, l)]) = false →
      woken h = false ∧ WakingOneshot.waits s.error = false := by
    intro hwoken
    rw [woken_snoc, hquiet, hwakes] at hwoken
    simpa using hwoken
  refine ⟨?_, fun hbetween hwoken => ?_, fun hidle hparked hwoken => ?_⟩
  · rw [hframes, halive]
    exact hs.alive
  · rw [hframes]
    exact hs.between (hrx ▸ hbetween) (hbefore hwoken).1
  · rw [labels_append, labels_cons, labels_nil, Label.parked_snoc, hby] at hparked
    have hwaits := (hs.parked (hrx ▸ hidle) hparked (hbefore hwoken).1).2.2
    rw [(hbefore hwoken).2] at hwaits
    cases hwaits

theorem Watched.step (hs : Watched h s) (hstep : Step s l s') : Watched (h ++ [(s, l)]) s' := by
  cases hstep with
  | send hsends =>
      obtain ⟨-, halive, -⟩ := hsends.queue
      refine hs.frames rfl rfl (.inl rfl) ?_ rfl
      have hbefore := hs.alive
      simpa [afterSender, halive] using hbefore
  | @dropFrame m o rx =>
      refine hs.frames rfl rfl (.inl rfl) ?_ rfl
      simp [afterSender, Sender.dropFrame, (LawfulMpsc.dropSender m).2]
  | dropError => exact hs.error rfl rfl rfl (by simp [afterSender]) rfl
  | abort error => exact hs.error rfl rfl rfl (by simp [afterSender]) rfl
  | @abortDrop m o rx =>
      refine hs.frames rfl rfl (.inr rfl) ?_ rfl
      simp [afterSender, Sender.dropFrame, (LawfulMpsc.dropSender m).2]
  | received hrecv =>
      refine ⟨?_, ?_, ?_⟩
      · have hbefore := hs.alive
        simpa [pollRecv_alive hrecv] using hbefore
      · intro hbetween
        cases hbetween
      · intro _ hparked
        simp [Label.bySender, Label.isPending] at hparked
  | noFrame hrecv =>
      refine ⟨?_, ?_, ?_⟩
      · have hbefore := hs.alive
        simpa [pollRecv_alive hrecv] using hbefore
      · intro _ _
        exact pollRecv_quiet hrecv
      · intro hidle
        cases hidle
  | @pollError m o tx result o' herror =>
      refine ⟨hs.alive, ?_, ?_⟩
      · intro hbetween
        cases hbetween
      · intro _ hparked hwoken
        have hframes := hs.between rfl (by simpa [Label.beginsCall, wakes] using hwoken)
        rcases result with _ | x
        · exact ⟨hframes, pollError_waits herror⟩
        · simp [Label.bySender, Label.isPending] at hparked
  | panic herror =>
      refine ⟨hs.alive, ?_, ?_⟩
      · intro hbetween
        cases hbetween
      · intro hidle
        cases hidle

omit [WakingMpsc M] [WakingOneshot O] in
/-- A call that finds neither a frame nor the end is pending. -/
theorem pollFrame_pending {m : M} {o : O} (hqueue : LawfulMpsc.queue m = [])
    (hslot : LawfulOneshot.slot o = .waiting) :
    ∃ m' o', Body.Steps (⟨m, o⟩ : Channel M O) [] .pending ⟨m', o'⟩ := by
  obtain ⟨o', hpoll, -⟩ := LawfulOneshot.poll_waiting hslot
  rcases hrecv : pollRecv m with ⟨_ | frame, m'⟩
  · refine ⟨m', o', ?_⟩
    simp only [Call.steps, Body.pollFrame, Channel.pollFrame, hrecv, Channel.pollError, hpoll]
    rfl
  · have hcons := (pollRecv_spec hrecv).1
    rw [hqueue] at hcons
    cases hcons

/-- No wakeup is lost: whatever the sender did, and when, if the last call of the body
was pending and its waker was not called since that call began, then a further call would
be pending as well. -/
theorem no_lost_wakeup {buffer : ℕ} {s₀ : System M O} (hnew : new buffer = .ok s₀)
    (hpath : Path Step s₀ h s) (hidle : s.rx = .idle) (hparked : Label.parked (labels h) = true)
    (hwoken : woken h = false) :
    ∃ m' o', Body.Steps (⟨s.frames, s.error⟩ : Channel M O) [] .pending ⟨m', o'⟩ := by
  have hs : Watched h s :=
    hpath.invariant (watched_new hnew) fun _ _ _ _ hs hstep => hs.step hstep
  obtain ⟨hquiet, hslot, -⟩ := hs.parked hidle hparked hwoken
  exact pollFrame_pending hquiet.empty hslot

end Wakeups

/-- The body is polled before anything was sent. -/
theorem no_lost_wakeup_idle :
    ∃ (s₀ s : System (Waiting (Queue (Frame Bytes))) (Waiting (Slot String)))
      (h : List (System (Waiting (Queue (Frame Bytes))) (Waiting (Slot String)) ×
        Label Bytes String)),
      new 1 = .ok s₀ ∧ Path Step s₀ h s ∧
        ∃ m' o', Body.Steps (⟨s.frames, s.error⟩ :
          Channel (Waiting (Queue (Frame Bytes))) (Waiting (Slot String))) []
          .pending ⟨m', o'⟩ := by
  have hnew : (new 1 : Except Stop (System (Waiting (Queue (Frame Bytes)))
      (Waiting (Slot String)))) =
      .ok ⟨⟨⟨1, [], true⟩, false⟩, ⟨.waiting, false⟩, .active, .idle⟩ := rfl
  have hpath : Path Step
      (⟨⟨⟨1, [], true⟩, false⟩, ⟨.waiting, false⟩, .active, .idle⟩ :
        System (Waiting (Queue (Frame Bytes))) (Waiting (Slot String)))
      [(_, (.pollRecv none : Label Bytes String)),
        (⟨⟨⟨1, [], true⟩, true⟩, ⟨.waiting, false⟩, .active, .between⟩, .pollError .pending)]
      ⟨⟨⟨1, [], true⟩, true⟩, ⟨.waiting, true⟩, .active, .idle⟩ :=
    .cons (.noFrame rfl) (.cons (.pollError rfl) (.nil _))
  exact ⟨_, _, _, hnew, hpath, no_lost_wakeup hnew hpath rfl rfl rfl⟩

end System

end HttpBody.Channel
