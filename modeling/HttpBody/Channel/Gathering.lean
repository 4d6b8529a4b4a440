import HttpBody.Channel.Draining
import HttpBody.Collect.Outcome

/-!
# Collecting a channel

A task that collects a channel body polls it until its end, while the sender goes on
with its steps between any two inner polls.  What it collects are the frames that the
body returned, whatever the interleaving.
-/

namespace HttpBody.Channel

open Support

/-- The channel, its sender and the task: what the task has collected, and what it has
resolved to. -/
structure Gathering [Foreign] (M O D E : Type) where
  system : System M O
  collected : Option (Collected D)
  outcome : Option (Except E (Collected D))

namespace Gathering

section

variable [Foreign] {M O D E : Type} [Buf D] [Mpsc M (Frame D)] [Oneshot O E]

/-- The task right after `Channel::new` and `BodyExt::collect`. -/
def new (buffer : ℕ) : Except Stop (Gathering M O D E) := do
  let system ← System.new buffer
  return ⟨system, some .empty, none⟩

/-- What the loop of `Collect::poll` makes of the result of a call, when `c` was collected
before: what is collected then, and what the task resolves to. -/
inductive Gathers (c : Collected D) :
    PollFrame D E → Option (Collected D) → Option (Except E (Collected D)) → Prop where
  | pending : Gathers c .pending (some c) none
  | frame {frame c'} : c.pushFrame frame = .ok c' →
      Gathers c (.ready (some (.ok frame))) (some c') none
  | finish : Gathers c (.ready none) none (some (.ok c))
  | error (error : E) : Gathers c (.ready (.error error)) (some c) (some (.error error))

/-- The steps of the sender, and those of the body in the loop of `Collect::poll`. -/
inductive Step : Gathering M O D E → Label D E → Gathering M O D E → Prop where
  | sender {s s' l c x} : System.Step s l s' → l.bySender = true →
      Step ⟨s, c, x⟩ l ⟨s', c, x⟩
  | received {s s' c c' x frame} : System.Step s (.pollRecv (some frame) : Label D E) s' →
      Gathers c (.ready (some (.ok frame))) c' x →
      Step ⟨s, some c, none⟩ (.pollRecv (some frame)) ⟨s', c', x⟩
  | noFrame {s s' c} : System.Step s (.pollRecv none : Label D E) s' →
      Step ⟨s, some c, none⟩ (.pollRecv none) ⟨s', some c, none⟩
  | decided {s s' c c' x result} : System.Step s (.pollError result : Label D E) s' →
      Gathers c result c' x → Step ⟨s, some c, none⟩ (.pollError result) ⟨s', c', x⟩

theorem Step.system {g g' : Gathering M O D E} {l : Label D E} (h : Step g l g') :
    System.Step g.system l g'.system := by
  cases h <;> assumption

/-- The steps of the system in a path of the task. -/
def systemPath (h : List (Gathering M O D E × Label D E)) : List (System M O × Label D E) :=
  h.map fun p => (p.1.system, p.2)

omit [Buf D] [Mpsc M (Frame D)] [Oneshot O E] in
@[simp] theorem labels_systemPath (h : List (Gathering M O D E × Label D E)) :
    labels (systemPath h) = labels h := by
  simp [labels, systemPath]

/-! ## The turns of the task -/

/-- What a turn of the loop resolves to. -/
def outcomeOf : Poll (Option (Except E (Collected D))) → Option (Except E (Collected D))
  | .ready (some x) => some x
  | _ => none

/-- A turn of the loop polls the body once. -/
theorem gathers_of_turn {c : Collected D} {c' : Option (Collected D)} {b b' : Channel M O}
    {t : List Event} {r : Poll (Option (Except E (Collected D)))}
    (h : Call.steps Collect.turn ⟨some c, b⟩ t r ⟨c', b'⟩) :
    ∃ result, Body.Steps b t result b' ∧ Gathers c result c' (outcomeOf r) := by
  cases Collect.turn_cases h with
  | pending hpoll => exact ⟨_, hpoll, .pending⟩
  | finish hpoll => exact ⟨_, hpoll, .finish⟩
  | error hpoll => exact ⟨_, hpoll, .error _⟩
  | frame hpoll hpush => exact ⟨_, hpoll, .frame hpush⟩

/-- A call of the body, as steps of the task. -/
theorem call_path {s s' : System M O} {h : List (System M O × Label D E)}
    {result : PollFrame D E} (hpath : Path System.Step s h s')
    (hcall : System.CallLabels result (labels h)) {c : Collected D} {c' : Option (Collected D)}
    {x : Option (Except E (Collected D))} (hgathers : Gathers c result c' x) :
    ∃ h' : List (Gathering M O D E × Label D E),
      Path Step ⟨s, some c, none⟩ h' ⟨s', c', x⟩ ∧ systemPath h' = h := by
  generalize hls : labels h = ls at hcall
  cases hcall with
  | received frame =>
      rcases hpath with _ | ⟨hstep, hrest⟩
      · cases hls
      · rcases hrest with _ | ⟨-, -⟩
        · cases hls
          exact ⟨_, .cons (.received hstep hgathers) (.nil _), rfl⟩
        · cases hls
  | decided =>
      rcases hpath with _ | ⟨hfirst, hrest⟩
      · cases hls
      · rcases hrest with _ | ⟨hsecond, hend⟩
        · cases hls
        · rcases hend with _ | ⟨-, -⟩
          · cases hls
            exact ⟨_, .cons (.noFrame hfirst) (.cons (.decided hsecond hgathers) (.nil _)), rfl⟩
          · cases hls

/-- Without a step of the sender in it, a turn of the loop of `Collect::poll` is such a
path. -/
theorem turn_path {m m' : M} {o o' : O} {c : Collected D} {c' : Option (Collected D)}
    {t : List Event} {r : Poll (Option (Except E (Collected D)))} (tx : Sending)
    (h : Call.steps Collect.turn ⟨some c, (⟨m, o⟩ : Channel M O)⟩ t r ⟨c', ⟨m', o'⟩⟩) :
    ∃ h : List (Gathering M O D E × Label D E),
      Path Step ⟨⟨m, o, tx, .idle⟩, some c, none⟩ h ⟨⟨m', o', tx, .idle⟩, c', outcomeOf r⟩ := by
  obtain ⟨result, hpoll, hgathers⟩ := gathers_of_turn h
  obtain ⟨hs, hpath, hcall⟩ := System.pollFrame_path tx hpoll
  obtain ⟨h', hgather, -⟩ := call_path hpath hcall hgathers
  exact ⟨h', hgather⟩

/-! ## What the task has collected -/

section Gathered

open Collect (Collects)

variable [LawfulMpsc M] [LawfulOneshot O]

omit [Buf D] in
/-- A step of the sender does not use up its error. -/
theorem untaken_of_sender {h : List (System M O × Label D E)} {s s' : System M O}
    {l : Label D E} (hs : System.Accounted h s) (hstep : System.Step s l s')
    (hby : l.bySender = true) (hslot : LawfulOneshot.slot s.error ≠ .taken) :
    LawfulOneshot.slot s'.error ≠ .taken := by
  cases hstep with
  | send hsends =>
      obtain ⟨-, -, herror⟩ := hsends.queue
      simpa [System.afterSender, herror] using hslot
  | dropFrame => exact hslot
  | dropError =>
      intro htaken
      cases (LawfulOneshot.dropSender hs.slot.of_frameDropped).symm.trans htaken
  | abort error =>
      intro htaken
      cases (LawfulOneshot.send error hs.slot.of_active).symm.trans htaken
  | abortDrop => exact hslot
  | _ => cases hby

/-- The task has collected the frames that were returned.  When it resolves, the sender is
gone: it was dropped without an abort, or it was aborted with the error. -/
structure Gathered (h : List (Gathering M O D E × Label D E)) (g : Gathering M O D E) :
    Prop where
  closing : System.Closing (systemPath h) g.system
  running : g.outcome = none → LawfulOneshot.slot g.system.error ≠ .taken ∧
    ∃ c, g.collected = some c ∧
      Collects c (frameResults (Label.received (labels h)) : List (PollFrame D E))
  ok : ∀ c, g.outcome = some (.ok c) → g.system.tx = .dropped ∧
    Collects c (frameResults (Label.received (labels h)) : List (PollFrame D E))
  error : ∀ error, g.outcome = some (.error error) →
    (g.system.tx = .errorSent ∨ g.system.tx = .aborted) ∧ Label.aborts (labels h) = [error]

omit [Buf D] [Mpsc M (Frame D)] [Oneshot O E] [LawfulMpsc M] [LawfulOneshot O] in
theorem received_sender {ls : List (Label D E)} {l : Label D E} (hby : l.bySender = true) :
    Label.received (ls ++ [l]) = Label.received ls := by
  cases l with
  | pollRecv _ => cases hby
  | _ => simp [Label.received]

theorem Gathered.step {h : List (Gathering M O D E × Label D E)} {g g' : Gathering M O D E}
    {l : Label D E} (hg : Gathered h g) (hstep : Step g l g') : Gathered (h ++ [(g, l)]) g' := by
  have hclosing : System.Closing (systemPath (h ++ [(g, l)])) g'.system := by
    have hnext := hg.closing.step hstep.system
    simpa [systemPath] using hnext
  cases hstep with
  | @sender s s' l c x hsystem hby =>
      have hreceived : Label.received (labels h ++ [l]) = Label.received (labels h) :=
        received_sender hby
      refine ⟨hclosing, fun hnone => ?_, fun c' hok => ?_, fun error herror => ?_⟩
      · obtain ⟨hslot, hcollected⟩ := hg.running hnone
        refine ⟨untaken_of_sender hg.closing.accounted hsystem hby hslot, ?_⟩
        simpa [hreceived] using hcollected
      · -- a sender that was dropped has no steps left
        have htx : s.tx = .dropped := (hg.ok c' hok).1
        cases hsystem with
        | received _ => cases hby
        | noFrame _ => cases hby
        | pollError _ => cases hby
        | panic _ => cases hby
        | _ => cases htx
      · obtain ⟨htx, haborts⟩ := hg.error error herror
        cases hsystem with
        | abortDrop =>
            refine ⟨.inr rfl, ?_⟩
            simpa [Label.aborts] using haborts
        | send _ => simp at htx
        | dropFrame => simp at htx
        | dropError => simp at htx
        | abort _ => simp at htx
        | _ => cases hby
  | @received s s' c c' x frame hsystem hgathers =>
      obtain ⟨hslot, c₀, hc₀, hcollects⟩ := hg.running rfl
      cases hc₀
      cases hgathers with
      | @frame _ c' hpush =>
          have hslot' : LawfulOneshot.slot s'.error ≠ .taken := by
            cases hsystem with
            | received _ => exact hslot
          obtain ⟨c₁, hpush₁, hcollects₁⟩ := hcollects.pushFrame frame
          cases hpush.symm.trans hpush₁
          refine ⟨hclosing, fun _ => ⟨hslot', c', rfl, ?_⟩, ?_, ?_⟩
          · simpa [Label.received, frameResults] using hcollects₁
          · intro c hok
            cases hok
          · intro error herror
            cases herror
  | @noFrame s s' c hsystem =>
      obtain ⟨hslot, hcollected⟩ := hg.running rfl
      have hslot' : LawfulOneshot.slot s'.error ≠ .taken := by
        cases hsystem with
        | noFrame _ => exact hslot
      refine ⟨hclosing, fun _ => ⟨hslot', ?_⟩, ?_, ?_⟩
      · simpa [Label.received] using hcollected
      · intro c hok
        cases hok
      · intro error herror
        cases herror
  | @decided s s' c c' x result hsystem hgathers =>
      obtain ⟨hslot, c₀, hc₀, hcollects⟩ := hg.running rfl
      cases hc₀
      obtain ⟨-, hdecides⟩ := System.decides_of_step hsystem
      have htx : s'.tx = s.tx := by
        cases hsystem with
        | pollError _ => rfl
      have hreceived : Label.received (labels (h ++ [(⟨s, some c, none⟩, .pollError result)])) =
          Label.received (labels h) := by
        simp [Label.received]
      cases hgathers with
      | pending =>
          refine ⟨hclosing, fun _ => ⟨?_, c, rfl, hreceived ▸ hcollects⟩, ?_, ?_⟩
          · intro htaken
            cases hdecides.of_pending.2.symm.trans htaken
          · intro c hok
            cases hok
          · intro error herror
            cases herror
      | frame _ => exact (hdecides.not_frame).elim
      | finish =>
          refine ⟨hclosing, ?_, ?_, ?_⟩
          · intro hnone
            cases hnone
          · intro c' hok
            cases hok
            exact ⟨htx.trans (hg.closing.accounted.slot.of_slot_dropped hdecides.of_finish.1),
              hreceived ▸ hcollects⟩
          · intro error herror
            cases herror
      | error error =>
          have hsent := hdecides.of_error
          refine ⟨hclosing, ?_, ?_, ?_⟩
          · intro hnone
            cases hnone
          · intro c' hok
            cases hok
          · intro error' herror
            cases herror
            have haborts := hg.closing.aborted error hsent
            refine ⟨?_, by simpa [Label.aborts] using haborts⟩
            rw [htx]
            exact hg.closing.accounted.slot.of_sent hsent

omit [Buf D] [LawfulMpsc M] [LawfulOneshot O] in
theorem new_spec {buffer : ℕ} {g : Gathering M O D E} (h : new buffer = .ok g) :
    ∃ s, System.new buffer = .ok s ∧ g = ⟨s, some .empty, none⟩ := by
  cases hsystem : (System.new buffer : Except Stop (System M O)) with
  | error stop =>
      simp only [new, hsystem] at h
      cases h
  | ok s =>
      simp only [new, hsystem] at h
      cases h
      exact ⟨s, rfl, rfl⟩

theorem gathered {buffer : ℕ} {h : List (Gathering M O D E × Label D E)}
    {g₀ g : Gathering M O D E} (hnew : new buffer = .ok g₀) (hpath : Path Step g₀ h g) :
    Gathered h g := by
  obtain ⟨s, hs, rfl⟩ := new_spec hnew
  refine hpath.invariant ⟨System.closing_new hs, fun _ => ⟨?_, .empty, rfl, ?_⟩, ?_, ?_⟩
    fun _ _ _ _ hg hstep => hg.step hstep
  · intro htaken
    cases (System.new_spec hs).2.2.1.symm.trans htaken
  · exact Collect.collects_empty
  · intro c hok
    cases hok
  · intro error herror
    cases herror

omit [Buf D] [Mpsc M (Frame D)] [Oneshot O E] [LawfulMpsc M] [LawfulOneshot O] in
theorem onlyFrames_frameResults (frames : List (Frame D)) :
    Collect.OnlyFrames (frameResults frames : List (PollFrame D E)) ∧
      suspensions (frameResults frames : List (PollFrame D E)) = 0 := by
  induction frames with
  | nil => exact ⟨.nil, rfl⟩
  | cons frame frames ih => exact ⟨.frame frame ih.1, ih.2⟩

omit [LawfulMpsc M] [LawfulOneshot O] in
/-- A body that is drained is collected in one call. -/
theorem collect_drained {b b' : Channel M O} {c : Collected D} {qs : List (PollFrame D E)}
    {frames : List (Frame D)} {ending : Item D E}
    (hrun : Runs Body.Steps b (frameResults frames ++ [.ready ending]) b') (hc : Collects c qs) :
    (ending = none → ∃ col me', Runs Collect.Steps ⟨some c, b⟩ [.ready (.ok col)] me' ∧
        Collects col (qs ++ frameResults frames)) ∧
      ∀ error, ending = .error error →
        ∃ me', Runs Collect.Steps ⟨some c, b⟩ [.ready (.error error)] me' := by
  obtain ⟨t, htraced⟩ := hrun.traced
  obtain ⟨honly, hsuspensions⟩ := onlyFrames_frameResults (E := E) frames
  constructor
  · rintro rfl
    obtain ⟨col, hcol, hcollect⟩ := Collect.collect_run (fun c => .ready (.ok c))
      (fun _ => none) htraced honly (fun _ _ _ _ => Collect.steps_finish) hc
    rw [hsuspensions] at hcollect
    exact ⟨col, _, hcollect.runs, hcol⟩
  · rintro error rfl
    obtain ⟨col, -, hcollect⟩ := Collect.collect_run (fun _ => .ready (.error error)) some
      htraced honly (fun _ _ _ _ => Collect.steps_error) hc
    rw [hsuspensions] at hcollect
    exact ⟨_, hcollect.runs⟩

/-- Collecting a channel, whatever the interleaving with its sender.  The task only resolves to
frames when the sender was not aborted, and to an error only when it was aborted with that
error; the frames are those that the body returned, the first of those that were sent.  If
the sender is gone while the task is parked, its next call resolves, and nothing is lost: to
all frames that were sent, or to the error of the abort. -/
theorem gathers_sent {buffer : ℕ} {h : List (Gathering M O D E × Label D E)}
    {g₀ g : Gathering M O D E} (hnew : new buffer = .ok g₀) (hpath : Path Step g₀ h g) :
    (∀ col, g.outcome = some (.ok col) → Label.aborts (labels h) = [] ∧
        Collects col (frameResults (Label.received (labels h)) : List (PollFrame D E)) ∧
        Label.received (labels h) <+: Label.sent (labels h)) ∧
      (∀ error, g.outcome = some (.error error) → Label.aborts (labels h) = [error]) ∧
      (g.outcome = none → g.system.rx = .idle → g.system.tx.Gone →
        ∃ c outcome me', g.collected = some c ∧
          Runs Collect.Steps ⟨some c, (⟨g.system.frames, g.system.error⟩ : Channel M O)⟩
            [.ready outcome] me' ∧
          ((∃ col, outcome = .ok col ∧ Label.aborts (labels h) = [] ∧
              Collects col (frameResults (Label.sent (labels h)) : List (PollFrame D E))) ∨
            ∃ error, outcome = .error error ∧ Label.aborts (labels h) = [error])) := by
  have hg := gathered hnew hpath
  have hframes := hg.closing.accounted.frames
  rw [labels_systemPath] at hframes
  refine ⟨fun col hok => ?_, fun error herror => (hg.error error herror).2, ?_⟩
  · obtain ⟨htx, hcollects⟩ := hg.ok col hok
    have hunaborted := hg.closing.unaborted (by simp [htx]) (by simp [htx])
    rw [labels_systemPath] at hunaborted
    exact ⟨hunaborted, hcollects, hframes ▸ List.prefix_append _ _⟩
  · intro hnone _ hgone
    obtain ⟨hslot, c, hc, hcollects⟩ := hg.running hnone
    obtain ⟨ending, hleaves, hending⟩ := hg.closing.leaves hgone hslot
    rw [labels_systemPath] at hending
    obtain ⟨b', hrun⟩ := runs_drain (m := g.system.frames) hleaves
    obtain ⟨hends, hfails⟩ := collect_drained hrun hcollects
    rcases hending with ⟨rfl, haborts⟩ | ⟨error, rfl, haborts⟩
    · obtain ⟨col, me', hcollect, hcol⟩ := hends rfl
      refine ⟨c, .ok col, me', hc, hcollect, .inl ⟨col, rfl, haborts, ?_⟩⟩
      rw [hframes, frameResults, List.map_append]
      exact hcol
    · obtain ⟨me', hcollect⟩ := hfails error rfl
      exact ⟨c, .error error, me', hc, hcollect, .inr ⟨error, rfl, haborts⟩⟩

end Gathered

end

/-- A frame is sent and returned, then another one is sent and the sender dropped. -/
theorem gathers_sent_two :
    ∃ (g₀ g : Gathering (Queue (Frame Bytes)) (Slot String) Bytes String)
      (h : List (Gathering (Queue (Frame Bytes)) (Slot String) Bytes String × Label Bytes String)),
      new 1 = .ok g₀ ∧ Path Step g₀ h g ∧ g.outcome = none ∧ g.system.rx = .idle ∧
        g.system.tx = .dropped ∧
        ∃ c outcome me', g.collected = some c ∧
          Runs Collect.Steps ⟨some c, (⟨g.system.frames, g.system.error⟩ :
            Channel (Queue (Frame Bytes)) (Slot String))⟩ [.ready outcome] me' := by
  have hnew : (new 1 : Except Stop (Gathering (Queue (Frame Bytes)) (Slot String) Bytes String)) =
      .ok ⟨⟨⟨1, [], true⟩, .waiting, .active, .idle⟩, some .empty, none⟩ := rfl
  have hpush : (Collected.empty : Collected Bytes).pushFrame (.data ⟨[1], by decide⟩) =
      .ok ⟨⟨[⟨[1], by decide⟩]⟩, none⟩ := rfl
  have hpath := Path.cons (Step.sender (System.step_send_chunk .idle) rfl)
    (.cons (Step.received (.received rfl) (.frame hpush))
      (.cons (Step.sender (System.step_send_chunk .idle) rfl)
        (.cons (Step.sender .dropFrame rfl) (.cons (Step.sender .dropError rfl) (.nil _)))))
  obtain ⟨c, outcome, me', hc, hrun, -⟩ :=
    (gathers_sent hnew hpath).2.2 rfl rfl (.inl rfl)
  exact ⟨_, _, _, hnew, hpath, rfl, rfl, rfl, c, outcome, me', hc, hrun⟩

end Gathering

end HttpBody.Channel
