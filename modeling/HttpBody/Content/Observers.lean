import HttpBody.Content.Consumers

/-!
# Observers

The closures of `inspect_frame` and `inspect_err` are called with each frame and each error
that passes, once and in order.  Whoever consumes an expression to its end shows them all
of its content.
-/

namespace HttpBody

open Support

/-! ## Closures that were called -/

section Closures

variable {F α ω : Type}

/-- The closure `f` after it was called with each of these values. -/
def sees [FnMut F α Unit] (f : F) (xs : List α) : F :=
  xs.foldl (fun f x => (FnMut.call f x).2) f

/-- A relay that hands its answers on unchanged, and calls its closure with what `pick`
takes from each. -/
theorem relayRun_sees [FnMut F α Unit] {fn : F → ω → ω × F} {pick : ω → Option α}
    (hfn : ∀ f x, fn f x = (x, sees f (pick x).toList)) (f : F) (rs : List (Poll ω)) :
    relayRun fn f rs = (rs, sees f ((readies rs).filterMap pick)) := by
  induction rs generalizing f with
  | nil => rfl
  | cons r rs ih =>
      cases r with
      | pending => rw [relayRun, ih, readies_pending_cons]
      | ready x =>
          rw [relayRun, hfn, ih, readies_ready_cons]
          rcases hpick : pick x with _ | a
          · rw [List.filterMap_cons_none hpick]
            rfl
          · rw [List.filterMap_cons_some hpick]
            rfl

/-- A closure that keeps what it was called with. -/
structure Log (α : Type) where
  seen : List α

instance Log.instFnMut (α : Type) : FnMut (Log α) α Unit :=
  ⟨fun log x => ((), ⟨log.seen ++ [x]⟩)⟩

end Closures

/-! ## What passes -/

section Observers

variable [Foreign] {B D E F G : Type}

/-- The frame of an answer. -/
def Item.frame? : Item D E → Option (Frame D)
  | some (.ok frame) => some frame
  | _ => none

/-- The error of an answer. -/
def Item.error? : Item D E → Option E
  | .error err => some err
  | _ => none

namespace Content

/-- The frames of a body with this content. -/
def frames (c : Content D E) : List (Frame D) :=
  c.items.map Frame.data ++
    match c.result with
    | .ok (some map) => [.trailers map]
    | _ => []

/-- The errors of a body with this content, of which there is one at most. -/
def errors (c : Content D E) : List E :=
  match c.result with
  | .ok _ => []
  | .error err => [err]

/-- Polling on after trailers adds neither a frame nor an error. -/
theorem filterMap_polled {α : Type} (pick : Item D E → Option α) (hfinish : pick none = none)
    (c : Content D E) : c.polled.filterMap pick = c.answers.filterMap pick := by
  rcases c with ⟨items, err | (_ | map)⟩ <;> simp [polled, hfinish]

theorem filterMap_frame? (c : Content D E) : c.answers.filterMap Item.frame? = c.frames := by
  rcases c with ⟨items, r⟩
  induction items with
  | nil => rcases r with err | (_ | map) <;> rfl
  | cons d items ih => exact congrArg (Frame.data d :: ·) ih

theorem filterMap_error? (c : Content D E) : c.answers.filterMap Item.error? = c.errors := by
  rcases c with ⟨items, r⟩
  induction items with
  | nil => rcases r with err | (_ | map) <;> rfl
  | cons d items ih => exact ih

end Content

variable [Body B D E] [FnMut F (Frame D) Unit] [FnMut G E Unit]

theorem InspectFrame.onReady_eq (f : F) (x : Item D E) :
    onReady f x = (x, sees f x.frame?.toList) := by
  rcases x with _ | (_ | _) <;> rfl

theorem InspectErr.onReady_eq (g : G) (x : Item D E) :
    onReady g x = (x, sees g x.error?.toList) := by
  rcases x with _ | (_ | _) <;> rfl

/-- A body whose frames and errors are inspected. -/
abbrev Inspected (B F G : Type) := InspectErr (InspectFrame B F) G

/-- The body `b` with closures that were called with these frames and errors. -/
def Inspected.after (b : B) (f : F) (frames : List (Frame D)) (g : G) (errors : List E) :
    Inspected B F G :=
  ⟨⟨b, sees f frames⟩, sees g errors⟩

/-- The runs of an inspected body are those of the body, and each frame and each error was
shown once and in order. -/
theorem Inspected.runs_iff {b : B} {f : F} {g : G} {rs : List (PollFrame D E)}
    {w : Inspected B F G} :
    Runs Body.Steps (InspectErr.new (InspectFrame.new b f) g) rs w ↔
      ∃ b', Runs Body.Steps b rs b' ∧
        w = Inspected.after b' f ((readies rs).filterMap Item.frame?) g
          ((readies rs).filterMap Item.error?) := by
  constructor
  · intro hrun
    obtain ⟨qs, w', hqs, rfl, rfl⟩ := InspectErr.relays.runs (s := g) hrun
    obtain ⟨ps, b', hps, rfl, rfl⟩ := InspectFrame.relays.runs (s := f) hqs
    simp only [relayRun_sees InspectErr.onReady_eq, relayRun_sees InspectFrame.onReady_eq]
    exact ⟨b', hps, rfl⟩
  · rintro ⟨b', hrun, rfl⟩
    have hframes := (InspectFrame.relays.runs_iff (s := f)).mpr ⟨rs, b', hrun, rfl, rfl⟩
    have herrors := (InspectErr.relays.runs_iff (s := g)).mpr ⟨_, _, hframes, rfl, rfl⟩
    simp only [relayRun_sees InspectErr.onReady_eq, relayRun_sees InspectFrame.onReady_eq]
      at herrors
    exact herrors

variable [Buf D] {b : B} {c : Content D E}

/-- The closures of an inspected body were shown this content. -/
def Inspected.Shown (f : F) (g : G) (c : Content D E) (w : Inspected B F G) : Prop :=
  w.inner.f = sees f c.frames ∧ w.f = sees g c.errors

omit [Buf D] in
theorem Inspected.shown_of_polled {f : F} {g : G} {w : Inspected B F G} {os : List (Item D E)}
    (hall : AwaitsAll Body.Steps (InspectErr.new (InspectFrame.new b f) g) os w)
    (hframes : os.filterMap Item.frame? = c.frames)
    (herrors : os.filterMap Item.error? = c.errors) : Shown f g c w := by
  obtain ⟨rs, hrun, rfl⟩ := hall.runs
  obtain ⟨b', -, rfl⟩ := runs_iff.mp hrun
  rw [hframes, herrors]
  exact ⟨rfl, rfl⟩

/-- In every run, the closures of `inspect_frame` and `inspect_err` were shown each frame
and each error once and in order, and changed nothing.  Polled to its end, streamed or
collected, an expression has shown them all frames of its content, and its error. -/
theorem inspected_once (h : Denotes b c) (f : F) (g : G) :
    (∀ {rs w}, Runs Body.Steps (InspectErr.new (InspectFrame.new b f) g) rs w ↔
      ∃ b', Runs Body.Steps b rs b' ∧
        w = Inspected.after b' f ((readies rs).filterMap Item.frame?) g
          ((readies rs).filterMap Item.error?)) ∧
      Gives Body.Steps c.answers (Inspected.Shown f g c)
        (InspectErr.new (InspectFrame.new b f) g) ∧
      Gives BodyDataStream.Steps c.dataAnswers (fun self => Inspected.Shown f g c self.body)
        (.new (InspectErr.new (InspectFrame.new b f) g)) ∧
      Gives Collect.Steps [c.collected] (fun me => Inspected.Shown f g c me.body)
        (.new (InspectErr.new (InspectFrame.new b f) g)) := by
  have hinspected : Denotes (InspectErr.new (InspectFrame.new b f) g) c :=
    .inspectErr g (.inspectFrame f h)
  have hpolled : ∀ {w : Inspected B F G},
      AwaitsAll Body.Steps (InspectErr.new (InspectFrame.new b f) g) c.polled w →
        Inspected.Shown f g c w := by
    intro w hall
    have hframes := (c.filterMap_polled Item.frame? rfl).trans c.filterMap_frame?
    have herrors := (c.filterMap_polled Item.error? rfl).trans c.filterMap_error?
    exact Inspected.shown_of_polled hall hframes herrors
  refine ⟨Inspected.runs_iff, ?_, ?_, ?_⟩
  · obtain ⟨w, hall, -⟩ := hinspected.delivers.awaitsAll
    have hshown := Inspected.shown_of_polled hall c.filterMap_frame? c.filterMap_error?
    exact hall.gives (Call.steps_functional _) hshown
  · obtain ⟨w, hall, -, hpoll⟩ := BodyDataStream.awaits_content hinspected.delivers
    exact hall.gives (Call.loops_functional _) (hpolled hpoll)
  · obtain ⟨me, hawait, hpoll⟩ := Collect.awaits_content hinspected.delivers .empty
    have hall : AwaitsAll Collect.Steps (.new _) [c.collected] me := .cons hawait (.nil _)
    exact hall.gives (Call.loops_functional _) (hpolled hpoll)

end Observers

/-- Collecting two chunks, of which a closure keeps a log. -/
theorem inspected_once_chain :
    ∃ collected : Collected Bytes,
      Gives Collect.Steps [(.ok collected : Except Infallible (Collected Bytes))]
        (fun me => me.body.inner.f = ⟨[.data ⟨[1], by decide⟩, .data ⟨[2], by decide⟩]⟩ ∧
          me.body.f = ⟨[]⟩)
        (Collect.new (InspectErr.new (InspectFrame.new
          (Chain.new (Full.new (⟨[1], by decide⟩ : Bytes)) (Full.new (⟨[2], by decide⟩ : Bytes)))
          (⟨[]⟩ : Log (Frame Bytes))) (⟨[]⟩ : Log Infallible))) := by
  have hfirst : Denotes (Full.new (⟨[1], by decide⟩ : Bytes)) (.chunk _) := .full _
  have hsecond : Denotes (Full.new (⟨[2], by decide⟩ : Bytes)) (.chunk _) := .full _
  obtain ⟨-, -, -, hgives⟩ := inspected_once (.chain hfirst hsecond)
    (⟨[]⟩ : Log (Frame Bytes)) (⟨[]⟩ : Log Infallible)
  exact ⟨_, hgives⟩

end HttpBody
