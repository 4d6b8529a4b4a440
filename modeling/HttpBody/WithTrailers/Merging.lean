import HttpBody.Chain.WholeRun
import HttpBody.Support.Lockstep
import HttpBody.Util.Wrappers
import HttpBody.WithTrailers.Finality

/-!
# Two ways to merge trailers

The trailers of a future can be added to a body directly, or by chaining the
body with an empty one that has them.  The two are different state machines, but
make the same calls until the end or an error.
-/

namespace HttpBody

open Support

/-- An empty body of any error type: `Empty` itself, or `Empty` with its error
type mapped. -/
inductive EmptyBody [Foreign] : ∀ {Z D E : Type} [Body Z D E], Z → Prop where
  | empty (D : Type) : EmptyBody (Empty.new D)
  | mapErr (D : Type) {F E : Type} [FnMut F Infallible E] (f : F) :
      EmptyBody (MapErr.new (Empty.new D) f)

namespace WithTrailers

section

variable [Foreign] {Z T F D E : Type}

variable [Body Z D E] [Body T D E] [Future F (Option (Except E HeaderMap))]

/-- An empty body polls nothing, and stays as it is. -/
theorem pollFrame_empty {z : Z} (hz : EmptyBody z) :
    Body.pollFrame z = ⟨[], .ok (.ready none, z)⟩ := by
  cases hz with
  | empty D => rfl
  | mapErr D f => rfl

/-- The answers at which a run is over. -/
def endsRun : PollFrame D E → Bool
  | .ready none => true
  | .ready (some (.error _)) => true
  | _ => false

/-- A body with added trailers and a chain with an empty body that has them, in
corresponding states. -/
inductive Merging (z : Z) : WithTrailers T F → Chain T (WithTrailers Z F) → Prop where
  | body (b : T) (f : F) :
      Merging z (.pollBody b (some f)) (.first b (some (.pollBody z (some f))))
  | trailers (f : F) (prev : Option HeaderMap) :
      Merging z (.pollTrailers f prev) (.second (.pollTrailers f none) prev)
  | done : Merging z .done .finished

/-! ## Corresponding calls -/

omit [Body T D E] [Future F (Option (Except E HeaderMap))] in
/-- A future without an error adds its trailers to those before it. -/
theorem resolved_ok (f : F) (prev tf : Option HeaderMap) :
    (resolved (D := D) (E := E) (T := T) f prev (tf.map .ok)).1 =
      Item.ofTrailers (mergeTrailers prev tf) := by
  rcases prev with _ | prev
  · rcases tf with _ | new
    · rfl
    · rfl
  · rcases tf with _ | new
    · rfl
    · rfl

omit [Body T D E] [Future F (Option (Except E HeaderMap))] in
theorem resolved_done (f : F) {prev tf : Option HeaderMap} {map : HeaderMap}
    (hmap : mergeTrailers prev tf = some map) :
    (resolved (D := D) (E := E) (T := T) f prev (tf.map .ok)).2 = .done := by
  rcases prev with _ | prev
  · rcases tf with _ | new
    · cases hmap
    · rfl
  · rcases tf with _ | new
    · rfl
    · rfl

theorem related_resolved (z : Z) {f f' : F} {t : List Event} (prev tf : Option HeaderMap)
    (hf : Future.poll f = ⟨t, .ok (.ready (tf.map .ok : Option (Except E HeaderMap)), f')⟩) :
    Call.RelatedUntil endsRun (Merging z)
      (Body.pollFrame (.pollTrailers f prev : WithTrailers T F))
      (Body.pollFrame (.second (.pollTrailers f none) prev : Chain T (WithTrailers Z F))) := by
  have hleft : Body.Steps (.pollTrailers f prev : WithTrailers T F) t
      (.ready (Item.ofTrailers (mergeTrailers prev tf)))
      (resolved (D := D) f' prev (tf.map .ok)).2 :=
    resolved_ok f' prev tf ▸ steps_of_step (.futureReady hf)
  have hinner : Body.Steps (.pollTrailers f none : WithTrailers Z F) t
      (.ready (Item.ofTrailers tf)) (resolved (D := D) f' none (tf.map .ok)).2 :=
    resolved_ok f' none tf ▸ steps_of_step (.futureReady hf)
  have hright := Chain.steps_of_step
    (.secondEnds hinner (.ofTrailers tf) : Chain.Step (A := T) (.second _ prev) _ _ _)
  rcases hmap : mergeTrailers prev tf with _ | map
  · rw [hmap] at hleft hright
    exact .ofLast hleft hright rfl
  · rw [hmap] at hleft hright
    rw [resolved_done f' hmap] at hleft
    exact .ofNext hleft hright .done

theorem related_trailers (z : Z) (f : F) (prev : Option HeaderMap) :
    Call.RelatedUntil endsRun (Merging z)
      (Body.pollFrame (.pollTrailers f prev : WithTrailers T F))
      (Body.pollFrame (.second (.pollTrailers f none) prev : Chain T (WithTrailers Z F))) := by
  rcases hf : Future.poll f with ⟨t, stop | ⟨_ | (_ | (err | new)), f'⟩⟩
  · have hleft : Body.pollFrame (.pollTrailers f prev : WithTrailers T F) = ⟨t, .error stop⟩ :=
      Call.bind_eq_error.mpr (.inl hf)
    have hinner : Body.pollFrame (.pollTrailers f none : WithTrailers Z F) = ⟨t, .error stop⟩ :=
      Call.bind_eq_error.mpr (.inl hf)
    have hright :
        Body.pollFrame (.second (.pollTrailers f none) prev : Chain T (WithTrailers Z F)) =
          ⟨t, .error stop⟩ := Chain.second_stops hinner
    exact .ofStops hleft hright
  · have hinner : Body.Steps (.pollTrailers f none : WithTrailers Z F) t .pending
        (.pollTrailers f' none) := steps_of_step (.futurePending hf)
    have hright := Chain.steps_of_step
      (.secondPending hinner : Chain.Step (A := T) (.second _ prev) _ _ _)
    exact .ofNext (steps_of_step (.futurePending hf)) hright (.trailers f' prev)
  · exact related_resolved z prev none hf
  · have hinner : Body.Steps (.pollTrailers f none : WithTrailers Z F) t (.ready (.error err))
        (.pollTrailers f' none) := steps_of_step (.futureReady hf)
    have hright := Chain.steps_of_step
      (.secondError hinner : Chain.Step (A := T) (.second _ prev) _ _ _)
    exact .ofLast (steps_of_step (.futureReady hf)) hright rfl
  · exact related_resolved z prev (some new) hf

/-- The call in which the body ends goes on with the future. -/
theorem pollFrame_ends {b b' : T} {x : Item D E} {prev : Option HeaderMap} {t : List Event}
    (f : F) (hb : Body.pollFrame b = ⟨t, .ok (.ready x, b')⟩) (hx : Item.Ends x prev) :
    Body.pollFrame (.pollBody b (some f) : WithTrailers T F) =
      (Body.pollFrame (.pollTrailers f prev : WithTrailers T F)).after t := by
  change pollFrame _ = _
  rw [pollFrame, hb]
  cases hx with
  | finish => rfl
  | trailers map => rfl

/-- Once the body has ended, both go on with the future. -/
theorem related_ends {z : Z} (hz : EmptyBody z) {b b' : T} (f : F) {t : List Event}
    {x : Item D E} {prev : Option HeaderMap} (hb : Body.pollFrame b = ⟨t, .ok (.ready x, b')⟩)
    (hx : Item.Ends x prev) :
    Call.RelatedUntil endsRun (Merging z)
      (Body.pollFrame (.pollBody b (some f) : WithTrailers T F))
      (Body.pollFrame (.first b (some (.pollBody z (some f))) : Chain T (WithTrailers Z F))) := by
  have hempty : Body.pollFrame (.pollBody z (some f) : WithTrailers Z F) =
      Body.pollFrame (.pollTrailers f none : WithTrailers Z F) := by
    change pollFrame _ = pollFrame _
    rw [pollFrame, pollFrame, pollFrame_empty hz]
    rfl
  have hright : Body.pollFrame (.first b (some (.pollBody z (some f))) :
      Chain T (WithTrailers Z F)) =
        (Body.pollFrame (.second (.pollTrailers f none) prev :
          Chain T (WithTrailers Z F))).after t := by
    change Chain.pollFrame _ = (Chain.pollSecond _ _).after t
    rw [Chain.pollSecond, ← hempty, Chain.pollFrame, hb]
    cases hx with
    | finish => rfl
    | trailers map => rfl
  rw [pollFrame_ends f hb hx, hright]
  exact (related_trailers z f prev).after t

theorem related_body {z : Z} (hz : EmptyBody z) (b : T) (f : F) :
    Call.RelatedUntil endsRun (Merging z)
      (Body.pollFrame (.pollBody b (some f) : WithTrailers T F))
      (Body.pollFrame (.first b (some (.pollBody z (some f))) : Chain T (WithTrailers Z F))) := by
  rcases hb : Body.pollFrame b with ⟨t, stop | ⟨_ | (_ | (err | (d | map))), b'⟩⟩
  · have hleft : Body.pollFrame (.pollBody b (some f) : WithTrailers T F) = ⟨t, .error stop⟩ :=
      Call.bind_eq_error.mpr (.inl hb)
    have hright : Body.pollFrame (.first b (some (.pollBody z (some f))) :
        Chain T (WithTrailers Z F)) = ⟨t, .error stop⟩ := Chain.first_stops hb
    exact .ofStops hleft hright
  · exact .ofNext (steps_of_step (.bodyPending hb)) (Chain.steps_of_step (.firstPending hb))
      (.body b' f)
  · exact related_ends hz f hb .finish
  · exact .ofLast (steps_of_step (.bodyError hb)) (Chain.steps_of_step (.firstError hb)) rfl
  · exact .ofNext (steps_of_step (.bodyData hb)) (Chain.steps_of_step (.firstData hb))
      (.body b' f)
  · exact related_ends hz f hb (.trailers map)

theorem Merging.call {z : Z} (hz : EmptyBody z) {w : WithTrailers T F}
    {c : Chain T (WithTrailers Z F)} (h : Merging z w c) :
    Call.RelatedUntil endsRun (Merging z) (Body.pollFrame w) (Body.pollFrame c) := by
  cases h with
  | body b f => exact related_body hz b f
  | trailers f prev => exact related_trailers z f prev
  | done => exact .ofLast rfl rfl rfl

/-! ## What the calls tell -/

/-- A call that polled the trailers future. -/
def PollsFuture (c : List Event × Except Stop (PollFrame D E)) : Prop :=
  ∃ e ∈ c.1, e.leaf = 1

/-- The future is first polled in the call in which the body ends, or yields
trailers. -/
def PollsFutureAtEnd (b : T) (cs : List (List Event × Except Stop (PollFrame D E))) : Prop :=
  ∀ pre c post, cs = pre ++ c :: post →
    ((PollsFuture c ∧ ∀ d ∈ pre, ¬ PollsFuture d) ↔
      ∃ bs ta, Body.EndsWith b bs ta ∧ bs.length = pre.length + 1)

/-- Only the end follows a trailers frame, which has the trailers of the body,
extended by those of the future. -/
def YieldsMerged (b : T) (f : F) (cs : List (List Event × Except Stop (PollFrame D E))) : Prop :=
  ∀ pre c post map, cs = pre ++ c :: post → c.2 = .ok (.ready (.trailers map)) →
    (∃ bs ta tf f', Body.EndsWith b bs ta ∧ Awaits Future.Steps f (tf.map .ok) f' ∧
      Chain.Merged ta tf (some map)) ∧
    ∀ d ∈ post, d.2 = .ok (.ready none)

/-! ### When the future is polled -/

omit [Body Z D E] [Future F (Option (Except E HeaderMap))] in
/-- A body that does not go on does not end later. -/
theorem PollsFutureAtEnd.stopped {b : T} {c : List Event × Except Stop (PollFrame D E)}
    (hc : ¬ PollsFuture c) (hend : ∀ bs ta, ¬ Body.EndsWith b bs ta) :
    PollsFutureAtEnd b [c] := by
  intro pre c' post hcs
  have hnever : ¬ ∃ bs ta, Body.EndsWith b bs ta ∧ bs.length = pre.length + 1 := by
    intro hex
    obtain ⟨bs, ta, hends, -⟩ := hex
    exact hend bs ta hends
  rcases pre with _ | ⟨d, pre⟩
  · obtain ⟨rfl, -⟩ := List.cons.inj hcs
    exact iff_of_false (fun h => hc h.1) hnever
  · have hnil := (List.cons.inj hcs).2
    simp at hnil

omit [Body Z D E] [Future F (Option (Except E HeaderMap))] in
theorem PollsFutureAtEnd.next {b b₁ : T} {t : List Event} {r : PollFrame D E}
    {c : List Event × Except Stop (PollFrame D E)}
    {cs : List (List Event × Except Stop (PollFrame D E))} (hc : ¬ PollsFuture c)
    (hstep : Body.Steps b t r b₁) (hr : Item.InProgress r) (h : PollsFutureAtEnd b₁ cs) :
    PollsFutureAtEnd b (c :: cs) := by
  have hlater : ∀ {bs ta}, Body.EndsWith b bs ta →
      ∃ bs', bs = r :: bs' ∧ Body.EndsWith b₁ bs' ta := by
    intro bs ta hends
    obtain ⟨t', r', b', hstep', hfirst⟩ := hends.first
    obtain ⟨-, rfl, rfl⟩ := Call.steps_functional _ hstep hstep'
    rcases hfirst with ⟨-, hrest⟩ | ⟨x, rfl, hx, -⟩
    · exact hrest
    · cases hr
      cases hx
  intro pre c' post hcs
  rcases pre with _ | ⟨d, pre⟩
  · obtain ⟨rfl, -⟩ := List.cons.inj hcs
    apply iff_of_false
    · exact fun h => hc h.1
    · intro hex
      obtain ⟨bs, ta, hends, hlength⟩ := hex
      obtain ⟨bs', rfl, pre', x, b', rfl, -⟩ := hlater hends
      simp at hlength
  · obtain ⟨rfl, hrest⟩ := List.cons.inj hcs
    have hcall := h pre c' post hrest
    constructor
    · intro hfirst
      have hbefore : ∀ d ∈ pre, ¬ PollsFuture d := by
        intro d hd
        exact hfirst.2 d (List.mem_cons_of_mem _ hd)
      obtain ⟨bs, ta, hends, hlength⟩ := hcall.mp ⟨hfirst.1, hbefore⟩
      exact ⟨r :: bs, ta, hends.cons hstep hr, by simp [hlength]⟩
    · intro hex
      obtain ⟨bs, ta, hends, hlength⟩ := hex
      obtain ⟨bs', rfl, hends'⟩ := hlater hends
      have hlength' : bs'.length = pre.length + 1 := by simpa using hlength
      obtain ⟨hpolls, hbefore⟩ := hcall.mpr ⟨bs', ta, hends', hlength'⟩
      refine ⟨hpolls, ?_⟩
      intro d hd
      rcases List.mem_cons.mp hd with rfl | hd
      · exact hc
      · exact hbefore d hd

omit [Body Z D E] [Future F (Option (Except E HeaderMap))] in
theorem PollsFutureAtEnd.ends {b b₁ : T} {t : List Event} {x : Item D E}
    {ta : Option HeaderMap} {c : List Event × Except Stop (PollFrame D E)}
    {cs : List (List Event × Except Stop (PollFrame D E))} (hc : PollsFuture c)
    (hstep : Body.Steps b t (.ready x) b₁) (hx : Item.Ends x ta) :
    PollsFutureAtEnd b (c :: cs) := by
  intro pre c' post hcs
  rcases pre with _ | ⟨d, pre⟩
  · obtain ⟨rfl, -⟩ := List.cons.inj hcs
    exact iff_of_true ⟨hc, by simp⟩ ⟨_, ta, Body.EndsWith.single hstep hx, rfl⟩
  · obtain ⟨rfl, -⟩ := List.cons.inj hcs
    apply iff_of_false
    · intro h
      exact h.2 c List.mem_cons_self hc
    · intro hex
      obtain ⟨bs, ta', hends, hlength⟩ := hex
      obtain ⟨t', r', b', hstep', hfirst⟩ := hends.first
      obtain ⟨-, rfl, -⟩ := Call.steps_functional _ hstep hstep'
      rcases hfirst with ⟨hr, -⟩ | ⟨_, -, -, rfl⟩
      · cases hr
        cases hx
      · simp at hlength

omit [Body Z D E] in
/-- The first call on a body that has not ended: the run is over without a frame,
or it goes on, or the body ends. -/
theorem callsUntil_body (b : T) (f : F) (n : ℕ) :
    (∃ o v, callsUntil endsRun Body.pollFrame (n + 1)
        (.pollBody ⟨0, b⟩ (some ⟨1, f⟩) : WithTrailers (Probe T) (Probe F)) = [([⟨0, o⟩], v)] ∧
      (∀ map, v ≠ .ok (.ready (.trailers map))) ∧ ∀ bs ta, ¬ Body.EndsWith b bs ta) ∨
    (∃ t o r b', Body.Steps b t r b' ∧ Item.InProgress r ∧
      callsUntil endsRun Body.pollFrame (n + 1)
          (.pollBody ⟨0, b⟩ (some ⟨1, f⟩) : WithTrailers (Probe T) (Probe F)) =
        ([⟨0, o⟩], .ok r) :: callsUntil endsRun Body.pollFrame n
          (.pollBody ⟨0, b'⟩ (some ⟨1, f⟩) : WithTrailers (Probe T) (Probe F))) ∨
    ∃ t x b' ta, Body.Steps b t (.ready x) b' ∧ Item.Ends x ta := by
  rcases hb : Body.pollFrame b with ⟨t, stop | ⟨_ | (_ | (err | (d | map))), b'⟩⟩
  · have hcall : Body.pollFrame (.pollBody ⟨0, b⟩ (some ⟨1, f⟩) :
        WithTrailers (Probe T) (Probe F)) = ⟨[⟨0, .stopped⟩], .error stop⟩ :=
      Call.bind_eq_error.mpr (.inl (Probe.stops hb 0))
    refine .inl ⟨.stopped, .error stop, callsUntil_stops hcall n, ?_, ?_⟩
    · intro map hmap
      cases hmap
    · intro bs ta hend
      obtain ⟨t', r, b₁, hstep, -⟩ := hend.first
      cases hb.symm.trans hstep
  · have hcall := steps_of_step (.bodyPending (f := (⟨1, f⟩ : Probe F)) (Probe.step 0 hb))
    exact .inr (.inl ⟨t, _, _, b', hb, .pending, callsUntil_next hcall rfl n⟩)
  · exact .inr (.inr ⟨t, _, b', none, hb, .finish⟩)
  · have hcall := steps_of_step (.bodyError (f := (⟨1, f⟩ : Probe F)) (Probe.step 0 hb))
    refine .inl ⟨_, _, callsUntil_last hcall rfl n, ?_, ?_⟩
    · intro map hmap
      cases hmap
    · intro bs ta hend
      obtain ⟨t', r, b₁, hstep, hfirst⟩ := hend.first
      obtain ⟨-, rfl, -⟩ := Call.steps_functional _ hb hstep
      rcases hfirst with ⟨hr, -⟩ | ⟨x, hx, hends, -⟩
      · cases hr
      · cases hx
        cases hends
  · have hcall := steps_of_step (.bodyData (f := (⟨1, f⟩ : Probe F)) (Probe.step 0 hb))
    exact .inr (.inl ⟨t, _, _, b', hb, .data d, callsUntil_next hcall rfl n⟩)
  · exact .inr (.inr ⟨t, _, b', some map, hb, .trailers map⟩)

theorem pollsFutureAtEnd (b : T) (f : F) (n : ℕ) :
    PollsFutureAtEnd b (callsUntil endsRun Body.pollFrame n
      (.pollBody ⟨0, b⟩ (some ⟨1, f⟩) : WithTrailers (Probe T) (Probe F))) := by
  induction n generalizing b with
  | zero =>
      intro pre c post hcs
      simp [callsUntil] at hcs
  | succ n ih =>
      have hbody : ∀ o : Outcome, ∀ v, ¬ PollsFuture (D := D) (E := E) ([⟨0, o⟩], v) := by
        intro o v hpolls
        obtain ⟨e, he, hleaf⟩ := hpolls
        obtain rfl := List.mem_singleton.mp he
        cases hleaf
      rcases callsUntil_body b f n with ⟨o, v, hcs, -, hend⟩ | ⟨t, o, r, b', hb, hr, hcs⟩ |
        ⟨t, x, b', ta, hb, hx⟩
      · rw [hcs]
        exact .stopped (hbody o v) hend
      · rw [hcs]
        exact .next (hbody o _) hb hr (ih b')
      · have hcall := pollFrame_ends (⟨1, f⟩ : Probe F) (Probe.step 0 hb) hx
        obtain ⟨v, later, -, hcs⟩ := callsUntil_after endsRun hcall n
        obtain ⟨o, htrace⟩ := trace_pollTrailers (T := T) f ta
        rw [hcs]
        exact .ends ⟨⟨1, o⟩, by simp [htrace], rfl⟩ hb hx

/-! ### What trailers are yielded -/

omit [Body Z D E] in
theorem calls_done (n : ℕ) :
    ∀ c ∈ callsUntil endsRun Body.pollFrame n (.done : WithTrailers (Probe T) (Probe F)),
      c.2 = .ok (.ready none) := by
  intro c hc
  cases n with
  | zero => cases hc
  | succ n =>
      have hcall : Body.Steps (.done : WithTrailers (Probe T) (Probe F)) [] (.ready none) .done :=
        rfl
      rw [callsUntil_last hcall rfl] at hc
      obtain rfl := List.mem_singleton.mp hc
      rfl

omit [Body Z D E] in
/-- The calls from the first poll of the future on. -/
theorem yields_pollTrailers (f : F) (prev : Option HeaderMap) (n : ℕ)
    (pre : List (List Event × Except Stop (PollFrame D E)))
    (c : List Event × Except Stop (PollFrame D E))
    (post : List (List Event × Except Stop (PollFrame D E))) (map : HeaderMap)
    (hcs : callsUntil endsRun Body.pollFrame n
      (.pollTrailers ⟨1, f⟩ prev : WithTrailers (Probe T) (Probe F)) = pre ++ c :: post)
    (hc : c.2 = .ok (.ready (.trailers map))) :
    (∃ tf f', Awaits Future.Steps f (tf.map .ok) f' ∧ mergeTrailers prev tf = some map) ∧
      ∀ d ∈ post, d.2 = .ok (.ready none) := by
  induction n generalizing f pre with
  | zero => simp [callsUntil] at hcs
  | succ n ih =>
      have hmem : c ∈ pre ++ c :: post := List.mem_append_right pre List.mem_cons_self
      rw [← hcs] at hmem
      have hready : ∀ {t f'} (tf : Option HeaderMap),
          Future.poll f = ⟨t, .ok (.ready (tf.map .ok : Option (Except E HeaderMap)), f')⟩ →
          (∃ tf f', Awaits Future.Steps f (tf.map .ok) f' ∧ mergeTrailers prev tf = some map) ∧
            ∀ d ∈ post, d.2 = .ok (.ready none) := by
        intro t f' tf hf
        have hcall : Body.Steps (.pollTrailers ⟨1, f⟩ prev : WithTrailers (Probe T) (Probe F)) _ _
          _ := steps_of_step (.futureReady (Probe.future_step 1 hf))
        rw [resolved_ok] at hcall
        rcases hmap : mergeTrailers prev tf with _ | map'
        · rw [hmap] at hcall
          rw [callsUntil_last hcall rfl] at hmem
          obtain rfl := List.mem_singleton.mp hmem
          cases hc
        · rw [resolved_done _ hmap, hmap] at hcall
          rw [callsUntil_next hcall rfl] at hcs
          rcases pre with _ | ⟨d, pre⟩
          · obtain ⟨rfl, rfl⟩ := List.cons.inj hcs
            cases hc
            exact ⟨⟨tf, f', .ready hf, hmap⟩, calls_done n⟩
          · have hrest := (List.cons.inj hcs).2
            have hend := calls_done (T := T) (F := F) n c (hrest ▸ by simp)
            cases hend.symm.trans hc
      rcases hf : Future.poll f with ⟨t, stop | ⟨_ | (_ | (err | new)), f'⟩⟩
      · have hcall : Body.pollFrame (.pollTrailers ⟨1, f⟩ prev : WithTrailers (Probe T) (Probe F)) =
            ⟨[⟨1, .stopped⟩], .error stop⟩ :=
          Call.bind_eq_error.mpr (.inl (Probe.future_stops hf 1))
        rw [callsUntil_stops hcall] at hmem
        obtain rfl := List.mem_singleton.mp hmem
        cases hc
      · have hcall : Body.Steps (.pollTrailers ⟨1, f⟩ prev : WithTrailers (Probe T) (Probe F)) _ _
          _ := steps_of_step (.futurePending (Probe.future_step 1 hf))
        rw [callsUntil_next hcall rfl] at hcs
        rcases pre with _ | ⟨d, pre⟩
        · obtain ⟨rfl, -⟩ := List.cons.inj hcs
          cases hc
        · obtain ⟨⟨tf, f'', hawait, hmap⟩, hpost⟩ := ih f' pre (List.cons.inj hcs).2
          exact ⟨⟨tf, f'', .pending hf hawait, hmap⟩, hpost⟩
      · exact hready none hf
      · have hcall : Body.Steps (.pollTrailers ⟨1, f⟩ prev : WithTrailers (Probe T) (Probe F)) _ _
          _ := steps_of_step (.futureReady (Probe.future_step 1 hf))
        rw [callsUntil_last hcall rfl] at hmem
        obtain rfl := List.mem_singleton.mp hmem
        cases hc
      · exact hready (some new) hf

variable [LawfulHeaderMap]

omit [Body Z D E] in
theorem yieldsMerged (b : T) (f : F) (n : ℕ) :
    YieldsMerged b f (callsUntil endsRun Body.pollFrame n
      (.pollBody ⟨0, b⟩ (some ⟨1, f⟩) : WithTrailers (Probe T) (Probe F))) := by
  induction n generalizing b with
  | zero =>
      intro pre c post map hcs
      simp [callsUntil] at hcs
  | succ n ih =>
      intro pre c post map hcs hc
      rcases callsUntil_body b f n with ⟨o, v, hall, hv, -⟩ | ⟨t, o, r, b', hb, hr, hall⟩ |
        ⟨t, x, b', ta, hb, hx⟩
      · have hmem : c ∈ pre ++ c :: post := List.mem_append_right pre List.mem_cons_self
        rw [← hcs, hall] at hmem
        obtain rfl := List.mem_singleton.mp hmem
        exact (hv map hc).elim
      · rw [hall] at hcs
        rcases pre with _ | ⟨d, pre⟩
        · obtain ⟨rfl, -⟩ := List.cons.inj hcs
          cases hc
          cases hr
        · obtain ⟨⟨bs, ta, tf, f', hends, hmerged⟩, hpost⟩ :=
            ih b' pre c post map (List.cons.inj hcs).2 hc
          exact ⟨⟨r :: bs, ta, tf, f', hends.cons hb hr, hmerged⟩, hpost⟩
      · have hcall := pollFrame_ends (⟨1, f⟩ : Probe F) (Probe.step 0 hb) hx
        obtain ⟨v, later, hlater, hall⟩ := callsUntil_after endsRun hcall n
        -- the call in which the body ends is the first poll of the future
        have hfuture : ∃ pre' c', callsUntil endsRun Body.pollFrame (n + 1)
            (.pollTrailers ⟨1, f⟩ ta : WithTrailers (Probe T) (Probe F)) = pre' ++ c' :: post ∧
              c'.2 = .ok (.ready (.trailers map)) := by
          rw [hall] at hcs
          rcases pre with _ | ⟨d, pre⟩
          · obtain ⟨rfl, rfl⟩ := List.cons.inj hcs
            exact ⟨[], _, hlater, hc⟩
          · obtain ⟨-, rfl⟩ := List.cons.inj hcs
            exact ⟨_ :: pre, c, hlater, hc⟩
        obtain ⟨pre', c', hcs', hc'⟩ := hfuture
        obtain ⟨⟨tf, f', hawait, hmap⟩, hpost⟩ :=
          yields_pollTrailers f ta (n + 1) pre' c' post map hcs' hc'
        have hmerged := Chain.merged_mergeTrailers ta tf
        rw [hmap] at hmerged
        exact ⟨⟨_, ta, tf, f', Body.EndsWith.single hb hx, hawait, hmerged⟩, hpost⟩

/-- Adding the trailers of a future, directly or through a chain with an empty
body, makes the same calls until the end or an error: they poll the same leaves
and return the same.  The future is first polled in the call in which the body
ends, and its trailers extend those of the body. -/
theorem same_merging {z : Z} (hz : EmptyBody z) (b : T) (f : F) (n : ℕ) :
    callsUntil endsRun Body.pollFrame n (new (⟨0, b⟩ : Probe T) (⟨1, f⟩ : Probe F)) =
        callsUntil endsRun Body.pollFrame n
          (Chain.new (⟨0, b⟩ : Probe T) (new z (⟨1, f⟩ : Probe F))) ∧
      PollsFutureAtEnd b (callsUntil endsRun Body.pollFrame n
        (new (⟨0, b⟩ : Probe T) (⟨1, f⟩ : Probe F))) ∧
      YieldsMerged b f (callsUntil endsRun Body.pollFrame n
        (new (⟨0, b⟩ : Probe T) (⟨1, f⟩ : Probe F))) := by
  have hstart : Merging z (new (⟨0, b⟩ : Probe T) (⟨1, f⟩ : Probe F))
      (Chain.new (⟨0, b⟩ : Probe T) (new z (⟨1, f⟩ : Probe F))) := .body _ _
  refine ⟨?_, pollsFutureAtEnd b f n, yieldsMerged b f n⟩
  exact callsUntil_eq (fun _ _ h => h.call hz) hstart n

end

/-- A chunk and trailers, from a body that is suspended before them. -/
def interrupted : Playback (Item Bytes Infallible) :=
  ⟨[.pending, .ready (.data (.single 1)), .ready (.trailers fun name => [name])]⟩

/-- Trailers that come late, and share a name with those of the body. -/
def belated : Playback (Option (Except Infallible HeaderMap)) :=
  ⟨[.pending, .ready (some (.ok fun name => if name = 0 then [7] else []))]⟩

/-- Both, through a chain with an empty body. -/
theorem same_merging_interrupted :
    ∃ map : HeaderTable,
      callsUntil endsRun Body.pollFrame 6
          (Chain.new (⟨0, interrupted⟩ : Probe _)
            (new (Empty.new Bytes) (⟨1, belated⟩ : Probe _))) =
        [([⟨0, .pending⟩], .ok .pending),
          ([⟨0, .ready false⟩], .ok (.ready (.data (.single 1)))),
          ([⟨0, .ready true⟩, ⟨1, .pending⟩], .ok .pending),
          ([⟨1, .ready true⟩], .ok (.ready (.trailers map))),
          ([], .ok (.ready none))] ∧
      map 0 = [7] ∧ map 5 = [5] ∧
      ∃ bs ta, Body.EndsWith interrupted bs ta ∧ bs.length = 3 := by
  obtain ⟨hsame, hatEnd, -⟩ := same_merging (.empty Bytes) interrupted belated 6
  refine ⟨_, hsame.symm.trans rfl, rfl, rfl, ?_⟩
  refine (hatEnd [([⟨0, .pending⟩], .ok .pending),
    ([⟨0, .ready false⟩], .ok (.ready (.data (.single 1))))]
    ([⟨0, .ready true⟩, ⟨1, .pending⟩], .ok .pending) _ rfl).mp ⟨?_, ?_⟩
  · exact ⟨⟨1, .pending⟩, by simp, rfl⟩
  · simp [PollsFuture]

end WithTrailers

end HttpBody
