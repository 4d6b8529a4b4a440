import HttpBody.Collect.Outcome
import HttpBody.Composition.SizeHints

/-!
# Size hints predict what is collected

At every point of collecting an expression, what was collected stays, and the size hint
of the rest of the body bounds what is still added to it.
-/

namespace HttpBody

open Support

/-- A hint is exact when its bounds are the same. -/
theorem SizeHint.eq_withExact {hint : SizeHint} {n : ℕ} (h : hint.exact = some n) :
    hint = .withExact n := by
  rcases hint with ⟨lower, upper⟩
  by_cases heq : some lower = upper
  · rw [exact, if_pos heq] at h
    cases h
    cases heq
    rfl
  · rw [exact, if_neg heq] at h
    cases h

namespace Collect

section

variable [Foreign] {T D E : Type} [Buf D]

theorem Collects.error {c : Collected D} {rs : List (PollFrame D E)} (h : Collects c rs) (err : E) :
    Collects c (rs ++ [.ready (.error err)]) :=
  ⟨by simpa [dataFrames] using h.frames, by simpa [trailersOf] using h.trailers⟩

variable [Body T D E]

/-- The future has collected the results that the body gave so far. -/
structure Tracks (b : T) (rs : List (PollFrame D E)) (me : Collect T D) : Prop where
  run : Runs Body.Steps b rs me.body
  collects : ∀ c, me.collected = some c → Collects c rs

theorem Tracks.step {b : T} {rs : List (PollFrame D E)} {me me' : Collect T D} {t : List Event}
    {r : Poll (Option (Except E (Collected D)))} (h : Tracks b rs me)
    (hturn : Call.steps turn me t r me') : ∃ x, Tracks b (rs ++ [x]) me' := by
  obtain ⟨hrun, hcollects⟩ := h
  cases turn_cases hturn with
  | pending hpoll =>
      exact ⟨_, hrun.append (.single hpoll), fun c hc => (hcollects c hc).pending⟩
  | finish hpoll => exact ⟨_, hrun.append (.single hpoll), by rintro _ ⟨⟩⟩
  | error hpoll =>
      exact ⟨_, hrun.append (.single hpoll), fun c hc => (hcollects c hc).error _⟩
  | @frame c c' _ _ frame _ hpoll hpush =>
      refine ⟨_, hrun.append (.single hpoll), ?_⟩
      rintro _ ⟨⟩
      obtain ⟨c₁, hpush₁, hc₁⟩ := (hcollects c rfl).pushFrame frame
      cases hpush.symm.trans hpush₁
      exact hc₁

theorem exists_tracks {b : T} {xs : List (Poll (Option (Except E (Collected D))))}
    {me : Collect T D} (hrun : Runs (Call.steps turn) (new b) xs me) :
    ∃ rs, Tracks b rs me := by
  have hnew : Tracks b [] (new b : Collect T D) := by
    refine ⟨.nil b, ?_⟩
    rintro _ ⟨⟩
    exact collects_empty
  refine Always.of_invariant (fun me => ∃ rs, Tracks b rs me) ⟨[], hnew⟩ (fun _ h => h) ?_ hrun
  rintro me t r me' ⟨rs, hme⟩ hturn
  obtain ⟨x, hx⟩ := hme.step hturn
  exact ⟨_, hx⟩

omit [Buf D] [Body T D E] in
theorem complete_of_frames {rs : List (PollFrame D E)}
    (hrs : ∀ r ∈ rs, r ≠ .ready none ∧ ∀ e, r ≠ .ready (.error e)) :
    Complete (rs ++ [.ready none]) := by
  refine ⟨by simp, fun e he => ?_⟩
  rcases List.mem_append.mp he with herror | hlast
  · exact (hrs _ herror).2 e rfl
  · simp at hlast

variable [LawfulBuf D]

/-- At every point of collecting an expression, also in the middle of a call: the size hint of
the rest of the body bounds the bytes that are still added to those that were collected. -/
theorem predicted_by_hint {b : T} (h : Composed contractBody b)
    {xs : List (Poll (Option (Except E (Collected D))))} {me : Collect T D} {c : Collected D}
    (hrun : Runs (Call.steps turn) (new b) xs me) (hc : me.collected = some c) :
    ∃ hint, Body.sizeHint .exact me.body = .ok hint ∧
      ∀ c' me', Awaits Steps me (.ok c') me' →
        c.bufs.held <+: c'.bufs.held ∧
        hint.Contains (c'.bufs.held.length - c.bufs.held.length) ∧
        ∀ n, hint.exact = some n → c'.bufs.held.length = c.bufs.held.length + n := by
  obtain ⟨qs, hqs⟩ := exists_tracks hrun
  obtain ⟨hint, hhint, -, hbounds⟩ := (h.bounded hqs.run).hintOk
  refine ⟨hint, hhint, fun c' me' hawait => ?_⟩
  rcases me with ⟨_, body⟩
  subst hc
  have hcollects : Collects c qs := hqs.collects c rfl
  rcases awaits_cases hcollects hawait with ⟨c₁, rs, hok, ⟨hrs, b', hend⟩, hc₁⟩ | ⟨err, rs, herr, -⟩
  · cases hok
    have hheld : c'.bufs.held = c.bufs.held ++ bytesOf rs := by
      rw [hc₁.bytes, hcollects.bytes, bytesOf, List.flatMap_append]
      rfl
    have hcontains := hbounds hend (complete_of_frames hrs)
    have hlength : (bytesOf rs).length = dataTotal (rs ++ [.ready none]) := by
      rw [length_bytesOf, dataTotal_append]
      rfl
    rw [← hlength] at hcontains
    refine ⟨⟨_, hheld.symm⟩, ?_, fun n hn => ?_⟩
    · rwa [hheld, List.length_append, Nat.add_sub_cancel_left]
    · rw [SizeHint.eq_withExact hn, SizeHint.contains_withExact] at hcontains
      rw [hheld, List.length_append, hcontains]
  · cases herr

end

/-- Two chunks in a chain, after the first of them. -/
theorem predicted_by_hint_chain :
    ∃ hint, Body.sizeHint .exact (.first ⟨none⟩ (some ⟨some ⟨[3], by decide⟩⟩) :
        Chain (Full Bytes) (Full Bytes)) = .ok hint ∧
      ∀ c' me', Awaits Steps (⟨some ⟨⟨[⟨[1, 2], by decide⟩]⟩, none⟩,
          .first ⟨none⟩ (some ⟨some ⟨[3], by decide⟩⟩)⟩ :
            Collect (Chain (Full Bytes) (Full Bytes)) Bytes) (.ok c') me' →
        [1, 2] <+: c'.bufs.held ∧ c'.bufs.held.length = 3 := by
  have hrun : Runs (Call.steps turn) (new (Chain.new (Full.new (⟨[1, 2], by decide⟩ : Bytes))
      (Full.new (⟨[3], by decide⟩ : Bytes)))) [.ready none]
      ⟨some ⟨⟨[⟨[1, 2], by decide⟩]⟩, none⟩, .first ⟨none⟩ (some ⟨some ⟨[3], by decide⟩⟩)⟩ :=
    .single (t := []) rfl
  obtain ⟨hint, hhint, hpredicts⟩ := predicted_by_hint (.chain (.full _) (.full _)) hrun rfl
  refine ⟨hint, hhint, fun c' me' hawait => ?_⟩
  obtain ⟨hstays, -, hexact⟩ := hpredicts c' me' hawait
  cases hhint
  exact ⟨hstays, hexact 1 rfl⟩

end Collect

end HttpBody
