import HttpBody.Composition.EndOfStream
import HttpBody.Limited.Budget

/-!
# Bounds of closing runs

The size hint of an expression bounds the data that is still to come.  For the
induction the statement is strengthened: the bounds also hold for a run that is
cut off at its first trailers frame, because that is where a chain leaves its
first body.
-/

namespace HttpBody

open Support

section Kinds

/-- The kind of a result. -/
inductive Kind where
  | pending
  | data
  | trailers
  | finish
  | error
  deriving DecidableEq

variable [Foreign] {D E : Type}

def kind : PollFrame D E → Kind
  | .pending => .pending
  | .ready none => .finish
  | .ready (some (.ok (.data _))) => .data
  | .ready (some (.ok (.trailers _))) => .trailers
  | .ready (some (.error _)) => .error

/-- No error, and either the end or trailers. -/
structure Ending (ks : List Kind) : Prop where
  noError : Kind.error ∉ ks
  ends : Kind.finish ∈ ks ∨ Kind.trailers ∈ ks

/-- No error, and either the end or a cut at the first trailers. -/
structure Closing (ks : List Kind) : Prop where
  noError : Kind.error ∉ ks
  ends : Kind.finish ∈ ks ∨
    ∃ pre, ks = pre ++ [.trailers] ∧ ∀ k ∈ pre, k = .pending ∨ k = .data

omit [Foreign] in
theorem Closing.ending {ks : List Kind} (h : Closing ks) : Ending ks := by
  refine ⟨h.noError, h.ends.imp id ?_⟩
  rintro ⟨pre, rfl, -⟩
  simp

omit [Foreign] in
theorem Closing.cons {k : Kind} {ks : List Kind} (h : Closing ks)
    (hk : k = .pending ∨ k = .data) : Closing (k :: ks) := by
  constructor
  · intro herr
    rcases List.mem_cons.mp herr with heq | herr
    · subst heq
      simp at hk
    · exact h.noError herr
  · rcases h.ends with hfinish | ⟨pre, rfl, hpre⟩
    · exact .inl (List.mem_cons_of_mem k hfinish)
    · refine .inr ⟨k :: pre, rfl, ?_⟩
      simpa [hk] using hpre

omit [Foreign] in
theorem Ending.tail {k : Kind} {ks : List Kind} (h : Ending (k :: ks))
    (hk : k = .pending ∨ k = .data) : Ending ks := by
  refine ⟨fun herr => h.noError (List.mem_cons_of_mem k herr), ?_⟩
  have hends := h.ends
  rcases hk with rfl | rfl <;> simpa using hends

theorem closing_of_ends {x : Item D E} {ta : Option HeaderMap} (h : Item.Ends x ta) :
    Closing [kind (.ready x)] := by
  cases h with
  | finish => exact ⟨by simp [kind], .inl (by simp [kind])⟩
  | trailers map => exact ⟨by simp [kind], .inr ⟨[], rfl, by simp⟩⟩

theorem kind_eq_error {r : PollFrame D E} :
    kind r = .error ↔ ∃ e, r = .ready (.error e) := by
  rcases r with _ | (_ | (err | (d | map))) <;> simp [kind]

theorem error_mem_kinds {rs : List (PollFrame D E)} :
    Kind.error ∈ rs.map kind ↔ ∃ e, .ready (.error e) ∈ rs := by
  simp only [List.mem_map, kind_eq_error]
  constructor
  · rintro ⟨_, hr, e, rfl⟩
    exact ⟨e, hr⟩
  · rintro ⟨e, he⟩
    exact ⟨_, he, e, rfl⟩

theorem Complete.closing [Buf D] {rs : List (PollFrame D E)} (h : Complete rs) :
    Closing (rs.map kind) := by
  refine ⟨fun herr => ?_, .inl (List.mem_map.mpr ⟨_, h.1, rfl⟩)⟩
  obtain ⟨e, he⟩ := error_mem_kinds.mp herr
  exact h.2 e he

end Kinds

/-! ## The strengthened statement -/

section Bounds

variable [Foreign] {B D E : Type} [Buf D] [Body B D E]

/-- The size hint of `b` does not panic, its bounds are in order, and they bound
the data of every run that closes. -/
def Body.Bounds (b : B) : Prop :=
  ∃ hint, Body.sizeHint .exact b = .ok hint ∧ hint.WellFormed ∧
    ∀ ⦃rs b'⦄, Runs Body.Steps b rs b' → Closing (rs.map kind) →
      hint.Contains (dataTotal rs)

/-- The bounds are right in every reachable state. -/
def Body.Bounded (b : B) : Prop :=
  Always Body.Steps (fun b : B => Body.Bounds b) b

theorem Body.Bounds.hintOk {b : B} (h : Body.Bounds b) : Body.HintOk b := by
  obtain ⟨hint, hhint, hwf, hcontains⟩ := h
  exact ⟨hint, hhint, hwf, fun rs b' hrun hcomplete => hcontains hrun hcomplete.closing⟩

/-- The rule for types whose every state has right bounds. -/
theorem Body.Bounded.of_forall (h : ∀ b : B, Body.Bounds b) (b : B) : Body.Bounded b :=
  fun _ b' _ => h b'

/-- The hint that says nothing is right. -/
theorem Body.Bounds.of_new {b : B} (h : Body.sizeHint .exact b = .ok .new) :
    Body.Bounds b :=
  ⟨_, h, SizeHint.wellFormed_new, fun _ _ _ _ => SizeHint.contains_new _⟩

omit [Buf D] in
theorem Body.Ended.runs {b b' : B} {rs : List (PollFrame D E)} (h : Body.Ended b)
    (hrun : Runs Body.Steps b rs b') : rs = List.replicate rs.length (.ready none) :=
  (Stays.runs (Call.steps_functional _) h hrun).1

theorem dataTotal_replicate_finish (n : ℕ) :
    dataTotal (List.replicate n (.ready none) : List (PollFrame D E)) = 0 := by
  simp [dataTotal]

theorem Body.Ended.dataTotal_eq {b b' : B} {rs : List (PollFrame D E)}
    (h : Body.Ended b) (hrun : Runs Body.Steps b rs b') : dataTotal rs = 0 := by
  rw [h.runs hrun, dataTotal_replicate_finish]

/-- A body that has ended has exactly no data left. -/
theorem Body.Bounds.of_ended {b : B} (h : Body.Ended b)
    (hhint : Body.sizeHint .exact b = .ok (.withExact 0)) : Body.Bounds b := by
  refine ⟨_, hhint, SizeHint.wellFormed_withExact 0, fun rs b' hrun _ => ?_⟩
  exact SizeHint.contains_withExact.mpr (h.dataTotal_eq hrun)

/-- A body with a single chunk left. -/
theorem Body.Bounds.of_single {b b₁ : B} {t : List Event} {d : D} {n : ℕ}
    (hstep : Body.Steps b t (.ready (.data d)) b₁) (hended : Body.Ended b₁)
    (hhint : Body.sizeHint .exact b = .ok (.withExact n)) (hn : Buf.remaining d = n) :
    Body.Bounds b := by
  refine ⟨_, hhint, SizeHint.wellFormed_withExact n, fun rs b' hrun hclosing => ?_⟩
  rw [SizeHint.contains_withExact]
  cases hrun with
  | nil =>
      have hends := hclosing.ending.ends
      simp at hends
  | cons hfirst hrest =>
      obtain ⟨-, rfl, rfl⟩ := Call.steps_functional _ hfirst hstep
      rw [dataTotal_cons, hended.dataTotal_eq hrest, dataLen_data, hn, Nat.add_zero]

/-- A body of the user that obeys the contract. -/
theorem Body.Contract.bounded {b : B} (h : Body.Contract b) : Body.Bounded b := by
  intro rs b' hrun
  obtain ⟨hint, hhint, hwf, hcontains⟩ := h.hint hrun
  refine ⟨hint, hhint, hwf, fun qs b'' hqs hclosing => ?_⟩
  have hno : ∀ e : E, .ready (.error e) ∉ qs := fun e he =>
    hclosing.noError (error_mem_kinds.mpr ⟨e, he⟩)
  rcases hclosing.ends with hfinish | ⟨pre, hcut, -⟩
  · obtain ⟨r, hr, hkind⟩ := List.mem_map.mp hfinish
    rcases r with _ | (_ | (err | (d | map))) <;> simp [kind] at hkind
    exact hcontains hqs ⟨hr, hno⟩
  · -- after the trailers the body ends, and its end adds no data
    obtain ⟨qs, l, rfl, -, hlast⟩ := List.map_eq_append_iff.mp hcut
    obtain ⟨r, rfl, hkind⟩ := List.map_eq_singleton_iff.mp hlast
    rcases r with _ | (_ | (err | (d | map))) <;> simp [kind] at hkind
    obtain ⟨b₁, t, hbefore, htrailers⟩ := runs_snoc_iff.mp hqs
    have hended : Body.Ended b'' := h.trailers (hrun.append hbefore) htrailers
    obtain ⟨u, b₂, hfinish, -⟩ := Stays.step (Call.steps_functional _) hended
    have hcomplete : Complete ((qs ++ [.ready (.trailers map)]) ++ [.ready none]) := by
      refine ⟨by simp, fun e he => ?_⟩
      rcases List.mem_append.mp he with he | he
      · exact hno e he
      · simp at he
    simpa using hcontains (hqs.append (.single hfinish)) hcomplete

end Bounds

/-! ## Closing runs of a body with an inner body -/

section Inner

variable [Foreign] {B W D E E' : Type} [Buf D] [Body B D E] [Body W D E']

/-- What a call in the state `mk b` may do: hand on that the inner body is
pending or has data, fail, or find it complete; then it answers `r` and leaves a
state with `After r w`. -/
inductive InnerStep (mk : B → W) (After : PollFrame D E' → W → Prop) (b : B) :
    PollFrame D E' → W → Prop where
  | pending {t b'} : Body.Steps b t .pending b' → InnerStep mk After b .pending (mk b')
  | data {t d b'} : Body.Steps b t (.ready (.data d)) b' →
      InnerStep mk After b (.ready (.data d)) (mk b')
  | error {e w} : InnerStep mk After b (.ready (.error e)) w
  | ends {t x ta b' r w} : Body.Steps b t (.ready x) b' → Item.Ends x ta → After r w →
      InnerStep mk After b r w

/-- A run that ends has a closing run of the inner body in front. -/
theorem InnerStep.closing_run {mk : B → W} {After : PollFrame D E' → W → Prop}
    (hcall : ∀ b t r w, Body.Steps (mk b) t r w → InnerStep mk After b r w) {b : B}
    {rs : List (PollFrame D E')} {w : W} (hrun : Runs Body.Steps (mk b) rs w)
    (hending : Ending (rs.map kind)) :
    ∃ bs b' r w₁ post, Runs Body.Steps b bs b' ∧ Closing (bs.map kind) ∧ After r w₁ ∧
      Runs Body.Steps w₁ post w ∧ Ending ((r :: post).map kind) ∧
      dataTotal rs = dataTotal bs + dataTotal (r :: post) := by
  induction rs generalizing b with
  | nil =>
      have hends := hending.ends
      simp at hends
  | cons r rs ih =>
      obtain ⟨t, w₁, hstep, hrest⟩ := runs_cons_iff.mp hrun
      cases hcall b t r w₁ hstep with
      | pending hpoll =>
          obtain ⟨bs, b', r', w₂, post, hbs, hclosing, hafter, hpost, hlater, htotal⟩ :=
            ih hrest (hending.tail (.inl rfl))
          refine ⟨_, b', r', w₂, post, .cons hpoll hbs, hclosing.cons (.inl rfl), hafter, hpost,
            hlater, ?_⟩
          rw [dataTotal_cons, dataTotal_cons, htotal, dataLen_pending, dataLen_pending,
            Nat.zero_add, Nat.zero_add]
      | data hpoll =>
          obtain ⟨bs, b', r', w₂, post, hbs, hclosing, hafter, hpost, hlater, htotal⟩ :=
            ih hrest (hending.tail (.inr rfl))
          refine ⟨_, b', r', w₂, post, .cons hpoll hbs, hclosing.cons (.inr rfl), hafter, hpost,
            hlater, ?_⟩
          rw [dataTotal_cons, dataTotal_cons, htotal, dataLen_data, dataLen_data, Nat.add_assoc]
      | error => exact (hending.noError (by simp [kind])).elim
      | @ends _ x ta b' _ _ hpoll hx hafter =>
          refine ⟨[.ready x], b', r, w₁, rs, .single hpoll, closing_of_ends hx, hafter, hrest,
            hending, ?_⟩
          cases hx with
          | finish => simp
          | trailers map => simp

theorem dataLen_ofTrailers (t : Option HeaderMap) :
    dataLen (.ready (Item.ofTrailers t) : PollFrame D E) = 0 := by
  cases t with
  | none => rfl
  | some map => rfl

end Inner

end HttpBody
