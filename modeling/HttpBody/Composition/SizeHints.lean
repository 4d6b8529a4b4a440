import HttpBody.Composition.Bounds

/-!
# Size hints of expressions

One rule for each body and combinator: the bounds of the whole follow from the
bounds of its parts, since a closing run of the whole consists of closing runs
of the parts.
-/

namespace HttpBody

open Support

section Rules

variable [Foreign] {B D E : Type} [Buf D]

/-! ## Leaves -/

theorem Empty.bounds (b : Empty D) : Body.Bounds b :=
  .of_ended ((Empty.endStreamSound b).here rfl).ended rfl

theorem Full.bounds (b : Full D) : Body.Bounds b := by
  have hended : Body.Ended (⟨none⟩ : Full D) := ((Full.endStreamSound _).here rfl).ended
  obtain ⟨_ | data⟩ := b
  · exact .of_ended hended rfl
  · have hlt := Buf.remaining_lt data
    have hhint : Body.sizeHint .exact (⟨some data⟩ : Full D) =
        .ok (.withExact (Buf.remaining data)) := by
      simp [Body.sizeHint, u64TryFrom, hlt]
    exact .of_single (t := []) rfl hended hhint rfl

theorem Str.bounds (s : Str) : Body.Bounds s := by
  have hmod : s.val.utf8ByteSize % wordSize = s.val.utf8ByteSize := Nat.mod_eq_of_lt s.len_lt
  have hhint : Body.sizeHint .exact s = .ok (.withExact s.val.utf8ByteSize) :=
    congrArg (fun n => Except.ok (SizeHint.withExact n)) hmod
  by_cases hempty : s.isEmpty = true
  · have hzero : s.val.utf8ByteSize = 0 := by
      simpa [Str.isEmpty] using hempty
    rw [hzero] at hhint
    exact .of_ended ((Str.endStreamSound s).here hempty).ended hhint
  · have hstep : Body.Steps s [] (.ready (.data s.intoBytes)) Str.empty := by
      simp [Call.steps, Body.pollFrame, hempty, Call.pure_def]
    have hended : Body.Ended Str.empty := ((Str.endStreamSound _).here rfl).ended
    exact .of_single hstep hended hhint (by simp [Buf.remaining, Str.intoBytes])

theorem ErrorBody.bounds (b : ErrorBody D E) : Body.Bounds b := .of_new rfl

theorem Pending.bounds (b : Pending D E) : Body.Bounds b := .of_new rfl

theorem Collected.bounds (b : Collected D) : Body.Bounds b := .of_new rfl

theorem StreamBody.bounds {S : Type} [Stream S (Except E (Frame D))] (b : StreamBody S) :
    Body.Bounds b := .of_new rfl

/-! ## Wrappers -/

variable [Body B D E]

omit [Buf D] in
theorem MapFrame.bounds {F D' : Type} [Buf D'] [FnMut F (Frame D) (Frame D')]
    (b : MapFrame B F) : Body.Bounds b := .of_new rfl

section KeepsFrames

variable {W E' S : Type} [Body W D E'] {mk : S → B → W} {f : S → Item D E → Item D E' × S}

omit [Buf D] [Body B D E] in
/-- What does not tell errors apart is the same in the runs of both. -/
theorem KeepsFrames.map_eq {β : Type} (hf : KeepsFrames f) {g : PollFrame D E' → β}
    {g' : PollFrame D E → β} (hpending : g .pending = g' .pending)
    (hfinish : g (.ready none) = g' (.ready none))
    (herror : ∀ e e', g (.ready (.error e')) = g' (.ready (.error e)))
    (hframe : ∀ frame, g (.ready (some (.ok frame))) = g' (.ready (some (.ok frame)))) (s : S)
    (rs : List (PollFrame D E)) : (relayRun f s rs).1.map g = rs.map g' := by
  apply relayRun_map hpending
  intro s o
  rcases o with _ | (err | frame)
  · rw [hf.finish, hfinish]
  · obtain ⟨err', herr'⟩ := hf.error s err
    rw [herr', herror]
  · rw [hf.ok, hframe]

omit [Buf D] [Body B D E] in
theorem KeepsFrames.kinds_eq (hf : KeepsFrames f) (s : S) (rs : List (PollFrame D E)) :
    (relayRun f s rs).1.map kind = rs.map kind := by
  apply hf.map_eq
  · rfl
  · rfl
  · exact fun _ _ => rfl
  · intro frame
    cases frame <;> rfl

omit [Body B D E] in
theorem KeepsFrames.dataTotal_eq (hf : KeepsFrames f) (s : S) (rs : List (PollFrame D E)) :
    dataTotal (relayRun f s rs).1 = dataTotal rs := by
  apply congrArg List.sum
  apply hf.map_eq
  · rfl
  · rfl
  · exact fun _ _ => rfl
  · intro frame
    cases frame <;> rfl

/-- The rule for relays that change nothing but errors and forward the hint. -/
theorem Body.Bounded.relay (h : Relays (Body.pollFrame (B := B)) (Body.pollFrame (B := W)) mk f)
    (hf : KeepsFrames f) (hhint : ∀ s b, Body.sizeHint .exact (mk s b) = Body.sizeHint .exact b)
    {b : B} (hb : Body.Bounded b) (s : S) : Body.Bounded (mk s b) := by
  refine h.always hb fun s b hb => ?_
  obtain ⟨hint, hb, hwf, hcontains⟩ := hb.here
  refine ⟨hint, (hhint s b).trans hb, hwf, fun rs w hrun hclosing => ?_⟩
  obtain ⟨is, b', his, rfl, rfl⟩ := h.runs hrun
  rw [hf.kinds_eq] at hclosing
  rw [hf.dataTotal_eq]
  exact hcontains his hclosing

end KeepsFrames

/-! ## Limited -/

omit [Foreign] in
theorem Limited.le_available {remaining n : ℕ} {hint : SizeHint} (h : hint.Contains n)
    (hle : n ≤ remaining) : n ≤ available remaining hint := by
  rcases hint with ⟨lower, _ | max⟩
  · exact hle
  · have hmax : n ≤ max := h.2 max rfl
    exact Nat.le_min.mpr ⟨hle, hmax⟩

omit [Buf D] in
/-- A limit keeps the bounds in order, and right for what stays within it. -/
theorem Limited.sizeHint_ok [Into E BoxError] {hint : SizeHint} (remaining : ℕ) (b : B)
    (hb : Body.sizeHint .exact b = .ok hint) (hwf : hint.WellFormed) :
    ∃ hint', Limited.sizeHint .exact ⟨remaining, b⟩ = .ok hint' ∧ hint'.WellFormed ∧
      ∀ n, hint.Contains n → n ≤ remaining → hint'.Contains n := by
  refine ⟨clamp remaining hint, sizeHint_clamp hb hwf remaining, hwf.clamp remaining, ?_⟩
  intro n hn hle
  rw [clamp]
  by_cases hlt : remaining < wordSize
  · rw [if_pos hlt]
    by_cases hlower : remaining ≤ hint.lower
    · rw [if_pos hlower]
      have hge : remaining ≤ n := Nat.le_trans hlower hn.1
      exact SizeHint.contains_withExact.mpr (Nat.le_antisymm hle hge)
    · rw [if_neg hlower]
      refine ⟨hn.1, fun upper hupper => ?_⟩
      cases hupper
      exact le_available hn hle
  · rw [if_neg hlt]
    exact hn

omit [Body B D E] in
/-- A run of a limited body without errors is the run of its inner body. -/
theorem Limited.relayRun_closing [Into E BoxError] {remaining : ℕ} {is : List (PollFrame D E)}
    (hclosing : Closing ((relayRun onReady remaining is).1.map kind)) :
    dataTotal is ≤ remaining ∧ Closing (is.map kind) ∧
      dataTotal (relayRun onReady remaining is).1 = dataTotal is := by
  have hbudget := budgeted_relayRun remaining is
  have hle : dataTotal is ≤ remaining := by
    by_contra hover
    have hmem := hbudget.errs (Nat.lt_of_not_le hover)
    exact hclosing.noError (error_mem_kinds.mpr ⟨_, hmem⟩)
  have hkinds : ∀ r : PollFrame D E, kind (passed r) = kind r := by
    intro r
    rcases r with _ | (_ | (err | (d | map))) <;> rfl
  have hlens : ∀ r : PollFrame D E, dataLen (passed r) = dataLen r := by
    intro r
    rcases r with _ | (_ | (err | (d | map))) <;> rfl
  rw [hbudget.unchanged hle] at hclosing ⊢
  refine ⟨hle, ?_, ?_⟩
  · simpa [hkinds, Function.comp_def] using hclosing
  · simp [dataTotal, hlens, Function.comp_def]

theorem Limited.bounded [Into E BoxError] {b : B} (hb : Body.Bounded b) (limit : ℕ) :
    Body.Bounded (Limited.new b limit) := by
  refine relays.always hb fun remaining b hb => ?_
  obtain ⟨hint, hhint, hwf, hcontains⟩ := hb.here
  obtain ⟨hint', hhint', hwf', himp⟩ := sizeHint_ok remaining b hhint hwf
  refine ⟨hint', hhint', hwf', fun rs w hrun hclosing => ?_⟩
  obtain ⟨is, b', his, rfl, rfl⟩ := relays.runs hrun
  obtain ⟨hle, hinner, htotal⟩ := relayRun_closing hclosing
  rw [htotal]
  exact himp _ (hcontains his hinner) hle

/-! ## Fuse -/

omit [Buf D] in
/-- A run of a fused body without errors is a run of its inner body, possibly
with its end repeated in place of a single one. -/
theorem Fuse.inner_run {b : B} {rs : List (PollFrame D E)} {w : Fuse B}
    (hsound : Body.EndStreamSound b) (hrun : Runs Body.Steps (⟨some b⟩ : Fuse B) rs w)
    (hno : Kind.error ∉ rs.map kind) :
    ∃ is b', Runs Body.Steps b is b' ∧
      (is = rs ∨ ∃ pre n, rs = pre ++ List.replicate n (.ready none) ∧
        is = pre ++ [.ready none]) := by
  induction rs generalizing b with
  | nil => exact ⟨[], b, .nil b, .inl rfl⟩
  | cons r rs ih =>
      obtain ⟨t, w₁, hstep, hrest⟩ := runs_cons_iff.mp hrun
      rcases steps_iff.mp hstep with @⟨_, _, _, b₁, hinner⟩ | _
      have hno' : Kind.error ∉ rs.map kind := fun herr =>
        hno (List.mem_cons_of_mem _ herr)
      by_cases hdrop : eos b₁ r = true
      · -- the inner body is dropped, and only its end is left
        rw [if_pos hdrop] at hrest
        have hended : Body.Ended (⟨none⟩ : Fuse B) :=
          ((Fuse.endStreamSound _).here rfl).ended
        have hends := hended.runs hrest
        rcases r with _ | (_ | (err | frame))
        · cases hdrop
        · have hall : Poll.ready none :: rs =
              [] ++ List.replicate (rs.length + 1) (.ready none) := by
            rw [List.nil_append, List.replicate_succ, ← hends]
          exact ⟨[.ready none], b₁, .single hinner, .inr ⟨[], _, hall, rfl⟩⟩
        · exact (hno (by simp [kind])).elim
        · have hinnerEnded : Body.EndedStream b₁ := (hsound.next hinner).here hdrop
          obtain ⟨u, b₂, hfinish, -⟩ := hinnerEnded.step (Call.steps_functional _)
          have hall : Poll.ready (some (.ok frame)) :: rs =
              [Poll.ready (some (.ok frame))] ++ List.replicate rs.length (.ready none) := by
            rw [← hends]
            rfl
          exact ⟨_, b₂, .cons hinner (.single hfinish), .inr ⟨_, _, hall, rfl⟩⟩
      · rw [if_neg hdrop] at hrest
        obtain ⟨is, b', his, hcut⟩ := ih (hsound.next hinner) hrest hno'
        refine ⟨r :: is, b', .cons hinner his, ?_⟩
        rcases hcut with rfl | ⟨pre, n, rfl, rfl⟩
        · exact .inl rfl
        · exact .inr ⟨r :: pre, n, rfl, rfl⟩

theorem Fuse.bounds {b : B} (hsound : Body.EndStreamSound b) (hb : Body.Bounds b) :
    Body.Bounds (⟨some b⟩ : Fuse B) := by
  obtain ⟨hint, hhint, hwf, hcontains⟩ := hb
  refine ⟨hint, hhint, hwf, fun rs w hrun hclosing => ?_⟩
  obtain ⟨is, b', his, rfl | ⟨pre, n, rfl, rfl⟩⟩ := inner_run hsound hrun hclosing.noError
  · exact hcontains his hclosing
  · have hno := hclosing.noError
    have hinner : Closing ((pre ++ [Poll.ready none]).map kind) := by
      refine ⟨fun herr => hno ?_, .inl (by simp [kind])⟩
      have hpre : Kind.error ∈ pre.map kind := by
        simpa [kind] using herr
      simp only [List.map_append, List.mem_append]
      exact .inl hpre
    have htotal : dataTotal (pre ++ List.replicate n (.ready none)) =
        dataTotal (pre ++ [Poll.ready none]) := by
      simp [dataTotal_replicate_finish]
    rw [htotal]
    exact hcontains his hinner

theorem Fuse.bounded {b : B} (hsound : Body.EndStreamSound b) (hb : Body.Bounded b) :
    Body.Bounded (Fuse.new b) := by
  refine Fuse.always (hsound.and hb) (fun b hb => ?_) ?_
  · exact Fuse.bounds (hb.mono fun _ h => h.1) hb.here.2
  · exact .of_ended ((Fuse.endStreamSound _).here rfl).ended rfl

/-! ## Chain -/

section Chain

variable {A E₁ : Type} [Body A D E₁] [Into E₁ E]

theorem Chain.second_run {b : B} {ta : Option HeaderMap} {rs : List (PollFrame D E)}
    {c : Chain A B} (hrun : Runs Body.Steps (.second b ta : Chain A B) rs c)
    (hending : Ending (rs.map kind)) :
    ∃ bs b', Runs Body.Steps b bs b' ∧ Closing (bs.map kind) ∧
      dataTotal bs = dataTotal rs := by
  have hcall : ∀ (b : B) t r (c : Chain A B), Body.Steps (.second b ta : Chain A B) t r c →
      InnerStep (fun b => .second b ta) (fun r c => dataLen r = 0 ∧ c = .finished) b r c := by
    intro b t r c hstep
    cases step_of_steps (by trivial) hstep with
    | secondPending hpoll => exact .pending hpoll
    | secondData hpoll => exact .data hpoll
    | secondError hpoll => exact .error
    | secondEnds hpoll hx => exact .ends hpoll hx ⟨dataLen_ofTrailers _, rfl⟩
  obtain ⟨bs, b', r, c₁, post, hbs, hclosing, ⟨hlen, rfl⟩, hpost, -, htotal⟩ :=
    InnerStep.closing_run hcall hrun hending
  refine ⟨bs, b', hbs, hclosing, ?_⟩
  rw [htotal, dataTotal_cons, hlen, Chain.ended_finished.dataTotal_eq hpost]
  rfl

theorem Chain.first_run {a : A} {b : B} {rs : List (PollFrame D E)} {c : Chain A B}
    (hrun : Runs Body.Steps (.first a (some b) : Chain A B) rs c)
    (hending : Ending (rs.map kind)) :
    ∃ as a' bs b', Runs Body.Steps a as a' ∧ Closing (as.map kind) ∧
      Runs Body.Steps b bs b' ∧ Closing (bs.map kind) ∧
      dataTotal as + dataTotal bs = dataTotal rs := by
  have hcall : ∀ (a : A) t r (c : Chain A B),
      Body.Steps (.first a (some b) : Chain A B) t r c →
      InnerStep (fun a => .first a (some b))
        (fun r c => ∃ ta u, Step (.second b ta : Chain A B) u r c) a r c := by
    intro a t r c hstep
    cases step_of_steps (by trivial) hstep with
    | firstPending hpoll => exact .pending hpoll
    | firstData hpoll => exact .data hpoll
    | firstError hpoll => exact .error
    | handOver hpoll hx hnext => exact .ends hpoll hx ⟨_, _, hnext⟩
  obtain ⟨as, a', r, c₁, post, has, hca, ⟨ta, u, hnext⟩, hpost, hlater, htotal⟩ :=
    InnerStep.closing_run hcall hrun hending
  obtain ⟨bs, b', hbs, hcb, htotal'⟩ :=
    Chain.second_run (.cons (steps_of_step hnext) hpost) hlater
  exact ⟨as, a', bs, b', has, hca, hbs, hcb, by rw [htotal, htotal']⟩

theorem Chain.bounded {a : A} {b : B} (ha : Body.Bounded a) (hb : Body.Bounded b) :
    Body.Bounded (Chain.new a b) := by
  refine Chain.always ha hb (fun a b ha hb => ?_) (fun b ta hb => ?_) ?_
  · obtain ⟨hinta, hhinta, hwfa, hcona⟩ := ha.here
    obtain ⟨hintb, hhintb, hwfb, hconb⟩ := hb.here
    refine ⟨hinta.sum hintb, ?_, hwfa.sum hwfb, fun rs c hrun hclosing => ?_⟩
    · change (Body.sizeHint .exact a >>= fun x => Body.sizeHint .exact b >>= fun y =>
        SizeHint.add .exact x y) = _
      rw [hhinta, hhintb]
      exact SizeHint.add_exact hinta hintb
    · obtain ⟨as, a', bs, b', has, hca, hbs, hcb, htotal⟩ :=
        Chain.first_run hrun hclosing.ending
      rw [← htotal]
      exact (hcona has hca).sum (hconb hbs hcb)
  · obtain ⟨hint, hhint, hwf, hcon⟩ := hb.here
    refine ⟨hint, hhint, hwf, fun rs c hrun hclosing => ?_⟩
    obtain ⟨bs, b', hbs, hcb, htotal⟩ := Chain.second_run hrun hclosing.ending
    rw [← htotal]
    exact hcon hbs hcb
  · exact .of_ended Chain.ended_finished rfl

end Chain

/-! ## WithTrailers -/

section WithTrailers

variable {F : Type} [Future F (Option (Except E HeaderMap))]

/-- Once the inner body is complete there is no more data. -/
theorem WithTrailers.Step.no_data {w w' : WithTrailers B F} {t : List Event}
    {r : PollFrame D E} (hstep : Step w t r w') (hw : ∀ b f, w ≠ .pollBody b f) :
    dataLen r = 0 ∧ ∀ b f, w' ≠ .pollBody b f := by
  cases hstep with
  | bodyPending _ => exact (hw _ _ rfl).elim
  | bodyData _ => exact (hw _ _ rfl).elim
  | bodyError _ => exact (hw _ _ rfl).elim
  | bodyEnds _ _ _ => exact (hw _ _ rfl).elim
  | futurePending _ => exact ⟨rfl, by simp⟩
  | @futureReady _ prev _ x _ _ =>
      rcases x with _ | (err | map) <;> cases prev <;> exact ⟨rfl, by simp [resolved]⟩
  | done => exact ⟨rfl, by simp⟩

theorem WithTrailers.runs_no_data {w w' : WithTrailers B F} {rs : List (PollFrame D E)}
    (hrun : Runs Body.Steps w rs w') (hstored : w.Stored) (hw : ∀ b f, w ≠ .pollBody b f) :
    dataTotal rs = 0 := by
  induction hrun with
  | nil w => rfl
  | cons hstep _ ih =>
      have hcall := step_of_steps hstored hstep
      obtain ⟨hlen, hnext⟩ := hcall.no_data hw
      rw [dataTotal_cons, hlen, ih hcall.stored hnext]

theorem WithTrailers.body_run {b : B} {f : F} {rs : List (PollFrame D E)}
    {w : WithTrailers B F} (hrun : Runs Body.Steps (.pollBody b (some f)) rs w)
    (hending : Ending (rs.map kind)) :
    ∃ bs b', Runs Body.Steps b bs b' ∧ Closing (bs.map kind) ∧
      dataTotal bs = dataTotal rs := by
  have hcall : ∀ (b : B) t r (w : WithTrailers B F),
      Body.Steps (.pollBody b (some f) : WithTrailers B F) t r w →
      InnerStep (fun b => .pollBody b (some f))
        (fun r w => ∃ prev u, Step (.pollTrailers f prev : WithTrailers B F) u r w) b r w := by
    intro b t r w hstep
    cases step_of_steps (by trivial) hstep with
    | bodyPending hpoll => exact .pending hpoll
    | bodyData hpoll => exact .data hpoll
    | bodyError hpoll => exact .error
    | bodyEnds hpoll hx hnext => exact .ends hpoll hx ⟨_, _, hnext⟩
  obtain ⟨bs, b', r, w₁, post, hbs, hclosing, ⟨prev, u, hnext⟩, hpost, -, htotal⟩ :=
    InnerStep.closing_run hcall hrun hending
  have hlate := WithTrailers.runs_no_data (.cons (steps_of_step hnext) hpost)
    (by trivial) (by simp)
  exact ⟨bs, b', hbs, hclosing, by rw [htotal, hlate, Nat.add_zero]⟩

theorem WithTrailers.bounded {b : B} (hb : Body.Bounded b) (f : F) :
    Body.Bounded (WithTrailers.new b f) := by
  refine WithTrailers.always hb f (fun b f hb => ?_) (fun f prev => .of_new rfl) (.of_new rfl)
  obtain ⟨hint, hhint, hwf, hcon⟩ := hb.here
  refine ⟨hint, hhint, hwf, fun rs w hrun hclosing => ?_⟩
  obtain ⟨bs, b', hbs, hcb, htotal⟩ := WithTrailers.body_run hrun hclosing.ending
  rw [← htotal]
  exact hcon hbs hcb

end WithTrailers

/-! ## TryFutureBody -/

omit [Buf D] in
theorem TryFutureBody.body_run {F E₁ : Type} [Future F (Except E₁ B)] [Into E₁ E] {b : B}
    {rs : List (PollFrame D E)} {w : TryFutureBody F B}
    (hrun : Runs Body.Steps (.body b) rs w) : ∃ b', Runs Body.Steps b rs b' := by
  obtain ⟨qs, b', hb, hrs, -⟩ := relays_body.runs (s := ()) hrun
  have hsame : rs.map id = qs.map id := by
    rw [hrs]
    apply relayRun_map
    · rfl
    · exact fun _ _ => rfl
  rw [List.map_id, List.map_id] at hsame
  exact ⟨b', hsame ▸ hb⟩

theorem TryFutureBody.bounded {F E₁ : Type} [Future F (Except E₁ B)] [Into E₁ E] {f : F}
    (hf : ∀ b f', Awaits Future.Steps f (.ok b) f' → Body.Bounded b) :
    Body.Bounded (TryFutureBody.new f : TryFutureBody F B) := by
  refine TryFutureBody.always hf (fun f _ => .of_new rfl) (fun b hb => ?_) ?_
  · obtain ⟨hint, hhint, hwf, hcon⟩ := hb.here
    refine ⟨hint, hhint, hwf, fun rs w hrun hclosing => ?_⟩
    obtain ⟨b', hb'⟩ := TryFutureBody.body_run hrun
    exact hcon hb' hclosing
  · have hended : Body.Ended (.failed : TryFutureBody F B) :=
      .of_fixed trivial (steps_iff.mpr .failed)
    exact .of_ended hended rfl

end Rules

/-! ## Expressions -/

section Expressions

variable [Foreign]

/-- Bodies of the user that obey the contract of the trait. -/
def contractBody : BodyPred :=
  fun _ _ _ _ _ b => Body.Contract b

theorem Composed.bounded {B D E : Type} [Buf D] [Body B D E] {b : B}
    (h : Composed contractBody b) : Body.Bounded b := by
  induction h with
  | user hb => exact hb.bounded
  | empty D => exact .of_forall Empty.bounds _
  | full data => exact .of_forall Full.bounds _
  | string s => exact .of_forall Str.bounds s
  | errorBody D error => exact .of_forall ErrorBody.bounds _
  | pending D E => exact .of_forall Pending.bounds _
  | collected c => exact .of_forall Collected.bounds c
  | streamBody stream => exact .of_forall StreamBody.bounds _
  | chain _ _ iha ihb => exact Chain.bounded iha ihb
  | withTrailers f _ ih => exact WithTrailers.bounded ih f
  | limited limit _ ih => exact Limited.bounded ih limit
  | fuse hb ih =>
      have hsound : Composed endStreamSoundBody _ := hb.mono fun _ _ _ _ _ _ hc => hc.endStream
      exact Fuse.bounded hsound.sound ih
  | mapFrame f _ _ => exact .of_forall MapFrame.bounds _
  | mapErr f _ ih => exact .relay MapErr.relays MapErr.keepsFrames (fun _ _ => rfl) ih f
  | inspectFrame f _ ih =>
      exact .relay InspectFrame.relays InspectFrame.keepsFrames (fun _ _ => rfl) ih f
  | inspectErr f _ ih =>
      exact .relay InspectErr.relays InspectErr.keepsFrames (fun _ _ => rfl) ih f
  | left R _ ih => exact .relay Either.relays_left intoErr_keepsFrames (fun _ _ => rfl) ih ()
  | right L _ ih =>
      exact .relay Either.relays_right intoErr_keepsFrames (fun _ _ => rfl) ih ()
  | tryFuture _ ih => exact TryFutureBody.bounded ih

/-- In every state that an expression reaches, the size hint does not panic, its
bounds are in order, and they bound the data of every later run that reaches the
end without an error. -/
theorem sizeHint_sound {B D E : Type} [Buf D] [Body B D E] {b : B}
    (h : Composed contractBody b) {rs : List (PollFrame D E)} {b' : B}
    (hrun : Runs Body.Steps b rs b') : Body.HintOk b' :=
  (h.bounded hrun).hintOk

end Expressions

/-- Two chunks in a chain, after the first of them. -/
theorem sizeHint_sound_chain :
    Body.HintOk (.first ⟨none⟩ (some ⟨some ⟨[3], by decide⟩⟩) :
      Chain (Full Bytes) (Full Bytes)) := by
  have hrun : Runs (Body.Steps (B := Chain (Full Bytes) (Full Bytes)))
      (Chain.new (Full.new (⟨[1, 2], by decide⟩ : Bytes))
        (Full.new (⟨[3], by decide⟩ : Bytes)))
      [.ready (.data (⟨[1, 2], by decide⟩ : Bytes))]
      (.first ⟨none⟩ (some ⟨some ⟨[3], by decide⟩⟩)) :=
    .cons (t := []) rfl (.nil _)
  exact sizeHint_sound (.chain (.full _) (.full _)) hrun

end HttpBody
