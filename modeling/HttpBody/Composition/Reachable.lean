import HttpBody.Util.Chain
import HttpBody.Util.Fuse
import HttpBody.Util.TryFuture
import HttpBody.Util.WithTrailers

/-!
# Reachable states of the combinators

What holds in every state of the parts of a combinator gives what holds in every
state of the whole: one rule for each combinator that has states of its own.
The wrappers that are relays have such a rule from the library.
-/

namespace HttpBody

open Support

variable [Foreign] {A B T F D E E₁ E₂ : Type}

/-! ## Chain -/

/-- The states of a chain, if `P` and `Q` hold of its two bodies. -/
def Chain.Within [Body A D E₁] [Body B D E₂] (P : A → Prop) (Q : B → Prop) :
    Chain A B → Prop
  | .first a (some b) => Always Body.Steps P a ∧ Always Body.Steps Q b
  | .first _ none => False
  | .second b _ => Always Body.Steps Q b
  | .finished => True

section Chain

variable [Body A D E₁] [Body B D E₂] [Into E₁ E₂] {P : A → Prop} {Q : B → Prop}

theorem Chain.Within.step {c c' : Chain A B} {t : List Event} {r : PollFrame D E₂}
    (h : Within P Q c) (hstep : Step c t r c') : Within P Q c' := by
  induction hstep with
  | firstPending hpoll => exact ⟨h.1.next hpoll, h.2⟩
  | firstData hpoll => exact ⟨h.1.next hpoll, h.2⟩
  | firstError _ => trivial
  | handOver _ _ _ ih => exact ih h.2
  | secondPending hpoll => exact h.next hpoll
  | secondData hpoll => exact h.next hpoll
  | secondError _ => trivial
  | secondEnds _ _ => trivial
  | finished => trivial

theorem Chain.always {R : Chain A B → Prop} {a : A} {b : B} (ha : Always Body.Steps P a)
    (hb : Always Body.Steps Q b)
    (hfirst : ∀ a b, Always Body.Steps P a → Always Body.Steps Q b → R (.first a (some b)))
    (hsecond : ∀ b ta, Always Body.Steps Q b → R (.second b ta)) (hfinished : R .finished) :
    Always Body.Steps R (Chain.new a b) := by
  refine Always.of_invariant (fun c => Within P Q c ∧ c.Stored) ⟨⟨ha, hb⟩, trivial⟩ ?_ ?_
  · rintro (⟨a, _ | b⟩ | ⟨b, ta⟩ | _) ⟨hc, hstored⟩
    · exact hstored.elim
    · exact hfirst a b hc.1 hc.2
    · exact hsecond b ta hc
    · exact hfinished
  · rintro c t r c' ⟨hc, hstored⟩ hstep
    have hcall := step_of_steps hstored hstep
    exact ⟨hc.step hcall, hcall.stored⟩

end Chain

/-! ## WithTrailers -/

/-- The states of a body with added trailers, if `P` holds of its inner body. -/
def WithTrailers.Within [Body T D E] (P : T → Prop) : WithTrailers T F → Prop
  | .pollBody b (some _) => Always Body.Steps P b
  | .pollBody _ none => False
  | _ => True

section WithTrailers

variable [Body T D E] [Future F (Option (Except E HeaderMap))] {P : T → Prop}

theorem WithTrailers.Within.step {w w' : WithTrailers T F} {t : List Event}
    {r : PollFrame D E} (h : Within P w) (hstep : Step w t r w') : Within P w' := by
  induction hstep with
  | bodyPending hpoll => exact h.next hpoll
  | bodyData hpoll => exact h.next hpoll
  | bodyError hpoll => exact h.next hpoll
  | bodyEnds _ _ _ ih => exact ih trivial
  | futurePending _ => trivial
  | @futureReady _ prev _ x _ _ => rcases x with _ | (err | map) <;> cases prev <;> trivial
  | done => trivial

theorem WithTrailers.always {R : WithTrailers T F → Prop} {b : T}
    (hb : Always Body.Steps P b) (f : F)
    (hbody : ∀ b f, Always Body.Steps P b → R (.pollBody b (some f)))
    (hfuture : ∀ f prev, R (.pollTrailers f prev)) (hdone : R .done) :
    Always Body.Steps R (WithTrailers.new b f) := by
  refine Always.of_invariant (fun w => Within P w ∧ w.Stored) ⟨hb, trivial⟩ ?_ ?_
  · rintro (⟨b, _ | f⟩ | ⟨f, prev⟩ | _) ⟨hw, hstored⟩
    · exact hstored.elim
    · exact hbody b f hw
    · exact hfuture f prev
    · exact hdone
  · rintro w t r w' ⟨hw, hstored⟩ hstep
    have hcall := step_of_steps hstored hstep
    exact ⟨hw.step hcall, hcall.stored⟩

end WithTrailers

/-! ## Fuse -/

theorem Fuse.always [Body B D E] {P : B → Prop} {R : Fuse B → Prop} {b : B}
    (hb : Always Body.Steps P b) (hinner : ∀ b, Always Body.Steps P b → R ⟨some b⟩)
    (hfused : R ⟨none⟩) : Always Body.Steps R (Fuse.new b) := by
  refine Always.of_invariant (fun w => ∀ b, w.inner = some b → Always Body.Steps P b) ?_ ?_ ?_
  · intro inner hnew
    by_cases hend : Body.isEndStream b = true
    · simp [Fuse.new, hend] at hnew
    · simp only [Fuse.new, hend, Bool.false_eq_true, ↓reduceIte, Option.some.injEq] at hnew
      exact hnew ▸ hb
  · rintro ⟨_ | inner⟩ hw
    · exact hfused
    · exact hinner inner (hw inner rfl)
  · intro w t r w' hw hstep inner hnew
    rcases steps_iff.mp hstep with @⟨b₀, _, _, b₁, hpoll⟩ | _
    · by_cases hdrop : eos b₁ r = true
      · simp [hdrop] at hnew
      · simp only [hdrop, Bool.false_eq_true, ↓reduceIte, Option.some.injEq] at hnew
        exact hnew ▸ (hw b₀ rfl).next hpoll
    · cases hnew

/-! ## TryFutureBody -/

section TryFuture

variable [Body B D E] [Future F (Except E₁ B)]

/-- The states of a body backed by a future `f`, if `P` holds of every body
that `f` can yield. -/
def TryFutureBody.Within (f : F) (P : B → Prop) : TryFutureBody F B → Prop
  | .future f' => ∃ n, Runs Future.Steps f (List.replicate n .pending) f'
  | .body b => Always Body.Steps P b
  | .failed => True

variable [Into E₁ E] {f : F} {P : B → Prop}

theorem TryFutureBody.Within.step {w w' : TryFutureBody F B} {t : List Event}
    {r : PollFrame D E}
    (hf : ∀ b f', Awaits Future.Steps f (.ok b) f' → Always Body.Steps P b)
    (h : Within f P w) (hstep : Step w t r w') : Within f P w' := by
  cases hstep with
  | futurePending hpoll =>
      obtain ⟨n, hrun⟩ := h
      refine ⟨n + 1, ?_⟩
      rw [List.replicate_succ', runs_snoc_iff]
      exact ⟨_, _, hrun, hpoll⟩
  | futureError _ => trivial
  | futureBody hpoll hbody =>
      obtain ⟨n, hrun⟩ := h
      exact (hf _ _ (.pendings hrun (.ready hpoll))).next hbody
  | body hbody => exact h.next hbody
  | failed => trivial

theorem TryFutureBody.always {Q : TryFutureBody F B → Prop}
    (hf : ∀ b f', Awaits Future.Steps f (.ok b) f' → Always Body.Steps P b)
    (hfuture : ∀ f, (∀ t b f', Future.Steps f t (.ready (.ok b)) f' → Always Body.Steps P b) →
      Q (.future f))
    (hbody : ∀ b, Always Body.Steps P b → Q (.body b)) (hfailed : Q .failed) :
    Always Body.Steps Q (TryFutureBody.new f) := by
  refine Always.of_invariant (Within f P) ⟨0, .nil f⟩ (fun w hw => ?_)
    fun w t r w' hw hstep => hw.step hf (steps_iff.mp hstep)
  cases w with
  | future f' =>
      obtain ⟨n, hrun⟩ := hw
      exact hfuture f' fun t b g hpoll => hf b g (.pendings hrun (.ready hpoll))
  | body b => exact hbody b hw
  | failed => exact hfailed

end TryFuture

end HttpBody
