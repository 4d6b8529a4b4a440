import HttpBody.Composition.Reachable
import HttpBody.Util.Collected
import HttpBody.Util.DataStream

/-!
# Suspending is safe

A call that is pending was suspended by the leaf that it polled last, and polled
no leaf that was pending before.  This holds in every state of every
combinator over observed leaves, so a waker is registered whenever the whole is
pending.
-/

namespace HttpBody

open Support

variable [Foreign]

/-- In every reachable state, a call keeps the waking discipline. -/
def Body.Wakes {B D E : Type} [Body B D E] (b : B) : Prop :=
  Always Body.Steps (fun b : B => Wakeful (Body.pollFrame b)) b

section Rules

variable {A B T W D D' E E' E₁ E₂ F S : Type} [Body B D E]

theorem Probe.wakes (b : Probe B) : Body.Wakes b :=
  fun _ _ _ => .observe _ _ _

theorem Body.Wakes.relay [Body W D' E'] {mk : S → B → W} {f : S → Item D E → Item D' E' × S}
    (h : Relays (Body.pollFrame (B := B)) (Body.pollFrame (B := W)) mk f) {b : B}
    (hb : Body.Wakes b) (s : S) : Body.Wakes (mk s b) :=
  h.always hb fun _ _ hb => h.wakeful hb.here

theorem Fuse.wakes {b : B} (hb : Body.Wakes b) : Body.Wakes (Fuse.new b) := by
  refine Fuse.always hb (fun b hb => ?_) (.pure_ready _ _)
  exact passes.wakeful hb.here fun _ _ _ _ => .pure_ready _ _

theorem Chain.wakeful_second [Body A D E₁] [Into E₁ E] {b : B} (hb : Body.Wakes b)
    (ta : Option HeaderMap) : Wakeful (pollSecond b ta : Call (_ × Chain A B)) := by
  refine (passes_second ta).wakeful hb.here fun t x b' _ => ?_
  rcases x with _ | (err | (d | map))
  · exact .pure_ready _ _
  · exact .pure_ready _ _
  · exact .pure_ready _ _
  · exact .pure_ready _ _

theorem Chain.wakes [Body A D E₁] [Into E₁ E] {a : A} {b : B} (ha : Body.Wakes a)
    (hb : Body.Wakes b) : Body.Wakes (Chain.new a b) := by
  refine Chain.always ha hb (fun a b ha hb => ?_) (fun b ta hb => wakeful_second hb ta)
    (.pure_ready _ _)
  refine (passes_first _).wakeful ha.here fun t x a' _ => ?_
  rcases x with _ | (err | (d | map))
  · exact wakeful_second hb none
  · exact .pure_ready _ _
  · exact .pure_ready _ _
  · exact wakeful_second hb (some map)

theorem WithTrailers.wakeful_trailers [Future F (Option (Except E HeaderMap))]
    (f : Probe F) (prev : Option HeaderMap) :
    Wakeful (pollTrailersArm f prev : Call (PollFrame D E × WithTrailers B (Probe F))) := by
  refine (passes_trailers prev).wakeful (.observe _ _ _) fun t x f' _ => ?_
  exact .pure_ready _ _

theorem WithTrailers.wakes [Future F (Option (Except E HeaderMap))] {b : B}
    (hb : Body.Wakes b) (f : Probe F) : Body.Wakes (WithTrailers.new b f) := by
  refine WithTrailers.always hb f (fun b f hb => ?_) (fun f prev => wakeful_trailers f prev)
    (.pure_ready _ _)
  refine (passes_body _).wakeful hb.here fun t x b' _ => ?_
  rcases x with _ | (err | (d | map))
  · exact wakeful_trailers f none
  · exact .pure_ready _ _
  · exact .pure_ready _ _
  · exact wakeful_trailers f (some map)

theorem TryFutureBody.wakes [Future F (Except E₁ B)] [Into E₁ E] {f : Probe F}
    (hf : ∀ b f', Awaits Future.Steps f (.ok b) f' → Body.Wakes b) :
    Body.Wakes (TryFutureBody.new f : TryFutureBody (Probe F) B) := by
  have hbody : ∀ b : B, Body.Wakes b →
      Wakeful (pollBody b : Call (_ × TryFutureBody (Probe F) B)) :=
    fun b hb => (relays_body.passes ()).wakeful hb.here fun _ _ _ _ => .pure_ready _ _
  refine TryFutureBody.always hf (fun f hf => ?_) hbody (.pure_ready _ _)
  refine passes_future.wakeful (.observe _ _ _) fun t x f' hstep => ?_
  cases x with
  | error err => exact .pure_ready _ _
  | ok b => exact hbody b (hf t b f' hstep)

/-! ## The loops over a body -/

theorem BodyDataStream.wakes {b : B} (hb : Body.Wakes b) :
    Always Steps (fun s => ∀ fuel, Wakeful (pollNext fuel s)) (new b) := by
  have hturn : Always (Call.steps turn) (fun s => Wakeful (turn s)) (new b) :=
    relays.always (s := ()) hb fun u _ hb => relays.wakeful (s := u) hb.here
  exact hturn.always.loops.mono fun s hs fuel => .loop hs fuel

variable [Buf D]

theorem Collect.wakeful_turn {collected : Option (Collected D)} {b : B}
    (hb : Wakeful (Body.pollFrame b)) : Wakeful (turn ⟨collected, b⟩) := by
  refine (passes collected).wakeful hb fun t x b' _ => ?_
  rcases x with _ | (err | frame)
  · cases collected with
    | none => exact .error _
    | some collected => exact .pure_ready _ _
  · exact .pure_ready _ _
  · cases collected with
    | none => exact .error _
    | some collected =>
        simp only [afterBody, Call.unwrap_some_bind]
        cases collected.pushFrame frame with
        | error s => exact .error s
        | ok collected => exact .pure_ready _ _

omit [Body B D E] in
theorem Collect.afterBody_body {collected : Option (Collected D)} {x : Item D E} {b : B}
    {t : List Event} {r : Poll (Option (Except E (Collected D)))} {me : Collect B D}
    (h : afterBody collected x b = ⟨t, .ok (r, me)⟩) : me.body = b := by
  rcases x with _ | (err | frame)
  · cases collected with
    | none => cases h
    | some collected =>
        cases h
        rfl
  · cases h
    rfl
  · cases collected with
    | none => cases h
    | some collected =>
        simp only [afterBody, Call.unwrap_some_bind] at h
        generalize collected.pushFrame frame = pushed at h
        cases pushed with
        | error s => cases h
        | ok collected =>
            cases h
            rfl

theorem Collect.wakes {b : B} (hb : Body.Wakes b) :
    Always Steps (fun me => ∀ fuel, Wakeful (poll fuel me)) (new b : Collect B D) := by
  have hturn : Always (Call.steps turn) (fun me => Wakeful (turn me)) (new b : Collect B D) := by
    refine Always.of_invariant (fun me => Body.Wakes me.body) hb ?_ ?_
    · rintro ⟨collected, b⟩ hb
      exact wakeful_turn hb.here
    · rintro ⟨collected, b⟩ t r me hb hstep
      rcases (passes collected).step_cases hstep with
        ⟨b', hpoll, -, rfl⟩ | ⟨t₁, x, b', t₂, hpoll, hnext, -⟩
      · exact hb.next hpoll
      · rw [afterBody_body hnext]
        exact hb.next hpoll
  exact hturn.always.loops.mono fun me hme fuel => .loop hme fuel

end Rules

end HttpBody
