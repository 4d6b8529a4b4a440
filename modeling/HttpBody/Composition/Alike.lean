import HttpBody.Util.Chain
import HttpBody.Util.Fuse
import HttpBody.Util.TryFuture
import HttpBody.Util.WithTrailers
import HttpBody.Util.Wrappers

/-!
# Bodies that differ in their suspensions

Two bodies are alike if they answer the same when each answer is awaited, and
say the same about the end of the stream after each frame.  They may suspend at
different places, and a different number of times.  Every combinator keeps
bodies alike: what it has taken, merged or counted when it suspends is still
there when it is polled again.
-/

namespace HttpBody

open Support

variable [Foreign]

section Alike

variable {B B' D E : Type} [Body B D E] [Body B' D E]

/-- Up to their first error or their end, `b` and `b'` answer alike. -/
def Body.Alike (b : B) (b' : B') : Prop :=
  ∃ R : B → B' → Prop, R b b' ∧
    (∀ s u, R s u → Body.isEndStream s = Body.isEndStream u) ∧
    AwaitBisim Body.Steps Body.Steps (fun o => o.isFrame) R

namespace Body.Alike

theorem hint {b : B} {b' : B'} (h : Body.Alike b b') :
    Body.isEndStream b = Body.isEndStream b' := by
  obtain ⟨R, hR, hhint, -⟩ := h
  exact hhint b b' hR

theorem refl (b : B) : Body.Alike b b := by
  refine ⟨Eq, rfl, fun _ _ hsu => by rw [hsu], ?_, ?_⟩
  · rintro s _ o s' rfl hawait
    exact ⟨s', hawait, fun _ => rfl⟩
  · rintro s _ o s' rfl hawait
    exact ⟨s', hawait, fun _ => rfl⟩

theorem symm {b : B} {b' : B'} (h : Body.Alike b b') : Body.Alike b' b := by
  obtain ⟨R, hR, hhint, hbisim⟩ := h
  refine ⟨fun u s => R s u, hR, fun u s hus => (hhint s u hus).symm, ?_⟩
  exact ⟨hbisim.back, hbisim.forth⟩

theorem forth {b b₁ : B} {b' : B'} {o : Item D E} (h : Body.Alike b b')
    (hawait : Awaits Body.Steps b o b₁) :
    ∃ b₁', Awaits Body.Steps b' o b₁' ∧ (o.isFrame → Body.Alike b₁ b₁') := by
  obtain ⟨R, hR, hhint, hbisim⟩ := h
  obtain ⟨b₁', hawait', hnext⟩ := hbisim.forth hR hawait
  exact ⟨b₁', hawait', fun hframe => ⟨R, hnext hframe, hhint, hbisim⟩⟩

theorem bisim :
    AwaitBisim Body.Steps Body.Steps (fun o => o.isFrame) (Body.Alike : B → B' → Prop) where
  forth _ _ _ _ h hawait := h.forth hawait
  back _ _ _ _ h hawait := by
    obtain ⟨b', hawait', hnext⟩ := h.symm.forth hawait
    exact ⟨b', hawait', fun hframe => (hnext hframe).symm⟩

/-- States that follow each other in both directions are alike. -/
theorem of_follows (R : B → B' → Prop) (R' : B' → B → Prop) {b : B} {b' : B'}
    (hflip : ∀ s u, R s u ↔ R' u s)
    (hhint : ∀ s u, R s u → Body.isEndStream s = Body.isEndStream u)
    (hforth : ∀ s u, R s u → Follows Body.pollFrame Body.pollFrame (fun o => o.isFrame) R
      (Body.pollFrame s) (Body.pollFrame u))
    (hback : ∀ u s, R' u s → Follows Body.pollFrame Body.pollFrame (fun o => o.isFrame) R'
      (Body.pollFrame u) (Body.pollFrame s))
    (hR : R b b') : Body.Alike b b' := by
  have hsim := awaitSim_iff.mpr fun s u => hforth s u
  have hsim' := awaitSim_iff.mpr fun u s => hback u s
  exact ⟨R, hR, hhint, .of_sims hflip hsim hsim'⟩

end Body.Alike

end Alike

/-! ## Relays -/

section Relay

variable {B B' W W' D D' E E' S : Type} [Body B D E] [Body B' D E] [Body W D' E'] [Body W' D' E']

/-- Alike inner bodies, with the same state of the relay. -/
inductive RelayStates (mk : S → B → W) (mk' : S → B' → W') : W → W' → Prop where
  | relay {s b b'} : Body.Alike b b' → RelayStates mk mk' (mk s b) (mk' s b')

omit [Body W D' E'] [Body W' D' E'] in
theorem RelayStates.symm {mk : S → B → W} {mk' : S → B' → W'} {w : W} {w' : W'}
    (h : RelayStates mk mk' w w') : RelayStates mk' mk w' w := by
  obtain ⟨hb⟩ := h
  exact .relay hb.symm

theorem RelayStates.follows {mk : S → B → W} {mk' : S → B' → W'}
    {f : S → Item D E → Item D' E' × S}
    (h : Relays (Body.pollFrame (B := B)) (Body.pollFrame (B := W)) mk f)
    (h' : Relays (Body.pollFrame (B := B')) (Body.pollFrame (B := W')) mk' f)
    (hframe : ∀ s o, (f s o).1.isFrame → o.isFrame) {w : W} {w' : W'}
    (hw : RelayStates mk mk' w w') :
    Follows Body.pollFrame Body.pollFrame (fun o => o.isFrame) (RelayStates mk mk')
      (Body.pollFrame w) (Body.pollFrame w') := by
  obtain ⟨hb⟩ := hw
  refine (h.passes _).follows (h'.passes _) fun x b₁ hawait => ?_
  obtain ⟨b₁', hawait', hnext⟩ := hb.forth hawait
  exact ⟨x, b₁', hawait', .ready fun ho => .relay (hnext (hframe _ x ho))⟩

/-- The rule for relays that forward `is_end_stream`. -/
theorem Body.Alike.relay {mk : S → B → W} {mk' : S → B' → W'}
    {f : S → Item D E → Item D' E' × S}
    (h : Relays (Body.pollFrame (B := B)) (Body.pollFrame (B := W)) mk f)
    (h' : Relays (Body.pollFrame (B := B')) (Body.pollFrame (B := W')) mk' f)
    (hframe : ∀ s o, (f s o).1.isFrame → o.isFrame)
    (heos : ∀ s b, Body.isEndStream (mk s b) = Body.isEndStream b)
    (heos' : ∀ s b, Body.isEndStream (mk' s b) = Body.isEndStream b)
    {b : B} {b' : B'} (hb : Body.Alike b b') (s : S) : Body.Alike (mk s b) (mk' s b') := by
  refine .of_follows (RelayStates mk mk') (RelayStates mk' mk) (fun _ _ => ⟨.symm, .symm⟩) ?_
    (fun _ _ hw => hw.follows h h' hframe) (fun _ _ hw => hw.follows h' h hframe) (.relay hb)
  rintro w w' ⟨hb⟩
  rw [heos, heos', hb.hint]

end Relay

/-! ## Observed leaves -/

section Probe

variable {B B' D E : Type} [Body B D E] [Body B' D E]

theorem Probe.awaits_iff {leaf : ℕ} {b : B} {o : Item D E} {q : Probe B} :
    Awaits Body.Steps (⟨leaf, b⟩ : Probe B) o q ↔
      ∃ b', Awaits Body.Steps b o b' ∧ q = ⟨leaf, b'⟩ := by
  refine Awaits.map_iff (Probe.mk leaf) fun b r q => ?_
  constructor
  · rintro ⟨t, hstep⟩
    obtain ⟨u, b', hpoll, -, rfl⟩ := Probe.step_cases hstep
    exact ⟨u, b', hpoll, rfl⟩
  · rintro ⟨u, b', hpoll, rfl⟩
    exact ⟨_, Probe.step leaf hpoll⟩

/-- The names of the leaves do not matter. -/
theorem Probe.alike {b : B} {b' : B'} (h : Body.Alike b b') (i j : ℕ) :
    Body.Alike (⟨i, b⟩ : Probe B) (⟨j, b'⟩ : Probe B') := by
  refine ⟨fun q q' => q.leaf = i ∧ q'.leaf = j ∧ Body.Alike q.inner q'.inner,
    ⟨rfl, rfl, h⟩, fun q q' hq => hq.2.2.hint, ?_, ?_⟩
  · rintro ⟨_, b⟩ ⟨_, b'⟩ o q₁ ⟨rfl, rfl, hb⟩ hawait
    obtain ⟨b₁, hpoll, rfl⟩ := Probe.awaits_iff.mp hawait
    obtain ⟨b₁', hpoll', hnext⟩ := hb.forth hpoll
    exact ⟨_, Probe.awaits_iff.mpr ⟨b₁', hpoll', rfl⟩, fun hframe => ⟨rfl, rfl, hnext hframe⟩⟩
  · rintro ⟨_, b'⟩ ⟨_, b⟩ o q₁ ⟨rfl, rfl, hb⟩ hawait
    obtain ⟨b₁', hpoll', rfl⟩ := Probe.awaits_iff.mp hawait
    obtain ⟨b₁, hpoll, hnext⟩ := hb.symm.forth hpoll'
    exact ⟨_, Probe.awaits_iff.mpr ⟨b₁, hpoll, rfl⟩,
      fun hframe => ⟨rfl, rfl, (hnext hframe).symm⟩⟩

end Probe

section ProbeFuture

variable {F F' O O' : Type} [Future F O] [Future F' O']

omit [Foreign] in
theorem Probe.future_awaits_iff {leaf : ℕ} {f : F} {o : O} {q : Probe F} :
    Awaits Future.Steps (⟨leaf, f⟩ : Probe F) o q ↔
      ∃ f', Awaits Future.Steps f o f' ∧ q = ⟨leaf, f'⟩ := by
  refine Awaits.map_iff (Probe.mk leaf) fun f r q => ?_
  constructor
  · rintro ⟨t, hstep⟩
    obtain ⟨u, f', hpoll, -, rfl⟩ := Probe.future_step_cases hstep
    exact ⟨u, f', hpoll, rfl⟩
  · rintro ⟨u, f', hpoll, rfl⟩
    exact ⟨_, Probe.future_step leaf hpoll⟩

omit [Foreign] in
theorem Probe.awaitsLike {V : O → O' → Prop} {f : F} {f' : F'}
    (h : AwaitsLike Future.Steps Future.Steps V f f') (i j : ℕ) :
    AwaitsLike Future.Steps Future.Steps V (⟨i, f⟩ : Probe F) (⟨j, f'⟩ : Probe F') := by
  constructor
  · intro o q hawait
    obtain ⟨g, hpoll, -⟩ := Probe.future_awaits_iff.mp hawait
    obtain ⟨o', g', hpoll', hV⟩ := h.1 o g hpoll
    exact ⟨o', ⟨j, g'⟩, Probe.future_awaits_iff.mpr ⟨g', hpoll', rfl⟩, hV⟩
  · intro o' q hawait
    obtain ⟨g', hpoll', -⟩ := Probe.future_awaits_iff.mp hawait
    obtain ⟨o, g, hpoll, hV⟩ := h.2 o' g' hpoll'
    exact ⟨o, ⟨i, g⟩, Probe.future_awaits_iff.mpr ⟨g, hpoll, rfl⟩, hV⟩

end ProbeFuture

/-! ## Fuse -/

namespace Fuse

variable {B B' D E : Type} [Body B D E] [Body B' D E]

/-- Fused bodies that are both dropped, or hold alike bodies. -/
inductive States : Fuse B → Fuse B' → Prop where
  | inner {b b'} : Body.Alike b b' → States ⟨some b⟩ ⟨some b'⟩
  | fused : States ⟨none⟩ ⟨none⟩

theorem States.symm {w : Fuse B} {w' : Fuse B'} (h : States w w') : States w' w := by
  cases h with
  | inner hb => exact .inner hb.symm
  | fused => exact .fused

/-- Alike bodies are dropped together. -/
theorem States.of_eos {b : B} {b' : B'} (hb : Body.Alike b b') (c c' : Bool) (hc : c = c') :
    States (⟨if c then none else some b⟩ : Fuse B) (⟨if c' then none else some b'⟩ : Fuse B') := by
  subst hc
  cases c with
  | false => exact .inner hb
  | true => exact .fused

theorem States.follows {w : Fuse B} {w' : Fuse B'} (h : States w w') :
    Follows Body.pollFrame Body.pollFrame (fun o => o.isFrame) States
      (Body.pollFrame w) (Body.pollFrame w') := by
  cases h with
  | inner hb =>
      refine passes.follows passes fun x b₁ hawait => ?_
      obtain ⟨b₁', hawait', hnext⟩ := hb.forth hawait
      refine ⟨x, b₁', hawait', .ready fun hframe => ?_⟩
      have halike := hnext hframe
      refine .of_eos halike _ _ ?_
      rcases x with _ | (err | frame)
      · rfl
      · rfl
      · exact halike.hint
  | fused => exact .ready fun _ => .fused

theorem alike {b : B} {b' : B'} (hb : Body.Alike b b') :
    Body.Alike (Fuse.new b) (Fuse.new b') := by
  refine .of_follows States States (fun _ _ => ⟨.symm, .symm⟩) ?_ (fun _ _ hw => hw.follows)
    (fun _ _ hw => hw.follows) (.of_eos hb _ _ hb.hint)
  rintro w w' (_ | _) <;> rfl

end Fuse

/-! ## Chain -/

namespace Chain

variable {A A' B B' D E₁ E₂ : Type} [Body A D E₁] [Body A' D E₁] [Body B D E₂] [Body B' D E₂]

/-- Chains in the same state, of alike bodies. -/
inductive States : Chain A B → Chain A' B' → Prop where
  | first {a a' b b'} : Body.Alike a a' → Body.Alike b b' →
      States (.first a (some b)) (.first a' (some b'))
  | second {b b'} (ta : Option HeaderMap) : Body.Alike b b' →
      States (.second b ta) (.second b' ta)
  | finished : States .finished .finished

theorem States.symm {c : Chain A B} {c' : Chain A' B'} (h : States c c') : States c' c := by
  cases h with
  | first ha hb => exact .first ha.symm hb.symm
  | second ta hb => exact .second ta hb.symm
  | finished => exact .finished

variable [Into E₁ E₂]

theorem States.follows_second {b : B} {b' : B'} (ta : Option HeaderMap)
    (hb : Body.Alike b b') :
    Follows Body.pollFrame Body.pollFrame (fun o => o.isFrame)
      (States : Chain A B → Chain A' B' → Prop) (pollSecond b ta) (pollSecond b' ta) := by
  refine (passes_second ta).follows (passes_second ta) fun x b₁ hawait => ?_
  obtain ⟨b₁', hawait', hnext⟩ := hb.forth hawait
  refine ⟨x, b₁', hawait', ?_⟩
  rcases x with _ | (err | (d | map))
  · exact .ready fun _ => .finished
  · exact .ready fun _ => .finished
  · exact .ready fun _ => .second ta (hnext rfl)
  · exact .ready fun _ => .finished

theorem States.follows {c : Chain A B} {c' : Chain A' B'} (h : States c c') :
    Follows Body.pollFrame Body.pollFrame (fun o => o.isFrame) States
      (Body.pollFrame c) (Body.pollFrame c') := by
  cases h with
  | first ha hb =>
      refine (passes_first _).follows (passes_first _) fun x a₁ hawait => ?_
      obtain ⟨a₁', hawait', hnext⟩ := ha.forth hawait
      refine ⟨x, a₁', hawait', ?_⟩
      rcases x with _ | (err | (d | map))
      · exact follows_second none hb
      · exact .ready fun _ => .finished
      · exact .ready fun _ => .first (hnext rfl) hb
      · exact follows_second (some map) hb
  | second ta hb => exact follows_second ta hb
  | finished => exact .ready fun _ => .finished

theorem alike {a : A} {a' : A'} {b : B} {b' : B'} (ha : Body.Alike a a')
    (hb : Body.Alike b b') : Body.Alike (Chain.new a b) (Chain.new a' b') := by
  refine .of_follows States States (fun _ _ => ⟨.symm, .symm⟩) ?_ (fun _ _ hw => hw.follows)
    (fun _ _ hw => hw.follows) (.first ha hb)
  rintro c c' (_ | _ | _) <;> rfl

end Chain

/-! ## WithTrailers -/

namespace WithTrailers

variable {T T' F F' D E : Type} [Body T D E] [Body T' D E]
  [Future F (Option (Except E HeaderMap))] [Future F' (Option (Except E HeaderMap))]

/-- Bodies with added trailers in the same state, with alike inner bodies and
futures. -/
inductive States : WithTrailers T F → WithTrailers T' F' → Prop where
  | pollBody {b b' f f'} : Body.Alike b b' → AwaitsLike Future.Steps Future.Steps Eq f f' →
      States (.pollBody b (some f)) (.pollBody b' (some f'))
  | pollTrailers {f f'} (prev : Option HeaderMap) :
      AwaitsLike Future.Steps Future.Steps Eq f f' →
      States (.pollTrailers f prev) (.pollTrailers f' prev)
  | done : States .done .done

theorem States.symm {w : WithTrailers T F} {w' : WithTrailers T' F'} (h : States w w') :
    States w' w := by
  cases h with
  | pollBody hb hf => exact .pollBody hb.symm (hf.symm fun _ _ => Eq.symm)
  | pollTrailers prev hf => exact .pollTrailers prev (hf.symm fun _ _ => Eq.symm)
  | done => exact .done

theorem States.follows_trailers {f : F} {f' : F'} (prev : Option HeaderMap)
    (hf : AwaitsLike Future.Steps Future.Steps Eq f f') :
    Follows Body.pollFrame Body.pollFrame (fun o => o.isFrame)
      (States : WithTrailers T F → WithTrailers T' F' → Prop)
      (pollTrailersArm (D := D) f prev) (pollTrailersArm f' prev) := by
  refine (passes_trailers prev).follows (passes_trailers prev) fun x f₁ hawait => ?_
  obtain ⟨x', f₁', hawait', rfl⟩ := hf.1 x f₁ hawait
  refine ⟨x, f₁', hawait', ?_⟩
  -- the future is only kept after an answer that is not a frame
  rcases x with _ | (err | map)
  · cases prev with
    | none => exact .ready fun hframe => by cases hframe
    | some trailers => exact .ready fun _ => .done
  · exact .ready fun hframe => by cases hframe
  · cases prev with
    | none => exact .ready fun _ => .done
    | some trailers => exact .ready fun _ => .done

theorem States.follows {w : WithTrailers T F} {w' : WithTrailers T' F'} (h : States w w') :
    Follows Body.pollFrame Body.pollFrame (fun o => o.isFrame) States
      (Body.pollFrame w) (Body.pollFrame w') := by
  cases h with
  | pollBody hb hf =>
      refine (passes_body _).follows (passes_body _) fun x b₁ hawait => ?_
      obtain ⟨b₁', hawait', hnext⟩ := hb.forth hawait
      refine ⟨x, b₁', hawait', ?_⟩
      rcases x with _ | (err | (d | map))
      · exact follows_trailers none hf
      · exact .ready fun hframe => by cases hframe
      · exact .ready fun _ => .pollBody (hnext rfl) hf
      · exact follows_trailers (some map) hf
  | pollTrailers prev hf => exact follows_trailers prev hf
  | done => exact .ready fun _ => .done

theorem alike {b : T} {b' : T'} {f : F} {f' : F'} (hb : Body.Alike b b')
    (hf : AwaitsLike Future.Steps Future.Steps Eq f f') :
    Body.Alike (WithTrailers.new b f) (WithTrailers.new b' f') :=
  .of_follows States States (fun _ _ => ⟨.symm, .symm⟩) (fun _ _ _ => rfl)
    (fun _ _ hw => hw.follows) (fun _ _ hw => hw.follows) (.pollBody hb hf)

end WithTrailers

/-! ## TryFutureBody -/

namespace TryFutureBody

variable {F F' B B' D E E₁ : Type} [Body B D E] [Body B' D E]

/-- Both futures yield alike bodies, or fail with the same error. -/
inductive Resolve : Except E₁ B → Except E₁ B' → Prop where
  | ok {b b'} : Body.Alike b b' → Resolve (.ok b) (.ok b')
  | error (err : E₁) : Resolve (.error err) (.error err)

theorem Resolve.symm {x : Except E₁ B} {x' : Except E₁ B'} (h : Resolve x x') :
    Resolve x' x := by
  cases h with
  | ok hb => exact .ok hb.symm
  | error err => exact .error err

variable [Future F (Except E₁ B)] [Future F' (Except E₁ B')]

/-- Bodies backed by a future in the same state. -/
inductive States : TryFutureBody F B → TryFutureBody F' B' → Prop where
  | future {f f'} : AwaitsLike Future.Steps Future.Steps Resolve f f' →
      States (.future f) (.future f')
  | body {b b'} : Body.Alike b b' → States (.body b) (.body b')
  | failed : States .failed .failed

theorem States.symm {w : TryFutureBody F B} {w' : TryFutureBody F' B'} (h : States w w') :
    States w' w := by
  cases h with
  | future hf => exact .future (hf.symm fun _ _ hx => hx.symm)
  | body hb => exact .body hb.symm
  | failed => exact .failed

variable [Into E₁ E]

theorem States.follows_body {b : B} {b' : B'} (hb : Body.Alike b b') :
    Follows Body.pollFrame Body.pollFrame (fun o => o.isFrame)
      (States : TryFutureBody F B → TryFutureBody F' B' → Prop) (pollBody b) (pollBody b') := by
  refine (relays_body.passes ()).follows (relays_body.passes ()) fun x b₁ hawait => ?_
  obtain ⟨b₁', hawait', hnext⟩ := hb.forth hawait
  exact ⟨x, b₁', hawait', .ready fun hframe => .body (hnext hframe)⟩

theorem States.follows {w : TryFutureBody F B} {w' : TryFutureBody F' B'} (h : States w w') :
    Follows Body.pollFrame Body.pollFrame (fun o => o.isFrame) States
      (Body.pollFrame w) (Body.pollFrame w') := by
  cases h with
  | future hf =>
      refine passes_future.follows passes_future fun x f₁ hawait => ?_
      obtain ⟨x', f₁', hawait', hx⟩ := hf.1 x f₁ hawait
      refine ⟨x', f₁', hawait', ?_⟩
      cases hx with
      | ok hb => exact follows_body hb
      | error err => exact .ready fun _ => .failed
  | body hb => exact follows_body hb
  | failed => exact .ready fun _ => .failed

theorem alike {f : F} {f' : F'} (hf : AwaitsLike Future.Steps Future.Steps Resolve f f') :
    Body.Alike (TryFutureBody.new f : TryFutureBody F B)
      (TryFutureBody.new f' : TryFutureBody F' B') := by
  refine .of_follows States States (fun _ _ => ⟨.symm, .symm⟩) ?_ (fun _ _ hw => hw.follows)
    (fun _ _ hw => hw.follows) (.future hf)
  rintro w w' (_ | hb | _)
  · rfl
  · exact hb.hint
  · rfl

end TryFutureBody

end HttpBody
