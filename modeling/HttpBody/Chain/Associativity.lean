import HttpBody.Core.HeaderTable
import HttpBody.Support.Lockstep
import HttpBody.Util.Chain
import HttpBody.Util.Leaves

/-!
# Chains are associative

The two ways to chain three bodies are in lockstep.  The states are related by
the body that is being polled; trailers that one chain has merged may still be
kept apart in the other.
-/

namespace HttpBody

open Support

namespace Chain

section

variable [Foreign] {A B C D E : Type} [Body A D E] [Body B D E] [Body C D E]

/-- A chain of the first two bodies with the third, and the first body chained
with the other two, in corresponding states. -/
inductive Regrouped : Chain (Chain A B) C → Chain A (Chain B C) → Prop where
  | first (a : A) (b : B) (c : C) :
      Regrouped (.first (.first a (some b)) (some c)) (.first a (some (.first b (some c))))
  | second (b : B) (c : C) (ta : Option HeaderMap) :
      Regrouped (.first (.second b ta) (some c)) (.second (.first b (some c)) ta)
  | third (c : C) (ta tb : Option HeaderMap) :
      Regrouped (.second c (mergeTrailers ta tb)) (.second (.second c tb) ta)
  | finished : Regrouped .finished .finished

/-! ## Calls that go on to the next body -/

theorem pollFrame_first_ends {a a' : A} {b : B} {t : List Event} {x : Item D E}
    {ta : Option HeaderMap} (ha : Body.pollFrame a = ⟨t, .ok (.ready x, a')⟩)
    (hx : Item.Ends x ta) :
    (pollFrame (.first a (some b)) : Call (PollFrame D E × Chain A B)) =
      (pollSecond b ta).after t := by
  rw [pollFrame, ha]
  cases hx <;> rfl

theorem pollFrame_first_after {a a' : A} {b : Option B} {t : List Event}
    (ha : Body.pollFrame a = (Body.pollFrame a').after t) :
    (pollFrame (.first a b) : Call (PollFrame D E × Chain A B)) =
      (pollFrame (.first a' b)).after t := by
  rw [pollFrame, pollFrame, ha, Call.after_bind]

omit [Body A D E] in
theorem pollSecond_after {b b' : B} {ta : Option HeaderMap} {t : List Event}
    (hb : Body.pollFrame b = (Body.pollFrame b').after t) :
    (pollSecond b ta : Call (PollFrame D E × Chain A B)) =
      (pollSecond b' ta).after t := by
  rw [pollSecond, pollSecond, hb, Call.after_bind]

/-! ## Corresponding calls -/

variable [LawfulHeaderMap]

theorem related_third (c : C) (ta tb : Option HeaderMap) :
    Call.Related Regrouped
      (pollSecond c (mergeTrailers ta tb) : Call (PollFrame D E × Chain (Chain A B) C))
      (pollSecond (.second c tb) ta : Call (PollFrame D E × Chain A (Chain B C))) := by
  have hends : ∀ {t : List Event} {x : Item D E} {c' : C} {tc : Option HeaderMap},
      Body.pollFrame c = ⟨t, .ok (.ready x, c')⟩ → Item.Ends x tc →
      Call.Related Regrouped
        (pollSecond c (mergeTrailers ta tb) : Call (PollFrame D E × Chain (Chain A B) C))
        (pollSecond (.second c tb) ta : Call (PollFrame D E × Chain A (Chain B C))) := by
    intro t x c' tc hc hx
    have hleft : Body.Steps (.second c (mergeTrailers ta tb) : Chain (Chain A B) C) t _
      .finished := steps_of_step (.secondEnds hc hx)
    have hin : Body.Steps (.second c tb : Chain B C) t _ .finished :=
      steps_of_step (.secondEnds hc hx)
    have hright : Body.Steps (.second (.second c tb) ta : Chain A (Chain B C)) t _
      .finished := steps_of_step (.secondEnds hin (.ofTrailers _))
    rw [mergeTrailers_assoc] at hleft
    exact .of_eq hleft hright .finished
  rcases hc : Body.pollFrame c with ⟨t, s | ⟨_ | (_ | (err | (d | map))), c'⟩⟩
  · have hin : Body.pollFrame (.second c tb : Chain B C) = ⟨t, .error s⟩ := second_stops hc
    exact .of_stops (second_stops hc) (second_stops hin)
  · have hin : Body.Steps (.second c tb : Chain B C) t .pending (.second c' tb) :=
      steps_of_step (.secondPending hc)
    exact .of_eq (steps_of_step (.secondPending hc)) (steps_of_step (.secondPending hin))
      (.third c' ta tb)
  · exact hends hc .finish
  · have hin : Body.Steps (.second c tb : Chain B C) t (.ready (.error err)) .finished :=
      steps_of_step (.secondError hc)
    exact .of_eq (steps_of_step (.secondError hc)) (steps_of_step (.secondError hin))
      .finished
  · have hin : Body.Steps (.second c tb : Chain B C) t (.ready (.data d)) (.second c' tb) :=
      steps_of_step (.secondData hc)
    exact .of_eq (steps_of_step (.secondData hc)) (steps_of_step (.secondData hin))
      (.third c' ta tb)
  · exact hends hc (.trailers map)

theorem related_second (b : B) (c : C) (ta : Option HeaderMap) :
    Call.Related Regrouped
      (pollFrame (.first (.second b ta) (some c)) :
        Call (PollFrame D E × Chain (Chain A B) C))
      (pollSecond (.first b (some c)) ta : Call (PollFrame D E × Chain A (Chain B C))) := by
  have hends : ∀ {t : List Event} {x : Item D E} {b' : B} {tb : Option HeaderMap},
      Body.pollFrame b = ⟨t, .ok (.ready x, b')⟩ → Item.Ends x tb →
      Call.Related Regrouped
        (pollFrame (.first (.second b ta) (some c)) :
          Call (PollFrame D E × Chain (Chain A B) C))
        (pollSecond (.first b (some c)) ta :
          Call (PollFrame D E × Chain A (Chain B C))) := by
    intro t x b' tb hb hx
    have hin : Body.Steps (.second b ta : Chain A B) t _ .finished :=
      steps_of_step (.secondEnds hb hx)
    have hright : Body.pollFrame (.first b (some c) : Chain B C) =
        (Body.pollFrame (.second c tb : Chain B C)).after t := pollFrame_first_ends hb hx
    rw [pollFrame_first_ends hin (.ofTrailers _), pollSecond_after hright]
    exact (related_third c ta tb).after t
  rcases hb : Body.pollFrame b with ⟨t, s | ⟨_ | (_ | (err | (d | map))), b'⟩⟩
  · have hleft : Body.pollFrame (.second b ta : Chain A B) = ⟨t, .error s⟩ := second_stops hb
    have hright : Body.pollFrame (.first b (some c) : Chain B C) = ⟨t, .error s⟩ :=
      first_stops hb
    exact .of_stops (first_stops hleft) (second_stops hright)
  · have hleft : Body.Steps (.second b ta : Chain A B) t .pending (.second b' ta) :=
      steps_of_step (.secondPending hb)
    have hright : Body.Steps (.first b (some c) : Chain B C) t .pending
      (.first b' (some c)) := steps_of_step (.firstPending hb)
    exact .of_eq (steps_of_step (.firstPending hleft)) (steps_of_step (.secondPending hright))
      (.second b' c ta)
  · exact hends hb .finish
  · have hleft : Body.Steps (.second b ta : Chain A B) t (.ready (.error err)) .finished :=
      steps_of_step (.secondError hb)
    have hright : Body.Steps (.first b (some c) : Chain B C) t (.ready (.error err))
      .finished := steps_of_step (.firstError hb)
    exact .of_eq (steps_of_step (.firstError hleft)) (steps_of_step (.secondError hright))
      .finished
  · have hleft : Body.Steps (.second b ta : Chain A B) t (.ready (.data d))
      (.second b' ta) := steps_of_step (.secondData hb)
    have hright : Body.Steps (.first b (some c) : Chain B C) t (.ready (.data d))
      (.first b' (some c)) := steps_of_step (.firstData hb)
    exact .of_eq (steps_of_step (.firstData hleft)) (steps_of_step (.secondData hright))
      (.second b' c ta)
  · exact hends hb (.trailers map)

theorem related_first (a : A) (b : B) (c : C) :
    Call.Related Regrouped
      (pollFrame (.first (.first a (some b)) (some c)) :
        Call (PollFrame D E × Chain (Chain A B) C))
      (pollFrame (.first a (some (.first b (some c)))) :
        Call (PollFrame D E × Chain A (Chain B C))) := by
  have hends : ∀ {t : List Event} {x : Item D E} {a' : A} {ta : Option HeaderMap},
      Body.pollFrame a = ⟨t, .ok (.ready x, a')⟩ → Item.Ends x ta →
      Call.Related Regrouped
        (pollFrame (.first (.first a (some b)) (some c)) :
          Call (PollFrame D E × Chain (Chain A B) C))
        (pollFrame (.first a (some (.first b (some c)))) :
          Call (PollFrame D E × Chain A (Chain B C))) := by
    intro t x a' ta ha hx
    have hleft : Body.pollFrame (.first a (some b) : Chain A B) =
        (Body.pollFrame (.second b ta : Chain A B)).after t := pollFrame_first_ends ha hx
    rw [pollFrame_first_after hleft, pollFrame_first_ends ha hx]
    exact (related_second b c ta).after t
  rcases ha : Body.pollFrame a with ⟨t, s | ⟨_ | (_ | (err | (d | map))), a'⟩⟩
  · have hleft : Body.pollFrame (.first a (some b) : Chain A B) = ⟨t, .error s⟩ :=
      first_stops ha
    exact .of_stops (first_stops hleft) (first_stops ha)
  · have hleft : Body.Steps (.first a (some b) : Chain A B) t .pending
      (.first a' (some b)) := steps_of_step (.firstPending ha)
    exact .of_eq (steps_of_step (.firstPending hleft)) (steps_of_step (.firstPending ha))
      (.first a' b c)
  · exact hends ha .finish
  · have hleft : Body.Steps (.first a (some b) : Chain A B) t (.ready (.error err))
      .finished := steps_of_step (.firstError ha)
    exact .of_eq (steps_of_step (.firstError hleft)) (steps_of_step (.firstError ha))
      .finished
  · have hleft : Body.Steps (.first a (some b) : Chain A B) t (.ready (.data d))
      (.first a' (some b)) := steps_of_step (.firstData ha)
    exact .of_eq (steps_of_step (.firstData hleft)) (steps_of_step (.firstData ha))
      (.first a' b c)
  · exact hends ha (.trailers map)

/-! ## Corresponding states -/

theorem Regrouped.call {l : Chain (Chain A B) C} {r : Chain A (Chain B C)}
    (h : Regrouped l r) :
    Call.Related Regrouped (Body.pollFrame l) (Body.pollFrame r) := by
  cases h with
  | first a b c => exact related_first a b c
  | second b c ta => exact related_second b c ta
  | third c ta tb => exact related_third c ta tb
  | finished => exact .pure _ .finished

omit [LawfulHeaderMap] in
theorem sizeHint_first (a : A) (b : B) (c : C) :
    sizeHint .exact (.first (.first a (some b) : Chain A B) (some c)) =
      sizeHint .exact (.first a (some (.first b (some c) : Chain B C))) := by
  change ((Body.sizeHint .exact a >>= fun x => Body.sizeHint .exact b >>= fun y =>
      SizeHint.add .exact x y) >>= fun xy => Body.sizeHint .exact c >>= fun z =>
        SizeHint.add .exact xy z) =
    (Body.sizeHint .exact a >>= fun x => (Body.sizeHint .exact b >>= fun y =>
      Body.sizeHint .exact c >>= fun z => SizeHint.add .exact y z) >>= fun yz =>
        SizeHint.add .exact x yz)
  simp only [SizeHint.add_exact]
  rcases Body.sizeHint .exact a with e | x
  · rfl
  · rcases Body.sizeHint .exact b with e | y
    · rfl
    · rcases Body.sizeHint .exact c with e | z
      · rfl
      · exact congrArg Except.ok (SizeHint.sum_assoc x y z)

omit [LawfulHeaderMap] in
theorem Regrouped.look_eq {l : Chain (Chain A B) C} {r : Chain A (Chain B C)}
    (h : Regrouped l r) : Body.look .exact l = Body.look .exact r := by
  cases h with
  | first a b c => exact congrArg (Prod.mk false) (sizeHint_first a b c)
  | second b c ta => rfl
  | third c ta tb => rfl
  | finished => rfl

theorem lockstep :
    Lockstep (Body.pollFrame (B := Chain (Chain A B) C))
      (Body.pollFrame (B := Chain A (Chain B C))) (Body.look .exact) (Body.look .exact) Regrouped :=
  ⟨Regrouped.call, Regrouped.look_eq⟩

/-- Chaining is associative: the two groupings look the same before any call,
and any number of calls returns the same results, polls the same leaves and
leaves states that look the same. -/
theorem chain_assoc (a : A) (b : B) (c : C) (n : ℕ) :
    Body.look .exact (new (new a b) c) = Body.look .exact (new a (new b c)) ∧
      observations Body.pollFrame (Body.look .exact) n (new (new a b) c) =
        observations Body.pollFrame (Body.look .exact) n (new a (new b c)) :=
  ⟨(Regrouped.first a b c).look_eq, lockstep.observations_eq (.first a b c) n⟩

end

/-- Three chunks, chained either way. -/
theorem chain_assoc_full :
    observations Body.pollFrame (Body.look .exact) 3
        (new (new (⟨some ⟨[1], by decide⟩⟩ : Full Bytes) (⟨some ⟨[2], by decide⟩⟩ : Full Bytes))
          (⟨some ⟨[3], by decide⟩⟩ : Full Bytes)) =
      observations Body.pollFrame (Body.look .exact) 3
        (new (⟨some ⟨[1], by decide⟩⟩ : Full Bytes)
          (new (⟨some ⟨[2], by decide⟩⟩ : Full Bytes) (⟨some ⟨[3], by decide⟩⟩ : Full Bytes))) :=
  (chain_assoc _ _ _ 3).2

end Chain

end HttpBody
