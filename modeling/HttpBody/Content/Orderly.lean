import HttpBody.Content.Combinators
import HttpBody.Support.Orderly

/-!
# Orderly bodies

An orderly body does not panic before its first terminal answer, however long it is
polled, and gives nothing more after trailers.  Every expression over orderly leaves is
orderly, and so its consumers do not panic before they resolve.
-/

namespace HttpBody

open Support

section Definitions

variable [Foreign] {B D E F O S : Type}

/-- After trailers there is nothing more. -/
def Body.Rests [Body B D E] (o : Item D E) (b : B) : Prop :=
  ∀ map, o = .trailers map → Body.Ended b

/-- Until its first terminal answer, every call on `b` returns; and it rests after that. -/
def Body.Orderly [Body B D E] (b : B) : Prop :=
  Support.Orderly (fun _ => False) Body.pollFrame Item.isTerminal Body.Rests b

/-- The same of a stream of frames. -/
def Stream.Orderly [Stream S (Except E (Frame D))] (s : S) : Prop :=
  Support.Orderly (fun _ => False) Stream.pollNext (Item.isTerminal (D := D) (E := E))
    (fun (o : Item D E) s => ∀ map, o = .trailers map →
      Stays Stream.Steps (.ready (none : Item D E)) (fun _ => True) s) s

/-- A future that returns from every call until it is ready. -/
def Future.Orderly [Future F O] (f : F) : Prop :=
  Support.Orderly (fun _ => False) Future.poll (fun _ => true) (fun _ _ => True) f

theorem Item.eq_data {o : Item D E} (h : o.isTerminal = false) : ∃ d, o = .data d := by
  rcases o with _ | (err | (d | map))
  · cases h
  · cases h
  · exact ⟨d, rfl⟩
  · cases h

theorem Item.isTerminal_iff {o : Item D E} : o.isTerminal = true ↔ ∃ r, o.split = .inr r := by
  rcases o with _ | (err | (d | map))
  · exact ⟨fun _ => ⟨_, rfl⟩, fun _ => rfl⟩
  · exact ⟨fun _ => ⟨_, rfl⟩, fun _ => rfl⟩
  · constructor
    · intro h
      cases h
    · rintro ⟨r, hr⟩
      cases hr
  · exact ⟨fun _ => ⟨_, rfl⟩, fun _ => rfl⟩

end Definitions

section Rules

variable [Foreign] {A B D D' E E' E₁ E₂ F : Type}

/-! ## Leaves -/

theorem Body.rests_finish [Body B D E] (b : B) : Body.Rests (none : Item D E) b := by
  rintro _ ⟨⟩

theorem Body.rests_error [Body B D E] (err : E) (b : B) : Body.Rests (.error err : Item D E) b := by
  rintro _ ⟨⟩

theorem Empty.orderly (b : Empty D) : Body.Orderly b :=
  .of_call (.last rfl (Body.rests_finish b))

theorem Full.orderly [Buf D] (b : Full D) : Body.Orderly b := by
  refine .of_invariant (fun _ => True) (fun b _ => ?_) trivial
  obtain ⟨_ | data⟩ := b
  · exact .last rfl (Body.rests_finish _)
  · exact .next rfl (.inl trivial)

theorem Str.orderly (s : Str) : Body.Orderly s := by
  refine .of_invariant (fun _ => True) (fun s _ => ?_) trivial
  by_cases hempty : s.isEmpty = true
  · simp only [Body.pollFrame, hempty, Bool.not_true, Bool.false_eq_true, ↓reduceIte]
    exact .last rfl (Body.rests_finish _)
  · simp only [Body.pollFrame, hempty, Bool.not_false, ↓reduceIte]
    exact .next rfl (.inl trivial)

theorem ErrorBody.orderly (b : ErrorBody D E) : Body.Orderly b := by
  refine .of_call ?_
  obtain ⟨_ | error⟩ := b
  · exact .last rfl (Body.rests_finish _)
  · exact .last rfl (Body.rests_error _ _)

theorem Pending.orderly (b : Pending D E) : Body.Orderly b :=
  .of_invariant (fun _ => True) (fun _ _ => .pending (.inl trivial)) trivial

theorem Collected.orderly [Buf D] (c : Collected D) : Body.Orderly c := by
  refine .of_invariant (fun _ => True) (fun c _ => ?_) trivial
  rcases c with ⟨⟨_ | ⟨d, bufs⟩⟩, _ | map⟩
  · exact .last rfl (Body.rests_finish _)
  · refine .last rfl fun _ _ => ?_
    exact .of_fixed (t := []) trivial rfl
  · exact .next rfl (.inl trivial)
  · exact .next rfl (.inl trivial)

theorem StreamBody.orderly {S : Type} [Stream S (Except E (Frame D))] {s : S}
    (hs : Stream.Orderly s) : Body.Orderly (StreamBody.new s) := by
  refine Orderly.relay relays (fun _ => True) ?_ ?_ hs (t := ()) trivial
  · intro u o _ ho
    exact .inl ⟨ho, trivial⟩
  · intro u o s _ ho hP
    refine ⟨ho, fun map hmap => ?_⟩
    exact relays.stays (s := ()) (fun _ => rfl) (fun _ _ _ => trivial) (hP map hmap)

/-! ## Relays -/

theorem Handles.orderly {W S : Type} [Body B D E] [Body W D' E'] {mk : S → B → W}
    {f : S → Item D E → Item D' E' × S} {I : S → Prop} {item : S → D → (D' × S) ⊕ Conclusion E'}
    {last : S → Conclusion E → Conclusion E'} (hf : Handles f I item last)
    (h : Relays (Body.pollFrame (B := B)) Body.pollFrame mk f) {b : B} (hb : Body.Orderly b)
    {s : S} (hs : I s) : Body.Orderly (mk s b) := by
  refine Orderly.relay h I ?_ ?_ hb hs
  · intro s o hs ho
    obtain ⟨d, rfl⟩ := Item.eq_data ho
    rcases hf.item s d hs with ⟨d', s', -, hanswer, hs'⟩ | ⟨err, s', -, hanswer⟩
    · rw [hanswer]
      exact .inl ⟨rfl, hs'⟩
    · rw [hanswer]
      exact .inr ⟨rfl, fun b => Body.rests_error err _⟩
  · intro s o b hs ho hrests
    obtain ⟨r, hr⟩ := Item.isTerminal_iff.mp ho
    obtain ⟨hsplit, htrailers⟩ := hf.last s o r hs hr
    refine ⟨Item.isTerminal_iff.mpr ⟨_, hsplit⟩, fun map hmap => ?_⟩
    rw [hmap] at hsplit
    obtain ⟨map', rfl⟩ := htrailers map (Sum.inr.inj hsplit).symm
    have ho' : o = .trailers map' := Item.split_injective (hr.trans rfl)
    exact h.stays hf.finish (fun _ _ _ => trivial) (hrests map' ho')

theorem BodyStream.orderly [Body B D E] {b : B} (hb : Body.Orderly b) :
    Body.Orderly (BodyStream.new b) :=
  (Handles.convert (fun _ => rfl) (fun _ => id) fun _ x => x.mapErr_id.symm).orderly relays hb
    (s := ()) trivial

/-! ## Chain -/

namespace Chain

variable [Body A D E₁] [Body B D E₂]

/-- The states of a chain of orderly bodies. -/
def Parts : Chain A B → Prop
  | .first a (some b) => Body.Orderly a ∧ Body.Orderly b
  | .first _ none => False
  | .second b _ => Body.Orderly b
  | .finished => True

variable [Into E₁ E₂]

theorem goes_second {b : B} (hb : Body.Orderly b) (ta : Option HeaderMap) :
    Goes (fun _ => False) Item.isTerminal Parts Body.Rests
      (pollSecond b ta : Call (PollFrame D E₂ × Chain A B)) := by
  refine hb.call.bind (fun _ b _ hb => .pending hb) (fun _ o b _ ho hb => ?_)
    fun _ o b _ ho _ => ?_
  · obtain ⟨d, rfl⟩ := Item.eq_data ho
    exact .next rfl hb
  · rcases o with _ | (err | (d | map))
    · exact .last (Item.Ends.ofTrailers _).isTerminal fun _ _ => ended_finished
    · exact .last rfl (Body.rests_error err _)
    · cases ho
    · exact .last (Item.Ends.ofTrailers _).isTerminal fun _ _ => ended_finished

theorem orderly {a : A} {b : B} (ha : Body.Orderly a) (hb : Body.Orderly b) :
    Body.Orderly (Chain.new a b) := by
  refine ⟨Parts, ⟨ha, hb⟩, ?_⟩
  rintro (⟨a, _ | b⟩ | ⟨b, ta⟩ | _) hc
  · exact hc.elim
  · obtain ⟨ha, hb⟩ := hc
    refine ha.call.bind (fun _ a _ ha => .pending ⟨ha, hb⟩) (fun _ o a _ ho ha => ?_)
      fun _ o a _ ho _ => ?_
    · obtain ⟨d, rfl⟩ := Item.eq_data ho
      exact .next rfl ⟨ha, hb⟩
    · rcases o with _ | (err | (d | map))
      · exact goes_second hb none
      · exact .last rfl (Body.rests_error _ _)
      · cases ho
      · exact goes_second hb (some map)
  · exact goes_second hc ta
  · exact .last rfl (Body.rests_finish _)

end Chain

/-! ## WithTrailers -/

namespace WithTrailers

variable [Body B D E] [Future F (Option (Except E HeaderMap))]

/-- The states of an orderly body with an orderly future. -/
def Parts : WithTrailers B F → Prop
  | .pollBody b (some f) => Body.Orderly b ∧ Future.Orderly f
  | .pollBody _ none => False
  | .pollTrailers f _ => Future.Orderly f
  | .done => True

theorem goes_trailers {f : F} (hf : Future.Orderly f) (prev : Option HeaderMap) :
    Goes (fun _ => False) Item.isTerminal Parts Body.Rests
      (pollTrailersArm f prev : Call (PollFrame D E × WithTrailers B F)) := by
  refine hf.call.bind (fun _ f _ hf => .pending hf) (fun _ x f _ hx _ => by cases hx)
    fun _ x f _ _ _ => ?_
  rcases x with _ | (err | map)
  · cases prev with
    | none => exact .last rfl (Body.rests_finish _)
    | some prev => exact .last rfl fun _ _ => ended_done
  · exact .last rfl (Body.rests_error err _)
  · cases prev with
    | none => exact .last rfl fun _ _ => ended_done
    | some prev => exact .last rfl fun _ _ => ended_done

theorem orderly {b : B} (hb : Body.Orderly b) {f : F} (hf : Future.Orderly f) :
    Body.Orderly (WithTrailers.new b f) := by
  refine ⟨Parts, ⟨hb, hf⟩, ?_⟩
  rintro (⟨b, _ | f⟩ | ⟨f, prev⟩ | _) hw
  · exact hw.elim
  · obtain ⟨hb, hf⟩ := hw
    refine hb.call.bind (fun _ b _ hb => .pending ⟨hb, hf⟩) (fun _ o b _ ho hb => ?_)
      fun _ o b _ ho _ => ?_
    · obtain ⟨d, rfl⟩ := Item.eq_data ho
      exact .next rfl ⟨hb, hf⟩
    · rcases o with _ | (err | (d | map))
      · exact goes_trailers hf none
      · exact .last rfl (Body.rests_error err _)
      · cases ho
      · exact goes_trailers hf (some map)
  · exact goes_trailers hw prev
  · exact .last rfl (Body.rests_finish _)

end WithTrailers

/-! ## Fuse -/

namespace Fuse

variable [Body B D E]

/-- A fused body that is orderly, or dropped. -/
def Parts : Fuse B → Prop
  | ⟨some b⟩ => Body.Orderly b
  | ⟨none⟩ => True

theorem parts_drop {b : B} (hb : Body.Orderly b) (drop : Bool) :
    Parts (⟨if drop then none else some b⟩ : Fuse B) := by
  cases drop with
  | false => exact hb
  | true => trivial

theorem orderly {b : B} (hb : Body.Orderly b) : Body.Orderly (Fuse.new b) := by
  refine ⟨Parts, parts_drop hb (Body.isEndStream b), ?_⟩
  rintro ⟨_ | b⟩ hw
  · exact .last rfl (Body.rests_finish _)
  · refine Goes.bind (Orderly.call hw) (fun _ b _ hb => .pending (parts_drop hb false))
      (fun _ o b _ ho hb => .next ho (parts_drop hb _)) fun _ o b _ ho hrests => ?_
    refine .last ho fun map hmap => ?_
    cases eos b (.ready o) with
    | false => exact ended_some (hrests map hmap)
    | true => exact ended_none

end Fuse

/-! ## TryFutureBody -/

namespace TryFutureBody

variable [Body B D E] [Future F (Except E₁ B)] [Into E₁ E]

/-- The states of an orderly future that yields orderly bodies. -/
def Parts : TryFutureBody F B → Prop
  | .future f => Future.Orderly f ∧
      ∀ (b : B) f', Awaits Future.Steps f (.ok b) f' → Body.Orderly b
  | .body b => Body.Orderly b
  | .failed => True

theorem ended_body {b : B} (hb : Body.Ended b) : Body.Ended (.body b : TryFutureBody F B) :=
  relays_body.stays (s := ()) (fun _ => rfl) (fun _ _ _ => trivial) hb

theorem goes_body {b : B} (hb : Body.Orderly b) :
    Goes (fun _ => False) Item.isTerminal Parts Body.Rests
      (pollBody b : Call (PollFrame D E × TryFutureBody F B)) :=
  hb.call.bind (fun _ _ _ hb => .pending hb) (fun _ _ _ _ ho hb => .next ho hb)
    fun _ _ _ _ ho hrests => .last ho fun map hmap => ended_body (hrests map hmap)

theorem orderly {f : F} (hf : Future.Orderly f)
    (hyields : ∀ (b : B) f', Awaits Future.Steps f (.ok b) f' → Body.Orderly b) :
    Body.Orderly (TryFutureBody.new f : TryFutureBody F B) := by
  refine ⟨Parts, ⟨hf, hyields⟩, ?_⟩
  rintro (f | b | _) hw
  · obtain ⟨hf, hyields⟩ := hw
    refine hf.call.bind (fun t f' hpoll hf => ?_) (fun _ x f' _ hx _ => by cases hx)
      fun t x f' hpoll _ _ => ?_
    · exact .pending ⟨hf, fun b f'' hawait => hyields b f'' (.pending hpoll hawait)⟩
    · rcases x with err | b
      · exact .last rfl (Body.rests_error _ _)
      · exact goes_body (hyields b f' (.ready hpoll))
  · exact goes_body hw
  · exact .last rfl (Body.rests_finish _)

end TryFutureBody

end Rules

end HttpBody
