import HttpBody.Composition.Rewrapping
import HttpBody.Content.Delivery

/-!
# What the combinators deliver

The rules for the combinators that have states of their own, that leave one body
for another or that change data.
-/

namespace HttpBody

open Support

variable [Foreign] {A B T F D D' E E' E₁ E₂ : Type}

/-! ## Chain -/

namespace Chain

variable [Body A D E₁] [Body B D E₂] [Into E₁ E₂]

theorem delivers_second {b : B} {c : Content D E₂} (hb : Body.Delivers b c)
    (ta : Option HeaderMap) :
    Body.Delivers (.second b ta : Chain A B) (c.conclude fun r => r.map (mergeTrailers ta)) := by
  rw [Content.conclude, ← Script.bind_pure]
  refine Plays.bind (passes_second ta) ?_ ?_ hb
  · intro x d b hx
    rw [Item.split_eq_inl] at hx
    subst hx
    exact ⟨.data d, rfl, rfl⟩
  · intro x r b hx _
    rw [Item.split_eq_inr] at hx
    rcases hx with ⟨err, rfl, rfl⟩ | ⟨tb, hends, rfl⟩
    · exact .last (awaitsFrom_pure.mpr ⟨rfl, rfl⟩) rfl (Body.concluded_error err _)
    · have hsplit : (Item.ofTrailers (mergeTrailers ta tb) : Item D E₂).split =
          .inr (.ok (mergeTrailers ta tb)) :=
        Item.split_eq_inr.mpr (.inr ⟨_, .ofTrailers _, rfl⟩)
      have hnext : afterSecond (A := A) ta x b =
          pure (.ready (Item.ofTrailers (mergeTrailers ta tb)), .finished) := by
        cases hends <;> rfl
      rw [hnext]
      exact .last (awaitsFrom_pure.mpr ⟨rfl, rfl⟩) hsplit fun _ _ => ended_finished

theorem delivers {a : A} {b : B} {ca : Content D E₁} {cb : Content D E₂}
    (ha : Body.Delivers a ca) (hb : Body.Delivers b cb) :
    Body.Delivers (Chain.new a b) (ca.chain cb) := by
  refine Plays.bind (passes_first (some b)) ?_ ?_ ha
  · intro x d a hx
    rw [Item.split_eq_inl] at hx
    subst hx
    exact ⟨.data d, rfl, rfl⟩
  · intro x r a hx _
    rw [Item.split_eq_inr] at hx
    rcases hx with ⟨err, rfl, rfl⟩ | ⟨ta, hends, rfl⟩
    · exact .last (awaitsFrom_pure.mpr ⟨rfl, rfl⟩) rfl (Body.concluded_error _ _)
    · have hnext : afterFirst (some b) x a = Body.pollFrame (.second b ta : Chain A B) := by
        cases hends <;> rfl
      rw [hnext]
      exact Plays.from_call.mpr (delivers_second hb ta)

end Chain

/-! ## WithTrailers -/

namespace WithTrailers

variable [Body T D E] [Future F (Option (Except E HeaderMap))]

theorem ended_done : Body.Ended (.done : WithTrailers T F) :=
  .of_fixed (t := []) trivial rfl

theorem delivers_trailers {f f' : F} {outcome : Option (Except E HeaderMap)}
    (hf : Awaits Future.Steps f outcome f') (prev : Option HeaderMap) :
    Body.Delivers (.pollTrailers f prev : WithTrailers T F)
      ⟨[], Content.addTrailers outcome (.ok prev)⟩ := by
  refine Plays.of_awaits (passes_trailers prev) hf ?_
  rcases outcome with _ | (err | map)
  · cases prev with
    | none => exact .last (awaitsFrom_pure.mpr ⟨rfl, rfl⟩) rfl (Body.concluded_finish _)
    | some prev => exact .last (awaitsFrom_pure.mpr ⟨rfl, rfl⟩) rfl fun _ _ => ended_done
  · exact .last (awaitsFrom_pure.mpr ⟨rfl, rfl⟩) rfl (Body.concluded_error err _)
  · cases prev with
    | none => exact .last (awaitsFrom_pure.mpr ⟨rfl, rfl⟩) rfl fun _ _ => ended_done
    | some prev => exact .last (awaitsFrom_pure.mpr ⟨rfl, rfl⟩) rfl fun _ _ => ended_done

theorem delivers {b : T} {c : Content D E} (hb : Body.Delivers b c) {f f' : F}
    {outcome : Option (Except E HeaderMap)} (hf : Awaits Future.Steps f outcome f') :
    Body.Delivers (WithTrailers.new b f) (c.withTrailers outcome) := by
  rw [Content.withTrailers, Content.conclude, ← Script.bind_pure]
  refine Plays.bind (passes_body (some f)) ?_ ?_ hb
  · intro x d b hx
    rw [Item.split_eq_inl] at hx
    subst hx
    exact ⟨.data d, rfl, rfl⟩
  · intro x r b hx _
    rw [Item.split_eq_inr] at hx
    rcases hx with ⟨err, rfl, rfl⟩ | ⟨prev, hends, rfl⟩
    · exact .last (awaitsFrom_pure.mpr ⟨rfl, rfl⟩) rfl (Body.concluded_error _ _)
    · have hnext : afterBody (T := T) (some f) x b =
          Body.pollFrame (.pollTrailers f prev : WithTrailers T F) := by
        cases hends <;> rfl
      rw [hnext]
      exact Plays.from_call.mpr (delivers_trailers hf prev)

end WithTrailers

/-! ## TryFutureBody -/

namespace TryFutureBody

variable [Body B D E] [Future F (Except E₁ B)] [Into E₁ E] {f f' : F}

theorem delivers {b : B} (hf : Awaits Future.Steps f (.ok b) f') {c : Content D E}
    (hb : Body.Delivers b c) : Body.Delivers (TryFutureBody.new f : TryFutureBody F B) c := by
  have hbody : Body.Delivers (.body b : TryFutureBody F B) c := by
    have h := hb.convert (relays_body (F := F)) (fun _ => rfl) (fun _ => id)
      (fun _ x => x.mapErr_id.symm) (fun _ _ => rfl) ()
    rwa [Content.mapErr_id] at h
  exact Plays.of_awaits passes_future hf (Plays.from_call.mpr hbody)

theorem delivers_error {err : E₁} (hf : Awaits Future.Steps f (.error err) f') :
    Body.Delivers (TryFutureBody.new f : TryFutureBody F B)
      (⟨[], .error (Into.into err)⟩ : Content D E) := by
  refine Plays.of_awaits passes_future hf ?_
  exact .last (awaitsFrom_pure.mpr ⟨rfl, rfl⟩) rfl (Body.concluded_error _ _)

end TryFutureBody

/-! ## StreamBody -/

theorem StreamBody.delivers {S : Type} [Stream S (Except E (Frame D))] {s : S} {c : Content D E}
    (hs : Stream.Delivers s c) : Body.Delivers (StreamBody.new s) c := by
  have hscan : Body.Delivers (StreamBody.new s)
      (c.scan (fun u d => .inl (d, u)) (fun _ r => r) () : Script D (Conclusion E)) := by
    refine Plays.relay (I := fun _ => True) StreamBody.relays ?_ ?_ hs trivial
    · intro u x d _ hx
      exact .inl ⟨d, rfl, hx, trivial⟩
    · intro u x r s _ hx hconcluded
      refine ⟨hx, fun map hmap => ?_⟩
      exact StreamBody.relays.stays (s := ()) (fun _ => rfl) (fun _ _ _ => trivial)
        (hconcluded map hmap)
  rwa [Script.scan_pass fun _ _ => rfl] at hscan

/-! ## Limited -/

theorem Limited.handles [Buf D] [Into E BoxError] :
    Handles (onReady (D := D) (E := E)) (fun _ => True) Content.spend
      (fun _ r => r.mapError Into.into) where
  finish _ := rfl
  item remaining d _ := by
    by_cases hlt : remaining < Buf.remaining d
    · exact .inr ⟨_, 0, if_pos hlt, if_pos hlt⟩
    · exact .inl ⟨d, remaining - Buf.remaining d, if_neg hlt, if_neg hlt, trivial⟩
  last remaining x r _ hx := by
    rcases x with _ | (err | (d | map))
    · cases hx
      exact ⟨rfl, fun map hmap => by cases hmap⟩
    · cases hx
      exact ⟨rfl, fun map hmap => by cases hmap⟩
    · cases hx
    · cases hx
      exact ⟨rfl, fun _ _ => ⟨map, rfl⟩⟩

theorem Limited.delivers [Buf D] [Body B D E] [Into E BoxError] {b : B} {c : Content D E}
    (hb : Body.Delivers b c) (limit : ℕ) :
    Body.Delivers (Limited.new b limit) (c.limited limit) :=
  handles.delivers relays hb trivial

/-! ## MapFrame -/

/-- However often it is called, the closure makes data of data and trailers of trailers. -/
def KeepsKinds (D D' : Type) {F : Type} [FnMut F (Frame D) (Frame D')] (f : F) : Prop :=
  ∃ I : F → Prop, I f ∧
    (∀ f d, I f → ∃ d' f', FnMut.call f (.data d : Frame D) = (.data d', f') ∧ I f') ∧
    ∀ f map, I f → ∃ map' f', FnMut.call f (.trailers map : Frame D) = (.trailers map', f')

/-- A closure that maps the data of a frame. -/
theorem keepsKinds_mapData (g : D → D') :
    KeepsKinds D D' (Frame.mapData g : Frame D → Frame D') := by
  refine ⟨fun f => f = Frame.mapData g, rfl, ?_, ?_⟩
  · rintro _ d rfl
    exact ⟨g d, _, rfl, rfl⟩
  · rintro _ map rfl
    exact ⟨map, _, rfl⟩

theorem MapFrame.handles [FnMut F (Frame D) (Frame D')] {f : F} (hkinds : KeepsKinds D D' f) :
    ∃ I : F → Prop, I f ∧
      Handles (onReady : F → Item D E → Item D' E × F) I Content.mapItem
        (Content.mapTrailers D D') := by
  obtain ⟨I, hf, hdata, htrailers⟩ := hkinds
  refine ⟨I, hf, fun _ => rfl, ?_, ?_⟩
  · intro f d hf
    obtain ⟨d', f', hcall, hf'⟩ := hdata f d hf
    refine .inl ⟨d', f', ?_, ?_, hf'⟩
    · simp only [Content.mapItem, hcall]
    · simp only [onReady, hcall]
  · intro f x r hf hx
    rcases x with _ | (err | (d | map))
    · cases hx
      exact ⟨rfl, fun map hmap => by cases hmap⟩
    · cases hx
      exact ⟨rfl, fun map hmap => by cases hmap⟩
    · cases hx
    · cases hx
      obtain ⟨map', f', hcall⟩ := htrailers f map hf
      refine ⟨?_, fun _ _ => ⟨map, rfl⟩⟩
      simp only [onReady, Content.mapTrailers, hcall]
      rfl

theorem MapFrame.delivers [Body B D E] [FnMut F (Frame D) (Frame D')] {f : F}
    (hkinds : KeepsKinds D D' f) {b : B} {c : Content D E} (hb : Body.Delivers b c) :
    Body.Delivers (MapFrame.new b f) (c.mapFrame f : Content D' E) := by
  obtain ⟨I, hf, hhandles⟩ := handles (E := E) hkinds
  exact hhandles.delivers relays hb hf

/-! ## Fuse -/

namespace Fuse

variable [Body B D E] {b : B} {c : Content D E}

theorem ended_none : Body.Ended (⟨none⟩ : Fuse B) :=
  .of_fixed (t := []) trivial rfl

theorem ended_some (hb : Body.Ended b) : Body.Ended (⟨some b⟩ : Fuse B) := by
  refine Stays.of_invariant (fun w => w = ⟨none⟩ ∨ w = ⟨some b⟩) (.inr rfl) ?_
  rintro w (rfl | rfl)
  · exact ⟨trivial, [], ⟨none⟩, rfl, .inl rfl⟩
  · obtain ⟨t, b', hstep, -⟩ := Stays.step (Call.steps_functional _) hb
    exact ⟨trivial, t, ⟨none⟩, steps_iff.mpr (.inner hstep), .inl rfl⟩

/-- A body that is dropped has nothing left to deliver. -/
theorem delivers_or_dropped {drop : Bool} (hdrop : drop = true → Body.Ended b)
    (hb : Body.Delivers b c) (hsome : Body.Delivers (⟨some b⟩ : Fuse B) c) :
    Body.Delivers (⟨if drop then none else some b⟩ : Fuse B) c := by
  cases drop with
  | false => exact hsome
  | true =>
      obtain rfl := hb.unique (hdrop rfl).delivers
      exact ended_none.delivers

theorem delivers_some (hb : Body.Delivers b c) (hsound : Body.EndStreamSound b) :
    Body.Delivers (⟨some b⟩ : Fuse B) c := by
  induction hb with
  | @last b x r b' hawait hx hconcluded =>
      refine Plays.of_awaits passes hawait (.last (awaitsFrom_pure.mpr ⟨rfl, rfl⟩) hx ?_)
      intro map hmap
      have hended : Body.Ended b' := hconcluded map hmap
      cases eos b' (.ready x) with
      | false => exact ended_some hended
      | true => exact ended_none
  | @item b x d b₁ c hawait hx hrest ih =>
      obtain ⟨n, hrun⟩ := hawait.runs
      have hsound₁ : Body.EndStreamSound b₁ := hsound.runs hrun
      refine Plays.of_awaits passes hawait (.item (awaitsFrom_pure.mpr ⟨rfl, rfl⟩) hx ?_)
      rw [Item.split_eq_inl] at hx
      subst hx
      exact delivers_or_dropped (fun hend => (hsound₁.here hend).ended) hrest (ih hsound₁)

theorem delivers (hb : Body.Delivers b c) (hsound : Body.EndStreamSound b) :
    Body.Delivers (Fuse.new b) c :=
  delivers_or_dropped (fun hend => (hsound.here hend).ended) hb (delivers_some hb hsound)

end Fuse

/-! ## Bodies that are held -/

namespace Body.Same

variable {B' : Type} [Body B D E] [Body B' D E] {b : B} {b' : B'}

theorem ended (h : Body.Same b b') (hb : Body.Ended b) : Body.Ended b' :=
  h.stays (fun _ _ _ _ => trivial) hb

theorem delivers (h : Body.Same b b') {c : Content D E} (hb : Body.Delivers b c) :
    Body.Delivers b' c := by
  induction hb generalizing b' with
  | last hawait hx hconcluded =>
      obtain ⟨b₁', hawait', hlast⟩ := h.awaits hawait
      exact .last hawait' hx fun map hmap => Body.Same.ended hlast (hconcluded map hmap)
  | item hawait hx _ ih =>
      obtain ⟨b₁', hawait', hnext⟩ := h.awaits hawait
      exact .item hawait' hx (ih hnext)

theorem endStreamSound (h : Body.Same b b') (hb : Body.EndStreamSound b) :
    Body.EndStreamSound b' := by
  have hend : ∀ (s : B) (u : B'), Body.Same s u → Body.isEndStream s = true →
      Body.isEndStream u = true := fun s u hsu hs => (isEndStream hsu).symm.trans hs
  refine h.always (fun s u hsu hs hu => ?_) hb
  exact Indistinct.stays hsu hend (hs ((isEndStream hsu).trans hu))

end Body.Same

/-! ## BodyStream -/

namespace BodyStream

variable [Body B D E] {b : B} {c : Content D E}

theorem endStreamSound (b : BodyStream B) : Body.EndStreamSound b :=
  .of_step (fun _ hb => by cases hb) b

theorem delivers (hb : Body.Delivers b c) : Body.Delivers (BodyStream.new b) c := by
  have h := hb.convert relays (fun _ => rfl) (fun _ => id) (fun _ x => x.mapErr_id.symm)
    (fun _ _ => rfl) ()
  rwa [Content.mapErr_id] at h

/-- As a stream, a body delivers what it delivers as a body. -/
theorem stream_delivers (hb : Body.Delivers b c) : Stream.Delivers (BodyStream.new b) c := by
  induction hb with
  | @last b x r b' hawait hx hconcluded =>
      refine .last ((relays_stream.passes ()).awaits_of_pure hawait rfl) hx fun map hmap => ?_
      exact relays_stream.stays (s := ()) (fun _ => rfl) (fun _ _ _ => trivial)
        (hconcluded map hmap)
  | item hawait hx _ ih => exact .item ((relays_stream.passes ()).awaits_of_pure hawait rfl) hx ih

end BodyStream

end HttpBody
