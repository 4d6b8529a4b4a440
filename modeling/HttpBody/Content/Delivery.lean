import HttpBody.Composition.EndOfStream
import HttpBody.Content.Content
import HttpBody.Util.Holders

/-!
# Delivering a content

A body delivers a content if it plays it, and stays at its end after trailers.
There is one rule for each leaf body and each combinator: a combinator delivers
the content that its operation makes of the contents of its parts.
-/

namespace HttpBody

open Support

section Delivery

variable [Foreign] {B D E : Type} [Body B D E]

/-- After trailers a body is at its end. -/
def Body.Concluded (r : Conclusion E) (b : B) : Prop :=
  ∀ map, r = .ok (some map) → Body.Ended b

theorem Body.concluded_finish (b : B) : Body.Concluded (.ok none : Conclusion E) b := by
  intro map hmap
  cases hmap

theorem Body.concluded_error (err : E) (b : B) : Body.Concluded (.error err) b := by
  intro map hmap
  cases hmap

/-- Each of its answers awaited, `b` gives the data of `c` in order, and then its
conclusion. -/
def Body.Delivers (b : B) (c : Content D E) : Prop :=
  Plays Body.Steps Item.split Body.Concluded b c

theorem Body.Delivers.unique {b : B} {c c' : Content D E} (h : Body.Delivers b c)
    (h' : Body.Delivers b c') : c = c' :=
  Plays.unique (Call.steps_functional _) h h'

theorem Body.Delivers.data {b b' : B} {t : List Event} {d : D} {c : Content D E}
    (hstep : Body.Steps b t (.ready (.data d)) b') (h : Body.Delivers b' c) :
    Body.Delivers b (c.cons d) :=
  .item (.ready hstep) rfl h

theorem Body.Delivers.finish {b b' : B} {t : List Event}
    (hstep : Body.Steps b t (.ready none) b') : Body.Delivers b ⟨[], .ok none⟩ :=
  .last (.ready hstep) rfl (Body.concluded_finish b')

theorem Body.Delivers.error {b b' : B} {t : List Event} {err : E}
    (hstep : Body.Steps b t (.ready (.error err)) b') : Body.Delivers b ⟨[], .error err⟩ :=
  .last (.ready hstep) rfl (Body.concluded_error err b')

theorem Body.Delivers.trailers {b b' : B} {t : List Event} {map : HeaderMap}
    (hstep : Body.Steps b t (.ready (.trailers map)) b') (hended : Body.Ended b') :
    Body.Delivers b ⟨[], .ok (some map)⟩ :=
  .last (.ready hstep) rfl fun _ _ => hended

/-- A body at its end has no content. -/
theorem Body.Ended.delivers {b : B} (h : Body.Ended b) : Body.Delivers b ⟨[], .ok none⟩ := by
  obtain ⟨t, b', hstep, -⟩ := Stays.step (Call.steps_functional _) h
  exact .finish hstep

end Delivery

section Rules

variable [Foreign] {A B D D' E E' E₁ E₂ F : Type}

/-! ## Leaves -/

theorem Empty.delivers (b : Empty D) : Body.Delivers b ⟨[], .ok none⟩ :=
  .finish (t := []) rfl

/-- The content of a single chunk, which is no data if it is empty. -/
def Content.chunk [Buf D] (data : D) : Content D Infallible :=
  ⟨if Buf.hasRemaining data then [data] else [], .ok none⟩

theorem Full.delivers [Buf D] (data : D) : Body.Delivers (Full.new data) (.chunk data) := by
  have hend : Body.Delivers (⟨none⟩ : Full D) ⟨[], .ok none⟩ := .finish (t := []) rfl
  by_cases hdata : Buf.hasRemaining data = true
  · have hstep : Body.Steps (⟨some data⟩ : Full D) [] (.ready (.data data)) ⟨none⟩ := rfl
    rw [Full.new, Content.chunk, if_pos hdata, if_pos hdata]
    exact hend.data hstep
  · rw [Full.new, Content.chunk, if_neg hdata, if_neg hdata]
    exact hend

def Content.ofStr (s : Str) : Content Bytes Infallible :=
  ⟨if s.isEmpty then [] else [s.intoBytes], .ok none⟩

theorem Str.delivers (s : Str) : Body.Delivers s (.ofStr s) := by
  by_cases hempty : s.isEmpty = true
  · have hstep : Body.Steps s [] (.ready none) s := by
      simp [Call.steps, Body.pollFrame, hempty, Call.pure_def]
    rw [Content.ofStr, if_pos hempty]
    exact .finish hstep
  · have hstep : Body.Steps s [] (.ready (.data s.intoBytes)) Str.empty := by
      simp [Call.steps, Body.pollFrame, hempty, Call.pure_def]
    have hend : Body.Delivers Str.empty ⟨[], .ok none⟩ := .finish (t := []) rfl
    rw [Content.ofStr, if_neg hempty]
    exact hend.data hstep

theorem ErrorBody.delivers (error : E) :
    Body.Delivers (ErrorBody.new D error) ⟨[], .error error⟩ :=
  .error (t := []) rfl

theorem Collected.delivers [Buf D] (c : Collected D) :
    Body.Delivers c ⟨c.bufs.bufs, .ok c.trailers⟩ := by
  rcases c with ⟨⟨bufs⟩, trailers⟩
  induction bufs with
  | nil =>
      cases trailers with
      | none => exact .finish (t := []) rfl
      | some map =>
          have hended : Body.Ended (⟨⟨[]⟩, none⟩ : Collected D) :=
            .of_fixed (t := []) trivial rfl
          exact .trailers (t := []) rfl hended
  | cons d bufs ih =>
      have hstep : Body.Steps (⟨⟨d :: bufs⟩, trailers⟩ : Collected D) [] (.ready (.data d))
        ⟨⟨bufs⟩, trailers⟩ := rfl
      exact ih.data hstep

/-! ## Streams -/

/-- The calls of `poll_next` that return. -/
abbrev Stream.Steps {S I : Type} [Stream S I] : StepRel S (Option I) :=
  Call.steps Stream.pollNext

/-- A stream of frames that is at its end after trailers delivers the content. -/
def Stream.Delivers {S : Type} [Stream S (Except E (Frame D))] (s : S) (c : Content D E) : Prop :=
  Plays Stream.Steps Item.split
    (fun r s => ∀ map, r = .ok (some map) →
      Stays Stream.Steps (.ready (none : Item D E)) (fun _ => True) s) s c

/-! ## Relays -/

section Relay

variable {W S : Type} {mk : S → B → W} {f : S → Item D E → Item D' E' × S} {I : S → Prop}
  {item : S → D → (D' × S) ⊕ Conclusion E'} {last : S → Conclusion E → Conclusion E'}

/-- What the function of a relay makes of data and of the conclusion; `I` holds of its
own states.  It hands on the end, and makes trailers of trailers only. -/
structure Handles (f : S → Item D E → Item D' E' × S) (I : S → Prop)
    (item : S → D → (D' × S) ⊕ Conclusion E') (last : S → Conclusion E → Conclusion E') :
    Prop where
  finish : ∀ s, f s none = (none, s)
  item : ∀ s d, I s →
    (∃ d' s', item s d = .inl (d', s') ∧ f s (.data d) = (.data d', s') ∧ I s') ∨
      ∃ err s', item s d = .inr (.error err) ∧ f s (.data d) = (.error err, s')
  last : ∀ s x r, I s → x.split = .inr r → (f s x).1.split = .inr (last s r) ∧
    ∀ map, last s r = .ok (some map) → ∃ map', r = .ok (some map')

/-- A relay that converts the error and changes nothing else. -/
theorem Handles.convert {f : S → Item D E → Item D E' × S} (hfinish : ∀ s, f s none = (none, s))
    (into : S → E → E') (hf : ∀ s x, (f s x).1 = x.mapErr (into s)) :
    Handles f (fun _ => True) (fun s d => .inl (d, (f s (.data d)).2))
      (fun s r => r.mapError (into s)) where
  finish := hfinish
  item s d _ := .inl ⟨d, _, rfl, Prod.ext (hf s _) rfl, trivial⟩
  last s x r _ hr := by
    rw [hf]
    rcases x with _ | (err | (d | map))
    · cases hr
      exact ⟨rfl, fun map hmap => by cases hmap⟩
    · cases hr
      exact ⟨rfl, fun map hmap => by cases hmap⟩
    · cases hr
    · cases hr
      exact ⟨rfl, fun _ _ => ⟨map, rfl⟩⟩

variable [Body B D E] [Body W D' E']

theorem Handles.delivers (hf : Handles f I item last)
    (h : Relays (Body.pollFrame (B := B)) Body.pollFrame mk f) {b : B} {c : Content D E}
    (hb : Body.Delivers b c) {s : S} (hs : I s) :
    Body.Delivers (mk s b) (c.scan item last s : Script D' (Conclusion E')) := by
  refine Plays.relay h ?_ ?_ hb hs
  · intro s x d hs hx
    rw [Item.split_eq_inl] at hx
    subst hx
    rcases hf.item s d hs with ⟨d', s', hgoes, hanswer, hs'⟩ | ⟨err, s', hstops, hanswer⟩
    · rw [hanswer]
      exact .inl ⟨d', hgoes, rfl, hs'⟩
    · rw [hanswer]
      exact .inr ⟨_, hstops, rfl, fun b => Body.concluded_error err _⟩
  · intro s x r b hs hx hconcluded
    obtain ⟨hsplit, htrailers⟩ := hf.last s x r hs hx
    refine ⟨hsplit, fun map hmap => ?_⟩
    obtain ⟨map', rfl⟩ := htrailers map hmap
    exact h.stays hf.finish (fun _ _ _ => trivial) (hconcluded map' rfl)

end Relay

/-! ## Wrappers -/

section Wrappers

variable [Body B D E]

/-- The rule for relays that convert the error and change nothing else. -/
theorem Body.Delivers.convert {W S : Type} [Body W D E'] {mk : S → B → W}
    {f : S → Item D E → Item D E' × S}
    (h : Relays (Body.pollFrame (B := B)) Body.pollFrame mk f) (hfinish : ∀ s, f s none = (none, s))
    (into : S → E → E') (hf : ∀ s x, (f s x).1 = x.mapErr (into s))
    (hinto : ∀ s d, into (f s (.data d)).2 = into s)
    {b : B} {c : Content D E} (hb : Body.Delivers b c) (s : S) :
    Body.Delivers (mk s b) (c.mapErr (into s)) := by
  have hscan := (Handles.convert hfinish into hf).delivers h hb (s := s) trivial
  have hlast : ∀ s d, (fun r : Conclusion E => r.mapError (into (f s (.data d)).2)) =
      fun r => r.mapError (into s) := by
    intro s d
    rw [hinto]
  rwa [Script.scan_pass hlast] at hscan

theorem Content.mapErr_id (c : Content D E) : c.mapErr id = c := by
  rcases c with ⟨data, _ | ta⟩ <;> rfl

variable {b : B} {c : Content D E}

theorem MapErr.delivers [FnMut F E E'] (hb : Body.Delivers b c) (f : F) :
    Body.Delivers (MapErr.new b f) (c.mapErr fun err => (FnMut.call f err).1) :=
  hb.convert MapErr.relays (fun _ => rfl) (fun f err => (FnMut.call f err).1)
    (by rintro f (_ | (err | frame)) <;> rfl) (fun _ _ => rfl) f

theorem InspectFrame.delivers [FnMut F (Frame D) Unit] (hb : Body.Delivers b c) (f : F) :
    Body.Delivers (InspectFrame.new b f) c := by
  have h := hb.convert (InspectFrame.relays (F := F)) (fun _ => rfl) (fun _ => id)
    (by rintro f (_ | (err | frame)) <;> rfl) (fun _ _ => rfl) f
  rwa [Content.mapErr_id] at h

theorem InspectErr.delivers [FnMut F E Unit] (hb : Body.Delivers b c) (f : F) :
    Body.Delivers (InspectErr.new b f) c := by
  have h := hb.convert (InspectErr.relays (F := F)) (fun _ => rfl) (fun _ => id)
    (by rintro f (_ | (err | frame)) <;> rfl) (fun _ _ => rfl) f
  rwa [Content.mapErr_id] at h

theorem Either.delivers_left {L R : Type} [Body L D E₁] [Body R D E₂] [Into E₁ BoxError]
    [Into E₂ BoxError] {l : L} {c : Content D E₁} (hl : Body.Delivers l c) :
    Body.Delivers (.left l : Either L R) (c.mapErr Into.into) :=
  hl.convert Either.relays_left (fun _ => rfl) (fun _ => Into.into) (fun _ _ => rfl)
    (fun _ _ => rfl) ()

theorem Either.delivers_right {L R : Type} [Body L D E₁] [Body R D E₂] [Into E₁ BoxError]
    [Into E₂ BoxError] {r : R} {c : Content D E₂} (hr : Body.Delivers r c) :
    Body.Delivers (.right r : Either L R) (c.mapErr Into.into) :=
  hr.convert Either.relays_right (fun _ => rfl) (fun _ => Into.into) (fun _ _ => rfl)
    (fun _ _ => rfl) ()

end Wrappers

end Rules

end HttpBody
