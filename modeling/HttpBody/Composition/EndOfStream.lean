import HttpBody.Composition.Expression
import HttpBody.Composition.Reachable
import HttpBody.Core.HeaderTable

/-!
# The end of the stream

`is_end_stream` is sound for every expression over bodies for which it is sound:
where it is true, the body only returns `Ready(None)`, and it stays true.  Most
bodies settle the question by themselves; only the wrappers that forward the
answer of an inner body rely on it.
-/

namespace HttpBody

open Support

section Rules

variable [Foreign] {B W D D' E E' S : Type}

/-- The rule for bodies that settle the question in each of their states. -/
theorem Body.EndStreamSound.of_step [Body B D E]
    (h : ∀ b : B, Body.isEndStream b = true →
      ∃ t b', Body.Steps b t (.ready none) b' ∧ Body.isEndStream b' = true)
    (b : B) : Body.EndStreamSound b := by
  refine Always.of_invariant (fun _ => True) trivial (fun b _ hb => ?_) fun _ _ _ _ _ _ => trivial
  refine Stays.of_invariant (fun b : B => Body.isEndStream b = true) hb fun b hb => ⟨hb, ?_⟩
  obtain ⟨t, b', hstep, hb'⟩ := h b hb
  exact ⟨t, b', hstep, hb'⟩

/-- The rule for relays that hand on the end and forward `is_end_stream`. -/
theorem Body.EndStreamSound.relay [Body B D E] [Body W D' E'] {mk : S → B → W}
    {f : S → Item D E → Item D' E' × S}
    (h : Relays (Body.pollFrame (B := B)) (Body.pollFrame (B := W)) mk f)
    (hfinish : ∀ s, f s none = (none, s))
    (heos : ∀ s b, Body.isEndStream (mk s b) = Body.isEndStream b)
    {b : B} (hb : Body.EndStreamSound b) (s : S) : Body.EndStreamSound (mk s b) := by
  refine h.always hb fun s b hb hend => ?_
  rw [heos] at hend
  exact h.stays hfinish (fun s b hb => (heos s b).trans hb) (hb.here hend)

/-! ## Leaves -/

theorem Empty.endStreamSound (b : Empty D) : Body.EndStreamSound b :=
  .of_step (fun (b : Empty D) _ => ⟨[], b, rfl, rfl⟩) b

theorem Full.endStreamSound [Buf D] (b : Full D) : Body.EndStreamSound b := by
  refine .of_step (fun b hb => ?_) b
  obtain ⟨_ | data⟩ := b
  · exact ⟨[], ⟨none⟩, rfl, rfl⟩
  · simp [Body.isEndStream] at hb

theorem Str.endStreamSound (s : Str) : Body.EndStreamSound s := by
  refine .of_step (fun s (hs : s.isEmpty = true) => ⟨[], s, ?_, hs⟩) s
  simp [Call.steps, Body.pollFrame, hs, Call.pure_def]

theorem ErrorBody.endStreamSound (b : ErrorBody D E) : Body.EndStreamSound b := by
  refine .of_step (fun b hb => ?_) b
  obtain ⟨_ | error⟩ := b
  · exact ⟨[], ⟨none⟩, rfl, rfl⟩
  · simp [Body.isEndStream] at hb

theorem Pending.endStreamSound (b : Pending D E) : Body.EndStreamSound b :=
  .of_step (fun _ hb => by cases hb) b

theorem Collected.endStreamSound [Buf D] (b : Collected D) : Body.EndStreamSound b :=
  .of_step (fun _ hb => by cases hb) b

theorem StreamBody.endStreamSound [Stream S (Except E (Frame D))] (b : StreamBody S) :
    Body.EndStreamSound b :=
  .of_step (fun _ hb => by cases hb) b

/-! ## Combinators that settle the question -/

theorem Chain.endStreamSound {A E₁ E₂ : Type} [Body A D E₁] [Body B D E₂] [Into E₁ E₂]
    (c : Chain A B) : Body.EndStreamSound c := by
  refine .of_step (fun c hc => ?_) c
  cases c with
  | first a b => cases hc
  | second b ta => cases hc
  | finished => exact ⟨[], .finished, rfl, rfl⟩

theorem Chain.ended_finished {A E₁ E₂ : Type} [Body A D E₁] [Body B D E₂] [Into E₁ E₂] :
    Body.Ended (.finished : Chain A B) :=
  ((Chain.endStreamSound _).here rfl).ended

theorem WithTrailers.endStreamSound {T F : Type} [Body T D E]
    [Future F (Option (Except E HeaderMap))] (w : WithTrailers T F) :
    Body.EndStreamSound w :=
  .of_step (fun _ hb => by cases hb) w

theorem Fuse.endStreamSound [Body B D E] (b : Fuse B) : Body.EndStreamSound b := by
  refine .of_step (fun b hb => ?_) b
  obtain ⟨_ | inner⟩ := b
  · exact ⟨[], ⟨none⟩, rfl, rfl⟩
  · simp [Body.isEndStream] at hb

/-! ## A body that a future yields -/

theorem TryFutureBody.endStreamSound {F E₁ : Type} [Body B D E] [Future F (Except E₁ B)]
    [Into E₁ E] {f : F}
    (hf : ∀ b f', Awaits Future.Steps f (.ok b) f' → Body.EndStreamSound b) :
    Body.EndStreamSound (TryFutureBody.new f : TryFutureBody F B) := by
  refine TryFutureBody.always hf (fun f _ hend => by cases hend) (fun b hb hend => ?_)
    fun _ => ?_
  · exact relays_body.stays (s := ()) (fun _ => rfl) (fun _ _ hsaid => hsaid) (hb.here hend)
  · exact .of_fixed rfl (steps_iff.mpr .failed)

end Rules

section Expressions

variable [Foreign]

/-- Bodies of the user with a sound `is_end_stream`. -/
def endStreamSoundBody : BodyPred :=
  fun _ _ _ _ _ b => Body.EndStreamSound b

theorem Composed.sound {B D E : Type} [Buf D] [Body B D E] {b : B}
    (h : Composed endStreamSoundBody b) : Body.EndStreamSound b := by
  induction h with
  | user hb => exact hb
  | empty D => exact Empty.endStreamSound _
  | full data => exact Full.endStreamSound _
  | string s => exact Str.endStreamSound s
  | errorBody D error => exact ErrorBody.endStreamSound _
  | pending D E => exact Pending.endStreamSound _
  | collected c => exact Collected.endStreamSound c
  | streamBody stream => exact StreamBody.endStreamSound _
  | chain _ _ _ _ => exact Chain.endStreamSound _
  | withTrailers f _ _ => exact WithTrailers.endStreamSound _
  | limited limit _ ih => exact .relay Limited.relays (fun _ => rfl) (fun _ _ => rfl) ih limit
  | fuse _ _ => exact Fuse.endStreamSound _
  | mapFrame f _ ih => exact .relay MapFrame.relays (fun _ => rfl) (fun _ _ => rfl) ih f
  | mapErr f _ ih => exact .relay MapErr.relays (fun _ => rfl) (fun _ _ => rfl) ih f
  | inspectFrame f _ ih =>
      exact .relay InspectFrame.relays (fun _ => rfl) (fun _ _ => rfl) ih f
  | inspectErr f _ ih => exact .relay InspectErr.relays (fun _ => rfl) (fun _ _ => rfl) ih f
  | left R _ ih => exact .relay Either.relays_left (fun _ => rfl) (fun _ _ => rfl) ih ()
  | right L _ ih => exact .relay Either.relays_right (fun _ => rfl) (fun _ _ => rfl) ih ()
  | tryFuture _ ih => exact TryFutureBody.endStreamSound ih

/-- In every state that an expression reaches, also after errors: if
`is_end_stream` is true, then every later call returns `Ready(None)` and leaves
it true. -/
theorem isEndStream_sound {B D E : Type} [Buf D] [Body B D E] {b : B}
    (h : Composed endStreamSoundBody b) {rs : List (PollFrame D E)} {b' : B}
    (hrun : Runs Body.Steps b rs b') (hend : Body.isEndStream b' = true) (n : ℕ) :
    ∃ b'', Runs Body.Steps b' (List.replicate n (.ready none)) b'' ∧
      Body.isEndStream b'' = true :=
  h.sound hrun hend n

end Expressions

/-- A chunk of two bytes within a limit of five, after its only frame. -/
theorem isEndStream_sound_limited :
    ∃ b : Limited (Full Bytes),
      Runs Body.Steps (⟨3, ⟨none⟩⟩ : Limited (Full Bytes))
        (List.replicate 2 (.ready none)) b ∧ Body.isEndStream b = true := by
  have hrun : Runs Body.Steps (Limited.new (Full.new (⟨[1, 2], by decide⟩ : Bytes)) 5)
      [.ready (.data ⟨[1, 2], by decide⟩)] ⟨3, ⟨none⟩⟩ :=
    .cons (t := []) rfl (.nil _)
  exact isEndStream_sound (.limited 5 (.full _)) hrun rfl 2

end HttpBody
