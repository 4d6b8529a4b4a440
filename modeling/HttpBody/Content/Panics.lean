import HttpBody.Collect.Outcome
import HttpBody.Content.Orderly
import HttpBody.Core.HeaderTable

/-!
# Where expressions do not panic

Every expression over orderly leaves is orderly, also one that never ends: it does not
panic before its first terminal answer, and it gives nothing more after trailers.  That
is what its consumers rely on: streaming its data and collecting it do not panic before
they end.  Closures, and `HeaderMap::extend`, are taken to return.
-/

namespace HttpBody

open Support

section Expressions

variable [Foreign]

/-- `Behaves b`: the body `b` is an expression over orderly bodies, streams and futures,
with closures that keep the kinds of frames. -/
inductive Behaves : ∀ {B D E : Type} [Buf D] [Body B D E], B → Prop where
  | user {B D E : Type} [Buf D] [Body B D E] {b : B} : Body.Orderly b → Behaves b
  | empty (D : Type) [Buf D] : Behaves (Empty.new D)
  | full {D : Type} [Buf D] (data : D) : Behaves (Full.new data)
  | string (s : Str) : Behaves s
  | errorBody (D : Type) {E : Type} [Buf D] (error : E) : Behaves (ErrorBody.new D error)
  | pending (D E : Type) [Buf D] : Behaves (Pending.new D E)
  | collected {D : Type} [Buf D] (collected : Collected D) : Behaves collected
  | streamBody {S D E : Type} [Buf D] [Stream S (Except E (Frame D))] {stream : S} :
      Stream.Orderly stream → Behaves (StreamBody.new stream)
  | chain {A B D E₁ E₂ : Type} [Buf D] [Body A D E₁] [Body B D E₂] [Into E₁ E₂] {a : A} {b : B} :
      Behaves a → Behaves b → Behaves (Chain.new a b)
  | withTrailers {B F D E : Type} [Buf D] [Body B D E] [Future F (Option (Except E HeaderMap))]
      {b : B} {f : F} : Behaves b → Future.Orderly f → Behaves (WithTrailers.new b f)
  | limited {B D E : Type} [Buf D] [Body B D E] [Into E BoxError] {b : B} (limit : ℕ) :
      Behaves b → Behaves (Limited.new b limit)
  | fuse {B D E : Type} [Buf D] [Body B D E] {b : B} : Behaves b → Behaves (Fuse.new b)
  | mapFrame {B F D D' E : Type} [Buf D] [Buf D'] [Body B D E] [FnMut F (Frame D) (Frame D')]
      {b : B} {f : F} : KeepsKinds D D' f → Behaves b → Behaves (MapFrame.new b f)
  | mapErr {B F D E E' : Type} [Buf D] [Body B D E] [FnMut F E E'] {b : B} (f : F) :
      Behaves b → Behaves (MapErr.new b f)
  | inspectFrame {B F D E : Type} [Buf D] [Body B D E] [FnMut F (Frame D) Unit] {b : B} (f : F) :
      Behaves b → Behaves (InspectFrame.new b f)
  | inspectErr {B F D E : Type} [Buf D] [Body B D E] [FnMut F E Unit] {b : B} (f : F) :
      Behaves b → Behaves (InspectErr.new b f)
  | left {L D E₁ E₂ : Type} (R : Type) [Buf D] [Body L D E₁] [Body R D E₂]
      [Into E₁ BoxError] [Into E₂ BoxError] {l : L} :
      Behaves l → Behaves (Either.left l : Either L R)
  | right {R D E₁ E₂ : Type} (L : Type) [Buf D] [Body L D E₁] [Body R D E₂]
      [Into E₁ BoxError] [Into E₂ BoxError] {r : R} :
      Behaves r → Behaves (Either.right r : Either L R)
  | tryFuture {F B D E E₁ : Type} [Buf D] [Body B D E] [Future F (Except E₁ B)]
      [Into E₁ E] {f : F} : Future.Orderly f →
      (∀ (b : B) f', Awaits Future.Steps f (.ok b) f' → Behaves b) →
      Behaves (TryFutureBody.new f : TryFutureBody F B)
  | held {W B D E : Type} [Buf D] [Body W D E] [Body B D E] {w : W} {b : B} :
      Holds w b → Behaves b → Behaves w
  | bodyStream {B D E : Type} [Buf D] [Body B D E] {b : B} :
      Behaves b → Behaves (BodyStream.new b)

variable {B D E : Type} [Buf D] [Body B D E] {b : B}

/-- An expression over orderly leaves is orderly. -/
theorem Behaves.orderly (h : Behaves b) : Body.Orderly b := by
  induction h with
  | user hb => exact hb
  | empty D => exact Empty.orderly _
  | full data => exact Full.orderly _
  | string s => exact Str.orderly s
  | errorBody D error => exact ErrorBody.orderly _
  | pending D E => exact Pending.orderly _
  | collected c => exact Collected.orderly c
  | streamBody hs => exact StreamBody.orderly hs
  | chain _ _ iha ihb => exact Chain.orderly iha ihb
  | withTrailers _ hf ih => exact WithTrailers.orderly ih hf
  | limited limit _ ih => exact Limited.handles.orderly Limited.relays ih trivial
  | fuse _ ih => exact Fuse.orderly ih
  | @mapFrame B F D D' E _ _ _ _ b f hkinds _ ih =>
      obtain ⟨I, hf, hhandles⟩ := MapFrame.handles (E := E) hkinds
      exact hhandles.orderly MapFrame.relays ih hf
  | mapErr f _ ih =>
      exact (Handles.convert (fun _ => rfl) (fun f err => (FnMut.call f err).1)
        (by rintro f (_ | (err | frame)) <;> rfl)).orderly MapErr.relays ih trivial
  | inspectFrame f _ ih =>
      exact (Handles.convert (fun _ => rfl) (fun _ => id)
        (by rintro f (_ | (err | frame)) <;> rfl)).orderly InspectFrame.relays ih trivial
  | inspectErr f _ ih =>
      exact (Handles.convert (fun _ => rfl) (fun _ => id)
        (by rintro f (_ | (err | frame)) <;> rfl)).orderly InspectErr.relays ih trivial
  | left R _ ih =>
      exact (Handles.convert (fun _ => rfl) (fun _ => Into.into) fun _ _ => rfl).orderly
        Either.relays_left ih (s := ()) trivial
  | right L _ ih =>
      exact (Handles.convert (fun _ => rfl) (fun _ => Into.into) fun _ _ => rfl).orderly
        Either.relays_right ih (s := ()) trivial
  | tryFuture hf _ ih => exact TryFutureBody.orderly hf ih
  | held hw _ ih =>
      exact Orderly.of_indistinct (Indistinct.symm hw.same)
        (fun o s u hsu hrests map hmap => Body.Same.ended hsu (hrests map hmap)) ih
  | bodyStream _ ih => exact BodyStream.orderly ih

/-- However long an expression is polled, its calls return until the first terminal answer;
and after trailers it is at its end. -/
theorem Body.returns_until_terminal (h : Behaves b) {rs : List (PollFrame D E)} {b' : B}
    (hrun : Runs Body.Steps b rs b') (hrs : ∀ r ∈ rs, Item.InProgress r) :
    ∃ t r b'', Body.Steps b' t r b'' ∧ ∀ map, r = .ready (.trailers map) → Body.Ended b'' := by
  have hgoes : ∀ o, (.ready o : PollFrame D E) ∈ rs → o.isTerminal = false := by
    intro o ho
    cases hrs _ ho
    rfl
  have hcall := (Support.Orderly.runs h.orderly hrun hgoes).call
  rcases hpoll : Body.pollFrame b' with ⟨t, stop | ⟨r, b''⟩⟩
  · rw [hpoll] at hcall
    cases hcall with
    | stops hstop => exact hstop.elim
  · refine ⟨t, r, b'', hpoll, fun map hmap => ?_⟩
    rw [hpoll, hmap] at hcall
    cases hcall with
    | next hgoes _ => cases hgoes
    | last _ hrests => exact hrests map rfl

/-! ## Consumers -/

omit [Buf D] in
theorem Body.Ended.goes (hb : Body.Ended b) :
    ∃ t b', Body.pollFrame b = ⟨t, .ok (.ready none, b')⟩ ∧ Body.Ended b' :=
  Stays.step (Call.steps_functional _) hb

namespace BodyDataStream

/-- The answers after which a data stream is not polled again. -/
def isLast : Option (Except E D) → Bool
  | some (.ok _) => false
  | _ => true

omit [Buf D] in
/-- A data stream of an orderly body: the end comes after trailers. -/
theorem orderly (hb : Body.Orderly b) :
    Orderly.OfTurn (fun _ => False) turn isLast (fun _ _ => True) (new b) := by
  refine ⟨fun s => Body.Orderly s.body ∨ Body.Ended s.body, .inl hb, ?_⟩
  rintro ⟨b⟩ hs
  rw [relays () b]
  rcases hs with hb | hended
  · refine Goes.bind (Support.Orderly.call hb) (fun _ b _ hb => .pending (.inl hb))
      (fun _ o b _ ho hb => ?_) fun _ o b _ ho hrests => ?_
    · obtain ⟨d, rfl⟩ := Item.eq_data ho
      exact .next rfl (.inl hb)
    · rcases o with _ | (err | (d | map))
      · exact .last rfl fun _ _ => trivial
      · exact .last rfl fun _ _ => trivial
      · cases ho
      · exact .next rfl (.inr (hrests map rfl))
  · obtain ⟨t, b', hpoll, -⟩ := hended.goes
    rw [relay, hpoll]
    exact .last rfl fun _ _ => trivial

end BodyDataStream

namespace Collect

/-- Collecting an orderly body: what was collected is there until the end. -/
theorem orderly (hb : Body.Orderly b) :
    Orderly.OfTurn (fun _ => False) turn (fun _ => true) (fun _ _ => True)
      (new b : Collect B D) := by
  refine ⟨fun me => (∃ collected, me.collected = some collected) ∧
    (Body.Orderly me.body ∨ Body.Ended me.body), ⟨⟨_, rfl⟩, .inl hb⟩, ?_⟩
  rintro ⟨_, b⟩ ⟨⟨collected, rfl⟩, hs⟩
  rw [passes (some collected) b]
  rcases hs with hb | hended
  · refine Goes.bind (Support.Orderly.call hb) (fun _ b _ hb => .pending ⟨⟨_, rfl⟩, .inl hb⟩)
      (fun _ o b _ ho hb => ?_) fun _ o b _ ho hrests => ?_
    · obtain ⟨d, rfl⟩ := Item.eq_data ho
      have hnext := afterBody_frame (E := E) (collected.pushFrame_data d) b
      simp only [hnext]
      exact .next rfl ⟨⟨_, rfl⟩, .inl hb⟩
    · rcases o with _ | (err | (d | map))
      · exact .last rfl fun _ _ => trivial
      · exact .last rfl fun _ _ => trivial
      · cases ho
      · have hnext := afterBody_frame (E := E) (collected.pushFrame_trailers map) b
        simp only [hnext]
        exact .next rfl ⟨⟨_, rfl⟩, .inr (hrests map rfl)⟩
  · obtain ⟨t, b', hpoll, -⟩ := hended.goes
    rw [passing, hpoll]
    exact .last rfl fun _ _ => trivial

end Collect

/-- However far an expression is streamed or collected, no call panics before the stream
ends, or what is collected is there: a call may only go on without end. -/
theorem consumers_never_panic (h : Behaves b) :
    (∀ {rs s}, Runs BodyDataStream.Steps (BodyDataStream.new b) rs s →
      (∀ o, .ready o ∈ rs → ∃ d, o = some (.ok d)) →
      ∀ fuel stop, (BodyDataStream.pollNext fuel s).value = .error stop → stop = .outOfFuel) ∧
    ∀ {rs me}, Runs Collect.Steps (Collect.new b) rs me → (∀ r ∈ rs, r = .pending) →
      ∀ fuel stop, (Collect.poll fuel me).value = .error stop → stop = .outOfFuel := by
  constructor
  · intro rs s hrun hrs fuel stop hstop
    have hlast : ∀ o, (.ready o : Poll (Option (Except E D))) ∈ rs →
        BodyDataStream.isLast o = false := by
      intro o ho
      obtain ⟨d, rfl⟩ := hrs o ho
      rfl
    have hnext := Orderly.OfTurn.runs (BodyDataStream.orderly h.orderly) hrun hlast
    exact ((hnext.loop fuel).permitted hstop).resolve_left id
  · intro rs me hrun hrs fuel stop hstop
    have hnext := Orderly.OfTurn.runs (Collect.orderly h.orderly) hrun fun o ho => by
      cases hrs _ ho
    exact ((hnext.loop fuel).permitted hstop).resolve_left id

end Expressions

/-- A chunk, and then a body that never ends. -/
theorem Body.returns_until_terminal_pending :
    ∃ t r b'', Body.Steps (.second (Pending.new Bytes Infallible) none :
        Chain (Full Bytes) (Pending Bytes Infallible)) t r b'' ∧
      ∀ map, r = .ready (.trailers map) → Body.Ended b'' := by
  have hrun : Runs Body.Steps
      (Chain.new (Full.new (⟨[1], by decide⟩ : Bytes)) (Pending.new Bytes Infallible))
      [.ready (.data ⟨[1], by decide⟩), .pending]
      (.second (Pending.new Bytes Infallible) none) :=
    .cons (t := []) rfl (.cons (t := []) rfl (.nil _))
  refine Body.returns_until_terminal (.chain (.full _) (.pending _ _)) hrun fun r hr => ?_
  simp only [List.mem_cons, List.not_mem_nil, or_false] at hr
  rcases hr with rfl | rfl
  · exact .data _
  · exact .pending

/-- Streaming it after the chunk, and collecting it after it was suspended twice. -/
theorem consumers_never_panic_pending :
    (∀ fuel stop,
      (BodyDataStream.pollNext fuel (⟨.first ⟨none⟩ (some (Pending.new Bytes Infallible))⟩ :
        BodyDataStream (Chain (Full Bytes) (Pending Bytes Infallible)))).value = .error stop →
      stop = .outOfFuel) ∧
    ∀ fuel stop,
      (Collect.poll fuel (⟨some ⟨⟨[⟨[1], by decide⟩]⟩, none⟩,
        .second (Pending.new Bytes Infallible) none⟩ :
          Collect (Chain (Full Bytes) (Pending Bytes Infallible)) Bytes)).value = .error stop →
      stop = .outOfFuel := by
  have hstream : Runs BodyDataStream.Steps (BodyDataStream.new
      (Chain.new (Full.new (⟨[1], by decide⟩ : Bytes)) (Pending.new Bytes Infallible)))
      [.ready (some (.ok ⟨[1], by decide⟩))]
      ⟨.first ⟨none⟩ (some (Pending.new Bytes Infallible))⟩ :=
    .single (t := []) (loops_iff.mpr (.ready (t := []) rfl))
  have hcollect : Runs Collect.Steps (Collect.new
      (Chain.new (Full.new (⟨[1], by decide⟩ : Bytes)) (Pending.new Bytes Infallible)))
      [.pending, .pending] ⟨some ⟨⟨[⟨[1], by decide⟩]⟩, none⟩, .second (Pending.new _ _) none⟩ :=
    .cons (t := []) (loops_iff.mpr (.again (t := []) rfl (.pending (t := []) rfl)))
      (.cons (t := []) (loops_iff.mpr (.pending (t := []) rfl)) (.nil _))
  have hnever := consumers_never_panic
    (.chain (.full (⟨[1], by decide⟩ : Bytes)) (.pending Bytes Infallible))
  refine ⟨hnever.1 hstream fun o ho => ?_, hnever.2 hcollect fun r hr => ?_⟩
  · rw [List.mem_singleton] at ho
    cases ho
    exact ⟨_, rfl⟩
  · simpa using hr

end HttpBody
