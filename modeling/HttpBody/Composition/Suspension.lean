import HttpBody.Composition.Alike
import HttpBody.Composition.Waking
import HttpBody.Core.HeaderTable
import HttpBody.Util.Limited

/-!
# Suspension does not change results

Two versions of an expression, whose leaves differ only in their suspensions,
give the same results: as bodies, as streams of data and when they are
collected.  In both of them every suspension is safe.
-/

namespace HttpBody

open Support

section Versions

variable [Foreign]

/-! ## Inserting suspensions -/

/-- A body with suspensions inserted: `waits` has the number of pending results
that come before each of the next answers. -/
structure Delayed (B : Type) where
  waits : List ℕ
  body : B

namespace Delayed

variable {B D E : Type} [Body B D E]

/-- The next answer is not held back. -/
def pollBody (waits : List ℕ) (body : B) : Call (PollFrame D E × Delayed B) :=
  passing Body.pollFrame (fun body => ⟨waits, body⟩)
    (fun r body => pure (.ready r, ⟨waits.tail, body⟩)) body

instance instBody : Body (Delayed B) D E where
  pollFrame b :=
    match b.waits with
    | (n + 1) :: waits => return (.pending, ⟨n :: waits, b.body⟩)
    | 0 :: waits => pollBody (0 :: waits) b.body
    | [] => pollBody [] b.body
  isEndStream b := Body.isEndStream b.body
  sizeHint ar b := Body.sizeHint ar b.body

theorem passes (waits : List ℕ) (h : waits.headD 0 = 0) :
    Passes (Body.pollFrame (B := B)) (Body.pollFrame (B := Delayed B))
      (fun body => ⟨waits, body⟩) fun r body => pure (.ready r, ⟨waits.tail, body⟩) := by
  rcases waits with _ | ⟨_ | n, waits⟩
  · exact fun _ => rfl
  · exact fun _ => rfl
  · cases h

theorem awaits_iff {waits : List ℕ} {b : B} {o : Item D E} {d : Delayed B} :
    Awaits Body.Steps (⟨waits, b⟩ : Delayed B) o d ↔
      ∃ b', Awaits Body.Steps b o b' ∧ d = ⟨waits.tail, b'⟩ := by
  have hready : ∀ waits : List ℕ, waits.headD 0 = 0 →
      (Awaits Body.Steps (⟨waits, b⟩ : Delayed B) o d ↔
        ∃ b', Awaits Body.Steps b o b' ∧ d = ⟨waits.tail, b'⟩) := by
    intro waits hwaits
    rw [(passes waits hwaits).awaits_iff]
    simp
  cases waits with
  | nil => exact hready [] rfl
  | cons n waits =>
      induction n with
      | zero => exact hready (0 :: waits) rfl
      | succ n ih =>
          have hstep : Body.Steps (⟨(n + 1) :: waits, b⟩ : Delayed B) [] .pending
            ⟨n :: waits, b⟩ := rfl
          exact (awaits_pending_iff (Call.steps_functional _) hstep).trans ih

/-- Suspensions may be inserted wherever and as often as one likes. -/
theorem alike (waits : List ℕ) (b : B) : Body.Alike b (⟨waits, b⟩ : Delayed B) := by
  refine ⟨fun b d => b = d.body, rfl, ?_, ?_, ?_⟩
  · rintro _ ⟨waits, b⟩ rfl
    rfl
  · rintro _ ⟨waits, b⟩ o b' rfl hawait
    exact ⟨⟨waits.tail, b'⟩, awaits_iff.mpr ⟨b', hawait, rfl⟩, fun _ => rfl⟩
  · rintro ⟨waits, b⟩ _ o d rfl hawait
    obtain ⟨b', hawait', rfl⟩ := awaits_iff.mp hawait
    exact ⟨b', hawait', fun _ => rfl⟩

end Delayed

/-! ## Versions of an expression -/

/-- Two futures for bodies that fail with the same error, or both yield a body. -/
inductive SameOutcome {E₁ B B' : Type} : Except E₁ B → Except E₁ B' → Prop where
  | ok (b : B) (b' : B') : SameOutcome (.ok b) (.ok b')
  | error (err : E₁) : SameOutcome (.error err) (.error err)

/-- Two versions of a body expression.  They are built alike, from observed
leaves that differ only in their suspensions. -/
inductive Versions :
    ∀ {B B' D E : Type} [Buf D] [Body B D E] [Body B' D E], B → B' → Prop where
  | leaf {B B' D E : Type} [Buf D] [Body B D E] [Body B' D E] {b : B} {b' : B'} (i j : ℕ) :
      Body.Alike b b' → Versions (⟨i, b⟩ : Probe B) (⟨j, b'⟩ : Probe B')
  | chain {A A' B B' D E₁ E₂ : Type} [Buf D] [Body A D E₁] [Body A' D E₁] [Body B D E₂]
      [Body B' D E₂] [Into E₁ E₂] {a : A} {a' : A'} {b : B} {b' : B'} :
      Versions a a' → Versions b b' → Versions (Chain.new a b) (Chain.new a' b')
  | withTrailers {T T' F F' D E : Type} [Buf D] [Body T D E] [Body T' D E]
      [Future F (Option (Except E HeaderMap))] [Future F' (Option (Except E HeaderMap))]
      {b : T} {b' : T'} {f : F} {f' : F'} (i j : ℕ) :
      Versions b b' → AwaitsLike Future.Steps Future.Steps Eq f f' →
      Versions (WithTrailers.new b (⟨i, f⟩ : Probe F)) (WithTrailers.new b' (⟨j, f'⟩ : Probe F'))
  | limited {B B' D E : Type} [Buf D] [Body B D E] [Body B' D E] [Into E BoxError]
      {b : B} {b' : B'} (limit : ℕ) :
      Versions b b' → Versions (Limited.new b limit) (Limited.new b' limit)
  | fuse {B B' D E : Type} [Buf D] [Body B D E] [Body B' D E] {b : B} {b' : B'} :
      Versions b b' → Versions (Fuse.new b) (Fuse.new b')
  | mapFrame {B B' F D D' E : Type} [Buf D] [Buf D'] [Body B D E] [Body B' D E]
      [FnMut F (Frame D) (Frame D')] {b : B} {b' : B'} (f : F) :
      Versions b b' → Versions (MapFrame.new b f) (MapFrame.new b' f)
  | mapErr {B B' F D E E' : Type} [Buf D] [Body B D E] [Body B' D E] [FnMut F E E']
      {b : B} {b' : B'} (f : F) :
      Versions b b' → Versions (MapErr.new b f) (MapErr.new b' f)
  | inspectFrame {B B' F D E : Type} [Buf D] [Body B D E] [Body B' D E]
      [FnMut F (Frame D) Unit] {b : B} {b' : B'} (f : F) :
      Versions b b' → Versions (InspectFrame.new b f) (InspectFrame.new b' f)
  | inspectErr {B B' F D E : Type} [Buf D] [Body B D E] [Body B' D E] [FnMut F E Unit]
      {b : B} {b' : B'} (f : F) :
      Versions b b' → Versions (InspectErr.new b f) (InspectErr.new b' f)
  | left {L L' D E₁ E₂ E₃ : Type} (R R' : Type) [Buf D] [Body L D E₁] [Body L' D E₁]
      [Body R D E₂] [Body R' D E₃] [Into E₁ BoxError] [Into E₂ BoxError] [Into E₃ BoxError]
      {l : L} {l' : L'} :
      Versions l l' → Versions (Either.left l : Either L R) (Either.left l' : Either L' R')
  | right {R R' D E₁ E₂ E₃ : Type} (L L' : Type) [Buf D] [Body R D E₁] [Body R' D E₁]
      [Body L D E₂] [Body L' D E₃] [Into E₁ BoxError] [Into E₂ BoxError] [Into E₃ BoxError]
      {r : R} {r' : R'} :
      Versions r r' → Versions (Either.right r : Either L R) (Either.right r' : Either L' R')
  | tryFuture {F F' B B' D E E₁ : Type} [Buf D] [Body B D E] [Body B' D E]
      [Future F (Except E₁ B)] [Future F' (Except E₁ B')] [Into E₁ E] {f : F} {f' : F'}
      (i j : ℕ) : AwaitsLike Future.Steps Future.Steps SameOutcome f f' →
      (∀ (b : B) (g : F) (b' : B') (g' : F'), Awaits Future.Steps f (.ok b) g →
        Awaits Future.Steps f' (.ok b') g' → Versions b b') →
      Versions (TryFutureBody.new ⟨i, f⟩ : TryFutureBody (Probe F) B)
        (TryFutureBody.new ⟨j, f'⟩ : TryFutureBody (Probe F') B')

namespace Versions

variable {B B' D E : Type} [Buf D] [Body B D E] [Body B' D E] {b : B} {b' : B'}

theorem symm (h : Versions b b') : Versions b' b := by
  induction h with
  | leaf i j hb => exact .leaf j i hb.symm
  | chain _ _ iha ihb => exact .chain iha ihb
  | withTrailers i j _ hf ih => exact .withTrailers j i ih (hf.symm fun _ _ => Eq.symm)
  | limited limit _ ih => exact .limited limit ih
  | fuse _ ih => exact .fuse ih
  | mapFrame f _ ih => exact .mapFrame f ih
  | mapErr f _ ih => exact .mapErr f ih
  | inspectFrame f _ ih => exact .inspectFrame f ih
  | inspectErr f _ ih => exact .inspectErr f ih
  | left R R' _ ih => exact .left R' R ih
  | right L L' _ ih => exact .right L' L ih
  | tryFuture i j hf _ ih =>
      refine .tryFuture j i (hf.symm ?_) fun b' g' b g hg' hg => ih b g b' g' hg hg'
      rintro _ _ (⟨b, b'⟩ | err)
      · exact .ok b' b
      · exact .error err

omit [Buf D] in
/-- The futures of two versions yield alike bodies. -/
theorem resolve {F F' E₁ : Type} [Future F (Except E₁ B)] [Future F' (Except E₁ B')] {f : F}
    {f' : F'} (hf : AwaitsLike Future.Steps Future.Steps SameOutcome f f')
    (hbody : ∀ (b : B) (g : F) (b' : B') (g' : F'), Awaits Future.Steps f (.ok b) g →
      Awaits Future.Steps f' (.ok b') g' → Body.Alike b b') :
    AwaitsLike Future.Steps Future.Steps TryFutureBody.Resolve f f' := by
  constructor
  · intro x g hg
    obtain ⟨x', g', hg', hx⟩ := hf.1 x g hg
    refine ⟨x', g', hg', ?_⟩
    cases hx with
    | ok b b' => exact .ok (hbody b g b' g' hg hg')
    | error err => exact .error err
  · intro x' g' hg'
    obtain ⟨x, g, hg, hx⟩ := hf.2 x' g' hg'
    refine ⟨x, g, hg, ?_⟩
    cases hx with
    | ok b b' => exact .ok (hbody b g b' g' hg hg')
    | error err => exact .error err

theorem alike (h : Versions b b') : Body.Alike b b' := by
  induction h with
  | leaf i j hb => exact Probe.alike hb i j
  | chain _ _ iha ihb => exact Chain.alike iha ihb
  | withTrailers i j _ hf ih => exact WithTrailers.alike ih (Probe.awaitsLike hf i j)
  | limited limit _ ih =>
      refine .relay Limited.relays Limited.relays ?_ (fun _ _ => rfl) (fun _ _ => rfl) ih limit
      rintro remaining (_ | (err | frame)) ho
      · exact ho
      · exact ho
      · rfl
  | fuse _ ih => exact Fuse.alike ih
  | mapFrame f _ ih =>
      refine .relay MapFrame.relays MapFrame.relays ?_ (fun _ _ => rfl) (fun _ _ => rfl) ih f
      rintro f (_ | (err | frame)) ho
      · exact ho
      · exact ho
      · rfl
  | mapErr f _ ih =>
      exact .relay MapErr.relays MapErr.relays MapErr.keepsFrames.isFrame (fun _ _ => rfl)
        (fun _ _ => rfl) ih f
  | inspectFrame f _ ih =>
      exact .relay InspectFrame.relays InspectFrame.relays InspectFrame.keepsFrames.isFrame
        (fun _ _ => rfl) (fun _ _ => rfl) ih f
  | inspectErr f _ ih =>
      exact .relay InspectErr.relays InspectErr.relays InspectErr.keepsFrames.isFrame
        (fun _ _ => rfl) (fun _ _ => rfl) ih f
  | left R R' _ ih =>
      exact .relay Either.relays_left Either.relays_left intoErr_keepsFrames.isFrame
        (fun _ _ => rfl) (fun _ _ => rfl) ih ()
  | right L L' _ ih =>
      exact .relay Either.relays_right Either.relays_right intoErr_keepsFrames.isFrame
        (fun _ _ => rfl) (fun _ _ => rfl) ih ()
  | tryFuture i j hf _ ih => exact TryFutureBody.alike (Probe.awaitsLike (resolve hf ih) i j)

theorem wakes (h : Versions b b') : Body.Wakes b := by
  induction h with
  | leaf i j _ => exact Probe.wakes _
  | chain _ _ iha ihb => exact Chain.wakes iha ihb
  | withTrailers i j _ _ ih => exact WithTrailers.wakes ih _
  | limited limit _ ih => exact .relay Limited.relays ih limit
  | fuse _ ih => exact Fuse.wakes ih
  | mapFrame f _ ih => exact .relay MapFrame.relays ih f
  | mapErr f _ ih => exact .relay MapErr.relays ih f
  | inspectFrame f _ ih => exact .relay InspectFrame.relays ih f
  | inspectErr f _ ih => exact .relay InspectErr.relays ih f
  | left R R' _ ih => exact .relay Either.relays_left ih ()
  | right L L' _ ih => exact .relay Either.relays_right ih ()
  | tryFuture i j hf _ ih =>
      refine TryFutureBody.wakes fun b q hq => ?_
      obtain ⟨g, hg, -⟩ := Probe.future_awaits_iff.mp hq
      obtain ⟨x', g', hg', hx⟩ := hf.1 _ g hg
      cases hx with
      | ok b b' => exact ih b g b' g' hg hg'

end Versions

/-! ## Loops over alike bodies -/

section Loops

variable {B B' D E : Type} [Body B D E] [Body B' D E]

theorem BodyDataStream.awaitSim :
    AwaitSim (Steps (B := B)) (Steps (B := B')) (fun x => ∃ d, x = some (.ok d))
      fun s s' => Body.Alike s.body s'.body := by
  refine AwaitSim.loops (awaitSim_iff.mpr ?_)
  rintro ⟨b⟩ ⟨b'⟩ hb
  refine (relays.passes ()).follows (relays.passes ()) fun x b₁ hawait => ?_
  obtain ⟨b₁', hawait', hnext⟩ := Body.Alike.forth hb hawait
  refine ⟨x, b₁', hawait', .ready fun hagain => hnext ?_⟩
  rcases x with _ | (err | frame)
  · obtain ⟨d, hd⟩ := hagain _ rfl
    cases hd
  · obtain ⟨d, hd⟩ := hagain _ rfl
    cases hd
  · rfl

theorem Collect.awaitSim [Buf D] :
    AwaitSim (Steps (T := B)) (Steps (T := B')) (fun _ => False)
      fun me me' => me.collected = me'.collected ∧ Body.Alike me.body me'.body := by
  refine AwaitSim.loops (awaitSim_iff.mpr ?_)
  rintro ⟨collected, b⟩ ⟨_, b'⟩ ⟨rfl, hb⟩
  refine (passes collected).follows (passes collected) fun x b₁ hawait => ?_
  obtain ⟨b₁', hawait', hnext⟩ := Body.Alike.forth hb hawait
  refine ⟨x, b₁', hawait', ?_⟩
  rcases x with _ | (err | frame)
  · cases collected with
    | none => exact .stops
    | some collected => exact .ready fun hagain => (hagain _ rfl).elim
  · exact .ready fun hagain => (hagain _ rfl).elim
  · cases collected with
    | none => exact .stops
    | some collected =>
        simp only [afterBody, Call.unwrap_some_bind]
        cases collected.pushFrame frame with
        | error s => exact .stops
        | ok collected => exact .ready fun _ => ⟨rfl, hnext rfl⟩

theorem BodyDataStream.sameAnswers {b : B} {b' : B'} (h : Body.Alike b b') :
    SameAnswers Steps Steps (fun x => ∃ d, x = some (.ok d)) (new b) (new b') :=
  (AwaitBisim.of_sims (fun _ _ => ⟨.symm, .symm⟩) awaitSim awaitSim).sameAnswers h

theorem Collect.sameAnswers [Buf D] {b : B} {b' : B'} (h : Body.Alike b b') :
    SameAnswers Steps Steps (fun _ => False) (new b) (new b') := by
  refine (AwaitBisim.of_sims ?_ awaitSim awaitSim).sameAnswers ⟨rfl, h⟩
  exact fun _ _ => ⟨fun hR => ⟨hR.1.symm, hR.2.symm⟩, fun hR => ⟨hR.1.symm, hR.2.symm⟩⟩

end Loops

/-- However far it is polled, alone, as a stream of data or when it is
collected, the body `b` is safely suspended in every call. -/
structure Body.SuspendsSafely {B D E : Type} [Buf D] [Body B D E] (b : B) : Prop where
  body : Always Body.Steps (fun b : B => SafelySuspended (Body.pollFrame b)) b
  dataStream : Always BodyDataStream.Steps
    (fun s => ∀ fuel, SafelySuspended (BodyDataStream.pollNext fuel s)) (.new b)
  collect : Always Collect.Steps
    (fun me => ∀ fuel, SafelySuspended (Collect.poll fuel me)) (Collect.new b)

theorem Body.Wakes.suspendsSafely {B D E : Type} [Buf D] [Body B D E] {b : B}
    (h : Body.Wakes b) : Body.SuspendsSafely b where
  body := h.mono fun _ hb => hb.safelySuspended
  dataStream := (BodyDataStream.wakes h).mono fun _ hs fuel => (hs fuel).safelySuspended
  collect := (Collect.wakes h).mono fun _ hme fuel => (hme fuel).safelySuspended

/-- Two versions of an expression give the same results up to the first error or
the end, as bodies, as streams of data and when they are collected; and both are
safely suspended in every call. -/
theorem suspension_irrelevant {B B' D E : Type} [Buf D] [Body B D E] [Body B' D E] {b : B}
    {b' : B'} (h : Versions b b') :
    SameAnswers Body.Steps Body.Steps (fun o => o.isFrame) b b' ∧
      SameAnswers BodyDataStream.Steps BodyDataStream.Steps (fun x => ∃ d, x = some (.ok d))
        (.new b) (.new b') ∧
      SameAnswers Collect.Steps Collect.Steps (fun _ => False) (Collect.new b)
        (Collect.new b') ∧
      Body.SuspendsSafely b ∧ Body.SuspendsSafely b' :=
  ⟨Body.Alike.bisim.sameAnswers h.alike, BodyDataStream.sameAnswers h.alike,
    Collect.sameAnswers h.alike, h.wakes.suspendsSafely, h.symm.wakes.suspendsSafely⟩

end Versions

/-- Two chunks in a chain, at once and with three suspensions inserted. -/
theorem suspension_irrelevant_delayed :
    SameAnswers Body.Steps Body.Steps (fun o => o.isFrame)
        (Chain.new (⟨0, Full.new ⟨[1, 2], by decide⟩⟩ : Probe (Full Bytes))
          (⟨1, Full.new ⟨[3], by decide⟩⟩ : Probe (Full Bytes)))
        (Chain.new (⟨0, [2, 1], Full.new ⟨[1, 2], by decide⟩⟩ : Probe (Delayed (Full Bytes)))
          (⟨1, Full.new ⟨[3], by decide⟩⟩ : Probe (Full Bytes))) ∧
      Body.SuspendsSafely
        (Chain.new (⟨0, [2, 1], Full.new ⟨[1, 2], by decide⟩⟩ : Probe (Delayed (Full Bytes)))
          (⟨1, Full.new ⟨[3], by decide⟩⟩ : Probe (Full Bytes))) := by
  have hself : Body.Alike (Full.new (⟨[3], by decide⟩ : Bytes))
      (Full.new (⟨[3], by decide⟩ : Bytes)) := .refl _
  have hversions := suspension_irrelevant
    (.chain (.leaf 0 0 (Delayed.alike [2, 1] (Full.new (⟨[1, 2], by decide⟩ : Bytes))))
      (.leaf 1 1 hself))
  exact ⟨hversions.1, hversions.2.2.2.2⟩

end HttpBody
