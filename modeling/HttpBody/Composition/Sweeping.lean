import HttpBody.Composition.Alike
import HttpBody.Composition.Rewrapping
import HttpBody.Core.HeaderTable
import HttpBody.Support.Sweep

/-!
# Polling from left to right

The leaves of an expression are polled in the order in which they stand in it: the first
body of a chain before the second, a body before the future of its trailers, a future
before the body that it yields.  No combinator goes back to a leaf that it has passed, and
none polls a leaf twice in one call.
-/

namespace HttpBody

open Support
open scoped List

section Rules

variable [Foreign]

/-- However often `b` is polled, it sweeps over `ls`. -/
abbrev Body.Sweeps {B D E : Type} [Body B D E] (ls : List ℕ) (b : B) : Prop :=
  Support.Sweeps Body.pollFrame ls b

variable {A B D E E₁ E₂ F : Type} {la lb ls : List ℕ}

/-! ## Leaves -/

theorem Empty.sweeps (b : Empty D) : Body.Sweeps [] b :=
  .silent (fun _ => rfl) b

theorem Full.sweeps [Buf D] (b : Full D) : Body.Sweeps [] b :=
  .silent (fun _ => rfl) b

theorem Str.sweeps (s : Str) : Body.Sweeps [] s := by
  refine .silent (fun s => ?_) s
  by_cases hempty : s.isEmpty = true
  · simp [Body.pollFrame, hempty, Call.pure_def]
  · simp [Body.pollFrame, hempty, Call.pure_def]

theorem ErrorBody.sweeps (b : ErrorBody D E) : Body.Sweeps [] b := by
  refine .silent ?_ b
  rintro ⟨_ | error⟩ <;> rfl

theorem Pending.sweeps (b : Pending D E) : Body.Sweeps [] b :=
  .silent (fun _ => rfl) b

theorem Collected.sweeps [Buf D] (c : Collected D) : Body.Sweeps [] c := by
  refine .silent ?_ c
  rintro ⟨⟨_ | ⟨d, bufs⟩⟩, _ | map⟩ <;> rfl

/-! ## Chain -/

namespace Chain

variable [Body A D E₁] [Body B D E₂]

/-- The leaves ahead of a chain. -/
inductive Ahead : List ℕ → Chain A B → Prop where
  | first {la lb a b} : Body.Sweeps la a → Body.Sweeps lb b →
      Ahead (la ++ lb) (.first a (some b))
  | second {lb b} (ta : Option HeaderMap) : Body.Sweeps lb b → Ahead lb (.second b ta)
  | finished (ls : List ℕ) : Ahead ls .finished

variable [Into E₁ E₂]

theorem sweeps_second {b : B} (hb : Body.Sweeps lb b) (ta : Option HeaderMap) :
    Call.Sweeps Ahead lb (Body.pollFrame (.second b ta : Chain A B)) := by
  rw [← List.append_nil lb]
  refine (passes_second ta).sweeps hb (fun _ b _ _ hb => ?_) fun t x b lb' _ hb => .inl ?_
  · rw [List.append_nil]
    exact .second ta hb
  · rcases x with _ | (err | (d | map))
    · exact ⟨_, _, rfl, .finished _⟩
    · exact ⟨_, _, rfl, .finished _⟩
    · refine ⟨_, _, rfl, ?_⟩
      rw [List.append_nil]
      exact .second ta hb
    · exact ⟨_, _, rfl, .finished _⟩

theorem sweeps {a : A} {b : B} (ha : Body.Sweeps la a) (hb : Body.Sweeps lb b) :
    Body.Sweeps (la ++ lb) (Chain.new a b) := by
  refine ⟨Ahead, .first ha hb, fun ls c hc => ?_⟩
  cases hc with
  | first ha hb =>
      refine (passes_first (some _)).sweeps ha (fun _ a _ _ ha => .first ha hb) ?_
      intro t x a la' _ ha
      rcases x with _ | (err | (d | map))
      · exact .inr (sweeps_second hb none)
      · exact .inl ⟨_, _, rfl, .finished _⟩
      · exact .inl ⟨_, _, rfl, .first ha hb⟩
      · exact .inr (sweeps_second hb (some map))
  | second ta hb => exact sweeps_second hb ta
  | finished ls => exact .pure _ (.finished ls)

end Chain

/-! ## WithTrailers -/

namespace WithTrailers

variable [Body B D E] [Future F (Option (Except E HeaderMap))]

/-- The leaves ahead of a body with trailers. -/
inductive Ahead : List ℕ → WithTrailers B F → Prop where
  | pollBody {lb lf b f} : Body.Sweeps lb b → Support.Sweeps Future.poll lf f →
      Ahead (lb ++ lf) (.pollBody b (some f))
  | pollTrailers {lf f} (prev : Option HeaderMap) : Support.Sweeps Future.poll lf f →
      Ahead lf (.pollTrailers f prev)
  | done (ls : List ℕ) : Ahead ls .done

theorem sweeps_trailers {lf : List ℕ} {f : F} (hf : Support.Sweeps Future.poll lf f)
    (prev : Option HeaderMap) :
    Call.Sweeps Ahead lf (Body.pollFrame (.pollTrailers f prev : WithTrailers B F)) := by
  rw [← List.append_nil lf]
  refine (passes_trailers prev).sweeps hf (fun _ f _ _ hf => ?_) fun t x f lf' _ hf => .inl ?_
  · rw [List.append_nil]
    exact .pollTrailers prev hf
  · refine ⟨_, _, rfl, ?_⟩
    rw [List.append_nil]
    rcases x with _ | (err | map)
    · cases prev with
      | none => exact .pollTrailers none hf
      | some prev => exact .done _
    · exact .pollTrailers prev hf
    · cases prev with
      | none => exact .done _
      | some prev => exact .done _

theorem sweeps {lf : List ℕ} {b : B} {f : F} (hb : Body.Sweeps lb b)
    (hf : Support.Sweeps Future.poll lf f) : Body.Sweeps (lb ++ lf) (WithTrailers.new b f) := by
  refine ⟨Ahead, .pollBody hb hf, fun ls w hw => ?_⟩
  cases hw with
  | pollBody hb hf =>
      refine (passes_body (some _)).sweeps hb (fun _ b _ _ hb => .pollBody hb hf) ?_
      intro t x b lb' _ hb
      rcases x with _ | (err | (d | map))
      · exact .inr (sweeps_trailers hf none)
      · exact .inl ⟨_, _, rfl, .pollBody hb hf⟩
      · exact .inl ⟨_, _, rfl, .pollBody hb hf⟩
      · exact .inr (sweeps_trailers hf (some map))
  | pollTrailers prev hf => exact sweeps_trailers hf prev
  | done ls => exact .pure _ (.done ls)

end WithTrailers

/-! ## Fuse -/

namespace Fuse

variable [Body B D E]

/-- The leaves ahead of a fused body: of a dropped one there are none to poll. -/
inductive Ahead : List ℕ → Fuse B → Prop where
  | held {ls b} : Body.Sweeps ls b → Ahead ls ⟨some b⟩
  | fused (ls : List ℕ) : Ahead ls ⟨none⟩

theorem Ahead.drop {b : B} (hb : Body.Sweeps ls b) (drop : Bool) :
    Ahead ls (⟨if drop then none else some b⟩ : Fuse B) := by
  cases drop with
  | false => exact .held hb
  | true => exact .fused ls

theorem sweeps {b : B} (hb : Body.Sweeps ls b) : Body.Sweeps ls (Fuse.new b) := by
  refine ⟨Ahead, .drop hb _, fun ls w hw => ?_⟩
  cases hw with
  | held hb =>
      rw [← List.append_nil ls]
      refine passes.sweeps hb (fun _ b _ _ hb => ?_) fun t x b ls' _ hb => .inl ⟨_, _, rfl, ?_⟩
      · rw [List.append_nil]
        exact .held hb
      · rw [List.append_nil]
        exact .drop hb _
  | fused => exact .pure _ (.fused ls)

end Fuse

/-! ## TryFutureBody -/

namespace TryFutureBody

variable [Body B D E] [Future F (Except E₁ B)]

/-- The leaves ahead of a body that a future yields. -/
inductive Ahead : List ℕ → TryFutureBody F B → Prop where
  | future {lf lb f} : Support.Sweeps Future.poll lf f →
      (∀ b f', Awaits Future.Steps f (.ok b) f' → Body.Sweeps lb b) → Ahead (lf ++ lb) (.future f)
  | body {lb b} : Body.Sweeps lb b → Ahead lb (.body b)
  | failed (ls : List ℕ) : Ahead ls .failed

variable [Into E₁ E]

theorem sweeps_body {b : B} (hb : Body.Sweeps lb b) :
    Call.Sweeps Ahead lb (Body.pollFrame (.body b : TryFutureBody F B)) := by
  rw [← List.append_nil lb]
  refine (relays_body.passes ()).sweeps hb (fun _ b _ _ hb => ?_) fun t x b lb' _ hb =>
    .inl ⟨_, _, rfl, ?_⟩
  · rw [List.append_nil]
    exact .body hb
  · rw [List.append_nil]
    exact .body hb

theorem sweeps {lf : List ℕ} {f : F} (hf : Support.Sweeps Future.poll lf f)
    (hyields : ∀ (b : B) f', Awaits Future.Steps f (.ok b) f' → Body.Sweeps lb b) :
    Body.Sweeps (lf ++ lb) (TryFutureBody.new f : TryFutureBody F B) := by
  refine ⟨Ahead, .future hf hyields, fun ls w hw => ?_⟩
  cases hw with
  | future hf hyields =>
      refine passes_future.sweeps hf (fun t f' lf' hpoll hf => ?_) fun t x f' lf' hpoll hf => ?_
      · exact .future hf fun b f'' hawait => hyields b f'' (.pending hpoll hawait)
      · rcases x with err | b
        · exact .inl ⟨_, _, rfl, .failed _⟩
        · exact .inr (sweeps_body (hyields b f' (.ready hpoll)))
  | body hb => exact sweeps_body hb
  | failed ls => exact .pure _ (.failed ls)

end TryFutureBody

end Rules

/-! ## Expressions -/

section Expressions

variable [Foreign]

/-- `Laid b ls`: the body `b` is an expression over observed bodies and futures, and `ls`
are their leaves from left to right. -/
inductive Laid : ∀ {B D E : Type} [Buf D] [Body B D E], B → List ℕ → Prop where
  | probe {B D E : Type} [Buf D] [Body B D E] (leaf : ℕ) (b : B) :
      Laid (⟨leaf, b⟩ : Probe B) [leaf]
  | empty (D : Type) [Buf D] : Laid (Empty.new D) []
  | full {D : Type} [Buf D] (data : D) : Laid (Full.new data) []
  | string (s : Str) : Laid s []
  | errorBody (D : Type) {E : Type} [Buf D] (error : E) : Laid (ErrorBody.new D error) []
  | pending (D E : Type) [Buf D] : Laid (Pending.new D E) []
  | collected {D : Type} [Buf D] (collected : Collected D) : Laid collected []
  | chain {A B D E₁ E₂ : Type} [Buf D] [Body A D E₁] [Body B D E₂] [Into E₁ E₂] {a : A} {b : B}
      {la lb : List ℕ} : Laid a la → Laid b lb → Laid (Chain.new a b) (la ++ lb)
  | withTrailers {B F D E : Type} [Buf D] [Body B D E] [Future F (Option (Except E HeaderMap))]
      {b : B} {ls : List ℕ} (leaf : ℕ) (f : F) : Laid b ls →
      Laid (WithTrailers.new b (⟨leaf, f⟩ : Probe F)) (ls ++ [leaf])
  | limited {B D E : Type} [Buf D] [Body B D E] [Into E BoxError] {b : B} {ls : List ℕ}
      (limit : ℕ) : Laid b ls → Laid (Limited.new b limit) ls
  | fuse {B D E : Type} [Buf D] [Body B D E] {b : B} {ls : List ℕ} :
      Laid b ls → Laid (Fuse.new b) ls
  | mapFrame {B F D D' E : Type} [Buf D] [Buf D'] [Body B D E] [FnMut F (Frame D) (Frame D')]
      {b : B} {ls : List ℕ} (f : F) : Laid b ls → Laid (MapFrame.new b f) ls
  | mapErr {B F D E E' : Type} [Buf D] [Body B D E] [FnMut F E E'] {b : B} {ls : List ℕ} (f : F) :
      Laid b ls → Laid (MapErr.new b f) ls
  | inspectFrame {B F D E : Type} [Buf D] [Body B D E] [FnMut F (Frame D) Unit] {b : B}
      {ls : List ℕ} (f : F) : Laid b ls → Laid (InspectFrame.new b f) ls
  | inspectErr {B F D E : Type} [Buf D] [Body B D E] [FnMut F E Unit] {b : B} {ls : List ℕ}
      (f : F) : Laid b ls → Laid (InspectErr.new b f) ls
  | left {L D E₁ E₂ : Type} (R : Type) [Buf D] [Body L D E₁] [Body R D E₂]
      [Into E₁ BoxError] [Into E₂ BoxError] {l : L} {ls : List ℕ} :
      Laid l ls → Laid (Either.left l : Either L R) ls
  | right {R D E₁ E₂ : Type} (L : Type) [Buf D] [Body L D E₁] [Body R D E₂]
      [Into E₁ BoxError] [Into E₂ BoxError] {r : R} {ls : List ℕ} :
      Laid r ls → Laid (Either.right r : Either L R) ls
  | tryFuture {F B D E E₁ : Type} [Buf D] [Body B D E] [Future F (Except E₁ B)] [Into E₁ E]
      {ls : List ℕ} (leaf : ℕ) (f : F) :
      (∀ (b : B) f', Awaits Future.Steps f (.ok b) f' → Laid b ls) →
      Laid (TryFutureBody.new ⟨leaf, f⟩ : TryFutureBody (Probe F) B) (leaf :: ls)
  | held {W B D E : Type} [Buf D] [Body W D E] [Body B D E] {w : W} {b : B} {ls : List ℕ} :
      Holds w b → Laid b ls → Laid w ls
  | bodyStream {B D E : Type} [Buf D] [Body B D E] {b : B} {ls : List ℕ} :
      Laid b ls → Laid (BodyStream.new b) ls

variable {B D E : Type} [Buf D] [Body B D E] {b : B} {ls : List ℕ}

theorem Laid.sweeps (h : Laid b ls) : Body.Sweeps ls b := by
  induction h with
  | probe leaf b => exact .of_leaf Probe.ofLeaf (⟨leaf, b⟩ : Probe _)
  | empty D => exact Empty.sweeps _
  | full data => exact Full.sweeps _
  | string s => exact Str.sweeps s
  | errorBody D error => exact ErrorBody.sweeps _
  | pending D E => exact Pending.sweeps _
  | collected c => exact Collected.sweeps c
  | chain _ _ iha ihb => exact Chain.sweeps iha ihb
  | withTrailers leaf f _ ih =>
      exact WithTrailers.sweeps ih (.of_leaf Probe.future_ofLeaf ⟨leaf, f⟩)
  | limited limit _ ih => exact Limited.relays.sweeps ih limit
  | fuse _ ih => exact Fuse.sweeps ih
  | mapFrame f _ ih => exact MapFrame.relays.sweeps ih f
  | mapErr f _ ih => exact MapErr.relays.sweeps ih f
  | inspectFrame f _ ih => exact InspectFrame.relays.sweeps ih f
  | inspectErr f _ ih => exact InspectErr.relays.sweeps ih f
  | left R _ ih => exact Either.relays_left.sweeps ih ()
  | right L _ ih => exact Either.relays_right.sweeps ih ()
  | tryFuture leaf f _ ih =>
      refine TryFutureBody.sweeps (.of_leaf Probe.future_ofLeaf ⟨leaf, f⟩) fun b f' hawait => ?_
      obtain ⟨f'', hinner, -⟩ := Probe.future_awaits_iff.mp hawait
      exact ih b f'' hinner
  | held hw _ ih => exact .of_indistinct (Indistinct.symm hw.same) ih
  | bodyStream _ ih => exact BodyStream.relays.sweeps ih ()

omit [Buf D] in
theorem BodyDataStream.sweeps (hb : Body.Sweeps ls b) :
    Support.Sweeps (BodyDataStream.turn (B := B)) ls (BodyDataStream.new b) :=
  BodyDataStream.relays.sweeps hb ()

theorem Collect.sweeps (hb : Body.Sweeps ls b) :
    Support.Sweeps (Collect.turn (T := B)) ls (Collect.new b) := by
  refine ⟨fun ls me => Body.Sweeps ls me.body, hb, ?_⟩
  rintro ls ⟨collected, b⟩ hb
  rw [← List.append_nil ls]
  refine (Collect.passes collected).sweeps hb (fun _ b _ _ hb => ?_) fun t x b ls' _ hb' => ?_
  · rwa [List.append_nil]
  · rw [List.append_nil]
    rcases x with _ | (err | frame)
    · cases collected with
      | none => exact .inr (.stops (List.Sublist.refl []))
      | some collected => exact .inl ⟨_, _, rfl, hb'⟩
    · exact .inl ⟨_, _, rfl, hb'⟩
    · cases collected with
      | none => exact .inr (.stops (List.Sublist.refl []))
      | some collected =>
          simp only [Collect.afterBody, Call.unwrap_some_bind]
          cases collected.pushFrame frame with
          | error stop => exact .inr (.stops (List.Sublist.refl []))
          | ok collected' => exact .inl ⟨_, _, rfl, hb'⟩

/-- However long an expression is polled, its leaves are polled from left to right: the
next call, even if it panics, polls each of them at most once, and none that was passed;
and a run polls no more leaves than it has calls and leaves.  The consumers keep to the
order as well. -/
theorem polled_in_order (h : Laid b ls) :
    (∀ {t rs b'}, TracedRuns Body.Steps b t rs b' →
      leaves (Body.pollFrame b').trace <+ ls ∧
        InOrder ls (leaves t ++ leaves (Body.pollFrame b').trace) ∧
        t.length ≤ rs.length + ls.length) ∧
      (∀ {t rs s}, TracedRuns BodyDataStream.Steps (BodyDataStream.new b) t rs s →
        InOrder ls (leaves t)) ∧
      ∀ {t rs me}, TracedRuns Collect.Steps (Collect.new b : Collect B D) t rs me →
        InOrder ls (leaves t) := by
  refine ⟨fun hrun => h.sweeps.next hrun, fun hrun => ?_, fun hrun => ?_⟩
  · obtain ⟨qs, hturns⟩ := hrun.turns
    exact (BodyDataStream.sweeps h.sweeps).inOrder hturns
  · obtain ⟨qs, hturns⟩ := hrun.turns
    exact (Collect.sweeps h.sweeps).inOrder hturns

end Expressions

/-- Two observed chunks in a chain, within a limit, after the first chunk. -/
theorem polled_in_order_chain :
    leaves (Body.pollFrame (⟨2, .first ⟨0, ⟨none⟩⟩ (some ⟨1, Full.new ⟨[2], by decide⟩⟩)⟩ :
        Limited (Chain (Probe (Full Bytes)) (Probe (Full Bytes))))).trace <+ [0, 1] ∧
      InOrder [0, 1] ([0] ++
        leaves (Body.pollFrame (⟨2, .first ⟨0, ⟨none⟩⟩ (some ⟨1, Full.new ⟨[2], by decide⟩⟩)⟩ :
          Limited (Chain (Probe (Full Bytes)) (Probe (Full Bytes))))).trace) := by
  have hrun : TracedRuns Body.Steps
      (Limited.new (Chain.new (⟨0, Full.new ⟨[1], by decide⟩⟩ : Probe (Full Bytes))
        (⟨1, Full.new ⟨[2], by decide⟩⟩ : Probe (Full Bytes))) 3)
      [⟨0, .ready false⟩] [.ready (.data ⟨[1], by decide⟩)]
      ⟨2, .first ⟨0, ⟨none⟩⟩ (some ⟨1, Full.new ⟨[2], by decide⟩⟩)⟩ := .single rfl
  obtain ⟨honce, horder, -⟩ :=
    (polled_in_order (.limited 3 (.chain (.probe 0 _) (.probe 1 _)))).1 hrun
  exact ⟨honce, horder⟩

end HttpBody
