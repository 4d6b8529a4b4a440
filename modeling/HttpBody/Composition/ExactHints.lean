import HttpBody.Composition.Rewrapping
import HttpBody.SizeHint.Addition
import HttpBody.Support.Owing

/-!
# Exact size hints

The length of an expression over `Empty`, `Full`, `String` and bodies of the user with exact
hints is known before it is polled, if it stays within its limits and its data fits a
`u64`.  Its size hint is exact then, in every build, and is kept so by every data frame.
-/

namespace HttpBody

open Support

section Definitions

variable [Foreign] {B D E : Type} [Buf D]

/-- An answer pays the bytes of its data. -/
def Item.share : Item D E → Share
  | .data d => .item (Buf.remaining d)
  | none => .done
  | .trailers _ => .done
  | .error _ => .failed

theorem Item.Ends.share {x : Item D E} {ta : Option HeaderMap} (h : Item.Ends x ta) :
    x.share = .done := by
  cases h <;> rfl

variable [Body B D E]

/-- What `b` says when `n` bytes are to come: its hint says it if `told`, and it is at its
end only if they are none. -/
structure Body.Tells (n : ℕ) (told : Bool) (b : B) : Prop where
  hint : told = true → ∀ ar, Body.sizeHint ar b = .ok (.withExact n)
  ended : Body.isEndStream b = true → n = 0

omit [Buf D] in
theorem Body.Tells.of_hints {W E' : Type} [Body W D E'] {b : B} {w : W} {n : ℕ} {told : Bool}
    (h : Body.Tells n told b) (hhints : Body.hints w = Body.hints b) : Body.Tells n told w := by
  have hend : Body.isEndStream w = Body.isEndStream b := congrArg Prod.fst hhints
  refine ⟨fun htold ar => ?_, fun hw => h.ended (hend ▸ hw)⟩
  exact (congrFun (congrArg Prod.snd hhints) ar).trans (h.hint htold ar)

/-- Exactly `n` bytes are to come from `b`, unless it fails, and its size hint is exact:
at first if `told`, and after every data frame. -/
def Body.Announces (n : ℕ) (told : Bool) (b : B) : Prop :=
  Owes Body.pollFrame Item.share Body.Tells n told b

namespace Body.Announces

variable {b b' : B} {n : ℕ} {told : Bool} {t : List Event}

theorem pending (h : Body.Announces n told b) (hstep : Body.Steps b t .pending b') :
    ∃ told', Body.Announces n told' b' := by
  cases h.step hstep with
  | pending told' hnext => exact ⟨told', hnext⟩

theorem data {d : D} (h : Body.Announces n told b)
    (hstep : Body.Steps b t (.ready (.data d)) b') :
    ∃ k, n = Buf.remaining d + k ∧ Body.Announces k true b' := by
  cases h.step hstep with
  | item hd hn hnext =>
      cases hd
      exact ⟨_, hn, hnext⟩
  | done hd _ => cases hd
  | failed hd => cases hd

theorem ends {x : Item D E} {ta : Option HeaderMap} (h : Body.Announces n told b)
    (hstep : Body.Steps b t (.ready x) b') (hx : Item.Ends x ta) : n = 0 := by
  cases hx with
  | finish =>
      cases h.step hstep with
      | item hd _ _ => cases hd
      | done _ hn => exact hn
      | failed hd => cases hd
  | trailers map =>
      cases h.step hstep with
      | item hd _ _ => cases hd
      | done _ hn => exact hn
      | failed hd => cases hd

end Body.Announces

end Definitions

section Rules

variable [Foreign] {A B D E E' E₁ E₂ F : Type} [Buf D]

/-! ## Leaves -/

theorem Empty.announces (b : Empty D) : Body.Announces 0 true b := by
  refine ⟨fun n _ _ => n = 0, rfl, ?_, ?_⟩
  · rintro n told b rfl
    exact ⟨fun _ _ => rfl, fun _ => rfl⟩
  · rintro n told b rfl t r b' hstep
    cases hstep
    exact .done rfl rfl

/-- The bytes that a single chunk still has to give. -/
def Full.length (b : Full D) : ℕ := (b.data.map Buf.remaining).getD 0

theorem Full.announces (b : Full D) : Body.Announces b.length true b := by
  refine ⟨fun n _ b => n = b.length, rfl, ?_, ?_⟩
  · rintro n told ⟨_ | data⟩ rfl
    · exact ⟨fun _ _ => rfl, fun _ => rfl⟩
    · have hlt := Buf.remaining_lt data
      refine ⟨fun _ ar => ?_, fun hend => by cases hend⟩
      simp [Body.sizeHint, u64TryFrom, hlt, length]
  · rintro n told ⟨_ | data⟩ rfl t r b' hstep
    · cases hstep
      exact .done rfl rfl
    · cases hstep
      exact .item rfl (Nat.add_zero _).symm rfl

theorem Str.announces (s : Str) : Body.Announces s.val.utf8ByteSize true s := by
  refine ⟨fun n _ s => n = s.val.utf8ByteSize, rfl, ?_, ?_⟩
  · rintro n told s rfl
    have hmod : s.val.utf8ByteSize % wordSize = s.val.utf8ByteSize := Nat.mod_eq_of_lt s.len_lt
    refine ⟨fun _ _ => congrArg (fun n => Except.ok (SizeHint.withExact n)) hmod, fun hend => ?_⟩
    simpa [Body.isEndStream, isEmpty] using hend
  · rintro n told s rfl t r b' hstep
    by_cases hempty : s.isEmpty = true
    · have hzero : s.val.utf8ByteSize = 0 := by
        simpa [isEmpty] using hempty
      have hcall : Body.pollFrame s = ⟨[], .ok (.ready none, s)⟩ := by
        simp [Body.pollFrame, hempty, Call.pure_def]
      obtain ⟨-, rfl, rfl⟩ := Call.steps_functional _ hstep hcall
      exact .done rfl hzero
    · have hcall : Body.pollFrame s = ⟨[], .ok (.ready (.data s.intoBytes), empty)⟩ := by
        simp [Body.pollFrame, hempty, Call.pure_def]
      obtain ⟨-, rfl, rfl⟩ := Call.steps_functional _ hstep hcall
      have hrest : 0 = empty.val.utf8ByteSize := rfl
      exact .item rfl (by simp [Buf.remaining, intoBytes]) hrest

/-! ## Chain -/

namespace Chain

variable [Body A D E₁] [Body B D E₂]

/-- What a chain still has to give. -/
def Owing (n : ℕ) (told : Bool) : Chain A B → Prop
  | .first a (some b) => ∃ i j, n = i + j ∧ n < wordSize ∧ Body.Announces i told a ∧
      Body.Announces j true b
  | .first _ none => False
  | .second b _ => Body.Announces n told b
  | .finished => n = 0

theorem pays_second [Into E₁ E₂] {b : B} {ta : Option HeaderMap} {n : ℕ} {told : Bool}
    (hb : Body.Announces n told b) {t : List Event} {r : PollFrame D E₂} {c : Chain A B}
    (hstep : Step (.second b ta) t r c) : Pays Item.share Owing n r c := by
  cases hstep with
  | secondPending hpoll =>
      obtain ⟨told', hnext⟩ := hb.pending hpoll
      exact .pending told' hnext
  | secondData hpoll =>
      obtain ⟨k, hn, hnext⟩ := hb.data hpoll
      exact .item rfl hn hnext
  | secondError hpoll => exact .failed rfl
  | secondEnds hpoll hx => exact .done (Item.Ends.ofTrailers _).share (hb.ends hpoll hx)

theorem announces [Into E₁ E₂] {a : A} {b : B} {n m : ℕ} {told : Bool}
    (ha : Body.Announces n told a) (hb : Body.Announces m true b) (hlt : n + m < wordSize) :
    Body.Announces (n + m) told (Chain.new a b) := by
  refine ⟨Owing, ⟨n, m, rfl, hlt, ha, hb⟩, ?_, ?_⟩
  · rintro n told (⟨a, _ | b⟩ | ⟨b, ta⟩ | _) hc
    · exact hc.elim
    · obtain ⟨i, j, rfl, hlt, ha, hb⟩ := hc
      refine ⟨fun htold ar => ?_, fun hend => by cases hend⟩
      have hfits : (SizeHint.withExact i).Fits (.withExact j) :=
        ⟨hlt, by rintro _ _ ⟨⟩ ⟨⟩; exact hlt⟩
      change (Body.sizeHint ar a >>= fun x => Body.sizeHint ar b >>= fun y =>
        SizeHint.add ar x y) = _
      rw [ha.here.hint htold ar, hb.here.hint rfl ar]
      exact hfits.add_eq ar
    · exact ⟨fun htold => hc.here.hint htold, fun hend => by cases hend⟩
    · subst hc
      exact ⟨fun _ _ => rfl, fun _ => rfl⟩
  · rintro n told (⟨a, _ | b⟩ | ⟨b, ta⟩ | _) hc t r c hstep
    · exact hc.elim
    · obtain ⟨i, j, rfl, hlt, ha, hb⟩ := hc
      cases step_of_steps (by trivial) hstep with
      | firstPending hpoll =>
          obtain ⟨told', hnext⟩ := ha.pending hpoll
          exact .pending told' ⟨i, j, rfl, hlt, hnext, hb⟩
      | firstData hpoll =>
          obtain ⟨k, rfl, hnext⟩ := ha.data hpoll
          exact .item rfl (by omega) ⟨k, j, rfl, by omega, hnext, hb⟩
      | firstError hpoll => exact .failed rfl
      | handOver hpoll hx hnext =>
          obtain rfl := ha.ends hpoll hx
          rw [Nat.zero_add]
          exact pays_second hb hnext
    · exact pays_second hc (step_of_steps (by trivial) hstep)
    · cases step_of_steps (by trivial) hstep
      exact .done rfl hc

end Chain

/-! ## WithTrailers -/

namespace WithTrailers

variable [Body B D E] [Future F (Option (Except E HeaderMap))]

/-- What a body with trailers still has to give: nothing, and no hint, once its trailers
are waited for. -/
def Owing (n : ℕ) (told : Bool) : WithTrailers B F → Prop
  | .pollBody b (some _) => Body.Announces n told b
  | .pollBody _ none => False
  | .pollTrailers _ _ => n = 0 ∧ told = false
  | .done => n = 0 ∧ told = false

theorem pays_trailers {f : F} {prev : Option HeaderMap} {t : List Event} {r : PollFrame D E}
    {w : WithTrailers B F} (hstep : Step (.pollTrailers f prev) t r w) :
    Pays Item.share Owing 0 r w := by
  cases hstep with
  | futurePending hpoll => exact .pending false ⟨rfl, rfl⟩
  | @futureReady _ _ _ x _ hpoll =>
      rcases x with _ | (err | map)
      · cases prev with
        | none => exact .done rfl rfl
        | some prev => exact .done rfl rfl
      · exact .failed rfl
      · cases prev with
        | none => exact .done rfl rfl
        | some prev => exact .done rfl rfl

theorem announces {b : B} {n : ℕ} {told : Bool} (hb : Body.Announces n told b) (f : F) :
    Body.Announces n told (WithTrailers.new b f) := by
  refine ⟨Owing, hb, ?_, ?_⟩
  · rintro n told (⟨b, _ | f⟩ | ⟨f, prev⟩ | _) hw
    · exact hw.elim
    · exact ⟨fun htold => hw.here.hint htold, fun hend => by cases hend⟩
    · refine ⟨fun htold => ?_, fun _ => hw.1⟩
      cases hw.2.symm.trans htold
    · refine ⟨fun htold => ?_, fun _ => hw.1⟩
      cases hw.2.symm.trans htold
  · rintro n told (⟨b, _ | f⟩ | ⟨f, prev⟩ | _) hw t r w hstep
    · exact hw.elim
    · cases step_of_steps (by trivial) hstep with
      | bodyPending hpoll =>
          obtain ⟨told', hnext⟩ := Body.Announces.pending hw hpoll
          exact .pending told' hnext
      | bodyData hpoll =>
          obtain ⟨k, hn, hnext⟩ := Body.Announces.data hw hpoll
          exact .item rfl hn hnext
      | bodyError hpoll => exact .failed rfl
      | bodyEnds hpoll hx hnext =>
          obtain rfl := Body.Announces.ends hw hpoll hx
          exact pays_trailers hnext
    · obtain ⟨rfl, -⟩ := hw
      exact pays_trailers (step_of_steps (by trivial) hstep)
    · cases step_of_steps (by trivial) hstep
      exact .done rfl hw.1

end WithTrailers

/-! ## Fuse -/

namespace Fuse

variable [Body B D E]

/-- What a fused body still has to give. -/
def Owing (n : ℕ) (told : Bool) : Fuse B → Prop
  | ⟨some b⟩ => Body.Announces n told b
  | ⟨none⟩ => n = 0

/-- An inner body is only dropped when it owes nothing. -/
theorem owing_drop {b : B} {n : ℕ} {told : Bool} (hb : Body.Announces n told b) :
    Owing n told (⟨if Body.isEndStream b then none else some b⟩ : Fuse B) := by
  by_cases hend : Body.isEndStream b = true
  · rw [if_pos hend]
    exact hb.here.ended hend
  · rw [if_neg hend]
    exact hb

theorem announces {b : B} {n : ℕ} {told : Bool} (hb : Body.Announces n told b) :
    Body.Announces n told (Fuse.new b) := by
  refine ⟨Owing, owing_drop hb, ?_, ?_⟩
  · rintro n told ⟨_ | b⟩ hw
    · subst hw
      exact ⟨fun _ _ => rfl, fun _ => rfl⟩
    · exact ⟨fun htold => hw.here.hint htold, fun hend => by cases hend⟩
  · rintro n told w hw t r w' hstep
    rcases steps_iff.mp hstep with @⟨b, _, _, b', hpoll⟩ | _
    · have hb : Body.Announces n told b := hw
      rcases r with _ | (_ | (err | (d | map)))
      · obtain ⟨told', hnext⟩ := hb.pending hpoll
        exact .pending told' hnext
      · exact .done rfl (hb.ends hpoll .finish)
      · exact .failed rfl
      · obtain ⟨k, hn, hnext⟩ := hb.data hpoll
        exact .item rfl hn (owing_drop hnext)
      · exact .done rfl (hb.ends hpoll (.trailers map))
    · exact .done rfl hw

end Fuse

/-! ## TryFutureBody -/

namespace TryFutureBody

variable [Body B D E] [Future F (Except E₁ B)] [Into E₁ E]

/-- What the body of a future still has to give: until it is there, no hint. -/
def Owing (n : ℕ) (told : Bool) : TryFutureBody F B → Prop
  | .future f => told = false ∧
      ∀ (b : B) f', Awaits Future.Steps f (.ok b) f' → Body.Announces n true b
  | .body b => Body.Announces n told b
  | .failed => n = 0

omit [Into E₁ E] in
theorem pays_body {b b' : B} {n : ℕ} {told : Bool} (hb : Body.Announces n told b)
    {t : List Event} {r : PollFrame D E} (hstep : Body.Steps b t r b') :
    Pays Item.share Owing n r (.body b' : TryFutureBody F B) :=
  .map (Q := Body.Announces) (fun _ _ hnext => hnext) (hb.step hstep)

theorem announces {f : F} {n : ℕ}
    (hf : ∀ (b : B) f', Awaits Future.Steps f (.ok b) f' → Body.Announces n true b) :
    Body.Announces n false (TryFutureBody.new f : TryFutureBody F B) := by
  refine ⟨Owing, ⟨rfl, hf⟩, ?_, ?_⟩
  · rintro n told (f | b | _) hw
    · refine ⟨fun htold => ?_, fun hend => by cases hend⟩
      cases hw.1.symm.trans htold
    · exact ⟨fun htold => hw.here.hint htold, fun hend => hw.here.ended hend⟩
    · subst hw
      exact ⟨fun _ _ => rfl, fun _ => rfl⟩
  · rintro n told w hw t r w' hstep
    cases steps_iff.mp hstep with
    | futurePending hpoll =>
        refine .pending false ⟨rfl, fun b f' hawait => ?_⟩
        exact hw.2 b f' (.pending hpoll hawait)
    | futureError hpoll => exact .failed rfl
    | futureBody hpoll hbody => exact pays_body (hw.2 _ _ (.ready hpoll)) hbody
    | body hbody => exact pays_body hw hbody
    | failed => exact .done rfl hw

end TryFutureBody

/-! ## Relays -/

section Relays

variable {W S : Type} [Body B D E] [Body W D E'] {mk : S → B → W}
  {f : S → Item D E → Item D E' × S}

omit [Body B D E] [Body W D E'] in
theorem KeepsFrames.share (hf : KeepsFrames f) (s : S) (x : Item D E) :
    (f s x).1.share = x.share := by
  rcases x with _ | (err | frame)
  · rw [hf.finish]
    rfl
  · obtain ⟨err', herr'⟩ := hf.error s err
    rw [herr']
    rfl
  · rw [hf.ok]
    cases frame <;> rfl

/-- The rule for relays that change nothing but errors and forward both hints. -/
theorem Body.Announces.relay (h : Relays (Body.pollFrame (B := B)) (Body.pollFrame (B := W)) mk f)
    (hf : KeepsFrames f) (hhints : ∀ s b, Body.hints (mk s b) = Body.hints b) {b : B} {n : ℕ}
    {told : Bool} (hb : Body.Announces n told b) (s : S) : Body.Announces n told (mk s b) := by
  refine Owes.relay h (fun _ _ => True) (fun s x m k _ hx => ?_) (fun s x hx => ?_)
    (fun s x hx => ?_) (fun s n told b _ hb => ?_) hb trivial
  · exact ⟨(hf.share s x).trans hx, trivial⟩
  · exact (hf.share s x).trans hx
  · exact (hf.share s x).trans hx
  · exact hb.of_hints (hhints s b)

omit [Foreign] in
theorem Limited.clamp_withExact {remaining n : ℕ} (h : n ≤ remaining) :
    clamp remaining (.withExact n) = .withExact n := by
  by_cases hlt : remaining < wordSize
  · by_cases hle : remaining ≤ n
    · obtain rfl := Nat.le_antisymm h hle
      exact clamp_of_le hlt (Nat.le_refl n)
    · rw [clamp_of_lt hlt (Nat.lt_of_not_le hle)]
      simp [available, SizeHint.withExact, Nat.min_eq_right h]
  · exact clamp_of_big hlt

/-- A limit that is not reached changes nothing. -/
theorem Limited.announces [Into E BoxError] {b : B} {n limit : ℕ} {told : Bool}
    (hle : n ≤ limit) (hb : Body.Announces n told b) :
    Body.Announces n told (Limited.new b limit) := by
  refine Owes.relay relays (fun remaining n => n ≤ remaining) (fun remaining x m k hle hx => ?_)
    (fun remaining x hx => ?_) (fun remaining x hx => ?_) (fun remaining n told b hle hb => ?_) hb
    hle
  · rcases x with _ | (err | (d | map))
    · cases hx
    · cases hx
    · cases hx
      have hfits : ¬ remaining < Buf.remaining d := by omega
      simp only [onReady, if_neg hfits]
      exact ⟨rfl, by omega⟩
    · cases hx
  · rcases x with _ | (err | (d | map))
    · rfl
    · cases hx
    · cases hx
    · rfl
  · rcases x with _ | (err | (d | map))
    · cases hx
    · rfl
    · cases hx
    · cases hx
  · refine ⟨fun htold ar => ?_, hb.ended⟩
    rw [← clamp_withExact hle]
    exact sizeHint_clamp (hb.hint htold ar) (SizeHint.wellFormed_withExact n) remaining

end Relays

end Rules

/-! ## Expressions -/

section Expressions

variable [Foreign]

/-- `Sized b n told`: the body `b` is an expression of `n` bytes, over leaves that know
their length, within its limits.  Its hint is exact from the start if `told`, and else once
the future that yields it has resolved. -/
inductive Sized : ∀ {B D E : Type} [Buf D] [Body B D E], B → ℕ → Bool → Prop where
  | user {B D E : Type} [Buf D] [Body B D E] {b : B} {n : ℕ} :
      Body.Announces n true b → Sized b n true
  | empty (D : Type) [Buf D] : Sized (Empty.new D) 0 true
  | full {D : Type} [Buf D] (data : D) : Sized (Full.new data) (Full.new data).length true
  | string (s : Str) : Sized s s.val.utf8ByteSize true
  | chain {A B D E₁ E₂ : Type} [Buf D] [Body A D E₁] [Body B D E₂] [Into E₁ E₂] {a : A} {b : B}
      {n m : ℕ} {told : Bool} : Sized a n told → Sized b m true →
      Sized (Chain.new a b) (n + m) told
  | withTrailers {B F D E : Type} [Buf D] [Body B D E] [Future F (Option (Except E HeaderMap))]
      {b : B} {n : ℕ} {told : Bool} (f : F) : Sized b n told →
      Sized (WithTrailers.new b f) n told
  | limited {B D E : Type} [Buf D] [Body B D E] [Into E BoxError] {b : B} {n limit : ℕ}
      {told : Bool} : n ≤ limit → Sized b n told → Sized (Limited.new b limit) n told
  | fuse {B D E : Type} [Buf D] [Body B D E] {b : B} {n : ℕ} {told : Bool} :
      Sized b n told → Sized (Fuse.new b) n told
  | mapErr {B F D E E' : Type} [Buf D] [Body B D E] [FnMut F E E'] {b : B} {n : ℕ} {told : Bool}
      (f : F) : Sized b n told → Sized (MapErr.new b f) n told
  | inspectFrame {B F D E : Type} [Buf D] [Body B D E] [FnMut F (Frame D) Unit] {b : B} {n : ℕ}
      {told : Bool} (f : F) : Sized b n told → Sized (InspectFrame.new b f) n told
  | inspectErr {B F D E : Type} [Buf D] [Body B D E] [FnMut F E Unit] {b : B} {n : ℕ}
      {told : Bool} (f : F) : Sized b n told → Sized (InspectErr.new b f) n told
  | left {L D E₁ E₂ : Type} (R : Type) [Buf D] [Body L D E₁] [Body R D E₂] [Into E₁ BoxError]
      [Into E₂ BoxError] {l : L} {n : ℕ} {told : Bool} : Sized l n told →
      Sized (Either.left l : Either L R) n told
  | right {R D E₁ E₂ : Type} (L : Type) [Buf D] [Body L D E₁] [Body R D E₂] [Into E₁ BoxError]
      [Into E₂ BoxError] {r : R} {n : ℕ} {told : Bool} : Sized r n told →
      Sized (Either.right r : Either L R) n told
  | tryFuture {F B D E E₁ : Type} [Buf D] [Body B D E] [Future F (Except E₁ B)] [Into E₁ E]
      {f : F} {n : ℕ} : (∀ (b : B) f', Awaits Future.Steps f (.ok b) f' → Sized b n true) →
      Sized (TryFutureBody.new f : TryFutureBody F B) n false
  | held {W B D E : Type} [Buf D] [Body W D E] [Body B D E] {w : W} {b : B} {n : ℕ}
      {told : Bool} : Holds w b → Sized b n told → Sized w n told

variable {B D E : Type} [Buf D] [Body B D E] {b : B} {n : ℕ} {told : Bool}

theorem Sized.announces (h : Sized b n told) (hn : n < wordSize) : Body.Announces n told b := by
  induction h with
  | user hb => exact hb
  | empty D => exact Empty.announces _
  | full data => exact Full.announces _
  | string s => exact Str.announces s
  | chain _ _ iha ihb => exact Chain.announces (iha (by omega)) (ihb (by omega)) hn
  | withTrailers f _ ih => exact WithTrailers.announces (ih hn) f
  | limited hle _ ih => exact Limited.announces hle (ih hn)
  | fuse _ ih => exact Fuse.announces (ih hn)
  | mapErr f _ ih => exact .relay MapErr.relays MapErr.keepsFrames (fun _ _ => rfl) (ih hn) f
  | inspectFrame f _ ih =>
      exact .relay InspectFrame.relays InspectFrame.keepsFrames (fun _ _ => rfl) (ih hn) f
  | inspectErr f _ ih =>
      exact .relay InspectErr.relays InspectErr.keepsFrames (fun _ _ => rfl) (ih hn) f
  | left R _ ih =>
      exact .relay Either.relays_left intoErr_keepsFrames (fun _ _ => rfl) (ih hn) ()
  | right L _ ih =>
      exact .relay Either.relays_right intoErr_keepsFrames (fun _ _ => rfl) (ih hn) ()
  | tryFuture _ ih => exact TryFutureBody.announces fun b f' hawait => ih b f' hawait hn
  | held hw _ ih =>
      exact .of_indistinct (Indistinct.symm hw.same)
        (fun n told b w hhints hb => hb.of_hints hhints.symm) (ih hn)

theorem paid_share (rs : List (PollFrame D E)) : paid Item.share rs = dataTotal rs := by
  induction rs with
  | nil => rfl
  | cons r rs ih =>
      rcases r with _ | x
      · rw [dataTotal_cons, ← ih, dataLen_pending, Nat.zero_add]
        rfl
      · rw [dataTotal_cons, ← ih]
        rcases x with _ | (err | (d | map)) <;> rfl

/-- The size hint of such an expression is exact: at first, unless it waits for its future,
and after every data frame, in every build.  The bytes that it tells then come, all of
them, unless the body fails; and before they have come it does not say that it is at its
end. -/
theorem sizeHint_exact (h : Sized b n told) (hn : n < wordSize) :
    (told = true → ∀ ar, Body.sizeHint ar b = .ok (.withExact n)) ∧
      ∀ {rs b₁}, Runs Body.Steps b rs b₁ → (∀ r ∈ rs, Item.InProgress r) →
        (Body.isEndStream b₁ = true → dataTotal rs = n) ∧
        (∀ {t d b'}, Body.Steps b₁ t (.ready (.data d)) b' →
          ∃ k, n = dataTotal rs + Buf.remaining d + k ∧
            ∀ ar, Body.sizeHint ar b' = .ok (.withExact k)) ∧
        ∀ {t x ta b'}, Body.Steps b₁ t (.ready x) b' → Item.Ends x ta → dataTotal rs = n := by
  have hb := h.announces hn
  refine ⟨hb.here.hint, fun {rs b₁} hrun hrs => ?_⟩
  have hitems : ∀ x : Item D E, .ready x ∈ rs → ∃ m, x.share = .item m := by
    intro x hx
    cases hrs _ hx with
    | data d => exact ⟨_, rfl⟩
  obtain ⟨k, told', htotal, hlast⟩ := hb.runs hrun hitems
  rw [paid_share] at htotal
  refine ⟨fun hend => ?_, fun hstep => ?_, fun hstep hx => ?_⟩
  · rw [htotal, hlast.here.ended hend, Nat.add_zero]
  · obtain ⟨j, rfl, hnext⟩ := Body.Announces.data hlast hstep
    exact ⟨j, by omega, hnext.here.hint rfl⟩
  · rw [htotal, Body.Announces.ends hlast hstep hx, Nat.add_zero]

end Expressions

/-- Two chunks in a chain within a limit, before and after the first of them. -/
theorem sizeHint_exact_chain :
    (∀ ar, Body.sizeHint ar (Limited.new (Chain.new (Full.new (⟨[1, 2], by decide⟩ : Bytes))
        (Full.new (⟨[3], by decide⟩ : Bytes))) 5) = .ok (.withExact 3)) ∧
      ∃ k, 3 = 0 + 2 + k ∧
        ∀ ar, Body.sizeHint ar (⟨3, .first ⟨none⟩ (some ⟨some ⟨[3], by decide⟩⟩)⟩ :
          Limited (Chain (Full Bytes) (Full Bytes))) = .ok (.withExact k) := by
  have hsized : Sized (Limited.new (Chain.new (Full.new (⟨[1, 2], by decide⟩ : Bytes))
      (Full.new (⟨[3], by decide⟩ : Bytes))) 5) 3 true :=
    .limited (by decide) (.chain (.full _) (.full _))
  obtain ⟨hfirst, hlater⟩ := sizeHint_exact hsized (by decide)
  exact ⟨hfirst rfl, (hlater (.nil _) (by simp)).2.1 (t := []) (d := ⟨[1, 2], by decide⟩) rfl⟩

end HttpBody
