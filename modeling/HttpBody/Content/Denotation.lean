import HttpBody.Content.Combinators
import HttpBody.Support.Giving

/-!
# The content of an expression

Every expression over leaves that deliver a content denotes a content, and it
delivers what it denotes: whatever the nesting, its runs give the data in order,
with the suspensions in between, and then the conclusion.
-/

namespace HttpBody

open Support

section Denotation

variable [Foreign]

/-- `Denotes b c`: the body `b` is an expression with the content `c`. -/
inductive Denotes : ∀ {B D E : Type} [Buf D] [Body B D E], B → Content D E → Prop where
  | user {B D E : Type} [Buf D] [Body B D E] {b : B} {c : Content D E} :
      Body.Delivers b c → Body.EndStreamSound b → Denotes b c
  | empty (D : Type) [Buf D] : Denotes (Empty.new D) ⟨[], .ok none⟩
  | full {D : Type} [Buf D] (data : D) : Denotes (Full.new data) (.chunk data)
  | string (s : Str) : Denotes s (.ofStr s)
  | errorBody (D : Type) {E : Type} [Buf D] (error : E) :
      Denotes (ErrorBody.new D error) ⟨[], .error error⟩
  | collected {D : Type} [Buf D] (collected : Collected D) :
      Denotes collected ⟨collected.bufs.bufs, .ok collected.trailers⟩
  | streamBody {S D E : Type} [Buf D] [Stream S (Except E (Frame D))] {stream : S}
      {c : Content D E} : Stream.Delivers stream c → Denotes (StreamBody.new stream) c
  | chain {A B D E₁ E₂ : Type} [Buf D] [Body A D E₁] [Body B D E₂] [Into E₁ E₂]
      {a : A} {b : B} {ca : Content D E₁} {cb : Content D E₂} :
      Denotes a ca → Denotes b cb → Denotes (Chain.new a b) (ca.chain cb)
  | withTrailers {T F D E : Type} [Buf D] [Body T D E]
      [Future F (Option (Except E HeaderMap))] {b : T} {c : Content D E} {f f' : F}
      {outcome : Option (Except E HeaderMap)} :
      Denotes b c → Awaits Future.Steps f outcome f' →
      Denotes (WithTrailers.new b f) (c.withTrailers outcome)
  | limited {B D E : Type} [Buf D] [Body B D E] [Into E BoxError] {b : B} {c : Content D E}
      (limit : ℕ) : Denotes b c → Denotes (Limited.new b limit) (c.limited limit)
  | fuse {B D E : Type} [Buf D] [Body B D E] {b : B} {c : Content D E} :
      Denotes b c → Denotes (Fuse.new b) c
  | mapFrame {B F D D' E : Type} [Buf D] [Buf D'] [Body B D E]
      [FnMut F (Frame D) (Frame D')] {b : B} {c : Content D E} {f : F} :
      KeepsKinds D D' f → Denotes b c →
      Denotes (MapFrame.new b f) (c.mapFrame f : Content D' E)
  | mapErr {B F D E E' : Type} [Buf D] [Body B D E] [FnMut F E E'] {b : B} {c : Content D E}
      (f : F) : Denotes b c →
      Denotes (MapErr.new b f) (c.mapErr fun err => (FnMut.call f err).1)
  | inspectFrame {B F D E : Type} [Buf D] [Body B D E] [FnMut F (Frame D) Unit] {b : B}
      {c : Content D E} (f : F) : Denotes b c → Denotes (InspectFrame.new b f) c
  | inspectErr {B F D E : Type} [Buf D] [Body B D E] [FnMut F E Unit] {b : B}
      {c : Content D E} (f : F) : Denotes b c → Denotes (InspectErr.new b f) c
  | left {L D E₁ E₂ : Type} (R : Type) [Buf D] [Body L D E₁] [Body R D E₂]
      [Into E₁ BoxError] [Into E₂ BoxError] {l : L} {c : Content D E₁} :
      Denotes l c → Denotes (Either.left l : Either L R) (c.mapErr Into.into)
  | right {R D E₁ E₂ : Type} (L : Type) [Buf D] [Body L D E₁] [Body R D E₂]
      [Into E₁ BoxError] [Into E₂ BoxError] {r : R} {c : Content D E₂} :
      Denotes r c → Denotes (Either.right r : Either L R) (c.mapErr Into.into)
  | tryFuture {F B D E E₁ : Type} [Buf D] [Body B D E] [Future F (Except E₁ B)]
      [Into E₁ E] {f f' : F} {b : B} {c : Content D E} :
      Awaits Future.Steps f (.ok b) f' → Denotes b c →
      Denotes (TryFutureBody.new f : TryFutureBody F B) c
  | held {W B D E : Type} [Buf D] [Body W D E] [Body B D E] {w : W} {b : B}
      {c : Content D E} : Holds w b → Denotes b c → Denotes w c
  | bodyStream {B D E : Type} [Buf D] [Body B D E] {b : B} {c : Content D E} :
      Denotes b c → Denotes (BodyStream.new b) c
  | tryFutureError {F B D E E₁ : Type} [Buf D] [Body B D E] [Future F (Except E₁ B)]
      [Into E₁ E] {f f' : F} {err : E₁} : Awaits Future.Steps f (.error err) f' →
      Denotes (TryFutureBody.new f : TryFutureBody F B)
        (⟨[], .error (Into.into err)⟩ : Content D E)

variable {B D E : Type} [Buf D] [Body B D E] {b : B} {c : Content D E}

theorem Denotes.composed (h : Denotes b c) : Composed endStreamSoundBody b := by
  induction h with
  | user _ hsound => exact .user hsound
  | empty D => exact .empty D
  | full data => exact .full data
  | string s => exact .string s
  | errorBody D error => exact .errorBody D error
  | collected c => exact .collected c
  | streamBody _ => exact .streamBody _
  | chain _ _ iha ihb => exact .chain iha ihb
  | withTrailers _ _ ih => exact .withTrailers _ ih
  | limited limit _ ih => exact .limited limit ih
  | fuse _ ih => exact .fuse ih
  | mapFrame _ _ ih => exact .mapFrame _ ih
  | mapErr f _ ih => exact .mapErr f ih
  | inspectFrame f _ ih => exact .inspectFrame f ih
  | inspectErr f _ ih => exact .inspectErr f ih
  | left R _ ih => exact .left R ih
  | right L _ ih => exact .right L ih
  | tryFuture hf _ ih =>
      refine .tryFuture fun b g hg => ?_
      obtain ⟨heq, -⟩ := hf.unique (Call.steps_functional _) hg
      cases heq
      exact ih
  | held hw _ ih => exact .user (Body.Same.endStreamSound hw.same.symm ih.sound)
  | bodyStream _ _ => exact .user (BodyStream.endStreamSound _)
  | tryFutureError hf =>
      refine .tryFuture fun b g hg => ?_
      obtain ⟨heq, -⟩ := hf.unique (Call.steps_functional _) hg
      cases heq

/-- An expression delivers the content that it denotes. -/
theorem Denotes.delivers (h : Denotes b c) : Body.Delivers b c := by
  induction h with
  | user hb _ => exact hb
  | empty D => exact Empty.delivers _
  | full data => exact Full.delivers data
  | string s => exact Str.delivers s
  | errorBody D error => exact ErrorBody.delivers error
  | collected c => exact Collected.delivers c
  | streamBody hs => exact StreamBody.delivers hs
  | chain _ _ iha ihb => exact Chain.delivers iha ihb
  | withTrailers _ hf ih => exact WithTrailers.delivers ih hf
  | limited limit _ ih => exact Limited.delivers ih limit
  | fuse hb ih => exact Fuse.delivers ih hb.composed.sound
  | mapFrame hkinds _ ih => exact MapFrame.delivers hkinds ih
  | mapErr f _ ih => exact MapErr.delivers ih f
  | inspectFrame f _ ih => exact InspectFrame.delivers ih f
  | inspectErr f _ ih => exact InspectErr.delivers ih f
  | left R _ ih => exact Either.delivers_left ih
  | right L _ ih => exact Either.delivers_right ih
  | tryFuture hf _ ih => exact TryFutureBody.delivers hf ih
  | held hw _ ih => exact Body.Same.delivers hw.same.symm ih
  | bodyStream _ ih => exact BodyStream.delivers ih
  | tryFutureError hf => exact TryFutureBody.delivers_error hf

/-- A body may be made a stream and a body again. -/
theorem Denotes.streamed (h : Denotes b c) : Denotes (StreamBody.new (BodyStream.new b)) c :=
  .streamBody (BodyStream.stream_delivers h.delivers)

omit [Buf D] in
theorem Body.Delivers.awaitsAll (h : Body.Delivers b c) :
    ∃ b', AwaitsAll Body.Steps b c.answers b' ∧ Body.Concluded c.result b' := by
  obtain ⟨os, o, b', hall, hos, ho, hconcluded⟩ := Plays.awaitsAll h
  have hdatas : os = Item.datas c.items := by
    apply List.map_injective_iff.mpr Item.split_injective
    simp only [hos, Item.datas, List.map_map]
    rfl
  have hlast : o = Conclusion.answer c.result :=
    Item.split_injective (ho.trans (Item.split_answer _).symm)
  rw [hdatas, hlast] at hall
  exact ⟨b', hall, hconcluded⟩

omit [Buf D] in
/-- Up to the first terminal answer, exactly the answers of the content can be had. -/
theorem Body.Delivers.awaitsAll_iff (h : Body.Delivers b c) {os : List (Item D E)}
    (hos : ∀ o ∈ os.dropLast, o.isTerminal = false) :
    (∃ b', AwaitsAll Body.Steps b os b') ↔ os <+: c.answers := by
  obtain ⟨b', hall, -⟩ := h.awaitsAll
  constructor
  · rintro ⟨b'', hawait⟩
    rcases hawait.prefix_total (Call.steps_functional _) hall with hpre | ⟨more, hmore⟩
    · exact hpre
    · rcases List.eq_nil_or_concat more with rfl | ⟨more, o, rfl⟩
      · have hos : c.answers = os := (List.append_nil _).symm.trans hmore
        exact hos ▸ List.prefix_rfl
      · have hlast : Conclusion.answer c.result ∈ os.dropLast := by
          rw [← hmore, Content.answers, List.concat_eq_append, ← List.append_assoc,
            List.dropLast_concat]
          simp
        have hterminal := hos _ hlast
        rw [Content.answer_isTerminal] at hterminal
        cases hterminal
  · exact hall.of_prefix

/-- Two expressions can be told apart by their answers, wherever they suspend, exactly
when their contents differ. -/
theorem sameAnswers_iff_content {B' : Type} [Body B' D E] {b' : B'} {c' : Content D E}
    (h : Denotes b c) (h' : Denotes b' c') :
    SameAnswers Body.Steps Body.Steps (fun o => o.isTerminal = false) b b' ↔ c = c' := by
  constructor
  · intro hsame
    obtain ⟨b₁, hall, -⟩ := h.delivers.awaitsAll
    have hagain : ∀ o ∈ c.answers.dropLast, o.isTerminal = false := by
      intro o ho
      rw [Content.answers, List.dropLast_concat] at ho
      obtain ⟨d, -, rfl⟩ := List.mem_map.mp ho
      rfl
    have hboth := hsame c.answers hagain
    rw [exists_runs_readies_iff, exists_runs_readies_iff] at hboth
    exact Content.eq_of_answers_prefix ((h'.delivers.awaitsAll_iff hagain).mp (hboth.mp ⟨b₁, hall⟩))
  · rintro rfl os hagain
    rw [exists_runs_readies_iff, exists_runs_readies_iff, h.delivers.awaitsAll_iff hagain,
      h'.delivers.awaitsAll_iff hagain]

end Denotation

/-- A chunk followed by an empty body cannot be told from the chunk; the same bytes in
two chunks can. -/
theorem sameAnswers_iff_content_full :
    SameAnswers Body.Steps Body.Steps (fun o => o.isTerminal = false)
        (Chain.new (Full.new (⟨[1, 2], by decide⟩ : Bytes)) (Empty.new Bytes))
        (Full.new (⟨[1, 2], by decide⟩ : Bytes)) ∧
      ¬ SameAnswers Body.Steps Body.Steps (fun o => o.isTerminal = false)
        (Chain.new (Full.new (⟨[1], by decide⟩ : Bytes)) (Full.new (⟨[2], by decide⟩ : Bytes)))
        (Full.new (⟨[1, 2], by decide⟩ : Bytes)) := by
  have hone : Denotes (Full.new (⟨[1], by decide⟩ : Bytes)) (.chunk _) := .full _
  have htwo : Denotes (Full.new (⟨[2], by decide⟩ : Bytes)) (.chunk _) := .full _
  have hboth : Denotes (Full.new (⟨[1, 2], by decide⟩ : Bytes)) (.chunk _) := .full _
  refine ⟨(sameAnswers_iff_content (.chain hboth (.empty Bytes)) hboth).mpr rfl, fun hsame => ?_⟩
  have heq := (sameAnswers_iff_content (.chain hone htwo) hboth).mp hsame
  have hlength := congrArg (fun c => c.items.length) heq
  cases hlength

end HttpBody
