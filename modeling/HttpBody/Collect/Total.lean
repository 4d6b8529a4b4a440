import HttpBody.Collect.Outcome

/-!
# The number of the collected bytes

`remaining` adds up the lengths of the collected buffers as machine words, and
`to_bytes` copies as many bytes as it says.  Buffers are handles that may share
memory, so nothing keeps the sum within a machine word.
-/

namespace HttpBody

open Support

namespace Collected

section

variable [Foreign] {D E : Type}

/-- The data of frames, in order. -/
def dataOf (frames : List (Frame D)) : List D :=
  frames.filterMap Frame.dataRef

/-- The results of a body that gives these frames. -/
def given (frames : List (Frame D)) : List (PollFrame D E) :=
  frames.map fun frame => .ready (some (.ok frame))

/-- The frames among the results of a body. -/
def framesOf (rs : List (PollFrame D E)) : List (Frame D) :=
  rs.filterMap fun
    | .ready (some (.ok frame)) => some frame
    | _ => none

theorem framesOf_given (frames : List (Frame D)) :
    framesOf (given frames : List (PollFrame D E)) = frames := by
  induction frames with
  | nil => rfl
  | cons frame frames ih => exact congrArg (frame :: ·) ih

open Collect (Collects OnlyFrames bytesOf)

theorem onlyFrames_given (frames : List (Frame D)) :
    OnlyFrames (given frames : List (PollFrame D E)) := by
  induction frames with
  | nil => exact .nil
  | cons frame frames ih => exact .frame frame ih

variable [Buf D]

/-- Frames are pushed one after the other. -/
def pushFrames (self : Collected D) (frames : List (Frame D)) : Except Stop (Collected D) :=
  frames.foldlM pushFrame self

/-- Pushing the frames among some results collects these results. -/
theorem exists_pushFrames {c : Collected D} {qs rs : List (PollFrame D E)} (h : Collects c qs)
    (hrs : OnlyFrames rs) :
    ∃ c', c.pushFrames (framesOf rs) = .ok c' ∧ Collects c' (qs ++ rs) := by
  induction hrs generalizing c qs with
  | nil =>
      refine ⟨c, rfl, ?_⟩
      rw [List.append_nil]
      exact h
  | pending _ ih =>
      obtain ⟨c', hpush, hc'⟩ := ih h.pending
      rw [List.append_assoc] at hc'
      exact ⟨c', hpush, hc'⟩
  | @frame rs frame _ ih =>
      obtain ⟨c₁, hfirst, hc₁⟩ := h.pushFrame frame
      obtain ⟨c', hpush, hc'⟩ := ih hc₁
      rw [List.append_assoc] at hc'
      refine ⟨c', ?_, hc'⟩
      change List.foldlM pushFrame c (frame :: framesOf rs) = _
      rw [List.foldlM_cons, hfirst]
      exact hpush

/-- What is collected from a body is what pushing its frames gives. -/
theorem pushFrames_of_awaits {T : Type} [Body T D E] {b : T} {c : Collected D} {me' : Collect T D}
    {rs : List (PollFrame D E)} (h : Awaits Collect.Steps (Collect.new b) (.ok c) me')
    (hrs : Body.Reaches b rs none) : pushFrames .empty (framesOf rs) = .ok c := by
  obtain ⟨c', hpush, hc'⟩ := exists_pushFrames Collect.collects_empty (Collect.onlyFrames_of hrs.1)
  have hc := Collect.collects_of_awaits h hrs
  rw [hpush, hc.unique hc']

variable [LawfulBuf D]

theorem bytesOf_given (frames : List (Frame D)) :
    bytesOf (given frames : List (PollFrame D E)) =
      (dataOf frames).flatMap LawfulBuf.bytes := by
  induction frames with
  | nil => rfl
  | cons frame frames ih =>
      cases frame with
      | data d => exact congrArg (LawfulBuf.bytes d ++ ·) ih
      | trailers map => exact ih

variable [BytesMut]

/-- `remaining` counts all bytes of the frames, and so `to_bytes` never gives
only a part of them. -/
structure CountsTruly (ar : Arith) (c : Collected D) (frames : List (Frame D)) : Prop where
  remaining : c.bufs.remaining ar = .ok ((dataOf frames).map Buf.remaining).sum
  toBytes : ∀ bytes, c.toBytes ar = .ok bytes → bytes = (dataOf frames).flatMap LawfulBuf.bytes

variable [LawfulBytesMut]

/-- In either build the bytes of the collected frames are counted truly exactly
when their number is a machine word. -/
theorem countsTruly_iff {ar : Arith} (har : ar ≠ .exact) (frames : List (Frame D)) :
    ∃ c, pushFrames .empty frames = .ok c ∧
      (CountsTruly ar c frames ↔ ((dataOf frames).map Buf.remaining).sum < wordSize) := by
  have hgiven : OnlyFrames (given frames : List (PollFrame D Infallible)) := onlyFrames_given frames
  obtain ⟨c, hpush, hc⟩ := exists_pushFrames Collect.collects_empty hgiven
  rw [framesOf_given] at hpush
  have hheld : c.bufs.held = (dataOf frames).flatMap LawfulBuf.bytes := by
    rw [hc.bytes, ← bytesOf_given]
    rfl
  have htotal : ((dataOf frames).map Buf.remaining).sum = c.bufs.held.length := by
    rw [hheld, List.length_flatMap]
    exact congrArg List.sum (List.map_congr_left fun d _ => LawfulBuf.remaining_eq d)
  refine ⟨c, hpush, ?_⟩
  constructor
  · intro h
    have hrem := h.remaining
    rw [BufList.remaining_eq, htotal] at hrem
    rw [htotal]
    exact (Arith.word_eq_ok_iff har).mp hrem
  · intro hfits
    rw [htotal] at hfits
    constructor
    · rw [htotal]
      exact BufList.remaining_ok ar hfits
    · intro bytes hbytes
      rcases Collected.toBytes_cases ar hc.nonempty hfits with hok | hstop
      · cases hok.symm.trans hbytes
        exact hheld
      · cases hstop.symm.trans hbytes

end

/-- Two data frames around trailers. -/
theorem countsTruly_iff_framed :
    CountsTruly .wrapping framed
      [.data ⟨[1], by decide⟩, .trailers fun _ => [3], .data ⟨[2], by decide⟩] := by
  have hbuild : Arith.wrapping ≠ .exact := by decide
  obtain ⟨c, hpush, hcounts⟩ := countsTruly_iff hbuild
    [.data (⟨[1], by decide⟩ : Bytes), .trailers fun _ => [3], .data ⟨[2], by decide⟩]
  cases hpush
  exact hcounts.mpr (by decide)

/-- Two frames are pushed that have more bytes than a `usize` can count.  With
overflow checks counting them panics, and without it none of them are copied. -/
theorem not_countsTruly_endless :
    pushFrames .empty [.data .half, .data .half] = .ok endless ∧
      endless.bufs.remaining .checked = .error .overflow ∧
      endless.bufs.remaining .wrapping = .ok 0 ∧ endless.toBytes .wrapping = .ok [] ∧
      ¬ CountsTruly .checked endless [.data .half, .data .half] ∧
      ¬ CountsTruly .wrapping endless [.data .half, .data .half] := by
  have hbig : wordSize ≤ endless.bufs.held.length := Nat.le_of_eq length_held_endless.symm
  have hchecked := BufList.remaining_overflow hbig
  have hwrapping : endless.bufs.remaining .wrapping = .ok 0 := rfl
  refine ⟨rfl, hchecked, hwrapping, endless_toBytes_wrapping, ?_, ?_⟩
  · intro h
    cases h.remaining.symm.trans hchecked
  · intro h
    cases h.remaining.symm.trans hwrapping

end Collected

end HttpBody
