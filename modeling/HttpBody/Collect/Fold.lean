import HttpBody.Core.HeaderTable
import HttpBody.Util.Collected

/-!
# Collecting folds the whole body

A collected body holds the bytes of all data frames and the merged trailers.
The accumulator survives every suspension: what is collected depends on the
results of the body only, in the order in which they came.
-/

namespace HttpBody

open Support

namespace Collect

section

variable [Foreign] {T D E : Type} [Buf D]

/-- The data frames that are not empty, in order. -/
def dataFrames (rs : List (PollFrame D E)) : List D :=
  rs.filterMap fun
    | .ready (.data d) => if Buf.hasRemaining d then some d else none
    | _ => none

/-- The maps of all trailers frames, in order. -/
def trailersOf (rs : List (PollFrame D E)) : List HeaderMap :=
  rs.filterMap fun
    | .ready (.trailers map) => some map
    | _ => none

/-- The left fold of `HeaderMap::extend`. -/
def foldTrailers : List HeaderMap → Option HeaderMap
  | [] => none
  | map :: maps => some (maps.foldl Foreign.extend map)

theorem foldTrailers_snoc (maps : List HeaderMap) (map : HeaderMap) :
    foldTrailers (maps ++ [map]) = mergeTrailers (foldTrailers maps) (some map) := by
  cases maps with
  | nil => rfl
  | cons m maps => simp [foldTrailers, mergeTrailers]

theorem hasRemaining_of_mem_dataFrames {rs : List (PollFrame D E)} {buf : D}
    (h : buf ∈ dataFrames rs) : Buf.hasRemaining buf = true := by
  obtain ⟨r, -, hr⟩ := List.mem_filterMap.mp h
  rcases r with _ | (_ | (_ | (d | _)))
  · cases hr
  · cases hr
  · cases hr
  · by_cases hd : Buf.hasRemaining d = true
    · simp only [hd, if_true, Option.some.injEq] at hr
      exact hr ▸ hd
    · simp [hd] at hr
  · cases hr

/-- Results that are frames and suspensions: the body has not ended yet. -/
inductive OnlyFrames : List (PollFrame D E) → Prop where
  | nil : OnlyFrames []
  | pending {rs} : OnlyFrames rs → OnlyFrames (.pending :: rs)
  | frame {rs} (frame : Frame D) : OnlyFrames rs → OnlyFrames (.ready (some (.ok frame)) :: rs)

omit [Buf D] in
theorem onlyFrames_of {rs : List (PollFrame D E)}
    (h : ∀ r ∈ rs, r ≠ .ready none ∧ ∀ e, r ≠ .ready (.error e)) : OnlyFrames rs := by
  induction rs with
  | nil => exact .nil
  | cons r rs ih =>
      have hrest : OnlyFrames rs := ih fun q hq => h q (List.mem_cons_of_mem r hq)
      obtain ⟨hfinish, herror⟩ := h r List.mem_cons_self
      rcases r with _ | (_ | (err | frame))
      · exact .pending hrest
      · exact (hfinish rfl).elim
      · exact (herror err rfl).elim
      · exact .frame frame hrest

/-- `c` is what was collected from the results `rs`. -/
structure Collects (c : Collected D) (rs : List (PollFrame D E)) : Prop where
  frames : c.bufs.bufs = dataFrames rs
  trailers : c.trailers = foldTrailers (trailersOf rs)

theorem Collects.nonempty {c : Collected D} {rs : List (PollFrame D E)} (h : Collects c rs) :
    c.bufs.NonEmpty := by
  intro buf hbuf
  rw [h.frames] at hbuf
  exact hasRemaining_of_mem_dataFrames hbuf

/-- What was collected is determined by the results. -/
theorem Collects.unique {c c' : Collected D} {rs : List (PollFrame D E)} (h : Collects c rs)
    (h' : Collects c' rs) : c = c' := by
  rcases c with ⟨⟨bufs⟩, trailers⟩
  rcases c' with ⟨⟨bufs'⟩, trailers'⟩
  obtain rfl : bufs = bufs' := h.frames.trans h'.frames.symm
  obtain rfl : trailers = trailers' := h.trailers.trans h'.trailers.symm
  rfl

theorem collects_empty : Collects (.empty : Collected D) ([] : List (PollFrame D E)) :=
  ⟨rfl, rfl⟩

theorem Collects.pending {c : Collected D} {rs : List (PollFrame D E)}
    (h : Collects c rs) : Collects c (rs ++ [.pending]) :=
  ⟨by simpa [dataFrames] using h.frames, by simpa [trailersOf] using h.trailers⟩

/-- Pushing a frame never fails, and collects it. -/
theorem Collects.pushFrame {c : Collected D} {rs : List (PollFrame D E)}
    (h : Collects c rs) (frame : Frame D) :
    ∃ c', c.pushFrame frame = .ok c' ∧
      Collects c' (rs ++ [.ready (some (.ok frame))]) := by
  have hframes := h.frames
  have htrailers := h.trailers
  rcases frame with d | map
  · by_cases hd : Buf.hasRemaining d = true
    · refine ⟨⟨⟨c.bufs.bufs ++ [d]⟩, c.trailers⟩, ?_, ?_, by simpa [trailersOf] using htrailers⟩
      · simp only [Collected.pushFrame, Frame.intoData, hd, ↓reduceIte, BufList.push]
        rfl
      · simpa [dataFrames, hd] using hframes
    · refine ⟨c, ?_, by simpa [dataFrames, hd] using hframes, by simpa [trailersOf] using htrailers⟩
      simp only [Collected.pushFrame, Frame.intoData, hd, Bool.false_eq_true, ↓reduceIte]
      rfl
  · refine ⟨⟨c.bufs, mergeTrailers c.trailers (some map)⟩, ?_, ?_, ?_⟩
    · rcases c with ⟨bufs, _ | current⟩ <;> rfl
    · simpa [dataFrames] using hframes
    · have hsnoc : trailersOf (rs ++ [.ready (some (.ok (.trailers map)))]) =
          trailersOf rs ++ [map] := by
        simp [trailersOf]
      rw [hsnoc, foldTrailers_snoc, ← htrailers]

variable [Body T D E]

/-! ### The call in which the body ends, fails or is suspended -/

theorem steps_finish {c : Collected D} {b b' : T} {t : List Event}
    (h : Body.Steps b t (.ready none) b') :
    Steps ⟨some c, b⟩ t (.ready (.ok c)) ⟨none, b'⟩ :=
  loops_iff.mpr (.ready (Call.bind_pure_ok h rfl))

theorem steps_error {c : Option (Collected D)} {b b' : T} {t : List Event} {e : E}
    (h : Body.Steps b t (.ready (.error e)) b') :
    Steps ⟨c, b⟩ t (.ready (.error e)) ⟨c, b'⟩ :=
  loops_iff.mpr (.ready (Call.bind_pure_ok h rfl))

theorem steps_pending {c : Option (Collected D)} {b b' : T} {t : List Event}
    (h : Body.Steps b t .pending b') : Steps ⟨c, b⟩ t .pending ⟨c, b'⟩ :=
  loops_iff.mpr (.pending (Call.bind_pure_ok h rfl))

/-- Collecting up to the result `r` of the body, of which a call makes `answer`. -/
theorem collect_run (answer : Collected D → Poll (Except E (Collected D)))
    (left : Collected D → Option (Collected D)) {b b' : T} {t : List Event}
    {rs qs : List (PollFrame D E)} {r : PollFrame D E} {c : Collected D}
    (h : TracedRuns Body.Steps b t (rs ++ [r]) b') (hrs : OnlyFrames rs)
    (hlast : ∀ (c : Collected D) (b : T) (u : List Event) (b' : T),
      Body.Steps b u r b' → Steps ⟨some c, b⟩ u (answer c) ⟨left c, b'⟩)
    (hc : Collects c qs) :
    ∃ c', Collects c' (qs ++ rs) ∧
      TracedRuns Steps ⟨some c, b⟩ t
        (List.replicate (suspensions rs) .pending ++ [answer c']) ⟨left c', b'⟩ := by
  induction hrs generalizing b t qs c with
  | nil =>
      rcases h with _ | ⟨hstep, hnil⟩
      cases hnil
      exact ⟨c, by simpa using hc, .cons (hlast _ _ _ _ hstep) (.nil _)⟩
  | pending _ ih =>
      rcases h with _ | ⟨hstep, hrest⟩
      obtain ⟨c', hc', hrun⟩ := ih hrest hc.pending
      exact ⟨c', by simpa using hc', .cons (steps_pending hstep) hrun⟩
  | frame frame _ ih =>
      rcases h with _ | @⟨_, u, _, b₁, _, _, _, hstep, hrest⟩
      obtain ⟨c₁, hpush, hc₁⟩ := hc.pushFrame frame
      obtain ⟨c', hc', hrun⟩ := ih hrest hc₁
      have hturn : Call.steps turn ⟨some c, b⟩ u (.ready none) ⟨some c₁, b₁⟩ := by
        refine Call.bind_pure_ok hstep ?_
        simp only [Call.unwrap_some_bind, hpush, Call.lift_ok]
        rfl
      refine ⟨c', by simpa using hc', ?_⟩
      exact hrun.loops_again hturn (by simp)

/-! ## The bytes that are collected -/

variable [LawfulBuf D]

/-- The bytes of all data frames, in order. -/
def bytesOf (rs : List (PollFrame D E)) : List UInt8 :=
  rs.flatMap fun
    | .ready (.data d) => LawfulBuf.bytes d
    | _ => []

theorem length_bytesOf (rs : List (PollFrame D E)) :
    (bytesOf rs).length = dataTotal rs := by
  induction rs with
  | nil => rfl
  | cons r rs ih =>
      rw [bytesOf, List.flatMap_cons, List.length_append, ← bytesOf, ih, dataTotal_cons]
      congr 1
      rcases r with _ | (_ | (_ | (d | _)))
      · rfl
      · rfl
      · rfl
      · exact (LawfulBuf.remaining_eq d).symm
      · rfl

theorem flatMap_dataFrames (rs : List (PollFrame D E)) :
    (dataFrames rs).flatMap LawfulBuf.bytes = bytesOf rs := by
  induction rs with
  | nil => rfl
  | cons r rs ih =>
      rw [bytesOf, List.flatMap_cons, ← bytesOf, ← ih]
      rcases r with _ | (_ | (_ | (d | _)))
      · rfl
      · rfl
      · rfl
      · by_cases hd : Buf.hasRemaining d = true
        · simp [dataFrames, hd]
        · have hnil : LawfulBuf.bytes d = [] := by
            simpa using mt (LawfulBuf.hasRemaining_iff d).mpr hd
          simp [dataFrames, hd, hnil]
      · rfl

theorem Collects.bytes {c : Collected D} {rs : List (PollFrame D E)} (h : Collects c rs) :
    c.bufs.held = bytesOf rs := by
  rw [BufList.held, h.frames, flatMap_dataFrames]

/-- Collecting a body that gives the results `rs` and then ends, fails or is
suspended: as many calls are suspended as in the body, they poll what the body's
calls poll, and the call that meets the end or the error resolves.  All bytes can be
had then, if they fit one allocation or lie in one frame. -/
theorem collect_fold [BytesMut] [LawfulBytesMut] (ar : Arith) {b b' : T} {t : List Event}
    {rs : List (PollFrame D E)} {r : PollFrame D E}
    (h : TracedRuns Body.Steps b t (rs ++ [r]) b')
    (hrs : ∀ r ∈ rs, r ≠ .ready none ∧ ∀ e, r ≠ .ready (.error e)) :
    (r = .ready none → ∃ c : Collected D,
      TracedRuns Steps (new b) t
        (List.replicate (suspensions rs) .pending ++ [.ready (.ok c)]) ⟨none, b'⟩ ∧
      c.trailers = foldTrailers (trailersOf rs) ∧
      (dataTotal rs ≤ isizeMax ∨ (dataFrames rs).length ≤ 1 →
        c.toBytes ar = .ok (bytesOf rs))) ∧
    (∀ e, r = .ready (.error e) → ∃ c : Collected D,
      TracedRuns Steps (new b) t
        (List.replicate (suspensions rs) .pending ++ [.ready (.error e)]) ⟨some c, b'⟩) ∧
    (r = .pending → ∃ c : Collected D,
      TracedRuns Steps (new b) t
        (List.replicate (suspensions rs) .pending ++ [.pending]) ⟨some c, b'⟩) := by
  have honly := onlyFrames_of hrs
  refine ⟨?_, ?_, ?_⟩
  · rintro rfl
    obtain ⟨c, hc, hrun⟩ := collect_run (fun c => .ready (.ok c)) (fun _ => none) h honly
      (fun _ _ _ _ => steps_finish) collects_empty
    refine ⟨c, hrun, hc.trailers, fun hfits => ?_⟩
    have hbytes : c.bufs.held = bytesOf rs := hc.bytes
    have hframes : c.bufs.bufs = dataFrames rs := hc.frames
    rw [← length_bytesOf, ← hbytes, ← hframes] at hfits
    rw [c.toBytes_ok ar hc.nonempty hfits, hbytes]
  · rintro e rfl
    obtain ⟨c, -, hrun⟩ := collect_run (fun _ => .ready (.error e)) some h honly
      (fun _ _ _ _ => steps_error) collects_empty
    exact ⟨c, hrun⟩
  · rintro rfl
    obtain ⟨c, -, hrun⟩ := collect_run (fun _ => .pending) some h honly
      (fun _ _ _ _ => steps_pending) collects_empty
    exact ⟨c, hrun⟩

end

/-- Collecting a body that is suspended twice, and whose frames are out of order: an empty
chunk, trailers before data, and trailers again, which replace one name of the first. -/
theorem collect_fold_playback :
    ∃ (c : Collected Bytes) (map : HeaderTable),
      Runs Steps (new (⟨[.ready (.data ⟨[1], by decide⟩), .pending,
          .ready (.data ⟨[], by decide⟩), .ready (.trailers fun name => [name]),
          .ready (.data ⟨[2, 3], by decide⟩), .pending,
          .ready (.trailers fun name => if name = 0 then [7] else []), .ready none]⟩ :
            Playback (Item Bytes Infallible)))
        [.pending, .pending, .ready (.ok c)] ⟨none, ⟨[]⟩⟩ ∧
      c.trailers = some map ∧ map 0 = [7] ∧ map 5 = [5] ∧
      c.toBytes .checked = .ok [1, 2, 3] := by
  have hrun := Playback.tracedRuns (D := Bytes) (E := Infallible)
    ([.ready (.data ⟨[1], by decide⟩), .pending, .ready (.data ⟨[], by decide⟩),
      .ready (.trailers fun name => [name]), .ready (.data ⟨[2, 3], by decide⟩), .pending,
      .ready (.trailers fun name => if name = 0 then [7] else [])] ++ [.ready none]) []
  obtain ⟨c, hcollect, htrailers, hbytes⟩ :=
    (collect_fold .checked hrun (by simp)).1 rfl
  exact ⟨c, _, hcollect.runs, htrailers, rfl, rfl, hbytes (.inl (by decide))⟩

/-- A byte, and then more bytes than fit one allocation with it. -/
def oversized : List (PollFrame Zeros Infallible) :=
  [.ready (.data ⟨1, one_lt_wordSize⟩), .ready (.data .half)]

/-- Their number fits a `usize`, and they are collected, but they cannot be had. -/
theorem not_folds_oversized :
    dataTotal oversized < wordSize ∧
      Runs Body.Steps (⟨oversized ++ [.ready none]⟩ : Playback (Item Zeros Infallible))
        (oversized ++ [.ready none]) ⟨[]⟩ ∧
      ∃ c : Collected Zeros,
        Runs Steps (new (⟨oversized ++ [.ready none]⟩ : Playback (Item Zeros Infallible)))
          [.ready (.ok c)] ⟨none, ⟨[]⟩⟩ ∧
        ∀ ar, c.toBytes ar = .error .capacityOverflow := by
  have hfits : dataTotal oversized < wordSize := by
    decide
  have hrun := Playback.tracedRuns (oversized ++ [.ready none]) []
  have honly : OnlyFrames oversized := .frame _ (.frame _ .nil)
  obtain ⟨c, hc, hcollect⟩ := collect_run (fun c => .ready (.ok c)) (fun _ => none) hrun honly
    (fun _ _ _ _ => steps_finish) collects_empty
  have hlength : c.bufs.held.length = dataTotal oversized := by
    rw [hc.bytes, ← length_bytesOf]
    rfl
  have hframes : c.bufs.bufs.length = 2 := by
    rw [hc.frames]
    rfl
  have hbig : isizeMax < dataTotal oversized := by
    decide
  refine ⟨hfits, hrun.runs, c, hcollect.runs, fun ar => ?_⟩
  apply Collected.toBytes_capacity ar hc.nonempty
  · rwa [hlength]
  · rwa [hlength]
  · rw [hframes]
    exact Nat.one_lt_two

end Collect

end HttpBody
