import HttpBody.Collect.Outcome
import HttpBody.Support.Transition

/-!
# A collected body replays what was collected

A collected body can be polled, its trailers can be taken, and its bytes can be
had at once.  Whatever was done before, what was given out and what is left
together are what was collected.
-/

namespace HttpBody

open Support

namespace Collected

section

variable [Foreign] {D : Type}

/-- Data frames and then a trailers frame, if there are trailers. -/
def replay (frames : List D) (trailers : Option HeaderMap) : List (PollFrame D Infallible) :=
  frames.map (fun d => .ready (.data d)) ++
    trailers.toList.map fun map => .ready (.trailers map)

/-- What one can do with a collected body, and what one gets. -/
inductive Use (D : Type) where
  | poll (r : PollFrame D Infallible)
  | take (trailers : Option HeaderMap)

namespace Use

def data : Use D → Option D
  | .poll (.ready (.data d)) => some d
  | _ => none

def trailers : Use D → Option HeaderMap
  | .poll (.ready (.trailers map)) => some map
  | .poll _ => none
  | .take trailers => trailers

end Use

def Uses (c : Collected D) : Use D → Collected D → Prop
  | .poll r, c' => ∃ t, Body.Steps c t r c'
  | .take trailers, c' => c.takeTrailers = (trailers, c')

/-- What was given out and what is left are what there was. -/
structure Kept (c : Collected D) (uses : List (Use D)) (c' : Collected D) : Prop where
  data : uses.filterMap Use.data ++ c'.bufs.bufs = c.bufs.bufs
  trailers : uses.filterMap Use.trailers ++ c'.trailers.toList = c.trailers.toList

theorem Kept.append {c c₁ c' : Collected D} {uses uses' : List (Use D)} (h : Kept c uses c₁)
    (h' : Kept c₁ uses' c') : Kept c (uses ++ uses') c' := by
  constructor
  · rw [List.filterMap_append, List.append_assoc, h'.data, h.data]
  · rw [List.filterMap_append, List.append_assoc, h'.trailers, h.trailers]

theorem Uses.kept {c c' : Collected D} {use : Use D} (h : Uses c use c') : Kept c [use] c' := by
  cases use with
  | poll r =>
      obtain ⟨t, hstep⟩ := h
      rcases c with ⟨⟨_ | ⟨d, bufs⟩⟩, _ | map⟩
      · cases hstep
        exact ⟨rfl, rfl⟩
      · cases hstep
        exact ⟨rfl, rfl⟩
      · cases hstep
        exact ⟨rfl, rfl⟩
      · cases hstep
        exact ⟨rfl, rfl⟩
  | take trailers =>
      cases h
      refine ⟨rfl, ?_⟩
      cases c.trailers with
      | none => rfl
      | some map => rfl

theorem kept_of_path {c c' : Collected D} {h : List (Collected D × Use D)}
    (hpath : Path Uses c h c') : Kept c (labels h) c' := by
  apply hpath.invariant (I := fun h c' => Kept c (labels h) c')
  · exact ⟨rfl, rfl⟩
  · intro h c₁ use c₂ hkept huse
    rw [labels_append]
    exact hkept.append huse.kept

theorem replay_runs (c : Collected D) (n : ℕ) :
    Runs Body.Steps c (replay c.bufs.bufs c.trailers ++ List.replicate n (.ready none))
      ⟨.empty, none⟩ := by
  rcases c with ⟨⟨bufs⟩, trailers⟩
  induction bufs with
  | nil =>
      have hend : Runs Body.Steps (⟨.empty, none⟩ : Collected D)
          (List.replicate n (.ready none)) ⟨.empty, none⟩ := by
        induction n with
        | zero => exact .nil _
        | succ n ih => exact .cons (t := []) rfl ih
      cases trailers with
      | none => exact hend
      | some map => exact .cons (t := []) rfl hend
  | cons d bufs ih => exact .cons (t := []) rfl ih

theorem reaches_replay (c : Collected D) :
    Body.Reaches c (replay c.bufs.bufs c.trailers) none := by
  refine ⟨?_, _, replay_runs c 1⟩
  intro r hr
  rcases List.mem_append.mp hr with hdata | htrailers
  · obtain ⟨d, -, rfl⟩ := List.mem_map.mp hdata
    simp
  · obtain ⟨map, -, rfl⟩ := List.mem_map.mp htrailers
    simp

variable [Buf D]

theorem dataFrames_replay {self : BufList D} (trailers : Option HeaderMap)
    (h : self.NonEmpty) : Collect.dataFrames (replay self.bufs trailers) = self.bufs := by
  rcases self with ⟨bufs⟩
  induction bufs with
  | nil => cases trailers <;> rfl
  | cons d bufs ih =>
      obtain ⟨hd, hbufs⟩ := BufList.nonEmpty_cons.mp h
      have hrest := ih hbufs
      simpa [replay, Collect.dataFrames, hd] using hrest

omit [Buf D] in
theorem trailersOf_replay (bufs : List D) (trailers : Option HeaderMap) :
    Collect.trailersOf (replay bufs trailers) = trailers.toList := by
  induction bufs with
  | nil => cases trailers <;> rfl
  | cons d bufs ih => exact ih

omit [Buf D] in
theorem foldTrailers_toList (trailers : Option HeaderMap) :
    Collect.foldTrailers trailers.toList = trailers := by
  cases trailers <;> rfl

/-- Collecting a collected body without empty frames gives it again. -/
theorem collect_again {c : Collected D} (h : c.bufs.NonEmpty) :
    ∃ me', Awaits Collect.Steps (Collect.new c) (.ok c) me' := by
  obtain ⟨c', me', hawait, hc'⟩ := Collect.exists_awaits_ok (reaches_replay c)
  have hc : Collect.Collects c (replay c.bufs.bufs c.trailers) := by
    constructor
    · rw [dataFrames_replay c.trailers h]
    · rw [trailersOf_replay, foldTrailers_toList]
  exact ⟨me', hc'.unique hc ▸ hawait⟩

variable [LawfulBuf D] [BytesMut]

/-- `c` replays the data frames `frames` and the trailers `trailers`: polled, it
yields them and then stays at its end; collected again, it gives itself; and
after any uses the data and the trailers that were given out, and those that are
left, are all of them, in order and each once, and the bytes that are left can
be had at once. -/
structure Replays (ar : Arith) (c : Collected D) (frames : List D)
    (trailers : Option HeaderMap) : Prop where
  polls (n : ℕ) : ∃ c',
    Runs Body.Steps c (replay frames trailers ++ List.replicate n (.ready none)) c'
  again : ∃ me', Awaits Collect.Steps (Collect.new c) (.ok c) me'
  data {h c'} : Path Uses c h c' → (labels h).filterMap Use.data ++ c'.bufs.bufs = frames
  trailers {h c'} : Path Uses c h c' →
    (labels h).filterMap Use.trailers ++ c'.trailers.toList = trailers.toList
  rest {h c'} : Path Uses c h c' → ∀ n, ∃ c'',
    Runs Body.Steps c' (replay c'.bufs.bufs c'.trailers ++ List.replicate n (.ready none)) c''
  bytes {h c'} : Path Uses c h c' →
    c'.toBytes ar = .ok (c'.bufs.bufs.flatMap LawfulBuf.bytes)

variable [LawfulBytesMut]

/-- Of bytes that fit one allocation or lie in one frame, so do those that are left. -/
theorem toBytes_of_path (ar : Arith) {c c' : Collected D} {h : List (Collected D × Use D)}
    (hpath : Path Uses c h c') (hne : c.bufs.NonEmpty)
    (hfits : c.bufs.held.length ≤ isizeMax ∨ c.bufs.bufs.length ≤ 1) :
    c'.toBytes ar = .ok (c'.bufs.bufs.flatMap LawfulBuf.bytes) := by
  have hdata := (kept_of_path hpath).data
  apply toBytes_ok ar
  · intro buf hbuf
    apply hne
    rw [← hdata]
    exact List.mem_append_right _ hbuf
  · have hlength : c'.bufs.held.length ≤ c.bufs.held.length := by
      rw [BufList.held, BufList.held, ← hdata, List.flatMap_append, List.length_append]
      exact Nat.le_add_left _ _
    have hcount : c'.bufs.bufs.length ≤ c.bufs.bufs.length := by
      rw [← hdata, List.length_append]
      exact Nat.le_add_left _ _
    exact hfits.imp (Nat.le_trans hlength) (Nat.le_trans hcount)

/-- A collected body replays the non-empty data frames and the merged trailers
of the body that was collected, in every build, exactly when the collected bytes fit
one allocation or lie in one frame. -/
theorem replays_iff {T E : Type} [Body T D E] {b : T} {c : Collected D} {me' : Collect T D}
    (h : Awaits Collect.Steps (Collect.new b) (.ok c) me') :
    (∃ rs, Body.Reaches b rs none) ∧ ∀ rs, Body.Reaches b rs none →
      ((∀ ar, Replays ar c (Collect.dataFrames rs)
          (Collect.foldTrailers (Collect.trailersOf rs))) ↔
        dataTotal rs ≤ isizeMax ∨ (Collect.dataFrames rs).length ≤ 1) := by
  constructor
  · obtain ⟨-, rs, hreaches, -⟩ := Collect.aggregate_of_awaits h
    exact ⟨rs, hreaches⟩
  · intro rs hrs
    have hc := Collect.collects_of_awaits h hrs
    rw [← hc.toBytes_iff, ← hc.frames, ← hc.trailers]
    constructor
    · intro hreplays ar
      rw [← Collect.flatMap_dataFrames, ← hc.frames]
      exact (hreplays ar).bytes (.nil c)
    · intro hbytes ar
      have hfits := hc.toBytes_iff.mp hbytes
      rw [← Collect.length_bytesOf, ← hc.bytes, ← hc.frames] at hfits
      constructor
      · intro n
        exact ⟨_, replay_runs c n⟩
      · exact collect_again hc.nonempty
      · intro h c' hpath
        exact (kept_of_path hpath).data
      · intro h c' hpath
        exact (kept_of_path hpath).trailers
      · intro h c' _ n
        exact ⟨_, replay_runs c' n⟩
      · intro h c' hpath
        exact toBytes_of_path ar hpath hc.nonempty hfits

end

/-- Collecting data and trailers, and replaying what was collected. -/
theorem replays_iff_framed :
    (∃ me', Awaits Collect.Steps (Collect.new framed) (.ok framed) me') ∧
      ∀ ar, Replays ar framed framed.bufs.bufs framed.trailers := by
  obtain ⟨me', hawait⟩ := collect_again framed_nonEmpty
  have hreaches := reaches_replay framed
  have hreplays := ((replays_iff hawait).2 _ hreaches).mpr (.inl (by decide))
  rw [dataFrames_replay framed.trailers framed_nonEmpty, trailersOf_replay,
    foldTrailers_toList] at hreplays
  exact ⟨⟨me', hawait⟩, hreplays⟩

/-- Two frames are collected that cannot be had at once. -/
theorem not_replays_endless :
    (∃ me', Awaits Collect.Steps (Collect.new endless) (.ok endless) me') ∧
      Body.Reaches endless (replay endless.bufs.bufs none) none ∧
      ¬ Replays .checked endless endless.bufs.bufs none ∧
      ¬ Replays .wrapping endless endless.bufs.bufs none := by
  have hagain : ∃ me', Awaits Collect.Steps (Collect.new endless) (.ok endless) me' :=
    collect_again endless_nonEmpty
  refine ⟨hagain, ?_, ?_, ?_⟩
  · exact reaches_replay endless
  · intro h
    exact endless_toBytes_ne (.inl rfl) (h.bytes (.nil endless))
  · intro h
    exact endless_toBytes_ne (.inr rfl) (h.bytes (.nil endless))

end Collected

end HttpBody
