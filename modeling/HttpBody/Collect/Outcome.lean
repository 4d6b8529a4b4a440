import HttpBody.Collect.Fold

/-!
# The outcome of collecting

Where the body and the collecting future are suspended does not matter for what
the future resolves to.  It is decided by the results of the body up to its end
or its first error, and is read off from them.
-/

namespace HttpBody

open Support

section

variable [Foreign] {T D E : Type} [Body T D E]

/-- `b` gives the results `rs`, which are frames and suspensions, and then `x`. -/
def Body.Reaches (b : T) (rs : List (PollFrame D E)) (x : Item D E) : Prop :=
  (∀ r ∈ rs, r ≠ .ready none ∧ ∀ e, r ≠ .ready (.error e)) ∧
    ∃ b', Runs Body.Steps b (rs ++ [.ready x]) b'

theorem Body.Reaches.after_pending {b b₁ : T} {n : ℕ} {x : Item D E}
    (h : Runs Body.Steps b (List.replicate n .pending ++ [.ready x]) b₁) :
    Body.Reaches b (List.replicate n .pending) x := by
  refine ⟨?_, b₁, h⟩
  intro r hr
  obtain rfl := List.eq_of_mem_replicate hr
  simp

theorem Body.Reaches.after_frame {b b₁ : T} {n : ℕ} {frame : Frame D} {x : Item D E}
    {rs : List (PollFrame D E)}
    (h : Runs Body.Steps b (List.replicate n .pending ++ [.ready (some (.ok frame))]) b₁)
    (hrest : Body.Reaches b₁ rs x) :
    Body.Reaches b (List.replicate n .pending ++ [.ready (some (.ok frame))] ++ rs) x := by
  obtain ⟨hrs, b', hrun⟩ := hrest
  refine ⟨?_, b', ?_⟩
  · intro r hr
    rcases List.mem_append.mp hr with hfirst | hlater
    · rcases List.mem_append.mp hfirst with hpending | hframe
      · obtain rfl := List.eq_of_mem_replicate hpending
        simp
      · obtain rfl := List.mem_singleton.mp hframe
        simp
    · exact hrs r hlater
  · rw [List.append_assoc]
    exact h.append hrun

end

namespace Collect

section

variable [Foreign] {T D E : Type} [Buf D]

theorem Collects.pendings {c : Collected D} {rs : List (PollFrame D E)} (h : Collects c rs)
    (n : ℕ) : Collects c (rs ++ List.replicate n .pending) := by
  induction n with
  | zero => simpa using h
  | succ n ih =>
      rw [List.replicate_succ', ← List.append_assoc]
      exact ih.pending

theorem afterBody_frame {c c' : Collected D} {frame : Frame D}
    (h : c.pushFrame frame = .ok c') (body : T) :
    afterBody (some c) (some (.ok frame) : Item D E) body =
      pure (.ready none, ⟨some c', body⟩) := by
  simp only [afterBody, Call.unwrap_some_bind, h, Call.lift_ok]
  rfl

variable [Body T D E]

/-- The body's first answer ends the collecting, or it is a frame that is
collected. -/
theorem awaits_turn {c : Collected D} {b : T} {qs : List (PollFrame D E)}
    {o : Option (Except E (Collected D))} {me' : Collect T D} (hc : Collects c qs)
    (h : Awaits (Call.steps turn) ⟨some c, b⟩ o me') :
    (∃ rs, o = some (.ok c) ∧ Body.Reaches b rs none ∧ Collects c (qs ++ rs)) ∨
      (∃ rs e, o = some (.error e) ∧ Body.Reaches b rs (.error e)) ∨
      ∃ n frame c₁ b₁, o = none ∧ me' = ⟨some c₁, b₁⟩ ∧
        Runs Body.Steps b (List.replicate n .pending ++ [.ready (some (.ok frame))]) b₁ ∧
        Collects c₁ (qs ++ (List.replicate n .pending ++ [.ready (some (.ok frame))])) := by
  obtain ⟨x, b₁, hbody, hfrom⟩ := (passes (some c)).awaits_iff.mp h
  obtain ⟨n, hrun⟩ := hbody.runs
  rcases x with _ | (e | frame)
  · obtain ⟨rfl, -⟩ := awaitsFrom_pure.mp hfrom
    exact .inl ⟨_, rfl, .after_pending hrun, hc.pendings n⟩
  · obtain ⟨rfl, -⟩ := awaitsFrom_pure.mp hfrom
    exact .inr (.inl ⟨_, e, rfl, .after_pending hrun⟩)
  · obtain ⟨c₁, hpush, hc₁⟩ := (hc.pendings n).pushFrame frame
    rw [afterBody_frame hpush, awaitsFrom_pure] at hfrom
    obtain ⟨rfl, rfl⟩ := hfrom
    rw [List.append_assoc] at hc₁
    exact .inr (.inr ⟨n, frame, c₁, b₁, rfl, rfl, hrun, hc₁⟩)

/-- What collecting resolves to tells what the body gave. -/
theorem awaits_cases {c : Collected D} {b : T} {qs : List (PollFrame D E)}
    {o : Except E (Collected D)} {me' : Collect T D} (hc : Collects c qs)
    (h : Awaits Steps ⟨some c, b⟩ o me') :
    (∃ c' rs, o = .ok c' ∧ Body.Reaches b rs none ∧ Collects c' (qs ++ rs)) ∨
      ∃ e rs, o = .error e ∧ Body.Reaches b rs (.error e) := by
  replace h := awaits_loops_iff.mp h
  generalize hme : (⟨some c, b⟩ : Collect T D) = me at h
  induction h generalizing c b qs with
  | ready hawait =>
      subst hme
      rcases awaits_turn hc hawait with ⟨rs, ho, hend, hc'⟩ | ⟨rs, e, ho, hfail⟩ |
        ⟨n, frame, c₁, b₁, ho, -, -, -⟩
      · cases ho
        exact .inl ⟨c, rs, rfl, hend, hc'⟩
      · cases ho
        exact .inr ⟨e, rs, rfl, hfail⟩
      · cases ho
  | again hawait _ ih =>
      subst hme
      rcases awaits_turn hc hawait with ⟨rs, ho, -, -⟩ | ⟨rs, e, ho, -⟩ |
        ⟨n, frame, c₁, b₁, -, rfl, hrun, hc₁⟩
      · cases ho
      · cases ho
      · rcases ih hc₁ rfl with ⟨c', rs, rfl, hend, hc'⟩ | ⟨e, rs, rfl, hfail⟩
        · rw [List.append_assoc] at hc'
          exact .inl ⟨c', _, rfl, .after_frame hrun hend, by simpa using hc'⟩
        · exact .inr ⟨e, _, rfl, .after_frame hrun hfail⟩

/-- A body that ends is collected. -/
theorem exists_awaits_ok {b : T} {rs : List (PollFrame D E)} (h : Body.Reaches b rs none) :
    ∃ (c : Collected D) (me' : Collect T D), Awaits Steps (new b) (.ok c) me' ∧ Collects c rs := by
  obtain ⟨hrs, b', hrun⟩ := h
  obtain ⟨t, htraced⟩ := hrun.traced
  obtain ⟨c, hc, hcollect⟩ := collect_run (fun c => .ready (.ok c)) (fun _ => none) htraced
    (onlyFrames_of hrs) (fun _ _ _ _ => steps_finish) collects_empty
  exact ⟨c, _, .of_runs hcollect.runs, hc⟩

/-- A body that fails makes collecting fail with its first error. -/
theorem exists_awaits_error {b : T} {rs : List (PollFrame D E)} {e : E}
    (h : Body.Reaches b rs (.error e)) :
    ∃ me' : Collect T D, Awaits Steps (new b) (.error e) me' := by
  obtain ⟨hrs, b', hrun⟩ := h
  obtain ⟨t, htraced⟩ := hrun.traced
  obtain ⟨c, -, hcollect⟩ := collect_run (fun _ => .ready (.error e)) some htraced
    (onlyFrames_of hrs) (fun _ _ _ _ => steps_error) collects_empty
  exact ⟨_, .of_runs hcollect.runs⟩

/-- Every way in which the body reached its end gives what was collected. -/
theorem collects_of_awaits {b : T} {c : Collected D} {me' : Collect T D}
    {rs : List (PollFrame D E)} (h : Awaits Steps (new b) (.ok c) me')
    (hrs : Body.Reaches b rs none) : Collects c rs := by
  obtain ⟨c₁, me₁, hawait, hc₁⟩ := exists_awaits_ok hrs
  obtain ⟨heq, -⟩ := h.unique (Call.loops_functional _) hawait
  cases heq
  exact hc₁

/-- The buffer that a collected body is aggregated into has no empty parts, so
it reads as the non-empty data frames of the body. -/
theorem aggregate_of_awaits {b : T} {c : Collected D} {me' : Collect T D}
    (h : Awaits Steps (new b) (.ok c) me') : c.aggregate.NonEmpty ∧
      ∃ rs, Body.Reaches b rs none ∧ c.aggregate.bufs = dataFrames rs := by
  rcases awaits_cases collects_empty h with ⟨c', rs, hok, hreaches, hc⟩ | ⟨e, rs, herr, -⟩
  · cases hok
    exact ⟨hc.nonempty, rs, hreaches, hc.frames⟩
  · cases herr

variable [LawfulBuf D]

/-- A body reaches its end with one number of bytes. -/
theorem dataTotal_unique {b : T} {rs rs' : List (PollFrame D E)} (h : Body.Reaches b rs none)
    (h' : Body.Reaches b rs' none) : dataTotal rs = dataTotal rs' := by
  obtain ⟨c, me', hawait, hc⟩ := exists_awaits_ok h
  have hc' := collects_of_awaits hawait h'
  rw [← length_bytesOf, ← length_bytesOf, ← hc.bytes, ← hc'.bytes]

variable [BytesMut] [LawfulBytesMut]

omit [Body T D E] in
/-- The collected bytes can be had, in every build, exactly when they fit one
allocation or lie in one frame. -/
theorem Collects.toBytes_iff {c : Collected D} {rs : List (PollFrame D E)} (h : Collects c rs) :
    (∀ ar, c.toBytes ar = .ok (bytesOf rs)) ↔
      dataTotal rs ≤ isizeMax ∨ (dataFrames rs).length ≤ 1 := by
  rw [← length_bytesOf, ← h.bytes, ← h.frames]
  exact Collected.toBytes_iff h.nonempty

end

end Collect

/-! ## Two collected bodies -/

namespace Collected

/-- Two data frames and trailers. -/
def framed : Collected Bytes :=
  ⟨⟨[⟨[1], by decide⟩, ⟨[2], by decide⟩]⟩, some fun _ => [3]⟩

theorem framed_nonEmpty : framed.bufs.NonEmpty := by
  decide

/-- Two frames that have more bytes than a `usize` can count. -/
def endless : Collected Zeros :=
  ⟨⟨[.half, .half]⟩, none⟩

theorem endless_nonEmpty : endless.bufs.NonEmpty := by
  decide

theorem length_held_endless : endless.bufs.held.length = wordSize := by
  rw [endless, BufList.held_cons, BufList.held_cons, BufList.held_nil, List.append_nil,
    List.length_append, ← LawfulBuf.remaining_eq]
  rfl

/-- Without overflow checks all of them are cut off. -/
theorem endless_toBytes_wrapping : endless.toBytes .wrapping = .ok [] := by
  have hfront : Zeros.half ∈ endless.bufs.bufs.head? := rfl
  have hzero : endless.bufs.held.length % wordSize = 0 := by
    rw [length_held_endless, Nat.mod_self]
  have hle : endless.bufs.held.length % wordSize ≤ Buf.remaining Zeros.half := by
    rw [hzero]
    exact Nat.zero_le _
  rw [toBytes_wrapped endless_nonEmpty hfront hle, hzero, List.take_zero]

/-- With overflow checks counting them panics, and without it gives zero. -/
theorem endless_toBytes_ne {ar : Arith} (h : ar = .checked ∨ ar = .wrapping) :
    endless.toBytes ar ≠ .ok endless.bufs.held := by
  intro hbytes
  rcases h with rfl | rfl
  · have hbig : wordSize ≤ endless.bufs.held.length :=
      Nat.le_of_eq length_held_endless.symm
    cases (toBytes_overflow hbig).symm.trans hbytes
  · have hheld : [] = endless.bufs.held :=
      Except.ok.inj (endless_toBytes_wrapping.symm.trans hbytes)
    have hlength := length_held_endless
    rw [← hheld] at hlength
    cases hlength

end Collected

end HttpBody
