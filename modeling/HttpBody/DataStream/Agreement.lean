import HttpBody.Collect.Outcome
import HttpBody.Support.Skipping
import HttpBody.Util.DataStream

/-!
# The data stream agrees with collecting

The stream gives the data of the body's frames and skips its trailers.  Up to
the end of the body its items are the bytes that collecting gives, and up to the
first error it fails as collecting does.
-/

namespace HttpBody

open Support

section

variable [Foreign] {B D E : Type} [Body B D E]

/-- In no reachable state do trailers frames come without end. -/
def Body.FewTrailers (b : B) : Prop :=
  Always Body.Steps (fun b : B => ∃ n, ∀ (os : List (Item D E)) b',
    Runs Body.Steps b (os.map .ready) b' → (∀ o ∈ os, ∃ map, o = .trailers map) →
      os.length < n) b

end

namespace BodyDataStream

section

variable [Foreign] {B D E : Type}

/-- What the stream gives of an answer of the body: nothing of trailers. -/
def passOn : Item D E → Option (Option (Except E D))
  | none => some none
  | .data d => some (some (.ok d))
  | .trailers _ => none
  | .error err => some (some (.error err))

theorem passOn_eq_none {o : Item D E} : passOn o = none ↔ ∃ map, o = .trailers map := by
  rcases o with _ | (err | (d | map)) <;> simp [passOn]

/-- What the stream gives of the results of a run. -/
def skipTrailers (rs : List (PollFrame D E)) : List (Poll (Option (Except E D))) :=
  visible passOn rs

/-- The bytes of all items, in order. -/
def itemBytes [Buf D] [LawfulBuf D] (qs : List (Poll (Option (Except E D)))) : List UInt8 :=
  qs.flatMap fun
    | .ready (some (.ok d)) => LawfulBuf.bytes d
    | _ => []

theorem itemBytes_skipTrailers [Buf D] [LawfulBuf D] (rs : List (PollFrame D E)) :
    itemBytes (skipTrailers rs) = Collect.bytesOf rs := by
  induction rs with
  | nil => rfl
  | cons r rs ih =>
      rw [Collect.bytesOf, List.flatMap_cons, ← Collect.bytesOf, ← ih]
      rcases r with _ | (_ | (_ | (d | _))) <;> rfl

variable [Body B D E]

theorem skips : Skips (Body.pollFrame (B := B)) turn new passOn := by
  have hanswer : (onReady : Unit → Item D E → _) = fun u o => (passOn o, u) := by
    funext u o
    rcases o with _ | (err | (d | map))
    · rfl
    · rfl
    · rfl
    · rfl
  have hrelays := relays (B := B)
  rw [hanswer] at hrelays
  exact hrelays

/-- A call of `poll_next` returns, or it stops in a call of the body, which it
reaches over trailers frames only. -/
def Returns (self : BodyDataStream B) : Prop :=
  (∃ t r self', Steps self t r self') ∨
    ∃ (os : List (Item D E)) (b : B) (t u : List Event) (stop : Stop),
      Runs Body.Steps self.body (os.map .ready) b ∧ (∀ o ∈ os, ∃ map, o = .trailers map) ∧
      Body.pollFrame b = ⟨t, .error stop⟩ ∧ ∃ m, ∀ fuel, m ≤ fuel →
        pollNext fuel self = ⟨u, .error stop⟩

/-- The stream over `b` agrees with `b`, and with collecting it: every call
comes to an end; the runs of the stream are those of the body without its
trailers; when the body ends, the items have the bytes that are collected; and
when it fails, both fail with its first error. -/
structure Agrees [Buf D] [LawfulBuf D] [BytesMut] (ar : Arith) (b : B) : Prop where
  returns : Always Steps Returns (new b)
  runs {t qs self'} : TracedRuns Steps (new b) t qs self' ↔ ∃ rs b',
    TracedRuns Body.Steps b t rs b' ∧ AtRest passOn rs ∧ qs = skipTrailers rs ∧ self' = new b'
  bytes {rs} : Body.Reaches b rs none → ∃ (c : Collected D) (me' : Collect B D) (b' : B),
    Awaits Collect.Steps (Collect.new b) (.ok c) me' ∧
    Runs Steps (new b) (skipTrailers rs ++ [.ready none]) (new b') ∧
    c.toBytes ar = .ok (itemBytes (skipTrailers rs))
  error {rs e} : Body.Reaches b rs (.error e) → ∃ (me' : Collect B D) (b' : B),
    Awaits Collect.Steps (Collect.new b) (.error e) me' ∧
    Runs Steps (new b) (skipTrailers rs ++ [.ready (some (.error e))]) (new b') ∧
    ∀ e', .ready (some (.error e')) ∉ skipTrailers rs

theorem returns_of_fewTrailers {b : B} (h : Body.FewTrailers b) :
    Always Steps Returns (new b) := by
  intro qs self hrun
  obtain ⟨t, htraced⟩ := hrun.traced
  obtain ⟨rs, b', hrs, -, -, rfl⟩ := skips.tracedRuns_iff.mp htraced
  obtain ⟨n, hn⟩ := h hrs.runs
  have hfew : ∀ (os : List (Item D E)) b'', Runs Body.Steps b' (os.map .ready) b'' →
      (∀ o ∈ os, passOn o = none) → os.length < n := by
    intro os b'' hos hskip
    apply hn os b'' hos
    intro o ho
    exact passOn_eq_none.mp (hskip o ho)
  rcases skips.ends hfew with hreturns | ⟨os, b'', t, u, stop, hos, hskip, hstop, hloop⟩
  · exact .inl hreturns
  · refine .inr ⟨os, b'', t, u, stop, hos, ?_, hstop, hloop⟩
    intro o ho
    exact passOn_eq_none.mp (hskip o ho)

/-- Followed up to an answer that is not skipped, the stream gives it last. -/
theorem exists_runs {b b' : B} {rs : List (PollFrame D E)} {x : Item D E}
    {o : Option (Except E D)} (h : Runs Body.Steps b (rs ++ [.ready x]) b')
    (hx : passOn x = some o) :
    Runs Steps (new b) (skipTrailers rs ++ [.ready o]) (new b') := by
  obtain ⟨t, htraced⟩ := h.traced
  have hseen := seen_ready_some hx
  have hrest : AtRest passOn (rs ++ [.ready x]) := by
    intro r hr
    obtain rfl : .ready x = r := by simpa using hr
    simp [hseen]
  have hvisible : skipTrailers rs ++ [.ready o] = visible passOn (rs ++ [.ready x]) := by
    rw [visible_append, visible_cons_some hseen]
    rfl
  exact (skips.tracedRuns_iff.mpr ⟨_, b', htraced, hrest, hvisible, rfl⟩).runs

omit [Body B D E] in
theorem error_not_mem {rs : List (PollFrame D E)}
    (h : ∀ r ∈ rs, r ≠ .ready none ∧ ∀ e, r ≠ .ready (.error e)) (e : E) :
    .ready (some (.error e)) ∉ skipTrailers rs := by
  intro hmem
  obtain ⟨r, hr, hseen⟩ := List.mem_filterMap.mp hmem
  rcases r with _ | (_ | (err | (d | map)))
  · cases hseen
  · cases hseen
  · exact (h _ hr).2 err rfl
  · cases hseen
  · cases hseen

/-- The stream over a body with few trailers agrees with collecting it, in every
build, exactly when the body's bytes fit one allocation or lie in one frame. -/
theorem agrees_iff [Buf D] [LawfulBuf D] [BytesMut] [LawfulBytesMut] {b : B}
    (h : Body.FewTrailers b) :
    (∀ ar, Agrees ar b) ↔ ∀ rs, Body.Reaches b rs none →
      dataTotal rs ≤ isizeMax ∨ (Collect.dataFrames rs).length ≤ 1 := by
  constructor
  · intro hagrees rs hrs
    obtain ⟨c, me', b', hawait, -, -⟩ := (hagrees .checked).bytes hrs
    rw [← (Collect.collects_of_awaits hawait hrs).toBytes_iff]
    intro ar
    obtain ⟨c', me'', b'', hawait', -, hbytes⟩ := (hagrees ar).bytes hrs
    obtain ⟨heq, -⟩ := hawait.unique (Call.loops_functional _) hawait'
    cases heq
    rw [hbytes, itemBytes_skipTrailers]
  · intro hfits ar
    constructor
    · exact returns_of_fewTrailers h
    · intro t qs self'
      exact skips.tracedRuns_iff
    · intro rs hrs
      obtain ⟨c, me', hawait, hc⟩ := Collect.exists_awaits_ok hrs
      have hbytes := hc.toBytes_iff.mpr (hfits rs hrs) ar
      obtain ⟨-, b', hrun⟩ := hrs
      rw [← itemBytes_skipTrailers] at hbytes
      exact ⟨c, me', b', hawait, exists_runs hrun rfl, hbytes⟩
    · intro rs e hrs
      obtain ⟨me', hawait⟩ := Collect.exists_awaits_error hrs
      obtain ⟨hprogress, b', hrun⟩ := hrs
      exact ⟨me', b', hawait, exists_runs hrun rfl, error_not_mem hprogress⟩

end

/-- A collected body yields one trailers frame at most. -/
theorem fewTrailers_collected [Foreign] {D : Type} (c : Collected D) : Body.FewTrailers c := by
  intro rs c' _
  refine ⟨2, ?_⟩
  intro os c'' hrun hos
  rcases os with _ | ⟨o₁, _ | ⟨o₂, os⟩⟩
  · exact Nat.zero_lt_two
  · exact Nat.one_lt_two
  · obtain ⟨map₁, rfl⟩ := hos o₁ (by simp)
    obtain ⟨map₂, rfl⟩ := hos o₂ (by simp)
    obtain ⟨t₁, c₁, hfirst, hrest⟩ := runs_cons_iff.mp hrun
    obtain ⟨t₂, c₂, hsecond, -⟩ := runs_cons_iff.mp hrest
    rcases c' with ⟨⟨_ | ⟨d, bufs⟩⟩, _ | map⟩
    · cases hfirst
    · cases hfirst
      cases hsecond
    · cases hfirst
    · cases hfirst

/-- Streaming two data frames and trailers. -/
theorem agrees_iff_framed :
    Agrees .checked Collected.framed ∧ Agrees .wrapping Collected.framed := by
  have hend : Body.Reaches Collected.framed
      [.ready (.data ⟨[1], by decide⟩), .ready (.data ⟨[2], by decide⟩),
        .ready (.trailers fun _ => [3])] none := by
    refine ⟨by simp, ⟨.empty, none⟩, ?_⟩
    have hlast : Runs Body.Steps (⟨.empty, some fun _ => [3]⟩ : Collected Bytes)
        [.ready (.trailers fun _ => [3]), .ready none] ⟨.empty, none⟩ :=
      .cons (t := []) rfl (.cons (t := []) rfl (.nil _))
    exact .cons (t := []) rfl (.cons (t := []) rfl hlast)
  have hfits : ∀ rs, Body.Reaches Collected.framed rs none →
      dataTotal rs ≤ isizeMax ∨ (Collect.dataFrames rs).length ≤ 1 := by
    intro rs hrs
    rw [Collect.dataTotal_unique hrs hend]
    exact .inl (by decide)
  have hagrees := (agrees_iff (fewTrailers_collected _)).mpr hfits
  exact ⟨hagrees .checked, hagrees .wrapping⟩

/-- Two frames whose items have more bytes than can be collected. -/
theorem not_agrees_endless : Body.FewTrailers Collected.endless ∧
    ¬ Agrees .checked Collected.endless ∧ ¬ Agrees .wrapping Collected.endless := by
  have hend : Body.Reaches Collected.endless
      [.ready (.data .half), .ready (.data .half)] none := by
    refine ⟨by simp, ⟨.empty, none⟩, ?_⟩
    exact .cons (t := []) rfl (.cons (t := []) rfl (.cons (t := []) rfl (.nil _)))
  have hnot : ∀ ar, ar = .checked ∨ ar = .wrapping → ¬ Agrees ar Collected.endless := by
    intro ar har h
    obtain ⟨⟨⟨bufs⟩, trailers⟩, me', b', hawait, -, hbytes⟩ := h.bytes hend
    have hc := Collect.collects_of_awaits hawait hend
    obtain rfl : bufs = Collected.endless.bufs.bufs := hc.frames
    obtain rfl : trailers = none := hc.trailers
    rw [itemBytes_skipTrailers, ← hc.bytes] at hbytes
    exact Collected.endless_toBytes_ne har hbytes
  exact ⟨fewTrailers_collected _, hnot _ (.inl rfl), hnot _ (.inr rfl)⟩

end BodyDataStream

end HttpBody
