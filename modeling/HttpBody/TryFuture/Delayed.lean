import HttpBody.Composition.Bounds
import HttpBody.Core.HeaderTable
import HttpBody.Util.Leaves
import HttpBody.Util.TryFuture

/-!
# A body backed by a future is its body, delayed

Until the future is ready every call polls it once and is pending.  The call in
which it becomes ready already polls the body, and from then on the body alone
is seen.  If the future fails, its error is the last thing that is seen.
-/

namespace HttpBody

open Support

namespace TryFutureBody

section

variable [Foreign] {F B D E E₁ : Type}

/-- A call, the leaves that it polled, and what the body shows after it. -/
abbrev Seen (D E : Type) := List Event × Except Stop (PollFrame D E × Bool × Except Stop SizeHint)

/-- A call in which the future, the leaf 0, is not ready.  Nothing is known of the
body yet. -/
def waiting : Seen D E := ([⟨0, .pending⟩], .ok (.pending, false, .ok .new))

/-- The call in which the future fails. -/
def failing (err : E) : Seen D E :=
  ([⟨0, .ready true⟩], .ok (.ready (.error err), true, .ok (.withExact 0)))

/-- A call after the future has failed. -/
def finished : Seen D E := ([], .ok (.ready none, true, .ok (.withExact 0)))

variable [Body B D E] [Future F (Except E₁ B)] [Into E₁ E]

/-- `DelayedCalls ar f n l`: `n` calls of a body that is delayed by `f` are seen as `l`.
The future is pending in some first calls.  If it then yields a body, the calls of
this body follow, of which the first also polls the future; if it fails, that is
one call, and nothing is polled from then on. -/
inductive DelayedCalls (ar : Arith) (f : F) : ℕ → List (Seen D E) → Prop where
  | waits {n g} : Runs Future.Steps f (List.replicate n .pending) g →
      DelayedCalls ar f n (List.replicate n waiting)
  | resolves {n g t b g'} (m : ℕ) : Runs Future.Steps f (List.replicate n .pending) g →
      Future.Steps g t (.ready (.ok b)) g' →
      DelayedCalls ar f (n + (m + 1)) (List.replicate n waiting ++
        (calls Body.pollFrame (Body.look ar) (m + 1) b).modifyHead
          fun call => ([⟨0, .ready true⟩] ++ call.1, call.2))
  | fails {n g t err g'} (m : ℕ) : Runs Future.Steps f (List.replicate n .pending) g →
      Future.Steps g t (.ready (.error err)) g' →
      DelayedCalls ar f (n + (m + 1))
        (List.replicate n waiting ++ failing (Into.into err) :: List.replicate m finished)
  | stops {n g t stop} (m : ℕ) : Runs Future.Steps f (List.replicate n .pending) g →
      Future.poll g = ⟨t, .error stop⟩ →
      DelayedCalls ar f (n + (m + 1)) (List.replicate n waiting ++ [([⟨0, .stopped⟩], .error stop)])

/-! ## The phases -/

theorem calls_waiting (ar : Arith) {f g : F} {n : ℕ}
    (h : Runs Future.Steps f (List.replicate n .pending) g) (m : ℕ) :
    calls Body.pollFrame (Body.look ar) (n + m) (.future ⟨0, f⟩ : TryFutureBody (Probe F) B) =
      List.replicate n waiting ++
        calls Body.pollFrame (Body.look ar) m (.future ⟨0, g⟩ : TryFutureBody (Probe F) B) := by
  induction n generalizing f with
  | zero =>
      obtain rfl := runs_nil_iff.mp h
      rw [Nat.zero_add]
      rfl
  | succ n ih =>
      rw [List.replicate_succ] at h
      obtain ⟨t, f₁, hstep, hrest⟩ := runs_cons_iff.mp h
      have hcall : Body.Steps (.future ⟨0, f⟩ : TryFutureBody (Probe F) B) [⟨0, .pending⟩]
          .pending (.future ⟨0, f₁⟩) :=
        steps_iff.mpr (.futurePending (Probe.future_step 0 hstep))
      rw [Nat.add_right_comm, calls_next hcall, ih hrest]
      rfl

/-- Once the future has yielded a body, this body is seen as it is. -/
theorem lockstep_body (ar : Arith) :
    Lockstep (Body.pollFrame (B := TryFutureBody F B)) (Body.pollFrame (B := B))
      (Body.look ar) (Body.look ar) fun w b => w = .body b := by
  constructor
  · intro w b hw
    subst hw
    rcases hpoll : Body.pollFrame b with ⟨t, stop | ⟨r, b'⟩⟩
    · have hcall : Body.pollFrame (.body b : TryFutureBody F B) = ⟨t, .error stop⟩ :=
        Call.bind_eq_error.mpr (.inl hpoll)
      exact .of_stops hcall rfl
    · have hcall : Body.Steps (.body b : TryFutureBody F B) t r (.body b') :=
        steps_iff.mpr (.body hpoll)
      exact .of_eq hcall rfl rfl
  · intro w b hw
    subst hw
    rfl

/-- When the future yields a body, the wrapper polls itself again. -/
theorem pollFrame_resolved {f f' : F} {t : List Event} {b : B}
    (h : Future.Steps f t (.ready (.ok b)) f') :
    Body.pollFrame (.future f : TryFutureBody F B) =
      (Body.pollFrame (.body b : TryFutureBody F B)).after t := by
  change (Future.poll f >>= _) = _
  rw [h]
  rfl

theorem calls_resolved (ar : Arith) {f f' : F} {t : List Event} {b : B}
    (h : Future.Steps f t (.ready (.ok b)) f') (m : ℕ) :
    calls Body.pollFrame (Body.look ar) (m + 1) (.future ⟨0, f⟩ : TryFutureBody (Probe F) B) =
      (calls Body.pollFrame (Body.look ar) (m + 1) b).modifyHead
        fun call => ([⟨0, .ready true⟩] ++ call.1, call.2) := by
  have hafter := pollFrame_resolved (Probe.future_step 0 h)
  have hbody := (lockstep_body ar).calls_eq (s := (.body b : TryFutureBody (Probe F) B)) rfl (m + 1)
  rw [calls_after hafter, hbody]
  rfl

theorem calls_failed (ar : Arith) (m : ℕ) :
    calls Body.pollFrame (Body.look ar) m (.failed : TryFutureBody F B) =
      List.replicate m finished := by
  induction m with
  | zero => rfl
  | succ m ih =>
      have hcall : Body.Steps (.failed : TryFutureBody F B) [] (.ready none) .failed :=
        steps_iff.mpr .failed
      rw [calls_next hcall, ih]
      rfl

theorem calls_fails (ar : Arith) {f f' : F} {t : List Event} {err : E₁}
    (h : Future.Steps f t (.ready (.error err)) f') (m : ℕ) :
    calls Body.pollFrame (Body.look ar) (m + 1) (.future ⟨0, f⟩ : TryFutureBody (Probe F) B) =
      failing (Into.into err) :: List.replicate m finished := by
  have hcall : Body.Steps (.future ⟨0, f⟩ : TryFutureBody (Probe F) B) [⟨0, .ready true⟩]
      (.ready (.error (Into.into err))) .failed :=
    steps_iff.mpr (.futureError (Probe.future_step 0 h))
  rw [calls_next hcall, calls_failed]
  rfl

theorem calls_stopped (ar : Arith) {f : F} {t : List Event} {stop : Stop}
    (h : Future.poll f = ⟨t, .error stop⟩) (m : ℕ) :
    calls Body.pollFrame (Body.look ar) (m + 1) (.future ⟨0, f⟩ : TryFutureBody (Probe F) B) =
      [([⟨0, .stopped⟩], .error stop)] := by
  have hcall : Body.pollFrame (.future ⟨0, f⟩ : TryFutureBody (Probe F) B) =
      ⟨[⟨0, .stopped⟩], .error stop⟩ :=
    Call.bind_eq_error.mpr (.inl (Probe.future_stops h 0))
  exact calls_stops hcall m

/-! ## The whole run -/

theorem DelayedCalls.eq_calls {ar : Arith} {f : F} {n : ℕ} {l : List (Seen D E)}
    (h : DelayedCalls ar f n l) :
    l = calls Body.pollFrame (Body.look ar) n (new ⟨0, f⟩ : TryFutureBody (Probe F) B) := by
  cases h with
  | waits hrun =>
      have hcalls := calls_waiting ar hrun 0
      rw [Nat.add_zero] at hcalls
      exact (hcalls.trans (List.append_nil _)).symm
  | resolves m hrun hready =>
      rw [new, calls_waiting ar hrun, calls_resolved ar hready]
  | fails m hrun hready => rw [new, calls_waiting ar hrun, calls_fails ar hready]
  | stops m hrun hstop => rw [new, calls_waiting ar hrun, calls_stopped ar hstop]

/-- However the future goes on, the calls are those of a delayed body. -/
theorem delayedCalls_calls (ar : Arith) (f : F) (n : ℕ) :
    DelayedCalls ar f n
      (calls Body.pollFrame (Body.look ar) n (new ⟨0, f⟩ : TryFutureBody (Probe F) B)) := by
  have hdelayed : ∃ l, DelayedCalls (D := D) (E := E) ar f n l := by
    rcases pendings_or_first Future.Steps f n with ⟨g, hrun⟩ | ⟨k, m, g, rfl, hrun, hfirst⟩
    · exact ⟨_, .waits hrun⟩
    · rcases hpoll : Future.poll g with ⟨t, stop | ⟨_ | (err | b), g'⟩⟩
      · exact ⟨_, .stops m hrun hpoll⟩
      · exact (hfirst t g' hpoll).elim
      · exact ⟨_, .fails m hrun hpoll⟩
      · exact ⟨_, .resolves m hrun hpoll⟩
  obtain ⟨l, hl⟩ := hdelayed
  exact hl.eq_calls ▸ hl

theorem mem_waiting {n : ℕ} {event : Event}
    (h : event ∈ (List.replicate n (waiting : Seen D E)).flatMap Prod.fst) :
    event = ⟨0, .pending⟩ := by
  obtain ⟨call, hcall, hevent⟩ := List.mem_flatMap.mp h
  obtain rfl := List.eq_of_mem_replicate hcall
  exact List.mem_singleton.mp hevent

/-- A future that was pending may be polled once more, if only others are polled
from then on. -/
theorem notRepolled_waiting (n : ℕ) (event : Event) {t : List Event}
    (h : ∀ e ∈ t, e.leaf ≠ 0) :
    NotRepolled 0 ((List.replicate n (waiting : Seen D E)).flatMap Prod.fst ++ event :: t) := by
  rw [List.append_cons]
  refine (NotRepolled.snoc ?_ event).append (.of_others h) fun _ => h
  intro hlast
  cases mem_waiting hlast

/-- A future is not polled after it has resolved, if the bodies are other leaves. -/
theorem DelayedCalls.notRepolled {ar : Arith} {f : F} {n : ℕ} {l : List (Seen D E)}
    (hbody : ∀ b : B, ∀ e ∈ (Body.pollFrame b).trace, e.leaf ≠ 0) (h : DelayedCalls ar f n l) :
    NotRepolled 0 (l.flatMap Prod.fst) := by
  cases h with
  | waits _ =>
      apply NotRepolled.of_unresolved
      intro hlast
      cases mem_waiting hlast
  | @resolves n _ _ b _ m _ _ =>
      rw [List.flatMap_append]
      rcases hcalls : calls Body.pollFrame (Body.look ar) (m + 1) b with _ | ⟨call, rest⟩
      · apply NotRepolled.of_unresolved
        intro hlast
        rw [List.modifyHead_nil, List.flatMap_nil, List.append_nil] at hlast
        cases mem_waiting hlast
      · apply notRepolled_waiting n ⟨0, .ready true⟩
        intro e he
        have hmem : e ∈ (calls Body.pollFrame (Body.look ar) (m + 1) b).flatMap Prod.fst := by
          rw [hcalls]
          exact he
        obtain ⟨b', hb'⟩ := mem_trace_of_mem_calls hmem
        exact hbody b' e hb'
  | @fails n _ _ err _ m _ _ =>
      rw [List.flatMap_append]
      apply notRepolled_waiting n ⟨0, .ready true⟩
      intro e he
      obtain ⟨call, hcall, hevent⟩ := List.mem_flatMap.mp he
      obtain rfl := List.eq_of_mem_replicate hcall
      cases hevent
  | @stops n _ _ stop m _ _ =>
      rw [List.flatMap_append]
      apply notRepolled_waiting n ⟨0, .stopped⟩
      intro e he
      cases he

/-- A body backed by a future is its body, delayed by the future: this is what its
calls are, however many are made.  The future is not polled after it has resolved.
Before the first call nothing is claimed of the body, which is right for any. -/
theorem delayed_by_future [Buf D] (ar : Arith) (f : F) :
    (∀ n l, DelayedCalls ar f n l ↔
      l = calls Body.pollFrame (Body.look ar) n (new ⟨0, f⟩ : TryFutureBody (Probe F) B)) ∧
    ((∀ b : B, ∀ e ∈ (Body.pollFrame b).trace, e.leaf ≠ 0) → ∀ n, NotRepolled 0
      ((calls Body.pollFrame (Body.look ar) n
        (new ⟨0, f⟩ : TryFutureBody (Probe F) B)).flatMap Prod.fst)) ∧
    Body.look ar (new f : TryFutureBody F B) = (false, .ok .new) ∧
    Body.HintOk (new f : TryFutureBody F B) := by
  refine ⟨?_, ?_, rfl, ?_⟩
  · intro n l
    constructor
    · intro h
      exact h.eq_calls
    · intro hl
      rw [hl]
      exact delayedCalls_calls ar f n
  · intro hbody n
    exact (delayedCalls_calls ar f n).notRepolled hbody
  · exact (Body.Bounds.of_new rfl).hintOk

end

/-- A future that is pending twice and then yields a body, which is suspended in the call
in which it appears. -/
def belated : Playback (Except Infallible (Playback (Item Bytes Infallible))) :=
  ⟨[.pending, .pending, .ready (.ok ⟨[.pending, .ready (.data (.single 1))]⟩)]⟩

/-- It is polled in the first three calls only. -/
theorem delayed_by_future_belated :
    DelayedCalls .checked belated 5
        [waiting, waiting, ([⟨0, .ready true⟩], .ok (.pending, false, .ok .new)),
          ([], .ok (.ready (.data (.single 1)), false, .ok .new)),
          ([], .error (.foreign "no answer is left"))] ∧
      NotRepolled 0 ((calls Body.pollFrame (Body.look .checked) 5
        (new ⟨0, belated⟩ : TryFutureBody (Probe _) (Playback (Item Bytes Infallible)))).flatMap
          Prod.fst) := by
  obtain ⟨hcalls, honce, -⟩ := delayed_by_future .checked belated
  refine ⟨(hcalls 5 _).mpr rfl, honce ?_ 5⟩
  rintro ⟨_ | ⟨r, answers⟩⟩ e ⟨⟩

end TryFutureBody

end HttpBody
