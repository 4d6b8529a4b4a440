import HttpBody.Core.HeaderTable
import HttpBody.Support.Lockstep
import HttpBody.Util.Chain
import HttpBody.Util.Leaves

/-!
# The whole run of a chain

Every call of a chain is, together with the leaves that it polls, determined by what
its two bodies give: the first is polled up to its first terminal answer, in the call
that hears this answer already the second, and neither is polled any further.  Nothing is
assumed about the bodies; `HeaderMap::extend` is taken to return.
-/

namespace HttpBody

open Support

namespace Chain

section

variable [Foreign] {A B D E E₁ E₂ : Type}

/-- The trailers of a chain by those of its bodies: under every name the values
of the second body, or else those of the first. -/
inductive Merged :
    Option HeaderMap → Option HeaderMap → Option HeaderMap → Prop where
  | neither : Merged none none none
  | first (a : HeaderMap) : Merged (some a) none (some a)
  | second (b : HeaderMap) : Merged none (some b) (some b)
  | both {a b m : HeaderMap} :
      (∀ name, Foreign.getAll m name =
        if (Foreign.getAll b name).isEmpty then Foreign.getAll a name
        else Foreign.getAll b name) →
      Merged (some a) (some b) (some m)

theorem merged_mergeTrailers [LawfulHeaderMap] (ta tb : Option HeaderMap) :
    Merged ta tb (mergeTrailers ta tb) := by
  rcases ta with _ | a <;> rcases tb with _ | b
  · exact .neither
  · exact .second b
  · exact .first a
  · exact .both fun name => LawfulHeaderMap.getAll_extend a b name

theorem Merged.eq_mergeTrailers [LawfulHeaderMap] {ta tb tc : Option HeaderMap}
    (h : Merged ta tb tc) : tc = mergeTrailers ta tb := by
  cases h with
  | neither => rfl
  | first a => rfl
  | second b => rfl
  | both hall =>
      refine congrArg some (LawfulHeaderMap.ext fun name => ?_)
      rw [hall, LawfulHeaderMap.getAll_extend]

/-- The leaf `0` is polled up to its last answer, and then the leaf `1`. -/
def TurnTaking (t : List Event) : Prop :=
  ∃ t₀ t₁, t = t₀ ++ t₁ ∧ (∀ e ∈ t₀, e.leaf = 0) ∧ (∀ e ∈ t₁, e.leaf = 1) ∧
    (t₁ ≠ [] → ⟨0, .ready true⟩ ∈ t₀) ∧ NotRepolled 0 t₀ ∧ NotRepolled 1 t₁

/-! ## What the calls are -/

/-- A call, the leaves that it polled, and whether the chain says after it that its end
has been reached. -/
abbrev Seen (D E : Type) := List Event × Except Stop (PollFrame D E × Bool)

/-- An answer of a body that has more to come: it is pending, or has data. -/
def ongoing : Poll D → PollFrame D E
  | .pending => .pending
  | .ready d => .ready (.data d)

/-- Calls of `b` that give `ps`, with more to come, lead to `b'`. -/
abbrev GoesOn {B : Type} [Body B D E] (b : B) (ps : List (Poll D)) (b' : B) : Prop :=
  Runs Body.Steps b (ps.map ongoing) b'

/-- A call that gives what the leaf `leaf` gives, which has more to come. -/
def relayed (leaf : ℕ) (p : Poll D) : Seen D E :=
  ([⟨leaf, p.outcome fun _ => false⟩], .ok (ongoing p, false))

/-- The call in which the leaf `leaf` ended, for which the chain gives `x`. -/
def ending (leaf : ℕ) (x : Item D E) : Seen D E :=
  ([⟨leaf, .ready true⟩], .ok (.ready x, true))

/-- A call after the chain has ended. -/
def ended : Seen D E := ([], .ok (.ready none, true))

/-- A call in which the leaf `leaf` did not return. -/
def stopping (leaf : ℕ) (stop : Stop) : Seen D E := ([⟨leaf, .stopped⟩], .error stop)

variable [Body A D E₁] [Body B D E₂] [Into E₁ E₂]

/-- `SecondCalls b ta n l`: once the first body has ended with the trailers `ta`, `n`
calls are seen as `l`.  The second body, the leaf 1, is relayed up to its first terminal
answer, which is given as it is if it is an error, and with the trailers of both bodies
otherwise; nothing is polled from then on. -/
inductive SecondCalls (b : B) (ta : Option HeaderMap) : ℕ → List (Seen D E₂) → Prop where
  | goesOn {ps b'} : GoesOn b ps b' →
      SecondCalls b ta ps.length (ps.map (relayed 1))
  | fails {ps b' t err b''} (m : ℕ) : GoesOn b ps b' →
      Body.Steps b' t (.ready (.error err)) b'' →
      SecondCalls b ta (ps.length + (m + 1))
        (ps.map (relayed 1) ++ ending 1 (.error err) :: List.replicate m ended)
  | ends {ps b' t y tb b'' tc} (m : ℕ) : GoesOn b ps b' →
      Body.Steps b' t (.ready y) b'' → Item.Ends y tb → Merged ta tb tc →
      SecondCalls b ta (ps.length + (m + 1))
        (ps.map (relayed 1) ++ ending 1 (Item.ofTrailers tc) :: List.replicate m ended)
  | stops {ps b' t stop} (m : ℕ) : GoesOn b ps b' →
      Body.pollFrame b' = ⟨t, .error stop⟩ →
      SecondCalls b ta (ps.length + (m + 1)) (ps.map (relayed 1) ++ [stopping 1 stop])

/-- `ChainedCalls a b n l`: `n` calls of a chain of `a` and `b` are seen as `l`.  The
first body, the leaf 0, is relayed up to its first terminal answer.  If that is an error,
it is converted, and nothing is polled from then on; otherwise it is not seen, and the
calls of the second body follow, of which the first also polls the first body. -/
inductive ChainedCalls (a : A) (b : B) : ℕ → List (Seen D E₂) → Prop where
  | goesOn {ps a'} : GoesOn a ps a' →
      ChainedCalls a b ps.length (ps.map (relayed 0))
  | fails {ps a' t err a''} (m : ℕ) : GoesOn a ps a' →
      Body.Steps a' t (.ready (.error err)) a'' →
      ChainedCalls a b (ps.length + (m + 1))
        (ps.map (relayed 0) ++ ending 0 (.error (Into.into err)) :: List.replicate m ended)
  | handsOver {ps a' t x ta a'' m l} : GoesOn a ps a' →
      Body.Steps a' t (.ready x) a'' → Item.Ends x ta → SecondCalls b ta (m + 1) l →
      ChainedCalls a b (ps.length + (m + 1)) (ps.map (relayed 0) ++
        l.modifyHead fun call => ([⟨0, .ready true⟩] ++ call.1, call.2))
  | stops {ps a' t stop} (m : ℕ) : GoesOn a ps a' →
      Body.pollFrame a' = ⟨t, .error stop⟩ →
      ChainedCalls a b (ps.length + (m + 1)) (ps.map (relayed 0) ++ [stopping 0 stop])

/-! ## The phases -/

/-- How a body goes on in `n` calls: it has more to come in some first ones, and then ends
or does not return. -/
inductive Course {B : Type} [Body B D E] (b : B) : ℕ → Prop where
  | goesOn {ps b'} : GoesOn b ps b' → Course b ps.length
  | fails {ps b' t err b''} (m : ℕ) : GoesOn b ps b' →
      Body.Steps b' t (.ready (.error err)) b'' → Course b (ps.length + (m + 1))
  | ends {ps b' t x ta b''} (m : ℕ) : GoesOn b ps b' →
      Body.Steps b' t (.ready x) b'' → Item.Ends x ta → Course b (ps.length + (m + 1))
  | stops {ps b' t stop} (m : ℕ) : GoesOn b ps b' →
      Body.pollFrame b' = ⟨t, .error stop⟩ → Course b (ps.length + (m + 1))

theorem course {B : Type} [Body B D E] (b : B) (n : ℕ) : Course b n := by
  rcases runs_or_first Body.Steps ongoing b n with
    ⟨ps, b', rfl, hrun⟩ | ⟨ps, m, b', rfl, hrun, hfirst⟩
  · exact .goesOn hrun
  · rcases hpoll : Body.pollFrame b' with ⟨t, stop | ⟨_ | (_ | (err | (d | map))), b''⟩⟩
    · exact .stops m hrun hpoll
    · exact (hfirst .pending t b'' hpoll).elim
    · exact .ends m hrun hpoll .finish
    · exact .fails m hrun hpoll
    · exact (hfirst (.ready d) t b'' hpoll).elim
    · exact .ends m hrun hpoll (.trailers map)

/-- A body under the name `leaf` is relayed while it has more to come, if the chain that
holds it does so in one call. -/
theorem calls_relayed {X : Type} [Body X D E] {leaf : ℕ}
    (wrap : Probe X → Chain (Probe A) (Probe B))
    (hend : ∀ p, Body.isEndStream (wrap p) = false)
    (hcall : ∀ p t (r : Poll D) q, Body.Steps p t (ongoing r : PollFrame D E) q →
      Body.Steps (wrap p) t (ongoing r) (wrap q))
    {x x' : X} {ps : List (Poll D)} (h : GoesOn x ps x') (m : ℕ) :
    calls Body.pollFrame Body.isEndStream (ps.length + m) (wrap ⟨leaf, x⟩) =
      ps.map (relayed leaf) ++
        calls Body.pollFrame Body.isEndStream m (wrap ⟨leaf, x'⟩) := by
  induction ps generalizing x with
  | nil =>
      obtain rfl := runs_nil_iff.mp h
      rw [List.length_nil, Nat.zero_add]
      rfl
  | cons p ps ih =>
      obtain ⟨t, x₁, hstep, hrest⟩ := runs_cons_iff.mp h
      have hevent : Item.event leaf (ongoing p : PollFrame D E) =
          ⟨leaf, p.outcome fun _ => false⟩ := by
        cases p <;> rfl
      rw [List.length_cons, Nat.add_right_comm,
        calls_next (hcall _ _ p _ (Probe.step leaf hstep)), ih hrest, hend, hevent]
      rfl

theorem calls_finished (m : ℕ) :
    calls Body.pollFrame Body.isEndStream m (.finished : Chain (Probe A) (Probe B)) =
      List.replicate m ended := by
  induction m with
  | zero => rfl
  | succ m ih =>
      have hcall : Body.Steps (.finished : Chain (Probe A) (Probe B)) [] (.ready none) .finished :=
        steps_of_step .finished
      rw [calls_next hcall, ih]
      rfl

/-! ## The second body -/

theorem calls_second {b b' : B} {ps : List (Poll D)} (ta : Option HeaderMap)
    (h : GoesOn b ps b') (m : ℕ) :
    calls Body.pollFrame Body.isEndStream (ps.length + m)
        (.second ⟨1, b⟩ ta : Chain (Probe A) (Probe B)) =
      ps.map (relayed 1) ++ calls Body.pollFrame Body.isEndStream m
        (.second ⟨1, b'⟩ ta : Chain (Probe A) (Probe B)) := by
  refine calls_relayed (fun p => (.second p ta : Chain (Probe A) (Probe B))) (fun _ => rfl) ?_ h m
  rintro p t (_ | d) q hstep
  · exact steps_of_step (.secondPending hstep)
  · exact steps_of_step (.secondData hstep)

theorem SecondCalls.eq_calls [LawfulHeaderMap] {b : B} {ta : Option HeaderMap} {n : ℕ}
    {l : List (Seen D E₂)} (h : SecondCalls b ta n l) :
    l = calls Body.pollFrame Body.isEndStream n
      (.second ⟨1, b⟩ ta : Chain (Probe A) (Probe B)) := by
  cases h with
  | goesOn hrun =>
      have hcalls := calls_second (A := A) ta hrun 0
      exact (hcalls.trans (List.append_nil _)).symm
  | fails m hrun hstep =>
      have hcall : Body.Steps (.second _ ta : Chain (Probe A) (Probe B)) _ _ _ :=
        steps_of_step (.secondError (Probe.step 1 hstep))
      rw [calls_second ta hrun, calls_next hcall, calls_finished]
      rfl
  | ends m hrun hstep hy hmerged =>
      have hcall : Body.Steps (.second _ ta : Chain (Probe A) (Probe B)) _ _ _ :=
        steps_of_step (.secondEnds (Probe.step 1 hstep) hy)
      rw [calls_second ta hrun, calls_next hcall, calls_finished, hmerged.eq_mergeTrailers,
        Item.event, Poll.outcome, hy.isTerminal]
      rfl
  | stops m hrun hstop =>
      have hcall : Body.pollFrame (.second _ ta : Chain (Probe A) (Probe B)) = _ :=
        second_stops (Probe.stops hstop 1)
      rw [calls_second ta hrun, calls_stops hcall]
      rfl

theorem secondCalls_calls [LawfulHeaderMap] (b : B) (ta : Option HeaderMap) (n : ℕ) :
    SecondCalls b ta n (calls Body.pollFrame Body.isEndStream n
      (.second ⟨1, b⟩ ta : Chain (Probe A) (Probe B))) := by
  have hsecond : ∃ l, SecondCalls b ta n l := by
    cases course b n with
    | goesOn hrun => exact ⟨_, .goesOn hrun⟩
    | fails m hrun hstep => exact ⟨_, .fails m hrun hstep⟩
    | ends m hrun hstep hy => exact ⟨_, .ends m hrun hstep hy (merged_mergeTrailers ta _)⟩
    | stops m hrun hstop => exact ⟨_, .stops m hrun hstop⟩
  obtain ⟨l, hl⟩ := hsecond
  exact hl.eq_calls (A := A) ▸ hl

/-! ## The first body -/

theorem calls_first {a a' : A} {ps : List (Poll D)} (b : B)
    (h : GoesOn a ps a') (m : ℕ) :
    calls Body.pollFrame Body.isEndStream (ps.length + m)
        (new ⟨0, a⟩ ⟨1, b⟩ : Chain (Probe A) (Probe B)) =
      ps.map (relayed 0) ++ calls Body.pollFrame Body.isEndStream m
        (new ⟨0, a'⟩ ⟨1, b⟩ : Chain (Probe A) (Probe B)) := by
  refine calls_relayed (fun p => (new p ⟨1, b⟩ : Chain (Probe A) (Probe B))) (fun _ => rfl) ?_ h m
  rintro p t (_ | d) q hstep
  · exact steps_of_step (.firstPending hstep)
  · exact steps_of_step (.firstData hstep)

/-- When the first body ends, the chain polls itself again. -/
theorem pollFrame_handsOver {a a' : A} {t : List Event} {x : Item D E₁} {ta : Option HeaderMap}
    (h : Body.Steps a t (.ready x) a') (hx : Item.Ends x ta) (b : B) :
    Body.pollFrame (new a b) = (Body.pollFrame (.second b ta : Chain A B)).after t := by
  change (Body.pollFrame a >>= _) = _
  rw [h]
  cases hx <;> rfl

theorem ChainedCalls.eq_calls [LawfulHeaderMap] {a : A} {b : B} {n : ℕ} {l : List (Seen D E₂)}
    (h : ChainedCalls a b n l) :
    l = calls Body.pollFrame Body.isEndStream n
      (new ⟨0, a⟩ ⟨1, b⟩ : Chain (Probe A) (Probe B)) := by
  cases h with
  | goesOn hrun =>
      have hcalls := calls_first b hrun 0
      exact (hcalls.trans (List.append_nil _)).symm
  | fails m hrun hstep =>
      have hcall := steps_of_step (.firstError (b := (⟨1, b⟩ : Probe B)) (Probe.step 0 hstep))
      rw [calls_first b hrun, new, calls_next hcall, calls_finished]
      rfl
  | handsOver hrun hstep hx hsecond =>
      have hafter := pollFrame_handsOver (Probe.step 0 hstep) hx (⟨1, b⟩ : Probe B)
      rw [calls_first b hrun, calls_after hafter, ← hsecond.eq_calls, Item.event, Poll.outcome,
        hx.isTerminal]
  | stops m hrun hstop =>
      have hcall := first_stops (b := some (⟨1, b⟩ : Probe B)) (Probe.stops hstop 0)
      rw [calls_first b hrun, new, calls_stops hcall]
      rfl

/-- However the bodies go on, the calls are those of a chain. -/
theorem chainedCalls_calls [LawfulHeaderMap] (a : A) (b : B) (n : ℕ) :
    ChainedCalls a b n (calls Body.pollFrame Body.isEndStream n
      (new ⟨0, a⟩ ⟨1, b⟩ : Chain (Probe A) (Probe B))) := by
  have hchained : ∃ l : List (Seen D E₂), ChainedCalls a b n l := by
    cases course a n with
    | goesOn hrun => exact ⟨_, .goesOn hrun⟩
    | fails m hrun hstep => exact ⟨_, .fails m hrun hstep⟩
    | ends m hrun hstep hx =>
        exact ⟨_, .handsOver hrun hstep hx (secondCalls_calls (A := A) b _ (m + 1))⟩
    | stops m hrun hstop => exact ⟨_, .stops m hrun hstop⟩
  obtain ⟨l, hl⟩ := hchained
  exact hl.eq_calls ▸ hl

/-! ## Which leaves are polled -/

theorem mem_relayed {leaf : ℕ} {ps : List (Poll D)} {e : Event}
    (h : e ∈ (ps.map (relayed leaf : Poll D → Seen D E)).flatMap Prod.fst) :
    e.leaf = leaf ∧ e ≠ ⟨leaf, .ready true⟩ := by
  obtain ⟨call, hcall, he⟩ := List.mem_flatMap.mp h
  obtain ⟨p, -, rfl⟩ := List.mem_map.mp hcall
  obtain rfl := List.mem_singleton.mp he
  cases p <;> exact ⟨rfl, by simp [Poll.outcome]⟩

theorem polls_relayed {leaf : ℕ} (ps : List (Poll D)) :
    (∀ e ∈ (ps.map (relayed leaf : Poll D → Seen D E)).flatMap Prod.fst, e.leaf = leaf) ∧
      NotRepolled leaf ((ps.map (relayed leaf : Poll D → Seen D E)).flatMap Prod.fst) := by
  constructor
  · exact fun e he => (mem_relayed he).1
  · exact .of_unresolved fun hlast => (mem_relayed hlast).2 rfl

/-- A body that has more to come may be polled once more. -/
theorem polls_snoc {leaf : ℕ} (ps : List (Poll D)) (o : Outcome) :
    (∀ e ∈ (ps.map (relayed leaf : Poll D → Seen D E)).flatMap Prod.fst ++ [⟨leaf, o⟩],
        e.leaf = leaf) ∧
      NotRepolled leaf
        ((ps.map (relayed leaf : Poll D → Seen D E)).flatMap Prod.fst ++ [⟨leaf, o⟩]) := by
  constructor
  · intro e he
    rcases List.mem_append.mp he with hrelayed | hlast
    · exact (mem_relayed hrelayed).1
    · obtain rfl := List.mem_singleton.mp hlast
      rfl
  · exact .snoc (fun hlast => (mem_relayed hlast).2 rfl) _

/-- Nothing is polled after the end. -/
theorem polls_ended (m : ℕ) : (List.replicate m (ended : Seen D E)).flatMap Prod.fst = [] := by
  induction m with
  | zero => rfl
  | succ m ih => exact ih

theorem SecondCalls.polls {b : B} {ta : Option HeaderMap} {n : ℕ} {l : List (Seen D E₂)}
    (h : SecondCalls b ta n l) :
    (∀ e ∈ l.flatMap Prod.fst, e.leaf = 1) ∧ NotRepolled 1 (l.flatMap Prod.fst) := by
  cases h with
  | goesOn _ => exact polls_relayed _
  | @fails ps _ _ err _ m _ _ =>
      rw [List.flatMap_append, List.flatMap_cons, polls_ended]
      exact polls_snoc ps _
  | @ends ps _ _ _ _ _ tc m _ _ _ _ =>
      rw [List.flatMap_append, List.flatMap_cons, polls_ended]
      exact polls_snoc ps _
  | @stops ps _ _ stop m _ _ =>
      rw [List.flatMap_append]
      exact polls_snoc ps _

omit [Foreign] in
theorem turnTaking_first {t : List Event} (h : (∀ e ∈ t, e.leaf = 0) ∧ NotRepolled 0 t) :
    TurnTaking t :=
  ⟨t, [], (List.append_nil t).symm, h.1, by simp, by simp, h.2, .nil⟩

theorem ChainedCalls.turnTaking {a : A} {b : B} {n : ℕ} {l : List (Seen D E₂)}
    (h : ChainedCalls a b n l) : TurnTaking (l.flatMap Prod.fst) := by
  cases h with
  | goesOn _ => exact turnTaking_first (polls_relayed _)
  | @fails ps _ _ err _ m _ _ =>
      rw [List.flatMap_append, List.flatMap_cons, polls_ended]
      exact turnTaking_first (polls_snoc ps _)
  | @handsOver ps _ _ _ _ _ m l _ _ _ hsecond =>
      obtain ⟨hleaf, honce⟩ := hsecond.polls
      rw [List.flatMap_append]
      cases l with
      | nil =>
          rw [List.modifyHead_nil, List.flatMap_nil, List.append_nil]
          exact turnTaking_first (polls_relayed ps)
      | cons call rest =>
          rw [List.modifyHead_cons, List.flatMap_cons, List.append_assoc, ← List.append_assoc]
          obtain ⟨hfirst, hfirstOnce⟩ := polls_snoc (D := D) (E := E₂) ps (.ready true)
          exact ⟨_, _, rfl, hfirst, hleaf, fun _ => by simp, hfirstOnce, honce⟩
  | @stops ps _ _ stop m _ _ =>
      rw [List.flatMap_append]
      exact turnTaking_first (polls_snoc ps _)

/-! ## Calls that do not return -/

/-- If the call does not return, then the leaf that it polled last is to blame. -/
def StopsInLeaf (call : Seen D E) : Prop :=
  ∀ stop, call.2 = .error stop → ∃ t leaf, call.1 = t ++ [⟨leaf, .stopped⟩]

theorem stopsInLeaf_of_ok {t : List Event} {r : PollFrame D E × Bool} :
    StopsInLeaf (t, .ok r) := by
  rintro stop ⟨⟩

theorem StopsInLeaf.after {call : Seen D E} (t : List Event) (h : StopsInLeaf call) :
    StopsInLeaf (t ++ call.1, call.2) := by
  intro stop hstop
  obtain ⟨u, leaf, htrace⟩ := h stop hstop
  refine ⟨t ++ u, leaf, ?_⟩
  rw [htrace, List.append_assoc]

theorem stopsInLeaf_relayed (leaf : ℕ) (ps : List (Poll D)) :
    ∀ call ∈ ps.map (relayed leaf : Poll D → Seen D E), StopsInLeaf call := by
  intro call hcall
  obtain ⟨p, -, rfl⟩ := List.mem_map.mp hcall
  exact stopsInLeaf_of_ok

/-- The calls with the end, and those after it. -/
theorem stopsInLeaf_ending (leaf : ℕ) (x : Item D E) (m : ℕ) :
    ∀ call ∈ ending leaf x :: List.replicate m ended, StopsInLeaf call := by
  intro call hcall
  rcases List.mem_cons.mp hcall with rfl | hended
  · exact stopsInLeaf_of_ok
  · obtain rfl := List.eq_of_mem_replicate hended
    exact stopsInLeaf_of_ok

theorem stopsInLeaf_stopping (leaf : ℕ) (stop : Stop) :
    ∀ call ∈ [(stopping leaf stop : Seen D E)], StopsInLeaf call := by
  intro call hcall
  obtain rfl := List.mem_singleton.mp hcall
  exact fun _ _ => ⟨[], leaf, rfl⟩

theorem SecondCalls.stopsInLeaf {b : B} {ta : Option HeaderMap} {n : ℕ} {l : List (Seen D E₂)}
    (h : SecondCalls b ta n l) : ∀ call ∈ l, StopsInLeaf call := by
  cases h with
  | goesOn _ => exact stopsInLeaf_relayed 1 _
  | fails m _ _ =>
      exact List.forall_mem_append.mpr ⟨stopsInLeaf_relayed 1 _, stopsInLeaf_ending 1 _ m⟩
  | ends m _ _ _ _ =>
      exact List.forall_mem_append.mpr ⟨stopsInLeaf_relayed 1 _, stopsInLeaf_ending 1 _ m⟩
  | stops m _ _ =>
      exact List.forall_mem_append.mpr ⟨stopsInLeaf_relayed 1 _, stopsInLeaf_stopping 1 _⟩

theorem ChainedCalls.stopsInLeaf {a : A} {b : B} {n : ℕ} {l : List (Seen D E₂)}
    (h : ChainedCalls a b n l) : ∀ call ∈ l, StopsInLeaf call := by
  cases h with
  | goesOn _ => exact stopsInLeaf_relayed 0 _
  | fails m _ _ =>
      exact List.forall_mem_append.mpr ⟨stopsInLeaf_relayed 0 _, stopsInLeaf_ending 0 _ m⟩
  | @handsOver _ _ _ _ _ _ _ l _ _ _ hsecond =>
      refine List.forall_mem_append.mpr ⟨stopsInLeaf_relayed 0 _, ?_⟩
      have hall := hsecond.stopsInLeaf
      cases l with
      | nil => exact hall
      | cons call rest =>
          obtain ⟨hfirst, hrest⟩ := List.forall_mem_cons.mp hall
          exact List.forall_mem_cons.mpr ⟨hfirst.after _, hrest⟩
  | stops m _ _ =>
      exact List.forall_mem_append.mpr ⟨stopsInLeaf_relayed 0 _, stopsInLeaf_stopping 0 _⟩

/-! ## The whole run -/

/-- The whole-run law of a chain of two arbitrary bodies, observed under the names `0` and
`1`: what its calls are, however many are made; in which order and how far it polls its
bodies, also in a call that does not return; and that no `unwrap` of its own fails: after
such a failure the leaf that was polled last is one that did not return. -/
theorem whole_run [LawfulHeaderMap] (a : A) (b : B) (n : ℕ) :
    (∀ l, ChainedCalls a b n l ↔ l = calls Body.pollFrame Body.isEndStream n
        (new ⟨0, a⟩ ⟨1, b⟩ : Chain (Probe A) (Probe B))) ∧
      TurnTaking ((calls Body.pollFrame Body.isEndStream n
        (new ⟨0, a⟩ ⟨1, b⟩ : Chain (Probe A) (Probe B))).flatMap Prod.fst) ∧
      ∀ call ∈ calls Body.pollFrame Body.isEndStream n
          (new ⟨0, a⟩ ⟨1, b⟩ : Chain (Probe A) (Probe B)),
        call.2 = .error .unwrapNone → ∃ t leaf, call.1 = t ++ [⟨leaf, .stopped⟩] := by
  have hcalls := chainedCalls_calls a b n
  refine ⟨fun l => ⟨fun h => h.eq_calls, fun hl => hl ▸ hcalls⟩, hcalls.turnTaking, ?_⟩
  intro call hcall hstop
  exact hcalls.stopsInLeaf call hcall _ hstop

end

/-- Both bodies are suspended and have trailers, which share a name. -/
theorem whole_run_playback :
    ∃ map : HeaderTable,
      ChainedCalls
        (⟨[.ready (.data ⟨[1], by decide⟩), .pending, .ready (.trailers fun name => [name])]⟩ :
          Playback (Item Bytes Infallible))
        (⟨[.pending, .ready (.data ⟨[2], by decide⟩),
          .ready (.trailers fun name => if name = 0 then [7] else [])]⟩ :
          Playback (Item Bytes Infallible)) 6
        [relayed 0 (.ready ⟨[1], by decide⟩), relayed 0 .pending,
          ([⟨0, .ready true⟩, ⟨1, .pending⟩], .ok (.pending, false)),
          relayed 1 (.ready ⟨[2], by decide⟩), ending 1 (.trailers map), ended] ∧
      map 0 = [7] ∧ map 5 = [5] :=
  ⟨_, ((whole_run _ _ 6).1 _).mpr rfl, rfl, rfl⟩

end Chain

end HttpBody
