import HttpBody.Support.Lifting
import HttpBody.Support.Loop

/-!
# Sweeping over leaves

A machine that sweeps over a list of leaves polls them in the order of the list.  It may
stay with a leaf for any number of calls, but it never goes back to a leaf that it has
passed, and one call polls each leaf at most once.  So the work of a run is bounded by
the number of its calls and the number of leaves.
-/

namespace HttpBody.Support

open scoped List

universe u

variable {σ τ ω ω' W : Type u}

/-- The leaves that were polled, in order. -/
def leaves (t : List Event) : List ℕ := t.map Event.leaf

@[simp] theorem leaves_nil : leaves [] = [] := rfl

@[simp] theorem leaves_append (t u : List Event) : leaves (t ++ u) = leaves t ++ leaves u :=
  List.map_append

/-! ## Orders -/

/-- `InOrder ls ps`: the polls `ps` go through `ls`, and stay with each entry for a number
of polls, or pass it. -/
inductive InOrder : List ℕ → List ℕ → Prop where
  | done (ls : List ℕ) : InOrder ls []
  | poll {l ls ps} : InOrder (l :: ls) ps → InOrder (l :: ls) (l :: ps)
  | pass {l ls ps} : InOrder ls ps → InOrder (l :: ls) ps

theorem InOrder.of_sublist {ls ps : List ℕ} (h : ps <+ ls) : InOrder ls ps := by
  induction h with
  | slnil => exact .done []
  | cons l _ ih => exact .pass ih
  | cons_cons l _ ih => exact .poll (.pass ih)

/-- One call: of the leaves `ls` it leaves `ls'` ahead, and it has polled leaves before
those, and perhaps the first of them, each at most once. -/
def Sweep (ls : List ℕ) (t : List Event) (ls' : List ℕ) : Prop :=
  ∃ past, ls = past ++ ls' ∧ leaves t <+ past ++ ls'.take 1

namespace Sweep

variable {la la' lb ls ls' ps : List ℕ} {t u : List Event}

theorem sublist (h : Sweep ls t ls') : leaves t <+ ls := by
  obtain ⟨past, rfl, hpolled⟩ := h
  exact hpolled.trans ((List.Sublist.refl past).append (List.take_sublist 1 ls'))

theorem stay (ls : List ℕ) : Sweep ls [] ls :=
  ⟨[], rfl, List.nil_sublist _⟩

/-- A single leaf, which may be polled again. -/
theorem single {l : ℕ} (h : leaves t = [l]) : Sweep [l] t [l] := by
  refine ⟨[], rfl, ?_⟩
  rw [h]
  exact List.Sublist.refl _

theorem append_right (h : Sweep la t la') (lb : List ℕ) : Sweep (la ++ lb) t (la' ++ lb) := by
  obtain ⟨past, rfl, hpolled⟩ := h
  refine ⟨past, List.append_assoc past la' lb, hpolled.trans ?_⟩
  refine (List.Sublist.refl past).append ?_
  cases la' with
  | nil => exact List.nil_sublist _
  | cons l la' => exact List.Sublist.refl _

/-- A part that is left behind, and then the next one. -/
theorem onto (h : leaves t <+ la) (hnext : Sweep lb u ls') :
    Sweep (la ++ lb) (t ++ u) ls' := by
  obtain ⟨past, rfl, hpolled⟩ := hnext
  refine ⟨la ++ past, (List.append_assoc la past ls').symm, ?_⟩
  rw [leaves_append, List.append_assoc]
  exact h.append hpolled

/-- What is polled in order later is in order after the call as well. -/
theorem inOrder (h : Sweep ls t ls') (hlater : InOrder ls' ps) :
    InOrder ls (leaves t ++ ps) := by
  obtain ⟨past, rfl, hpolled⟩ := h
  generalize leaves t = qs at hpolled
  induction past generalizing qs with
  | nil =>
      cases ls' with
      | nil =>
          cases List.sublist_nil.mp hpolled
          exact hlater
      | cons l ls' =>
          rcases List.sublist_singleton.mp hpolled with rfl | rfl
          · exact hlater
          · exact .poll hlater
  | cons l past ih =>
      cases hpolled with
      | cons _ hrest => exact .pass (ih _ hrest)
      | cons_cons _ hrest => exact .poll (.pass (ih _ hrest))

/-- A call polls at most one leaf more than it leaves behind. -/
theorem length_le (h : Sweep ls t ls') : t.length + ls'.length ≤ ls.length + 1 := by
  obtain ⟨past, rfl, hpolled⟩ := h
  have hle := hpolled.length_le
  simp only [leaves, List.length_map, List.length_append, List.length_take] at hle ⊢
  omega

end Sweep

/-! ## Calls -/

/-- A call that sweeps over `ls`, and leaves a state that is in `R` with the leaves ahead
of it. -/
inductive Call.Sweeps (R : List ℕ → σ → Prop) (ls : List ℕ) : Call (Poll ω × σ) → Prop where
  | returns {t r s ls'} : Sweep ls t ls' → R ls' s → Call.Sweeps R ls ⟨t, .ok (r, s)⟩
  | stops {t e} : leaves t <+ ls → Call.Sweeps R ls ⟨t, .error e⟩

namespace Call.Sweeps

variable {R R' : List ℕ → σ → Prop} {la lb ls : List ℕ} {c : Call (Poll ω × σ)}

theorem mono (himp : ∀ ls s, R ls s → R' ls s) (h : Call.Sweeps R ls c) :
    Call.Sweeps R' ls c := by
  cases h with
  | returns hsweep hR => exact .returns hsweep (himp _ _ hR)
  | stops hpolled => exact .stops hpolled

theorem polled (h : Call.Sweeps R ls c) : leaves c.trace <+ ls := by
  cases h with
  | returns hsweep _ => exact hsweep.sublist
  | stops hpolled => exact hpolled

/-- A call that polls no leaf itself. -/
theorem pure (r : Poll ω) {s : σ} (h : R ls s) :
    Call.Sweeps R ls (Pure.pure (r, s) : Call (Poll ω × σ)) :=
  .returns (.stay ls) h

/-- A call that returns at once after its poll, with what comes later still ahead. -/
theorem returning {t : List Event} {r : Poll ω} {s : σ} {la' : List ℕ} (h : Sweep la t la')
    (hs : R (la' ++ lb) s) :
    Call.Sweeps R (la ++ lb) ((Pure.pure (r, s) : Call (Poll ω × σ)).after t) := by
  rw [Call.after_pure]
  exact .returns (h.append_right lb) hs

/-- A call that goes on with the leaves that come next. -/
theorem onto {t : List Event} (hpolled : leaves t <+ la) (h : Call.Sweeps R lb c) :
    Call.Sweeps R (la ++ lb) (c.after t) := by
  cases h with
  | returns hsweep hR => exact .returns (.onto hpolled hsweep) hR
  | stops hmore =>
      refine .stops ?_
      rw [leaves_append]
      exact hpolled.append hmore

end Call.Sweeps

/-! ## Machines -/

/-- However often it is called, the machine sweeps over `ls`. -/
def Sweeps (poll : σ → Call (Poll ω × σ)) (ls : List ℕ) (s : σ) : Prop :=
  ∃ R : List ℕ → σ → Prop, R ls s ∧ ∀ ls s, R ls s → Call.Sweeps R ls (poll s)

namespace Sweeps

variable {poll : σ → Call (Poll ω × σ)} {ls : List ℕ} {s : σ}

theorem call (h : Sweeps poll ls s) : Call.Sweeps (Sweeps poll) ls (poll s) := by
  obtain ⟨R, hs, hcall⟩ := h
  exact (hcall ls s hs).mono fun ls s hR => ⟨R, hR, hcall⟩

/-- A machine that polls no leaf at all. -/
theorem silent (h : ∀ s, (poll s).trace = []) (s : σ) : Sweeps poll [] s := by
  refine ⟨fun _ _ => True, trivial, fun ls s _ => ?_⟩
  have htrace := h s
  rcases hpoll : poll s with ⟨t, e | ⟨r, s'⟩⟩
  · rw [hpoll] at htrace
    subst htrace
    exact .stops (List.nil_sublist ls)
  · rw [hpoll] at htrace
    subst htrace
    exact .returns (.stay ls) trivial

/-- A machine of which every call is one poll of its leaf. -/
theorem of_leaf {leafOf : σ → ℕ} (h : ∀ s, Call.OfLeaf leafOf (leafOf s) (poll s)) (s : σ) :
    Sweeps poll [leafOf s] s := by
  refine ⟨fun ls s => ls = [leafOf s], rfl, ?_⟩
  rintro _ s rfl
  have hcall := h s
  generalize poll s = c at hcall
  cases hcall with
  | pending hs => exact .returns (.single rfl) (congrArg (· :: []) hs.symm)
  | ready hs => exact .returns (.single rfl) (congrArg (· :: []) hs.symm)
  | stopped e => exact .stops (List.Sublist.refl _)

/-- A machine that cannot be told from one that sweeps. -/
theorem of_indistinct {g : τ → Call (Poll ω' × τ)} {γ : Type u} {V : ω → ω' → Prop}
    {look : σ → γ} {look' : τ → γ} {v : τ} (hsame : Indistinct poll g V look look' s v)
    (h : Sweeps poll ls s) : Sweeps g ls v := by
  refine ⟨fun ls v => ∃ s, Indistinct poll g V look look' s v ∧ Sweeps poll ls s,
    ⟨s, hsame, h⟩, ?_⟩
  rintro ls v ⟨s, hsame, h⟩
  have hlifts := hsame.call
  have hsweeps := h.call
  generalize poll s = c at hlifts hsweeps
  generalize g v = d at hlifts
  cases hlifts with
  | stops t e => exact .stops hsweeps.polled
  | returns t hanswer =>
      cases hanswer with
      | pending hnext =>
          cases hsweeps with
          | returns hsweep hs => exact .returns hsweep ⟨_, hnext, hs⟩
      | ready _ hnext =>
          cases hsweeps with
          | returns hsweep hs => exact .returns hsweep ⟨_, hnext, hs⟩

end Sweeps

/-! ## Sweeping on -/

section Passing

variable {inner : σ → Call (Poll ω × σ)} {outer : W → Call (Poll ω' × W)} {hold : σ → W}
  {next : ω → σ → Call (Poll ω' × W)} {la lb ls : List ℕ}

/-- Polling on an inner machine that sweeps over `la`: at its answer the call returns, or
it leaves the inner machine and sweeps over `lb`. -/
theorem Passes.sweeps {R : List ℕ → W → Prop} (h : Passes inner outer hold next) {b : σ}
    (hb : Sweeps inner la b)
    (hhold : ∀ t b' la', Call.steps inner b t .pending b' → Sweeps inner la' b' →
      R (la' ++ lb) (hold b'))
    (hnext : ∀ t o b' la', Call.steps inner b t (.ready o) b' → Sweeps inner la' b' →
      (∃ r w, next o b' = pure (r, w) ∧ R (la' ++ lb) w) ∨ Call.Sweeps R lb (next o b')) :
    Call.Sweeps R (la ++ lb) (outer (hold b)) := by
  have hcall := hb.call
  rw [h b, passing]
  rcases hpoll : inner b with ⟨t, e | ⟨_ | o, b'⟩⟩
  · rw [hpoll] at hcall
    exact .stops (hcall.polled.trans (List.sublist_append_left la lb))
  · rw [hpoll] at hcall
    cases hcall with
    | returns hsweep hb' =>
        exact .returning hsweep (hhold t b' _ hpoll hb')
  · rw [hpoll] at hcall
    cases hcall with
    | returns hsweep hb' =>
        rw [Call.mk_ok_bind]
        rcases hnext t o b' _ hpoll hb' with ⟨r, w, hreturns, hw⟩ | hmoves
        · simp only [hreturns]
          exact .returning hsweep hw
        · exact .onto hsweep.sublist hmoves

/-- A relay sweeps as its inner machine does. -/
theorem Relays.sweeps {S : Type u} {mk : S → σ → W} {f : S → ω → ω' × S}
    (h : Relays inner outer mk f) {b : σ} (hb : Sweeps inner ls b) (s : S) :
    Sweeps outer ls (mk s b) := by
  refine ⟨fun ls w => ∃ s b, Sweeps inner ls b ∧ w = mk s b, ⟨s, b, hb, rfl⟩, ?_⟩
  rintro ls _ ⟨s, b, hb, rfl⟩
  rw [← List.append_nil ls]
  refine (h.passes s).sweeps hb (fun _ b _ _ hb => ?_) fun t o b' la' _ hb' => ?_
  · exact ⟨s, b, by rwa [List.append_nil], rfl⟩
  · exact .inl ⟨_, _, rfl, _, b', by rwa [List.append_nil], rfl⟩

end Passing

/-! ## Runs -/

section Runs

variable {poll : σ → Call (Poll ω × σ)} {ls : List ℕ} {s s' : σ} {t : List Event}

/-- In a whole run the leaves are polled in order, and there are at most as many polls as
calls and leaves left behind. -/
theorem Sweeps.run {rs : List (Poll ω)} (h : Sweeps poll ls s)
    (hrun : TracedRuns (Call.steps poll) s t rs s') :
    ∃ ls', Sweeps poll ls' s' ∧ ls' <:+ ls ∧ t.length + ls'.length ≤ rs.length + ls.length ∧
      ∀ ps, InOrder ls' ps → InOrder ls (leaves t ++ ps) := by
  induction hrun generalizing ls with
  | nil s => exact ⟨ls, h, List.suffix_rfl, by simp, fun _ hps => hps⟩
  | @cons _ t _ _ ts rs _ hstep _ ih =>
      have hcall := h.call
      rw [show poll _ = _ from hstep] at hcall
      cases hcall with
      | @returns _ _ _ ls₁ hsweep hs =>
          obtain ⟨ls', hs', hsuffix, hlength, horder⟩ := ih hs
          refine ⟨ls', hs', ?_, ?_, fun ps hps => ?_⟩
          · obtain ⟨past, rfl, -⟩ := hsweep
            exact hsuffix.trans (List.suffix_append past ls₁)
          · have hle := hsweep.length_le
            simp only [List.length_append, List.length_cons]
            omega
          · rw [leaves_append, List.append_assoc]
            exact hsweep.inOrder (horder ps hps)

/-- The next call goes on in order, also one that does not return. -/
theorem Sweeps.next {rs : List (Poll ω)} (h : Sweeps poll ls s)
    (hrun : TracedRuns (Call.steps poll) s t rs s') :
    leaves (poll s').trace <+ ls ∧ InOrder ls (leaves t ++ leaves (poll s').trace) ∧
      t.length ≤ rs.length + ls.length := by
  obtain ⟨ls', hs', hsuffix, hlength, horder⟩ := h.run hrun
  have hpolled := hs'.call.polled
  exact ⟨hpolled.trans hsuffix.sublist, horder _ (.of_sublist hpolled), by omega⟩

theorem Sweeps.inOrder {rs : List (Poll ω)} (h : Sweeps poll ls s)
    (hrun : TracedRuns (Call.steps poll) s t rs s') : InOrder ls (leaves t) := by
  obtain ⟨ls', -, -, -, horder⟩ := h.run hrun
  rw [← List.append_nil (leaves t)]
  exact horder [] (.done ls')

/-- The leaves that the calls of a loop poll are those of its turns. -/
theorem Turns.traced {turn : σ → Call (Poll (Option ω) × σ)} {r : Poll ω}
    (h : Turns turn s t r s') : ∃ qs, TracedRuns (Call.steps turn) s t qs s' := by
  induction h with
  | pending hturn => exact ⟨_, .single hturn⟩
  | ready hturn => exact ⟨_, .single hturn⟩
  | again hturn _ ih =>
      obtain ⟨qs, hqs⟩ := ih
      exact ⟨_, .cons hturn hqs⟩

theorem TracedRuns.turns {turn : σ → Call (Poll (Option ω) × σ)} {rs : List (Poll ω)}
    (h : TracedRuns (Call.loops turn) s t rs s') :
    ∃ qs, TracedRuns (Call.steps turn) s t qs s' := by
  induction h with
  | nil s => exact ⟨[], .nil s⟩
  | cons hcall _ ih =>
      obtain ⟨ps, hps⟩ := (loops_iff.mp hcall).traced
      obtain ⟨qs, hqs⟩ := ih
      exact ⟨_, hps.append hqs⟩

end Runs

end HttpBody.Support
