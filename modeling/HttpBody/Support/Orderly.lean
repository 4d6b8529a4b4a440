import HttpBody.Support.Lifting

/-!
# Orderly machines

An orderly machine returns from every call until it gives a last answer, and leaves
a state of a given kind then.  Some reasons to stop may be permitted: a loop that is cut
off by its fuel is orderly up to that.
-/

namespace HttpBody.Support

universe u

variable {σ τ ω ω' W : Type u}

/-- A call that returns, or stops as permitted by `S`; it leaves a state in `Q`, and one
that satisfies `P` after a last answer. -/
inductive Goes (S : Stop → Prop) (last : ω → Bool) (Q : σ → Prop) (P : ω → σ → Prop) :
    Call (Poll ω × σ) → Prop where
  | pending {t s} : Q s → Goes S last Q P ⟨t, .ok (.pending, s)⟩
  | next {t o s} : last o = false → Q s → Goes S last Q P ⟨t, .ok (.ready o, s)⟩
  | last {t o s} : last o = true → P o s → Goes S last Q P ⟨t, .ok (.ready o, s)⟩
  | stops {t e} : S e → Goes S last Q P ⟨t, .error e⟩

namespace Goes

variable {S S' : Stop → Prop} {last : ω → Bool} {Q Q' : σ → Prop} {P P' : ω → σ → Prop}
  {c : Call (Poll ω × σ)}

theorem mono (hS : ∀ e, S e → S' e) (hQ : ∀ s, Q s → Q' s) (hP : ∀ o s, P o s → P' o s)
    (h : Goes S last Q P c) : Goes S' last Q' P' c := by
  cases h with
  | pending hs => exact .pending (hQ _ hs)
  | next ho hs => exact .next ho (hQ _ hs)
  | last ho hs => exact .last ho (hP _ _ hs)
  | stops he => exact .stops (hS _ he)

theorem after (t : List Event) (h : Goes S last Q P c) : Goes S last Q P (c.after t) := by
  cases h with
  | pending hs => exact .pending hs
  | next ho hs => exact .next ho hs
  | last ho hs => exact .last ho hs
  | stops he => exact .stops he

/-- What a call goes on with is orderly, if it is after each kind of answer. -/
theorem bind {last' : ω' → Bool} {R : W → Prop} {P' : ω' → W → Prop}
    {f : Poll ω × σ → Call (Poll ω' × W)} (h : Goes S last Q P c)
    (hpending : ∀ t s, c = ⟨t, .ok (.pending, s)⟩ → Q s → Goes S last' R P' (f (.pending, s)))
    (hnext : ∀ t o s, c = ⟨t, .ok (.ready o, s)⟩ → last o = false → Q s →
      Goes S last' R P' (f (.ready o, s)))
    (hlast : ∀ t o s, c = ⟨t, .ok (.ready o, s)⟩ → last o = true → P o s →
      Goes S last' R P' (f (.ready o, s))) : Goes S last' R P' (c >>= f) := by
  cases h with
  | pending hs => exact (hpending _ _ rfl hs).after _
  | next ho hs => exact (hnext _ _ _ rfl ho hs).after _
  | last ho hs => exact (hlast _ _ _ rfl ho hs).after _
  | stops he => exact .stops he

/-- A call only stops as permitted. -/
theorem permitted (h : Goes S last Q P c) {e : Stop} (hstop : c.value = .error e) : S e := by
  cases h with
  | stops he =>
      cases hstop
      exact he
  | _ => cases hstop

/-- A call that returns a pending answer or one that is not the last leaves a state in
`Q`. -/
theorem keeps (h : Goes S last Q P c) {t : List Event} {r : Poll ω} {s : σ}
    (hc : c = ⟨t, .ok (r, s)⟩) (hr : ∀ o, r = .ready o → last o = false) : Q s := by
  subst hc
  cases h with
  | pending hs => exact hs
  | next _ hs => exact hs
  | last ho _ => cases ho.symm.trans (hr _ rfl)

end Goes

/-- Until its last answer, every call of the machine returns, or stops as `S` permits; and
the last answer and the state after it satisfy `P`. -/
def Orderly (S : Stop → Prop) (poll : σ → Call (Poll ω × σ)) (last : ω → Bool)
    (P : ω → σ → Prop) (s : σ) : Prop :=
  ∃ Q : σ → Prop, Q s ∧ ∀ s, Q s → Goes S last Q P (poll s)

namespace Orderly

variable {S : Stop → Prop} {poll : σ → Call (Poll ω × σ)} {last : ω → Bool}
  {P : ω → σ → Prop} {s : σ}

theorem call (h : Orderly S poll last P s) :
    Goes S last (Orderly S poll last P) P (poll s) := by
  obtain ⟨Q, hs, hcall⟩ := h
  exact (hcall s hs).mono (fun _ he => he) (fun s hs => ⟨Q, hs, hcall⟩) fun _ _ hP => hP

/-- States that are orderly as long as they keep within `Q`. -/
theorem of_invariant (Q : σ → Prop) (hcall : ∀ s, Q s →
    Goes S last (fun s => Q s ∨ Orderly S poll last P s) P (poll s)) (hs : Q s) :
    Orderly S poll last P s := by
  refine ⟨fun s => Q s ∨ Orderly S poll last P s, .inl hs, ?_⟩
  rintro s (hs | hs)
  · exact hcall s hs
  · exact hs.call.mono (fun _ he => he) (fun s => .inr) fun _ _ hP => hP

theorem of_call (h : Goes S last (Orderly S poll last P) P (poll s)) :
    Orderly S poll last P s := by
  refine of_invariant (fun s' => s' = s) ?_ rfl
  rintro _ rfl
  exact h.mono (fun _ he => he) (fun s => .inr) fun _ _ hP => hP

theorem step (h : Orderly S poll last P s) {t : List Event} {r : Poll ω} {s' : σ}
    (hstep : Call.steps poll s t r s') (hr : ∀ o, r = .ready o → last o = false) :
    Orderly S poll last P s' :=
  h.call.keeps hstep hr

/-- An orderly machine stays so until its last answer. -/
theorem runs (h : Orderly S poll last P s) {rs : List (Poll ω)} {s' : σ}
    (hrun : Runs (Call.steps poll) s rs s') (hrs : ∀ o, .ready o ∈ rs → last o = false) :
    Orderly S poll last P s' := by
  induction hrun with
  | nil s => exact h
  | @cons _ _ r _ _ _ hstep _ ih =>
      refine ih (h.step hstep ?_) fun o ho => hrs o (List.mem_cons_of_mem r ho)
      rintro o rfl
      exact hrs o List.mem_cons_self

/-- Relays that turn last answers into last answers. -/
theorem relay {inner : σ → Call (Poll ω × σ)} {outer : W → Call (Poll ω' × W)} {T : Type u}
    {mk : T → σ → W} {f : T → ω → ω' × T} (h : Relays inner outer mk f) {last' : ω' → Bool}
    {P' : ω' → W → Prop} (I : T → Prop)
    (hnext : ∀ t o, I t → last o = false → (last' (f t o).1 = false ∧ I (f t o).2) ∨
      (last' (f t o).1 = true ∧ ∀ s, P' (f t o).1 (mk (f t o).2 s)))
    (hlast : ∀ t o s, I t → last o = true → P o s → last' (f t o).1 = true ∧
      P' (f t o).1 (mk (f t o).2 s)) {b : σ} (hb : Orderly S inner last P b) {t : T}
    (ht : I t) : Orderly S outer last' P' (mk t b) := by
  refine of_invariant (fun w => ∃ t b, I t ∧ Orderly S inner last P b ∧ w = mk t b) ?_
    ⟨t, b, ht, hb, rfl⟩
  rintro _ ⟨t, b, ht, hb, rfl⟩
  rw [h t b]
  refine hb.call.bind (fun _ b _ hb => ?_) (fun _ o b _ ho hb => ?_) fun _ o b _ ho hP => ?_
  · exact .pending (.inl ⟨t, b, ht, hb, rfl⟩)
  · rcases hnext t o ht ho with ⟨hgoes, hI⟩ | ⟨hends, hP'⟩
    · exact .next hgoes (.inl ⟨_, b, hI, hb, rfl⟩)
    · exact .last hends (hP' b)
  · obtain ⟨hends, hP'⟩ := hlast t o b ht ho hP
    exact .last hends hP'

/-- A machine that cannot be told from an orderly one is orderly. -/
theorem of_indistinct {g : τ → Call (Poll ω × τ)} {γ : Type u} {look : σ → γ} {look' : τ → γ}
    {P' : ω → τ → Prop} {u : τ} (hsame : Indistinct poll g Eq look look' s u)
    (hP : ∀ o s u, Indistinct poll g Eq look look' s u → P o s → P' o u)
    (h : Orderly S poll last P s) : Orderly S g last P' u := by
  refine of_invariant (fun u => ∃ s, Indistinct poll g Eq look look' s u ∧
    Orderly S poll last P s) ?_ ⟨s, hsame, h⟩
  rintro u ⟨s, hsame, h⟩
  have hcall := hsame.call
  have hgoes := h.call
  generalize poll s = c at hcall hgoes
  generalize g u = d at hcall
  cases hcall with
  | stops t e =>
      cases hgoes with
      | stops he => exact .stops he
  | returns t hanswer =>
      cases hanswer with
      | pending hnext =>
          cases hgoes with
          | pending hs => exact .pending (.inl ⟨_, hnext, hs⟩)
      | ready ho hnext =>
          subst ho
          cases hgoes with
          | next ho hs => exact .next ho (.inl ⟨_, hnext, hs⟩)
          | last ho hs => exact .last ho (hP _ _ _ hnext hs)

/-! ## Loops -/

variable {turn : σ → Call (Poll (Option ω) × σ)}

/-- The turns of a loop, which goes on after none of them and after an answer that is not
the last. -/
abbrev OfTurn (S : Stop → Prop) (turn : σ → Call (Poll (Option ω) × σ)) (last : ω → Bool)
    (P : ω → σ → Prop) (s : σ) : Prop :=
  Orderly S turn (fun x => x.elim false last) (fun x s => ∀ o, x = some o → P o s) s

/-- A loop over orderly turns is orderly, as far as its fuel goes. -/
theorem OfTurn.loop (h : OfTurn S turn last P s) (fuel : ℕ) :
    Goes (fun e => S e ∨ e = .outOfFuel) last (OfTurn S turn last P) P (loop turn fuel s) := by
  induction fuel generalizing s with
  | zero => exact .stops (.inr rfl)
  | succ fuel ih =>
      have hturn : Goes (fun e => S e ∨ e = .outOfFuel) _ _ _ (turn s) :=
        h.call.mono (fun _ => .inl) (fun _ hs => hs) fun _ _ hP => hP
      refine hturn.bind (fun _ s _ hs => .pending hs) (fun _ x s _ hx hs => ?_)
        fun _ x s _ hx hP => ?_
      · cases x with
        | none => exact ih hs
        | some o => exact .next hx hs
      · cases x with
        | none => cases hx
        | some o => exact .last hx (hP o rfl)

theorem OfTurn.turns {t : List Event} {r : Poll ω} {s' : σ} (h : OfTurn S turn last P s)
    (hcall : Turns turn s t r s') (hr : ∀ o, r = .ready o → last o = false) :
    OfTurn S turn last P s' := by
  induction hcall with
  | pending hturn => exact h.step hturn fun _ hready => by cases hready
  | ready hturn => exact h.step hturn fun _ hready => by cases hready; exact hr _ rfl
  | again hturn _ ih =>
      refine ih (h.step hturn ?_) hr
      rintro _ ⟨⟩
      rfl

theorem OfTurn.runs {rs : List (Poll ω)} {s' : σ} (h : OfTurn S turn last P s)
    (hrun : Runs (Call.loops turn) s rs s') (hrs : ∀ o, .ready o ∈ rs → last o = false) :
    OfTurn S turn last P s' := by
  induction hrun with
  | nil s => exact h
  | @cons _ _ r _ _ _ hcall _ ih =>
      refine ih (h.turns (loops_iff.mp hcall) ?_) fun o ho => hrs o (List.mem_cons_of_mem r ho)
      rintro o rfl
      exact hrs o List.mem_cons_self

end Orderly

end HttpBody.Support
