import HttpBody.Support.Relay

/-!
# Scripts

A script says what a machine gives when each of its answers is awaited: items in
order, and then a result, after which the machine is not asked again.  Machines
that run one after the other play scripts that are put one after the other.
-/

namespace HttpBody.Support

universe u v

/-- Items in order, and then a result. -/
@[ext] structure Script (α : Type u) (ρ : Type v) where
  items : List α
  result : ρ
  deriving DecidableEq, Repr

namespace Script

variable {α : Type u}

/-- What follows a script may depend on its result. -/
instance : Monad (Script α) where
  pure r := ⟨[], r⟩
  bind c next := ⟨c.items ++ (next c.result).items, (next c.result).result⟩

instance : LawfulMonad (Script α) :=
  LawfulMonad.mk' (Script α)
    (by
      intro ρ c
      exact Script.ext (List.append_nil c.items) rfl)
    (fun _ _ => rfl)
    (by
      intro ρ ρ₁ ρ₂ c f g
      exact Script.ext (List.append_assoc _ _ _) rfl)

section

variable {β S : Type u} {ρ ρ' : Type v}

/-- The script `c` with the item `a` in front of it. -/
def cons (a : α) (c : Script α ρ) : Script α ρ := ⟨a :: c.items, c.result⟩

/-- The same items, with a changed result. -/
def mapResult (f : ρ → ρ') (c : Script α ρ) : Script α ρ' := ⟨c.items, f c.result⟩

theorem bind_pure (f : ρ → ρ') (c : Script α ρ) :
    (c >>= fun r => pure (f r)) = c.mapResult f :=
  Script.ext (List.append_nil c.items) rfl

theorem pure_def (r : ρ) : (pure r : Script α ρ) = ⟨[], r⟩ := rfl

theorem cons_bind (a : α) (c : Script α ρ) (next : ρ → Script α ρ') :
    c.cons a >>= next = (c >>= next).cons a := rfl

/-- Induction over the items of a script. -/
@[elab_as_elim] theorem cons_induction {motive : Script α ρ → Prop}
    (pure : ∀ r, motive (Pure.pure r)) (cons : ∀ a c, motive c → motive (Script.cons a c))
    (c : Script α ρ) : motive c := by
  rcases c with ⟨items, r⟩
  induction items with
  | nil => exact pure r
  | cons a items ih => exact cons a _ ih

/-- Every item goes through a machine with a state of its own, which may also
give the result early; after the last item `last` gives it. -/
def scanItems (item : S → α → (β × S) ⊕ ρ') (last : S → ρ') : S → List α → Script β ρ'
  | s, [] => pure (last s)
  | s, a :: as =>
      match item s a with
      | .inl (b, s') => (scanItems item last s' as).cons b
      | .inr r => pure r

/-- The script that such a machine makes of the script `c`. -/
def scan (item : S → α → (β × S) ⊕ ρ') (last : S → ρ → ρ') (s : S) (c : Script α ρ) :
    Script β ρ' :=
  scanItems item (fun s => last s c.result) s c.items

variable {item : S → α → (β × S) ⊕ ρ'} {last : S → ρ → ρ'} {s s' : S} {a : α}

theorem scan_cons_inl {b : β} (h : item s a = .inl (b, s')) (c : Script α ρ) :
    scan item last s (c.cons a) = (scan item last s' c).cons b := by
  simp only [scan, cons, scanItems, h]

theorem scan_cons_inr {r : ρ'} (h : item s a = .inr r) (c : Script α ρ) :
    scan item last s (c.cons a) = pure r := by
  simp only [scan, cons, scanItems, h]

/-- A machine that lets every item pass only changes the result. -/
theorem scan_pass {g : S → α → S} {last : S → ρ → ρ'} (hlast : ∀ s a, last (g s a) = last s)
    (s : S) (c : Script α ρ) :
    c.scan (fun s a => .inl (a, g s a)) last s = c.mapResult (last s) := by
  rcases c with ⟨items, r⟩
  induction items generalizing s with
  | nil => rfl
  | cons a items ih =>
      calc scan (fun s a => .inl (a, g s a)) last s ⟨a :: items, r⟩
          = (scan (fun s a => .inl (a, g s a)) last (g s a) ⟨items, r⟩).cons a := rfl
        _ = (mapResult (last (g s a)) ⟨items, r⟩).cons a := by rw [ih]
        _ = (mapResult (last s) ⟨items, r⟩).cons a := by rw [hlast]

end

end Script

/-! ## Machines that play a script -/

variable {σ ω α W ω' β : Type u} {ρ ρ' : Type v}

/-- Awaited answer by answer, the machine in the state `s` plays the script; `split` tells
its items from its results, and `P` holds of the result and of the state after it. -/
inductive Plays (T : StepRel σ ω) (split : ω → α ⊕ ρ) (P : ρ → σ → Prop) :
    σ → Script α ρ → Prop where
  | last {s o r s'} : Awaits T s o s' → split o = .inr r → P r s' →
      Plays T split P s (pure r)
  | item {s o a s₁ c} : Awaits T s o s₁ → split o = .inl a → Plays T split P s₁ c →
      Plays T split P s (c.cons a)

/-- After the call `c` has returned, the machine plays the rest of the script. -/
inductive PlaysFrom (poll : W → Call (Poll ω × W)) (split : ω → α ⊕ ρ) (P : ρ → W → Prop)
    (call : Call (Poll ω × W)) : Script α ρ → Prop where
  | last {o r w} : AwaitsFrom poll call o w → split o = .inr r → P r w →
      PlaysFrom poll split P call (pure r)
  | item {o a w c} : AwaitsFrom poll call o w → split o = .inl a →
      Plays (Call.steps poll) split P w c → PlaysFrom poll split P call (c.cons a)

namespace Plays

section

variable {T : StepRel σ ω} {split : ω → α ⊕ ρ} {P Q : ρ → σ → Prop} {s s₁ s' : σ}
  {c c' : Script α ρ}

theorem mono (h : Plays T split P s c) (himp : ∀ r s, P r s → Q r s) : Plays T split Q s c := by
  induction h with
  | last hawait hsplit hP => exact .last hawait hsplit (himp _ _ hP)
  | item hawait hsplit _ ih => exact .item hawait hsplit ih

theorem of_pending {t : List Event} (hstep : T s t .pending s₁) (h : Plays T split P s₁ c) :
    Plays T split P s c := by
  cases h with
  | last hawait hsplit hP => exact .last (.pending hstep hawait) hsplit hP
  | item hawait hsplit hrest => exact .item (.pending hstep hawait) hsplit hrest

theorem next_item (hT : T.Functional) {o : ω} {a : α} (h : Plays T split P s c)
    (hawait : Awaits T s o s₁) (ha : split o = .inl a) :
    ∃ c', c = c'.cons a ∧ Plays T split P s₁ c' := by
  cases h with
  | last hlast hsplit hP =>
      obtain ⟨rfl, -⟩ := hawait.unique hT hlast
      cases ha.symm.trans hsplit
  | item hfirst hsplit hrest =>
      obtain ⟨rfl, rfl⟩ := hawait.unique hT hfirst
      cases ha.symm.trans hsplit
      exact ⟨_, rfl, hrest⟩

theorem next_last (hT : T.Functional) {o : ω} {r : ρ} (h : Plays T split P s c)
    (hawait : Awaits T s o s') (hr : split o = .inr r) : c = pure r ∧ P r s' := by
  cases h with
  | last hlast hsplit hP =>
      obtain ⟨rfl, rfl⟩ := hawait.unique hT hlast
      cases hr.symm.trans hsplit
      exact ⟨rfl, hP⟩
  | item hfirst hsplit _ =>
      obtain ⟨rfl, -⟩ := hawait.unique hT hfirst
      cases hr.symm.trans hsplit

/-- A machine whose calls have one outcome plays one script. -/
theorem unique (hT : T.Functional) (h : Plays T split P s c) (h' : Plays T split Q s c') :
    c = c' := by
  induction h generalizing c' with
  | last hawait hsplit _ => exact (h'.next_last hT hawait hsplit).1.symm
  | item hawait hsplit _ ih =>
      obtain ⟨c₁, rfl, hrest⟩ := h'.next_item hT hawait hsplit
      rw [ih hrest]

/-- The answers in which a machine plays its script. -/
theorem awaitsAll (h : Plays T split P s c) :
    ∃ os o s', AwaitsAll T s (os ++ [o]) s' ∧ os.map split = c.items.map .inl ∧
      split o = .inr c.result ∧ P c.result s' := by
  induction h with
  | last hawait hsplit hP => exact ⟨[], _, _, .cons hawait (.nil _), rfl, hsplit, hP⟩
  | item hawait hsplit _ ih =>
      obtain ⟨os, o, s', hall, hos, ho, hP⟩ := ih
      refine ⟨_ :: os, o, s', .cons hawait hall, ?_, ho, hP⟩
      rw [List.map_cons, hsplit, hos]
      rfl

end

/-! ## Rules -/

section

variable {inner : σ → Call (Poll ω × σ)} {outer : W → Call (Poll ω' × W)}
  {split : ω → α ⊕ ρ} {split' : ω' → β ⊕ ρ'} {P : ρ → σ → Prop} {Q : ρ' → W → Prop}

theorem from_call {w : W} {c : Script β ρ'} :
    PlaysFrom outer split' Q (outer w) c ↔ Plays (Call.steps outer) split' Q w c := by
  constructor
  · intro h
    cases h with
    | last hfrom hsplit hQ => exact .last (awaitsFrom_call.mp hfrom) hsplit hQ
    | item hfrom hsplit hrest => exact .item (awaitsFrom_call.mp hfrom) hsplit hrest
  · intro h
    cases h with
    | last hawait hsplit hQ => exact .last (awaitsFrom_call.mpr hawait) hsplit hQ
    | item hawait hsplit hrest => exact .item (awaitsFrom_call.mpr hawait) hsplit hrest

/-- A machine that passes a suspension on plays what follows the answer of the inner one. -/
theorem of_awaits {hold : σ → W} {next : ω → σ → Call (Poll ω' × W)}
    (h : Passes inner outer hold next) {b b' : σ} {x : ω} {c : Script β ρ'}
    (hawait : Awaits (Call.steps inner) b x b') (hfrom : PlaysFrom outer split' Q (next x b') c) :
    Plays (Call.steps outer) split' Q (hold b) c := by
  cases hfrom with
  | last hfrom hsplit hQ => exact .last (h.awaits_iff.mpr ⟨x, b', hawait, hfrom⟩) hsplit hQ
  | item hfrom hsplit hrest => exact .item (h.awaits_iff.mpr ⟨x, b', hawait, hfrom⟩) hsplit hrest

/-- The rule for machines that hand on the items of an inner machine and go on by
its result. -/
theorem bind {split' : ω' → α ⊕ ρ'} {hold : σ → W} {next : ω → σ → Call (Poll ω' × W)}
    (h : Passes inner outer hold next) {k : ρ → Script α ρ'}
    (hitem : ∀ x a b, split x = .inl a →
      ∃ y, next x b = pure (.ready y, hold b) ∧ split' y = .inl a)
    (hlast : ∀ x r b, split x = .inr r → P r b → PlaysFrom outer split' Q (next x b) (k r))
    {b : σ} {c : Script α ρ} (hb : Plays (Call.steps inner) split P b c) :
    Plays (Call.steps outer) split' Q (hold b) (c >>= k) := by
  induction hb with
  | last hawait hsplit hP => exact .of_awaits h hawait (hlast _ _ _ hsplit hP)
  | @item b x a b₁ c hawait hsplit _ ih =>
      obtain ⟨y, hnext, hy⟩ := hitem x a b₁ hsplit
      rw [Script.cons_bind]
      apply of_awaits h hawait
      rw [hnext]
      exact .item (awaitsFrom_pure.mpr ⟨rfl, rfl⟩) hy ih

/-- The rule for relays, which change each item by themselves; `I` holds of their
own states. -/
theorem relay {S : Type u} {mk : S → σ → W} {f : S → ω → ω' × S} {I : S → Prop}
    (h : Relays inner outer mk f) {item : S → α → (β × S) ⊕ ρ'} {last : S → ρ → ρ'}
    (hitem : ∀ s x a, I s → split x = .inl a →
      (∃ y, item s a = .inl (y, (f s x).2) ∧ split' (f s x).1 = .inl y ∧ I (f s x).2) ∨
        ∃ r, item s a = .inr r ∧ split' (f s x).1 = .inr r ∧ ∀ b, Q r (mk (f s x).2 b))
    (hlast : ∀ s x r b, I s → split x = .inr r → P r b →
      split' (f s x).1 = .inr (last s r) ∧ Q (last s r) (mk (f s x).2 b))
    {b : σ} {c : Script α ρ} (hb : Plays (Call.steps inner) split P b c) {s : S} (hs : I s) :
    Plays (Call.steps outer) split' Q (mk s b) (c.scan item last s) := by
  induction hb generalizing s with
  | @last b x r b' hawait hsplit hP =>
      obtain ⟨hy, hQ⟩ := hlast s x r b' hs hsplit hP
      exact .of_awaits (h.passes s) hawait (.last (awaitsFrom_pure.mpr ⟨rfl, rfl⟩) hy hQ)
  | @item b x a b₁ c hawait hsplit _ ih =>
      apply of_awaits (h.passes s) hawait
      rcases hitem s x a hs hsplit with ⟨y, hgoes, hy, hnext⟩ | ⟨r, hstops, hr, hQ⟩
      · rw [Script.scan_cons_inl hgoes]
        exact .item (awaitsFrom_pure.mpr ⟨rfl, rfl⟩) hy (ih hnext)
      · rw [Script.scan_cons_inr hstops]
        exact .last (awaitsFrom_pure.mpr ⟨rfl, rfl⟩) hr (hQ b₁)

end

end Plays

end HttpBody.Support
