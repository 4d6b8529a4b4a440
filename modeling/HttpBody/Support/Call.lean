import Mathlib.Data.List.Basic

/-!
# Calls of poll functions

A call of a poll function may panic before it returns, and on its way it polls
leaves: the futures and streams that register the waker.  `Call` keeps both
apart from the value that the call computes.  The trace of leaf polls is
recorded even when the call does not return.

Nothing in this file depends on what is polled.
-/

namespace HttpBody.Support

universe u v

/-- The answer of a poll function. -/
inductive Poll (α : Type u) where
  | pending
  | ready (value : α)
  deriving DecidableEq, Repr

/-- The reasons for which a call does not return: the panics of the language,
and the fuel by which a model of an unbounded loop is cut off. -/
inductive Stop where
  | unwrapNone
  | expectNone (message : String)
  | assertFailed (message : String)
  | overflow
  | capacityOverflow
  | indexOutOfBounds
  | polledAfterCompletion
  | foreign (message : String)
  | outOfFuel
  deriving DecidableEq, Repr

/-- What a leaf did when it was polled.  `ready true` says that the answer was
the last one the leaf should be asked for. -/
inductive Outcome where
  | pending
  | ready (last : Bool)
  | stopped
  deriving DecidableEq, Repr

/-- One poll of one leaf. -/
structure Event where
  leaf : ℕ
  outcome : Outcome
  deriving DecidableEq, Repr

/-- A call together with the leaves polled on its way, in order. -/
@[ext] structure Call (α : Type u) where
  trace : List Event
  value : Except Stop α

namespace Call

variable {α β γ : Type u}

instance : Monad Call where
  pure a := ⟨[], .ok a⟩
  bind c f :=
    match c.value with
    | .ok a => ⟨c.trace ++ (f a).trace, (f a).value⟩
    | .error s => ⟨c.trace, .error s⟩

/-- A computation that polls nothing. -/
def lift (v : Except Stop α) : Call α := ⟨[], v⟩

/-- `Option::unwrap`. -/
def unwrap : Option α → Call α
  | some a => pure a
  | none => ⟨[], .error .unwrapNone⟩

/-- Leave `c` as it is, with `t` polled before it. -/
def after (t : List Event) (c : Call α) : Call α := ⟨t ++ c.trace, c.value⟩

theorem pure_def (a : α) : (pure a : Call α) = ⟨[], .ok a⟩ := rfl

@[simp] theorem mk_ok_bind (t : List Event) (a : α) (f : α → Call β) :
    ((⟨t, .ok a⟩ : Call α) >>= f) = (f a).after t := rfl

@[simp] theorem mk_error_bind (t : List Event) (s : Stop) (f : α → Call β) :
    ((⟨t, .error s⟩ : Call α) >>= f) = ⟨t, .error s⟩ := rfl

@[simp] theorem after_mk (t u : List Event) (v : Except Stop α) :
    (⟨u, v⟩ : Call α).after t = ⟨t ++ u, v⟩ := rfl

@[simp] theorem after_trace (t : List Event) (c : Call α) :
    (c.after t).trace = t ++ c.trace := rfl

@[simp] theorem after_value (t : List Event) (c : Call α) :
    (c.after t).value = c.value := rfl

@[simp] theorem after_nil (c : Call α) : c.after [] = c := rfl

@[simp] theorem after_pure (t : List Event) (a : α) :
    (pure a : Call α).after t = ⟨t, .ok a⟩ := by
  simp [pure_def]

theorem after_after (t u : List Event) (c : Call α) :
    (c.after u).after t = c.after (t ++ u) := by
  simp [after]

theorem after_bind (t : List Event) (c : Call α) (f : α → Call β) :
    c.after t >>= f = (c >>= f).after t := by
  rcases c with ⟨u, s | a⟩
  · rfl
  · simp [after_after]

@[simp] theorem unwrap_some_bind (a : α) (f : α → Call β) :
    (unwrap (some a) >>= f) = f a := rfl

@[simp] theorem lift_ok (a : α) : lift (.ok a) = (pure a : Call α) := rfl

@[simp] theorem lift_error (s : Stop) : (lift (.error s) : Call α) = ⟨[], .error s⟩ :=
  rfl

instance : LawfulMonad Call :=
  LawfulMonad.mk' Call
    (by
      rintro α ⟨t, s | a⟩
      · rfl
      · exact congrArg (fun u => (⟨u, .ok a⟩ : Call α)) (List.append_nil t))
    (fun _ _ => rfl)
    (by
      rintro α β γ ⟨t, s | a⟩ f g
      · rfl
      · exact after_bind t (f a) g)

/-- A sequence of two calls returns exactly when both do, and polls what they
poll, in order. -/
theorem bind_eq_ok {c : Call α} {f : α → Call β} {t : List Event} {b : β} :
    c >>= f = ⟨t, .ok b⟩ ↔
      ∃ t₁ a t₂, c = ⟨t₁, .ok a⟩ ∧ f a = ⟨t₂, .ok b⟩ ∧ t = t₁ ++ t₂ := by
  constructor
  · intro h
    rcases c with ⟨t₁, s | a⟩
    · simp at h
    · rcases hf : f a with ⟨t₂, v⟩
      rw [mk_ok_bind, hf, after_mk, Call.mk.injEq] at h
      obtain ⟨rfl, rfl⟩ := h
      exact ⟨t₁, a, t₂, rfl, hf, rfl⟩
  · rintro ⟨t₁, a, t₂, rfl, hf, rfl⟩
    rw [mk_ok_bind, hf, after_mk]

theorem bind_pure_ok {c : Call α} {f : α → Call β} {t : List Event} {a : α} {b : β}
    (hc : c = ⟨t, .ok a⟩) (hf : f a = pure b) : c >>= f = ⟨t, .ok b⟩ := by
  rw [hc, mk_ok_bind, hf, after_pure]

/-- A sequence of two calls stops in the first or in the second. -/
theorem bind_eq_error {c : Call α} {f : α → Call β} {t : List Event} {s : Stop} :
    c >>= f = ⟨t, .error s⟩ ↔
      c = ⟨t, .error s⟩ ∨
        ∃ t₁ a t₂, c = ⟨t₁, .ok a⟩ ∧ f a = ⟨t₂, .error s⟩ ∧ t = t₁ ++ t₂ := by
  constructor
  · intro h
    rcases c with ⟨t₁, s' | a⟩
    · left
      simpa using h
    · right
      rcases hf : f a with ⟨t₂, v⟩
      rw [mk_ok_bind, hf, after_mk, Call.mk.injEq] at h
      obtain ⟨rfl, rfl⟩ := h
      exact ⟨t₁, a, t₂, rfl, hf, rfl⟩
  · rintro (rfl | ⟨t₁, a, t₂, rfl, hf, rfl⟩)
    · rfl
    · rw [mk_ok_bind, hf, after_mk]

theorem pure_eq_ok {a b : α} {t : List Event} :
    (pure a : Call α) = ⟨t, .ok b⟩ ↔ t = [] ∧ a = b := by
  rw [pure_def, Call.mk.injEq, Except.ok.injEq, eq_comm (a := [])]

end Call

/-! ## Observed leaves -/

/-- What an answer shows of itself; `last` says which answers are final. -/
def Poll.outcome {α : Type u} (last : α → Bool) : Poll α → Outcome
  | .pending => .pending
  | .ready a => .ready (last a)

/-- The outcome of a leaf whose poll returned `v`; `last` says which answers
are final. -/
def Outcome.of {α β : Type u} (last : α → Bool) :
    Except Stop (Poll α × β) → Outcome
  | .ok (r, _) => r.outcome last
  | .error _ => .stopped

/-- Make the poll `c` of a leaf visible as a single event. -/
def Call.observe {α β : Type u} (leaf : ℕ) (last : α → Bool)
    (c : Call (Poll α × β)) : Call (Poll α × β) :=
  ⟨[⟨leaf, Outcome.of last c.value⟩], c.value⟩

/-- An observed leaf: `inner` under the name `leaf`. -/
structure Probe (σ : Type u) where
  leaf : ℕ
  inner : σ

/-- A call that is one poll of `leaf`, and leaves a state of the same leaf. -/
inductive Call.OfLeaf {ω σ : Type u} (leafOf : σ → ℕ) (leaf : ℕ) : Call (Poll ω × σ) → Prop where
  | pending {s} : leafOf s = leaf → Call.OfLeaf leafOf leaf ⟨[⟨leaf, .pending⟩], .ok (.pending, s)⟩
  | ready {last a s} : leafOf s = leaf →
      Call.OfLeaf leafOf leaf ⟨[⟨leaf, .ready last⟩], .ok (.ready a, s)⟩
  | stopped (e : Stop) : Call.OfLeaf leafOf leaf ⟨[⟨leaf, .stopped⟩], .error e⟩

theorem Call.OfLeaf.probe {ω σ : Type u} (leaf : ℕ) (last : ω → Bool) (c : Call (Poll ω × σ)) :
    Call.OfLeaf Probe.leaf leaf (Call.observe leaf last do
      let (r, s) ← c
      return (r, (⟨leaf, s⟩ : Probe σ))) := by
  rcases c with ⟨t, e | ⟨_ | a, s⟩⟩
  · exact .stopped e
  · exact .pending rfl
  · exact .ready rfl

/-- No poll of `leaf` follows one whose answer was its last. -/
def NotRepolled (leaf : ℕ) (t : List Event) : Prop :=
  t.Pairwise fun e e' => e = ⟨leaf, .ready true⟩ → e'.leaf ≠ leaf

namespace NotRepolled

variable {leaf : ℕ} {t u : List Event}

theorem append (ht : NotRepolled leaf t) (hu : NotRepolled leaf u)
    (h : ⟨leaf, .ready true⟩ ∈ t → ∀ e ∈ u, e.leaf ≠ leaf) :
    NotRepolled leaf (t ++ u) := by
  refine List.pairwise_append.mpr ⟨ht, hu, ?_⟩
  rintro e he e' he' rfl
  exact h he e' he'

theorem append_iff : NotRepolled leaf (t ++ u) ↔
    NotRepolled leaf t ∧ NotRepolled leaf u ∧
      (⟨leaf, .ready true⟩ ∈ t → ∀ e ∈ u, e.leaf ≠ leaf) := by
  constructor
  · intro h
    obtain ⟨ht, hu, htu⟩ := List.pairwise_append.mp h
    exact ⟨ht, hu, fun hlast e he => htu _ hlast e he rfl⟩
  · rintro ⟨ht, hu, htu⟩
    exact ht.append hu htu

theorem nil : NotRepolled leaf [] := List.Pairwise.nil

theorem singleton (e : Event) : NotRepolled leaf [e] :=
  List.pairwise_singleton _ e

theorem of_others (h : ∀ e ∈ t, e.leaf ≠ leaf) : NotRepolled leaf t :=
  List.pairwise_of_forall_mem_list fun _ _ e he _ => h e he

theorem of_unresolved (h : ⟨leaf, .ready true⟩ ∉ t) : NotRepolled leaf t :=
  List.pairwise_of_forall_mem_list fun _ he _ _ hlast => (h (hlast ▸ he)).elim

/-- A leaf that has not given its last answer may be polled once more. -/
theorem snoc (h : ⟨leaf, .ready true⟩ ∉ t) (e : Event) :
    NotRepolled leaf (t ++ [e]) :=
  append (of_unresolved h) (singleton e) fun hlast => (h hlast).elim

end NotRepolled

end HttpBody.Support
