import HttpBody.Core.Body
import HttpBody.Support.Script

/-!
# Contents

The content of a body is its data, in order, and its ending: the trailers that it
had, if any, or the error with which it failed.  This is what bodies are made for,
and each combinator is an operation on contents.  How the data is polled for, and
where the body is suspended, is no part of its content.
-/

namespace HttpBody

open Support

variable [Foreign] {D D' E E' E₁ E₂ : Type}

/-- How a body ends: with an error, or without one and with the trailers that it
had. -/
abbrev Conclusion (E : Type) := Except E (Option HeaderMap)

/-- Data in order, and then the conclusion. -/
abbrev Content (D E : Type) := Script D (Conclusion E)

/-- An answer of a body, as an item of its content or its conclusion. -/
def Item.split : Item D E → D ⊕ Conclusion E
  | .data d => .inl d
  | none => .inr (.ok none)
  | .trailers map => .inr (.ok (some map))
  | .error err => .inr (.error err)

theorem Item.split_eq_inl {x : Item D E} {d : D} : x.split = .inl d ↔ x = .data d := by
  rcases x with _ | (_ | (_ | _)) <;> simp [split]

/-- The answers that end the content are the terminal ones. -/
theorem Item.split_eq_inr {x : Item D E} {r : Conclusion E} :
    x.split = .inr r ↔
      (∃ err, x = .error err ∧ r = .error err) ∨ ∃ ta, Item.Ends x ta ∧ r = .ok ta := by
  constructor
  · intro h
    rcases x with _ | (err | (d | map))
    · exact .inr ⟨none, .finish, Sum.inr.inj h.symm⟩
    · exact .inl ⟨err, rfl, Sum.inr.inj h.symm⟩
    · cases h
    · exact .inr ⟨some map, .trailers map, Sum.inr.inj h.symm⟩
  · rintro (⟨err, rfl, rfl⟩ | ⟨ta, hends, rfl⟩)
    · rfl
    · cases hends <;> rfl

/-- The terminal answer of a body that ends so. -/
def Conclusion.answer : Conclusion E → Item D E
  | .error err => .error err
  | .ok ta => Item.ofTrailers ta

theorem Item.split_answer (r : Conclusion E) :
    (Conclusion.answer r : Item D E).split = .inr r := by
  rcases r with err | (_ | map) <;> rfl

theorem Item.split_injective : Function.Injective (split : Item D E → D ⊕ Conclusion E) := by
  rintro (_ | (_ | (_ | _))) (_ | (_ | (_ | _))) h <;> cases h <;> rfl

namespace Content

/-- The answers of a body, up to the first terminal one. -/
def answers (c : Content D E) : List (Item D E) :=
  Item.datas c.items ++ [Conclusion.answer c.result]

theorem answer_isTerminal (r : Conclusion E) :
    (Conclusion.answer r : Item D E).isTerminal = true := by
  rcases r with err | (_ | map) <;> rfl

/-- A content is determined by its answers, also by an initial part of others. -/
theorem eq_of_answers_prefix {c c' : Content D E} (h : c.answers <+: c'.answers) : c = c' := by
  rcases c with ⟨ds, r⟩
  rcases c' with ⟨ds', r'⟩
  induction ds generalizing ds' with
  | nil =>
      cases ds' with
      | nil =>
          obtain ⟨hlast, -⟩ := List.cons_prefix_cons.mp h
          have hsplit : (.inr r : D ⊕ Conclusion E) = .inr r' := by
            rw [← Item.split_answer r, ← Item.split_answer r', hlast]
          cases hsplit
          rfl
      | cons d' ds' =>
          obtain ⟨hfirst, -⟩ := List.cons_prefix_cons.mp h
          have hterminal := answer_isTerminal (D := D) r
          rw [hfirst] at hterminal
          cases hterminal
  | cons d ds ih =>
      cases ds' with
      | nil =>
          obtain ⟨hfirst, -⟩ := List.cons_prefix_cons.mp h
          have hterminal := answer_isTerminal (D := D) r'
          rw [← hfirst] at hterminal
          cases hterminal
      | cons d' ds' =>
          obtain ⟨hfirst, hrest⟩ := List.cons_prefix_cons.mp h
          cases hfirst
          cases ih ds' hrest
          rfl

/-- The same data, with a changed conclusion. -/
def conclude (f : Conclusion E → Conclusion E') (c : Content D E) : Content D E' :=
  c.mapResult f

/-- What comes after the first content, by its conclusion. -/
def afterFirst [Into E₁ E₂] (b : Content D E₂) : Conclusion E₁ → Content D E₂
  | .error err => ⟨[], .error (Into.into err)⟩
  | .ok ta => b.conclude fun r => r.map (mergeTrailers ta)

/-- The content `a` and then `b`, with the trailers of both. -/
def chain [Into E₁ E₂] (a : Content D E₁) (b : Content D E₂) : Content D E₂ :=
  (a >>= afterFirst b : Script D (Conclusion E₂))

/-- The same data and trailers, with the error converted. -/
def mapErr (f : E → E') (c : Content D E) : Content D E' :=
  c.conclude fun r => r.mapError f

/-- The conclusion of a content, when more trailers come to `outcome`. -/
def addTrailers (outcome : Option (Except E HeaderMap)) :
    Conclusion E → Conclusion E
  | .error err => .error err
  | .ok ta =>
      match outcome with
      | none => .ok ta
      | some (.ok map) => .ok (mergeTrailers ta (some map))
      | some (.error err) => .error err

def withTrailers (c : Content D E) (outcome : Option (Except E HeaderMap)) : Content D E :=
  c.conclude (addTrailers outcome)

section Limited

variable [Buf D] [Into E BoxError]

/-- Data within a budget, and what is left of the budget. -/
def spend (remaining : ℕ) (d : D) : (D × ℕ) ⊕ Conclusion BoxError :=
  if remaining < Buf.remaining d then
    .inr (.error (Into.into LengthLimitError.lengthLimitError))
  else .inl (d, remaining - Buf.remaining d)

/-- The data up to the limit, and an error in place of what exceeds it. -/
def limited (limit : ℕ) (c : Content D E) : Content D BoxError :=
  c.scan spend (fun _ r => r.mapError Into.into) limit

end Limited

section MapFrame

variable {F : Type}

/-- The closure `f` on a data frame; a trailers frame that it makes of it ends
the content. -/
def mapItem [FnMut F (Frame D) (Frame D')] (f : F) (d : D) : (D' × F) ⊕ Conclusion E :=
  match FnMut.call f (.data d : Frame D) with
  | (.data d', f') => .inl (d', f')
  | (.trailers map, _) => .inr (.ok (some map))

/-- The closure `f` on the trailers, of which it makes trailers. -/
def mapTrailers (D D' : Type) [FnMut F (Frame D) (Frame D')] (f : F) : Conclusion E → Conclusion E
  | .ok (some map) =>
      match (FnMut.call f (.trailers map : Frame D)).1 with
      | .trailers map' => .ok (some map')
      | .data _ => .ok none
  | r => r

def mapFrame [FnMut F (Frame D) (Frame D')] (f : F) (c : Content D E) : Content D' E :=
  c.scan mapItem (mapTrailers D D') f

end MapFrame

end Content

end HttpBody
