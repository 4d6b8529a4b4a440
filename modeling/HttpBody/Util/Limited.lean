import HttpBody.Core.Body
import HttpBody.Support.Relay

/-!
# Limited

A length limited body counts down the data that its inner body yields.
-/

namespace HttpBody

open Support

/-- A length limited body. -/
structure Limited (B : Type) where
  remaining : ℕ
  inner : B

/-- Subtraction of two `usize` values, with overflow checks. -/
def usizeSub (x y : ℕ) : Except Stop ℕ :=
  if y ≤ x then .ok (x - y) else .error .overflow

namespace Limited

variable [Foreign] {B D E : Type} [Buf D] [Body B D E] [Into E BoxError]

def new (inner : B) (limit : ℕ) : Limited B := ⟨limit, inner⟩

def pollFrame (b : Limited B) : Call (PollFrame D BoxError × Limited B) := do
  let (poll, inner) ← Body.pollFrame b.inner
  match poll with
  | .pending => return (.pending, ⟨b.remaining, inner⟩)
  | .ready none => return (.ready none, ⟨b.remaining, inner⟩)
  | .ready (some (.ok frame)) =>
      match frame.dataRef with
      | some data =>
          if b.remaining < Buf.remaining data then
            return (.ready (.error (Into.into LengthLimitError.lengthLimitError)), ⟨0, inner⟩)
          else do
            let remaining ← Call.lift (usizeSub b.remaining (Buf.remaining data))
            return (.ready (some (.ok frame)), ⟨remaining, inner⟩)
      | none => return (.ready (some (.ok frame)), ⟨b.remaining, inner⟩)
  | .ready (some (.error err)) =>
      return (.ready (.error (Into.into err)), ⟨b.remaining, inner⟩)

def sizeHint (ar : Arith) (b : Limited B) : Except Stop SizeHint :=
  match u64TryFrom b.remaining with
  | some n => do
      let hint ← Body.sizeHint ar b.inner
      if n ≤ hint.lower then
        return hint.setExact n
      else
        match hint.upper with
        | some max => hint.setUpper (min n max)
        | none => hint.setUpper n
  | none => Body.sizeHint ar b.inner

instance instBody : Body (Limited B) D BoxError where
  pollFrame := pollFrame
  isEndStream b := Body.isEndStream b.inner
  sizeHint := sizeHint

/-- What `Limited` makes of an answer, when `remaining` bytes may still come. -/
def onReady (remaining : ℕ) : Item D E → Item D BoxError × ℕ
  | none => (none, remaining)
  | .data d =>
      if remaining < Buf.remaining d then
        (.error (Into.into LengthLimitError.lengthLimitError), 0)
      else (.data d, remaining - Buf.remaining d)
  | .trailers map => (.trailers map, remaining)
  | .error err => (.error (Into.into err), remaining)

/-- The subtraction never underflows, so `Limited` is a relay that keeps the
remaining length as its own state. -/
theorem relays :
    Relays (Body.pollFrame (B := B)) Body.pollFrame
      (fun remaining inner => (⟨remaining, inner⟩ : Limited B)) onReady := by
  intro remaining inner
  simp only [Body.pollFrame, pollFrame, relay]
  congr 1
  funext answer
  rcases answer with ⟨_ | (_ | (err | (d | map))), inner⟩
  · rfl
  · rfl
  · rfl
  · by_cases h : remaining < Buf.remaining d
    · simp [Frame.dataRef, onReady, h]
    · simp [Frame.dataRef, onReady, h, usizeSub, Nat.le_of_not_lt h]
  · rfl

/-! ## The hint of a limited body -/

/-- The upper bound that a limit leaves to a hint. -/
def available (remaining : ℕ) (hint : SizeHint) : ℕ :=
  match hint.upper with
  | some max => min remaining max
  | none => remaining

omit [Foreign] in
theorem lower_le_available {remaining : ℕ} {hint : SizeHint} (hwf : hint.WellFormed)
    (h : hint.lower ≤ remaining) : hint.lower ≤ available remaining hint := by
  rcases hint with ⟨lower, _ | max⟩
  · exact h
  · have hmax : lower ≤ max := hwf max rfl
    exact Nat.le_min.mpr ⟨h, hmax⟩

/-- What a limit of `remaining` bytes leaves of a hint. -/
def clamp (remaining : ℕ) (hint : SizeHint) : SizeHint :=
  if remaining < wordSize then
    if remaining ≤ hint.lower then .withExact remaining
    else { hint with upper := some (available remaining hint) }
  else hint

omit [Foreign] in
theorem clamp_of_le {remaining : ℕ} {hint : SizeHint} (hlt : remaining < wordSize)
    (hle : remaining ≤ hint.lower) : clamp remaining hint = .withExact remaining := by
  rw [clamp, if_pos hlt, if_pos hle]

omit [Foreign] in
theorem clamp_of_lt {remaining : ℕ} {hint : SizeHint} (hlt : remaining < wordSize)
    (hlower : hint.lower < remaining) :
    clamp remaining hint = { hint with upper := some (available remaining hint) } := by
  rw [clamp, if_pos hlt, if_neg (Nat.not_le.mpr hlower)]

omit [Foreign] in
theorem clamp_of_big {remaining : ℕ} {hint : SizeHint} (hbig : ¬ remaining < wordSize) :
    clamp remaining hint = hint := if_neg hbig

omit [Buf D] [Into E BoxError] in
/-- The setters do not panic on bounds that are in order. -/
theorem sizeHint_clamp {ar : Arith} {hint : SizeHint} {b : B}
    (hb : Body.sizeHint ar b = .ok hint) (hwf : hint.WellFormed) (remaining : ℕ) :
    sizeHint ar ⟨remaining, b⟩ = .ok (clamp remaining hint) := by
  by_cases hlt : remaining < wordSize
  · simp only [sizeHint, u64TryFrom, hlt, ↓reduceIte, hb]
    change (if _ then _ else _) = _
    by_cases hlower : remaining ≤ hint.lower
    · rw [if_pos hlower, clamp_of_le hlt hlower]
      rfl
    · have hle := lower_le_available hwf (Nat.le_of_not_le hlower)
      rw [if_neg hlower, clamp_of_lt hlt (Nat.lt_of_not_le hlower)]
      rcases hint with ⟨lower, _ | max⟩
      · exact if_pos hle
      · exact if_pos hle
  · simp only [sizeHint, u64TryFrom, hlt, ↓reduceIte, hb, clamp_of_big hlt]

omit [Buf D] [Into E BoxError] in
theorem sizeHint_stops {ar : Arith} {stop : Stop} {b : B}
    (hb : Body.sizeHint ar b = .error stop) (remaining : ℕ) :
    sizeHint ar ⟨remaining, b⟩ = .error stop := by
  by_cases hlt : remaining < wordSize
  · simp only [sizeHint, u64TryFrom, hlt, ↓reduceIte, hb]
    rfl
  · simp only [sizeHint, u64TryFrom, hlt, ↓reduceIte, hb]

end Limited

theorem SizeHint.WellFormed.clamp {hint : SizeHint} (hwf : hint.WellFormed)
    (remaining : ℕ) : (Limited.clamp remaining hint).WellFormed := by
  by_cases hlt : remaining < wordSize
  · by_cases hlower : remaining ≤ hint.lower
    · rw [Limited.clamp_of_le hlt hlower]
      exact wellFormed_withExact remaining
    · rw [Limited.clamp_of_lt hlt (Nat.lt_of_not_le hlower)]
      intro upper hupper
      cases hupper
      exact Limited.lower_le_available hwf (Nat.le_of_not_le hlower)
  · rw [Limited.clamp_of_big hlt]
    exact hwf

end HttpBody
