import HttpBody.Core.HeaderTable
import HttpBody.Util.Chain
import HttpBody.Util.Leaves
import HttpBody.Util.Limited

/-!
# Addition of size hints

The bounds of a hint are machine words, but nothing keeps their sums within a
machine word.  Two hints are added rightly exactly when neither sum leaves it.
-/

namespace HttpBody

open Support

theorem Arith.add_eq_sum_iff {ar : Arith} (har : ar ≠ .exact) {x y : ℕ} :
    ar.add x y = .ok (x + y) ↔ x + y < wordSize := by
  rw [ar.add_eq_word]
  exact Arith.word_eq_ok_iff har

namespace SizeHint

/-- The sums of the bounds of two hints are machine words. -/
def Fits (a b : SizeHint) : Prop :=
  a.lower + b.lower < wordSize ∧
    ∀ x y, a.upper = some x → b.upper = some y → x + y < wordSize

/-- The hints that the public interface can make: by its constructors, by its
setters when they do not panic, and by addition.  In a build without overflow
checks, only additions that fit are counted. -/
inductive Built (ar : Arith) : SizeHint → Prop where
  | new : Built ar new
  | withExact (value : ℕ) : value < wordSize → Built ar (withExact value)
  | setLower {hint hint' : SizeHint} (value : ℕ) : Built ar hint → value < wordSize →
      hint.setLower value = .ok hint' → Built ar hint'
  | setUpper {hint hint' : SizeHint} (value : ℕ) : Built ar hint → value < wordSize →
      hint.setUpper value = .ok hint' → Built ar hint'
  | setExact {hint : SizeHint} (value : ℕ) : Built ar hint → value < wordSize →
      Built ar (hint.setExact value)
  | add {a b c : SizeHint} : Built ar a → Built ar b → (ar = .wrapping → Fits a b) →
      add ar a b = .ok c → Built ar c

/-- Nothing overflowed in an addition of `a` and `b`, the bounds of its outcome
are in order, and they bound what the two hints bound together. -/
def AddsSoundly (a b : SizeHint) (outcome : Except Stop SizeHint) : Prop :=
  ∃ c, outcome = .ok c ∧ c = sum a b ∧ c.WellFormed ∧
    ∀ x y, a.Contains x → b.Contains y → x + y < wordSize → c.Contains (x + y)

/-- The bounds are machine words, in order. -/
structure Legal (hint : SizeHint) : Prop where
  lower_lt : hint.lower < wordSize
  upper_lt : ∀ u, hint.upper = some u → u < wordSize
  wellFormed : hint.WellFormed

/-! ## When an addition is exact -/

theorem Fits.add_eq {a b : SizeHint} (h : Fits a b) (ar : Arith) :
    add ar a b = .ok (sum a b) := by
  have hlower := ar.add_of_lt h.1
  rcases a with ⟨la, _ | ua⟩
  · rw [add, hlower]
    rfl
  · rcases b with ⟨lb, _ | ub⟩
    · rw [add, hlower]
      rfl
    · have hupper := ar.add_of_lt (h.2 ua ub rfl rfl)
      rw [add, hlower]
      change (ar.add ua ub >>= fun upper => pure (⟨la + lb, some upper⟩ : SizeHint)) = _
      rw [hupper]
      rfl

/-- The lower bound of the outcome is the sum of the lower bounds. -/
theorem lower_of_add {ar : Arith} {a b c : SizeHint} (h : add ar a b = .ok c) :
    ar.add a.lower b.lower = .ok c.lower := by
  rcases hlower : ar.add a.lower b.lower with stop | lower
  · rw [add, hlower] at h
    cases h
  · rw [add, hlower] at h
    rcases a with ⟨la, _ | ua⟩
    · cases h
      rfl
    · rcases b with ⟨lb, _ | ub⟩
      · cases h
        rfl
      · change (ar.add ua ub >>= fun upper => pure (⟨lower, some upper⟩ : SizeHint)) = _ at h
        rcases hupper : ar.add ua ub with stop | upper
        · rw [hupper] at h
          cases h
        · rw [hupper] at h
          cases h
          rfl

theorem upper_of_add {ar : Arith} {a b c : SizeHint} {x y : ℕ} (h : add ar a b = .ok c)
    (hx : a.upper = some x) (hy : b.upper = some y) :
    ∃ upper, ar.add x y = .ok upper ∧ c.upper = some upper := by
  rcases a with ⟨la, ua⟩
  rcases b with ⟨lb, ub⟩
  subst hx hy
  have hlower := lower_of_add h
  rw [add, hlower] at h
  change (ar.add x y >>= fun upper => pure (⟨c.lower, some upper⟩ : SizeHint)) = _ at h
  rcases hupper : ar.add x y with stop | upper
  · rw [hupper] at h
    cases h
  · rw [hupper] at h
    have hc := Except.ok.inj h
    exact ⟨upper, rfl, hc ▸ rfl⟩

theorem add_eq_sum_iff {ar : Arith} (har : ar ≠ .exact) {a b : SizeHint} :
    add ar a b = .ok (sum a b) ↔ Fits a b := by
  constructor
  · intro h
    constructor
    · exact (Arith.add_eq_sum_iff har).mp (lower_of_add h)
    · intro x y hx hy
      obtain ⟨upper, hadd, hupper⟩ := upper_of_add h hx hy
      have hsum : (sum a b).upper = some (x + y) := by
        simp [sum, hx, hy]
      cases hupper.symm.trans hsum
      exact (Arith.add_eq_sum_iff har).mp hadd
  · intro h
    exact h.add_eq ar

/-- A checked addition that returns has fitted. -/
theorem fits_of_add_checked {a b c : SizeHint} (h : add .checked a b = .ok c) : Fits a b := by
  constructor
  · by_contra hover
    have hlower := lower_of_add h
    rw [Arith.add, if_neg hover] at hlower
    cases hlower
  · intro x y hx hy
    by_contra hover
    obtain ⟨upper, hadd, -⟩ := upper_of_add h hx hy
    rw [Arith.add, if_neg hover] at hadd
    cases hadd

/-! ## The hints that can be built -/

theorem Fits.legal {a b : SizeHint} (h : Fits a b) (ha : Legal a) (hb : Legal b) :
    Legal (sum a b) := by
  constructor
  · exact h.1
  · intro u hu
    simp only [sum, Option.bind_eq_some_iff, Option.map_eq_some_iff] at hu
    obtain ⟨x, hx, y, hy, rfl⟩ := hu
    exact h.2 x y hx hy
  · exact ha.wellFormed.sum hb.wellFormed

theorem legal_withExact {value : ℕ} (h : value < wordSize) : Legal (withExact value) := by
  constructor
  · exact h
  · intro u hu
    cases hu
    exact h
  · exact wellFormed_withExact value

theorem Built.legal {ar : Arith} (har : ar ≠ .exact) {hint : SizeHint} (h : Built ar hint) :
    Legal hint := by
  induction h with
  | new =>
      constructor
      · decide
      · intro u hu
        cases hu
      · exact wellFormed_new
  | withExact value hvalue => exact legal_withExact hvalue
  | @setLower hint hint' value _ hvalue hset ih =>
      rw [SizeHint.setLower] at hset
      split at hset
      · rename_i hle
        cases hset
        constructor
        · exact hvalue
        · exact ih.upper_lt
        · intro u hu
          have hupper : hint.upper = some u := hu
          simpa [hupper] using hle
      · cases hset
  | @setUpper hint hint' value _ hvalue hset ih =>
      rw [SizeHint.setUpper] at hset
      split at hset
      · rename_i hle
        cases hset
        constructor
        · exact ih.lower_lt
        · intro u hu
          cases hu
          exact hvalue
        · intro u hu
          cases hu
          exact hle
      · cases hset
  | setExact value _ hvalue _ => exact legal_withExact hvalue
  | @add a b c _ _ hwrapping hadd iha ihb =>
      have hfits : Fits a b := by
        cases ar with
        | exact => exact (har rfl).elim
        | checked => exact fits_of_add_checked hadd
        | wrapping => exact hwrapping rfl
      cases hadd.symm.trans (hfits.add_eq ar)
      exact hfits.legal iha ihb

/-! ## Sound additions -/

theorem addsSoundly_iff {ar : Arith} (har : ar ≠ .exact) {a b : SizeHint} (ha : Built ar a)
    (hb : Built ar b) : AddsSoundly a b (add ar a b) ↔ Fits a b := by
  constructor
  · intro h
    obtain ⟨c, hadd, rfl, -, -⟩ := h
    exact (add_eq_sum_iff har).mp hadd
  · intro h
    have hlegal := h.legal (ha.legal har) (hb.legal har)
    refine ⟨sum a b, h.add_eq ar, rfl, hlegal.wellFormed, ?_⟩
    intro x y hx hy _
    exact hx.sum hy

/-- Two hints that can be built are added soundly, also by a chain of bodies that
have them, exactly when the sums of their bounds are machine words. -/
theorem addition_sound_iff {ar : Arith} (har : ar ≠ .exact) {a b : SizeHint}
    (ha : Built ar a) (hb : Built ar b) :
    (AddsSoundly a b (add ar a b) ↔ Fits a b) ∧
      ∀ [Foreign] {A B D E₁ E₂ : Type} [Body A D E₁] [Body B D E₂] [Into E₁ E₂] (p : A) (q : B),
        Body.sizeHint ar p = .ok a → Body.sizeHint ar q = .ok b →
          (AddsSoundly a b (Body.sizeHint ar (Chain.new p q)) ↔ Fits a b) := by
  refine ⟨addsSoundly_iff har ha hb, ?_⟩
  intro _ A B D E₁ E₂ _ _ _ p q hp hq
  have hchain : Body.sizeHint ar (Chain.new p q) = add ar a b := by
    change (Body.sizeHint ar p >>= fun x => Body.sizeHint ar q >>= fun y => add ar x y) = _
    rw [hp, hq]
    rfl
  rw [hchain]
  exact addsSoundly_iff har ha hb

/-- A chunk, chained with a body that is limited: to five bytes, and to as many as a machine
word can count. -/
theorem addition_sound_iff_limited :
    AddsSoundly (withExact 1) ⟨0, some 5⟩ (Body.sizeHint .wrapping
        (Chain.new (Full.new (⟨[1], by decide⟩ : Bytes))
          (Limited.new (Pending.new Bytes Infallible) 5))) ∧
      ¬ AddsSoundly (withExact 1) ⟨0, some (wordSize - 1)⟩ (Body.sizeHint .wrapping
        (Chain.new (Full.new (⟨[1], by decide⟩ : Bytes))
          (Limited.new (Pending.new Bytes Infallible) (wordSize - 1)))) := by
  have hone : Built .wrapping (withExact 1) := .withExact 1 (by decide)
  have hfive : Built .wrapping ⟨0, some 5⟩ := .setUpper _ .new (by decide) rfl
  have hmax : Built .wrapping ⟨0, some (wordSize - 1)⟩ := .setUpper _ .new (by decide) rfl
  constructor
  · refine ((addition_sound_iff (by decide) hone hfive).2 _ _ rfl rfl).mpr ⟨by decide, ?_⟩
    rintro x y ⟨⟩ ⟨⟩
    decide
  · intro hsound
    have hfits := ((addition_sound_iff (by decide) hone hmax).2 _ _ rfl rfl).mp hsound
    have hlt := hfits.2 1 (wordSize - 1) rfl rfl
    revert hlt
    decide

/-- Every addition of hints that can be built is sound. -/
def AlwaysAddsSoundly (ar : Arith) : Prop :=
  ∀ a b, Built ar a → Built ar b → AddsSoundly a b (add ar a b)

/-- The largest size and one more byte overflow, and so does the upper bound of a
chain with a body whose limit is the largest size. -/
theorem not_alwaysAddsSoundly :
    ¬ AlwaysAddsSoundly .checked ∧ ¬ AlwaysAddsSoundly .wrapping ∧
      Body.sizeHint .checked (Chain.new (Full.new (⟨[1], by decide⟩ : Bytes))
        (Limited.new (Pending.new Bytes Infallible) (wordSize - 1))) = .error .overflow ∧
      Body.sizeHint .wrapping (Chain.new (Full.new (⟨[1], by decide⟩ : Bytes))
        (Limited.new (Pending.new Bytes Infallible) (wordSize - 1))) = .ok ⟨1, some 0⟩ := by
  have hmax : wordSize - 1 < wordSize := by decide
  have hone : 1 < wordSize := by decide
  refine ⟨?_, ?_, rfl, rfl⟩
  · intro hsound
    obtain ⟨c, hadd, -⟩ := hsound _ _ (.withExact (wordSize - 1) hmax) (.withExact 1 hone)
    cases hadd
  · intro hsound
    obtain ⟨c, hadd, hsum, -⟩ := hsound _ _ (.withExact (wordSize - 1) hmax) (.withExact 1 hone)
    cases hadd
    cases hsum

end SizeHint

end HttpBody
