import HttpBody.Core.HeaderTable
import HttpBody.Util.Leaves
import HttpBody.Util.Limited

/-!
# Nested limits

A limited body that is limited again behaves as the body with the smaller of
the two limits.  When a frame breaks one of the limits, only the counter of that
limit is set to zero, but the smaller of the two counters is zero either way.
-/

namespace HttpBody

open Support

namespace Limited

section

variable [Foreign] {B D E : Type} [Buf D] [Body B D E] [Into E BoxError]

/-- The bounds that the body says are in order, if it says any. -/
def HintWellFormed (ar : Arith) (b : B) : Prop :=
  ∀ hint, Body.sizeHint ar b = .ok hint → hint.WellFormed

omit [Foreign] in
theorem available_min (p q : ℕ) (hint : SizeHint) :
    available (min p q) hint = min q (available p hint) := by
  rcases hint with ⟨lower, _ | max⟩
  · exact Nat.min_comm p q
  · change min (min p q) max = min q (min p max)
    rw [Nat.min_comm p q, Nat.min_assoc]

omit [Foreign] in
/-- Clamping a hint twice is clamping it once, by the smaller limit. -/
theorem clamp_clamp (p q : ℕ) (hint : SizeHint) :
    clamp q (clamp p hint) = clamp (min p q) hint := by
  by_cases hp : p < wordSize
  · have hmin : min p q < wordSize := Nat.lt_of_le_of_lt (Nat.min_le_left p q) hp
    by_cases hlower : p ≤ hint.lower
    · have hmin_lower : min p q ≤ hint.lower := Nat.le_trans (Nat.min_le_left p q) hlower
      rw [clamp_of_le hp hlower, clamp_of_le hmin hmin_lower]
      by_cases hq : q < wordSize
      · by_cases hqp : q ≤ p
        · rw [clamp_of_le hq hqp, Nat.min_eq_right hqp]
        · have hpq : p < q := Nat.lt_of_not_le hqp
          have hexact : available q (.withExact p) = p := Nat.min_eq_right (Nat.le_of_lt hpq)
          rw [clamp_of_lt hq hpq, hexact, Nat.min_eq_left (Nat.le_of_lt hpq)]
          rfl
      · have hpq : p ≤ q := Nat.le_of_lt (Nat.lt_of_lt_of_le hp (Nat.le_of_not_lt hq))
        rw [clamp_of_big hq, Nat.min_eq_left hpq]
    · have hlt : hint.lower < p := Nat.lt_of_not_le hlower
      rw [clamp_of_lt hp hlt]
      by_cases hq : q < wordSize
      · by_cases hqlower : q ≤ hint.lower
        · have hqp : q ≤ p := Nat.le_trans hqlower (Nat.le_of_lt hlt)
          have hinner : clamp q { hint with upper := some (available p hint) } = .withExact q :=
            clamp_of_le hq hqlower
          rw [hinner, Nat.min_eq_right hqp, clamp_of_le hq hqlower]
        · have hltq : hint.lower < q := Nat.lt_of_not_le hqlower
          have hltmin : hint.lower < min p q := Nat.lt_min.mpr ⟨hlt, hltq⟩
          rw [clamp_of_lt hmin hltmin, available_min]
          exact clamp_of_lt hq hltq
      · have hpq : p ≤ q := Nat.le_of_lt (Nat.lt_of_lt_of_le hp (Nat.le_of_not_lt hq))
        rw [clamp_of_big hq, Nat.min_eq_left hpq, clamp_of_lt hp hlt]
  · rw [clamp_of_big hp]
    by_cases hq : q < wordSize
    · have hqp : q ≤ p := Nat.le_of_lt (Nat.lt_of_lt_of_le hq (Nat.le_of_not_lt hp))
      rw [Nat.min_eq_right hqp]
    · have hmin : ¬ min p q < wordSize := by
        have hle : wordSize ≤ min p q :=
          Nat.le_min.mpr ⟨Nat.le_of_not_lt hp, Nat.le_of_not_lt hq⟩
        exact Nat.not_lt.mpr hle
      rw [clamp_of_big hq, clamp_of_big hmin]

theorem look_nested {ar : Arith} (p q : ℕ) {b : B} (hb : HintWellFormed ar b) :
    Body.look ar (⟨q, ⟨p, b⟩⟩ : Limited (Limited B)) =
      Body.look ar (⟨min p q, b⟩ : Limited B) := by
  have hhint : sizeHint ar (⟨q, ⟨p, b⟩⟩ : Limited (Limited B)) =
      sizeHint ar (⟨min p q, b⟩ : Limited B) := by
    rcases hbody : Body.sizeHint ar b with stop | hint
    · have hinner : Body.sizeHint ar (⟨p, b⟩ : Limited B) = .error stop := sizeHint_stops hbody p
      rw [sizeHint_stops hinner q, sizeHint_stops hbody (min p q)]
    · have hwf : hint.WellFormed := hb hint hbody
      have hinner : Body.sizeHint ar (⟨p, b⟩ : Limited B) = .ok (clamp p hint) :=
        sizeHint_clamp hbody hwf p
      rw [sizeHint_clamp hinner (hwf.clamp p) q, sizeHint_clamp hbody hwf (min p q), clamp_clamp]
  exact congrArg (Prod.mk _) hhint

/-- One answer of the body, limited twice and limited once. -/
theorem onReady_nested (p q : ℕ) (r : Item D E) :
    (onReady q (onReady p r).1).1 = (onReady (min p q) r).1 ∧
      min (onReady p r).2 (onReady q (onReady p r).1).2 = (onReady (min p q) r).2 := by
  rcases r with _ | (err | (d | map))
  · exact ⟨rfl, rfl⟩
  · exact ⟨rfl, rfl⟩
  · by_cases hp : p < Buf.remaining d
    · have hmin : min p q < Buf.remaining d := Nat.lt_of_le_of_lt (Nat.min_le_left p q) hp
      simp [onReady, hp, hmin]
    · by_cases hq : q < Buf.remaining d
      · have hmin : min p q < Buf.remaining d := Nat.lt_of_le_of_lt (Nat.min_le_right p q) hq
        simp [onReady, hp, hq, hmin]
      · have hmin : ¬ min p q < Buf.remaining d := by
          simp only [Nat.min_def]
          split
          · exact hp
          · exact hq
        have hsub := Nat.sub_min_sub_right p q (Buf.remaining d)
        simp [onReady, hp, hq, hmin, hsub]
  · exact ⟨rfl, rfl⟩

/-- The counters of the two limits and of the single one. -/
def Nested (s : ℕ × ℕ) (k : ℕ) : Prop := min s.1 s.2 = k

/-- A limit on a limited body and the smaller of the two limits cannot be told
apart: any number of calls returns the same results, polls the same leaves, and
leaves states that say the same of the end and of the size. -/
theorem nested_limits {ar : Arith} {b : B} (hb : Always Body.Steps (HintWellFormed ar) b)
    (m n calls : ℕ) :
    Body.look ar (new (new b m) n) = Body.look ar (new b (min m n)) ∧
      observations Body.pollFrame (Body.look ar) calls (new (new b m) n) =
        observations Body.pollFrame (Body.look ar) calls (new b (min m n)) := by
  have hnested := (relays (B := B)).comp (relays (B := Limited B))
  have hanswer : ∀ s k (r : Item D E), Nested s k →
      (onReady s.2 (onReady s.1 r).1).1 = (onReady k r).1 ∧
        Nested ((onReady s.1 r).2, (onReady s.2 (onReady s.1 r).1).2) (onReady k r).2 := by
    intro s k r hs
    obtain rfl := hs
    exact onReady_nested s.1 s.2 r
  have hlook : ∀ s k (b : B), Nested s k → HintWellFormed ar b →
      Body.look ar (⟨s.2, ⟨s.1, b⟩⟩ : Limited (Limited B)) =
        Body.look ar (⟨k, b⟩ : Limited B) := by
    intro s k b hs hb
    obtain rfl := hs
    exact look_nested s.1 s.2 hb
  have hlockstep := hnested.lockstep relays hanswer hlook
  refine ⟨look_nested m n hb.here, ?_⟩
  exact hlockstep.observations_eq ⟨(m, n), min m n, b, rfl, hb, rfl, rfl⟩ calls

omit [Body B D E] [Into E BoxError] in
theorem hintWellFormed_full (ar : Arith) (b : Full D) : HintWellFormed ar b := by
  intro hint hhint
  obtain ⟨_ | data⟩ := b
  · cases hhint
    exact SizeHint.wellFormed_withExact 0
  · have hlt := Buf.remaining_lt data
    simp only [Body.sizeHint, u64TryFrom, hlt, if_true] at hhint
    cases hhint
    exact SizeHint.wellFormed_withExact _

end

/-- A chunk of three bytes breaks the outer limit, not the inner one. -/
theorem nested_limits_full :
    observations Body.pollFrame (Body.look .checked) 2
        (new (new (Full.new (⟨[1, 2, 3], by decide⟩ : Bytes)) 4) 2) =
      observations Body.pollFrame (Body.look .checked) 2
        (new (Full.new (⟨[1, 2, 3], by decide⟩ : Bytes)) (min 4 2)) :=
  (nested_limits (fun _ _ _ => hintWellFormed_full .checked _) 4 2 2).2

end Limited

end HttpBody
