import HttpBody.Support.Call
import Mathlib.Algebra.GroupWithZero.Nat

/-!
# Size hints

A size hint bounds the number of data bytes that a body will still yield.  The
setters assert that the lower bound stays below the upper one.  Addition is
stated for a chosen reading of `+` on machine words, since the code is compiled
with and without overflow checks and its contract is often read over the
integers.
-/

namespace HttpBody

open Support

/-- The number of values of `u64`, and of `usize` on 64-bit targets. -/
def wordSize : ℕ := 2 ^ 64

/-- How addition of machine words is read: over the integers, with overflow
checks (debug builds), or modulo the word size (release builds). -/
inductive Arith where
  | exact
  | checked
  | wrapping
  deriving DecidableEq, Repr

def Arith.add : Arith → ℕ → ℕ → Except Stop ℕ
  | .exact, x, y => .ok (x + y)
  | .checked, x, y => if x + y < wordSize then .ok (x + y) else .error .overflow
  | .wrapping, x, y => .ok ((x + y) % wordSize)

/-- What the integer `n` becomes as a machine word. -/
def Arith.word : Arith → ℕ → Except Stop ℕ
  | .exact, n => .ok n
  | .checked, n => if n < wordSize then .ok n else .error .overflow
  | .wrapping, n => .ok (n % wordSize)

theorem Arith.add_eq_word (ar : Arith) (x y : ℕ) : ar.add x y = ar.word (x + y) := by
  cases ar <;> rfl

theorem Arith.word_of_lt (ar : Arith) {n : ℕ} (h : n < wordSize) : ar.word n = .ok n := by
  cases ar with
  | exact => rfl
  | checked => exact if_pos h
  | wrapping => rw [Arith.word, Nat.mod_eq_of_lt h]

/-- In the two builds a number is right exactly when it fits a word. -/
theorem Arith.word_eq_ok_iff {ar : Arith} (har : ar ≠ .exact) {n : ℕ} :
    ar.word n = .ok n ↔ n < wordSize := by
  constructor
  · intro h
    by_contra hover
    cases ar with
    | exact => exact har rfl
    | checked =>
        rw [Arith.word, if_neg hover] at h
        cases h
    | wrapping =>
        have hmod : n % wordSize = n := Except.ok.inj h
        have hlt : n % wordSize < wordSize := Nat.mod_lt _ (by decide)
        exact hover (hmod ▸ hlt)
  · exact ar.word_of_lt

theorem Arith.add_of_lt (ar : Arith) {x y : ℕ} (h : x + y < wordSize) :
    ar.add x y = .ok (x + y) := by
  rw [ar.add_eq_word]
  exact ar.word_of_lt h

/-- A chain of additions gives what its true sum becomes as a machine word: no
addition in the middle fails, or goes wrong, on its own. -/
theorem Arith.foldlM_add (ar : Arith) (ns : List ℕ) (sum : ℕ) (h : ar ≠ .exact → sum < wordSize) :
    ns.foldlM ar.add sum = ar.word (sum + ns.sum) := by
  induction ns generalizing sum with
  | nil =>
      cases ar with
      | exact => rfl
      | checked => exact (Arith.checked.word_of_lt (h (by decide))).symm
      | wrapping => exact (Arith.wrapping.word_of_lt (h (by decide))).symm
  | cons n ns ih =>
      rw [List.foldlM_cons, List.sum_cons, ← Nat.add_assoc, ar.add_eq_word]
      cases ar with
      | exact => exact ih (sum + n) fun hne => (hne rfl).elim
      | checked =>
          by_cases hlt : sum + n < wordSize
          · rw [Arith.checked.word_of_lt hlt]
            exact ih (sum + n) fun _ => hlt
          · have hover : ¬ sum + n + ns.sum < wordSize := fun h => hlt (by omega)
            rw [Arith.word, if_neg hlt, Arith.word, if_neg hover]
            rfl
      | wrapping =>
          have hlt : (sum + n) % wordSize < wordSize := Nat.mod_lt _ (by decide)
          have hrest := ih ((sum + n) % wordSize) fun _ => hlt
          change ns.foldlM Arith.wrapping.add ((sum + n) % wordSize) = _
          rw [hrest, Arith.word, Arith.word, Nat.mod_add_mod]

/-- `u64::try_from` on a `usize`. -/
def u64TryFrom (n : ℕ) : Option ℕ :=
  if n < wordSize then some n else none

/-- Bounds on the remaining length of a body. -/
structure SizeHint where
  lower : ℕ
  upper : Option ℕ
  deriving DecidableEq, Repr

namespace SizeHint

/-- The default hint, which says nothing. -/
def new : SizeHint := ⟨0, none⟩

def withExact (value : ℕ) : SizeHint := ⟨value, some value⟩

def setLower (hint : SizeHint) (value : ℕ) : Except Stop SizeHint :=
  if value ≤ hint.upper.getD (wordSize - 1) then
    .ok { hint with lower := value }
  else
    .error (.assertFailed "assertion failed: value <= self.upper.unwrap_or(u64::MAX)")

def setUpper (hint : SizeHint) (value : ℕ) : Except Stop SizeHint :=
  if hint.lower ≤ value then
    .ok { hint with upper := some value }
  else
    .error (.assertFailed "`value` is less than than `lower`")

/-- The exact size, when the two bounds agree. -/
def exact (hint : SizeHint) : Option ℕ :=
  if some hint.lower = hint.upper then hint.upper else none

def setExact (_hint : SizeHint) (value : ℕ) : SizeHint :=
  ⟨value, some value⟩

/-- `impl Add for SizeHint`, with `+` on `u64` read as `ar` says. -/
def add (ar : Arith) (self rhs : SizeHint) : Except Stop SizeHint := do
  let lower ← ar.add self.lower rhs.lower
  match self.upper, rhs.upper with
  | some this, some rhs => do
      let upper ← ar.add this rhs
      return ⟨lower, some upper⟩
  | _, _ => return ⟨lower, none⟩

/-! ## What a hint says -/

/-- The lower bound does not exceed the upper one. -/
def WellFormed (hint : SizeHint) : Prop :=
  ∀ u, hint.upper = some u → hint.lower ≤ u

/-- `n` lies between the bounds. -/
def Contains (hint : SizeHint) (n : ℕ) : Prop :=
  hint.lower ≤ n ∧ ∀ u, hint.upper = some u → n ≤ u

theorem wellFormed_new : new.WellFormed := by
  simp [WellFormed, new]

theorem contains_new (n : ℕ) : new.Contains n := by
  simp [Contains, new]

theorem wellFormed_withExact (value : ℕ) : (withExact value).WellFormed := by
  simp [WellFormed, withExact]

@[simp] theorem contains_withExact {value n : ℕ} :
    (withExact value).Contains n ↔ n = value := by
  simp only [Contains, withExact, Option.some.injEq, forall_eq']
  omega

@[simp] theorem setExact_eq (hint : SizeHint) (value : ℕ) :
    hint.setExact value = withExact value := rfl

/-- The sum of two hints over the integers. -/
def sum (a b : SizeHint) : SizeHint where
  lower := a.lower + b.lower
  upper := a.upper.bind fun x => b.upper.map fun y => x + y

theorem add_exact (a b : SizeHint) : add .exact a b = .ok (sum a b) := by
  rcases a with ⟨la, _ | ua⟩ <;> rcases b with ⟨lb, _ | ub⟩ <;> rfl

theorem sum_assoc (a b c : SizeHint) : sum (sum a b) c = sum a (sum b c) := by
  rcases a with ⟨la, _ | ua⟩ <;> rcases b with ⟨lb, _ | ub⟩ <;>
    rcases c with ⟨lc, _ | uc⟩ <;> simp [sum, Nat.add_assoc]

theorem WellFormed.sum {a b : SizeHint} (ha : a.WellFormed)
    (hb : b.WellFormed) : (sum a b).WellFormed := by
  intro u hu
  simp only [SizeHint.sum, Option.bind_eq_some_iff, Option.map_eq_some_iff] at hu
  obtain ⟨x, hx, y, hy, rfl⟩ := hu
  exact Nat.add_le_add (ha x hx) (hb y hy)

/-- The sum of two hints bounds the sum of what they bound. -/
theorem Contains.sum {a b : SizeHint} {m n : ℕ} (ha : a.Contains m)
    (hb : b.Contains n) : (sum a b).Contains (m + n) := by
  refine ⟨Nat.add_le_add ha.1 hb.1, ?_⟩
  intro u hu
  simp only [SizeHint.sum, Option.bind_eq_some_iff, Option.map_eq_some_iff] at hu
  obtain ⟨x, hx, y, hy, rfl⟩ := hu
  exact Nat.add_le_add (ha.2 x hx) (hb.2 y hy)

end SizeHint

end HttpBody
