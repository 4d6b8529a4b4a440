import HttpBody.Core.HeaderTable
import HttpBody.Util.Leaves
import HttpBody.Util.Limited
import Mathlib.Data.List.Induction

/-!
# The budget of a limited body

The remaining length of a limited body is its limit less the data that its
inner body has yielded so far, and zero once there has been more.  What each
call returns follows from that.
-/

namespace HttpBody

open Support

namespace Limited

section

variable [Foreign] {B D E : Type} [Buf D]

/-- The frame that first exceeds the limit. -/
theorem exists_crossing {limit : ℕ} {rs : List (PollFrame D E)}
    (h : limit < dataTotal rs) :
    ∃ pre r post, rs = pre ++ r :: post ∧ dataTotal pre ≤ limit ∧
      limit < dataTotal (pre ++ [r]) := by
  induction rs using List.reverseRecOn with
  | nil => simp at h
  | append_singleton rs r ih =>
      by_cases hrs : limit < dataTotal rs
      · obtain ⟨pre, r', post, rfl, hpre, hcross⟩ := ih hrs
        exact ⟨pre, r', post ++ [r], by simp, hpre, hcross⟩
      · exact ⟨rs, r, [], rfl, Nat.le_of_not_lt hrs, h⟩

variable [Body B D E] [Into E BoxError]

/-- The error of a body that is over its limit. -/
def lengthLimit : PollFrame D BoxError :=
  .ready (.error (Into.into LengthLimitError.lengthLimitError))

/-- The result of the inner body, with its error converted. -/
def passed (r : PollFrame D E) : PollFrame D BoxError :=
  Item.mapErrPoll Into.into r

theorem remaining_onReady (remaining : ℕ) (r : Item D E) :
    (onReady remaining r).2 = remaining - r.dataLen := by
  rcases r with _ | (err | (d | map))
  · rfl
  · rfl
  · by_cases h : remaining < Buf.remaining d
    · simp [onReady, h, Item.dataLen, Nat.le_of_lt h]
    · simp [onReady, h, Item.dataLen]
  · rfl

theorem dataLen_onReady (remaining : ℕ) (r : Item D E) :
    (onReady remaining r).1.dataLen + (onReady remaining r).2 ≤ remaining := by
  rcases r with _ | (err | (d | map))
  · simp [onReady, Item.dataLen]
  · simp [onReady, Item.dataLen]
  · by_cases h : remaining < Buf.remaining d
    · simp [onReady, h, Item.dataLen]
    · simp only [onReady, h, ↓reduceIte, Item.dataLen]
      omega
  · simp [onReady, Item.dataLen]

/-- The remaining length counts down the data of the inner body. -/
theorem remaining_relayRun (remaining : ℕ) (rs : List (PollFrame D E)) :
    (relayRun onReady remaining rs).2 = remaining - dataTotal rs := by
  induction rs generalizing remaining with
  | nil => rfl
  | cons r rs ih =>
      cases r with
      | pending => simp [relayRun, ih]
      | ready r =>
          simp only [relayRun, ih, remaining_onReady, dataTotal_cons, dataLen]
          omega

/-- The data returned and the length that remains stay within the limit. -/
theorem dataTotal_relayRun (remaining : ℕ) (rs : List (PollFrame D E)) :
    dataTotal (relayRun onReady remaining rs).1 +
      (relayRun onReady remaining rs).2 ≤ remaining := by
  induction rs generalizing remaining with
  | nil => simp [relayRun]
  | cons r rs ih =>
      cases r with
      | pending => simpa [relayRun] using ih remaining
      | ready r =>
          have hhead := dataLen_onReady remaining r
          have htail := ih (onReady remaining r).2
          simp only [relayRun, dataTotal_cons, dataLen]
          omega

/-- One call, by the length of the answer: what fits is passed on, and what is
longer than the remaining length becomes an error. -/
theorem relayRun_single (remaining : ℕ) (r : PollFrame D E) :
    (relayRun onReady remaining [r]).1.head? =
      some (if dataLen r ≤ remaining then passed r else lengthLimit) := by
  rcases r with _ | (_ | (err | (d | map)))
  · rfl
  · simp [relayRun, onReady, passed, Item.mapErrPoll]
  · simp [relayRun, onReady, passed, Item.mapErrPoll]
  · by_cases h : Buf.remaining d ≤ remaining
    · simp [relayRun, onReady, h, Nat.not_lt.mpr h, passed, Item.mapErrPoll]
    · simp [relayRun, onReady, h, Nat.lt_of_not_le h, lengthLimit]
  · simp [relayRun, onReady, passed, Item.mapErrPoll]

/-- The call in which the inner body answers `r` after `pre`. -/
theorem relayRun_at (limit : ℕ) (pre : List (PollFrame D E)) (r : PollFrame D E)
    (post : List (PollFrame D E)) :
    (relayRun onReady limit (pre ++ r :: post)).1[pre.length]? =
      some (if dataLen r ≤ limit - dataTotal pre then passed r else lengthLimit) := by
  rw [relayRun_getElem?, remaining_relayRun, relayRun_single]

/-- Within the limit every result is passed on. -/
theorem relayRun_of_le (limit : ℕ) (rs : List (PollFrame D E))
    (h : dataTotal rs ≤ limit) :
    (relayRun onReady limit rs).1 = rs.map passed := by
  apply List.ext_getElem?
  intro k
  by_cases hk : k < rs.length
  · obtain ⟨pre, r, post, rfl, rfl⟩ : ∃ pre r post, rs = pre ++ r :: post ∧ pre.length = k :=
      ⟨rs.take k, rs[k], rs.drop (k + 1), by simp, by simp [Nat.le_of_lt hk]⟩
    rw [dataTotal_append, dataTotal_cons] at h
    rw [relayRun_at, if_pos (by omega)]
    simp
  · rw [List.getElem?_eq_none (by simpa using hk), List.getElem?_eq_none (by simpa using hk)]

/-- The results `rs` of a limited body, by the results `is` that its inner body
gave in the same calls. -/
structure Budgeted (limit : ℕ) (is : List (PollFrame D E))
    (rs : List (PollFrame D BoxError)) : Prop where
  length_eq : is.length = rs.length
  total_le : dataTotal rs ≤ limit
  within : ∀ pre r post, is = pre ++ r :: post → dataTotal (pre ++ [r]) ≤ limit →
    rs[pre.length]? = some (passed r)
  crossing : ∀ pre r post, is = pre ++ r :: post → dataTotal pre ≤ limit →
    limit < dataTotal (pre ++ [r]) → rs[pre.length]? = some lengthLimit
  beyond : ∀ pre r post, is = pre ++ r :: post → limit < dataTotal pre →
    rs[pre.length]? = some (if 0 < dataLen r then lengthLimit else passed r)
  unchanged : dataTotal is ≤ limit → rs = is.map passed
  errs : limit < dataTotal is → lengthLimit ∈ rs

theorem budgeted_relayRun (limit : ℕ) (is : List (PollFrame D E)) :
    Budgeted limit is (relayRun onReady limit is).1 where
  length_eq := by simp
  total_le := by
    have htotal := dataTotal_relayRun limit is
    omega
  within := by
    rintro pre r post rfl hle
    rw [dataTotal_append, dataTotal_cons, dataTotal_nil] at hle
    rw [relayRun_at, if_pos (by omega)]
  crossing := by
    rintro pre r post rfl hle hlt
    rw [dataTotal_append, dataTotal_cons, dataTotal_nil] at hlt
    rw [relayRun_at, if_neg (by omega)]
  beyond := by
    rintro pre r post rfl hlt
    rw [relayRun_at]
    by_cases hr : 0 < dataLen r
    · rw [if_neg (by omega), if_pos hr]
    · rw [if_pos (by omega), if_neg hr]
  unchanged := relayRun_of_le limit is
  errs := by
    intro hlt
    obtain ⟨pre, r, post, rfl, hle, hcross⟩ := exists_crossing hlt
    rw [dataTotal_append, dataTotal_cons, dataTotal_nil] at hcross
    have hat := relayRun_at limit pre r post
    rw [if_neg (by omega)] at hat
    exact List.mem_of_getElem? hat

/-- The whole-run law of a limited body.  A call that does not return stops in
the inner body: the counter never underflows. -/
theorem budget_law (b : B) (limit : ℕ) {rs : List (PollFrame D BoxError)}
    {l : Limited B} (h : Runs Body.Steps (new b limit) rs l) :
    ∃ is : List (PollFrame D E),
      Runs Body.Steps b is l.inner ∧ Budgeted limit is rs ∧
      ∀ t s, Body.pollFrame l = ⟨t, .error s⟩ →
        Body.pollFrame l.inner = ⟨t, .error s⟩ := by
  obtain ⟨is, b', his, rfl, rfl⟩ := relays.runs h
  exact ⟨is, his, budgeted_relayRun limit is, fun t s hs => relays.stop hs⟩

end

/-- Three bytes against a limit of two. -/
theorem budget_law_full :
    ∃ is : List (PollFrame Bytes Infallible),
      Runs Body.Steps (Full.new (⟨[1, 2, 3], by decide⟩ : Bytes)) is ⟨none⟩ ∧
      Budgeted 2 is [lengthLimit, .ready none] := by
  have hrun : Runs Body.Steps (new (Full.new (⟨[1, 2, 3], by decide⟩ : Bytes)) 2)
      [lengthLimit, .ready none] ⟨0, ⟨none⟩⟩ :=
    .cons rfl (.cons rfl (.nil _))
  obtain ⟨is, his, hbudget, -⟩ := budget_law _ 2 hrun
  exact ⟨is, his, hbudget⟩

end Limited

end HttpBody
