import HttpBody.Support.Call

/-!
# Readers

A reader gives out a sequence of units chunk by chunk: one looks at a chunk and
then advances past some of it.  A reader is lawful if it behaves as the sequence
that it still holds.  The loop that drains a reader then produces exactly that
sequence.
-/

namespace HttpBody.Support

universe u

variable {σ β : Type u}

/-- The methods of a reader with states in `σ`.  They may panic. -/
structure Reader (σ β : Type u) where
  remaining : σ → Except Stop ℕ
  hasRemaining : σ → Bool
  chunk : σ → List β
  advance : σ → ℕ → Except Stop σ

namespace Reader

/-- In the states in `valid`, the reader behaves as the sequence `held`. -/
structure Lawful (m : Reader σ β) (valid : σ → Prop) (held : σ → List β) : Prop where
  remaining_eq {s} : valid s → m.remaining s = .ok (held s).length
  hasRemaining_iff {s} : valid s → (m.hasRemaining s = true ↔ held s ≠ [])
  chunk_prefix {s} : valid s → m.chunk s <+: held s
  chunk_ne_nil {s} : valid s → held s ≠ [] → m.chunk s ≠ []
  advance_ok {s n} : valid s → n ≤ (held s).length →
    ∃ s', m.advance s n = .ok s' ∧ valid s' ∧ held s' = (held s).drop n

/-- Take chunks as long as something remains, and advance past each. -/
def drain (m : Reader σ β) : ℕ → σ → Except Stop (List β × σ)
  | 0, _ => .error .outOfFuel
  | fuel + 1, s =>
      if m.hasRemaining s then do
        let s' ← m.advance s (m.chunk s).length
        let (rest, s'') ← drain m fuel s'
        return (m.chunk s ++ rest, s'')
      else
        return ([], s)

/-- Draining a lawful reader terminates and produces what the reader holds. -/
theorem Lawful.drain {m : Reader σ β} {valid : σ → Prop} {held : σ → List β}
    (h : m.Lawful valid held) {s : σ} {fuel : ℕ} (hs : valid s)
    (hfuel : (held s).length < fuel) :
    ∃ s', m.drain fuel s = .ok (held s, s') ∧ valid s' ∧ held s' = [] := by
  induction fuel generalizing s with
  | zero => simp at hfuel
  | succ fuel ih =>
      by_cases hnil : held s = []
      · have hdone : m.hasRemaining s = false := by
          simpa using mt (h.hasRemaining_iff hs).mp (by simpa using hnil)
        refine ⟨s, ?_, hs, hnil⟩
        rw [Reader.drain, hdone, hnil]
        rfl
      · obtain ⟨rest, hrest⟩ := h.chunk_prefix hs
        have hchunk : 0 < (m.chunk s).length :=
          List.length_pos_iff.mpr (h.chunk_ne_nil hs hnil)
        have hlen : (m.chunk s).length + rest.length = (held s).length := by
          rw [← hrest, List.length_append]
        obtain ⟨s₁, hadvance, hs₁, hheld⟩ :=
          h.advance_ok hs (n := (m.chunk s).length) (by omega)
        rw [← hrest, List.drop_left] at hheld
        obtain ⟨s', hdrain, hs', hempty⟩ := ih hs₁ (by rw [hheld]; omega)
        refine ⟨s', ?_, hs', hempty⟩
        rw [Reader.drain, (h.hasRemaining_iff hs).mpr hnil, if_pos rfl, hadvance]
        change (m.drain fuel s₁ >>= _) = _
        rw [hdrain, hheld, ← hrest]
        rfl

/-! ## Reading at most a given number of units -/

/-- A reader together with the number of units that may still be read. -/
def take (m : Reader σ β) : Reader (σ × ℕ) β where
  remaining s := return min (← m.remaining s.1) s.2
  hasRemaining s := m.hasRemaining s.1 && decide (0 < s.2)
  chunk s := (m.chunk s.1).take s.2
  advance s n :=
    if n ≤ s.2 then return (← m.advance s.1 n, s.2 - n)
    else .error (.assertFailed "assertion failed: cnt <= self.limit")

theorem Lawful.take {m : Reader σ β} {valid : σ → Prop} {held : σ → List β}
    (h : m.Lawful valid held) :
    m.take.Lawful (fun s => valid s.1) (fun s => (held s.1).take s.2) where
  remaining_eq {s} hs := by
    simp only [Reader.take, h.remaining_eq hs, List.length_take, Nat.min_comm s.2]
    rfl
  hasRemaining_iff {s} hs := by
    rw [Reader.take, Bool.and_eq_true, h.hasRemaining_iff hs, decide_eq_true_iff, ne_eq,
      ne_eq, List.take_eq_nil_iff, not_or, Nat.pos_iff_ne_zero, and_comm]
  chunk_prefix {s} hs := by
    obtain ⟨rest, hrest⟩ := h.chunk_prefix hs
    rw [Reader.take, ← hrest, List.take_append]
    exact List.prefix_append _ _
  chunk_ne_nil {s} hs hne := by
    rw [ne_eq, List.take_eq_nil_iff, not_or] at hne
    rw [Reader.take, ne_eq, List.take_eq_nil_iff, not_or]
    exact ⟨hne.1, h.chunk_ne_nil hs hne.2⟩
  advance_ok {s n} hs hn := by
    rw [List.length_take] at hn
    obtain ⟨s', hadvance, hs', hheld⟩ := h.advance_ok hs (n := n) (by omega)
    refine ⟨(s', s.2 - n), ?_, hs', ?_⟩
    · have hle : n ≤ s.2 := by omega
      simp only [Reader.take, hle, ↓reduceIte, hadvance]
      rfl
    · rw [hheld, List.drop_take]

/-- A reader that is read through `take` also knows its own place: what it
holds is `all`, less the units that were read. -/
theorem Lawful.takeFrom {m : Reader σ β} {valid : σ → Prop} {held : σ → List β}
    (h : m.Lawful valid held) (all : List β) (len : ℕ) :
    m.take.Lawful
      (fun s => valid s.1 ∧ s.2 ≤ len ∧ held s.1 = all.drop (len - s.2))
      (fun s => (held s.1).take s.2) where
  remaining_eq hs := h.take.remaining_eq hs.1
  hasRemaining_iff hs := h.take.hasRemaining_iff hs.1
  chunk_prefix hs := h.take.chunk_prefix hs.1
  chunk_ne_nil hs hne := h.take.chunk_ne_nil hs.1 hne
  advance_ok {s n} hs hn := by
    obtain ⟨hvalid, hle, hplace⟩ := hs
    rw [List.length_take] at hn
    obtain ⟨s', hadvance, hs', hheld⟩ := h.advance_ok hvalid (n := n) (by omega)
    have hlimit : n ≤ s.2 := by omega
    refine ⟨(s', s.2 - n), ?_, ⟨hs', by omega, ?_⟩, ?_⟩
    · simp only [Reader.take, hlimit, ↓reduceIte, hadvance]
      rfl
    · have hread : len - s.2 + n = len - (s.2 - n) := by omega
      rw [hheld, hplace, List.drop_drop, hread]
    · rw [hheld, List.drop_take]

/-- Once nothing is left to take, exactly `len` units were read. -/
theorem drop_of_taken {all rest : List β} {len limit : ℕ} (hle : limit ≤ len)
    (hlen : len ≤ all.length) (hplace : rest = all.drop (len - limit))
    (hdone : rest.take limit = []) : rest = all.drop len := by
  by_cases hzero : limit = 0
  · rw [hplace, hzero, Nat.sub_zero]
  · have hnil : rest = [] := by
      rcases List.take_eq_nil_iff.mp hdone with hlimit | hnil
      · exact (hzero hlimit).elim
      · exact hnil
    have hlength : (all.drop (len - limit)).length = 0 := by
      rw [← hplace, hnil, List.length_nil]
    rw [List.length_drop] at hlength
    omega

end Reader

end HttpBody.Support
