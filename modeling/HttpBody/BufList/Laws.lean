import HttpBody.Core.HeaderTable
import HttpBody.Util.Collected
import Mathlib.Logic.Relation

/-!
# The laws of a buffer list

`chunk` looks at the front buffer only, but `has_remaining` at all of them.  A
buffer list obeys the laws of `Buf` because no buffer in it is ever empty, which
every operation on the buffers of a collected body keeps.
-/

namespace HttpBody

open Support

namespace BufList

section

variable [Foreign] {T : Type} [Buf T] [LawfulBuf T] [BytesMut]

/-- The operations on the buffers of a collected body.  Frames are pushed as
long as the lengths fit a `usize`; reading goes no further than `remaining`. -/
inductive Step (ar : Arith) : BufList T → BufList T → Prop where
  | pushFrame {self : BufList T} {trailers : Option HeaderMap} {frame : Frame T}
      {collected : Collected T} :
      Collected.pushFrame ⟨self, trailers⟩ frame = .ok collected →
      collected.bufs.held.length < wordSize → Step ar self collected.bufs
  | pop {self : BufList T} : Step ar self self.pop.2
  | advance {self rest : BufList T} {rem cnt : ℕ} : self.remaining ar = .ok rem → cnt ≤ rem →
      self.advance cnt = .ok rest → Step ar self rest
  | copyToBytes {self rest : BufList T} {rem len : ℕ} {bytes : List UInt8} :
      self.remaining ar = .ok rem → len ≤ rem →
      self.copyToBytes ar len = .ok (bytes, rest) → Step ar self rest

/-- The laws of `Buf`, and what the loop that drains the buffers does. -/
structure Laws (ar : Arith) (b : BufList T) : Prop where
  nonEmpty : b.NonEmpty
  remaining : b.remaining ar = .ok b.held.length
  hasRemaining : b.hasRemaining = true ↔ ∃ rem, b.remaining ar = .ok rem ∧ 0 < rem
  chunk_eq_nil : b.chunk = [] ↔ b.remaining ar = .ok 0
  chunk_prefix : b.chunk <+: b.held
  advance : ∀ cnt, cnt ≤ b.held.length →
    ∃ rest, b.advance cnt = .ok rest ∧ rest.held = b.held.drop cnt
  copyToBytes : ∀ len, len ≤ b.held.length →
    (∃ front ∈ b.bufs.head?, len ≤ Buf.remaining front) ∨ len ≤ isizeMax → ∃ rest,
      b.copyToBytes ar len = .ok (b.held.take len, rest) ∧ rest.held = b.held.drop len
  drain : ∀ fuel, b.held.length < fuel →
    ∃ rest, (reader ar).drain fuel b = .ok (b.held, rest) ∧ rest.held = []

variable [LawfulBytesMut] {ar : Arith} {self rest : BufList T}

omit [Foreign] in
theorem Valid.laws (h : self.Valid) : Laws ar self := by
  have hne : self.NonEmpty := h.nonempty
  have hrem := remaining_ok ar h.fits
  have hlength : self.remaining ar = .ok 0 ↔ self.held = [] := by
    rw [hrem, Except.ok.injEq, List.length_eq_zero_iff]
  constructor
  · exact hne
  · exact hrem
  · rw [hasRemaining_iff hne, hrem]
    constructor
    · intro hheld
      exact ⟨_, rfl, List.length_pos_iff.mpr hheld⟩
    · intro hex
      obtain ⟨rem, hrem', hpos⟩ := hex
      cases hrem'
      exact List.length_pos_iff.mp hpos
  · rw [hlength]
    constructor
    · intro hchunk
      by_contra hheld
      exact chunk_ne_nil hne hheld hchunk
    · intro hheld
      have hprefix := chunk_prefix self
      rw [hheld] at hprefix
      exact List.prefix_nil.mp hprefix
  · exact chunk_prefix self
  · intro cnt hcnt
    obtain ⟨rest, hadvance, -, hrest⟩ := advance_ok hne hcnt
    exact ⟨rest, hadvance, hrest⟩
  · intro len hlen hcapacity
    obtain ⟨rest, hcopy, -, hrest⟩ :=
      copyToBytes_ok ar hne hlen (hcapacity.imp_right fun hle => ⟨h.fits, hle⟩)
    exact ⟨rest, hcopy, hrest⟩
  · intro fuel hfuel
    obtain ⟨rest, hdrain, -, hrest⟩ := (reader_lawful ar).drain h hfuel
    exact ⟨rest, hdrain, hrest⟩

omit [LawfulBuf T] [BytesMut] [LawfulBytesMut] in
/-- Only data that is not empty is pushed. -/
theorem NonEmpty.pushFrame {trailers : Option HeaderMap} {frame : Frame T}
    {collected : Collected T} (h : self.NonEmpty)
    (hpush : Collected.pushFrame ⟨self, trailers⟩ frame = .ok collected) :
    collected.bufs.NonEmpty := by
  rcases frame with data | map
  · by_cases hdata : Buf.hasRemaining data = true
    · simp only [Collected.pushFrame, Frame.intoData, BufList.push, hdata, if_true] at hpush
      cases hpush
      intro buf hbuf
      rcases List.mem_append.mp hbuf with hbuf | hbuf
      · exact h buf hbuf
      · obtain rfl := List.mem_singleton.mp hbuf
        exact hdata
    · simp only [Collected.pushFrame, Frame.intoData, hdata, Bool.false_eq_true, if_false] at hpush
      cases hpush
      exact h
  · rcases trailers with _ | current
    · cases hpush
      exact h
    · cases hpush
      exact h

omit [Foreign] [BytesMut] [LawfulBytesMut] in
theorem Valid.pop (h : self.Valid) : self.pop.2.Valid := by
  rcases self with ⟨_ | ⟨front, bufs⟩⟩
  · exact h
  · have hfits := h.fits
    constructor
    · intro buf hbuf
      exact h.nonempty buf (List.mem_cons_of_mem _ hbuf)
    · rw [held_cons, List.length_append] at hfits
      exact Nat.lt_of_le_of_lt (Nat.le_add_left _ _) hfits

theorem Valid.step (h : self.Valid) (hstep : Step ar self rest) : rest.Valid := by
  have hlaws : Laws ar self := h.laws
  have hdrop : ∀ {rest : BufList T} {cnt : ℕ}, rest.NonEmpty →
      rest.held = self.held.drop cnt → rest.Valid := by
    intro rest cnt hne hheld
    refine ⟨hne, Nat.lt_of_le_of_lt ?_ h.fits⟩
    rw [hheld, List.length_drop]
    exact Nat.sub_le _ _
  cases hstep with
  | pushFrame hpush hfits => exact ⟨NonEmpty.pushFrame hlaws.nonEmpty hpush, hfits⟩
  | pop => exact h.pop
  | advance hrem hcnt hadvance =>
      cases hlaws.remaining.symm.trans hrem
      obtain ⟨rest', hadvance', hne, hheld⟩ := advance_ok hlaws.nonEmpty hcnt
      cases hadvance.symm.trans hadvance'
      exact hdrop hne hheld
  | copyToBytes hrem hlen hcopy =>
      cases hlaws.remaining.symm.trans hrem
      rcases copyToBytes_cases ar hlaws.nonEmpty h.fits hlen with
        ⟨rest', hcopy', hne, hheld⟩ | hstop
      · cases hcopy.symm.trans hcopy'
        exact hdrop hne hheld
      · cases hcopy.symm.trans hstop

/-- Whatever frames are pushed, and however the buffers are popped and read in
between, the laws hold. -/
theorem laws_of_reachable (h : Relation.ReflTransGen (Step ar) .empty self) : Laws ar self := by
  have hvalid : self.Valid := by
    induction h with
    | refl =>
        have hpos : 0 < wordSize := by decide
        exact ⟨nonEmpty_nil, hpos⟩
    | tail _ hstep ih => exact ih.step hstep
  exact hvalid.laws

end

/-- Chunks are pushed, one of them empty; copying two bytes and advancing past two more
each cross the boundary of a buffer. -/
theorem laws_of_reachable_chunks : Laws .checked (⟨[⟨[5], by decide⟩]⟩ : BufList Bytes) := by
  have hpush : ∀ (bufs : List Bytes) (data : Bytes),
      (held ⟨bufs ++ [data].filter Buf.hasRemaining⟩).length < wordSize →
      Step .checked ⟨bufs⟩ ⟨bufs ++ [data].filter Buf.hasRemaining⟩ := by
    intro bufs data hfits
    exact .pushFrame (Collected.pushFrame_data ⟨⟨bufs⟩, none⟩ data) hfits
  have hone := hpush [] ⟨[1], by decide⟩ (by decide)
  have htwo := hpush [⟨[1], by decide⟩] ⟨[2, 3], by decide⟩ (by decide)
  have hempty := hpush [⟨[1], by decide⟩, ⟨[2, 3], by decide⟩] ⟨[], by decide⟩ (by decide)
  have hlast := hpush [⟨[1], by decide⟩, ⟨[2, 3], by decide⟩] ⟨[4, 5], by decide⟩ (by decide)
  have hcopies : copyToBytes .checked
      (⟨[⟨[1], by decide⟩, ⟨[2, 3], by decide⟩, ⟨[4, 5], by decide⟩]⟩ : BufList Bytes) 2 =
        .ok ([1, 2], ⟨[⟨[3], by decide⟩, ⟨[4, 5], by decide⟩]⟩) := rfl
  have hadvances : advance (⟨[⟨[3], by decide⟩, ⟨[4, 5], by decide⟩]⟩ : BufList Bytes) 2 =
      .ok ⟨[⟨[5], by decide⟩]⟩ := rfl
  have hcopied : Step .checked _ _ := .copyToBytes rfl (by decide) hcopies
  have hadvanced : Step .checked _ _ := .advance rfl (by decide) hadvances
  have hpushed := (((Relation.ReflTransGen.single hone).tail htwo).tail hempty).tail hlast
  exact laws_of_reachable ((hpushed.tail hcopied).tail hadvanced)

end BufList

end HttpBody
