import HttpBody.Util.BufList

/-!
# Copying out of a buffer list

Copying a number of bytes agrees with reading them chunk by chunk, whichever
path it takes.  The path is chosen before anything is changed; choosing it may
count all bytes, and that number need not fit a `usize`.  Bytes that are gathered
from several buffers are written into a new one, which must fit an allocation.
-/

namespace HttpBody

open Support

namespace BufList

/-- The ways in which `copy_to_bytes` goes about it. -/
inductive CopyPath (T : Type) where
  | whole (front : T) (bufs : List T)
  | part (front : T) (bufs : List T)
  | all
  | taken

section

variable {T : Type} [Buf T] [BytesMut]

omit [BytesMut] in
/-- Choosing a path between the two that gather. -/
def chooseGather (ar : Arith) (self : BufList T) (len : ℕ) : Except Stop (CopyPath T) := do
  let rem ← self.remaining ar
  if len ≤ rem then
    if rem = len then return .all else return .taken
  else
    .error (.assertFailed "`len` greater than remaining")

omit [BytesMut] in
/-- Choosing a path reads lengths and changes nothing. -/
def choosePath (ar : Arith) (self : BufList T) (len : ℕ) : Except Stop (CopyPath T) :=
  match self.bufs with
  | front :: bufs =>
      if Buf.remaining front = len then .ok (.whole front bufs)
      else if len < Buf.remaining front then .ok (.part front bufs)
      else self.chooseGather ar len
  | [] => self.chooseGather ar len

/-- Copying along a path that was chosen. -/
def followPath (ar : Arith) (self : BufList T) (len : ℕ) :
    CopyPath T → Except Stop (List UInt8 × BufList T)
  | .whole front bufs => do
      let (bytes, _) ← Buf.copyToBytes front len
      return (bytes, ⟨bufs⟩)
  | .part front bufs => do
      let (bytes, front) ← Buf.copyToBytes front len
      return (bytes, ⟨front :: bufs⟩)
  | .all => do
      let bm ← BytesMut.withCapacity len
      let (bm, self) ← BytesMut.put (reader ar) self bm
      return (BytesMut.freeze bm, self)
  | .taken => do
      let bm ← BytesMut.withCapacity len
      let (bm, src) ← BytesMut.put (reader ar).take (self, len) bm
      return (BytesMut.freeze bm, src.1)

theorem gather_eq (ar : Arith) (self : BufList T) (len : ℕ) :
    self.gather ar len = self.chooseGather ar len >>= self.followPath ar len := by
  rw [gather, chooseGather]
  rcases self.remaining ar with stop | rem
  · rfl
  · change (if len ≤ rem then _ else _) = ((if len ≤ rem then _ else _) >>= _)
    by_cases hlen : len ≤ rem
    · rw [if_pos hlen, if_pos hlen]
      by_cases hall : rem = len
      · simp only [hall, if_true]
        rfl
      · simp only [hall, if_false]
        rfl
    · rw [if_neg hlen, if_neg hlen]
      rfl

/-- Copying first chooses a path and then follows it. -/
theorem copyToBytes_eq (ar : Arith) (self : BufList T) (len : ℕ) :
    self.copyToBytes ar len = self.choosePath ar len >>= self.followPath ar len := by
  rcases self with ⟨_ | ⟨front, bufs⟩⟩
  · exact gather_eq ar _ len
  · by_cases hall : Buf.remaining front = len
    · simp only [copyToBytes, choosePath, hall, if_true]
      rfl
    · by_cases hpart : len < Buf.remaining front
      · simp only [copyToBytes, choosePath, hall, hpart, if_true, if_false]
        rfl
      · simp only [copyToBytes, choosePath, hall, hpart, if_false]
        exact gather_eq ar _ len

variable [LawfulBuf T]

/-- Copying `len` bytes gives the first bytes and leaves the others, and so do
reading them chunk by chunk, and advancing past them.  If there are fewer, it
panics while it chooses its path. -/
structure CopiesPlainly (ar : Arith) (b : BufList T) (len : ℕ) : Prop where
  copy : len ≤ b.held.length → ∃ rest,
    b.copyToBytes ar len = .ok (b.held.take len, rest) ∧ rest.NonEmpty ∧
      rest.held = b.held.drop len
  read : len ≤ b.held.length → ∃ rest,
    (reader .exact).take.drain (len + 1) (b, len) = .ok (b.held.take len, rest) ∧
      rest.1.held = b.held.drop len
  advance : len ≤ b.held.length → ∃ rest,
    b.advance len = .ok rest ∧ rest.NonEmpty ∧ rest.held = b.held.drop len
  short : b.held.length < len →
    b.choosePath ar len = .error (.assertFailed "`len` greater than remaining") ∧
      b.copyToBytes ar len = .error (.assertFailed "`len` greater than remaining")

omit [BytesMut] in
theorem read_ok {self : BufList T} {len : ℕ} (h : self.NonEmpty) (hlen : len ≤ self.held.length) :
    ∃ rest, (reader .exact).take.drain (len + 1) (self, len) =
      .ok (self.held.take len, rest) ∧ rest.1.held = self.held.drop len := by
  have hplace : self.held = self.held.drop (len - len) := by
    rw [Nat.sub_self, List.drop_zero]
  have hfuel : (self.held.take len).length < len + 1 := by
    rw [List.length_take]
    exact Nat.lt_succ_of_le (Nat.min_le_left _ _)
  have hlawful := (reader_exact_lawful (T := T)).takeFrom self.held len
  obtain ⟨rest, hdrain, ⟨-, hle, hrest⟩, hdone⟩ :=
    hlawful.drain (s := (self, len)) ⟨h, Nat.le_refl len, hplace⟩ hfuel
  exact ⟨rest, hdrain, Reader.drop_of_taken hle hlen hrest hdone⟩

omit [BytesMut] in
theorem choosePath_short (ar : Arith) {self : BufList T} {len : ℕ}
    (hfits : self.held.length < wordSize) (hlen : self.held.length < len) :
    self.choosePath ar len = .error (.assertFailed "`len` greater than remaining") := by
  have hgather : self.chooseGather ar len =
      .error (.assertFailed "`len` greater than remaining") := by
    rw [chooseGather, remaining_ok ar hfits]
    exact if_neg (Nat.not_le.mpr hlen)
  rcases self with ⟨_ | ⟨front, bufs⟩⟩
  · exact hgather
  · have hrem := LawfulBuf.remaining_eq front
    rw [held_cons, List.length_append] at hlen
    have hall : ¬ Buf.remaining front = len := by omega
    have hpart : ¬ len < Buf.remaining front := by omega
    simp only [choosePath, hall, hpart, if_false]
    exact hgather

/-- Too many bytes to count are a panic, unless the front buffer has enough. -/
theorem copyToBytes_overflow {self : BufList T} {len : ℕ} (hfits : wordSize ≤ self.held.length)
    (hfront : ∀ front ∈ self.bufs.head?, Buf.remaining front < len) :
    self.copyToBytes .checked len = .error .overflow := by
  rw [copyToBytes_eq_gather .checked hfront, gather, remaining_overflow hfits]
  rfl

variable [LawfulBytesMut]

/-- Copying out of non-empty buffers agrees with reading, with and without
overflow checks, exactly when the front buffer has enough bytes, or the number of
all bytes fits a `usize` and those that are copied, if there are so many, fit one
allocation. -/
theorem copiesPlainly_iff {self : BufList T} {len : ℕ} (hne : self.NonEmpty)
    (hlen : len < wordSize) :
    (∀ ar, CopiesPlainly ar self len) ↔
      (∃ front ∈ self.bufs.head?, len ≤ Buf.remaining front) ∨
        self.held.length < wordSize ∧ (len ≤ isizeMax ∨ self.held.length < len) := by
  constructor
  · intro h
    by_cases hfront : ∃ front ∈ self.bufs.head?, len ≤ Buf.remaining front
    · exact .inl hfront
    · have hshort : ∀ front ∈ self.bufs.head?, Buf.remaining front < len := by
        intro front hmem
        exact Nat.lt_of_not_le fun hle => hfront ⟨front, hmem, hle⟩
      have hcount : self.held.length < wordSize := by
        by_contra hbig
        have hfits : wordSize ≤ self.held.length := Nat.le_of_not_lt hbig
        obtain ⟨rest, hcopy, -⟩ := (h .checked).copy (Nat.le_trans (Nat.le_of_lt hlen) hfits)
        cases hcopy.symm.trans (copyToBytes_overflow hfits hshort)
      refine .inr ⟨hcount, ?_⟩
      by_contra hover
      rw [not_or, Nat.not_le, Nat.not_lt] at hover
      obtain ⟨hcapacity, hle⟩ := hover
      obtain ⟨rest, hcopy, -⟩ := (h .checked).copy hle
      rw [copyToBytes_eq_gather .checked hshort] at hcopy
      cases hcopy.symm.trans (gather_overflow .checked hcount hle hcapacity)
  · intro hfits ar
    constructor
    · intro hle
      refine copyToBytes_ok ar hne hle (hfits.imp_right fun hboth => ⟨hboth.1, ?_⟩)
      exact hboth.2.resolve_right (Nat.not_lt.mpr hle)
    · exact read_ok hne
    · exact advance_ok hne
    · intro hover
      have hsmall : self.held.length < wordSize := Nat.lt_trans hover hlen
      have hpath := choosePath_short ar hsmall hover
      refine ⟨hpath, ?_⟩
      rw [copyToBytes_eq, hpath]
      rfl

end

/-- Two bytes in two chunks. -/
theorem copiesPlainly_iff_chunks :
    CopiesPlainly .checked (⟨[⟨[1], by decide⟩, ⟨[2], by decide⟩]⟩ : BufList Bytes) 2 ∧
      CopiesPlainly .wrapping (⟨[⟨[1], by decide⟩, ⟨[2], by decide⟩]⟩ : BufList Bytes) 2 := by
  have hne : NonEmpty (⟨[⟨[1], by decide⟩, ⟨[2], by decide⟩]⟩ : BufList Bytes) := by
    decide
  have hfits : (held (⟨[⟨[1], by decide⟩, ⟨[2], by decide⟩]⟩ : BufList Bytes)).length <
      wordSize := by decide
  have hlen : 2 < wordSize := by decide
  have hcapacity : 2 ≤ isizeMax := by decide
  have hcopies := (copiesPlainly_iff hne hlen).mpr (.inr ⟨hfits, .inl hcapacity⟩)
  exact ⟨hcopies .checked, hcopies .wrapping⟩

/-- One byte, and then more bytes than a `usize` can count. -/
def endless : BufList Zeros :=
  ⟨[⟨1, by decide⟩, .half, .half]⟩

theorem length_held_endless : endless.held.length = 1 + wordSize := by
  rw [endless, held_cons, held_cons, held_cons, held_nil, List.append_nil, List.length_append,
    List.length_append, ← LawfulBuf.remaining_eq, ← LawfulBuf.remaining_eq]
  rfl

/-- Two bytes cannot be copied out of them, in either build, although there are
enough to advance past. -/
theorem not_copiesPlainly_endless :
    endless.NonEmpty ∧ ¬ CopiesPlainly .checked endless 2 ∧
      ¬ CopiesPlainly .wrapping endless 2 := by
  have hle : 2 ≤ endless.held.length := by
    rw [length_held_endless]
    decide
  have hne : endless.NonEmpty := by
    decide
  refine ⟨hne, ?_, ?_⟩
  · intro h
    obtain ⟨rest, hcopy, -⟩ := h.copy hle
    have hfits : wordSize ≤ endless.held.length := by
      rw [length_held_endless]
      decide
    have hstop : endless.copyToBytes .checked 2 = .error .overflow := by
      apply copyToBytes_overflow hfits
      intro front hfront
      cases hfront
      decide
    cases hstop.symm.trans hcopy
  · intro h
    obtain ⟨rest, hcopy, -⟩ := h.copy hle
    have hrem : endless.remaining .wrapping = .ok 1 := rfl
    have hstop : endless.copyToBytes .wrapping 2 =
        .error (.assertFailed "`len` greater than remaining") := by
      change endless.gather .wrapping 2 = _
      rw [gather, hrem]
      rfl
    cases hstop.symm.trans hcopy

end BufList

end HttpBody
