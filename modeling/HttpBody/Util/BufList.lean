import HttpBody.Core.Buf

/-!
# Buffer lists

`BufList` holds the data frames of a collected body.  It is itself a buffer: as
long as all its buffers are non-empty and their lengths fit a `usize`, it reads
as the bytes of its buffers in order.
-/

namespace HttpBody

open Support

structure BufList (T : Type) where
  bufs : List T

namespace BufList

variable {T : Type} [Buf T]

/-- `Default::default`. -/
def empty : BufList T := ⟨[]⟩

/-- The assertion is a `debug_assert!`. -/
def push (self : BufList T) (buf : T) : Except Stop (BufList T) :=
  if Buf.hasRemaining buf then .ok ⟨self.bufs ++ [buf]⟩
  else .error (.assertFailed "assertion failed: buf.has_remaining()")

def pop (self : BufList T) : Option T × BufList T :=
  (self.bufs.head?, ⟨self.bufs.tail⟩)

/-- The sum is one of `usize` values. -/
def remaining (ar : Arith) (self : BufList T) : Except Stop ℕ :=
  self.bufs.foldlM (fun sum buf => ar.add sum (Buf.remaining buf)) 0

def hasRemaining (self : BufList T) : Bool :=
  self.bufs.any Buf.hasRemaining

def chunk (self : BufList T) : List UInt8 :=
  match self.bufs with
  | front :: _ => Buf.chunk front
  | [] => []

/-- The loop of `advance`, on the buffers that are left. -/
def advanceLoop : List T → ℕ → Except Stop (List T)
  | bufs, 0 => .ok bufs
  | [], _ + 1 => .error .indexOutOfBounds
  | front :: bufs, cnt + 1 =>
      let rem := Buf.remaining front
      if cnt + 1 < rem then do
        let front ← Buf.advance front (cnt + 1)
        return front :: bufs
      else do
        let _ ← Buf.advance front rem
        advanceLoop bufs (cnt + 1 - rem)

def advance (self : BufList T) (cnt : ℕ) : Except Stop (BufList T) := do
  let bufs ← advanceLoop self.bufs cnt
  return ⟨bufs⟩

/-- The loop of `chunks_vectored`, over the slices that are filled already. -/
def vectoredLoop (dst : ℕ) : List T → List (List UInt8) → Except Stop (List (List UInt8))
  | [], vecs => .ok vecs
  | buf :: bufs, vecs =>
      if vecs.length ≤ dst then
        let vecs := vecs ++ Buf.chunksVectored buf (dst - vecs.length)
        if vecs.length = dst then .ok vecs else vectoredLoop dst bufs vecs
      else .error .indexOutOfBounds

/-- The slices that are filled, of `dst` many. -/
def chunksVectored (self : BufList T) (dst : ℕ) : Except Stop (List (List UInt8)) :=
  if dst = 0 then .ok [] else vectoredLoop dst self.bufs []

/-- The methods with which other code reads a buffer list. -/
def reader (ar : Arith) : Reader (BufList T) UInt8 where
  remaining := remaining ar
  hasRemaining := hasRemaining
  chunk := chunk
  advance := advance

/-- The third arm of `copy_to_bytes`: the bytes lie in several buffers. -/
def gather [BytesMut] (ar : Arith) (self : BufList T) (len : ℕ) :
    Except Stop (List UInt8 × BufList T) := do
  let rem ← self.remaining ar
  if len ≤ rem then do
    let bm ← BytesMut.withCapacity len
    if rem = len then do
      let (bm, self) ← BytesMut.put (reader ar) self bm
      return (BytesMut.freeze bm, self)
    else do
      let (bm, src) ← BytesMut.put (reader ar).take (self, len) bm
      return (BytesMut.freeze bm, src.1)
  else
    .error (.assertFailed "`len` greater than remaining")

def copyToBytes [BytesMut] (ar : Arith) (self : BufList T) (len : ℕ) :
    Except Stop (List UInt8 × BufList T) :=
  match self.bufs with
  | front :: bufs =>
      if Buf.remaining front = len then do
        let (bytes, _) ← Buf.copyToBytes front len
        return (bytes, ⟨bufs⟩)
      else if len < Buf.remaining front then do
        let (bytes, front) ← Buf.copyToBytes front len
        return (bytes, ⟨front :: bufs⟩)
      else self.gather ar len
  | [] => self.gather ar len

/-- No buffer is empty. -/
def NonEmpty (self : BufList T) : Prop :=
  ∀ buf ∈ self.bufs, Buf.hasRemaining buf = true

instance (self : BufList T) : Decidable self.NonEmpty :=
  inferInstanceAs (Decidable (∀ buf ∈ self.bufs, Buf.hasRemaining buf = true))

@[simp] theorem nonEmpty_nil : NonEmpty (⟨[]⟩ : BufList T) := by
  simp [NonEmpty]

@[simp] theorem nonEmpty_cons {front : T} {bufs : List T} :
    NonEmpty ⟨front :: bufs⟩ ↔ Buf.hasRemaining front = true ∧ NonEmpty ⟨bufs⟩ := by
  simp [NonEmpty]

/-! ## A buffer list reads as its bytes -/

variable [LawfulBuf T]

/-- The bytes that a buffer list holds. -/
def held (self : BufList T) : List UInt8 :=
  self.bufs.flatMap LawfulBuf.bytes

/-- All buffers are non-empty, and their lengths fit a `usize`. -/
structure Valid (b : BufList T) : Prop where
  nonempty : ∀ buf ∈ b.bufs, Buf.hasRemaining buf = true
  fits : b.held.length < wordSize

@[simp] theorem held_cons (front : T) (bufs : List T) :
    held ⟨front :: bufs⟩ = LawfulBuf.bytes front ++ held ⟨bufs⟩ := rfl

@[simp] theorem held_nil : held (⟨[]⟩ : BufList T) = [] := rfl

theorem NonEmpty.front_ne_nil {front : T} {bufs : List T} (h : NonEmpty ⟨front :: bufs⟩) :
    LawfulBuf.bytes front ≠ [] :=
  (LawfulBuf.hasRemaining_iff front).mp (nonEmpty_cons.mp h).1

theorem NonEmpty.held_eq_nil {self : BufList T} (h : self.NonEmpty) :
    self.held = [] ↔ self.bufs = [] := by
  rcases self with ⟨_ | ⟨front, bufs⟩⟩
  · simp
  · simp [h.front_ne_nil]

/-! ### The number of bytes -/

/-- The number of bytes becomes a machine word. -/
theorem remaining_eq (ar : Arith) (self : BufList T) :
    self.remaining ar = ar.word self.held.length := by
  have hpos : 0 < wordSize := by decide
  have hlength : (self.bufs.map Buf.remaining).sum = self.held.length := by
    rw [held, List.length_flatMap]
    exact congrArg List.sum (List.map_congr_left fun buf _ => LawfulBuf.remaining_eq buf)
  have hsum := ar.foldlM_add (self.bufs.map Buf.remaining) 0 fun _ => hpos
  rw [List.foldlM_map, Nat.zero_add, hlength] at hsum
  exact hsum

theorem remaining_ok (ar : Arith) {self : BufList T} (h : self.held.length < wordSize) :
    self.remaining ar = .ok self.held.length := by
  rw [remaining_eq]
  exact ar.word_of_lt h

/-- Over the integers the number of bytes is never lost. -/
theorem remaining_exact (self : BufList T) : self.remaining .exact = .ok self.held.length :=
  remaining_eq .exact self

/-- With overflow checks, more bytes than a `usize` can count are a panic. -/
theorem remaining_overflow {self : BufList T} (h : wordSize ≤ self.held.length) :
    self.remaining .checked = .error .overflow := by
  rw [remaining_eq]
  exact if_neg (Nat.not_lt.mpr h)

/-- A single buffer has all bytes. -/
theorem exists_front {self : BufList T} (hone : self.bufs.length ≤ 1) (hne : self.held ≠ []) :
    ∃ front ∈ self.bufs.head?, self.held.length = Buf.remaining front := by
  rcases self with ⟨_ | ⟨front, _ | ⟨buf, bufs⟩⟩⟩
  · exact (hne rfl).elim
  · refine ⟨front, rfl, ?_⟩
    rw [held_cons, held_nil, List.append_nil, LawfulBuf.remaining_eq]
  · simp at hone

/-- One of several buffers does not have all bytes. -/
theorem NonEmpty.front_lt {self : BufList T} (h : self.NonEmpty) (hmany : 1 < self.bufs.length) :
    ∀ front ∈ self.bufs.head?, Buf.remaining front < self.held.length := by
  rcases self with ⟨_ | ⟨front, _ | ⟨buf, bufs⟩⟩⟩
  · simp at hmany
  · simp at hmany
  · intro front' hfront
    cases hfront
    have hrest : NonEmpty ⟨buf :: bufs⟩ := (nonEmpty_cons.mp h).2
    have hpos : 0 < (LawfulBuf.bytes buf).length := List.length_pos_iff.mpr hrest.front_ne_nil
    rw [LawfulBuf.remaining_eq, held_cons, held_cons, List.length_append, List.length_append]
    omega

/-! ### Advancing -/

theorem advanceLoop_ok {bufs : List T} {cnt : ℕ} (h : NonEmpty ⟨bufs⟩)
    (hcnt : cnt ≤ (held ⟨bufs⟩).length) :
    ∃ rest, advanceLoop bufs cnt = .ok rest ∧ NonEmpty ⟨rest⟩ ∧
      held ⟨rest⟩ = (held ⟨bufs⟩).drop cnt := by
  induction bufs generalizing cnt with
  | nil =>
      obtain rfl : cnt = 0 := by simpa using hcnt
      exact ⟨[], rfl, h, rfl⟩
  | cons front bufs ih =>
      cases cnt with
      | zero => exact ⟨front :: bufs, rfl, h, rfl⟩
      | succ cnt =>
          have hrem := LawfulBuf.remaining_eq front
          rw [held_cons, List.length_append] at hcnt
          by_cases hlt : cnt + 1 < Buf.remaining front
          · obtain ⟨front', hadvance, hbytes⟩ :=
              LawfulBuf.advance_ok front (cnt + 1) (by omega)
            have hfront : Buf.hasRemaining front' = true := by
              rw [LawfulBuf.hasRemaining_iff, hbytes, ne_eq, List.drop_eq_nil_iff]
              omega
            refine ⟨front' :: bufs, ?_, nonEmpty_cons.mpr ⟨hfront, (nonEmpty_cons.mp h).2⟩, ?_⟩
            · simp only [advanceLoop, hlt, ↓reduceIte, hadvance]
              rfl
            · rw [held_cons, held_cons, hbytes, List.drop_append_of_le_length (by omega)]
          · obtain ⟨front', hadvance, -⟩ :=
              LawfulBuf.advance_ok front (Buf.remaining front) (by omega)
            have hleft : cnt + 1 - Buf.remaining front ≤ (held ⟨bufs⟩).length := by
              omega
            obtain ⟨rest, hloop, hrest, hheld⟩ := ih (nonEmpty_cons.mp h).2 hleft
            refine ⟨rest, ?_, hrest, ?_⟩
            · simp only [advanceLoop, hlt, ↓reduceIte, hadvance]
              exact hloop
            · have hpast : (LawfulBuf.bytes front).length ≤ cnt + 1 := by
                omega
              rw [hheld, held_cons, hrem, List.drop_append, List.drop_eq_nil_of_le hpast,
                List.nil_append]

theorem advance_ok {self : BufList T} {cnt : ℕ} (h : self.NonEmpty)
    (hcnt : cnt ≤ self.held.length) :
    ∃ rest, self.advance cnt = .ok rest ∧ rest.NonEmpty ∧ rest.held = self.held.drop cnt := by
  obtain ⟨rest, hloop, hrest, hheld⟩ := advanceLoop_ok h hcnt
  refine ⟨⟨rest⟩, ?_, hrest, hheld⟩
  simp only [advance, hloop]
  rfl

/-! ### Reading -/

theorem hasRemaining_iff {self : BufList T} (h : self.NonEmpty) :
    self.hasRemaining = true ↔ self.held ≠ [] := by
  change self.bufs.any Buf.hasRemaining = true ↔ _
  rw [ne_eq, h.held_eq_nil, List.any_eq_true]
  constructor
  · rintro ⟨buf, hbuf, -⟩ hnil
    simp [hnil] at hbuf
  · intro hne
    obtain ⟨front, bufs, hbufs⟩ := List.exists_cons_of_ne_nil hne
    exact ⟨front, by simp [hbufs], h front (by simp [hbufs])⟩

theorem chunk_prefix (self : BufList T) : self.chunk <+: self.held := by
  rcases self with ⟨_ | ⟨front, bufs⟩⟩
  · exact List.prefix_refl []
  · exact (LawfulBuf.chunk_prefix front).trans (List.prefix_append _ _)

theorem chunk_ne_nil {self : BufList T} (h : self.NonEmpty) (hne : self.held ≠ []) :
    self.chunk ≠ [] := by
  rcases self with ⟨_ | ⟨front, bufs⟩⟩
  · exact (hne rfl).elim
  · exact fun hnil => h.front_ne_nil (LawfulBuf.chunk_eq_nil front hnil)

/-- A buffer list without empty buffers is a lawful reader of its bytes, as long
as the number of its bytes is right. -/
theorem reader_lawful_of {ar : Arith} {valid : BufList T → Prop}
    (hne : ∀ {self}, valid self → self.NonEmpty)
    (hrem : ∀ {self}, valid self → self.remaining ar = .ok self.held.length)
    (hkeep : ∀ {self rest : BufList T}, valid self → rest.NonEmpty →
      rest.held.length ≤ self.held.length → valid rest) :
    (reader ar : Reader (BufList T) UInt8).Lawful valid held where
  remaining_eq h := hrem h
  hasRemaining_iff h := hasRemaining_iff (hne h)
  chunk_prefix {self} _ := chunk_prefix self
  chunk_ne_nil h := chunk_ne_nil (hne h)
  advance_ok {self n} h hn := by
    obtain ⟨rest, hadvance, hrest, hheld⟩ := advance_ok (hne h) hn
    have hlength : rest.held.length ≤ self.held.length := by
      rw [hheld, List.length_drop]
      omega
    exact ⟨rest, hadvance, hkeep h hrest hlength, hheld⟩

/-- A valid buffer list is a lawful reader of its bytes. -/
theorem reader_lawful (ar : Arith) :
    (reader ar : Reader (BufList T) UInt8).Lawful Valid held := by
  apply reader_lawful_of
  · intro self h
    exact h.nonempty
  · intro self h
    exact remaining_ok ar h.fits
  · intro self rest h hrest hlength
    exact ⟨hrest, Nat.lt_of_le_of_lt hlength h.fits⟩

/-- Over the integers it need not fit. -/
theorem reader_exact_lawful :
    (reader .exact : Reader (BufList T) UInt8).Lawful NonEmpty held :=
  reader_lawful_of id (fun _ => remaining_exact _) fun _ hrest _ => hrest

/-! ### Copying -/

variable [BytesMut]

omit [LawfulBuf T] in
/-- Where the front buffer has too few bytes, they are gathered. -/
theorem copyToBytes_eq_gather (ar : Arith) {self : BufList T} {len : ℕ}
    (h : ∀ front ∈ self.bufs.head?, Buf.remaining front < len) :
    self.copyToBytes ar len = self.gather ar len := by
  rcases self with ⟨_ | ⟨front, bufs⟩⟩
  · rfl
  · have hlt : Buf.remaining front < len := h front rfl
    have hneq : ¬ Buf.remaining front = len := by omega
    have hshort : ¬ len < Buf.remaining front := by omega
    simp only [copyToBytes, hneq, hshort, ↓reduceIte]

/-- If there are enough bytes, and they can be counted, then first a buffer is allocated. -/
theorem gather_allocates (ar : Arith) {self : BufList T} {len : ℕ}
    (hfits : self.held.length < wordSize) (hlen : len ≤ self.held.length) :
    self.gather ar len = do
      let bm ← BytesMut.withCapacity len
      if self.held.length = len then do
        let (bm, self) ← BytesMut.put (reader ar) self bm
        return (BytesMut.freeze bm, self)
      else do
        let (bm, src) ← BytesMut.put (reader ar).take (self, len) bm
        return (BytesMut.freeze bm, src.1) := by
  rw [gather, remaining_ok ar hfits]
  exact if_pos hlen

variable [LawfulBytesMut]

theorem gather_ok (ar : Arith) {self : BufList T} {len : ℕ} (h : self.Valid)
    (hlen : len ≤ self.held.length) (hcapacity : len ≤ isizeMax) :
    ∃ rest, self.gather ar len = .ok (self.held.take len, rest) ∧ rest.NonEmpty ∧
      rest.held = self.held.drop len := by
  obtain ⟨bm, hnew, hempty⟩ := LawfulBytesMut.withCapacity_ok hcapacity
  rw [gather_allocates ar h.fits hlen, hnew]
  by_cases hall : self.held.length = len
  · have hroom : (BytesMut.freeze bm).length + self.held.length ≤ isizeMax := by
      rw [hempty, List.length_nil, Nat.zero_add, hall]
      exact hcapacity
    obtain ⟨bm', rest, hput, hbytes, hrest, hnil⟩ :=
      LawfulBytesMut.put_ok (reader_lawful ar) h hroom
    rw [hempty, List.nil_append] at hbytes
    refine ⟨rest, ?_, hrest.nonempty, ?_⟩
    · change (if self.held.length = len then _ else _) = _
      rw [if_pos hall, hput, ← hall, List.take_length, ← hbytes]
      rfl
    · rw [hnil, ← hall, List.drop_length]
  · have hplace : self.held = self.held.drop (len - len) := by
      rw [Nat.sub_self, List.drop_zero]
    have hroom : (BytesMut.freeze bm).length + (self.held.take len).length ≤ isizeMax := by
      rw [hempty, List.length_nil, Nat.zero_add, List.length_take]
      exact Nat.le_trans (Nat.min_le_left _ _) hcapacity
    obtain ⟨bm', src, hput, hbytes, ⟨hvalid, hle, hrest⟩, hdone⟩ :=
      LawfulBytesMut.put_ok ((reader_lawful ar).takeFrom self.held len)
        (s := (self, len)) ⟨h, Nat.le_refl len, hplace⟩ hroom
    rw [hempty, List.nil_append] at hbytes
    refine ⟨src.1, ?_, hvalid.nonempty, Reader.drop_of_taken hle hlen hrest hdone⟩
    change (if self.held.length = len then _ else _) = _
    rw [if_neg hall, hput]
    exact congrArg (fun bytes => Except.ok (bytes, src.1)) hbytes

/-- More bytes than one allocation can have are a panic. -/
theorem gather_overflow (ar : Arith) {self : BufList T} {len : ℕ}
    (hfits : self.held.length < wordSize) (hlen : len ≤ self.held.length)
    (hcapacity : isizeMax < len) : self.gather ar len = .error .capacityOverflow := by
  rw [gather_allocates ar hfits hlen, LawfulBytesMut.withCapacity_overflow hcapacity]
  rfl

/-- Copying gives the first bytes and keeps the others, on every path.  Only where the
paths count all bytes do these have to fit a `usize`, and those that are copied one
allocation. -/
theorem copyToBytes_ok (ar : Arith) {self : BufList T} {len : ℕ} (h : self.NonEmpty)
    (hlen : len ≤ self.held.length)
    (hfits : (∃ front ∈ self.bufs.head?, len ≤ Buf.remaining front) ∨
      self.held.length < wordSize ∧ len ≤ isizeMax) :
    ∃ rest, self.copyToBytes ar len = .ok (self.held.take len, rest) ∧ rest.NonEmpty ∧
      rest.held = self.held.drop len := by
  by_cases hfront : ∃ front ∈ self.bufs.head?, len ≤ Buf.remaining front
  · obtain ⟨front, hmem, hle⟩ := hfront
    obtain ⟨bufs⟩ := self
    obtain ⟨bufs, rfl⟩ := List.head?_eq_some_iff.mp hmem
    have hrem := LawfulBuf.remaining_eq front
    obtain ⟨hne, hbufs⟩ := nonEmpty_cons.mp h
    have hfits : len ≤ (LawfulBuf.bytes front).length := by omega
    obtain ⟨front', hcopy, hbytes⟩ := LawfulBuf.copyToBytes_ok front len hfits
    have htake : (held ⟨front :: bufs⟩).take len = (LawfulBuf.bytes front).take len := by
      rw [held_cons, List.take_append_of_le_length hfits]
    have hdrop : (held ⟨front :: bufs⟩).drop len =
        (LawfulBuf.bytes front).drop len ++ held ⟨bufs⟩ := by
      rw [held_cons, List.drop_append_of_le_length hfits]
    by_cases heq : Buf.remaining front = len
    · have hnil : (LawfulBuf.bytes front).drop len = [] :=
        List.drop_eq_nil_of_le (by omega)
      refine ⟨⟨bufs⟩, ?_, hbufs, ?_⟩
      · simp only [copyToBytes, heq, ↓reduceIte, hcopy, htake]
        rfl
      · rw [hdrop, hnil, List.nil_append]
    · have hlt : len < Buf.remaining front := by omega
      have hfront' : Buf.hasRemaining front' = true := by
        rw [LawfulBuf.hasRemaining_iff, hbytes, ne_eq, List.drop_eq_nil_iff]
        omega
      refine ⟨⟨front' :: bufs⟩, ?_, nonEmpty_cons.mpr ⟨hfront', hbufs⟩, ?_⟩
      · simp only [copyToBytes, heq, hlt, ↓reduceIte, hcopy, htake]
        rfl
      · rw [hdrop, held_cons, hbytes]
  · obtain ⟨hcount, hcapacity⟩ := hfits.resolve_left hfront
    have hshort : ∀ front ∈ self.bufs.head?, Buf.remaining front < len := by
      intro front hmem
      exact Nat.lt_of_not_le fun hle => hfront ⟨front, hmem, hle⟩
    rw [copyToBytes_eq_gather ar hshort]
    exact gather_ok ar ⟨h, hcount⟩ hlen hcapacity

/-- As long as the bytes can be counted, the capacity of one allocation is the only reason
for which copying does not return. -/
theorem copyToBytes_cases (ar : Arith) {self : BufList T} {len : ℕ} (h : self.NonEmpty)
    (hfits : self.held.length < wordSize) (hlen : len ≤ self.held.length) :
    (∃ rest, self.copyToBytes ar len = .ok (self.held.take len, rest) ∧ rest.NonEmpty ∧
      rest.held = self.held.drop len) ∨ self.copyToBytes ar len = .error .capacityOverflow := by
  by_cases hfront : ∃ front ∈ self.bufs.head?, len ≤ Buf.remaining front
  · exact .inl (copyToBytes_ok ar h hlen (.inl hfront))
  · by_cases hcapacity : len ≤ isizeMax
    · exact .inl (copyToBytes_ok ar h hlen (.inr ⟨hfits, hcapacity⟩))
    · have hshort : ∀ front ∈ self.bufs.head?, Buf.remaining front < len := by
        intro front hmem
        exact Nat.lt_of_not_le fun hle => hfront ⟨front, hmem, hle⟩
      rw [copyToBytes_eq_gather ar hshort]
      exact .inr (gather_overflow ar hfits hlen (Nat.lt_of_not_le hcapacity))

end BufList

end HttpBody
