import HttpBody.Core.SizeHint
import HttpBody.Support.Reader

/-!
# Buffers

The data of a frame is a `bytes::Buf`.  The class has the methods that the code
calls; their laws are stated separately, for the results that need them.
-/

namespace HttpBody

open Support

/-- The methods of `bytes::Buf` that the code calls.  A length is a `usize`. -/
class Buf (T : Type) where
  remaining : T → ℕ
  remaining_lt (buf : T) : remaining buf < wordSize
  hasRemaining : T → Bool
  chunk : T → List UInt8
  advance : T → ℕ → Except Stop T
  chunksVectored : T → ℕ → List (List UInt8)
  copyToBytes : T → ℕ → Except Stop (List UInt8 × T)

/-- The laws of `bytes::Buf`, over the bytes that a buffer still holds. -/
class LawfulBuf (T : Type) [Buf T] where
  bytes : T → List UInt8
  remaining_eq (buf : T) : Buf.remaining buf = (bytes buf).length
  hasRemaining_iff (buf : T) : Buf.hasRemaining buf = true ↔ bytes buf ≠ []
  chunk_prefix (buf : T) : Buf.chunk buf <+: bytes buf
  chunk_eq_nil (buf : T) : Buf.chunk buf = [] → bytes buf = []
  advance_ok (buf : T) (cnt : ℕ) : cnt ≤ (bytes buf).length →
    ∃ rest, Buf.advance buf cnt = .ok rest ∧ bytes rest = (bytes buf).drop cnt
  copyToBytes_ok (buf : T) (len : ℕ) : len ≤ (bytes buf).length →
    ∃ rest, Buf.copyToBytes buf len = .ok ((bytes buf).take len, rest) ∧
      bytes rest = (bytes buf).drop len

/-- The law of `chunks_vectored`: as many slices as there is room for at most,
and some first bytes of the buffer in them, not necessarily all. -/
class LawfulVectored (T : Type) [Buf T] [LawfulBuf T] : Prop where
  length_le (buf : T) (dst : ℕ) : (Buf.chunksVectored buf dst).length ≤ dst
  flatten_prefix (buf : T) (dst : ℕ) :
    (Buf.chunksVectored buf dst).flatten <+: LawfulBuf.bytes buf

theorem one_lt_wordSize : 1 < wordSize := by
  decide

/-- A contiguous byte string, no longer than memory allows. -/
structure Bytes where
  bytes : List UInt8
  length_lt : bytes.length < wordSize
  deriving DecidableEq

namespace Bytes

@[ext] theorem ext {a b : Bytes} (h : a.bytes = b.bytes) : a = b := by
  cases a
  cases b
  simpa using h

/-- One byte. -/
def single (byte : UInt8) : Bytes := ⟨[byte], one_lt_wordSize⟩

def drop (buf : Bytes) (cnt : ℕ) : Bytes :=
  ⟨buf.bytes.drop cnt, Nat.lt_of_le_of_lt (by simp) buf.length_lt⟩

instance : Buf Bytes where
  remaining buf := buf.bytes.length
  remaining_lt buf := buf.length_lt
  hasRemaining buf := !buf.bytes.isEmpty
  chunk buf := buf.bytes
  advance buf cnt :=
    if cnt ≤ buf.bytes.length then .ok (buf.drop cnt)
    else .error (.assertFailed "cannot advance past `remaining`")
  chunksVectored buf dst :=
    if dst = 0 ∨ buf.bytes.isEmpty then [] else [buf.bytes]
  copyToBytes buf len :=
    if len ≤ buf.bytes.length then .ok (buf.bytes.take len, buf.drop len)
    else .error (.assertFailed "split_to out of bounds")

instance : LawfulBuf Bytes where
  bytes buf := buf.bytes
  remaining_eq _ := rfl
  hasRemaining_iff buf := by
    simp [Buf.hasRemaining]
  chunk_prefix buf := List.prefix_refl buf.bytes
  chunk_eq_nil _ h := h
  advance_ok buf cnt h := ⟨buf.drop cnt, by simp [Buf.advance, h], rfl⟩
  copyToBytes_ok buf len h :=
    ⟨buf.drop len, by simp [Buf.copyToBytes, h], rfl⟩

instance : LawfulVectored Bytes where
  length_le buf dst := by
    change (if dst = 0 ∨ buf.bytes.isEmpty then [] else [buf.bytes]).length ≤ dst
    split_ifs with hnone
    · exact Nat.zero_le dst
    · exact Nat.pos_of_ne_zero fun hzero => hnone (.inl hzero)
  flatten_prefix buf dst := by
    change (if dst = 0 ∨ buf.bytes.isEmpty then [] else [buf.bytes]).flatten <+: buf.bytes
    split_ifs
    · exact List.nil_prefix
    · exact ⟨[], by rw [List.append_nil, List.flatten_singleton]⟩

end Bytes

/-- A buffer of zeros that are not kept in memory: it has a length, and gives
out one byte at a time. -/
structure Zeros where
  count : ℕ
  count_lt : count < wordSize

namespace Zeros

def drop (buf : Zeros) (cnt : ℕ) : Zeros :=
  ⟨buf.count - cnt, Nat.lt_of_le_of_lt (Nat.sub_le _ _) buf.count_lt⟩

instance : Buf Zeros where
  remaining buf := buf.count
  remaining_lt buf := buf.count_lt
  hasRemaining buf := decide (0 < buf.count)
  chunk buf := List.replicate (min buf.count 1) 0
  advance buf cnt :=
    if cnt ≤ buf.count then .ok (buf.drop cnt)
    else .error (.assertFailed "cannot advance past `remaining`")
  chunksVectored buf dst :=
    if dst = 0 ∨ buf.count = 0 then [] else [[0]]
  copyToBytes buf len :=
    if len ≤ buf.count then .ok (List.replicate len 0, buf.drop len)
    else .error (.assertFailed "`len` greater than remaining")

instance : LawfulBuf Zeros where
  bytes buf := List.replicate buf.count 0
  remaining_eq buf := List.length_replicate.symm
  hasRemaining_iff buf := by
    simp [Buf.hasRemaining, Nat.pos_iff_ne_zero]
  chunk_prefix buf := by
    obtain ⟨n, hn⟩ := Nat.exists_eq_add_of_le (Nat.min_le_left buf.count 1)
    conv => rhs; rw [hn, List.replicate_add]
    exact List.prefix_append _ _
  chunk_eq_nil buf h := by
    have hzero : min buf.count 1 = 0 := by simpa [Buf.chunk] using h
    have hcount : buf.count = 0 := by omega
    rw [hcount, List.replicate_zero]
  advance_ok buf cnt h := by
    rw [List.length_replicate] at h
    exact ⟨buf.drop cnt, by simp [Buf.advance, h], by simp [Zeros.drop]⟩
  copyToBytes_ok buf len h := by
    rw [List.length_replicate] at h
    refine ⟨buf.drop len, ?_, by simp [Zeros.drop]⟩
    simp [Buf.copyToBytes, h, List.take_replicate]

/-- Two of these have more bytes than a `usize` can count. -/
def half : Zeros := ⟨wordSize / 2, by decide⟩

end Zeros

/-! ## Writing to a growable buffer -/

/-- The largest `isize` of 64-bit targets.  No allocation is larger. -/
def isizeMax : ℕ := 2 ^ 63 - 1

theorem isizeMax_lt : isizeMax < wordSize := by
  decide

/-- `bytes::BytesMut`, as far as the code uses it.  `put` takes the bytes from a source,
which it gives back; `freeze` tells the bytes of the buffer. -/
class BytesMut where
  Buffer : Type
  withCapacity : ℕ → Except Stop Buffer
  put {S : Type} : Reader S UInt8 → S → Buffer → Except Stop (Buffer × S)
  freeze : Buffer → List UInt8

/-- The documented behaviour of `BytesMut`.  A new buffer is empty; its capacity is bounded
by `isize::MAX`, above which `with_capacity` panics.  `put` transfers all bytes of a
source, if the source obeys the laws of `Buf` and the bytes fit into one allocation, and
advances the source past them.  An allocation that fails for want of memory aborts the
process, and is outside the model. -/
class LawfulBytesMut [BytesMut] : Prop where
  withCapacity_ok {capacity : ℕ} : capacity ≤ isizeMax →
    ∃ bm, BytesMut.withCapacity capacity = .ok bm ∧ BytesMut.freeze bm = []
  withCapacity_overflow {capacity : ℕ} : isizeMax < capacity →
    BytesMut.withCapacity capacity = .error .capacityOverflow
  put_ok {S : Type} {m : Reader S UInt8} {valid : S → Prop} {held : S → List UInt8}
    {s : S} {bm : BytesMut.Buffer} : m.Lawful valid held → valid s →
    (BytesMut.freeze bm).length + (held s).length ≤ isizeMax →
      ∃ bm' s', BytesMut.put m s bm = .ok (bm', s') ∧
        BytesMut.freeze bm' = BytesMut.freeze bm ++ held s ∧ valid s' ∧ held s' = []

/-- A list of bytes, which is written by the loop that drains the source. -/
instance (priority := low) BytesMut.drain : BytesMut where
  Buffer := List UInt8
  withCapacity capacity :=
    if capacity ≤ isizeMax then .ok [] else .error .capacityOverflow
  put m s bm := do
    let n ← m.remaining s
    let (bytes, s') ← m.drain (n + 1) s
    if bm.length + bytes.length ≤ isizeMax then return (bm ++ bytes, s')
    else .error .capacityOverflow
  freeze bm := bm

instance : LawfulBytesMut where
  withCapacity_ok h := ⟨[], if_pos h, rfl⟩
  withCapacity_overflow h := if_neg (Nat.not_le.mpr h)
  put_ok {S m valid held s bm} h hs hfits := by
    obtain ⟨s', hdrain, hs', hempty⟩ := h.drain hs (Nat.lt_succ_self (held s).length)
    refine ⟨List.append bm (held s), s', ?_, rfl, hs', hempty⟩
    simp only [BytesMut.put, h.remaining_eq hs]
    change (m.drain _ s >>= _) = _
    rw [hdrain]
    exact if_pos hfits

end HttpBody
