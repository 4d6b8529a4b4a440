import HttpBody.Util.BufList
import Mathlib.Data.List.SplitLengths

/-!
# Vectored reads of a buffer list

The buffers are asked for slices one after the other, as long as there is room.
A buffer that reports only part of itself leaves a gap in front of the slices of
the next one.  Whether there is a gap depends on the lengths only, so the result
compares all lists of one shape.
-/

namespace HttpBody

open Support

/-! ## Shapes -/

/-- The length of a buffer, and the lengths of the slices that it fills. -/
structure Shape where
  total : ℕ
  script : ℕ → List ℕ

namespace Shape

/-- How many bytes are in the slices that are filled. -/
def reported (s : Shape) (room : ℕ) : ℕ :=
  (s.script room).sum

/-- The buffers that are asked, each with the room that is left for it. -/
def asked : ℕ → List Shape → List (Shape × ℕ)
  | _, [] => []
  | room, s :: shapes =>
      (s, room) :: if (s.script room).length = room then []
        else asked (room - (s.script room).length) shapes

/-- No buffer reports bytes after one that was asked and held some back. -/
def Gapless (room : ℕ) (shapes : List Shape) : Prop :=
  (asked room shapes).Pairwise fun x y =>
    x.1.reported x.2 = x.1.total ∨ y.1.reported y.2 = 0

instance (room : ℕ) (shapes : List Shape) : Decidable (Gapless room shapes) :=
  inferInstanceAs (Decidable (List.Pairwise _ _))

/-- The lengths of a lawful buffer. -/
structure Lawful (s : Shape) : Prop where
  total_lt : s.total < wordSize
  length_le (room : ℕ) : (s.script room).length ≤ room
  reported_le (room : ℕ) : s.reported room ≤ s.total

theorem gapless_cons_full {room : ℕ} {s : Shape} {shapes : List Shape}
    (hfull : (s.script room).length = room) : Gapless room (s :: shapes) := by
  rw [Gapless, asked, if_pos hfull]
  exact List.pairwise_singleton _ _

theorem gapless_cons {room : ℕ} {s : Shape} {shapes : List Shape}
    (hroom : (s.script room).length ≠ room) :
    Gapless room (s :: shapes) ↔
      (s.reported room = s.total ∨
        ∀ y ∈ asked (room - (s.script room).length) shapes, y.1.reported y.2 = 0) ∧
      Gapless (room - (s.script room).length) shapes := by
  rw [Gapless, asked, if_neg hroom, List.pairwise_cons, Gapless]
  apply and_congr_left
  intro _
  constructor
  · intro h
    by_cases hall : s.reported room = s.total
    · exact .inl hall
    · exact .inr fun y hy => (h y hy).resolve_left hall
  · intro h y hy
    rcases h with hall | hnone
    · exact .inl hall
    · exact .inr (hnone y hy)

theorem gapless_of_silent {room : ℕ} {shapes : List Shape}
    (h : ∀ y ∈ asked room shapes, y.1.reported y.2 = 0) : Gapless room shapes :=
  List.pairwise_of_forall_mem_list fun _ _ y hy => .inr (h y hy)

/-- The shape of a buffer. -/
def of {T : Type} [Buf T] (buf : T) : Shape :=
  ⟨Buf.remaining buf, fun room => (Buf.chunksVectored buf room).map List.length⟩

section

variable {T : Type} [Buf T]

theorem length_script_of (buf : T) (room : ℕ) :
    ((of buf).script room).length = (Buf.chunksVectored buf room).length :=
  List.length_map _

theorem reported_of (buf : T) (room : ℕ) :
    (of buf).reported room = (Buf.chunksVectored buf room).flatten.length :=
  List.length_flatten.symm

variable [LawfulBuf T] [LawfulVectored T]

theorem of_lawful (buf : T) : (of buf).Lawful where
  total_lt := Buf.remaining_lt buf
  length_le room := by
    rw [length_script_of]
    exact LawfulVectored.length_le buf room
  reported_le room := by
    rw [reported_of]
    have hle := (LawfulVectored.flatten_prefix buf room).length_le
    exact Nat.le_trans hle (Nat.le_of_eq (LawfulBuf.remaining_eq buf).symm)

end

end Shape

namespace BufList

section

variable {T : Type} [Buf T]

/-- The slices of all buffers that are asked. -/
def answers : ℕ → List T → List (List UInt8)
  | _, [] => []
  | room, buf :: bufs =>
      Buf.chunksVectored buf room ++
        if (Buf.chunksVectored buf room).length = room then []
        else answers (room - (Buf.chunksVectored buf room).length) bufs

/-- The lengths of the buffers and of the slices that they fill. -/
def shape (self : BufList T) : List Shape :=
  self.bufs.map Shape.of

theorem shape_cons (buf : T) (bufs : List T) :
    shape ⟨buf :: bufs⟩ = Shape.of buf :: shape ⟨bufs⟩ :=
  rfl

variable [LawfulBuf T] [LawfulVectored T]

theorem vectoredLoop_eq {dst : ℕ} {bufs : List T} {vecs : List (List UInt8)}
    (h : vecs.length < dst) :
    vectoredLoop dst bufs vecs = .ok (vecs ++ answers (dst - vecs.length) bufs) ∧
      (vecs ++ answers (dst - vecs.length) bufs).length ≤ dst := by
  induction bufs generalizing vecs with
  | nil =>
      rw [answers, List.append_nil]
      exact ⟨rfl, Nat.le_of_lt h⟩
  | cons buf bufs ih =>
      have hle := LawfulVectored.length_le buf (dst - vecs.length)
      have hlength : (vecs ++ Buf.chunksVectored buf (dst - vecs.length)).length =
          vecs.length + (Buf.chunksVectored buf (dst - vecs.length)).length :=
        List.length_append
      rw [vectoredLoop, if_pos (Nat.le_of_lt h), answers]
      by_cases hfull : (Buf.chunksVectored buf (dst - vecs.length)).length = dst - vecs.length
      · have hdone : (vecs ++ Buf.chunksVectored buf (dst - vecs.length)).length = dst := by
          omega
        rw [if_pos hdone, if_pos hfull, List.append_nil]
        exact ⟨rfl, Nat.le_of_eq hdone⟩
      · have hmore : (vecs ++ Buf.chunksVectored buf (dst - vecs.length)).length < dst := by
          omega
        have hroom : dst - (vecs ++ Buf.chunksVectored buf (dst - vecs.length)).length =
            dst - vecs.length - (Buf.chunksVectored buf (dst - vecs.length)).length := by
          omega
        have hrest := ih hmore
        rw [hroom, List.append_assoc] at hrest
        rw [if_neg (Nat.ne_of_lt hmore), if_neg hfull]
        exact hrest

/-- The buffers are asked in order, and never for more than there is room for. -/
theorem chunksVectored_eq (self : BufList T) (dst : ℕ) :
    self.chunksVectored dst = .ok (answers dst self.bufs) ∧
      (answers dst self.bufs).length ≤ dst := by
  rw [chunksVectored]
  by_cases hzero : dst = 0
  · have hnone : answers dst self.bufs = [] := by
      rcases self with ⟨_ | ⟨buf, bufs⟩⟩
      · rfl
      · have hle := LawfulVectored.length_le buf dst
        have hfull : (Buf.chunksVectored buf dst).length = dst := by
          omega
        rw [answers, if_pos hfull, List.append_nil, ← List.length_eq_zero_iff]
        omega
    rw [if_pos hzero, hnone]
    exact ⟨rfl, Nat.zero_le dst⟩
  · have hpos : ([] : List (List UInt8)).length < dst := Nat.pos_of_ne_zero hzero
    rw [if_neg hzero]
    exact vectoredLoop_eq hpos

omit [LawfulBuf T] [LawfulVectored T] in
/-- The buffers that are asked report nothing together if each reports nothing. -/
theorem flatten_answers_eq_nil {room : ℕ} {bufs : List T} :
    (answers room bufs).flatten = [] ↔
      ∀ y ∈ Shape.asked room (shape ⟨bufs⟩), y.1.reported y.2 = 0 := by
  induction bufs generalizing room with
  | nil => simp [answers, shape, Shape.asked]
  | cons buf bufs ih =>
      have hhead : (Buf.chunksVectored buf room).flatten = [] ↔
          (Shape.of buf).reported room = 0 := by
        rw [Shape.reported_of, List.length_eq_zero_iff]
      rw [answers, List.flatten_append, List.append_eq_nil_iff, shape_cons, Shape.asked,
        List.forall_mem_cons, hhead, Shape.length_script_of]
      apply and_congr_right
      intro _
      by_cases hfull : (Buf.chunksVectored buf room).length = room
      · simp [hfull]
      · rw [if_neg hfull, if_neg hfull]
        exact ih

/-- Without gaps the slices are the first bytes of the list. -/
theorem flatten_answers_of_gapless {room : ℕ} {bufs : List T}
    (h : Shape.Gapless room (shape ⟨bufs⟩)) :
    (answers room bufs).flatten <+: held ⟨bufs⟩ := by
  induction bufs generalizing room with
  | nil => exact List.nil_prefix
  | cons buf bufs ih =>
      have hfront := LawfulVectored.flatten_prefix buf room
      rw [answers, List.flatten_append, held_cons]
      by_cases hfull : (Buf.chunksVectored buf room).length = room
      · rw [if_pos hfull, List.flatten_nil, List.append_nil]
        exact hfront.trans (List.prefix_append _ _)
      · rw [if_neg hfull]
        have hroom : ((Shape.of buf).script room).length ≠ room := by
          rwa [Shape.length_script_of]
        rw [shape_cons, Shape.gapless_cons hroom, Shape.length_script_of] at h
        obtain ⟨hall | hnone, hrest⟩ := h
        · have hlength : (Buf.chunksVectored buf room).flatten.length =
              (LawfulBuf.bytes buf).length := by
            rw [← Shape.reported_of, hall]
            exact LawfulBuf.remaining_eq buf
          rw [hfront.eq_of_length hlength, List.prefix_append_right_inj]
          exact ih hrest
        · rw [flatten_answers_eq_nil.mpr hnone, List.append_nil]
          exact hfront.trans (List.prefix_append _ _)

/-- The slices are at most as many as there is room for and hold the first bytes
of the list, so that one may write any part of them, advance past it, and have
the other bytes left. -/
def NeverSkips (self : BufList T) (dst : ℕ) : Prop :=
  ∃ vecs, self.chunksVectored dst = .ok vecs ∧ vecs.length ≤ dst ∧
    vecs.flatten <+: self.held ∧
    ∀ cnt ≤ vecs.flatten.length, ∃ rest, self.advance cnt = .ok rest ∧ rest.NonEmpty ∧
      vecs.flatten.take cnt ++ rest.held = self.held

theorem neverSkips_of_prefix {self : BufList T} {dst : ℕ} (h : self.NonEmpty)
    (hfirst : (answers dst self.bufs).flatten <+: self.held) : NeverSkips self dst := by
  obtain ⟨hvecs, hle⟩ := self.chunksVectored_eq dst
  refine ⟨answers dst self.bufs, hvecs, hle, hfirst, ?_⟩
  intro cnt hcnt
  obtain ⟨rest, hadvance, hrest, hheld⟩ := advance_ok h (Nat.le_trans hcnt hfirst.length_le)
  have htake : (answers dst self.bufs).flatten.take cnt = self.held.take cnt := by
    obtain ⟨last, hlast⟩ := hfirst
    rw [← hlast, List.take_append_of_le_length hcnt]
  refine ⟨rest, hadvance, hrest, ?_⟩
  rw [htake, hheld, List.take_append_drop]

theorem mem_held_of_mem_answers {room : ℕ} {bufs : List T} {x : UInt8}
    (h : x ∈ (answers room bufs).flatten) : x ∈ held ⟨bufs⟩ := by
  induction bufs generalizing room with
  | nil => simp [answers] at h
  | cons buf bufs ih =>
      rw [answers, List.flatten_append, List.mem_append] at h
      rw [held_cons, List.mem_append]
      rcases h with hfront | hrest
      · exact .inl ((LawfulVectored.flatten_prefix buf room).subset hfront)
      · by_cases hfull : (Buf.chunksVectored buf room).length = room
        · simp [hfull] at hrest
        · rw [if_neg hfull] at hrest
          exact .inr (ih hrest)

end

end BufList

/-! ## Buffers of every shape -/

/-- A buffer of any lawful shape, which otherwise gives out one byte at a time. -/
structure Scripted where
  shape : Shape
  lawful : shape.Lawful
  bytes : List UInt8
  length_eq : bytes.length = shape.total

namespace Scripted

/-- The default `chunks_vectored` reports the first chunk, here one byte. -/
def bytewise (bytes : List UInt8) (h : bytes.length < wordSize) : Scripted where
  shape := ⟨bytes.length, fun room => if room = 0 ∨ bytes = [] then [] else [1]⟩
  lawful :=
    { total_lt := h
      length_le := by
        intro room
        change (if room = 0 ∨ bytes = [] then [] else [1]).length ≤ room
        split_ifs with hnone
        · exact Nat.zero_le room
        · exact Nat.pos_of_ne_zero fun hzero => hnone (.inl hzero)
      reported_le := by
        intro room
        change (if room = 0 ∨ bytes = [] then [] else [1]).sum ≤ bytes.length
        split_ifs with hnone
        · exact Nat.zero_le _
        · exact List.length_pos_iff.mpr fun hnil => hnone (.inr hnil) }
  bytes := bytes
  length_eq := rfl

theorem length_lt (buf : Scripted) : buf.bytes.length < wordSize := by
  rw [buf.length_eq]
  exact buf.lawful.total_lt

def drop (buf : Scripted) (cnt : ℕ) : Scripted :=
  bytewise (buf.bytes.drop cnt)
    (Nat.lt_of_le_of_lt (List.length_drop ▸ Nat.sub_le _ _) buf.length_lt)

instance : Buf Scripted where
  remaining buf := buf.bytes.length
  remaining_lt buf := buf.length_lt
  hasRemaining buf := !buf.bytes.isEmpty
  chunk buf := buf.bytes.take 1
  advance buf cnt :=
    if cnt ≤ buf.bytes.length then .ok (buf.drop cnt)
    else .error (.assertFailed "cannot advance past `remaining`")
  chunksVectored buf dst :=
    (buf.shape.script dst).splitLengths (buf.bytes.take (buf.shape.reported dst))
  copyToBytes buf len :=
    if len ≤ buf.bytes.length then .ok (buf.bytes.take len, buf.drop len)
    else .error (.assertFailed "`len` greater than remaining")

instance : LawfulBuf Scripted where
  bytes buf := buf.bytes
  remaining_eq _ := rfl
  hasRemaining_iff buf := by
    simp [Buf.hasRemaining]
  chunk_prefix buf := List.take_prefix 1 buf.bytes
  chunk_eq_nil buf h := by
    simpa [Buf.chunk] using h
  advance_ok buf cnt h := ⟨buf.drop cnt, by simp [Buf.advance, h], rfl⟩
  copyToBytes_ok buf len h :=
    ⟨buf.drop len, by simp [Buf.copyToBytes, h], rfl⟩

theorem flatten_chunksVectored (buf : Scripted) (dst : ℕ) :
    (Buf.chunksVectored buf dst).flatten = buf.bytes.take (buf.shape.reported dst) :=
  List.flatten_splitLengths _ _ (List.length_take_le _ _)

instance : LawfulVectored Scripted where
  length_le buf dst := by
    change (List.splitLengths _ _).length ≤ dst
    rw [List.length_splitLengths]
    exact buf.lawful.length_le dst
  flatten_prefix buf dst := by
    rw [flatten_chunksVectored]
    exact List.take_prefix _ _

@[simp] theorem shape_of (buf : Scripted) : Shape.of buf = buf.shape := by
  have hscript : ∀ room, (Buf.chunksVectored buf room).map List.length =
      buf.shape.script room := by
    intro room
    apply List.map_splitLengths_length
    have hle : buf.shape.reported room ≤ buf.bytes.length := by
      rw [buf.length_eq]
      exact buf.lawful.reported_le room
    rw [List.length_take, Nat.min_eq_left hle, Shape.reported]
  rw [Shape.of, funext hscript]
  change (⟨buf.bytes.length, buf.shape.script⟩ : Shape) = _
  rw [buf.length_eq]

/-- Only zeros. -/
def zeros {s : Shape} (h : s.Lawful) : Scripted :=
  ⟨s, h, List.replicate s.total 0, List.length_replicate⟩

/-- Zeros, and a one as the first byte that is not reported. -/
def marked {s : Shape} (h : s.Lawful) {room : ℕ} (hlt : s.reported room < s.total) : Scripted where
  shape := s
  lawful := h
  bytes := List.replicate (s.reported room) 0 ++
    1 :: List.replicate (s.total - s.reported room - 1) 0
  length_eq := by
    rw [List.length_append, List.length_cons, List.length_replicate, List.length_replicate]
    omega

end Scripted

namespace BufList

theorem exists_zeros {shapes : List Shape} (h : ∀ s ∈ shapes, s.Lawful) :
    ∃ bufs : List Scripted, shape ⟨bufs⟩ = shapes ∧ ∀ x ∈ held ⟨bufs⟩, x = 0 := by
  induction shapes with
  | nil => exact ⟨[], rfl, by simp⟩
  | cons s shapes ih =>
      rw [List.forall_mem_cons] at h
      obtain ⟨bufs, hshape, hzero⟩ := ih h.2
      refine ⟨.zeros h.1 :: bufs, ?_, ?_⟩
      · rw [shape_cons, hshape, Scripted.shape_of]
        rfl
      · intro x hx
        rw [held_cons, List.mem_append] at hx
        rcases hx with hfront | hrest
        · exact List.eq_of_mem_replicate hfront
        · exact hzero x hrest

theorem length_chunksVectored_scripted (buf : Scripted) (room : ℕ) :
    (Buf.chunksVectored buf room).length = (buf.shape.script room).length := by
  rw [← Shape.length_script_of, Scripted.shape_of]

/-- A buffer that reports all its bytes shows no gap, and hides none. -/
theorem prefix_zeros_iff {room : ℕ} {s : Shape} (h : s.Lawful)
    (hroom : (s.script room).length ≠ room) (hall : s.reported room = s.total)
    (bufs : List Scripted) :
    (answers room (.zeros h :: bufs)).flatten <+: held ⟨.zeros h :: bufs⟩ ↔
      (answers (room - (s.script room).length) bufs).flatten <+: held ⟨bufs⟩ := by
  have hlength : (Buf.chunksVectored (Scripted.zeros h) room).length = (s.script room).length :=
    length_chunksVectored_scripted _ _
  have hfront : (Buf.chunksVectored (Scripted.zeros h) room).flatten =
      LawfulBuf.bytes (Scripted.zeros h) := by
    rw [Scripted.flatten_chunksVectored]
    apply List.take_of_length_le
    rw [Scripted.length_eq]
    exact Nat.le_of_eq hall.symm
  rw [answers, List.flatten_append, held_cons, hfront, List.prefix_append_right_inj, hlength,
    if_neg hroom]

/-- One sees that the marked byte is skipped, if zeros are reported after it. -/
theorem not_prefix_marked {room : ℕ} {s : Shape} (h : s.Lawful)
    (hroom : (s.script room).length ≠ room) (hlt : s.reported room < s.total)
    {bufs : List Scripted} (hzero : ∀ x ∈ held ⟨bufs⟩, x = 0)
    (hsome : (answers (room - (s.script room).length) bufs).flatten ≠ []) :
    ¬ (answers room (.marked h hlt :: bufs)).flatten <+: held ⟨.marked h hlt :: bufs⟩ := by
  have hlength : (Buf.chunksVectored (Scripted.marked h hlt) room).length =
      (s.script room).length := length_chunksVectored_scripted _ _
  have hfront : (Buf.chunksVectored (Scripted.marked h hlt) room).flatten =
      List.replicate (s.reported room) 0 := by
    rw [Scripted.flatten_chunksVectored]
    exact List.take_left' List.length_replicate
  have hbytes : LawfulBuf.bytes (Scripted.marked h hlt) =
      List.replicate (s.reported room) 0 ++
        1 :: List.replicate (s.total - s.reported room - 1) 0 := rfl
  rw [answers, List.flatten_append, held_cons, hfront, hbytes, List.append_assoc,
    List.prefix_append_right_inj, hlength, if_neg hroom]
  intro hprefix
  obtain ⟨x, xs, hxs⟩ := List.exists_cons_of_ne_nil hsome
  have hone : x = 1 := by
    rw [hxs, List.cons_append, List.cons_prefix_cons] at hprefix
    exact hprefix.1
  have hx : x = 0 := by
    apply hzero
    apply mem_held_of_mem_answers
    rw [hxs]
    exact List.mem_cons_self
  rw [hone] at hx
  cases hx

/-- A shape with a gap has a list in which one sees it. -/
theorem exists_skip {room : ℕ} {shapes : List Shape} (h : ∀ s ∈ shapes, s.Lawful)
    (hgap : ¬ Shape.Gapless room shapes) :
    ∃ bufs : List Scripted, shape ⟨bufs⟩ = shapes ∧
      ¬ (answers room bufs).flatten <+: held ⟨bufs⟩ := by
  induction shapes generalizing room with
  | nil => exact (hgap List.Pairwise.nil).elim
  | cons s shapes ih =>
      rw [List.forall_mem_cons] at h
      have hroom : (s.script room).length ≠ room :=
        fun hfull => hgap (Shape.gapless_cons_full hfull)
      rw [Shape.gapless_cons hroom] at hgap
      by_cases hall : s.reported room = s.total
      · have hrest : ¬ Shape.Gapless (room - (s.script room).length) shapes :=
          fun hrest => hgap ⟨.inl hall, hrest⟩
        obtain ⟨bufs, hshape, hskip⟩ := ih h.2 hrest
        refine ⟨.zeros h.1 :: bufs, ?_, ?_⟩
        · rw [shape_cons, hshape, Scripted.shape_of]
          rfl
        · rw [prefix_zeros_iff h.1 hroom hall]
          exact hskip
      · have hlt : s.reported room < s.total :=
          Nat.lt_of_le_of_ne (h.1.reported_le room) hall
        obtain ⟨bufs, hshape, hzero⟩ := exists_zeros h.2
        have hsome : (answers (room - (s.script room).length) bufs).flatten ≠ [] := by
          intro hnil
          rw [flatten_answers_eq_nil, hshape] at hnil
          exact hgap ⟨.inr hnil, Shape.gapless_of_silent hnil⟩
        refine ⟨.marked h.1 hlt :: bufs, ?_, not_prefix_marked h.1 hroom hlt hzero hsome⟩
        rw [shape_cons, hshape, Scripted.shape_of]
        rfl

/-- Whether a list is without empty buffers depends on its shape. -/
theorem nonEmpty_iff_shape {T : Type} [Buf T] [LawfulBuf T] {self : BufList T} :
    self.NonEmpty ↔ ∀ s ∈ self.shape, s.total ≠ 0 := by
  rw [NonEmpty, shape, List.forall_mem_map]
  apply forall₂_congr
  intro buf _
  rw [LawfulBuf.hasRemaining_iff, ne_eq, ← List.length_eq_zero_iff, ← LawfulBuf.remaining_eq]
  rfl

/-- Vectored reads never skip bytes in the lists of a shape, whatever the bytes
are, exactly when no buffer reports bytes after one that held some back. -/
theorem neverSkips_iff {T : Type} [Buf T] [LawfulBuf T] [LawfulVectored T] {self : BufList T}
    (h : self.NonEmpty) (dst : ℕ) :
    (∀ (U : Type) [Buf U] [LawfulBuf U] [LawfulVectored U] (other : BufList U),
      other.shape = self.shape → NeverSkips other dst) ↔ Shape.Gapless dst self.shape := by
  constructor
  · intro hskips
    by_contra hgap
    have hlawful : ∀ s ∈ self.shape, s.Lawful := by
      intro s hs
      obtain ⟨buf, -, rfl⟩ := List.mem_map.mp hs
      exact Shape.of_lawful buf
    obtain ⟨bufs, hshape, hskip⟩ := exists_skip hlawful hgap
    obtain ⟨vecs, hvecs, -, hprefix, -⟩ := hskips Scripted ⟨bufs⟩ hshape
    have hanswers : answers dst bufs = vecs :=
      Except.ok.inj ((chunksVectored_eq ⟨bufs⟩ dst).1.symm.trans hvecs)
    rw [hanswers] at hskip
    exact hskip hprefix
  · intro hgap U _ _ _ other hshape
    have hne : other.NonEmpty := by
      rw [nonEmpty_iff_shape, hshape]
      exact nonEmpty_iff_shape.mp h
    rw [← hshape] at hgap
    exact neverSkips_of_prefix hne (flatten_answers_of_gapless hgap)

/-- Two contiguous buffers. -/
theorem neverSkips_iff_contiguous :
    NeverSkips (⟨[⟨[1, 2], by decide⟩, ⟨[3], by decide⟩]⟩ : BufList Bytes) 2 := by
  have hne : NonEmpty (⟨[⟨[1, 2], by decide⟩, ⟨[3], by decide⟩]⟩ : BufList Bytes) := by
    decide
  exact (neverSkips_iff hne 2).mpr (by decide) Bytes _ rfl

/-- The first buffer reports the first of its two bytes, and there is room for
the byte of the second buffer. -/
def parted : BufList Scripted :=
  ⟨[.bytewise [1, 2] (by decide), .bytewise [3] (by decide)]⟩

/-- One byte is skipped. -/
theorem not_neverSkips_parted : parted.NonEmpty ∧ ¬ NeverSkips parted 2 := by
  have hne : parted.NonEmpty := by
    decide
  refine ⟨hne, ?_⟩
  rintro ⟨vecs, hvecs, -, hprefix, -⟩
  have hanswers : parted.chunksVectored 2 = .ok [[1], [3]] := rfl
  obtain rfl : [[1], [3]] = vecs := Except.ok.inj (hanswers.symm.trans hvecs)
  have hheld : parted.held = [1, 2, 3] := rfl
  rw [hheld] at hprefix
  exact absurd hprefix (by decide)

end BufList

end HttpBody
