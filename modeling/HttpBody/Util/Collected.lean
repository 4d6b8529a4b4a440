import HttpBody.Core.Body
import HttpBody.Support.Loop
import HttpBody.Support.Passing
import HttpBody.Util.BufList
import HttpBody.Util.Leaves

/-!
# Collected and Collect

`Collect` polls a body until its end and pushes every frame into a `Collected`,
which is again a body.
-/

namespace HttpBody

open Support

/-- A collected body. -/
structure Collected [Foreign] (B : Type) where
  bufs : BufList B
  trailers : Option HeaderMap

/-- The future that resolves into a `Collected`. -/
structure Collect [Foreign] (T D : Type) where
  collected : Option (Collected D)
  body : T

namespace Collected

variable [Foreign] {B : Type} [Buf B]

/-- `Default::default`. -/
def empty : Collected B := ⟨.empty, none⟩

def takeTrailers (self : Collected B) : Option HeaderMap × Collected B :=
  (self.trailers, { self with trailers := none })

/-- The collected bytes as a buffer, which reads them in place. -/
def aggregate (self : Collected B) : BufList B := self.bufs

def toBytes [BytesMut] (ar : Arith) (self : Collected B) : Except Stop (List UInt8) := do
  let len ← self.bufs.remaining ar
  let (bytes, _) ← self.bufs.copyToBytes ar len
  return bytes

/-- Empty data frames are dropped, and later trailers extend earlier ones. -/
def pushFrame (self : Collected B) (frame : Frame B) : Except Stop (Collected B) :=
  match frame.intoData with
  | .ok data =>
      if Buf.hasRemaining data then do
        let bufs ← self.bufs.push data
        return { self with bufs := bufs }
      else return self
  | .error frame =>
      match frame.intoTrailers with
      | .ok trailers =>
          match self.trailers with
          | some current => return { self with trailers := some (Foreign.extend current trailers) }
          | none => return { self with trailers := some trailers }
      | .error _ => return self

instance instBody : Body (Collected B) B Infallible where
  pollFrame self :=
    match self.bufs.pop with
    | (some data, bufs) => return (.ready (.data data), { self with bufs := bufs })
    | (none, bufs) =>
        match self.takeTrailers with
        | (some trailers, self) =>
            return (.ready (.trailers trailers), { self with bufs := bufs })
        | (none, self) => return (.ready none, { self with bufs := bufs })

theorem pushFrame_data (acc : Collected B) (d : B) :
    acc.pushFrame (.data d) =
      .ok ⟨⟨acc.bufs.bufs ++ [d].filter Buf.hasRemaining⟩, acc.trailers⟩ := by
  by_cases hd : Buf.hasRemaining d = true
  · simp only [pushFrame, Frame.intoData, hd, ↓reduceIte, BufList.push, List.filter]
    rfl
  · simp only [pushFrame, Frame.intoData, hd, Bool.false_eq_true, ↓reduceIte, List.filter,
      List.append_nil]
    rfl

theorem pushFrame_trailers (acc : Collected B) (map : HeaderMap) :
    acc.pushFrame (.trailers map) = .ok ⟨acc.bufs, mergeTrailers acc.trailers (some map)⟩ := by
  rcases acc with ⟨bufs, _ | current⟩ <;> rfl

section ToBytes

variable [LawfulBuf B] [BytesMut] {self : Collected B}

theorem toBytes_of_fits (ar : Arith) (hfits : self.bufs.held.length < wordSize) :
    self.toBytes ar = do
      let (bytes, _) ← self.bufs.copyToBytes ar self.bufs.held.length
      return bytes := by
  rw [toBytes, BufList.remaining_ok ar hfits]
  rfl

/-- With overflow checks, more bytes than a `usize` can count are a panic. -/
theorem toBytes_overflow (h : wordSize ≤ self.bufs.held.length) :
    self.toBytes .checked = .error .overflow := by
  rw [toBytes, BufList.remaining_overflow h]
  rfl

variable [LawfulBytesMut]

/-- As long as the bytes can be counted, they are given, or do not fit one allocation. -/
theorem toBytes_cases (ar : Arith) (h : self.bufs.NonEmpty)
    (hfits : self.bufs.held.length < wordSize) :
    self.toBytes ar = .ok self.bufs.held ∨ self.toBytes ar = .error .capacityOverflow := by
  rw [toBytes_of_fits ar hfits]
  rcases BufList.copyToBytes_cases ar h hfits (Nat.le_refl _) with ⟨rest, hcopy, -⟩ | hcopy
  · rw [hcopy, List.take_length]
    exact .inl rfl
  · rw [hcopy]
    exact .inr rfl

/-- The bytes of a single buffer are had from the buffer, others are gathered. -/
theorem toBytes_ok (ar : Arith) (h : self.bufs.NonEmpty)
    (hfits : self.bufs.held.length ≤ isizeMax ∨ self.bufs.bufs.length ≤ 1) :
    self.toBytes ar = .ok self.bufs.held := by
  have hcopies : self.bufs.held.length < wordSize ∧
      ((∃ front ∈ self.bufs.bufs.head?, self.bufs.held.length ≤ Buf.remaining front) ∨
        self.bufs.held.length < wordSize ∧ self.bufs.held.length ≤ isizeMax) := by
    by_cases hle : self.bufs.held.length ≤ isizeMax
    · have hlt := Nat.lt_of_le_of_lt hle isizeMax_lt
      exact ⟨hlt, .inr ⟨hlt, hle⟩⟩
    · have hne : self.bufs.held ≠ [] := by
        intro hnil
        rw [hnil] at hle
        exact hle (Nat.zero_le _)
      obtain ⟨front, hmem, hlength⟩ := BufList.exists_front (hfits.resolve_left hle) hne
      exact ⟨hlength ▸ Buf.remaining_lt front, .inl ⟨front, hmem, Nat.le_of_eq hlength⟩⟩
  obtain ⟨hlt, hcopies⟩ := hcopies
  obtain ⟨rest, hcopy, -, -⟩ := BufList.copyToBytes_ok ar h (Nat.le_refl _) hcopies
  rw [toBytes_of_fits ar hlt, hcopy, List.take_length]
  rfl

/-- More bytes in several buffers than fit one allocation are a panic. -/
theorem toBytes_capacity (ar : Arith) (h : self.bufs.NonEmpty)
    (hfits : self.bufs.held.length < wordSize) (hbig : isizeMax < self.bufs.held.length)
    (hmany : 1 < self.bufs.bufs.length) : self.toBytes ar = .error .capacityOverflow := by
  rw [toBytes_of_fits ar hfits, BufList.copyToBytes_eq_gather ar (h.front_lt hmany),
    BufList.gather_overflow ar hfits (Nat.le_refl _) hbig]
  rfl

/-- All bytes can be had, in every build, exactly when they fit one allocation or lie in
one buffer. -/
theorem toBytes_iff (h : self.bufs.NonEmpty) :
    (∀ ar, self.toBytes ar = .ok self.bufs.held) ↔
      self.bufs.held.length ≤ isizeMax ∨ self.bufs.bufs.length ≤ 1 := by
  constructor
  · intro hbytes
    by_contra hover
    rw [not_or, Nat.not_le, Nat.not_le] at hover
    obtain ⟨hbig, hmany⟩ := hover
    by_cases hfits : self.bufs.held.length < wordSize
    · cases (toBytes_capacity .checked h hfits hbig hmany).symm.trans (hbytes .checked)
    · cases (toBytes_overflow (Nat.le_of_not_lt hfits)).symm.trans (hbytes .checked)
  · intro hfits ar
    exact toBytes_ok ar h hfits

/-- Without overflow checks, the bytes are cut off where their number wraps, if
the front buffer has that many of them. -/
theorem toBytes_wrapped {front : B} (h : self.bufs.NonEmpty) (hfront : front ∈ self.bufs.bufs.head?)
    (hle : self.bufs.held.length % wordSize ≤ Buf.remaining front) :
    self.toBytes .wrapping = .ok (self.bufs.held.take (self.bufs.held.length % wordSize)) := by
  have hrem : self.bufs.remaining .wrapping = .ok (self.bufs.held.length % wordSize) :=
    self.bufs.remaining_eq .wrapping
  obtain ⟨rest, hcopy, -, -⟩ :=
    BufList.copyToBytes_ok .wrapping h (Nat.mod_le _ _) (.inl ⟨front, hfront, hle⟩)
  rw [toBytes, hrem]
  change (self.bufs.copyToBytes .wrapping _ >>= _) = _
  rw [hcopy]
  rfl

end ToBytes

end Collected

namespace Collect

variable [Foreign] {T D E : Type} [Body T D E] [Buf D]

/-- `BodyExt::collect`. -/
def new (body : T) : Collect T D := ⟨some .empty, body⟩

/-- One turn of the loop of `poll`. -/
def turn (me : Collect T D) :
    Call (Poll (Option (Except E (Collected D))) × Collect T D) := do
  let (frame, body) ← Body.pollFrame me.body
  match frame with
  | .pending => return (.pending, ⟨me.collected, body⟩)
  | .ready (some (.error err)) => return (.ready (some (.error err)), ⟨me.collected, body⟩)
  | .ready none =>
      match me.collected with
      | some collected => return (.ready (some (.ok collected)), ⟨none, body⟩)
      | none => ⟨[], .error (.expectNone "polled after complete")⟩
  | .ready (some (.ok frame)) => do
      let collected ← Call.unwrap me.collected
      let collected ← Call.lift (collected.pushFrame frame)
      return (.ready none, ⟨some collected, body⟩)

/-- `Collect::poll`, cut off after `fuel` frames. -/
def poll (fuel : ℕ) (me : Collect T D) :
    Call (Poll (Except E (Collected D)) × Collect T D) :=
  loop turn fuel me

/-- The calls of `Collect::poll` that return. -/
abbrev Steps : StepRel (Collect T D) (Except E (Collected D)) :=
  Call.loops turn

/-- How a turn goes on when the body is ready. -/
def afterBody (collected : Option (Collected D)) :
    Item D E → T → Call (Poll (Option (Except E (Collected D))) × Collect T D)
  | none, body =>
      match collected with
      | some collected => pure (.ready (some (.ok collected)), ⟨none, body⟩)
      | none => ⟨[], .error (.expectNone "polled after complete")⟩
  | some (.ok frame), body => do
      let collected ← Call.unwrap collected
      let collected ← Call.lift (collected.pushFrame frame)
      return (.ready none, ⟨some collected, body⟩)
  | .error err, body => pure (.ready (some (.error err)), ⟨collected, body⟩)

theorem passes (collected : Option (Collected D)) :
    Passes (Body.pollFrame (B := T)) turn (fun body => ⟨collected, body⟩)
      (afterBody collected) := by
  intro body
  simp only [turn, passing]
  refine bind_congr fun answer => ?_
  rcases answer with ⟨_ | (_ | (err | frame)), body⟩ <;> rfl

/-- What a turn of the loop can do. -/
inductive Turn :
    Collect T D → List Event → Poll (Option (Except E (Collected D))) → Collect T D → Prop where
  | pending {collected body t body'} : Body.Steps body t .pending body' →
      Turn ⟨collected, body⟩ t .pending ⟨collected, body'⟩
  | finish {collected body t body'} : Body.Steps body t (.ready none) body' →
      Turn ⟨some collected, body⟩ t (.ready (some (.ok collected))) ⟨none, body'⟩
  | error {collected body t err body'} : Body.Steps body t (.ready (.error err)) body' →
      Turn ⟨collected, body⟩ t (.ready (some (.error err))) ⟨collected, body'⟩
  | frame {collected collected' body t frame body'} :
      Body.Steps body t (.ready (some (.ok frame))) body' →
      collected.pushFrame frame = .ok collected' →
      Turn ⟨some collected, body⟩ t (.ready none) ⟨some collected', body'⟩

theorem turn_cases {me me' : Collect T D} {t : List Event}
    {r : Poll (Option (Except E (Collected D)))} (h : Call.steps turn me t r me') :
    Turn me t r me' := by
  rcases me with ⟨collected, body⟩
  rcases (passes collected).step_cases h with
    ⟨body', hpoll, rfl, rfl⟩ | ⟨t₁, x, body', t₂, hpoll, hnext, rfl⟩
  · exact .pending hpoll
  · rcases x with _ | (err | frame)
    · rcases collected with _ | collected
      · cases hnext
      · exact StepRel.of_pure hnext (.finish hpoll)
    · exact StepRel.of_pure hnext (.error hpoll)
    · rcases collected with _ | collected
      · cases hnext
      · simp only [afterBody, Call.unwrap_some_bind] at hnext
        cases hpush : collected.pushFrame frame with
        | error stop =>
            rw [hpush] at hnext
            cases hnext
        | ok collected' =>
            rw [hpush, Call.lift_ok, pure_bind] at hnext
            exact StepRel.of_pure hnext (.frame hpoll hpush)

end Collect

end HttpBody
