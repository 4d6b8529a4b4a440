import HttpBody.Collect.Outcome
import HttpBody.Limited.Budget

/-!
# Collecting within a limit

Collecting a limited body never holds more bytes than the limit, nor more buffers:
not at the end only, but in every turn of the loop of `Collect::poll`, and whatever
the inner body gives.
-/

namespace HttpBody

open Support

section Held

variable [Foreign] {D : Type} [Buf D] [LawfulBuf D]

omit [Foreign] in
/-- There are no more buffers than bytes. -/
theorem BufList.NonEmpty.length_le {self : BufList D} (h : self.NonEmpty) :
    self.bufs.length ≤ self.held.length := by
  rcases self with ⟨bufs⟩
  induction bufs with
  | nil => exact Nat.zero_le _
  | cons front bufs ih =>
      have hfront : 0 < (LawfulBuf.bytes front).length :=
        List.length_pos_iff.mpr h.front_ne_nil
      have hrest := ih (BufList.nonEmpty_cons.mp h).2
      simp only [BufList.held_cons, List.length_append, List.length_cons] at hrest ⊢
      omega

/-- A pushed frame adds its bytes, and no empty buffer. -/
theorem Collected.held_pushFrame {collected collected' : Collected D} {frame : Frame D}
    (hpush : collected.pushFrame frame = .ok collected') (h : collected.bufs.NonEmpty) :
    collected'.bufs.NonEmpty ∧
      collected'.bufs.held.length =
        collected.bufs.held.length + (frame.dataRef.map Buf.remaining).getD 0 := by
  cases frame with
  | trailers map =>
      rw [pushFrame_trailers] at hpush
      cases hpush
      exact ⟨h, rfl⟩
  | data d =>
      rw [pushFrame_data] at hpush
      cases hpush
      by_cases hd : Buf.hasRemaining d = true
      · constructor
        · intro buf hbuf
          simp only [hd, List.filter, List.mem_append, List.mem_singleton] at hbuf
          rcases hbuf with hbuf | rfl
          · exact h buf hbuf
          · exact hd
        · simp [BufList.held, hd, Frame.dataRef, LawfulBuf.remaining_eq]
      · have hnil : LawfulBuf.bytes d = [] := by
          simpa using mt (LawfulBuf.hasRemaining_iff d).mpr hd
        simp [hd, h, Frame.dataRef, LawfulBuf.remaining_eq, hnil]

end Held

section

variable [Foreign] {B D E : Type} [Buf D] [Body B D E] [Into E BoxError]

/-- Every call pays for its data with the remaining length. -/
theorem Limited.step_dataLen {l l' : Limited B} {t : List Event} {r : PollFrame D BoxError}
    (h : Body.Steps l t r l') : dataLen r + l'.remaining ≤ l.remaining := by
  rcases l with ⟨remaining, inner⟩
  rcases relays.step_cases h with ⟨inner', -, rfl, rfl⟩ | ⟨x, inner', -, rfl, rfl⟩
  · simp
  · exact dataLen_onReady remaining x

namespace Collect

variable [LawfulBuf D]

/-- What was collected, and what may still come, is within the limit. -/
structure Within (limit : ℕ) (me : Collect (Limited B) D) : Prop where
  nonEmpty : ∀ collected, me.collected = some collected → collected.bufs.NonEmpty
  length_le : ∀ collected, me.collected = some collected →
    collected.bufs.held.length + me.body.remaining ≤ limit

theorem Within.step {limit : ℕ} {me me' : Collect (Limited B) D} {t : List Event}
    {r : Poll (Option (Except BoxError (Collected D)))} (h : Within limit me)
    (hturn : Call.steps turn me t r me') : Within limit me' := by
  obtain ⟨hnonEmpty, hlength⟩ := h
  cases turn_cases hturn with
  | pending hpoll =>
      have hpays := Limited.step_dataLen hpoll
      refine ⟨hnonEmpty, fun collected hcollected => ?_⟩
      have hle := hlength collected hcollected
      simp only [dataLen_pending] at hpays hle ⊢
      omega
  | finish _ =>
      constructor
      · rintro _ ⟨⟩
      · rintro _ ⟨⟩
  | error hpoll =>
      have hpays := Limited.step_dataLen hpoll
      refine ⟨hnonEmpty, fun collected hcollected => ?_⟩
      have hle := hlength collected hcollected
      simp only [dataLen_error] at hpays hle ⊢
      omega
  | @frame collected collected' l _ frame l' hpoll hpush =>
      have hpays := Limited.step_dataLen hpoll
      have hle := hlength collected rfl
      obtain ⟨hnext, hheld⟩ := Collected.held_pushFrame hpush (hnonEmpty collected rfl)
      have hdata : dataLen (.ready (some (.ok frame)) : PollFrame D BoxError) =
          (frame.dataRef.map Buf.remaining).getD 0 := by
        cases frame <;> rfl
      rw [hdata] at hpays
      constructor
      · rintro _ ⟨⟩
        exact hnext
      · rintro _ ⟨⟩
        simp only at hle ⊢
        omega

theorem within_new (b : B) (limit : ℕ) :
    Within limit (new (Limited.new b limit) : Collect (Limited B) D) := by
  constructor
  · rintro _ ⟨⟩
    exact BufList.nonEmpty_nil
  · rintro _ ⟨⟩
    exact Nat.le_of_eq (Nat.zero_add limit)

theorem Within.always {limit : ℕ} {me : Collect (Limited B) D} (h : Within limit me) :
    Always (Call.steps turn) (Within limit) me :=
  .of_invariant (Within limit) h (fun _ hme => hme) fun _ _ _ _ hme hturn => hme.step hturn

/-- A call that resolves does so with what it held. -/
theorem Within.resolves {limit : ℕ} {me me' : Collect (Limited B) D} {t : List Event}
    {collected : Collected D} (h : Within limit me)
    (hcall : Steps me t (.ready (.ok collected)) me') :
    collected.bufs.NonEmpty ∧ collected.bufs.held.length ≤ limit := by
  replace hcall := loops_iff.mp hcall
  generalize hr : (.ready (.ok collected) : Poll (Except BoxError (Collected D))) = r at hcall
  induction hcall with
  | pending _ => cases hr
  | ready hturn =>
      cases hr
      cases turn_cases hturn with
      | finish _ =>
          have hle := h.length_le collected rfl
          exact ⟨h.nonEmpty collected rfl, by omega⟩
  | again hturn _ ih => exact ih (h.step hturn) hr

/-- Whatever a body gives, collecting it within a limit never holds more than the limit, also
with what may still come, and never more buffers than bytes; and what it resolves to can be
had as bytes in every build, when the limit is one that an allocation can have. -/
theorem holds_within [BytesMut] [LawfulBytesMut] (b : B) (limit : ℕ) :
    Always (Call.steps turn)
        (fun me => ∀ collected, me.collected = some collected →
          collected.bufs.bufs.length ≤ collected.bufs.held.length ∧
          collected.bufs.held.length + me.body.remaining ≤ limit)
        (new (Limited.new b limit) : Collect (Limited B) D) ∧
      ∀ {rs me'}, Runs Steps (new (Limited.new b limit) : Collect (Limited B) D) rs me' →
        ∀ collected, .ready (.ok collected) ∈ rs →
          collected.bufs.held.length ≤ limit ∧
          (limit ≤ isizeMax → ∀ ar, collected.toBytes ar = .ok collected.bufs.held) := by
  have halways := (within_new (D := D) b limit).always
  constructor
  · refine halways.mono fun me hme collected hcollected => ?_
    exact ⟨(hme.nonEmpty collected hcollected).length_le, hme.length_le collected hcollected⟩
  · intro rs me' hrun collected hmem
    obtain ⟨pre, post, rfl⟩ := List.append_of_mem hmem
    obtain ⟨me₁, hpre, hrest⟩ := runs_append_iff.mp hrun
    obtain ⟨t, me₂, hcall, -⟩ := runs_cons_iff.mp hrest
    obtain ⟨hnonEmpty, hle⟩ := (halways.loops hpre).resolves hcall
    refine ⟨hle, fun hlimit ar => ?_⟩
    exact Collected.toBytes_ok ar hnonEmpty (.inl (Nat.le_trans hle hlimit))

end Collect

end

/-- Three bytes and trailers, from a body that is suspended between its chunks, one of
which is empty. -/
def Collect.interrupted : Playback (Item Bytes Infallible) :=
  ⟨[.ready (.data (.single 1)), .pending, .ready (.data ((Bytes.single 0).drop 1)),
    .ready (.data (.single 2)), .ready (.data (.single 3)), .ready (.trailers fun _ => []),
    .ready none]⟩

/-- They are collected within a limit of three. -/
theorem Collect.holds_within_interrupted :
    ∃ c : Collected Bytes,
      Runs Collect.Steps (new (Limited.new interrupted 3)) [.pending, .ready (.ok c)]
        ⟨none, ⟨0, ⟨[]⟩⟩⟩ ∧
      c.bufs.held.length ≤ 3 ∧ c.toBytes .checked = .ok [1, 2, 3] := by
  have hrun : Runs Collect.Steps (new (Limited.new interrupted 3))
      [.pending, .ready (.ok (⟨⟨[.single 1, .single 2, .single 3]⟩,
        some fun _ => []⟩ : Collected Bytes))] ⟨none, ⟨0, ⟨[]⟩⟩⟩ := by
    apply Runs.cons (t := [])
    · exact loops_iff.mpr (.again (t := []) rfl (.pending (t := []) rfl))
    · exact .single (t := []) (loops_iff.mpr (.again (t := []) rfl (.again (t := []) rfl
        (.again (t := []) rfl (.again (t := []) rfl (.ready (t := []) rfl))))))
  obtain ⟨-, hresolved⟩ := holds_within (D := Bytes) interrupted 3
  obtain ⟨hheld, hbytes⟩ := hresolved hrun _ (.tail _ List.mem_cons_self)
  exact ⟨_, hrun, hheld, hbytes (by decide) .checked⟩

end HttpBody
