import HttpBody.Channel.CleanClose

/-!
# After the end of a channel

A channel body does not remember that it has ended: every call that finds no
frame polls the error channel, which panics once it has resolved.
-/

namespace HttpBody.Channel

open Support

namespace Label

variable [Foreign] {D E : Type}

/-- The first inner poll of a call. -/
def beginsCall : Label D E → Bool
  | .pollRecv _ => true
  | _ => false

/-- The second inner poll of a call. -/
def pollsError : Label D E → Bool
  | .pollError _ => true
  | .panic _ => true
  | _ => false

/-- Once a call has returned the end, every call returns it, and none panics. -/
def OnlyEnds (ls : List (Label D E)) : Prop :=
  ls.Pairwise fun l l' => l = .pollError (.ready none) → l'.bySender = false →
    l' = .pollRecv none ∨ l' = .pollError (.ready none)

theorem OnlyEnds.snoc {ls : List (Label D E)} {l : Label D E} (h : OnlyEnds ls)
    (hl : .pollError (.ready none) ∈ ls → l.bySender = false →
      l = .pollRecv none ∨ l = .pollError (.ready none)) : OnlyEnds (ls ++ [l]) := by
  refine List.pairwise_append.mpr ⟨h, List.pairwise_singleton _ l, ?_⟩
  intro l₁ hmem l₂ hl₂ hend hby
  obtain rfl := List.mem_singleton.mp hl₂
  exact hl (hend ▸ hmem) hby

end Label

namespace System

section Ended

variable [Foreign] {M O D E : Type} [Mpsc M (Frame D)] [Oneshot O E]
  [LawfulMpsc M] [LawfulOneshot O]

/-- The body stays at its end, and never polls the error channel after it has
resolved. -/
structure StaysEnded (h : List (System M O × Label D E)) : Prop where
  onlyEnds : Label.OnlyEnds (labels h)
  unresolved : ∀ p ∈ h, p.2.pollsError = true → LawfulOneshot.slot p.1.error ≠ .taken

/-- The body stays ended in every run. -/
def AlwaysStaysEnded (s₀ : System M O) : Prop :=
  ∀ ⦃h : List (System M O × Label D E)⦄ ⦃s⦄, Path Step s₀ h s → StaysEnded h

/-- A state in which a call may be begun: the error channel has not resolved, or
it has delivered an error and there is still a frame in front of it. -/
def MayCall (s : System M O) : Prop :=
  LawfulOneshot.slot s.error ≠ .taken ∨
    (s.tx = .errorSent ∨ s.tx = .aborted) ∧ LawfulMpsc.queue s.frames ≠ []

/-- What holds after a path all of whose calls were begun where they may be. -/
structure Careful (h : List (System M O × Label D E)) (s : System M O) : Prop where
  stays : StaysEnded h
  between : s.rx = .between → LawfulOneshot.slot s.error ≠ .taken
  ended : .pollError (.ready none) ∈ labels h →
    s.tx = .dropped ∧ LawfulOneshot.slot s.error = .taken ∧ s.rx = .idle

variable {h : List (System M O × Label D E)} {s s' : System M O} {l : Label D E}

theorem not_mayCall_of_ended (htx : s.tx = .dropped)
    (htaken : LawfulOneshot.slot s.error = .taken) : ¬ MayCall s := by
  rintro (hne | ⟨haborted, -⟩)
  · exact hne htaken
  · rw [htx] at haborted
    simp at haborted

omit [Mpsc M (Frame D)] [LawfulMpsc M] in
theorem StaysEnded.snoc (hs : StaysEnded h)
    (hl : .pollError (.ready none) ∈ labels h → l.bySender = false →
      l = .pollRecv none ∨ l = .pollError (.ready none))
    (hslot : l.pollsError = true → LawfulOneshot.slot s.error ≠ .taken) :
    StaysEnded (h ++ [(s, l)]) := by
  refine ⟨?_, fun p hp hpolls => ?_⟩
  · rw [labels_append]
    exact hs.onlyEnds.snoc hl
  · rcases List.mem_append.mp hp with hp | hp
    · exact hs.unresolved p hp hpolls
    · obtain rfl := List.mem_singleton.mp hp
      exact hslot hpolls

omit [Mpsc M (Frame D)] [LawfulMpsc M] in
/-- A step that is made before the body has returned an end. -/
theorem Careful.fresh (hs : Careful h s) (hfresh : .pollError (.ready none) ∉ labels h)
    (hslot : l.pollsError = true → LawfulOneshot.slot s.error ≠ .taken)
    (hbetween : s'.rx = .between → LawfulOneshot.slot s'.error ≠ .taken)
    (hended : l = .pollError (.ready none) →
      s'.tx = .dropped ∧ LawfulOneshot.slot s'.error = .taken ∧ s'.rx = .idle) :
    Careful (h ++ [(s, l)]) s' := by
  refine ⟨hs.stays.snoc ?_ hslot, hbetween, ?_⟩
  · intro hend
    exact (hfresh hend).elim
  · intro hend
    rw [labels_append, List.mem_append] at hend
    rcases hend with hend | hend
    · exact (hfresh hend).elim
    · exact hended (List.mem_singleton.mp hend).symm

omit [Mpsc M (Frame D)] [LawfulMpsc M] in
/-- The sender has nothing left to do after the end. -/
theorem Careful.sender (hs : Careful h s) (hby : l.bySender = true) (htx : s.tx ≠ .dropped)
    (hrx : s'.rx = s.rx)
    (hslot : LawfulOneshot.slot s.error ≠ .taken → LawfulOneshot.slot s'.error ≠ .taken) :
    Careful (h ++ [(s, l)]) s' := by
  have hquiet : l.pollsError = false := by
    cases l <;> first | rfl | cases hby
  apply hs.fresh
  · intro hend
    exact htx (hs.ended hend).1
  · intro hpolls
    cases hquiet.symm.trans hpolls
  · intro hbetween
    exact hslot (hs.between (hrx ▸ hbetween))
  · intro hl
    subst hl
    cases hby

theorem Careful.step (hs : Careful h s) (haccounted : Accounted h s) (hstep : Step s l s')
    (hmay : l.beginsCall = true → MayCall s) : Careful (h ++ [(s, l)]) s' := by
  have hbegun : l.beginsCall = true → .pollError (.ready none) ∉ labels h := by
    intro hbegins hend
    obtain ⟨htx, htaken, -⟩ := hs.ended hend
    exact not_mayCall_of_ended htx htaken (hmay hbegins)
  cases hstep with
  | send hsends =>
      obtain ⟨-, -, herror⟩ := hsends.queue
      refine hs.sender rfl (by simp) rfl fun hslot => ?_
      simpa [afterSender, herror] using hslot
  | dropFrame => exact hs.sender rfl (by simp) rfl id
  | dropError =>
      have hdropped := LawfulOneshot.dropSender haccounted.slot.of_frameDropped
      refine hs.sender rfl (by simp) rfl fun _ htaken => ?_
      cases hdropped.symm.trans htaken
  | abort error =>
      have hsent := LawfulOneshot.send error haccounted.slot.of_active
      refine hs.sender rfl (by simp) rfl fun _ htaken => ?_
      cases hsent.symm.trans htaken
  | abortDrop => exact hs.sender rfl (by simp) rfl id
  | received hrecv =>
      apply hs.fresh (hbegun rfl)
      · intro hpolls
        cases hpolls
      · intro hbetween
        cases hbetween
      · intro hl
        cases hl
  | @noFrame m o tx m' hrecv =>
      have hempty : LawfulMpsc.queue m = [] := by
        obtain ⟨hqueue, hnone⟩ := pollRecv_spec hrecv
        simpa [hnone rfl] using hqueue
      have hslot : LawfulOneshot.slot o ≠ .taken := by
        rcases hmay rfl with hslot | ⟨-, hqueue⟩
        · exact hslot
        · exact (hqueue hempty).elim
      apply hs.fresh (hbegun rfl)
      · intro hpolls
        cases hpolls
      · intro _
        exact hslot
      · intro hl
        cases hl
  | @pollError m o tx result o' herror =>
      have hfresh : .pollError (.ready none) ∉ labels h := by
        intro hend
        obtain ⟨-, -, hidle⟩ := hs.ended hend
        cases hidle
      apply hs.fresh hfresh
      · intro _
        exact hs.between rfl
      · intro hbetween
        cases hbetween
      · intro hl
        cases hl
        obtain ⟨hdropped, htaken⟩ := (pollError_ok herror).of_finish
        exact ⟨haccounted.slot.of_slot_dropped hdropped, htaken, rfl⟩
  | panic herror => exact (hs.between rfl (pollError_error herror)).elim

theorem careful {buffer : ℕ} {s₀ : System M O} (hnew : new buffer = .ok s₀)
    (hpath : Path Step s₀ h s) (hmay : ∀ p ∈ h, p.2.beginsCall = true → MayCall p.1) :
    Careful h s := by
  have hall : Accounted h s ∧ ((∀ p ∈ h, p.2.beginsCall = true → MayCall p.1) → Careful h s) := by
    refine hpath.invariant
      (I := fun h s => Accounted h s ∧
        ((∀ p ∈ h, p.2.beginsCall = true → MayCall p.1) → Careful h s)) ?_ ?_
    · refine ⟨accounted_new hnew, fun _ => ⟨⟨List.Pairwise.nil, by simp⟩, ?_, by simp⟩⟩
      intro hbetween
      cases (new_spec hnew).2.1.symm.trans hbetween
    · rintro h s l s' ⟨haccounted, hcareful⟩ hstep
      refine ⟨haccounted.step hstep, fun hmay => ?_⟩
      have hbefore := hcareful fun p hp => hmay p (by simp [hp])
      exact hbefore.step haccounted hstep (hmay (s, l) (by simp))
  exact hall.2 hmay

/-- A clean end is returned when the error channel resolves. -/
theorem end_mem {buffer : ℕ} {s₀ : System M O} (hnew : new buffer = .ok s₀)
    (hpath : Path Step s₀ h s) (htx : s.tx = .dropped)
    (htaken : LawfulOneshot.slot s.error = .taken) :
    .pollError (.ready none) ∈ labels h := by
  have hall : Accounted h s ∧ (s.tx = .dropped → LawfulOneshot.slot s.error = .taken →
      .pollError (.ready none) ∈ labels h) := by
    refine hpath.invariant
      (I := fun h s => Accounted h s ∧ (s.tx = .dropped → LawfulOneshot.slot s.error = .taken →
        .pollError (.ready none) ∈ labels h)) ?_ ?_
    · refine ⟨accounted_new hnew, fun htx => ?_⟩
      cases (new_spec hnew).1.symm.trans htx
    · rintro h s l s' ⟨haccounted, hend⟩ hstep
      refine ⟨haccounted.step hstep, fun htx htaken => ?_⟩
      rw [labels_append, List.mem_append]
      cases hstep with
      | send hsends => cases htx
      | dropFrame => cases htx
      | dropError =>
          have hdropped := LawfulOneshot.dropSender haccounted.slot.of_frameDropped
          cases hdropped.symm.trans htaken
      | abort error => cases htx
      | abortDrop => cases htx
      | received hrecv => exact .inl (hend htx htaken)
      | noFrame hrecv => exact .inl (hend htx htaken)
      | panic herror => exact .inl (hend htx htaken)
      | @pollError m o tx result o' herror =>
          have hresult := haccounted.slot.finish_of_dropped htx (pollError_ok herror) htaken
          exact .inr (by simp [hresult])
  exact hall.2 htx htaken

/-- A call that was begun after the error channel had resolved polls it again. -/
theorem repolled {h₀ : List (System M O × Label D E)} (hs : Accounted h₀ s)
    (hpath : Path Step s h s') (hbetween : s.rx = .between)
    (htaken : LawfulOneshot.slot s.error = .taken) (hdone : s'.rx ≠ .between) :
    ∃ p ∈ h, p.2.pollsError = true ∧ LawfulOneshot.slot p.1.error = .taken := by
  induction hpath generalizing h₀ with
  | nil s => exact (hdone hbetween).elim
  | @cons s l s₁ h s' hstep hrest ih =>
      have hlater : s₁.rx = s.rx → LawfulOneshot.slot s₁.error = LawfulOneshot.slot s.error →
          ∃ p ∈ (s, l) :: h, p.2.pollsError = true ∧ LawfulOneshot.slot p.1.error = .taken := by
        intro hrx hslot
        obtain ⟨p, hp, hpolls⟩ :=
          ih (hs.step hstep) (hrx.trans hbetween) (hslot.trans htaken) hdone
        exact ⟨p, List.mem_cons_of_mem _ hp, hpolls⟩
      have hthrough := hs.slot.of_taken htaken
      cases hstep with
      | send hsends => simp at hthrough
      | dropFrame => simp at hthrough
      | dropError => simp at hthrough
      | abort error => simp at hthrough
      | abortDrop => exact hlater rfl rfl
      | received hrecv => cases hbetween
      | noFrame hrecv => cases hbetween
      | pollError herror => exact ⟨_, List.mem_cons_self, rfl, htaken⟩
      | panic herror => exact ⟨_, List.mem_cons_self, rfl, htaken⟩

/-- The body stays ended in every run whose calls are begun before the error
channel resolves, or in front of a frame after an abort; and in no other run,
once its last call is through. -/
theorem staysEnded_exactly {buffer : ℕ} {s₀ : System M O} (hnew : new buffer = .ok s₀)
    (hpath : Path Step s₀ h s) :
    ((∀ p ∈ h, p.2.beginsCall = true → MayCall p.1) → StaysEnded h) ∧
      (s.rx ≠ .between → StaysEnded h → ∀ p ∈ h, p.2.beginsCall = true → MayCall p.1) := by
  refine ⟨fun hmay => (careful hnew hpath hmay).stays, fun hdone hstays p hp hbegins => ?_⟩
  obtain ⟨s₁, l⟩ := p
  obtain ⟨pre, post, rfl⟩ := List.append_of_mem hp
  obtain ⟨hpre, s₂, hstep, hpost⟩ := hpath.split
  have hs := accounted hnew hpre
  by_contra hnot
  have htaken : LawfulOneshot.slot s₁.error = .taken := by
    by_contra hslot
    exact hnot (.inl hslot)
  cases hstep with
  | @received m o tx frame m' hrecv =>
      -- a frame is returned after the end
      have htx : tx = .dropped := by
        rcases hs.slot.of_taken htaken with htx | haborted
        · exact htx
        · refine (hnot (.inr ⟨haborted, ?_⟩)).elim
          have hqueue := (pollRecv_spec hrecv).1
          simp [hqueue]
      have hend := end_mem hnew hpre htx htaken
      have honly := hstays.onlyEnds
      rw [labels_append] at honly
      have hafter := (List.pairwise_append.mp honly).2.2 _ hend (.pollRecv (some frame))
        (by simp) rfl rfl
      simp at hafter
  | noFrame hrecv =>
      -- the error channel is polled again
      have hs' := hs.step (.noFrame hrecv)
      obtain ⟨p, hp', hpolls, hresolved⟩ := repolled hs' hpost rfl htaken hdone
      exact hstays.unresolved p (by simp [hp']) hpolls hresolved
  | _ => cases hbegins

end Ended

/-- The sender is dropped, and one call returns the end. -/
theorem path_end :
    Path Step
      (⟨⟨1, [], true⟩, .waiting, .active, .idle⟩ : System (Queue (Frame Bytes)) (Slot String))
      [(⟨⟨1, [], true⟩, .waiting, .active, .idle⟩, (.dropFrame : Label Bytes String)),
        (⟨⟨1, [], false⟩, .waiting, .frameDropped, .idle⟩, .dropError),
        (⟨⟨1, [], false⟩, .dropped, .dropped, .idle⟩, .pollRecv none),
        (⟨⟨1, [], false⟩, .dropped, .dropped, .between⟩, .pollError (.ready none))]
      ⟨⟨1, [], false⟩, .taken, .dropped, .idle⟩ :=
  .cons .dropFrame (.cons .dropError (.cons (.noFrame rfl) (.cons (.pollError rfl) (.nil _))))

theorem staysEnded_exactly_once :
    ∃ (s₀ s : System (Queue (Frame Bytes)) (Slot String))
      (h : List (System (Queue (Frame Bytes)) (Slot String) × Label Bytes String)),
      new 1 = .ok s₀ ∧ Path Step s₀ h s ∧
        ((∀ p ∈ h, p.2.beginsCall = true → MayCall p.1) → StaysEnded h) ∧
          (s.rx ≠ .between → StaysEnded h → ∀ p ∈ h, p.2.beginsCall = true → MayCall p.1) := by
  have hnew : (new 1 : Except Stop (System (Queue (Frame Bytes)) (Slot String))) =
      .ok ⟨⟨1, [], true⟩, .waiting, .active, .idle⟩ := rfl
  exact ⟨_, _, _, hnew, path_end, staysEnded_exactly hnew path_end⟩

/-- The next call polls the error channel again, which panics. -/
theorem not_alwaysStaysEnded :
    ∃ s₀ : System (Queue (Frame Bytes)) (Slot String),
      new 1 = .ok s₀ ∧ ¬ AlwaysStaysEnded s₀ := by
  refine ⟨⟨⟨1, [], true⟩, .waiting, .active, .idle⟩, rfl, fun hended => ?_⟩
  have hrecv : Step (⟨⟨1, [], false⟩, .taken, .dropped, .idle⟩ :
      System (Queue (Frame Bytes)) (Slot String)) (.pollRecv none : Label Bytes String)
      ⟨⟨1, [], false⟩, .taken, .dropped, .between⟩ := .noFrame rfl
  have hpanic : Step (⟨⟨1, [], false⟩, .taken, .dropped, .between⟩ :
      System (Queue (Frame Bytes)) (Slot String))
      (.panic .polledAfterCompletion : Label Bytes String)
      ⟨⟨1, [], false⟩, .taken, .dropped, .stopped⟩ := .panic rfl
  have hstays := hended ((path_end.snoc hrecv).snoc hpanic)
  exact hstays.unresolved _ (List.mem_append_right _ List.mem_cons_self) rfl rfl

end System

end HttpBody.Channel
