import HttpBody.Support.Call

/-!
# Channels of tokio

A channel body is made of an `mpsc` channel for its frames and a `oneshot`
channel for its error.  Both belong to another crate.  What the code uses of
them is a parameter of the development, and so is their documented behaviour:
the first is a lossless queue, the second delivers one value at most once.

A channel is one object that is shared by its two halves; a method of either
half changes the object.
-/

namespace HttpBody

open Support

/-- The error of `mpsc::Sender::try_send`. -/
inductive TrySendError (T : Type) where
  | full (value : T)
  | closed (value : T)

def TrySendError.intoInner {T : Type} : TrySendError T → T
  | .full value => value
  | .closed value => value

/-- The error of a oneshot receiver whose sender was dropped. -/
inductive RecvError where
  | recvError

/-- A bounded channel, `tokio::sync::mpsc`.  It panics when it is made with a
buffer of a wrong size.  `pollSend` is one poll of the future that `send`
returns. -/
class Mpsc (M : Type) (T : outParam Type) where
  channel (buffer : ℕ) : Except Stop M
  pollSend : T → M → Poll (Except T Unit) × M
  trySend : T → M → Except (TrySendError T) Unit × M
  dropSender : M → M
  pollRecv : M → Poll (Option T) × M

/-- A channel for a single value, `tokio::sync::oneshot`. -/
class Oneshot (O : Type) (E : outParam Type) where
  channel : O
  send : E → O → Except E Unit × O
  dropSender : O → O
  poll : O → Except Stop (Poll (Except RecvError E) × O)

/-- The documented behaviour of `mpsc`.  A value whose sending succeeds is
queued, values are received in the order of sending, and the channel ends when
it is empty and its sender is dropped.  That a queued value is received at once,
`pollRecv_cons`, is an assumption: a task that has used up its cooperative budget
is given a pending poll instead, and is woken in the same call. -/
class LawfulMpsc (M : Type) {T : outParam Type} [Mpsc M T] where
  queue : M → List T
  alive : M → Bool
  channel {buffer : ℕ} {m : M} : Mpsc.channel buffer = .ok m →
    queue m = [] ∧ alive m = true
  pollSend_ok {m m' : M} {t : T} : Mpsc.pollSend t m = (.ready (.ok ()), m') →
    queue m' = queue m ++ [t] ∧ alive m' = alive m
  trySend_ok {m m' : M} {t : T} : Mpsc.trySend t m = (.ok (), m') →
    queue m' = queue m ++ [t] ∧ alive m' = alive m
  dropSender (m : M) :
    queue (Mpsc.dropSender m) = queue m ∧ alive (Mpsc.dropSender m) = false
  pollRecv_cons {m : M} {t : T} {rest : List T} : queue m = t :: rest →
    ∃ m', Mpsc.pollRecv m = (.ready (some t), m') ∧ queue m' = rest ∧ alive m' = alive m
  pollRecv_pending {m : M} : queue m = [] → alive m = true →
    ∃ m', Mpsc.pollRecv m = (.pending, m') ∧ queue m' = [] ∧ alive m' = true
  pollRecv_none {m : M} : queue m = [] → alive m = false →
    ∃ m', Mpsc.pollRecv m = (.ready none, m') ∧ queue m' = [] ∧ alive m' = false

/-- What a oneshot channel holds. -/
inductive Slot (E : Type) where
  | waiting
  | sent (error : E)
  | dropped
  | taken

/-- The documented behaviour of `oneshot`.  The receiver resolves once the
sender has sent a value or was dropped, and panics when it is polled again. -/
class LawfulOneshot (O : Type) {E : outParam Type} [Oneshot O E] where
  slot : O → Slot E
  channel : slot (Oneshot.channel : O) = .waiting
  send {o : O} (e : E) : slot o = .waiting → slot (Oneshot.send e o).2 = .sent e
  dropSender {o : O} : slot o = .waiting → slot (Oneshot.dropSender o) = .dropped
  poll_waiting {o : O} : slot o = .waiting →
    ∃ o', Oneshot.poll o = .ok (.pending, o') ∧ slot o' = .waiting
  poll_sent {o : O} {e : E} : slot o = .sent e →
    ∃ o', Oneshot.poll o = .ok (.ready (.ok e), o') ∧ slot o' = .taken
  poll_dropped {o : O} : slot o = .dropped →
    ∃ o', Oneshot.poll o = .ok (.ready (.error .recvError), o') ∧ slot o' = .taken
  poll_taken {o : O} : slot o = .taken →
    Oneshot.poll o = .error .polledAfterCompletion

/-! ## A queue and a slot -/

/-- A queue with room for `buffer` values. -/
structure Queue (T : Type) where
  buffer : ℕ
  items : List T
  alive : Bool

namespace Queue

variable {T : Type}

def push (t : T) (q : Queue T) : Queue T := { q with items := q.items ++ [t] }

instance instMpsc : Mpsc (Queue T) T where
  channel buffer :=
    if 0 < buffer then .ok ⟨buffer, [], true⟩
    else .error (.foreign "mpsc bounded channel requires buffer > 0")
  pollSend t q :=
    if q.items.length < q.buffer then (.ready (.ok ()), q.push t) else (.pending, q)
  trySend t q :=
    if q.items.length < q.buffer then (.ok (), q.push t) else (.error (.full t), q)
  dropSender q := { q with alive := false }
  pollRecv q :=
    match q.items with
    | t :: rest => (.ready (some t), { q with items := rest })
    | [] => if q.alive then (.pending, q) else (.ready none, q)

instance : LawfulMpsc (Queue T) where
  queue q := q.items
  alive q := q.alive
  channel {buffer q} h := by
    simp only [Mpsc.channel] at h
    split at h
    · cases h
      exact ⟨rfl, rfl⟩
    · cases h
  pollSend_ok {q q' t} h := by
    simp only [Mpsc.pollSend] at h
    split at h
    · cases h
      exact ⟨rfl, rfl⟩
    · cases h
  trySend_ok {q q' t} h := by
    simp only [Mpsc.trySend] at h
    split at h
    · cases h
      exact ⟨rfl, rfl⟩
    · cases h
  dropSender _ := ⟨rfl, rfl⟩
  pollRecv_cons {q t rest} h := ⟨{ q with items := rest }, by simp [Mpsc.pollRecv, h], rfl, rfl⟩
  pollRecv_pending {q} h ha := ⟨q, by simp [Mpsc.pollRecv, h, ha], h, ha⟩
  pollRecv_none {q} h ha := ⟨q, by simp [Mpsc.pollRecv, h, ha], h, ha⟩

end Queue

namespace Slot

variable {E : Type}

instance instOneshot : Oneshot (Slot E) E where
  channel := .waiting
  send e _ := (.ok (), .sent e)
  dropSender
    | .sent e => .sent e
    | .taken => .taken
    | _ => .dropped
  poll
    | .waiting => .ok (.pending, .waiting)
    | .sent e => .ok (.ready (.ok e), .taken)
    | .dropped => .ok (.ready (.error .recvError), .taken)
    | .taken => .error .polledAfterCompletion

instance : LawfulOneshot (Slot E) where
  slot o := o
  channel := rfl
  send _ _ := rfl
  dropSender h := by
    subst h
    rfl
  poll_waiting h := ⟨.waiting, by subst h; rfl, rfl⟩
  poll_sent h := ⟨.taken, by subst h; rfl, rfl⟩
  poll_dropped h := ⟨.taken, by subst h; rfl, rfl⟩
  poll_taken h := by
    subst h
    rfl

end Slot

/-! ## Wakers -/

/-- The documented wakeups of `mpsc`.  A receiver waits once `poll_recv` was pending; when
it waits, it is woken by the next value that is sent and by the drop of the sender. -/
class WakingMpsc (M : Type) {T : outParam Type} [Mpsc M T] where
  waits : M → Bool
  pollRecv_pending {m m' : M} : Mpsc.pollRecv m = (.pending, m') → waits m' = true

/-- The documented wakeups of `oneshot`.  A receiver waits once it was pending; when it
waits, it is woken by the value that is sent or by the drop of the sender. -/
class WakingOneshot (O : Type) {E : outParam Type} [Oneshot O E] where
  waits : O → Bool
  poll_pending {o o' : O} : Oneshot.poll o = .ok (.pending, o') → waits o' = true

/-- A channel that remembers whether its receiver waits. -/
structure Waiting (C : Type) where
  channel : C
  waits : Bool

namespace Waiting

variable {M O T E : Type}

instance instMpsc [Mpsc M T] : Mpsc (Waiting M) T where
  channel buffer := do
    let m ← Mpsc.channel buffer
    return ⟨m, false⟩
  pollSend t w :=
    match Mpsc.pollSend t w.channel with
    | (.ready (.ok ()), m) => (.ready (.ok ()), ⟨m, false⟩)
    | (r, m) => (r, ⟨m, w.waits⟩)
  trySend t w :=
    match Mpsc.trySend t w.channel with
    | (.ok (), m) => (.ok (), ⟨m, false⟩)
    | (r, m) => (r, ⟨m, w.waits⟩)
  dropSender w := ⟨Mpsc.dropSender w.channel, false⟩
  pollRecv w :=
    match Mpsc.pollRecv w.channel with
    | (.pending, m) => (.pending, ⟨m, true⟩)
    | (r, m) => (r, ⟨m, w.waits⟩)

instance instOneshot [Oneshot O E] : Oneshot (Waiting O) E where
  channel := ⟨Oneshot.channel, false⟩
  send e w :=
    let (r, o) := Oneshot.send e w.channel
    (r, ⟨o, false⟩)
  dropSender w := ⟨Oneshot.dropSender w.channel, false⟩
  poll w := do
    let (r, o) ← Oneshot.poll w.channel
    match r with
    | .pending => return (.pending, ⟨o, true⟩)
    | r => return (r, ⟨o, w.waits⟩)

instance [Mpsc M T] [LawfulMpsc M] : LawfulMpsc (Waiting M) where
  queue w := LawfulMpsc.queue w.channel
  alive w := LawfulMpsc.alive w.channel
  channel {buffer w} h := by
    simp only [Mpsc.channel] at h
    cases hchannel : (Mpsc.channel buffer : Except Stop M) with
    | error stop => simp [hchannel, bind, Except.bind] at h
    | ok m =>
        rw [hchannel] at h
        cases h
        exact LawfulMpsc.channel hchannel
  pollSend_ok {w w' t} h := by
    simp only [Mpsc.pollSend] at h
    split at h
    · rename_i m hsend
      cases h
      exact LawfulMpsc.pollSend_ok hsend
    · rename_i r m hnot _
      cases h
      exact (hnot rfl).elim
  trySend_ok {w w' t} h := by
    simp only [Mpsc.trySend] at h
    split at h
    · rename_i m hsend
      cases h
      exact LawfulMpsc.trySend_ok hsend
    · rename_i r m hnot _
      cases h
      exact (hnot rfl).elim
  dropSender w := LawfulMpsc.dropSender w.channel
  pollRecv_cons {w t rest} h := by
    obtain ⟨m, hrecv, hrest, halive⟩ := LawfulMpsc.pollRecv_cons h
    exact ⟨⟨m, w.waits⟩, by simp [Mpsc.pollRecv, hrecv], hrest, halive⟩
  pollRecv_pending {w} h ha := by
    obtain ⟨m, hrecv, hempty, halive⟩ := LawfulMpsc.pollRecv_pending h ha
    exact ⟨⟨m, true⟩, by simp [Mpsc.pollRecv, hrecv], hempty, halive⟩
  pollRecv_none {w} h ha := by
    obtain ⟨m, hrecv, hempty, halive⟩ := LawfulMpsc.pollRecv_none h ha
    exact ⟨⟨m, w.waits⟩, by simp [Mpsc.pollRecv, hrecv], hempty, halive⟩

instance [Oneshot O E] [LawfulOneshot O] : LawfulOneshot (Waiting O) where
  slot w := LawfulOneshot.slot w.channel
  channel := LawfulOneshot.channel (O := O)
  send e h := LawfulOneshot.send e h
  dropSender h := LawfulOneshot.dropSender h
  poll_waiting {w} h := by
    obtain ⟨o, hpoll, hslot⟩ := LawfulOneshot.poll_waiting h
    refine ⟨⟨o, true⟩, ?_, hslot⟩
    simp only [Oneshot.poll, hpoll]
    rfl
  poll_sent {w e} h := by
    obtain ⟨o, hpoll, hslot⟩ := LawfulOneshot.poll_sent h
    refine ⟨⟨o, w.waits⟩, ?_, hslot⟩
    simp only [Oneshot.poll, hpoll]
    rfl
  poll_dropped {w} h := by
    obtain ⟨o, hpoll, hslot⟩ := LawfulOneshot.poll_dropped h
    refine ⟨⟨o, w.waits⟩, ?_, hslot⟩
    simp only [Oneshot.poll, hpoll]
    rfl
  poll_taken {w} h := by
    simp only [Oneshot.poll, LawfulOneshot.poll_taken h]
    rfl

instance [Mpsc M T] : WakingMpsc (Waiting M) where
  waits w := w.waits
  pollRecv_pending {w w'} h := by
    simp only [Mpsc.pollRecv] at h
    split at h
    · cases h
      rfl
    · rename_i r m hnot _
      cases h
      exact (hnot rfl).elim

instance [Oneshot O E] : WakingOneshot (Waiting O) where
  waits w := w.waits
  poll_pending {w w'} h := by
    simp only [Oneshot.poll] at h
    cases hpoll : Oneshot.poll w.channel with
    | error stop => simp [hpoll, bind, Except.bind] at h
    | ok p =>
        obtain ⟨r, o⟩ := p
        rw [hpoll] at h
        cases r with
        | pending =>
            cases h
            rfl
        | ready x => cases h

end Waiting

end HttpBody
