import HttpBody.Collect.Outcome
import HttpBody.Content.Denotation
import HttpBody.Util.DataStream

/-!
# Consuming a content

Collecting an expression, streaming its data and collecting it within a limit
all give what can be read off from the content.
-/

namespace HttpBody

open Support

section Contents

variable [Foreign] {B D E : Type} [Buf D]

namespace Content

/-- What collecting resolves to when `acc` has been collected before. -/
def collectedInto (acc : Collected D) (c : Content D E) : Except E (Collected D) :=
  c.result.map fun ta =>
    ⟨⟨acc.bufs.bufs ++ c.items.filter Buf.hasRemaining⟩, mergeTrailers acc.trailers ta⟩

/-- What collecting a body with this content resolves to. -/
def collected (c : Content D E) : Except E (Collected D) :=
  c.collectedInto .empty

/-- The items of the data stream, and its end. -/
def dataAnswers (c : Content D E) : List (Option (Except E D)) :=
  c.items.map (fun d => some (.ok d)) ++
    [match c.result with
      | .ok _ => none
      | .error err => some (.error err)]

/-- The answers that a consumer hears, who polls on until the end or an error: after
trailers there is one more. -/
def polled (c : Content D E) : List (Item D E) :=
  c.answers ++
    match c.result with
    | .ok (some _) => [none]
    | _ => []

/-- The number of data bytes. -/
def total (c : Content D E) : ℕ := (c.items.map Buf.remaining).sum

/-- The data bytes, in order. -/
def bytes [LawfulBuf D] (c : Content D E) : List UInt8 :=
  c.items.flatMap LawfulBuf.bytes

theorem length_bytes [LawfulBuf D] (c : Content D E) : c.bytes.length = c.total := by
  have hlength : ∀ d : D, (LawfulBuf.bytes d).length = Buf.remaining d :=
    fun d => (LawfulBuf.remaining_eq d).symm
  simp [bytes, total, List.length_flatMap, hlength]

theorem collectedInto_ok (acc : Collected D) (ta : Option HeaderMap) :
    collectedInto acc (⟨[], .ok ta⟩ : Content D E) =
      .ok ⟨acc.bufs, mergeTrailers acc.trailers ta⟩ := by
  simp [collectedInto, Except.map]

theorem collectedInto_cons (acc : Collected D) (d : D) (c : Content D E) :
    collectedInto acc (c.cons d) =
      collectedInto ⟨⟨acc.bufs.bufs ++ [d].filter Buf.hasRemaining⟩, acc.trailers⟩ c := by
  simp only [collectedInto, Script.cons, List.append_assoc, ← List.filter_append]
  rfl

end Content

/-! ## Collecting -/

namespace Collect

variable [Body B D E]

theorem awaits_end {b b' : B} (hawait : Awaits Body.Steps b none b') (acc : Collected D) :
    Awaits Steps ⟨some acc, b⟩ (.ok acc) ⟨none, b'⟩ :=
  awaits_loops_iff.mpr (.ready ((passes (some acc)).awaits_of_pure hawait rfl))

theorem awaits_frame {b b₁ : B} {frame : Frame D} {acc acc' : Collected D}
    {o : Except E (Collected D)} {me' : Collect B D}
    (hawait : Awaits Body.Steps b (some (.ok frame)) b₁) (hpush : acc.pushFrame frame = .ok acc')
    (hrest : Awaits Steps ⟨some acc', b₁⟩ o me') : Awaits Steps ⟨some acc, b⟩ o me' :=
  awaits_loops_of_again ((passes (some acc)).awaits_of_pure hawait (afterBody_frame hpush b₁))
    hrest

theorem awaits_content {b : B} {c : Content D E} (hb : Body.Delivers b c) (acc : Collected D) :
    ∃ me', Awaits Steps ⟨some acc, b⟩ (c.collectedInto acc) me' ∧
      AwaitsAll Body.Steps b c.polled me'.body := by
  induction hb generalizing acc with
  | @last b x r b' hawait hx hconcluded =>
      rw [Item.split_eq_inr] at hx
      rcases hx with ⟨err, rfl, rfl⟩ | ⟨ta, hends, rfl⟩
      · have herror := (passes (some acc)).awaits_of_pure hawait rfl
        exact ⟨_, awaits_loops_iff.mpr (.ready herror), .cons hawait (.nil _)⟩
      · rw [Script.pure_def, Content.collectedInto_ok]
        cases hends with
        | finish =>
            rw [mergeTrailers_none_right]
            exact ⟨_, awaits_end hawait acc, .cons hawait (.nil _)⟩
        | trailers map =>
            -- the end comes after the trailers
            have hended : Body.Ended b' := hconcluded map rfl
            obtain ⟨t, b'', hfinish, -⟩ := Stays.step (Call.steps_functional _) hended
            exact ⟨_, awaits_frame hawait (acc.pushFrame_trailers map)
              (awaits_end (.ready hfinish) _), .cons hawait (.cons (.ready hfinish) (.nil _))⟩
  | @item b x d b₁ c hawait hx _ ih =>
      rw [Item.split_eq_inl] at hx
      subst hx
      obtain ⟨me', hrest, hpolled⟩ :=
        ih ⟨⟨acc.bufs.bufs ++ [d].filter Buf.hasRemaining⟩, acc.trailers⟩
      rw [Content.collectedInto_cons]
      exact ⟨me', awaits_frame hawait (acc.pushFrame_data d) hrest, .cons hawait hpolled⟩

end Collect

section Bytes

variable [LawfulBuf D]

omit [Foreign] in
/-- The empty frames that are dropped have no bytes. -/
theorem Content.flatMap_filter (ds : List D) :
    (ds.filter Buf.hasRemaining).flatMap LawfulBuf.bytes = ds.flatMap LawfulBuf.bytes := by
  induction ds with
  | nil => rfl
  | cons d ds ih =>
      by_cases hd : Buf.hasRemaining d = true
      · rw [List.filter_cons_of_pos hd, List.flatMap_cons, List.flatMap_cons, ih]
      · have hnil : LawfulBuf.bytes d = [] := by
          simpa using mt (LawfulBuf.hasRemaining_iff d).mpr hd
        rw [List.filter_cons_of_neg hd, List.flatMap_cons, hnil, List.nil_append, ih]

/-- A body that was collected, by the content that it was collected from. -/
theorem Content.collected_ok {c : Content D E} {collected : Collected D}
    (h : c.collected = .ok collected) :
    c.result = .ok collected.trailers ∧
      collected.bufs.bufs = c.items.filter Buf.hasRemaining ∧
      collected.bufs.NonEmpty ∧ collected.bufs.held = c.bytes := by
  rcases c with ⟨ds, _ | ta⟩
  · cases h
  · cases h
    refine ⟨rfl, rfl, ?_, flatMap_filter ds⟩
    intro d hd
    exact (List.mem_filter.mp hd).2

variable [BytesMut] [LawfulBytesMut]

/-- Its bytes can be had when they fit one allocation, or lie in one frame. -/
theorem Content.toBytes_iff {c : Content D E} {collected : Collected D}
    (h : c.collected = .ok collected) :
    (∀ ar, collected.toBytes ar = .ok c.bytes) ↔
      c.total ≤ isizeMax ∨ (c.items.filter Buf.hasRemaining).length ≤ 1 := by
  obtain ⟨-, hbufs, hnonempty, hheld⟩ := collected_ok h
  have hiff := Collected.toBytes_iff hnonempty
  rwa [hheld, hbufs, length_bytes] at hiff

end Bytes

end Contents

/-! ## Streaming the data -/

namespace BodyDataStream

section

variable [Foreign] {B D E : Type} [Body B D E]

theorem awaits_content {b : B} {c : Content D E} (hb : Body.Delivers b c) :
    ∃ b', AwaitsAll Steps (new b) c.dataAnswers (new b') ∧ Body.Concluded c.result b' ∧
      AwaitsAll Body.Steps b c.polled b' := by
  induction hb with
  | @last b x r b' hawait hx hconcluded =>
      rw [Item.split_eq_inr] at hx
      rcases hx with ⟨err, rfl, rfl⟩ | ⟨ta, hends, rfl⟩
      · have herror := (relays.passes ()).awaits_of_pure hawait rfl
        exact ⟨b', .cons (awaits_loops_iff.mpr (.ready herror)) (.nil _), hconcluded,
          .cons hawait (.nil _)⟩
      · cases hends with
        | finish =>
            have hend := (relays.passes ()).awaits_of_pure hawait rfl
            exact ⟨b', .cons (awaits_loops_iff.mpr (.ready hend)) (.nil _), hconcluded,
              .cons hawait (.nil _)⟩
        | trailers map =>
            have hended : Body.Ended b' := hconcluded map rfl
            obtain ⟨t, b'', hfinish, hlater⟩ := Stays.step (Call.steps_functional _) hended
            have hskip := (relays.passes ()).awaits_of_pure hawait rfl
            have hend := (relays.passes ()).awaits_of_pure (.ready hfinish) rfl
            have hloop := awaits_loops_of_again hskip (awaits_loops_iff.mpr (.ready hend))
            exact ⟨b'', .cons hloop (.nil _), fun _ _ => hlater,
              .cons hawait (.cons (.ready hfinish) (.nil _))⟩
  | @item b x d b₁ c hawait hx _ ih =>
      rw [Item.split_eq_inl] at hx
      subst hx
      obtain ⟨b', hrest, hconcluded, hpolled⟩ := ih
      have hitem := (relays.passes ()).awaits_of_pure hawait rfl
      exact ⟨b', .cons (awaits_loops_iff.mpr (.ready hitem)) hrest, hconcluded,
        .cons hawait hpolled⟩

/-- The data stream of an expression gives its data, and then its end or its error. -/
theorem streams_content [Buf D] {b : B} {c : Content D E} (h : Denotes b c) :
    Gives Steps c.dataAnswers (fun self => Body.Concluded c.result self.body) (new b) := by
  obtain ⟨b', hall, hconcluded, -⟩ := awaits_content h.delivers
  exact hall.gives (Call.loops_functional _) hconcluded

end

/-- Streaming two chunks and trailers. -/
theorem streams_content_collected :
    Gives Steps ([some (.ok ⟨[1], by decide⟩), some (.ok ⟨[2], by decide⟩), none] :
        List (Option (Except Infallible Bytes)))
      (fun self => Body.Concluded (.ok Collected.framed.trailers) self.body)
      (new Collected.framed) :=
  streams_content (.collected Collected.framed)

end BodyDataStream

/-! ## Collecting within a limit -/

section Limit

variable [Foreign] {D E : Type} [Buf D] [Into E BoxError]

omit [Into E BoxError] in
theorem Content.total_cons (d : D) (c : Content D E) :
    total (c.cons d : Content D E) = Buf.remaining d + c.total := by
  simp [total, Script.cons]

/-- Data within the limit passes, and takes its share of the limit. -/
theorem Content.limited_cons_of_le {d : D} {limit : ℕ} (h : Buf.remaining d ≤ limit)
    (c : Content D E) :
    limited limit (c.cons d) = (limited (limit - Buf.remaining d) c).cons d :=
  Script.scan_cons_inl (if_neg (Nat.not_lt_of_le h)) c

theorem Content.limited_cons_of_lt {d : D} {limit : ℕ} (h : limit < Buf.remaining d)
    (c : Content D E) :
    limited limit (c.cons d) =
      (pure (.error (Into.into LengthLimitError.lengthLimitError)) : Script D _) :=
  Script.scan_cons_inr (if_pos h) c

/-- Within the limit the content is unchanged. -/
theorem Content.limited_of_le {c : Content D E} {limit : ℕ} (h : c.total ≤ limit) :
    c.limited limit = c.mapErr Into.into := by
  induction c using Script.cons_induction generalizing limit with
  | pure r => rfl
  | cons d c ih =>
      rw [total_cons] at h
      rw [limited_cons_of_le (by omega), ih (by omega)]
      rfl

/-- Over the limit the content is cut off, with the error of the limit. -/
theorem Content.limited_of_lt {c : Content D E} {limit : ℕ} (h : limit < c.total) :
    (c.limited limit).result = .error (Into.into LengthLimitError.lengthLimitError) := by
  induction c using Script.cons_induction generalizing limit with
  | pure r => simp [total, Script.pure_def] at h
  | cons d c ih =>
      rw [total_cons] at h
      by_cases hd : limit < Buf.remaining d
      · rw [limited_cons_of_lt hd]
        rfl
      · rw [limited_cons_of_le (Nat.le_of_not_lt hd)]
        exact ih (by omega)

end Limit

namespace Collect

section

variable [Foreign] {B D E : Type} [Body B D E] [Buf D] [LawfulBuf D] [BytesMut] [LawfulBytesMut]

/-- Collecting an expression resolves to its content, or to its error.  What was
collected is again a body, with the data frames that are not empty; and its bytes
can be had in every build, exactly when they fit one allocation or lie in one frame. -/
theorem resolves_content {b : B} {c : Content D E} (h : Denotes b c) :
    Gives Steps [c.collected] (fun _ => True) (new b) ∧
      ∀ collected, c.collected = .ok collected →
        c.result = .ok collected.trailers ∧
        Body.Delivers collected ⟨c.items.filter Buf.hasRemaining, .ok collected.trailers⟩ ∧
        ((∀ ar, collected.toBytes ar = .ok c.bytes) ↔
          c.total ≤ isizeMax ∨ (c.items.filter Buf.hasRemaining).length ≤ 1) := by
  constructor
  · obtain ⟨me', hawait, -⟩ := awaits_content h.delivers .empty
    have hall : AwaitsAll Steps (new b) [c.collected] me' := .cons hawait (.nil _)
    exact hall.gives (Call.loops_functional _) trivial
  · intro collected hcollected
    obtain ⟨hresult, hbufs, -, -⟩ := Content.collected_ok hcollected
    refine ⟨hresult, ?_, Content.toBytes_iff hcollected⟩
    rw [← hbufs]
    exact Collected.delivers collected

/-- Collecting an expression within a limit resolves to its content if that is within
the limit, and to the error of the limit otherwise, whatever the content ends with.  What
it resolves to holds all bytes, no more than the limit, and they can be had in every build
when the limit is one that an allocation can have. -/
theorem resolves_limited [Into E BoxError] {b : B} {c : Content D E} (h : Denotes b c) (limit : ℕ) :
    Gives Steps
        [if c.total ≤ limit then (c.mapErr Into.into).collected
          else .error (Into.into LengthLimitError.lengthLimitError)]
        (fun _ => True) (new (Limited.new b limit)) ∧
      ∀ (collected : Collected D) me',
        Awaits Steps (new (Limited.new b limit)) (.ok collected) me' →
        collected.bufs.held = c.bytes ∧ c.bytes.length ≤ limit ∧
          (limit ≤ isizeMax → ∀ ar, collected.toBytes ar = .ok c.bytes) := by
  obtain ⟨me', hawait, -⟩ := awaits_content (Denotes.limited limit h).delivers .empty
  have houtcome : (c.limited limit).collected =
      if c.total ≤ limit then (c.mapErr Into.into).collected
        else .error (Into.into LengthLimitError.lengthLimitError) := by
    by_cases hle : c.total ≤ limit
    · rw [if_pos hle, Content.limited_of_le hle]
    · rw [if_neg hle, Content.collected, Content.collectedInto,
        Content.limited_of_lt (Nat.lt_of_not_le hle)]
      rfl
  constructor
  · rw [← houtcome]
    have hall : AwaitsAll Steps (new (Limited.new b limit)) [(c.limited limit).collected] me' :=
      .cons hawait (.nil _)
    exact hall.gives (Call.loops_functional _) trivial
  · intro collected me₁ hcollect
    obtain ⟨hok, -⟩ := hcollect.unique (Call.loops_functional _) hawait
    have hcollected : .ok collected = (c.limited limit).collected := hok
    rw [houtcome] at hcollected
    by_cases hle : c.total ≤ limit
    · rw [if_pos hle] at hcollected
      obtain ⟨-, -, -, hheld⟩ := Content.collected_ok hcollected.symm
      refine ⟨hheld, by rwa [Content.length_bytes], fun hlimit => ?_⟩
      exact (Content.toBytes_iff hcollected.symm).mpr (.inl (Nat.le_trans hle hlimit))
    · rw [if_neg hle] at hcollected
      cases hcollected

end

/-- Collecting a chain of two chunks, of which the first was made a stream and a body again
and the second has trailers. -/
theorem resolves_content_chain :
    ∃ collected : Collected Bytes,
      Gives Steps [(.ok collected : Except Infallible (Collected Bytes))] (fun _ => True)
        (new (Chain.new
          (StreamBody.new (BodyStream.new (Full.new (⟨[1, 2], by decide⟩ : Bytes))))
          (WithTrailers.new (Full.new (⟨[3], by decide⟩ : Bytes))
            (⟨some (some (.ok fun _ => [4]))⟩ :
              Ready (Option (Except Infallible HeaderMap)))))) ∧
      collected.trailers = some (fun _ => [4]) ∧
      ∀ ar, collected.toBytes ar = .ok [1, 2, 3] := by
  have hready : Awaits Future.Steps
      (⟨some (some (.ok fun _ => [4]))⟩ : Ready (Option (Except Infallible HeaderMap)))
      (some (.ok fun _ => [4])) ⟨none⟩ := .ready (t := []) rfl
  have hfirst : Denotes (Full.new (⟨[1, 2], by decide⟩ : Bytes)) (.chunk _) := .full _
  have hsecond : Denotes (Full.new (⟨[3], by decide⟩ : Bytes)) (.chunk _) := .full _
  obtain ⟨hgives, hcollected⟩ :=
    resolves_content (.chain hfirst.streamed (.withTrailers hsecond hready))
  obtain ⟨-, -, hbytes⟩ := hcollected _ rfl
  exact ⟨_, hgives, rfl, hbytes.mpr (.inl (by decide))⟩

/-- Three bytes within a limit of three, and of two. -/
theorem resolves_limited_chain :
    (∃ collected : Collected Bytes,
      Gives Steps [(.ok collected : Except BoxError (Collected Bytes))] (fun _ => True)
          (new (Limited.new (Full.new (⟨[1, 2, 3], by decide⟩ : Bytes)) 3)) ∧
        collected.toBytes .checked = .ok [1, 2, 3]) ∧
      Gives Steps [(.error "length limit exceeded" : Except BoxError (Collected Bytes))]
        (fun _ => True) (new (Limited.new (Full.new (⟨[1, 2, 3], by decide⟩ : Bytes)) 2)) := by
  have hfull : Denotes (Full.new (⟨[1, 2, 3], by decide⟩ : Bytes)) (.chunk _) := .full _
  have hcollect : Awaits Steps (new (Limited.new (Full.new (⟨[1, 2, 3], by decide⟩ : Bytes)) 3))
      (.ok ⟨⟨[⟨[1, 2, 3], by decide⟩]⟩, none⟩) ⟨none, ⟨0, ⟨none⟩⟩⟩ :=
    .ready (t := []) (loops_iff.mpr (.again (t := []) rfl (.ready (t := []) rfl)))
  obtain ⟨hwithin, hbytes⟩ := resolves_limited hfull 3
  obtain ⟨-, -, htoBytes⟩ := hbytes _ _ hcollect
  exact ⟨⟨_, hwithin, htoBytes (by decide) .checked⟩, (resolves_limited hfull 2).1⟩

end Collect

end HttpBody
