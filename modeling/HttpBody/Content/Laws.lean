import HttpBody.Content.Consumers

/-!
# Laws of composition

What a combinator does to a chain, it does to the bodies of the chain: the operations on
contents distribute over the chain of two contents, and so the bodies give the same
answers up to the first terminal one.  Their hints, and what they answer after it, may
differ.
-/

namespace HttpBody

open Support

section Contents

variable [Foreign] {D D' E E' : Type}

namespace Content

theorem chain_error (items : List D) (err : E) (b : Content D E) :
    chain ⟨items, .error err⟩ b = ⟨items, .error err⟩ :=
  Script.ext (List.append_nil items) rfl

theorem chain_ok (items : List D) (ta : Option HeaderMap) (b : Content D E) :
    chain (⟨items, .ok ta⟩ : Content D E) b =
      ⟨items ++ b.items, b.result.map (mergeTrailers ta)⟩ :=
  rfl

theorem mapErr_chain (f : E → E') (a b : Content D E) :
    (a.chain b).mapErr f = (a.mapErr f).chain (b.mapErr f) := by
  rcases a with ⟨items, err | ta⟩
  · rw [chain_error]
    exact (chain_error items (f err) (b.mapErr f)).symm
  · rcases b with ⟨items', err | tb⟩
    · rfl
    · rfl

theorem withTrailers_chain [LawfulHeaderMap] (outcome : Option (Except E HeaderMap))
    (a b : Content D E) : (a.chain b).withTrailers outcome = a.chain (b.withTrailers outcome) := by
  rcases a with ⟨items, err | ta⟩
  · rw [chain_error, chain_error]
    rfl
  · rcases b with ⟨items', err | tb⟩
    · rfl
    · rcases outcome with _ | (err | map)
      · rfl
      · rfl
      · have hmerge := mergeTrailers_assoc ta tb (some map)
        exact Script.ext rfl (congrArg Except.ok hmerge)

/-- A closure that maps the data only maps each item. -/
theorem mapFrame_mapData (g : D → D') (c : Content D E) :
    c.mapFrame (Frame.mapData g : Frame D → Frame D') = (⟨c.items.map g, c.result⟩ :
      Content D' E) := by
  rcases c with ⟨items, r⟩
  induction items with
  | nil => rcases r with err | (_ | map) <;> rfl
  | cons d items ih => exact congrArg (Script.cons (g d)) ih

theorem mapFrame_chain (g : D → D') (a b : Content D E) :
    ((a.chain b).mapFrame (Frame.mapData g : Frame D → Frame D') : Content D' E) =
      (a.mapFrame (Frame.mapData g : Frame D → Frame D')).chain
        (b.mapFrame (Frame.mapData g : Frame D → Frame D')) := by
  simp only [mapFrame_mapData]
  rcases a with ⟨items, err | ta⟩
  · rw [chain_error, chain_error]
  · rw [chain_ok, chain_ok, List.map_append]

section Limited

variable [Buf D] [Into E BoxError]

/-- The limit does not look at how a content ends. -/
theorem limited_conclude (n : ℕ) {f : Conclusion E → Conclusion E}
    {g : Conclusion BoxError → Conclusion BoxError} (hfail : ∀ err, g (.error err) = .error err)
    (hlast : ∀ r, (f r).mapError Into.into = g (r.mapError Into.into)) (c : Content D E) :
    (c.conclude f).limited n = (c.limited n).conclude g := by
  induction c using Script.cons_induction generalizing n with
  | pure r => exact Script.ext rfl (hlast r)
  | cons d c ih =>
      change limited n (Script.cons d (conclude f c)) = _
      by_cases hd : n < Buf.remaining d
      · rw [limited_cons_of_lt hd, limited_cons_of_lt hd]
        exact Script.ext rfl (hfail _).symm
      · have hle := Nat.le_of_not_lt hd
        rw [limited_cons_of_le hle, limited_cons_of_le hle, ih]
        rfl

/-- What is left of the limit after the first content is the limit of the second. -/
theorem limited_chain (n : ℕ) (a b : Content D E) :
    (a.chain b).limited n = (a.limited n).chain (b.limited (n - a.total)) := by
  induction a using Script.cons_induction generalizing n with
  | pure r =>
      rcases r with err | ta
      · rfl
      · refine limited_conclude n (f := fun r => r.map (mergeTrailers ta))
          (g := fun r => r.map (mergeTrailers ta)) (fun _ => rfl) (fun r => ?_) b
        cases r <;> rfl
  | cons d a ih =>
      change limited n (Script.cons d (chain a b)) = _
      by_cases hd : n < Buf.remaining d
      · rw [limited_cons_of_lt hd, limited_cons_of_lt hd]
        rfl
      · have hle := Nat.le_of_not_lt hd
        rw [limited_cons_of_le hle, limited_cons_of_le hle, ih, total_cons, Nat.sub_sub]
        rfl

end Limited

end Content

end Contents

/-! ## Bodies -/

section Bodies

variable [Foreign] {A B D D' E E' F : Type} [Buf D] [Buf D'] [Body A D E] [Body B D E] {a : A}
  {b : B} {ca cb : Content D E}

/-- A limit on a chain gives the answers of a limit on its first body, and what that leaves
of it on the second. -/
theorem limited_over_chain [Into E BoxError] (n : ℕ) (ha : Denotes a ca) (hb : Denotes b cb) :
    SameAnswers Body.Steps Body.Steps (fun o => o.isTerminal = false)
      (Limited.new (Chain.new a b) n)
      (Chain.new (Limited.new a n) (Limited.new b (n - ca.total))) :=
  (sameAnswers_iff_content (.limited n (.chain ha hb))
    (.chain (.limited n ha) (.limited (n - ca.total) hb))).mpr (Content.limited_chain n ca cb)

/-- A chain with more trailers gives the answers of a chain whose second body has them, and
one with mapped data or errors those of a chain of mapped bodies. -/
theorem combinators_over_chain [LawfulHeaderMap] [Future F (Option (Except E HeaderMap))]
    {f f' : F} {outcome : Option (Except E HeaderMap)} (ha : Denotes a ca) (hb : Denotes b cb)
    (hf : Awaits Future.Steps f outcome f') (g : E → E') (k : D → D') :
    SameAnswers Body.Steps Body.Steps (fun o => o.isTerminal = false)
        (WithTrailers.new (Chain.new a b) f) (Chain.new a (WithTrailers.new b f)) ∧
      SameAnswers Body.Steps Body.Steps (fun o => o.isTerminal = false)
        (MapErr.new (Chain.new a b) g) (Chain.new (MapErr.new a g) (MapErr.new b g)) ∧
      SameAnswers Body.Steps Body.Steps (fun o => o.isTerminal = false)
        (MapFrame.new (Chain.new a b) (Frame.mapData k : Frame D → Frame D'))
        (Chain.new (MapFrame.new a (Frame.mapData k : Frame D → Frame D'))
          (MapFrame.new b (Frame.mapData k : Frame D → Frame D'))) := by
  have hkinds := keepsKinds_mapData k
  refine ⟨?_, ?_, ?_⟩
  · exact (sameAnswers_iff_content (.withTrailers (.chain ha hb) hf)
      (.chain ha (.withTrailers hb hf))).mpr (Content.withTrailers_chain outcome ca cb)
  · exact (sameAnswers_iff_content (.mapErr g (.chain ha hb))
      (.chain (.mapErr g ha) (.mapErr g hb))).mpr (Content.mapErr_chain g ca cb)
  · exact (sameAnswers_iff_content (.mapFrame hkinds (.chain ha hb))
      (.chain (.mapFrame hkinds ha) (.mapFrame hkinds hb))).mpr (Content.mapFrame_chain k ca cb)

end Bodies

/-- A limit of two bytes is used up by the first chunk. -/
theorem limited_over_chain_full :
    SameAnswers Body.Steps Body.Steps (fun o => o.isTerminal = false)
      (Limited.new (Chain.new (Full.new (⟨[1, 2], by decide⟩ : Bytes))
        (Full.new (⟨[3], by decide⟩ : Bytes))) 2)
      (Chain.new (Limited.new (Full.new (⟨[1, 2], by decide⟩ : Bytes)) 2)
        (Limited.new (Full.new (⟨[3], by decide⟩ : Bytes)) 0)) := by
  have hfirst : Denotes (Full.new (⟨[1, 2], by decide⟩ : Bytes)) (.chunk _) := .full _
  have hsecond : Denotes (Full.new (⟨[3], by decide⟩ : Bytes)) (.chunk _) := .full _
  exact limited_over_chain 2 hfirst hsecond

/-- Two chunks with trailers from a future, and with mapped errors. -/
theorem combinators_over_chain_full :
    SameAnswers Body.Steps Body.Steps (fun o => o.isTerminal = false)
        (WithTrailers.new (Chain.new (Full.new (⟨[1, 2], by decide⟩ : Bytes))
          (Full.new (⟨[3], by decide⟩ : Bytes)))
          (⟨some (some (.ok fun _ => [4]))⟩ : Ready (Option (Except Infallible HeaderMap))))
        (Chain.new (Full.new (⟨[1, 2], by decide⟩ : Bytes))
          (WithTrailers.new (Full.new (⟨[3], by decide⟩ : Bytes))
            (⟨some (some (.ok fun _ => [4]))⟩ : Ready (Option (Except Infallible HeaderMap))))) ∧
      SameAnswers Body.Steps Body.Steps (fun o => o.isTerminal = false)
        (MapErr.new (Chain.new (Full.new (⟨[1, 2], by decide⟩ : Bytes))
          (Full.new (⟨[3], by decide⟩ : Bytes))) (fun e : Infallible => e))
        (Chain.new (MapErr.new (Full.new (⟨[1, 2], by decide⟩ : Bytes)) fun e : Infallible => e)
          (MapErr.new (Full.new (⟨[3], by decide⟩ : Bytes)) fun e : Infallible => e)) := by
  have hfirst : Denotes (Full.new (⟨[1, 2], by decide⟩ : Bytes)) (.chunk _) := .full _
  have hsecond : Denotes (Full.new (⟨[3], by decide⟩ : Bytes)) (.chunk _) := .full _
  have hready : Awaits Future.Steps
      (⟨some (some (.ok fun _ => [4]))⟩ : Ready (Option (Except Infallible HeaderMap)))
      (some (.ok fun _ => [4])) ⟨none⟩ := .ready (t := []) rfl
  obtain ⟨htrailers, herr, -⟩ := combinators_over_chain hfirst hsecond hready
    (fun e : Infallible => e) (fun d : Bytes => d)
  exact ⟨htrailers, herr⟩

end HttpBody
