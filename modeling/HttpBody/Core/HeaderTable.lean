import HttpBody.Core.Frame

/-!
# Header maps as tables

A header map that is a table of values has the documented behaviour, so what is
proved from that behaviour applies to some header map.
-/

namespace HttpBody

/-- The values under every name. -/
abbrev HeaderTable := ℕ → List ℕ

namespace HeaderTable

/-- The names of `b` replace those of `a`. -/
def extend (a b : HeaderTable) : HeaderTable :=
  fun name => if (b name).isEmpty then a name else b name

/-- Header tables, with errors boxed as texts. -/
instance (priority := low) foreign : Foreign where
  HeaderMap := HeaderTable
  HeaderName := ℕ
  HeaderValue := ℕ
  getAll map name := map name
  extend := extend
  BoxError := String
  boxLengthLimitError _ := "length limit exceeded"

instance : LawfulHeaderMap where
  getAll_extend _ _ _ := rfl
  ext h := funext h

end HeaderTable

end HttpBody
