import DecafCheck.Span
/-!
# Identifiers and operator tokens

An identifier is a name together with the span where it was written; two identifiers name the same
thing when their names agree, wherever they were written. An operator token is the text of an
operator with its span; analysis only echoes it in messages.
-/

namespace DecafCheck

/-- A name as written in the source. Names are case-sensitive. -/
structure Ident where
  /-- The name itself. -/
  name : String
  /-- Where it was written. -/
  span : Span := {}
deriving DecidableEq, Repr, Inhabited

/-- An operator as written in the source: its text and where it was written. -/
structure OpToken where
  /-- The operator's text, such as `+` or `&&`. -/
  token : String
  /-- Where it was written. -/
  span : Span := {}
deriving DecidableEq, Repr, Inhabited

end DecafCheck
