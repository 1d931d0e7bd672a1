/-!
# Analysis settings

Three settings change what the checker accepts: who may read a field through an object, whether
an overriding method must keep the inherited signature, and how many diagnostics are kept.
-/

namespace DecafCheck

/-- Where `base.field` may be read. -/
inductive FieldRule where
  /-- Inside a class `C` only, and only when the base's class is `C` or a subclass of it. -/
  | subclassOnly
  /-- Inside any class. -/
  | anyClass
  /-- Anywhere. -/
  | unrestricted
deriving DecidableEq, Repr, Inhabited

/-- The settings of one analysis. -/
structure Config where
  /-- Where fields may be read through an object. -/
  fieldRule : FieldRule := .subclassOnly
  /-- Whether an overriding method must keep the inherited signature. -/
  checkOverrides : Bool := true
  /-- At most this many diagnostics are kept; all are counted. -/
  errorLimit : Option Nat := none
deriving DecidableEq, Repr, Inhabited

end DecafCheck
