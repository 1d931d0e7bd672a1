import DecafCheck.Ty
/-!
# Diagnostics

A `Fault` is one kind of violation with what it is about; `Fault.message` gives its text. A
`Diagnostic` is a fault at a span. The `Log` keeps diagnostics in the order they are reported,
counts every report and, when given a limit, stops keeping records once it holds that many while
the count goes on. `Log.rejection` is the text shown when a program is rejected.
-/

namespace DecafCheck

/-- What a lookup that found nothing was looking for. -/
inductive Sought where
  /-- A variable. -/
  | var
  /-- A function. -/
  | fn
  /-- A class. -/
  | cls
  /-- An interface. -/
  | iface
  /-- A class or an interface named as a type. -/
  | type
deriving DecidableEq, Repr

namespace Sought

/-- The word for what was sought. -/
def word : Sought → String
  | var => "variable"
  | fn => "function"
  | cls => "class"
  | iface => "interface"
  | type => "type"

end Sought

/-- The violations the checker reports. -/
inductive Fault where
  /-- No declaration of the sought kind is visible under this name. -/
  | notDeclared (name : String) (sought : Sought)
  /-- A binary operator does not apply to these operand types. -/
  | operandsMismatch (op : String) (left right : Ty)
  /-- A unary operator does not apply to this operand type. -/
  | operandMismatch (op : String) (operand : Ty)
  /-- Subscript applied to something that is not an array. -/
  | bracketsOnNonArray
  /-- An array subscript that is not an integer. -/
  | subscriptNotInt
  /-- An array size that is not an integer. -/
  | newArraySizeNotInt
  /-- The base has no field or method of this name. -/
  | noSuchField (field : String) (base : Ty)
  /-- The field exists but may not be reached from here. -/
  | inaccessibleField (field : String) (base : Ty)
  /-- A call with the wrong number of arguments. -/
  | argCountMismatch (function : String) (expected given : Nat)
  /-- The argument at position `index` (from 1) has the wrong type. -/
  | argMismatch (function : String) (index : Nat) (given expected : Ty)
  /-- `this` outside any class. -/
  | thisOutsideClass
  /-- A second declaration of a name in one scope; `previous` is where the first stands. -/
  | declConflict (name : String) (previous : Span)
  /-- The class extends itself, directly or through others. -/
  | cyclicInheritance (cls : String)
  /-- A method whose signature differs from the one it overrides. -/
  | overrideMismatch (method : String)
  /-- A condition that is not boolean. -/
  | testNotBool
  /-- `break` outside any loop of its function. -/
  | breakOutsideLoop
  /-- A returned value of the wrong type. -/
  | returnMismatch (given expected : Ty)
  /-- A printed value (at position `index`, from 1) of a type that cannot be printed. -/
  | printArgMismatch (index : Nat) (given : Ty)
deriving DecidableEq, Repr

namespace Fault

/-- The text of the fault. -/
def message : Fault → String
  | notDeclared name sought =>
    let word := sought.word
    s!"No declaration found for {word} '{name}'"
  | operandsMismatch op left right =>
    let l := left.render
    let r := right.render
    s!"Incompatible operands: {l} {op} {r}"
  | operandMismatch op operand =>
    let t := operand.render
    s!"Incompatible operand: {op} {t}"
  | bracketsOnNonArray => "[] can only be applied to arrays"
  | subscriptNotInt => "Array subscript must be an integer"
  | newArraySizeNotInt => "Size for NewArray must be an integer"
  | noSuchField field base =>
    let b := base.render
    s!"{b} has no such field '{field}'"
  | inaccessibleField field base =>
    let b := base.render
    s!"{b} field '{field}' only accessible within class scope"
  | argCountMismatch function expected given =>
    s!"Function '{function}' expects {expected} arguments but {given} given"
  | argMismatch function index given expected =>
    let g := given.render
    let e := expected.render
    s!"Incompatible argument {index} of '{function}': {g} given, {e} expected"
  | thisOutsideClass => "'this' is only valid within class scope"
  | declConflict name previous =>
    let line := previous.line
    s!"Declaration of '{name}' here conflicts with declaration on line {line}"
  | cyclicInheritance cls => s!"Class '{cls}' is part of an inheritance cycle"
  | overrideMismatch method => s!"Method '{method}' must match inherited type signature"
  | testNotBool => "Test expression must have boolean type"
  | breakOutsideLoop => "break is only allowed inside a loop"
  | returnMismatch given expected =>
    let g := given.render
    let e := expected.render
    s!"Incompatible return: {g} given, {e} expected"
  | printArgMismatch index given =>
    let g := given.render
    s!"Incompatible argument {index}: {g} given, int/bool/string expected"

end Fault

/-- A fault at a span. -/
structure Diagnostic where
  /-- Where the fault is. -/
  span : Span
  /-- What the fault is. -/
  fault : Fault
deriving DecidableEq, Repr

namespace Diagnostic

/-- The two-line text of a diagnostic: the line, then the message. -/
def render (d : Diagnostic) : String :=
  let line := d.span.line
  let msg := d.fault.message
  s!"*** Error line {line}.\n*** {msg}"

end Diagnostic

/-- Reported diagnostics: the kept records in report order, and the count of all reports. -/
structure Log where
  /-- The kept records, oldest first. -/
  records : List Diagnostic := []
  /-- How many diagnostics were reported, kept or not. -/
  count : Nat := 0
  /-- At most this many records are kept. -/
  limit : Option Nat := none
deriving Repr

namespace Log

/-- An empty log keeping at most `limit` records. -/
def withLimit (limit : Option Nat) : Log := { limit }

/-- Whether the log keeps a further record. -/
def hasRoom (log : Log) : Bool :=
  match log.limit with
  | some limit => log.records.length < limit
  | none => true

/-- Reports a diagnostic: it is counted, and kept while there is room. -/
def report (log : Log) (d : Diagnostic) : Log :=
  { log with
    count := log.count + 1
    records := if log.hasRoom then log.records ++ [d] else log.records }

/-- Whether nothing was reported. -/
def isEmpty (log : Log) : Bool := log.count == 0

/-- The text shown when a program is rejected: the count, then each kept record. -/
def rejection (log : Log) : String :=
  let count := log.count
  let report := "\n".intercalate (log.records.map Diagnostic.render)
  s!"Semantic analysis failed with {count} error(s):\n{report}"

@[simp] theorem count_report (log : Log) (d : Diagnostic) : (log.report d).count = log.count + 1 :=
  rfl

example : (((withLimit (some 1)).report ⟨{}, .testNotBool⟩).report ⟨{}, .thisOutsideClass⟩).records
    = [⟨{}, .testNotBool⟩] := by decide

end Log

end DecafCheck
