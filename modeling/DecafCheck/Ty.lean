import DecafCheck.Syntax.Name
/-!
# Types

The types of the language: seven primitive types, named types (a class or an interface, referred to
by name and resolved where they are used) and array types. This file holds the type, its
predicates, its printed form and two comparisons that need no declarations:

* `Ty.sameAs`: the same type, wherever its names were written;
* `Ty.equivByName`: named types by name, arrays by their elements, primitives only to themselves.

Comparison against declarations lives with the analyser (`DecafCheck.Analysis.Hierarchy`).
-/

namespace DecafCheck

/-- A type of the language. -/
inductive Ty where
  /-- Integers. -/
  | int
  /-- Floating-point numbers. -/
  | double
  /-- Truth values. -/
  | bool
  /-- Strings. -/
  | string
  /-- The type of expressions that yield no value. -/
  | void
  /-- The type of the `null` literal. -/
  | null
  /-- The type of an expression that is already known to be ill-typed. -/
  | error
  /-- A class or interface type, by the name it was written with. -/
  | named (id : Ident)
  /-- Arrays of `elem`. -/
  | array (elem : Ty)
deriving DecidableEq, Repr, Inhabited

namespace Ty

/-- The seven primitive types. -/
def isPrimitive : Ty → Bool
  | named _ | array _ => false
  | _ => true

/-- `int` and `double`. -/
def isNumeric : Ty → Bool
  | int | double => true
  | _ => false

/-- The type of ill-typed expressions. -/
def isError : Ty → Bool
  | error => true
  | _ => false

/-- The type of `null`. -/
def isNull : Ty → Bool
  | null => true
  | _ => false

/-- Class, interface and array types: the types whose values may be `null`. -/
def isReference : Ty → Bool
  | named _ | array _ => true
  | _ => false

/-- The types a `Print` statement accepts: `int`, `bool` and `string`. -/
def isPrintable : Ty → Bool
  | int | bool | string => true
  | _ => false

/-- The identifier of a named type. -/
def namedId? : Ty → Option Ident
  | named id => some id
  | _ => none

/-- The element type of an array type. -/
def elem? : Ty → Option Ty
  | array t => some t
  | _ => none

/-- The printed form: primitives by their word, a named type by its name, an array as its
element followed by `[]`. -/
def render : Ty → String
  | int => "int"
  | double => "double"
  | bool => "bool"
  | string => "string"
  | void => "void"
  | null => "null"
  | error => "error"
  | named id => id.name
  | array t => t.render ++ "[]"

/-- The same type, wherever its names were written: identifiers are compared by name only. -/
def sameAs : Ty → Ty → Bool
  | int, int | double, double | bool, bool | string, string => true
  | void, void | null, null | error, error => true
  | named a, named b => a.name == b.name
  | array a, array b => a.sameAs b
  | _, _ => false

/-- Equivalence without declarations: a named type is equivalent to a named type of the same name,
an array type to an array type of equivalent elements, and a primitive type to itself only. -/
def equivByName : Ty → Ty → Bool
  | named a, named b => a.name == b.name
  | array a, array b => a.equivByName b
  | named _, _ | array _, _ => false
  | a, b => a.sameAs b

example : (array (array int)).render = "int[][]" := by decide
example : (named ⟨"Shape", Span.point 1 1⟩).sameAs (named ⟨"Shape", Span.point 7 3⟩) = true := by decide

end Ty

end DecafCheck
