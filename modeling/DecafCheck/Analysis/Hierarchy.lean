import DecafCheck.Analysis.Scopes
/-!
# The class hierarchy and the relations between types

A named type means the class or interface its name finds from the node where the type is used;
so two classes of one name in different scopes are different types. On top of lookup this file
builds:

* `classChain`: a class and its superclasses, nearest first, stopping before a class repeats;
* `isSubclassOf` and `implementsIface`, read off the chain;
* `equivalent`: named types by the declarations they find, or by name when either finds none;
  arrays by their elements; primitives only to themselves;
* `compatible`: whether a value of one type may stand where another is expected;
* the checks of declared types, of `extends` and `implements`, of overriding methods, and of
  field access.
-/

namespace DecafCheck

namespace Analysis

variable (t : Tree)

/-- The superclasses of `c`, nearest first, stopping before one of `seen` or of the list itself
repeats. -/
def chainFrom (seen : List Nat) (c : Nat) : AnalysisM (List Nat) := do
  match ← superclassOf t c with
  | none => return []
  | some next =>
    if hs : next ∈ seen then return []
    -- a superclass is a class declaration, so it lies in the tree
    else if hn : next < t.size then
      have := t.unseen_cons_lt hn hs
      return next :: (← chainFrom (next :: seen) next)
    else return []
termination_by t.unseen seen
decreasing_by exact this

/-- Class `c` and its superclasses, nearest first, up to the first repetition. -/
def classChain (c : Nat) : AnalysisM (List Nat) := do
  return c :: (← chainFrom t [c] c)

/-- Whether `sub` is `sup` or one of its subclasses. -/
def isSubclassOf (sub sup : Nat) : AnalysisM Bool := do
  return (← classChain t sub).contains sup

/-- Whether one of `names`, looked up from `p`, finds `iface`. -/
def namesFind (p iface : Nat) : List Ident → AnalysisM Bool
  | [] => return false
  | id :: rest => do
    if (← findDecl t p id.name true) == some iface then return true
    else namesFind p iface rest

/-- Whether one of `classes` declares that it implements `iface`. -/
def anyImplements (iface : Nat) : List Nat → AnalysisM Bool
  | [] => return false
  | c :: rest => do
    match (t.kindAt c).cls?, t.parentOf c with
    | some cd, some p =>
      if ← namesFind t p iface cd.interfaces then return true
      else anyImplements iface rest
    | _, _ => anyImplements iface rest

/-- Whether class `c` or one of its superclasses declares that it implements `iface`. -/
def implementsIface (c iface : Nat) : AnalysisM Bool := do
  anyImplements t iface (← classChain t c)

/-- The class or interface that `id` names at `n`. -/
def resolveNamed (n : Nat) (id : Ident) : AnalysisM (Option Nat) := do
  return (← findDecl t n id.name true).filter fun d => (t.kindAt d).isTypeDecl

/-- Type equivalence at `n`: named types are equivalent when they find the same declaration, or,
if either finds none, when their names agree; arrays when their elements are; any other type only
to itself. -/
def equivalent (n : Nat) : Ty → Ty → AnalysisM Bool
  | .named x, .named y => do
    match ← resolveNamed t n x, ← resolveNamed t n y with
    | some dx, some dy => return dx == dy
    | _, _ => return x.name == y.name
  | .array x, .array y => equivalent n x y
  | a, b => return a.equivByName b

/-- Whether a value of type `source` may stand where `target` is expected, at `n`: always when
either is the error type; `null` where a reference type or `null` is expected; an equivalent
type; and a class where one of its superclasses or one of the interfaces they implement is
expected. -/
def compatible (n : Nat) (source target : Ty) : AnalysisM Bool := do
  if source.isError || target.isError then return true
  if source.isNull then return target.isNull || target.isReference
  if ← equivalent t n source target then return true
  match source, target with
  | .named sub, .named sup =>
    let subDecl ← resolveNamed t n sub
    let supDecl ← resolveNamed t n sup
    match subDecl, supDecl with
    | some subNode, some supNode =>
      if (t.kindAt subNode).cls?.isNone then return false
      if (t.kindAt supNode).cls?.isSome then isSubclassOf t subNode supNode
      else if (t.kindAt supNode).isIface then implementsIface t subNode supNode
      else return false
    | _, _ => return false
  | _, _ => return false

/-- Whether a declared type is valid at `n`: every name in it must find a class or an interface;
the first that does not is reported. -/
def checkType (n : Nat) : Ty → AnalysisM Bool
  | .named id => do
    if (← resolveNamed t n id).isSome then return true
    report id.span (.notDeclared id.name .type)
    return false
  | .array elem => checkType n elem
  | _ => return true

/-- Checks the `extends` and `implements` names of class `c`: each must find, from the parent of
`c`, a class and an interface respectively. -/
def checkInheritance (c : Nat) : AnalysisM Unit := do
  match (t.kindAt c).cls?, t.parentOf c with
  | some cd, some p =>
    if let some sup := cd.superName then
      let found ← findDecl t p sup.name true
      unless (found.map fun d => (t.kindAt d).cls?.isSome) == some true do
        report sup.span (.notDeclared sup.name .cls)
    for id in cd.interfaces do
      let found ← findDecl t p id.name true
      unless (found.map fun d => (t.kindAt d).isIface) == some true do
        report id.span (.notDeclared id.name .iface)
  | _, _ => return

/-- Whether formals of two methods have equivalent types pairwise, at `n`; pairs that are not
both variables are passed over, and the first inequivalent pair decides. -/
def formalsAgree (n : Nat) : List Nat → List Nat → AnalysisM Bool
  | mine :: rest, theirs :: others => do
    match (t.kindAt mine).var?, (t.kindAt theirs).var? with
    | some v, some w =>
      if ← equivalent t n v.ty w.ty then formalsAgree n rest others else return false
    | _, _ => formalsAgree n rest others
  | _, _ => return true

/-- With override checks on, a method `m` of a class must keep the signature of the method of
the same name that the superclass's scope binds (its own or inherited): equivalent return types,
as many formals, and equivalent formal types. -/
def checkOverride (cfg : Config) (m : Nat) : AnalysisM Unit := do
  unless cfg.checkOverrides do return
  let some method := (t.kindAt m).fn? | return
  let some c := t.parentOf m | return
  unless (t.kindAt c).cls?.isSome do return
  let some sup ← superclassOf t c | return
  prepareScope t sup
  let inherited := (← preparedScope sup).bind (·.lookup method.name.name)
  let some other := inherited.filter (· != m) | return
  let some theirs := (t.kindAt other).fn? | return
  let retAgrees ← equivalent t m method.ret theirs.ret
  let agrees ←
    if retAgrees && method.formals.length == theirs.formals.length then
      formalsAgree t m method.formals theirs.formals
    else pure false
  unless agrees do
    report method.name.span (.overrideMismatch method.name.name)

/-- Whether a field of class `baseClass` may be read through an object at `n`. -/
def fieldAccessible (cfg : Config) (n baseClass : Nat) : AnalysisM Bool := do
  match cfg.fieldRule with
  | .unrestricted => return true
  | .anyClass => isClassScope t n true
  | .subclassOnly =>
    unless ← isClassScope t n true do return false
    match t.enclosingClass n with
    | some current => isSubclassOf t baseClass current
    | none => return false

end Analysis

end DecafCheck
