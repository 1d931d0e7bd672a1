import DecafCheck.Analysis.Hierarchy
/-!
# Typing expressions and checking declarations and statements

`getType` gives the type of a node, computed once and remembered. An expression is typed after
all its operands, in source order; if any operand is ill-typed the expression is ill-typed too and
nothing more is reported about it, so one fault is reported once and not again by every
enclosing expression. A declaration or statement used as an expression is checked; a variable
declaration then has its declared type and anything else has type `void`.

`check` checks a node once. For a declaration or statement it does what the node needs before
its children (prepare the scope it owns, check its declared types), then handles each child by
the child's `Role`, then does what is left (override and `break` checks). An expression is checked
by typing it.

The recursion ends because every call goes to a child, which was built before its parent
(`Tree.lt_of_mem_children`), or to the same node at a lower rank: `check` → `getType` → `infer`
→ `checkNode`.
-/

namespace DecafCheck

/-- What the checker does with a child of a declaration or a statement. -/
inductive Role where
  /-- The child is checked as a whole. -/
  | checked
  /-- The child is a condition: it must have type `bool`. -/
  | condition
  /-- The child is printed, at position `index` from 1: it must be an `int`, a `bool` or a
  `string`. -/
  | printed (index : Nat)
  /-- The child is returned: it must fit the return type of the enclosing function. -/
  | returned
deriving DecidableEq, Repr

namespace NodeKind

/-- The arguments of a `Print`, numbered from `i`. -/
def printRoles (i : Nat) : List Nat → List (Nat × Role)
  | [] => []
  | a :: rest => (a, .printed i) :: printRoles (i + 1) rest

/-- Each child with the way it is checked, in source order. Expressions have none here: they are
typed, operands first. -/
def roles : NodeKind → List (Nat × Role)
  | stmt (.cond test thenBranch elseBranch) =>
    (test, .condition) :: (thenBranch, .checked) :: elseBranch.toList.map (·, .checked)
  | stmt (.whileLoop test body) => [(test, .condition), (body, .checked)]
  | stmt (.forLoop init test step body) =>
    [(init, .checked), (test, .condition), (step, .checked), (body, .checked)]
  | stmt (.ret value) => [(value, .returned)]
  | stmt (.print args) => printRoles 1 args
  | expr _ => []
  | k => k.children.map (·, .checked)

theorem fst_mem_of_mem_printRoles {i x : Nat} {r : Role} {args : List Nat}
    (h : (x, r) ∈ printRoles i args) : x ∈ args := by
  induction args generalizing i with
  | nil => simp [printRoles] at h
  | cons a rest ih =>
    simp only [printRoles, List.mem_cons, Prod.mk.injEq] at h
    rcases h with ⟨rfl, _⟩ | h
    · exact List.mem_cons_self ..
    · exact List.mem_cons_of_mem a (ih h)

/-- A node with a role is a child. -/
theorem mem_children_of_mem_roles {k : NodeKind} {x : Nat} {r : Role} (h : (x, r) ∈ k.roles) :
    x ∈ k.children := by
  unfold roles at h
  split at h
  · simp only [List.mem_cons, List.mem_map, Option.mem_toList, Prod.mk.injEq] at h
    simp only [children, List.mem_cons, Option.mem_toList]
    grind
  · simp only [List.mem_cons, Prod.mk.injEq] at h
    simp only [children, List.mem_cons]
    grind
  · simp only [List.mem_cons, Prod.mk.injEq] at h
    simp only [children, List.mem_cons]
    grind
  · simp only [List.mem_cons, Prod.mk.injEq] at h
    simp only [children, List.mem_cons]
    grind
  · exact fst_mem_of_mem_printRoles h
  · simp at h
  · obtain ⟨a, ha, hx⟩ := List.mem_map.1 h
    cases hx
    exact ha

end NodeKind

namespace Analysis

variable (t : Tree) (cfg : Config)

/-- Reports that an operator does not apply to its two operand types. -/
def operandsMismatch (c : Compound) (left right : Ty) : AnalysisM Ty := do
  report c.op.span (.operandsMismatch c.op.token left right)
  return .error

/-- Reports that an operator does not apply to its one operand type. -/
def operandMismatch (c : Compound) (operand : Ty) : AnalysisM Ty := do
  report c.op.span (.operandMismatch c.op.token operand)
  return .error

/-- Reports that `base` has no field or method `name`. -/
def noSuchField (name : Ident) (base : Ty) : AnalysisM Ty := do
  report name.span (.noSuchField name.name base)
  return .error

/-- Arithmetic: two equivalent numeric operands, or one numeric operand, give their type. -/
def arithType (n : Nat) (c : Compound) : Option Ty → Option Ty → AnalysisM Ty
  | some l, some r => do
    if (← equivalent t n l r) && r.isNumeric then return r else operandsMismatch c l r
  | none, some x | some x, none => if x.isNumeric then return x else operandMismatch c x
  | none, none => return .error

/-- Comparison: a numeric left operand and an equivalent right one give `bool`. -/
def relType (n : Nat) (c : Compound) : Option Ty → Option Ty → AnalysisM Ty
  | some l, some r => do
    if l.isNumeric then
      if ← equivalent t n l r then return .bool
    operandsMismatch c l r
  | _, _ => return .error

/-- Equality: operands of which neither is `void` and one is compatible with the other give
`bool`. -/
def equalityType (n : Nat) (c : Compound) : Option Ty → Option Ty → AnalysisM Ty
  | some l, some r => do
    if l.sameAs .void || r.sameAs .void then return ← operandsMismatch c l r
    if ← compatible t n l r then return .bool
    if ← compatible t n r l then return .bool
    operandsMismatch c l r
  | _, _ => return .error

/-- Logic: boolean operands give `bool`. -/
def logicalType (c : Compound) : Option Ty → Option Ty → AnalysisM Ty
  | some l, some r =>
    if l.sameAs .bool && r.sameAs .bool then return .bool else operandsMismatch c l r
  | none, some x | some x, none =>
    if x.sameAs .bool then return .bool else operandMismatch c x
  | none, none => return .error

/-- Assignment: a value compatible with the target gives the target's type. -/
def assignType (n : Nat) (c : Compound) : Option Ty → Option Ty → AnalysisM Ty
  | some target, some value => do
    if ← compatible t n value target then return target else operandsMismatch c target value
  | _, _ => return .error

/-- `this`: the type of the nearest enclosing class. -/
def thisType (n : Nat) : AnalysisM Ty := do
  if ← isClassScope t n true then
    if let some cd := (t.enclosingClass n).bind fun c => (t.kindAt c).cls? then
      return .named cd.name
  report (t.spanAt n) .thisOutsideClass
  return .error

/-- `base[subscript]`: the element type of an array base, with an integer subscript. Both faults
are reported when both occur. -/
def indexType (base subscript : Nat) (baseTy subscriptTy : Ty) : AnalysisM Ty := do
  let elem ← match baseTy with
    | .array e => pure (some e)
    | _ => do
      report (t.spanAt base) .bracketsOnNonArray
      pure none
  unless subscriptTy.sameAs .int do
    report (t.spanAt subscript) .subscriptNotInt
    return .error
  return elem.getD .error

/-- A variable: the declared type of the variable that `name` finds at `n`. -/
def varType (n : Nat) (name : Ident) : AnalysisM Ty := do
  match (← findDecl t n name.name true).bind fun d => (t.kindAt d).var? with
  | some v => return v.ty
  | none => do
    report name.span (.notDeclared name.name .var)
    return .error

/-- `base.name`: a variable member of the base's class, readable at `n`. -/
def fieldType (n : Nat) (name : Ident) (baseTy : Ty) : AnalysisM Ty := do
  match baseTy with
  | .error => return .error
  | .named id =>
    match ← resolveNamed t n id with
    | none => do
      report id.span (.notDeclared id.name .cls)
      return .error
    | some d =>
      if (t.kindAt d).cls?.isNone then return ← noSuchField name baseTy
      match (← findDecl t d name.name false).bind fun m => (t.kindAt m).var? with
      | none => noSuchField name baseTy
      | some v =>
        if ← fieldAccessible t cfg n d then return v.ty
        report name.span (.inaccessibleField name.name baseTy)
        return .error
  | other => noSuchField name other

/-- Checks each argument against its formal, numbering from `i`: where the formal is a variable,
the argument's type must be compatible with it. Every argument is checked; the answer is whether
all passed. -/
def checkArgs (n : Nat) (name : Ident) : Nat → List Nat → List (Nat × Ty) → AnalysisM Bool
  | i, formal :: formals, (actual, given) :: rest => do
    let here ← match (t.kindAt formal).var? with
      | none => pure true
      | some v => do
        if ← compatible t n given v.ty then pure true
        else
          report (t.spanAt actual) (.argMismatch name.name i given v.ty)
          pure false
    let later ← checkArgs n name (i + 1) formals rest
    return here && later
  | _, _, _ => return true

/-- A call of function `f`: as many arguments as formals, each compatible with its formal, give
the return type. -/
def callOf (n : Nat) (name : Ident) (f : Nat) (args : List (Nat × Ty)) : AnalysisM Ty := do
  let some fd := (t.kindAt f).fn? | return .error
  if fd.formals.length != args.length then
    report name.span (.argCountMismatch name.name fd.formals.length args.length)
    return .error
  if ← checkArgs t n name 1 fd.formals args then return fd.ret
  return .error

/-- A call: of the function `name` finds at `n`, of `length` on an array, or of a method of the
base's class or interface. -/
def callType (n : Nat) (name : Ident) (baseTy : Option Ty) (args : List (Nat × Ty)) :
    AnalysisM Ty := do
  match baseTy with
  | none =>
    match (← findDecl t n name.name true).filter fun d => (t.kindAt d).fn?.isSome with
    | some f => callOf t n name f args
    | none => do
      report name.span (.notDeclared name.name .fn)
      return .error
  | some (.array elem) =>
    if name.name == "length" then
      if args.isEmpty then return .int
      report name.span (.argCountMismatch name.name 0 args.length)
      return .error
    noSuchField name (.array elem)
  | some (.named id) =>
    match ← resolveNamed t n id with
    | none => do
      report id.span (.notDeclared id.name .cls)
      return .error
    | some d =>
      match (← findDecl t d name.name false).filter fun m => (t.kindAt m).fn?.isSome with
      | some f => callOf t n name f args
      | none => noSuchField name (.named id)
  | some other => noSuchField name other

/-- `new C`: the class type, as written, if `C` finds a class. -/
def newType (n : Nat) (cls : Ident) : AnalysisM Ty := do
  let found ← findDecl t n cls.name true
  if (found.map fun d => (t.kindAt d).cls?.isSome) == some true then return .named cls
  report cls.span (.notDeclared cls.name .cls)
  return .error

/-- `NewArray(size, elem)`: an integer size and a valid element type give the array type. -/
def newArrayType (n size : Nat) (sizeTy elem : Ty) : AnalysisM Ty := do
  unless sizeTy.sameAs .int do
    report (t.spanAt size) .newArraySizeNotInt
    return .error
  unless ← checkType t n elem do return .error
  return .array elem

/-- The type of expression node `n`, given the types of its operands (none of them ill-typed). -/
def exprType (n : Nat) (typeOf : Nat → Ty) : Expr → AnalysisM Ty
  | .intLit _ | .readInt => return .int
  | .doubleLit _ => return .double
  | .boolLit _ => return .bool
  | .stringLit _ | .readLine => return .string
  | .nullLit => return .null
  | .empty => return .void
  | .arith c => arithType t n c (c.left.map typeOf) (c.right.map typeOf)
  | .rel c => relType t n c (c.left.map typeOf) (c.right.map typeOf)
  | .equality c => equalityType t n c (c.left.map typeOf) (c.right.map typeOf)
  | .logical c => logicalType c (c.left.map typeOf) (c.right.map typeOf)
  | .assign c => assignType t n c (c.left.map typeOf) (c.right.map typeOf)
  | .thisRef => thisType t n
  | .index base subscript => indexType t base subscript (typeOf base) (typeOf subscript)
  | .field none name => varType t n name
  | .field (some base) name => fieldType t cfg n name (typeOf base)
  | .call base name actuals =>
    callType t n name (base.map typeOf) (actuals.map fun a => (a, typeOf a))
  | .new cls => newType t n cls
  | .newArray size elem => newArrayType t n size (typeOf size) elem

/-- What a declaration or statement needs before its children: the scope it owns, and its
declared types and inheritance. -/
def beforeChildren (n : Nat) : NodeKind → AnalysisM Unit
  | .program _ => prepareScope t n
  | .decl (.var v) => discard <| checkType t n v.ty
  | .decl (.fn f) => do
    prepareScope t n
    discard <| checkType t n f.ret
  | .decl (.cls _) => do
    prepareScope t n
    checkInheritance t n
  | .decl (.iface _) => prepareScope t n
  | .stmt (.block _ _) => prepareScope t n
  | _ => pure ()

/-- What a declaration or statement needs after its children: a method's signature against the
one it overrides, a `break` against its loop. -/
def afterChildren (n : Nat) : NodeKind → AnalysisM Unit
  | .decl (.fn _) => checkOverride t cfg n
  | .stmt .breakLoop => unless t.insideLoop n do report (t.spanAt n) .breakOutsideLoop
  | _ => pure ()

/-- The check of a typed child `x` of statement `n` by its role. -/
def afterTyped (n x : Nat) (ty : Ty) : Role → AnalysisM Unit
  | .checked => pure ()
  | .condition =>
    unless ty.isError || ty.sameAs .bool do report (t.spanAt x) .testNotBool
  | .printed index =>
    unless ty.isError || ty.isPrintable do report (t.spanAt x) (.printArgMismatch index ty)
  | .returned =>
    match (t.enclosingFunction n).bind fun f => (t.kindAt f).fn? with
    | none => pure ()
    | some f => do
      unless ← compatible t n ty f.ret do report (t.spanAt n) (.returnMismatch ty f.ret)

mutual

/-- Checks node `n` and everything under it, once. -/
def check (n : Nat) : AnalysisM Unit := do
  if (t.kindAt n).isExpr then
    if (← get).checked.contains n then return
    modify fun m => { m with checked := m.checked.insert n }
    discard <| getType n
  else checkNode n
termination_by (n, 3)
decreasing_by
  · exact Prod.Lex.right _ (by decide)
  · exact Prod.Lex.right _ (by decide)

/-- The type of node `n`, computed once. -/
def getType (n : Nat) : AnalysisM Ty := do
  if let some ty := (← get).types[n]? then return ty
  let ty ← infer n
  modify fun m => { m with types := m.types.insert n ty }
  return ty
termination_by (n, 2)
decreasing_by exact Prod.Lex.right _ (by decide)

/-- The type of node `n`, computed from its operands. -/
def infer (n : Nat) : AnalysisM Ty := do
  match t.kindAt n with
  | .expr e =>
    let typed ← (t.kindAt n).children.attach.mapM fun ⟨x, _⟩ => do return (x, ← getType x)
    if typed.any fun p => p.2.isError then return .error
    exprType t cfg n (fun x => (typed.lookup x).getD .error) e
  | .decl (.var v) => do
    checkNode n
    return v.ty
  | _ => do
    checkNode n
    return .void
termination_by (n, 1)
decreasing_by
  · exact Prod.Lex.left _ _ (Tree.lt_of_mem_children (by assumption))
  · exact Prod.Lex.right _ (by decide)
  · exact Prod.Lex.right _ (by decide)

/-- Checks declaration or statement `n` once: before its children, each child by its role,
after its children. -/
def checkNode (n : Nat) : AnalysisM Unit := do
  if (← get).checked.contains n then return
  modify fun m => { m with checked := m.checked.insert n }
  beforeChildren t n (t.kindAt n)
  for ⟨(x, role), _⟩ in (t.kindAt n).roles.attach do
    match role with
    | .checked => check x
    | r => do
      let ty ← getType x
      afterTyped t n x ty r
  afterChildren t cfg n (t.kindAt n)
termination_by (n, 0)
decreasing_by
  · exact Prod.Lex.left _ _
      (Tree.lt_of_mem_children (NodeKind.mem_children_of_mem_roles (by assumption)))
  · exact Prod.Lex.left _ _
      (Tree.lt_of_mem_children (NodeKind.mem_children_of_mem_roles (by assumption)))

end

end Analysis

end DecafCheck
