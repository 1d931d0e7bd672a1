import DecafCheck.Syntax.Tree
/-!
# Building a tree

One builder per construct. Each adds a node through `Tree.adopt` and fixes the node's span:

* declarations stand where their name is written;
* `if`, `while` and `for` stand where their test stands;
* an operator expression covers its operator and its operands, joined in the order operator,
  left, right;
* a field access covers its base and its name;
* a program covers its first and last declarations;
* the other constructs are given their span.

A bare `return` returns an empty expression, built just before the statement.

A `Script` is a sequence of builder calls whose arguments name the results of earlier calls by
position; `Script.run` performs it and reports the node each call produced.
-/

namespace DecafCheck

namespace Tree

/-- The span from the first to the last of `nodes`, if there are any. -/
def spanOfAll (t : Tree) (nodes : List Nat) : Option Span :=
  match nodes.head?, nodes.getLast? with
  | some first, some last => some ((t.spanAt first).join (t.spanAt last))
  | _, _ => none

/-- The span of an operator expression: the operator's span joined with the left operand's, then
with the right operand's. -/
def compoundSpan (t : Tree) (c : Compound) : Span :=
  c.operands.foldl (fun s n => s.join (t.spanAt n)) c.op.span

/-- A program of the given declarations. -/
def program (t : Tree) (decls : List Nat) : Except BuildError (Nat × Tree) :=
  t.adopt ((t.spanOfAll decls).getD {}) (.program decls)

/-- A declaration, standing where its name is written. -/
def declare (t : Tree) (d : Decl) : Except BuildError (Nat × Tree) :=
  t.adopt d.name.span (.decl d)

/-- A statement with the given span. -/
def statement (t : Tree) (span : Span) (s : Stmt) : Except BuildError (Nat × Tree) :=
  t.adopt span (.stmt s)

/-- `if`, standing where its test stands. -/
def cond (t : Tree) (test thenBranch : Nat) (elseBranch : Option Nat) :
    Except BuildError (Nat × Tree) :=
  t.statement (t.spanAt test) (.cond test thenBranch elseBranch)

/-- `while`, standing where its test stands. -/
def whileLoop (t : Tree) (test body : Nat) : Except BuildError (Nat × Tree) :=
  t.statement (t.spanAt test) (.whileLoop test body)

/-- `for`, standing where its test stands. -/
def forLoop (t : Tree) (init test step body : Nat) : Except BuildError (Nat × Tree) :=
  t.statement (t.spanAt test) (.forLoop init test step body)

/-- An expression with the given span. -/
def expression (t : Tree) (span : Span) (e : Expr) : Except BuildError (Nat × Tree) :=
  t.adopt span (.expr e)

/-- The empty expression, at the default span. -/
def emptyExpr (t : Tree) : Except BuildError (Nat × Tree) :=
  t.expression {} .empty

/-- `return`; without a value it returns a fresh empty expression. -/
def ret (t : Tree) (span : Span) (value : Option Nat) : Except BuildError (Nat × Tree) :=
  match value with
  | some v => t.statement span (.ret v)
  | none => do
    let (v, t) ← t.emptyExpr
    t.statement span (.ret v)

/-- An operator expression, covering its operator and operands. -/
def compound (t : Tree) (form : Compound → Expr) (c : Compound) : Except BuildError (Nat × Tree) :=
  t.expression (t.compoundSpan c) (form c)

/-- A variable or field access, covering its base and its name. -/
def field (t : Tree) (base : Option Nat) (name : Ident) : Except BuildError (Nat × Tree) :=
  let span := match base with
    | some b => (t.spanAt b).join name.span
    | none => name.span
  t.expression span (.field base name)

end Tree

/-- The families of operator expressions. -/
inductive OpForm where
  /-- Arithmetic. -/
  | arith
  /-- Comparison. -/
  | rel
  /-- Equality. -/
  | equality
  /-- Logic. -/
  | logical
  /-- Assignment. -/
  | assign
deriving DecidableEq, Repr

namespace OpForm

/-- The expression of this family. -/
def wrap : OpForm → Compound → Expr
  | arith => .arith
  | rel => .rel
  | equality => .equality
  | logical => .logical
  | assign => .assign

end OpForm

/-- One builder call; `Nat` arguments name the results of earlier calls by their position. -/
inductive BuildStep where
  /-- A program. -/
  | program (decls : List Nat)
  /-- A variable declaration. -/
  | var (name : Ident) (ty : Ty)
  /-- A function declaration. -/
  | fn (name : Ident) (ret : Ty) (formals : List Nat) (body : Option Nat)
  /-- A class declaration. -/
  | cls (name : Ident) (superName : Option Ident) (interfaces : List Ident) (members : List Nat)
  /-- An interface declaration. -/
  | iface (name : Ident) (members : List Nat)
  /-- A block. -/
  | block (span : Span) (decls stmts : List Nat)
  /-- `if`. -/
  | cond (test thenBranch : Nat) (elseBranch : Option Nat)
  /-- `while`. -/
  | whileLoop (test body : Nat)
  /-- `for`. -/
  | forLoop (init test step body : Nat)
  /-- `return`. -/
  | ret (span : Span) (value : Option Nat)
  /-- `break`. -/
  | breakLoop (span : Span)
  /-- `Print`. -/
  | print (span : Span) (args : List Nat)
  /-- An expression that refers to no other node: a constant, `this`, `new`, a read. -/
  | leaf (span : Span) (e : Expr)
  /-- The empty expression. -/
  | empty
  /-- An operator expression. -/
  | compound (form : OpForm) (left : Option Nat) (op : OpToken) (right : Option Nat)
  /-- `base[subscript]`. -/
  | index (span : Span) (base subscript : Nat)
  /-- A variable or field access. -/
  | field (base : Option Nat) (name : Ident)
  /-- A call. -/
  | call (span : Span) (base : Option Nat) (name : Ident) (actuals : List Nat)
  /-- `NewArray`. -/
  | newArray (span : Span) (size : Nat) (elem : Ty)

/-- Why a script cannot be performed. -/
inductive ScriptError where
  /-- A call names a call that does not come before it. -/
  | badRef (step ref : Nat)
  /-- A builder refused. -/
  | build (e : BuildError)

/-- A sequence of builder calls. -/
abbrev Script := List BuildStep

namespace BuildStep

/-- The node built by earlier call `ref`. -/
def resolve (ids : Array Nat) (ref : Nat) : Except ScriptError Nat :=
  match ids[ref]? with
  | some n => .ok n
  | none => .error (.badRef ids.size ref)

/-- The nodes built by earlier calls `refs`. -/
def resolveAll (ids : Array Nat) (refs : List Nat) : Except ScriptError (List Nat) :=
  refs.mapM (resolve ids)

/-- The node built by earlier call `ref`, if one is named. -/
def resolveOpt (ids : Array Nat) : Option Nat → Except ScriptError (Option Nat)
  | some ref => some <$> resolve ids ref
  | none => .ok none

/-- Performs one call on `t`; `ids` holds the node of each earlier call. -/
def perform (t : Tree) (ids : Array Nat) : BuildStep → Except ScriptError (Nat × Tree)
  | program decls => do lift (t.program (← resolveAll ids decls))
  | var name ty => lift (t.declare (.var ⟨name, ty⟩))
  | fn name retTy formals body => do
    lift (t.declare (.fn ⟨name, retTy, ← resolveAll ids formals, ← resolveOpt ids body⟩))
  | cls name superName interfaces members => do
    lift (t.declare (.cls ⟨name, superName, interfaces, ← resolveAll ids members⟩))
  | iface name members => do lift (t.declare (.iface ⟨name, ← resolveAll ids members⟩))
  | block span decls stmts => do
    lift (t.statement span (.block (← resolveAll ids decls) (← resolveAll ids stmts)))
  | cond test thenBranch elseBranch => do
    lift (t.cond (← resolve ids test) (← resolve ids thenBranch) (← resolveOpt ids elseBranch))
  | whileLoop test body => do lift (t.whileLoop (← resolve ids test) (← resolve ids body))
  | forLoop init test step body => do
    lift (t.forLoop (← resolve ids init) (← resolve ids test) (← resolve ids step)
      (← resolve ids body))
  | ret span value => do lift (t.ret span (← resolveOpt ids value))
  | breakLoop span => lift (t.statement span .breakLoop)
  | print span args => do lift (t.statement span (.print (← resolveAll ids args)))
  | leaf span e => lift (t.expression span e)
  | empty => lift t.emptyExpr
  | compound form left op right => do
    lift (t.compound form.wrap ⟨← resolveOpt ids left, op, ← resolveOpt ids right⟩)
  | index span base subscript => do
    lift (t.expression span (.index (← resolve ids base) (← resolve ids subscript)))
  | field base name => do lift (t.field (← resolveOpt ids base) name)
  | call span base name actuals => do
    lift (t.expression span (.call (← resolveOpt ids base) name (← resolveAll ids actuals)))
  | newArray span size elem => do lift (t.expression span (.newArray (← resolve ids size) elem))
where
  /-- A builder's refusal as a script error. -/
  lift (r : Except BuildError (Nat × Tree)) : Except ScriptError (Nat × Tree) :=
    r.mapError .build

end BuildStep

namespace Script

/-- Performs the calls in order from `t`, extending `ids` with the node of each call. -/
def runFrom (t : Tree) (ids : Array Nat) : Script → Except ScriptError (Tree × Array Nat)
  | [] => .ok (t, ids)
  | step :: rest => do
    let (n, t) ← step.perform t ids
    runFrom t (ids.push n) rest

/-- Performs the calls in order on the empty tree: the tree, and the node of each call. -/
def run (s : Script) : Except ScriptError (Tree × Array Nat) :=
  runFrom .empty #[] s

end Script

end DecafCheck
