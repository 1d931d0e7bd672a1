import DecafCheck.Ty
/-!
# Syntax nodes

A program is a forest of nodes, each referred to by a number: its position in the order of
construction. A node is a program, a declaration, a statement or an expression; it records where
it stands in the source and, once adopted, its parent.

`NodeKind.children` lists the nodes a node refers to, in source order. It is the one view of the
shape of the forest: adoption, scopes and checking all walk it.
-/

namespace DecafCheck

/-- A variable: a formal, a field or a local. -/
structure VarDecl where
  /-- The declared name. -/
  name : Ident
  /-- The declared type. -/
  ty : Ty
deriving Repr, Inhabited

/-- A function or method; a prototype in an interface has no body. -/
structure FunDecl where
  /-- The declared name. -/
  name : Ident
  /-- The declared return type. -/
  ret : Ty
  /-- The formals, in order; each is meant to be a variable declaration. -/
  formals : List Nat
  /-- The body, a block. -/
  body : Option Nat
deriving Repr, Inhabited

/-- A class, with the class it extends and the interfaces it implements, each by name. -/
structure ClassDecl where
  /-- The declared name. -/
  name : Ident
  /-- The name after `extends`. -/
  superName : Option Ident
  /-- The names after `implements`, in order. -/
  interfaces : List Ident
  /-- The members, in order. -/
  members : List Nat
deriving Repr, Inhabited

/-- An interface: a list of prototypes. -/
structure IfaceDecl where
  /-- The declared name. -/
  name : Ident
  /-- The members, in order. -/
  members : List Nat
deriving Repr, Inhabited

/-- The four kinds of declaration. -/
inductive Decl where
  /-- A variable. -/
  | var (v : VarDecl)
  /-- A function or method. -/
  | fn (f : FunDecl)
  /-- A class. -/
  | cls (c : ClassDecl)
  /-- An interface. -/
  | iface (i : IfaceDecl)
deriving Repr, Inhabited

/-- The statements. -/
inductive Stmt where
  /-- A block: local declarations, then statements. -/
  | block (decls stmts : List Nat)
  /-- `if (test) thenBranch else elseBranch`. -/
  | cond (test thenBranch : Nat) (elseBranch : Option Nat)
  /-- `while (test) body`. -/
  | whileLoop (test body : Nat)
  /-- `for (init; test; step) body`; `init` and `step` may be empty expressions. -/
  | forLoop (init test step body : Nat)
  /-- `return value`; a bare `return` returns an empty expression. -/
  | ret (value : Nat)
  /-- `break`. -/
  | breakLoop
  /-- `Print(args)`. -/
  | print (args : List Nat)
deriving Repr, Inhabited

/-- An operator applied to one or two operands; the missing side of a unary operator is `none`. -/
structure Compound where
  /-- The left operand. -/
  left : Option Nat
  /-- The operator as written. -/
  op : OpToken
  /-- The right operand. -/
  right : Option Nat
deriving Repr, Inhabited

/-- The expressions. Each family of operators has its own typing rule; the token only names it. -/
inductive Expr where
  /-- An integer constant. -/
  | intLit (value : Int)
  /-- A floating-point constant. -/
  | doubleLit (value : Float)
  /-- A boolean constant. -/
  | boolLit (value : Bool)
  /-- A string constant. -/
  | stringLit (value : String)
  /-- `null`. -/
  | nullLit
  /-- The absent expression (a bare `return`, an empty `for` clause). -/
  | empty
  /-- Arithmetic: `+ - * / %`, unary minus, increment and decrement. -/
  | arith (c : Compound)
  /-- Comparison: `< <= > >=`. -/
  | rel (c : Compound)
  /-- Equality: `== !=`. -/
  | equality (c : Compound)
  /-- Logic: `&& ||` and unary `!`. -/
  | logical (c : Compound)
  /-- Assignment. -/
  | assign (c : Compound)
  /-- `this`. -/
  | thisRef
  /-- `base[subscript]`. -/
  | index (base subscript : Nat)
  /-- A variable, or a field of `base`. -/
  | field (base : Option Nat) (name : Ident)
  /-- A call of a function, or of a method of `base`. -/
  | call (base : Option Nat) (name : Ident) (actuals : List Nat)
  /-- `new C`. -/
  | new (cls : Ident)
  /-- `NewArray(size, elem)`. -/
  | newArray (size : Nat) (elem : Ty)
  /-- `ReadInteger()`. -/
  | readInt
  /-- `ReadLine()`. -/
  | readLine
deriving Repr, Inhabited

/-- What a node is. -/
inductive NodeKind where
  /-- A whole program: its top-level declarations. -/
  | program (decls : List Nat)
  /-- A declaration. -/
  | decl (d : Decl)
  /-- A statement. -/
  | stmt (s : Stmt)
  /-- An expression. -/
  | expr (e : Expr)
deriving Repr

instance : Inhabited NodeKind := ⟨.expr .empty⟩

/-- A node of the forest. -/
structure Node where
  /-- Where the node stands in the source. -/
  span : Span
  /-- The node that adopted this one, if any. -/
  parent : Option Nat
  /-- What the node is. -/
  kind : NodeKind
deriving Repr, Inhabited

namespace Decl

/-- The declared name. -/
def name : Decl → Ident
  | var v => v.name
  | fn f => f.name
  | cls c => c.name
  | iface i => i.name

end Decl

namespace Compound

/-- The operands that are present, left before right. -/
def operands (c : Compound) : List Nat :=
  c.left.toList ++ c.right.toList

end Compound

namespace NodeKind

/-- The nodes this node refers to, in source order. -/
def children : NodeKind → List Nat
  | program decls => decls
  | decl (.var _) => []
  | decl (.fn f) => f.formals ++ f.body.toList
  | decl (.cls c) => c.members
  | decl (.iface i) => i.members
  | stmt (.block decls stmts) => decls ++ stmts
  | stmt (.cond test thenBranch elseBranch) => test :: thenBranch :: elseBranch.toList
  | stmt (.whileLoop test body) => [test, body]
  | stmt (.forLoop init test step body) => [init, test, step, body]
  | stmt (.ret value) => [value]
  | stmt .breakLoop => []
  | stmt (.print args) => args
  | expr (.arith c) | expr (.rel c) | expr (.equality c) | expr (.logical c)
  | expr (.assign c) => c.operands
  | expr (.index base subscript) => [base, subscript]
  | expr (.field base _) => base.toList
  | expr (.call base _ actuals) => base.toList ++ actuals
  | expr (.newArray size _) => [size]
  | expr _ => []

/-- The declarations a node introduces into the scope it owns, or `none` if it owns no scope:
a program its declarations, a function its formals, a class or an interface its members, a block
its local declarations. -/
def scopeEntries? : NodeKind → Option (List Nat)
  | program decls => some decls
  | decl (.fn f) => some f.formals
  | decl (.cls c) => some c.members
  | decl (.iface i) => some i.members
  | stmt (.block decls _) => some decls
  | _ => none

/-- The declaration, if the node is one. -/
def decl? : NodeKind → Option Decl
  | decl d => some d
  | _ => none

/-- The class declaration, if the node is one. -/
def cls? : NodeKind → Option ClassDecl
  | decl (.cls c) => some c
  | _ => none

/-- The function declaration, if the node is one. -/
def fn? : NodeKind → Option FunDecl
  | decl (.fn f) => some f
  | _ => none

/-- The variable declaration, if the node is one. -/
def var? : NodeKind → Option VarDecl
  | decl (.var v) => some v
  | _ => none

/-- Whether the node is a program. -/
def isProgram : NodeKind → Bool
  | program _ => true
  | _ => false

/-- Whether the node is an expression. -/
def isExpr : NodeKind → Bool
  | expr _ => true
  | _ => false

/-- Whether the node is a class or an interface declaration: the declarations a named type may
refer to. -/
def isTypeDecl : NodeKind → Bool
  | decl (.cls _) | decl (.iface _) => true
  | _ => false

/-- Whether the node is an interface declaration. -/
def isIface : NodeKind → Bool
  | decl (.iface _) => true
  | _ => false

/-- Whether the node is a loop. -/
def isLoop : NodeKind → Bool
  | stmt (.whileLoop _ _) | stmt (.forLoop _ _ _ _) => true
  | _ => false

/-- Every declaration of a scope is a child of the node that owns it. -/
theorem mem_children_of_scopeEntries {k : NodeKind} {ds : List Nat} {d : Nat}
    (h : k.scopeEntries? = some ds) (hd : d ∈ ds) : d ∈ k.children := by
  cases k with
  | program => cases h; exact hd
  | decl d' => cases d' <;> cases h <;> simp [children, hd]
  | stmt s =>
    -- a block is the one statement that owns a scope
    cases s <;> cases h
    simp [children, hd]
  | expr => cases h

end NodeKind

end DecafCheck
