import DecafCheck.Analysis.State
/-!
# Scopes and name lookup

Scopes are prepared lazily, the first time a lookup passes the node that owns them. Preparing a
scope declares the owner's own declarations in order (a second declaration of a name is a
conflict, reported where it stands) and, for a class, then adds what its superclass's scope binds
and the class does not. The superclass is itself found by looking up the `extends` name from the
class's parent, which may prepare further scopes, the superclass's first of all.

Preparation of a class can come back to the same class through an inheritance cycle. The list of
scopes being prepared (`pending`) stops it: a scope under preparation is left alone, so it is
still missing when the class that closes the cycle wants to merge it, and that class reports the
cycle instead. The three functions of the mutual block therefore end because every nested
preparation adds a node of the tree to `pending` (`Tree.unseen_cons_lt`), and a lookup that walks
outwards only climbs towards the root (`Tree.parentOf_spec`).

The public entries start with nothing pending.
-/

namespace DecafCheck

namespace Analysis

variable (t : Tree)

/-- Declares the declarations among `entries` in a scope, in order; a name declared twice keeps
its first declaration and the second is reported where its name stands. Entries that are no
declarations are skipped. -/
def declareEntries (entries : List Nat) : AnalysisM Scope :=
  entries.foldlM declareOne {}
where
  /-- Declares one entry. -/
  declareOne (scope : Scope) (d : Nat) : AnalysisM Scope :=
    match (t.kindAt d).decl? with
    | none => return scope
    | some decl =>
      match scope.declare decl.name.name d with
      | .ok grown => return grown
      | .error earlier => do
        report decl.name.span (.declConflict decl.name.name (t.spanAt earlier))
        return scope

mutual

/-- Prepares the scope of `n` unless it is prepared, `n` owns none, or it is being prepared
(`pending`). -/
def prepareWithin (pending : List Nat) (n : Nat) : AnalysisM Unit := do
  if (← get).scopes.contains n then return
  match hk : (t.kindAt n).scopeEntries? with
  | none => return
  | some entries =>
    if hp : n ∈ pending then return
    else
      have := t.unseen_cons_lt (Tree.lt_size_of_scopeEntries? hk) hp
      let scope ← declareEntries t entries
      let scope ← match (t.kindAt n).cls? with
        | none => pure scope
        | some c => do
          match ← superclassWithin (n :: pending) n with
          | none => pure scope
          | some sup => do
            prepareWithin (n :: pending) sup
            match ← preparedScope sup with
            | some supScope => pure (scope.merge supScope).1
            | none => do
              report c.name.span (.cyclicInheritance c.name.name)
              pure scope
      modify fun m => { m with scopes := m.scopes.insert n scope }
termination_by (t.unseen pending, 0, 0)
decreasing_by
  all_goals exact Prod.Lex.left _ _ this

/-- The declaration of `name` seen from `n`: in the scope of `n`, or, when `deep`, in the scope
of the nearest enclosing node that binds it. -/
def findWithin (pending : List Nat) (n : Nat) (name : String) (deep : Bool) :
    AnalysisM (Option Nat) := do
  prepareWithin pending n
  match (← preparedScope n).bind (·.lookup name) with
  | some d => return some d
  | none =>
    if deep then
      match hp : t.parentOf n with
      | some p =>
        have := Tree.parentOf_spec hp
        findWithin pending p name deep
      | none => return none
    else return none
termination_by (t.unseen pending, 1, t.size - n)
decreasing_by
  · exact Prod.Lex.right _ (Prod.Lex.left _ _ (by decide))
  · exact Prod.Lex.right _ (Prod.Lex.right _ (by omega))

/-- The class that class `c` extends: its `extends` name looked up from the parent of `c`, if
that finds a class. -/
def superclassWithin (pending : List Nat) (c : Nat) : AnalysisM (Option Nat) := do
  match (t.kindAt c).cls?, t.parentOf c with
  | some cd, some p =>
    match cd.superName with
    | some sup => do
      let found ← findWithin pending p sup.name true
      return found.filter fun d => (t.kindAt d).cls?.isSome
    | none => return none
  | _, _ => return none
termination_by (t.unseen pending, 2, 0)
decreasing_by
  exact Prod.Lex.right _ (Prod.Lex.left _ _ (by decide))

end

/-- Prepares the scope of `n`, if it owns one. -/
def prepareScope (n : Nat) : AnalysisM Unit := prepareWithin t [] n

/-- The declaration of `name` visible at `n`: in the scope of `n` only, or, when `deep`, in the
nearest enclosing scope that binds it. -/
def findDecl (n : Nat) (name : String) (deep : Bool) : AnalysisM (Option Nat) :=
  findWithin t [] n name deep

/-- The class that class `c` extends, if its `extends` name finds a class. -/
def superclassOf (c : Nat) : AnalysisM (Option Nat) := superclassWithin t [] c

/-- Whether `n` stands directly in a class (its parent is a class) or, when `deep`, anywhere
inside one. Each node passed on the way has its scope prepared. -/
def isClassScope (n : Nat) (deep : Bool) : AnalysisM Bool := do
  prepareScope t n
  match hp : t.parentOf n with
  | none => return false
  | some p =>
    if (t.kindAt p).cls?.isSome then return true
    else if deep then
      have := Tree.parentOf_spec hp
      isClassScope p deep
    else return false
termination_by t.size - n

end Analysis

end DecafCheck
