import DecafCheck.Analysis.Typing
/-!
# Analysing programs and answering questions

`analyzeProgram` checks a whole program on a fresh memory and gives back the memory, whose
types, scopes and diagnostics are then the analysis's findings; `checkProgram` turns that into a
verdict. A program is rejected exactly when something was reported, however many records the
log kept.

A session puts a sequence of `Query`s to one analyser over one tree. Each answer comes with the
count of all diagnostics so far and the records kept while answering it.
-/

namespace DecafCheck

/-- Why a program is not accepted. -/
inductive Refusal where
  /-- Checking reported diagnostics; the log holds them. -/
  | rejected (log : Log)
  /-- The node to analyse is not a program. -/
  | notAProgram (node : Nat)

namespace Refusal

/-- The text of the refusal. -/
def message : Refusal → String
  | rejected log => log.rejection
  | notAProgram node => s!"Node {node} is not a program"

end Refusal

/-- The findings of an analyser: the count and kept records of its diagnostics, and the types
and scopes it has computed, each by node in increasing order. -/
structure Snapshot where
  /-- All diagnostics reported. -/
  errorCount : Nat
  /-- The kept records. -/
  records : List Diagnostic
  /-- The type of each typed node. -/
  types : List (Nat × Ty)
  /-- The bindings of each prepared scope. -/
  scopes : List (Nat × List (String × Nat))

namespace Memo

/-- What the analyser has found so far. -/
def snapshot (m : Memo) : Snapshot where
  errorCount := m.log.count
  records := m.log.records
  types := m.types.toList
  scopes := m.scopes.toList.map fun (n, s) => (n, s.bindings)

end Memo

namespace Analysis

variable (t : Tree) (cfg : Config)

/-- Checks program `root`; a node that is not a program is refused and nothing is checked. -/
def analyze (root : Nat) : AnalysisM (Except Refusal Unit) := do
  if (t.kindAt root).isProgram then
    check t cfg root
    return .ok ()
  return .error (.notAProgram root)

end Analysis

/-- Analyses program `root` on a fresh analyser: the memory it ends with. -/
def analyzeProgram (t : Tree) (cfg : Config) (root : Nat) : Except Refusal Memo :=
  match (Analysis.analyze t cfg root).run (Memo.fresh cfg.errorLimit) with
  | (.ok (), m) => .ok m
  | (.error r, _) => .error r

/-- Accepts program `root` when analysing it reports nothing. -/
def checkProgram (t : Tree) (cfg : Config) (root : Nat) : Except Refusal Unit := do
  let m ← analyzeProgram t cfg root
  if m.log.count > 0 then throw (.rejected m.log)

/-- A question put to an analyser. Nodes are given by identity. -/
inductive Query where
  /-- Analyse a program. -/
  | analyze (node : Nat)
  /-- Check a node. -/
  | check (node : Nat)
  /-- The type of a node, computing it if need be. -/
  | getType (node : Nat)
  /-- The type of a node, if computed. -/
  | typeOf (node : Nat)
  /-- The bindings of a node's scope, preparing it if need be. -/
  | prepareScope (node : Nat)
  /-- The bindings of a node's scope, if prepared. -/
  | scope (node : Nat)
  /-- The declaration a name finds from a node. -/
  | findDecl (node : Nat) (name : String) (deep : Bool)
  /-- Whether a node stands in a class. -/
  | isClassScope (node : Nat) (deep : Bool)
  /-- The nearest enclosing class. -/
  | enclosingClass (node : Nat)
  /-- The nearest enclosing function. -/
  | enclosingFunction (node : Nat)
  /-- The class a class extends. -/
  | superclassOf (node : Nat)
  /-- Whether one class is another or a subclass of it. -/
  | isSubclassOf (sub sup : Nat)
  /-- Whether a class or a superclass implements an interface. -/
  | implementsIface (cls iface : Nat)
  /-- The class or interface a name finds from a node. -/
  | resolveNamed (site : Nat) (name : Ident)
  /-- Whether two types are equivalent at a node. -/
  | equivalent (a b : Ty) (site : Nat)
  /-- Whether a value of one type may stand where another is expected, at a node. -/
  | compatible (source target : Ty) (site : Nat)
  /-- All findings so far. -/
  | state

/-- The answer to a query. -/
inductive Reply where
  /-- Nothing to tell. -/
  | done
  /-- The node given to `analyze` is no program. -/
  | refused (r : Refusal)
  /-- A type. -/
  | type (ty : Ty)
  /-- A type, if there is one. -/
  | type? (ty : Option Ty)
  /-- The bindings of a scope, if there is one. -/
  | bindings? (b : Option (List (String × Nat)))
  /-- A node, if there is one. -/
  | node? (n : Option Nat)
  /-- Yes or no. -/
  | bool (b : Bool)
  /-- All findings. -/
  | snapshot (s : Snapshot)

namespace Query

/-- Answers one query. -/
def answer (t : Tree) (cfg : Config) : Query → AnalysisM Reply
  | analyze n => do
    match ← Analysis.analyze t cfg n with
    | .ok () => return .done
    | .error r => return .refused r
  | check n => do
    Analysis.check t cfg n
    return .done
  | getType n => .type <$> Analysis.getType t cfg n
  | typeOf n => do return .type? (← get).types[n]?
  | prepareScope n => do
    Analysis.prepareScope t n
    return .bindings? ((← preparedScope n).map Scope.bindings)
  | scope n => do return .bindings? ((← preparedScope n).map Scope.bindings)
  | findDecl n name deep => .node? <$> Analysis.findDecl t n name deep
  | isClassScope n deep => .bool <$> Analysis.isClassScope t n deep
  | enclosingClass n => return .node? (t.enclosingClass n)
  | enclosingFunction n => return .node? (t.enclosingFunction n)
  | superclassOf n => .node? <$> Analysis.superclassOf t n
  | isSubclassOf sub sup => .bool <$> Analysis.isSubclassOf t sub sup
  | implementsIface c i => .bool <$> Analysis.implementsIface t c i
  | resolveNamed n name => .node? <$> Analysis.resolveNamed t n name
  | equivalent a b n => .bool <$> Analysis.equivalent t n a b
  | compatible a b n => .bool <$> Analysis.compatible t n a b
  | state => do return .snapshot (← get).snapshot

end Query

/-- One answered query of a session. -/
structure Answered where
  /-- The answer. -/
  reply : Reply
  /-- All diagnostics reported so far. -/
  errorCount : Nat
  /-- The records kept while answering. -/
  newRecords : List Diagnostic

namespace Query

/-- Answers one query, with the diagnostics it brought. -/
def answered (t : Tree) (cfg : Config) (q : Query) : AnalysisM Answered := do
  let before := (← get).log.records.length
  let reply ← q.answer t cfg
  let log := (← get).log
  return { reply, errorCount := log.count, newRecords := log.records.drop before }

/-- Answers the queries in order on one fresh analyser. -/
def session (t : Tree) (cfg : Config) (qs : List Query) : List Answered :=
  ((qs.mapM (answered t cfg)).run (Memo.fresh cfg.errorLimit)).1

end Query

end DecafCheck
