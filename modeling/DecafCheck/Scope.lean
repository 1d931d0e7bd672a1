import Std.Data.TreeMap
/-!
# Scopes

A scope binds names to declaration nodes. Declaring keeps the first declaration of a name and
hands back the earlier one on a clash; `merge` adds the bindings of another scope whose names are
still free and counts them. Bindings are listed in increasing order of their names, compared by
code point.
-/

namespace DecafCheck

/-- Names bound to declaration nodes. -/
structure Scope where
  /-- The bindings, ordered by name. -/
  table : Std.TreeMap String Nat compare := {}

namespace Scope

instance : Inhabited Scope := ⟨{}⟩

/-- The declaration bound to `name`. -/
def lookup (s : Scope) (name : String) : Option Nat := s.table[name]?

/-- Binds `name` to `node`, unless it is bound already: then the earlier declaration is the
error and the scope stays as it is. -/
def declare (s : Scope) (name : String) (node : Nat) : Except Nat Scope :=
  match s.lookup name with
  | some earlier => .error earlier
  | none => .ok { table := s.table.insert name node }

/-- The bindings, in increasing order of name. -/
def bindings (s : Scope) : List (String × Nat) := s.table.toList

/-- The number of bindings. -/
def size (s : Scope) : Nat := s.table.size

/-- Whether nothing is bound. -/
def isEmpty (s : Scope) : Bool := s.table.isEmpty

/-- Adds binding `b` to the scope of `acc` if its name is free there, and counts it. -/
def addIfFree (acc : Scope × Nat) (b : String × Nat) : Scope × Nat :=
  if acc.1.table.contains b.1 then acc else ({ table := acc.1.table.insert b.1 b.2 }, acc.2 + 1)

/-- Adds the bindings of `l`, in order, whose names are still free: the grown scope, and how many
were added. -/
def mergeList (s : Scope) (l : List (String × Nat)) : Scope × Nat :=
  l.foldl addIfFree (s, 0)

/-- Adds the bindings of `other` whose names `s` leaves free: the grown scope, and how many were
added. -/
def merge (s other : Scope) : Scope × Nat :=
  s.mergeList other.bindings

end Scope

end DecafCheck
