/-!
# Source spans

A `Span` is the stretch of source text that a piece of syntax covers: it starts at a line and a
column and ends at a last line and a last column. Spans of compound syntax are joined from the
spans of their parts with `Span.join`, which keeps the earlier start and the later end.
-/

namespace DecafCheck

/-- A stretch of source text, from `(line, column)` to `(lastLine, lastColumn)`. -/
structure Span where
  /-- The line where the span starts. -/
  line : Nat := 0
  /-- The column where the span starts. -/
  column : Nat := 0
  /-- The line where the span ends. -/
  lastLine : Nat := 0
  /-- The column where the span ends. -/
  lastColumn : Nat := 0
deriving DecidableEq, Repr, Inhabited

namespace Span

/-- The span of a single position: it ends where it starts. -/
def point (line column : Nat) : Span where
  line := line
  column := column
  lastLine := line
  lastColumn := column

/-- Whether `a` starts no later than `b`, comparing lines first and then columns. -/
def startsBefore (a b : Span) : Bool :=
  a.line < b.line || (a.line == b.line && a.column ≤ b.column)

/-- The span from the earlier of the two starts to the later end. The span that starts first
gives the start (the left one on a tie); the last line is the larger of the two, and the last
column comes from the other span unless its last line ends before the first one's. -/
def join (a b : Span) : Span :=
  let (first, last) := if a.startsBefore b then (a, b) else (b, a)
  { line := first.line
    column := first.column
    lastLine := max last.lastLine first.lastLine
    lastColumn := if first.lastLine ≤ last.lastLine then last.lastColumn else first.lastColumn }

/-- The start of the span as `line:column`. -/
def render (s : Span) : String :=
  s!"{s.line}:{s.column}"

example : (Span.mk 1 5 1 9).join (Span.mk 3 2 3 7) = Span.mk 1 5 3 7 := by decide
example : (Span.mk 3 2 3 7).join (Span.mk 1 5 1 9) = Span.mk 1 5 3 7 := by decide

end Span

end DecafCheck
