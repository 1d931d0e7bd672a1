import Mathlib.Data.Prod.Lex
import DecafCheck.Span
/-!
# Joining spans

Positions in a source are ordered line first, then column. `Span.join` keeps the start of the
span that starts first (the left one on a tie), so a join starts at the earlier of the two starts
(`join_start`). Its end is computed field by field: the last line is the later of the two, and
the last column is taken from the span that ends on that line. When both spans end on the same
line the column comes from the span that starts later, whichever column is larger
(`join_stop`): then the join may end before one of its parts does (`join_stop_lt_max`), and
taking the join the other way round may give another span (`join_ne_join_swap`). When the ends lie
on different lines, or the starts differ, neither happens (`join_stop_of_lastLine_ne`,
`join_comm_of_start_ne`).
-/

namespace DecafCheck

namespace Span

/-- Where a span starts, ordered line first, then column. -/
def start (s : Span) : ℕ ×ₗ ℕ := toLex (s.line, s.column)

/-- Where a span ends, ordered line first, then column. -/
def stop (s : Span) : ℕ ×ₗ ℕ := toLex (s.lastLine, s.lastColumn)

variable {a b : Span}

lemma startsBefore_iff : a.startsBefore b = true ↔ a.start ≤ b.start := by
  simp [startsBefore, start, Prod.Lex.toLex_le_toLex]

lemma join_of_startsBefore (h : a.startsBefore b = true) :
    a.join b = ⟨a.line, a.column, max b.lastLine a.lastLine,
      if a.lastLine ≤ b.lastLine then b.lastColumn else a.lastColumn⟩ := by
  simp [join, h]

lemma join_of_not_startsBefore (h : a.startsBefore b = false) :
    a.join b = ⟨b.line, b.column, max a.lastLine b.lastLine,
      if b.lastLine ≤ a.lastLine then a.lastColumn else b.lastColumn⟩ := by
  simp [join, h]

/-- The end of the span `first ⋯ last` as `join` computes it: the end of `last` unless `first`
ends on a later line. -/
lemma stop_of_join_fields (first last : Span) :
    (toLex (max last.lastLine first.lastLine,
      if first.lastLine ≤ last.lastLine then last.lastColumn else first.lastColumn) : ℕ ×ₗ ℕ) =
      if first.lastLine ≤ last.lastLine then last.stop else first.stop := by
  split
  · rw [max_eq_left ‹_›]
    rfl
  · rw [max_eq_right (by omega)]
    rfl

/-- A join starts where the earlier of the two spans starts. -/
theorem join_start (a b : Span) : (a.join b).start = min a.start b.start := by
  cases h : a.startsBefore b with
  | true =>
    rw [join_of_startsBefore h, min_eq_left (startsBefore_iff.1 h)]
    rfl
  | false =>
    have hlt : b.start < a.start := lt_of_not_ge fun hle => by
      rw [← startsBefore_iff, h] at hle
      cases hle
    rw [join_of_not_startsBefore h, min_eq_right hlt.le]
    rfl

/-- A join ends where the span that ends on the later line ends; when both end on the same line,
where the span that starts later ends (the right one when both start together). -/
theorem join_stop (a b : Span) :
    (a.join b).stop = if a.lastLine = b.lastLine then (if a.startsBefore b then b.stop else a.stop)
      else max a.stop b.stop := by
  have hmax : a.lastLine ≠ b.lastLine →
      (if a.lastLine ≤ b.lastLine then b.stop else a.stop) = max a.stop b.stop := by
    intro hne
    split
    · rw [max_eq_right (Prod.Lex.toLex_le_toLex.2 (.inl (by omega)))]
    · rw [max_eq_left (Prod.Lex.toLex_le_toLex.2 (.inl (by omega)))]
  cases h : a.startsBefore b with
  | true =>
    rw [join_of_startsBefore h]
    refine (stop_of_join_fields a b).trans ?_
    by_cases he : a.lastLine = b.lastLine
    · simp [he]
    · rw [if_neg he, hmax he]
  | false =>
    rw [join_of_not_startsBefore h]
    refine (stop_of_join_fields b a).trans ?_
    by_cases he : a.lastLine = b.lastLine
    · simp [he]
    · rw [if_neg he, ← hmax he]
      by_cases hle : a.lastLine ≤ b.lastLine
      · rw [if_pos hle, if_neg (by omega)]
      · rw [if_neg hle, if_pos (by omega)]

/-- Spans that end on different lines join to a span ending at the later of the two ends. -/
theorem join_stop_of_lastLine_ne (h : a.lastLine ≠ b.lastLine) :
    (a.join b).stop = max a.stop b.stop := by
  rw [join_stop, if_neg h]

/-- Two spans that end on one line, the earlier-starting one further along it: their join stops
at the end of the other, before the end of the first. -/
theorem join_stop_lt_max :
    (Span.mk 1 1 5 9).join (Span.mk 2 1 5 3) = Span.mk 1 1 5 3 ∧
      (Span.mk 1 1 5 3).stop < max (Span.mk 1 1 5 9).stop (Span.mk 2 1 5 3).stop := by
  decide

/-- Spans that start at different places join to the same span either way round. -/
theorem join_comm_of_start_ne (h : a.start ≠ b.start) : a.join b = b.join a := by
  cases hab : a.startsBefore b with
  | true =>
    have hba : b.startsBefore a = false := by
      rw [Bool.eq_false_iff, Ne, startsBefore_iff]
      exact fun hle => h (le_antisymm (startsBefore_iff.1 hab) hle)
    rw [join_of_startsBefore hab, join_of_not_startsBefore hba]
  | false =>
    have hba : b.startsBefore a = true := by
      rw [startsBefore_iff]
      exact le_of_lt (lt_of_not_ge fun hle => by
        rw [← startsBefore_iff, hab] at hle
        cases hle)
    rw [join_of_not_startsBefore hab, join_of_startsBefore hba]

/-- Two spans that start together and end on one line join to different spans either way round:
the join keeps the end of its right-hand span. -/
theorem join_ne_join_swap :
    (Span.mk 1 1 1 9).join (Span.mk 1 1 1 3) ≠ (Span.mk 1 1 1 3).join (Span.mk 1 1 1 9) := by
  decide

end Span

end DecafCheck
