import Std.Data.TreeMap
import Std.Data.TreeSet
import DecafCheck.Syntax.Tree
import DecafCheck.Diagnostic
import DecafCheck.Config
import DecafCheck.Scope
/-!
# The analyser's memory

The analyser works over a fixed tree and remembers, per node, what it has found: the scope a node
owns once it is prepared, the type of a node once it is known, and whether a node has been checked.
Every diagnostic goes to one log. Each of these is computed at most once per node, which is why a
diagnostic is never reported twice for the same cause.

`Tree.unseen` counts the nodes of a tree outside a list; walks that must not revisit a node (the
superclass chain, scopes under preparation) end because it drops at each new node
(`unseen_cons_lt`).
-/

namespace DecafCheck

/-- What the analyser has found so far. -/
structure Memo where
  /-- The prepared scope of each scope-owning node. -/
  scopes : Std.TreeMap Nat Scope compare := {}
  /-- The type of each node typed so far. -/
  types : Std.TreeMap Nat Ty compare := {}
  /-- The nodes checked so far. -/
  checked : Std.TreeSet Nat compare := {}
  /-- The diagnostics reported so far. -/
  log : Log := {}

namespace Memo

/-- A fresh memory whose log keeps at most `limit` records. -/
def fresh (limit : Option Nat) : Memo := { log := Log.withLimit limit }

end Memo

/-- A computation of the analyser: it reads and extends the memory. -/
abbrev AnalysisM := StateM Memo

/-- Records a diagnostic. -/
def report (span : Span) (fault : Fault) : AnalysisM Unit :=
  modify fun m => { m with log := m.log.report ⟨span, fault⟩ }

/-- The prepared scope of `n`, if it has been prepared. -/
def preparedScope (n : Nat) : AnalysisM (Option Scope) := do
  return (← get).scopes[n]?

namespace Tree

/-- The number of nodes of the tree that are not in `seen`. -/
def unseen (t : Tree) (seen : List Nat) : Nat :=
  (List.range t.size).countP fun i => !seen.contains i

/-- A stronger test passes fewer members, strictly fewer if some member fails it and passes the
weaker one. -/
theorem countP_lt_countP {p q : Nat → Bool} {l : List Nat} {x : Nat}
    (himp : ∀ y ∈ l, p y = true → q y = true) (hx : x ∈ l) (hq : q x = true) (hp : p x = false) :
    l.countP p < l.countP q := by
  induction l with
  | nil => simp at hx
  | cons a l ih =>
    rw [List.countP_cons, List.countP_cons]
    have hle : l.countP p ≤ l.countP q :=
      List.countP_mono_left fun y hy h => himp y (List.mem_cons_of_mem a hy) h
    have hpa := himp a (List.mem_cons_self ..)
    by_cases hax : a = x
    · subst hax
      simp [hq, hp]
      omega
    · have hxl : x ∈ l := by
        rcases List.mem_cons.1 hx with h | h
        · exact absurd h.symm hax
        · exact h
      have := ih (fun y hy h => himp y (List.mem_cons_of_mem a hy) h) hxl
      -- one case per contribution of `a` to the two counts; `p a` without `q a` is excluded
      cases hpb : p a <;> cases hqb : q a
      · simp only [Bool.false_eq_true, if_false]
        omega
      · simp only [Bool.false_eq_true, if_false, if_true]
        omega
      · exact absurd (hpa hpb) (by simp [hqb])
      · simp only [if_true]
        omega

/-- A new node of the tree lowers the count of unseen nodes. -/
theorem unseen_cons_lt (t : Tree) {seen : List Nat} {n : Nat} (hn : n < t.size) (hs : n ∉ seen) :
    t.unseen (n :: seen) < t.unseen seen :=
  countP_lt_countP (fun y _ h => by simp_all) (List.mem_range.2 hn) (by simpa using hs)
    (by simp)

/-- A node outside the tree reads as the default kind. -/
theorem kindAt_of_size_le {t : Tree} {n : Nat} (h : t.size ≤ n) : t.kindAt n = default := by
  have : t.nodes[n]? = none := Array.getElem?_eq_none (by simpa [size] using h)
  simp [kindAt, get?, this]

/-- A node that owns a scope lies in the tree. -/
theorem lt_size_of_scopeEntries? {t : Tree} {n : Nat} {ds : List Nat}
    (h : (t.kindAt n).scopeEntries? = some ds) : n < t.size := by
  apply Classical.byContradiction
  intro hn
  rw [kindAt_of_size_le (by omega)] at h
  simp [default, NodeKind.scopeEntries?] at h

end Tree

end DecafCheck
