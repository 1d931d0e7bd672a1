import DecafCheck.Syntax.Build
import DecafCheck.Analysis.State
/-!
# Children and their parents

A node lists its children, and each node records its parent. The two agree when every child
names as its parent the node that lists it (`Tree.Consistent`). Lookups walk outwards along the
recorded parents while scopes are read off the listed children, so the agreement is what ties a
declaration to the scope that binds it.

The builders keep the two in step: a new node adopts the children it lists and refuses one that
has a parent already, so a child of an older node, which names that node, is never taken from it
(`Tree.consistent_of_adopt`). Every tree a script builds is therefore consistent
(`Script.run_consistent`). Only the nodes of a tree list children, so the agreement is also
decidable.
-/

namespace DecafCheck

namespace Tree

/-- Every child names as its parent the node that lists it. -/
def Consistent (t : Tree) : Prop :=
  ∀ n c, c ∈ (t.kindAt n).children → t.parentOf c = some n

theorem consistent_iff (t : Tree) :
    t.Consistent ↔ ∀ n < t.size, ∀ c ∈ (t.kindAt n).children, t.parentOf c = some n := by
  refine ⟨fun h n _ => h n, fun h n c hc => ?_⟩
  by_cases hn : n < t.size
  · exact h n hn c hc
  · -- a node outside the tree lists no children
    rw [kindAt_of_size_le (Nat.le_of_not_lt hn)] at hc
    cases hc

instance : DecidablePred Consistent := fun t => decidable_of_iff _ (consistent_iff t).symm

theorem empty_consistent : empty.Consistent := by decide

section Adopt

variable {t : Tree}

/-- A new node finds no parent on the children it can adopt. -/
theorem parentOf_eq_none_of_firstAttached {id : Nat} {cs : List Nat} :
    ∀ {earlier : List Nat}, t.firstAttached id earlier cs = none →
      ∀ c ∈ cs, t.parentOf c = none := by
  induction cs with
  | nil => intro _ _ c hc; cases hc
  | cons c cs ih =>
    intro earlier h d hd
    unfold firstAttached at h
    split at h
    · cases h
    · split at h
      · cases h
      · next hp =>
        rcases List.mem_cons.1 hd with rfl | hd
        · exact hp
        · exact ih h d hd

variable {cs : List Nat} {span : Span} {kind : NodeKind} {t' : Tree}

/-- After adoption the older nodes keep their kinds, and the new node is the last. -/
theorem kindAt_of_adopted (hn : t'.nodes = (t.adoptedNodes cs).push ⟨span, none, kind⟩)
    (i : Nat) :
    t'.kindAt i = if i < t.size then t.kindAt i else if i = t.size then kind else default := by
  simp only [kindAt, get?, hn, Array.getElem?_push, size_adoptedNodes]
  rcases Nat.lt_trichotomy i t.size with hi | rfl | hi
  · have hi' : i < t.nodes.size := hi
    simp only [Nat.ne_of_lt hi, if_false, hi, if_true, adoptedNodes, Array.getElem?_mapIdx,
      Array.getElem?_eq_getElem hi', Option.map_some]
    split <;> rfl
  · simp
  · have hi' : t.nodes.size ≤ i := Nat.le_of_lt hi
    simp [Nat.ne_of_gt hi, Nat.not_lt_of_gt hi, adoptedNodes, Array.getElem?_eq_none hi']

/-- After adoption the adopted children name the new node, the other older nodes keep their
parents, and the new node has none. -/
theorem parentOf_of_adopted (hn : t'.nodes = (t.adoptedNodes cs).push ⟨span, none, kind⟩)
    (i : Nat) :
    t'.parentOf i =
      if i < t.size then (if i ∈ cs then some t.size else t.parentOf i) else none := by
  simp only [parentOf, get?, hn, Array.getElem?_push, size_adoptedNodes]
  rcases Nat.lt_trichotomy i t.size with hi | rfl | hi
  · have hi' : i < t.nodes.size := hi
    simp only [Nat.ne_of_lt hi, if_false, hi, if_true, adoptedNodes, Array.getElem?_mapIdx,
      Array.getElem?_eq_getElem hi', Option.map_some, Option.bind_some]
    split <;> rfl
  · simp
  · have hi' : t.nodes.size ≤ i := Nat.le_of_lt hi
    simp [Nat.ne_of_gt hi, Nat.not_lt_of_gt hi, adoptedNodes, Array.getElem?_eq_none hi']

/-- Adding a node keeps a tree consistent. -/
theorem consistent_of_adopt (h : t.Consistent) {id : Nat}
    (ha : t.adopt span kind = .ok (id, t')) : t'.Consistent := by
  unfold adopt at ha
  split at ha
  · next hin =>
    split at ha
    · cases ha
    · next hfree =>
      obtain ⟨-, rfl⟩ := Prod.mk.inj (Except.ok.inj ha)
      intro n c hc
      rw [kindAt_of_adopted rfl] at hc
      rw [parentOf_of_adopted rfl]
      split at hc
      · -- a child of an older node names it already, so it was not adopted
        next hn =>
        have hp := h n c hc
        have hcs : c ∉ kind.children := fun hmem => by
          rw [parentOf_eq_none_of_firstAttached hfree c hmem] at hp
          cases hp
        rw [if_pos (Nat.lt_trans (lt_of_mem_children hc) hn), if_neg hcs, hp]
      · split at hc
        · next hn =>
          subst hn
          rw [if_pos (hin c hc), if_pos hc]
        · cases hc
  · split at ha <;> cases ha

end Adopt

end Tree

/-- Every tree that `r` gives back is consistent. -/
def ConsistentResult {ε : Type} (r : Except ε (Nat × Tree)) : Prop :=
  ∀ n t, r = .ok (n, t) → t.Consistent

namespace ConsistentResult

variable {ε ε' α : Type}

theorem bind {x : Except ε α} {f : α → Except ε (Nat × Tree)}
    (h : ∀ a, x = .ok a → ConsistentResult (f a)) : ConsistentResult (x >>= f) := by
  intro n t hx
  cases hxa : x with
  | error e =>
    rw [hxa] at hx
    cases hx
  | ok a =>
    rw [hxa] at hx
    exact h a hxa n t hx

theorem mapError {r : Except ε (Nat × Tree)} (g : ε → ε') (h : ConsistentResult r) :
    ConsistentResult (r.mapError g) := by
  intro n t hr
  cases hra : r with
  | error e =>
    rw [hra] at hr
    cases hr
  | ok a =>
    rw [hra] at hr
    change Except.ok a = _ at hr
    cases hr
    exact h n t hra

end ConsistentResult

namespace Tree

variable {t : Tree}

theorem consistentResult_adopt (h : t.Consistent) (span : Span) (kind : NodeKind) :
    ConsistentResult (t.adopt span kind) :=
  fun _ _ ha => consistent_of_adopt h ha

/-- A bare `return` builds its empty value first, and both nodes keep the tree consistent. -/
theorem consistentResult_ret (h : t.Consistent) (span : Span) (value : Option Nat) :
    ConsistentResult (t.ret span value) := by
  cases value with
  | some v => exact consistentResult_adopt h span _
  | none =>
    refine ConsistentResult.bind fun r he => ?_
    obtain ⟨v, t₁⟩ := r
    exact consistentResult_adopt (consistentResult_adopt h {} (.expr .empty) _ _ he) span _

end Tree

namespace BuildStep

/-- Every builder call keeps the tree consistent. -/
theorem consistentResult_perform {t : Tree} (h : t.Consistent) (ids : Array Nat)
    (step : BuildStep) : ConsistentResult (step.perform t ids) := by
  have hadopt : ∀ span kind, ConsistentResult (perform.lift (t.adopt span kind)) :=
    fun span kind => (Tree.consistentResult_adopt h span kind).mapError _
  cases step <;>
    simp only [perform, Tree.program, Tree.declare, Tree.statement, Tree.cond, Tree.whileLoop,
      Tree.forLoop, Tree.expression, Tree.emptyExpr, Tree.compound, Tree.field]
  case ret span value =>
    exact ConsistentResult.bind fun v _ => (Tree.consistentResult_ret h span v).mapError _
  all_goals
    repeat (refine ConsistentResult.bind fun _ _ => ?_)
    exact hadopt _ _

end BuildStep

namespace Script

theorem runFrom_consistent : ∀ (s : Script) {t t' : Tree} {ids ids' : Array Nat},
    t.Consistent → runFrom t ids s = .ok (t', ids') → t'.Consistent
  | [], _, _, _, _, h, hr => by
    cases hr
    exact h
  | step :: rest, t, _, ids, _, h, hr => by
    unfold runFrom at hr
    cases hp : step.perform t ids with
    | error e =>
      rw [hp] at hr
      cases hr
    | ok r =>
      rw [hp] at hr
      exact runFrom_consistent rest (BuildStep.consistentResult_perform h ids step r.1 r.2 hp) hr

/-- Every tree a script builds is consistent: each child names as its parent the node that lists
it. -/
theorem run_consistent {s : Script} {t : Tree} {ids : Array Nat} (h : s.run = .ok (t, ids)) :
    t.Consistent :=
  runFrom_consistent s Tree.empty_consistent h

end Script

end DecafCheck
