import DecafCheck.Proofs.Typing
/-!
# An expression reports after its operands

Typing an expression whose type is not known yet types its operands one after another, in the
order the tree lists them, and only then applies the rule of the expression itself. So what the
typing reports is, in order, what typing each operand reported, followed by what the expression
reports of its own (`getType_reports_in_postorder`): no report of the expression comes before a
report about one of its operands. An operand whose type was already known when its turn came
reports nothing. The expression's own part types no node and checks none, so none of its reports
comes from typing or checking another node.

The operand runs are recorded as a list of `OperandRun`s, each starting where the one before
ended (`TypedInOrder`).
-/

namespace DecafCheck

namespace Analysis

/-- One operand typed in its turn: the memory its typing starts from, the type it gets and what
typing it reports. -/
structure OperandRun where
  /-- The operand. -/
  node : Nat
  /-- The memory its typing starts from. -/
  start : Memo
  /-- Its type. -/
  ty : Ty
  /-- What typing it reports, in order. -/
  reports : List Diagnostic

/-- `TypedInOrder t cfg m runs m'`: the operands of `runs` are typed one after another from `m`,
each run starting where the one before ended, and the last ending at `m'`. -/
inductive TypedInOrder (t : Tree) (cfg : Config) : Memo → List OperandRun → Memo → Prop
  /-- No operand. -/
  | nil (m : Memo) : TypedInOrder t cfg m [] m
  /-- An operand typed from `m`, then the rest from where it ended. -/
  | cons {m m₁ m₂ : Memo} {x : Nat} {ty : Ty} {ds : List Diagnostic} {rest : List OperandRun} :
      Runs (getType t cfg x) m ty m₁ ds → TypedInOrder t cfg m₁ rest m₂ →
      TypedInOrder t cfg m (⟨x, m, ty, ds⟩ :: rest) m₂

variable {t : Tree} {cfg : Config}

/-- An operand whose type is known when its turn comes reports nothing. -/
lemma TypedInOrder.silent_of_known {m m' : Memo} {runs : List OperandRun}
    (h : TypedInOrder t cfg m runs m') :
    ∀ r ∈ runs, (r.start.types[r.node]?).isSome → r.reports = [] := by
  induction h with
  | nil => exact fun r hr => absurd hr List.not_mem_nil
  | cons hx _ ih =>
    intro r hr hknown
    rcases List.mem_cons.1 hr with rfl | hr
    · obtain ⟨ty', hty'⟩ := Option.isSome_iff_exists.1 hknown
      exact ((runs_getType_memo hty').unique hx).2.1.symm
    · exact ih r hr hknown

variable (t cfg)

/-- Typing a list of operands in order, each paired with its type: the run is the operands' runs
one after another, and it reports what they report, in order. -/
lemma typedInOrder_mapM {γ : Type} (ys : List γ) (key : γ → Nat) (m : Memo) :
    ∃ runs m', TypedInOrder t cfg m runs m' ∧ runs.map OperandRun.node = ys.map key ∧
      Runs (ys.mapM fun y => do return (key y, ← getType t cfg (key y))) m
        (runs.map fun r => (r.node, r.ty)) m' (runs.flatMap OperandRun.reports) := by
  induction ys generalizing m with
  | nil => exact ⟨[], m, .nil m, rfl, Runs.pure [] m⟩
  | cons y rest ih =>
    obtain ⟨ty, m₁, ds, hx, -⟩ := (grows_checkBlock t cfg).2.2.1 (key y) m
    obtain ⟨runs, m₂, hord, hnodes, hrest⟩ := ih m₁
    have hpair : Runs (do return (key y, ← getType t cfg (key y))) m (key y, ty) m₁ ds :=
      Runs.bind_eq hx (Runs.pure _ m₁) (List.append_nil ds)
    refine ⟨⟨key y, m, ty, ds⟩ :: runs, m₂, .cons hx hord, by simp [hnodes], ?_⟩
    rw [List.mapM_cons]
    exact Runs.bind_eq hpair (Runs.bind_eq hrest (Runs.pure _ m₂) (List.append_nil _))
      (by simp)

/-- The expression's own part types no node and checks none. -/
lemma ownType_untyped (n : Nat) (e : Expr) (typed : List (Nat × Ty)) :
    Keeps (Memo.GrownUntyped t) (ownType t cfg n e typed) := by
  unfold ownType
  split
  · exact Keeps.pure _
  · exact (rule_exprType t cfg n _ e).keeps.mono fun _ _ h => h

/-- Typing an expression whose type is not known yet reports, in order, what typing each of its
operands reported, in the order the tree lists them, and then what the expression reports of its
own; an operand whose type was known when its turn came reports nothing, and the expression's own
part types and checks no node. -/
theorem getType_reports_in_postorder {n : Nat} {e : Expr} (hk : t.kindAt n = .expr e) (m : Memo)
    (hn : m.types[n]? = none) :
    ∃ runs m₁, TypedInOrder t cfg m runs m₁ ∧ runs.map OperandRun.node = (t.kindAt n).children ∧
      (∀ r ∈ runs, (r.start.types[r.node]?).isSome → r.reports = []) ∧
      ∃ ty m₂ own, Runs (ownType t cfg n e (runs.map fun r => (r.node, r.ty))) m₁ ty m₂ own ∧
        m₂.types = m₁.types ∧ m₂.checked = m₁.checked ∧
        Runs (getType t cfg n) m ty { m₂ with types := m₂.types.insert n ty }
          (runs.flatMap OperandRun.reports ++ own) := by
  obtain ⟨runs, m₁, hord, hnodes, hops⟩ :=
    typedInOrder_mapM t cfg (t.kindAt n).children.attach Subtype.val m
  rw [List.attach_map_subtype_val] at hnodes
  obtain ⟨ty, m₂, own, hown, huntyped⟩ :=
    ownType_untyped t cfg n e (runs.map fun r => (r.node, r.ty)) m₁
  refine ⟨runs, m₁, hord, hnodes, hord.silent_of_known, ty, m₂, own, hown, huntyped.types_eq,
    huntyped.checked_eq, runs_getType_infer hn ?_⟩
  -- the operands first, then the expression's own rule
  rw [infer_expr t cfg hk]
  exact hops.bind hown

/-- The expression `x + 1`, where `x` is declared nowhere, typed on a fresh analyser. -/
theorem undeclaredSum_reports_in_postorder :
    undeclaredSum.kindAt 2 = .expr (.arith ⟨some 0, ⟨"+", {}⟩, some 1⟩) ∧
    (Memo.fresh none).types[2]? = none ∧
    ∃ runs m₁, TypedInOrder undeclaredSum {} (Memo.fresh none) runs m₁ ∧
      runs.map OperandRun.node = (undeclaredSum.kindAt 2).children ∧
      (∀ r ∈ runs, (r.start.types[r.node]?).isSome → r.reports = []) ∧
      ∃ ty m₂ own, Runs (ownType undeclaredSum {} 2 (.arith ⟨some 0, ⟨"+", {}⟩, some 1⟩)
          (runs.map fun r => (r.node, r.ty))) m₁ ty m₂ own ∧
        m₂.types = m₁.types ∧ m₂.checked = m₁.checked ∧
        Runs (getType undeclaredSum {} 2) (Memo.fresh none) ty
          { m₂ with types := m₂.types.insert 2 ty } (runs.flatMap OperandRun.reports ++ own) :=
  ⟨rfl, rfl, getType_reports_in_postorder undeclaredSum {} rfl (Memo.fresh none) rfl⟩

end Analysis

end DecafCheck
