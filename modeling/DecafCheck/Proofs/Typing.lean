import DecafCheck.Proofs.Rules
/-!
# Runs of the checker

`check`, `getType`, `infer` and `checkNode` call each other down the tree. Every run of any of
them keeps each preorder on memories that marking a node, recording a new type and checking a
declaration or statement keep (`keeps_checkBlock`, by the mutual induction the four are defined
by): the memo only grows (`grows_checkBlock`) and the scopes prepared are reference scopes
(`staysSound_checkBlock`). In particular every one of them has a run from every memory, whatever
its log.

An expression is typed in two parts: its operands in source order (`operandTypes`), then the type
of the expression itself (`ownType`): the error type after an ill-typed operand, and otherwise what
the rule of its construct gives. What is reported after the operands are typed is the expression's
own report. The main statement, `getType_error_discipline`, says that an ill-typed operand makes the
expression ill-typed with no report of its own, and that any own report besides the conflicts and
cycles found preparing scopes comes with the error type.
-/

namespace DecafCheck

namespace Analysis

variable (t : Tree) (cfg : Config)

/-- The operands of node `n`, each with its type, in source order. -/
def operandTypes (n : Nat) : AnalysisM (List (Nat × Ty)) :=
  (t.kindAt n).children.attach.mapM fun ⟨x, _⟩ => do return (x, ← getType t cfg x)

/-- The type of expression `e` at node `n` once its operands are typed: the error type after an
ill-typed operand, and otherwise what the rule of its construct gives. -/
def ownType (n : Nat) (e : Expr) (typed : List (Nat × Ty)) : AnalysisM Ty :=
  if typed.any fun p => p.2.isError then pure .error
  else exprType t cfg n (fun x => (typed.lookup x).getD .error) e

/-- An expression is typed operands first. -/
lemma infer_expr {n : Nat} {e : Expr} (hk : t.kindAt n = .expr e) :
    infer t cfg n = operandTypes t cfg n >>= ownType t cfg n e := by
  rw [infer]
  split
  · rename_i e' he
    rw [hk] at he
    cases he
    rfl
  · rename_i v hv
    rw [hk] at hv
    cases hv
  · rename_i hne _
    exact (hne e hk).elim

/-- A variable declaration is checked, and has its declared type. -/
lemma infer_var {n : Nat} {v : VarDecl} (hk : t.kindAt n = .decl (.var v)) :
    infer t cfg n = checkNode t cfg n >>= fun _ => pure v.ty := by
  rw [infer]
  split
  · next e he =>
    rw [hk] at he
    cases he
  · next v' hv =>
    rw [hk] at hv
    cases hv
    rfl
  · next _ hnv => exact (hnv v hk).elim

/-- Any other declaration or statement is checked, and has type `void`. -/
lemma infer_other {n : Nat} (hne : ∀ e, t.kindAt n ≠ .expr e)
    (hnv : ∀ v, t.kindAt n ≠ .decl (.var v)) :
    infer t cfg n = checkNode t cfg n >>= fun _ => pure .void := by
  rw [infer]
  split
  · next e he => exact (hne e he).elim
  · next v hv => exact (hnv v hv).elim
  · rfl

/-- Pairing each element of a list with an answer keeps the elements, in order. -/
lemma spec_mapM_keyed {R : Memo → Memo → Prop} [IsPreorder Memo R] {γ : Type} (xs : List γ)
    (key : γ → Nat) {g : γ → AnalysisM Ty} (hg : ∀ x ∈ xs, Keeps R (g x)) :
    Spec (xs.mapM fun x => do return (key x, ← g x)) fun m typed m' _ =>
      R m m' ∧ typed.map Prod.fst = xs.map key := by
  induction xs with
  | nil => exact fun m => ⟨[], m, [], Runs.pure [] m, refl_of R m, rfl⟩
  | cons x rest ih =>
    rw [List.mapM_cons]
    intro m
    obtain ⟨ty, m₁, ds, hr₁, hg₁⟩ := hg x (List.mem_cons_self ..) m
    obtain ⟨typed, m₂, es, hr₂, hg₂, hkeys⟩ := ih (fun y hy => hg y (List.mem_cons_of_mem x hy)) m₁
    have hpair : Runs (do return (key x, ← g x)) m (key x, ty) m₁ (ds ++ []) :=
      hr₁.bind (Runs.pure _ m₁)
    refine ⟨(key x, ty) :: typed, m₂, ds ++ [] ++ (es ++ []),
      hpair.bind (hr₂.bind (Runs.pure _ m₂)), trans_of R hg₁ hg₂, ?_⟩
    simp [hkeys]

/-- Checking one child of a declaration or statement by its role. -/
def checkChild (n : Nat) : Nat × Role → AnalysisM Unit
  | (x, .checked) => check t cfg x
  | (x, r) => do afterTyped t n x (← getType t cfg x) r

/-- A loop over the members of a list, each proved to be one, is a loop over the list. -/
lemma forIn_attach_eq_forM {γ : Type} (l : List γ) (f : γ → AnalysisM Unit)
    {g : {x // x ∈ l} → PUnit → AnalysisM (ForInStep PUnit)}
    (hg : ∀ x b, g x b = do f x.1; pure (ForInStep.yield PUnit.unit)) :
    forIn l.attach PUnit.unit g = l.forM f := by
  have hfun : g = fun x _ => (do f x.1; pure (ForInStep.yield PUnit.unit)) :=
    funext fun x => funext fun b => hg x b
  subst hfun
  induction l with
  | nil => rfl
  | cons a l ih =>
    simp only [List.attach_cons, List.forIn_cons, List.forIn_map, bind_assoc, pure_bind]
    show _ = (do f a; l.forM f)
    rw [← ih fun _ _ => rfl]

/-- A declaration or statement is checked once: before its children, each child by its role,
after its children. -/
lemma checkNode_eq (n : Nat) : checkNode t cfg n = (do
    if (← get).checked.contains n then return
    modify fun m => { m with checked := m.checked.insert n }
    beforeChildren t n (t.kindAt n)
    (t.kindAt n).roles.forM (checkChild t cfg n)
    afterChildren t cfg n (t.kindAt n)) := by
  rw [checkNode, forIn_attach_eq_forM _ (checkChild t cfg n)]
  rintro ⟨⟨x, role⟩, h⟩ _
  cases role <;> rfl

/-- Anything but an expression is checked by `checkNode`. -/
lemma check_of_not_expr {n : Nat} (hexpr : (t.kindAt n).isExpr = false) :
    check t cfg n = checkNode t cfg n := by
  rw [check, if_neg (by simp [hexpr])]

variable {t cfg} {n : Nat} {m m₁ : Memo} {ty : Ty} {ds : List Diagnostic}

/-- A type once found is given again. -/
lemma runs_getType_memo (h : m.types[n]? = some ty) : Runs (getType t cfg n) m ty m [] := by
  rw [getType]
  refine Runs.get_bind (fun _ => rfl) ?_
  simp only [h]
  exact Runs.pure ty m

/-- A type not yet found is inferred and remembered. -/
lemma runs_getType_infer (hn : m.types[n]? = none) (h : Runs (infer t cfg n) m ty m₁ ds) :
    Runs (getType t cfg n) m ty { m₁ with types := m₁.types.insert n ty } ds := by
  rw [getType]
  refine Runs.get_bind (fun _ => rfl) ?_
  simp only [hn]
  refine Runs.bind_eq h ((Runs.modify fun _ => rfl).bind (Runs.pure ty _)) (by simp)

/-- A node checked already is not checked again. -/
lemma runs_check_done (hc : m.checked.contains n) : Runs (check t cfg n) m () m [] := by
  by_cases hexpr : (t.kindAt n).isExpr
  · rw [check, if_pos hexpr]
    refine Runs.get_bind (fun _ => rfl) ?_
    simp only [hc, if_true]
    exact Runs.pure () m
  · rw [check_of_not_expr t cfg (by simpa using hexpr), checkNode_eq]
    refine Runs.get_bind (fun _ => rfl) ?_
    simp only [hc, if_true]
    exact Runs.pure () m

/-- An expression not checked yet is marked and typed. -/
lemma runs_check_expr (hexpr : (t.kindAt n).isExpr) (hc : m.checked.contains n = false)
    (h : Runs (getType t cfg n) { m with checked := m.checked.insert n } ty m₁ ds) :
    Runs (check t cfg n) m () m₁ ds := by
  rw [check, if_pos hexpr]
  refine Runs.get_bind (fun _ => rfl) ?_
  simp only [hc]
  refine Runs.bind_eq (Runs.modify fun _ => rfl) ?_ (List.nil_append ds)
  have hd := Runs.bind (f := fun _ : Ty => (pure PUnit.unit : AnalysisM PUnit)) h (Runs.pure _ m₁)
  rw [List.append_nil] at hd
  exact hd

/-- A declaration or statement not checked yet is marked, then checked before, through and after
its children. -/
lemma runs_checkNode {m₂ m₃ : Memo} {es fs : List Diagnostic}
    (hc : m.checked.contains n = false)
    (hb : Runs (beforeChildren t n (t.kindAt n)) { m with checked := m.checked.insert n } ()
      m₁ ds)
    (hr : Runs ((t.kindAt n).roles.forM (checkChild t cfg n)) m₁ () m₂ es)
    (ha : Runs (afterChildren t cfg n (t.kindAt n)) m₂ () m₃ fs) :
    Runs (checkNode t cfg n) m () m₃ (ds ++ es ++ fs) := by
  rw [checkNode_eq]
  refine Runs.get_bind (fun _ => rfl) ?_
  simp only [hc]
  exact Runs.bind_eq (Runs.modify fun _ => rfl) (hb.bind (hr.bind ha)) (by simp)

section Growth

variable (R : Memo → Memo → Prop)

lemma keeps_markChecked (hmark : ∀ m n, R m { m with checked := m.checked.insert n }) (n : Nat) :
    Keeps R (modify fun m : Memo => { m with checked := m.checked.insert n }) :=
  fun m => ⟨⟨⟩, _, [], Runs.modify fun _ => rfl, hmark m n⟩

variable [IsPreorder Memo R] (t cfg)

/-- Checking and typing keep every preorder on memories that marking a node checked, recording a
type not found before, and checking a declaration or statement (which finds no type) keep. -/
theorem keeps_checkBlock (hmark : ∀ m n, R m { m with checked := m.checked.insert n })
    (htype : ∀ m m₁ n ty, m.types[n]? = none → R m m₁ →
      R m { m₁ with types := m₁.types.insert n ty })
    (huntyped : ∀ m m', m.GrownUntyped t m' → R m m') :
    (∀ n, Keeps R (check t cfg n)) ∧
    (∀ n, Keeps R (checkNode t cfg n)) ∧
    (∀ n, Keeps R (getType t cfg n)) ∧
    (∀ n, Keeps R (infer t cfg n)) := by
  refine check.mutual_induct t (fun n => Keeps R (check t cfg n))
    (fun n => Keeps R (checkNode t cfg n))
    (fun n => Keeps R (getType t cfg n))
    (fun n => Keeps R (infer t cfg n)) ?_ ?_ ?_ ?_ ?_ ?_ ?_
  -- an expression is checked by typing it, once
  · intro n hexpr ih
    rw [check, if_pos hexpr]
    refine Spec.get_bind (fun _ _ => rfl) fun m => ?_
    split
    · exact Keeps.pure () m
    · exact ((keeps_markChecked R hmark n).bind fun _ => ih.map _) m
  -- anything else by `checkNode`
  · intro n hexpr ih
    rw [check, if_neg hexpr]
    exact ih
  -- a declaration or statement: before, each child by its role, after
  · intro n ihCheck ihType
    rw [checkNode]
    refine Spec.get_bind (fun _ _ => rfl) fun m => ?_
    split
    · exact Keeps.pure () m
    · have hbefore := (keeps_beforeChildren t n (t.kindAt n)).mono huntyped
      have hafter := (keeps_afterChildren t cfg n (t.kindAt n)).mono huntyped
      refine ((keeps_markChecked R hmark n).bind fun _ => hbefore.bind fun _ =>
        (Keeps.forIn _ _ fun ⟨⟨x, role⟩, hx⟩ _ => ?_).bind fun _ => hafter) m
      cases role with
      | checked => exact (ihCheck x .checked hx).bind fun _ => Keeps.pure _
      | _ =>
        exact (ihType x _ hx).bind fun ty =>
          ((keeps_afterTyped t n x ty _).mono huntyped).bind fun _ => Keeps.pure _
  -- a type is found once and remembered
  · intro n ih m
    cases hn : m.types[n]? with
    | some ty => exact ⟨ty, m, [], runs_getType_memo hn, refl_of R m⟩
    | none =>
      obtain ⟨ty, m₁, ds, hr, hg⟩ := ih m
      exact ⟨ty, _, ds, runs_getType_infer hn hr, htype m m₁ n ty hn hg⟩
  -- an expression: its operands, then its own rule
  · intro n e hk ih
    rw [infer_expr t cfg hk]
    have hops : Keeps R (operandTypes t cfg n) :=
      (spec_mapM_keyed _ Subtype.val fun ⟨x, hx⟩ _ => ih x hx).mono fun _ _ _ _ h => h.1
    refine hops.bind fun typed => ?_
    unfold ownType
    split
    · exact Keeps.pure _
    · exact (rule_exprType t cfg n _ e).keeps.mono huntyped
  -- a variable declaration has its declared type
  · intro n v hk ih
    rw [infer]
    split
    · rename_i e he
      rw [hk] at he
      cases he
    · rename_i v' hv
      rw [hk] at hv
      cases hv
      exact ih.bind fun _ => Keeps.pure _
    · rename_i _ hnv
      exact (hnv v hk).elim
  -- anything else is checked and has type `void`
  · intro n hne hnv ih
    rw [infer]
    split
    · rename_i e he
      exact (hne e he).elim
    · rename_i v hv
      exact (hnv v hv).elim
    · exact ih.bind fun _ => Keeps.pure _

end Growth

variable (t cfg)

/-- Checking and typing only grow the memo. -/
theorem grows_checkBlock :
    (∀ n, Keeps (Memo.Grown t) (check t cfg n)) ∧
    (∀ n, Keeps (Memo.Grown t) (checkNode t cfg n)) ∧
    (∀ n, Keeps (Memo.Grown t) (getType t cfg n)) ∧
    (∀ n, Keeps (Memo.Grown t) (infer t cfg n)) :=
  keeps_checkBlock t cfg (Memo.Grown t) (fun m n => (Memo.Grown.refl t m).insertChecked n)
    (fun _ _ _ _ hn hg => hg.insertType hn) fun _ _ h => h.grown

/-- Checking and typing prepare only reference scopes. -/
theorem staysSound_checkBlock :
    (∀ n, Keeps (Memo.StaysSound t) (check t cfg n)) ∧
    (∀ n, Keeps (Memo.StaysSound t) (checkNode t cfg n)) ∧
    (∀ n, Keeps (Memo.StaysSound t) (getType t cfg n)) ∧
    (∀ n, Keeps (Memo.StaysSound t) (infer t cfg n)) :=
  keeps_checkBlock t cfg (Memo.StaysSound t) (fun _ _ => .of_scopes_eq rfl)
    (fun _ _ _ _ _ h => h.trans (.of_scopes_eq rfl)) fun _ _ h => h.sound

/-- Checking a child by its role grows the memo. -/
lemma grows_checkChild (n : Nat) (xr : Nat × Role) :
    Keeps (Memo.Grown t) (checkChild t cfg n xr) := by
  obtain ⟨x, role⟩ := xr
  cases role with
  | checked => exact (grows_checkBlock t cfg).1 x
  | _ => exact ((grows_checkBlock t cfg).2.2.1 x).bind fun ty => (keeps_afterTyped t n x ty _).grown

/-- Typing the operands of a node runs from every memory and lists each operand with its type, in
source order. -/
lemma runs_operandTypes (n : Nat) (m : Memo) :
    ∃ typed m₁ ds, Runs (operandTypes t cfg n) m typed m₁ ds ∧
      typed.map Prod.fst = (t.kindAt n).children := by
  obtain ⟨typed, m₁, ds, hr, -, hkeys⟩ := spec_mapM_keyed (t.kindAt n).children.attach
    Subtype.val (g := fun x => getType t cfg x.1) (fun x _ => (grows_checkBlock t cfg).2.2.1 x.1) m
  exact ⟨typed, m₁, ds, hr, by rw [hkeys, List.attach_map_subtype_val]⟩

/-- Typing an expression whose type is not known yet: its operands are typed first, in source
order, and what is reported after them is the expression's own report. An ill-typed operand makes
the expression ill-typed with no report of its own; and an own report other than a conflict or a
cycle found preparing scopes comes with the error type. -/
theorem getType_error_discipline {n : Nat} {e : Expr} (hk : t.kindAt n = .expr e) (m : Memo)
    (hn : m.types[n]? = none) :
    ∃ typed m₁ ds, Runs (operandTypes t cfg n) m typed m₁ ds ∧
      typed.map Prod.fst = (t.kindAt n).children ∧
      ∃ ty m₂ own, Runs (ownType t cfg n e typed) m₁ ty m₂ own ∧
        Runs (getType t cfg n) m ty { m₂ with types := m₂.types.insert n ty } (ds ++ own) ∧
        ((∃ p ∈ typed, p.2 = .error) → ty = .error ∧ own = []) ∧
        (∀ d ∈ own, d.fault.fromPreparation = false → ty = .error) := by
  obtain ⟨typed, m₁, ds, hops, hkeys⟩ := runs_operandTypes t cfg n m
  refine ⟨typed, m₁, ds, hops, hkeys, ?_⟩
  -- the whole run is the operands' run followed by the expression's own
  have hget : ∀ {ty m₂ own}, Runs (ownType t cfg n e typed) m₁ ty m₂ own →
      Runs (getType t cfg n) m ty { m₂ with types := m₂.types.insert n ty } (ds ++ own) := by
    intro ty m₂ own hown
    refine runs_getType_infer hn ?_
    rw [infer_expr t cfg hk]
    exact hops.bind hown
  by_cases herr : ∃ p ∈ typed, p.2 = .error
  · -- an ill-typed operand: the error type, and nothing reported
    have hany : (typed.any fun p => p.2.isError) = true := by
      obtain ⟨p, hp, hpe⟩ := herr
      exact List.any_eq_true.2 ⟨p, hp, by simp [hpe, Ty.isError]⟩
    have hown : Runs (ownType t cfg n e typed) m₁ .error m₁ [] := by
      unfold ownType
      rw [if_pos hany]
      exact Runs.pure _ m₁
    exact ⟨.error, m₁, [], hown, hget hown, fun _ => ⟨rfl, rfl⟩, by simp⟩
  · -- well-typed operands: the rule of the construct decides
    have hany : (typed.any fun p => p.2.isError) = false := by
      rw [Bool.eq_false_iff]
      intro h
      obtain ⟨p, hp, hpe⟩ := List.any_eq_true.1 h
      refine herr ⟨p, hp, ?_⟩
      cases hty : p.2 <;> simp_all [Ty.isError]
    obtain ⟨ty, m₂, own, hr, hq⟩ := rule_exprType t cfg n
      (fun x => (typed.lookup x).getD .error) e m₁
    have hown : Runs (ownType t cfg n e typed) m₁ ty m₂ own := by
      unfold ownType
      rw [if_neg (by simp [hany])]
      exact hr
    exact ⟨ty, m₂, own, hown, hget hown, fun h => (herr h).elim, hq.failed_of_report⟩

/-- The expression `x + 1`, where `x` is declared nowhere. -/
def undeclaredSum : Tree where
  nodes := #[⟨{}, some 2, .expr (.field none ⟨"x", {}⟩)⟩, ⟨{}, some 2, .expr (.intLit 1)⟩,
    ⟨{}, none, .expr (.arith ⟨some 0, ⟨"+", {}⟩, some 1⟩)⟩]
  children_lt := by decide
  parent_gt := by decide

theorem undeclaredSum_error_discipline :
    undeclaredSum.kindAt 2 = .expr (.arith ⟨some 0, ⟨"+", {}⟩, some 1⟩) ∧
    (Memo.fresh none).types[2]? = none ∧
    ∃ typed m₁ ds, Runs (operandTypes undeclaredSum {} 2) (Memo.fresh none) typed m₁ ds ∧
      typed.map Prod.fst = (undeclaredSum.kindAt 2).children ∧
      ∃ ty m₂ own, Runs (ownType undeclaredSum {} 2 (.arith ⟨some 0, ⟨"+", {}⟩, some 1⟩) typed)
          m₁ ty m₂ own ∧
        Runs (getType undeclaredSum {} 2) (Memo.fresh none) ty
          { m₂ with types := m₂.types.insert 2 ty } (ds ++ own) ∧
        ((∃ p ∈ typed, p.2 = .error) → ty = .error ∧ own = []) ∧
        (∀ d ∈ own, d.fault.fromPreparation = false → ty = .error) :=
  ⟨rfl, rfl, getType_error_discipline undeclaredSum {} rfl (Memo.fresh none) rfl⟩

end Analysis

end DecafCheck
