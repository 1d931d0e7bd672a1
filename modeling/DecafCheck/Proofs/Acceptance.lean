import DecafCheck.Proofs.Idempotence
/-!
# Accepted programs and the error type

The error type silences every rule around it, so a program whose analysis reports nothing should
have no ill-typed node: every error type the checker gives should be traced to a report. That fails
where a rule gives the error type and says nothing. `+` with no operands is such a rule, and the
program whose `main` evaluates it is accepted with that node typed `error`
(`noOperands_accepted_with_error`).

Where the error type has no such silent source (`Tree.NoSilentError`) the tracing holds: a program
analysed with no diagnostic has no node whose type has the error type in it
(`accepted_types_errorFree`). The invariant is that no type found so far has the error type in it
(`Memo.ErrorFree`); every run of the checker that reports nothing keeps it, and a type found by
such a run is free of the error type (`keepsErrorFree_checkBlock`, by the mutual induction the
checker is defined by, from `rule_exprType` for each expression).
-/

namespace DecafCheck

/-- No type found so far has the error type in it. -/
def Memo.ErrorFree (m : Memo) : Prop :=
  ∀ (n : Nat) (ty : Ty), m.types[n]? = some ty → ty.hasError = false

namespace Memo.ErrorFree

variable {m m' : Memo}

lemma fresh (limit : Option Nat) : (Memo.fresh limit).ErrorFree := by
  intro n ty h
  simp [Memo.fresh] at h

lemma of_types_eq (h : m.ErrorFree) (he : m'.types = m.types) : m'.ErrorFree := by
  intro n ty hn
  rw [he] at hn
  exact h n ty hn

lemma insert (h : m.ErrorFree) {n : Nat} {ty : Ty} (hty : ty.hasError = false) :
    ({ m with types := m.types.insert n ty } : Memo).ErrorFree := by
  intro k ty' hk
  rw [Std.TreeMap.getElem?_insert] at hk
  split at hk
  · cases hk
    exact hty
  · exact h k ty' hk

end Memo.ErrorFree

namespace Analysis

variable {α β : Type} {t : Tree}

section OneExpression

/-! ### An accepted program with an ill-typed expression -/

/-- A program of one function, `main`, whose body is a block evaluating `leaf`, an expression with
no operands: node 0 is `leaf`, node 1 the block, node 2 `main`, node 3 the program. -/
def mainEvaluating (leaf : Expr) (hleaf : (NodeKind.expr leaf).children = []) : Tree where
  nodes := #[⟨{}, some 1, .expr leaf⟩, ⟨⟨1, 1, 1, 1⟩, some 2, .stmt (.block [] [0])⟩,
    ⟨{}, some 3, .decl (.fn ⟨⟨"main", {}⟩, .void, [], some 1⟩)⟩, ⟨{}, none, .program [2]⟩]
  children_lt := by
    intro i hi c hc
    rcases i with _ | _ | _ | _ | i
    · -- the leaf has no operands
      have h0 : c ∈ (NodeKind.expr leaf).children := hc
      rw [hleaf] at h0
      cases h0
    · have h1 : c ∈ [0] := hc
      rw [List.mem_singleton.1 h1]
      exact show 0 < 1 by decide
    · have h2 : c ∈ [1] := hc
      rw [List.mem_singleton.1 h2]
      exact show 1 < 2 by decide
    · have h3 : c ∈ [2] := hc
      rw [List.mem_singleton.1 h3]
      exact show 2 < 3 by decide
    · exact absurd hi (Nat.not_lt.2 (Nat.le_add_left 4 i))
  parent_gt := by
    intro i hi p hp
    rcases i with _ | _ | _ | _ | i
    · obtain rfl : 1 = p := Option.some.inj hp
      exact ⟨show 0 < 1 by decide, show 1 < 4 by decide⟩
    · obtain rfl : 2 = p := Option.some.inj hp
      exact ⟨show 1 < 2 by decide, show 2 < 4 by decide⟩
    · obtain rfl : 3 = p := Option.some.inj hp
      exact ⟨show 2 < 3 by decide, show 3 < 4 by decide⟩
    · cases hp
    · exact absurd hi (Nat.not_lt.2 (Nat.le_add_left 4 i))

/-- An expression with no operands has none to type. -/
lemma operandTypes_of_children_nil {cfg : Config} {n : Nat} (h : (t.kindAt n).children = []) :
    operandTypes t cfg n = pure [] := by
  unfold operandTypes
  rw [List.attach_eq_nil_iff.2 h]
  rfl

/-- Preparing the scope of a node that is no class declares its entries and reports their
conflicts. -/
lemma runs_prepareScope_of_cls_none {n : Nat} {es : List Nat} {m : Memo}
    (hs : m.scopes.contains n = false) (hk : (t.kindAt n).scopeEntries? = some es)
    (hc : (t.kindAt n).cls? = none) :
    ∃ s, Runs (prepareScope t n) m () { m with scopes := m.scopes.insert n s }
      (t.ownConflicts es) := by
  obtain ⟨own, hown, -⟩ := runs_declareEntries t es m
  have hr := runs_prepareWithin_build hs hk List.not_mem_nil hown
    (runs_inheritWithin_of_cls_none hc)
  rw [List.append_nil] at hr
  exact ⟨own, hr⟩

variable {leaf : Expr} {hleaf : (NodeKind.expr leaf).children = []}

/-- Checking the leaf types it, with what its rule gives. -/
lemma runs_check_leaf {ty : Ty}
    (hty : ∀ m, Runs (exprType (mainEvaluating leaf hleaf) {} 0 (fun _ => .error) leaf) m ty m [])
    (m : Memo) (hc : m.checked.contains 0 = false) (hn : m.types[0]? = none) :
    Runs (check (mainEvaluating leaf hleaf) {} 0) m ()
      { m with checked := m.checked.insert 0, types := m.types.insert 0 ty } [] := by
  have hinfer : Runs (infer (mainEvaluating leaf hleaf) {} 0)
      { m with checked := m.checked.insert 0 } ty { m with checked := m.checked.insert 0 } [] := by
    rw [infer_expr _ {} (e := leaf) rfl,
      operandTypes_of_children_nil (t := mainEvaluating leaf hleaf) (n := 0) hleaf]
    exact (Runs.pure [] _).bind (hty _)
  exact runs_check_expr rfl hc (runs_getType_infer (m := { m with checked := m.checked.insert 0 })
    hn hinfer)

section Run

variable {ty : Ty}
  (hty : ∀ m, Runs (exprType (mainEvaluating leaf hleaf) {} 0 (fun _ => .error) leaf) m ty m [])
include hty

lemma runs_check_block (m : Memo) (hc₁ : m.checked.contains 1 = false)
    (hc₀ : m.checked.contains 0 = false) (hn : m.types[0]? = none)
    (hs : m.scopes.contains 1 = false) :
    ∃ m', Runs (check (mainEvaluating leaf hleaf) {} 1) m () m' [] ∧ m'.types[0]? = some ty := by
  rw [check_of_not_expr _ {} rfl]
  obtain ⟨s, hb⟩ := runs_prepareScope_of_cls_none (t := mainEvaluating leaf hleaf)
    (m := { m with checked := m.checked.insert 1 }) hs rfl rfl
  have h0 := runs_check_leaf hty
    { m with checked := m.checked.insert 1, scopes := m.scopes.insert 1 s } (by simpa using hc₀) hn
  have hr := h0.bind (f := fun _ => (pure () : AnalysisM Unit)) (Runs.pure () _)
  have hrun : Runs (checkNode (mainEvaluating leaf hleaf) {} 1) _ () _ _ :=
    runs_checkNode hc₁ hb hr (Runs.pure () _)
  exact ⟨_, by simpa [Tree.ownConflicts, Tree.conflictsAfter] using hrun, by simp⟩

lemma runs_check_main (m : Memo) (hc₂ : m.checked.contains 2 = false)
    (hc₁ : m.checked.contains 1 = false) (hc₀ : m.checked.contains 0 = false)
    (hn : m.types[0]? = none) (hs₂ : m.scopes.contains 2 = false)
    (hs₁ : m.scopes.contains 1 = false) :
    ∃ m', Runs (check (mainEvaluating leaf hleaf) {} 2) m () m' [] ∧ m'.types[0]? = some ty := by
  rw [check_of_not_expr _ {} rfl]
  obtain ⟨s, hp⟩ := runs_prepareScope_of_cls_none (t := mainEvaluating leaf hleaf)
    (m := { m with checked := m.checked.insert 2 }) hs₂ rfl rfl
  have hb := hp.bind (f := fun _ => discard (checkType (mainEvaluating leaf hleaf) 2 .void))
    (Runs.pure () _)
  obtain ⟨m', h1, hty⟩ := runs_check_block hty
    { m with checked := m.checked.insert 2, scopes := m.scopes.insert 2 s } (by simpa using hc₁)
    (by simpa using hc₀) hn (by simpa using hs₁)
  have hr := h1.bind (f := fun _ => (pure () : AnalysisM Unit)) (Runs.pure () _)
  have hrun : Runs (checkNode (mainEvaluating leaf hleaf) {} 2) _ () _ _ :=
    runs_checkNode hc₂ hb hr (Runs.pure () _)
  exact ⟨_, by simpa [Tree.ownConflicts, Tree.conflictsAfter] using hrun, hty⟩

lemma runs_check_program :
    ∃ m', Runs (check (mainEvaluating leaf hleaf) {} 3) (Memo.fresh none) () m' [] ∧
      m'.types[0]? = some ty := by
  rw [check_of_not_expr _ {} rfl]
  obtain ⟨s, hb⟩ := runs_prepareScope_of_cls_none (t := mainEvaluating leaf hleaf) (n := 3)
    (m := { (Memo.fresh none) with checked := (Memo.fresh none).checked.insert 3 })
    rfl rfl rfl
  obtain ⟨m', h2, hty⟩ := runs_check_main hty
    { (Memo.fresh none) with
      checked := (Memo.fresh none).checked.insert 3
      scopes := (Memo.fresh none).scopes.insert 3 s } rfl rfl rfl rfl rfl rfl
  have hr := h2.bind (f := fun _ => (pure () : AnalysisM Unit)) (Runs.pure () _)
  have hrun : Runs (checkNode (mainEvaluating leaf hleaf) {} 3) _ () _ _ :=
    runs_checkNode rfl hb hr (Runs.pure () _)
  have hnil : (mainEvaluating leaf hleaf).ownConflicts [2] = [] := rfl
  exact ⟨_, by simpa [hnil] using hrun, hty⟩

/-- The program is accepted, and its leaf has the type its rule gives. -/
theorem analyzeProgram_mainEvaluating :
    ∃ m, analyzeProgram (mainEvaluating leaf hleaf) {} 3 = .ok m ∧ m.log.count = 0 ∧
      m.types[0]? = some ty := by
  obtain ⟨m', hr, hty⟩ := runs_check_program hty
  have ha : Runs (analyze (mainEvaluating leaf hleaf) {} 3) (Memo.fresh none) (.ok ()) m' [] := by
    have h := hr.bind (f := fun _ => (pure (.ok ()) : AnalysisM (Except Refusal Unit)))
      (Runs.pure _ m')
    rw [List.append_nil] at h
    unfold analyze
    exact h
  refine ⟨m'.withLog (Memo.fresh none).log, ?_, rfl, hty⟩
  have hrun := ha.run_eq
  simp only [Log.reportAll_nil] at hrun
  simp [analyzeProgram, hrun]

end Run

/-- `main` evaluates `+` with no operands: the program is accepted, with no diagnostic, and the
`+` is typed `error`. -/
theorem noOperands_accepted_with_error :
    ∃ m, analyzeProgram (mainEvaluating (.arith ⟨none, ⟨"+", {}⟩, none⟩) rfl) {} 3 = .ok m ∧
      m.log.count = 0 ∧ m.types[0]? = some .error :=
  analyzeProgram_mainEvaluating fun m => Runs.pure Ty.error m

end OneExpression

/-- A run of `c` that reports nothing, from a memory whose types are free of the error type, ends
in such a memory with an answer that `clean` holds of. -/
def KeepsErrorFree (c : AnalysisM α) (clean : α → Prop) : Prop :=
  Spec c fun m a m' ds => ds = [] → m.ErrorFree → m'.ErrorFree ∧ clean a

namespace KeepsErrorFree

variable {c : AnalysisM α} {f : α → AnalysisM β} {P P' : α → Prop} {Q : β → Prop}

lemma pure {a : α} (ha : P a) : KeepsErrorFree (pure a : AnalysisM α) P :=
  fun m => ⟨a, m, [], Runs.pure a m, fun _ hm => ⟨hm, ha⟩⟩

lemma mono (h : KeepsErrorFree c P) (hP : ∀ a, P a → P' a) : KeepsErrorFree c P' :=
  Spec.mono h fun _ _ _ _ hq hds hm => (hq hds hm).imp_right (hP _)

/-- The answer of the second step may depend on that of the first. -/
lemma bind_dep (hc : KeepsErrorFree c P) (hf : ∀ a, KeepsErrorFree (f a) fun b => P a → Q b) :
    KeepsErrorFree (c >>= f) Q := by
  refine Spec.bind hc hf fun m a m₁ ds b m₂ es h₁ h₂ hnil hm => ?_
  -- a silent run is made of silent runs
  obtain ⟨hds, hes⟩ := List.append_eq_nil_iff.1 hnil
  obtain ⟨hm₁, ha⟩ := h₁ hds hm
  obtain ⟨hm₂, hb⟩ := h₂ hes hm₁
  exact ⟨hm₂, hb ha⟩

lemma bind (hc : KeepsErrorFree c P) (hf : ∀ a, KeepsErrorFree (f a) Q) :
    KeepsErrorFree (c >>= f) Q :=
  hc.bind_dep fun a => (hf a).mono fun _ hb _ => hb

lemma map (g : α → β) (hc : KeepsErrorFree c P) (hg : ∀ a, P a → Q (g a)) :
    KeepsErrorFree (g <$> c) Q := by
  rw [map_eq_pure_bind]
  exact hc.bind_dep fun a => KeepsErrorFree.pure (hg a)

/-- What leaves the types alone keeps them free of the error type. -/
lemma of_keeps (h : Keeps (Memo.GrownUntyped t) c) : KeepsErrorFree c fun _ => True :=
  Spec.mono h fun _ _ _ _ hg _ hm => ⟨hm.of_types_eq hg.types_eq, trivial⟩

/-- A silent run of a typing rule answers what its rule promises when it is silent. -/
lemma of_rule {failed quiet : α → Prop} (h : RuleSpec t failed quiet c) :
    KeepsErrorFree c quiet :=
  Spec.mono h fun _ _ _ _ hr hds hm => ⟨hm.of_types_eq hr.untyped.types_eq, hr.quiet_of_nil hds⟩

/-- A loop over a list keeps the types free of the error type when each of its steps does. -/
lemma forIn {γ : Type} (xs : List γ) (b : β) {g : γ → β → AnalysisM (ForInStep β)}
    (hg : ∀ x b, KeepsErrorFree (g x b) fun _ => True) :
    KeepsErrorFree (forIn xs b g) fun _ => True := by
  induction xs generalizing b with
  | nil => exact KeepsErrorFree.pure trivial
  | cons x rest ih =>
    rw [List.forIn_cons]
    refine (hg x b).bind fun step => ?_
    cases step with
    | done b' => exact KeepsErrorFree.pure trivial
    | yield b' => exact ih b'

/-- Mapping over a list: every answer of a silent run is clean. -/
lemma mapM {γ : Type} (xs : List γ) {g : γ → AnalysisM β}
    (hg : ∀ x ∈ xs, KeepsErrorFree (g x) Q) :
    KeepsErrorFree (xs.mapM g) fun bs => ∀ b ∈ bs, Q b := by
  induction xs with
  | nil => exact KeepsErrorFree.pure nofun
  | cons x rest ih =>
    rw [List.mapM_cons]
    refine (hg x (List.mem_cons_self ..)).bind_dep fun b => ?_
    refine (ih fun y hy => hg y (List.mem_cons_of_mem x hy)).bind_dep fun bs => ?_
    refine KeepsErrorFree.pure fun hbs hb => ?_
    intro b' hb'
    rcases List.mem_cons.1 hb' with rfl | hb'
    · exact hb
    · exact hbs b' hb'

end KeepsErrorFree

/-- Looking up a listed operand gives its listed type, so a clean one. -/
lemma lookup_getD_clean {typed : List (Nat × Ty)} (h : ∀ p ∈ typed, p.2.hasError = false)
    {x : Nat} (hx : x ∈ typed.map Prod.fst) : ((typed.lookup x).getD .error).hasError = false := by
  induction typed with
  | nil => simp at hx
  | cons p rest ih =>
    obtain ⟨y, ty⟩ := p
    rw [List.lookup_cons]
    cases hxy : x == y with
    | true => exact h _ (List.mem_cons_self ..)
    | false =>
      have hne : x ≠ y := by simpa using hxy
      have hx' : x ∈ rest.map Prod.fst := by simpa [hne] using hx
      exact ih (fun p hp => h p (List.mem_cons_of_mem _ hp)) hx'

section Checker

variable (t : Tree) (cfg : Config)

lemma keepsErrorFree_markChecked (n : Nat) :
    KeepsErrorFree (modify fun m : Memo => { m with checked := m.checked.insert n })
      fun _ => True :=
  fun _ => ⟨⟨⟩, _, [], Runs.modify fun _ => rfl, fun _ hm => ⟨hm.of_types_eq rfl, trivial⟩⟩

/-- The operands of an expression typed silently each get a clean type, and are listed in order. -/
lemma keepsErrorFree_operandTypes (n : Nat)
    (ih : ∀ x ∈ (t.kindAt n).children,
      KeepsErrorFree (getType t cfg x) fun ty => ty.hasError = false) :
    KeepsErrorFree (operandTypes t cfg n) fun typed =>
      typed.map Prod.fst = (t.kindAt n).children ∧ ∀ p ∈ typed, p.2.hasError = false := by
  have hclean : KeepsErrorFree (operandTypes t cfg n) fun typed =>
      ∀ p ∈ typed, p.2.hasError = false :=
    KeepsErrorFree.mapM _ fun x _ =>
      KeepsErrorFree.bind_dep (ih x.1 x.2) fun _ => KeepsErrorFree.pure id
  have hkeys := spec_mapM_keyed (t.kindAt n).children.attach Subtype.val
    (g := fun x => getType t cfg x.1) fun x _ => (grows_checkBlock t cfg).2.2.1 x.1
  -- both are said of the one run from each memory
  refine Spec.mono (Spec.and hkeys hclean fun m a m₁ m₁' ds he hq hds hm => ?_)
    fun _ _ _ _ ⟨⟨_, hk⟩, hq⟩ hds hm => ?_
  · have htypes : m₁.types = m₁'.types := by
      simpa using congrArg Memo.types (he m₁.log)
    obtain ⟨hm', ha⟩ := hq hds hm
    exact ⟨hm'.of_types_eq htypes, ha⟩
  · obtain ⟨hm', ha⟩ := hq hds hm
    exact ⟨hm', by rw [hk, List.attach_map_subtype_val], ha⟩

variable {t} (hs : t.NoSilentError)
include hs

/-- Once its operands are typed silently and clean, an expression typed silently is clean. -/
lemma keepsErrorFree_ownType {n : Nat} {e : Expr} (hk : t.kindAt n = .expr e)
    (typed : List (Nat × Ty)) :
    KeepsErrorFree (ownType t cfg n e typed) fun ty =>
      (typed.map Prod.fst = (t.kindAt n).children ∧ ∀ p ∈ typed, p.2.hasError = false) →
        ty.hasError = false := by
  unfold ownType
  split
  · next hany =>
    -- an operand typed `error` is not clean
    refine KeepsErrorFree.pure fun ⟨_, hclean⟩ => ?_
    obtain ⟨p, hp, herr⟩ := List.any_eq_true.1 hany
    have hp' := hclean p hp
    cases hty : p.2 <;> simp_all [Ty.isError, Ty.hasError]
  · refine (KeepsErrorFree.of_rule (rule_exprType t cfg n _ e)).mono
      fun ty hq ⟨hkeys, hclean⟩ => hq hs (hk ▸ hs.kindAt n) fun x hx => ?_
    have hx' : x ∈ typed.map Prod.fst := by
      rw [hkeys, hk]
      exact hx
    exact lookup_getD_clean hclean hx'

/-- Checking and typing keep the types found free of the error type as long as nothing is
reported, and a type found so is free of it. -/
theorem keepsErrorFree_checkBlock :
    (∀ n, KeepsErrorFree (check t cfg n) fun _ => True) ∧
    (∀ n, KeepsErrorFree (checkNode t cfg n) fun _ => True) ∧
    (∀ n, KeepsErrorFree (getType t cfg n) fun ty => ty.hasError = false) ∧
    (∀ n, KeepsErrorFree (infer t cfg n) fun ty => ty.hasError = false) := by
  refine check.mutual_induct t (fun n => KeepsErrorFree (check t cfg n) fun _ => True)
    (fun n => KeepsErrorFree (checkNode t cfg n) fun _ => True)
    (fun n => KeepsErrorFree (getType t cfg n) fun ty => ty.hasError = false)
    (fun n => KeepsErrorFree (infer t cfg n) fun ty => ty.hasError = false) ?_ ?_ ?_ ?_ ?_ ?_ ?_
  -- an expression is checked by typing it, once
  · intro n hexpr ih
    rw [check, if_pos hexpr]
    refine Spec.get_bind (fun _ _ => rfl) fun m => ?_
    split
    · exact KeepsErrorFree.pure trivial m
    · exact ((keepsErrorFree_markChecked n).bind fun _ =>
        ih.map _ fun _ _ => trivial) m
  -- anything else by `checkNode`
  · intro n hexpr ih
    rw [check, if_neg hexpr]
    exact ih
  -- a declaration or statement: before, each child by its role, after; the checks find no type
  · intro n ihCheck ihType
    rw [checkNode]
    refine Spec.get_bind (fun _ _ => rfl) fun m => ?_
    split
    · exact KeepsErrorFree.pure trivial m
    · have hbefore := KeepsErrorFree.of_keeps (keeps_beforeChildren t n (t.kindAt n))
      have hafter := KeepsErrorFree.of_keeps (keeps_afterChildren t cfg n (t.kindAt n))
      refine ((keepsErrorFree_markChecked n).bind fun _ => hbefore.bind fun _ =>
        (KeepsErrorFree.forIn _ _ fun xr _ => ?_).bind fun _ => hafter) m
      obtain ⟨⟨x, role⟩, hx⟩ := xr
      cases role with
      | checked => exact (ihCheck x .checked hx).bind fun _ => KeepsErrorFree.pure trivial
      | _ =>
        exact (ihType x _ hx).bind fun ty =>
          (KeepsErrorFree.of_keeps (keeps_afterTyped t n x ty _)).bind fun _ =>
            KeepsErrorFree.pure trivial
  -- a type is found once and remembered; a clean one keeps the memory clean
  · intro n ih m
    cases hn : m.types[n]? with
    | some ty => exact ⟨ty, m, [], runs_getType_memo hn, fun _ hm => ⟨hm, hm n ty hn⟩⟩
    | none =>
      obtain ⟨ty, m₁, ds, hr, hq⟩ := ih m
      refine ⟨ty, _, ds, runs_getType_infer hn hr, fun hds hm => ?_⟩
      obtain ⟨hm₁, hty⟩ := hq hds hm
      exact ⟨hm₁.insert hty, hty⟩
  -- an expression: its operands, then its own rule
  · intro n e hk ih
    rw [infer_expr t cfg hk]
    exact (keepsErrorFree_operandTypes t cfg n fun x hx => ih x hx).bind_dep
      (keepsErrorFree_ownType cfg hs hk)
  -- a variable declaration has its declared type, which is clean
  · intro n v hk ih
    have hv : v.ty.hasError = false := by
      have h := hs.kindAt n
      rw [hk] at h
      exact h
    rw [infer_var t cfg hk]
    exact ih.bind fun _ => KeepsErrorFree.pure hv
  -- anything else is checked and has type `void`
  · intro n hne hnv ih
    rw [infer_other t cfg hne hnv]
    exact ih.bind fun _ => KeepsErrorFree.pure rfl

theorem keepsErrorFree_analyze (root : Nat) :
    KeepsErrorFree (analyze t cfg root) fun _ => True := by
  unfold analyze
  split
  · exact ((keepsErrorFree_checkBlock cfg hs).1 root).bind fun _ => KeepsErrorFree.pure trivial
  · exact KeepsErrorFree.pure trivial

end Checker

section Acceptance

variable {t : Tree} (cfg : Config)

/-- A program analysed with no diagnostic, in a tree where the error type has no silent source,
has no node whose type has the error type in it: every error type the checker gives comes with a
report. -/
theorem accepted_types_errorFree (hs : t.NoSilentError) {root : Nat} {m : Memo}
    (hok : analyzeProgram t cfg root = .ok m) (hcount : m.log.count = 0) :
    ∀ (n : Nat) (ty : Ty), m.types[n]? = some ty → ty.hasError = false := by
  obtain ⟨r, m', ds, hr, hq⟩ := keepsErrorFree_analyze cfg hs root (Memo.fresh cfg.errorLimit)
  unfold analyzeProgram at hok
  rw [hr.run_eq] at hok
  cases r with
  | error _ => simp at hok
  | ok _ =>
    -- the memory given back is where the run ends, with its reports in the log
    have hm : m'.withLog ((Memo.fresh cfg.errorLimit).log.reportAll ds) = m := by
      simpa using hok
    have hds : ds = [] := by
      rw [← hm] at hcount
      simpa [Memo.fresh, Log.withLimit] using hcount
    rw [← hm]
    exact (hq hds (Memo.ErrorFree.fresh _)).1

/-- `main` evaluates `1`: the tree has no silent source, the program is accepted, and no type
found has the error type in it. -/
theorem intLiteral_accepted_types_errorFree :
    (mainEvaluating (.intLit 1) rfl).NoSilentError ∧
      ∃ m, analyzeProgram (mainEvaluating (.intLit 1) rfl) {} 3 = .ok m ∧ m.log.count = 0 ∧
        ∀ (n : Nat) (ty : Ty), m.types[n]? = some ty → ty.hasError = false := by
  have hs : (mainEvaluating (.intLit 1) rfl).NoSilentError := by decide
  obtain ⟨m, hok, hcount, -⟩ :=
    @analyzeProgram_mainEvaluating (.intLit 1) rfl .int fun m => Runs.pure Ty.int m
  exact ⟨hs, m, hok, hcount, accepted_types_errorFree {} hs hok hcount⟩

end Acceptance

end Analysis

end DecafCheck
