import DecafCheck.Proofs.Coverage
/-!
# Properties that every step of the analysis keeps

Many facts about the analysis hold of its lookups, rules and checks for one reason: they hold of
answering, of reporting the fault of a rule or check, and of the lookups every other one is built
from (preparing a scope and reading it back, looking a name up, finding a superclass), and
sequencing keeps them. `Stepwise t P` says that a property `P` of computations is of this kind.
Then every lookup, typing rule and check of a declaration or statement has `P`
(`Stepwise.exprType`, `Stepwise.beforeChildren`, ...), and so do `check`, `getType`, `infer` and
`checkNode`, once `P` passes the three places where the checker reads and writes its own tables
(`Stepwise.checkBlock`).

A conflict or a cycle is reported only while preparing a scope, so `Stepwise` asks `P` of the
reports of rules and checks only: a property about what preparation reports can still be stepwise.
-/

namespace DecafCheck

namespace Analysis

variable (t : Tree) (cfg : Config)

/-- A property of analysis computations that answering, the reports of rules and checks and the
basic lookups have, and that sequencing keeps. -/
structure Stepwise (P : {α : Type} → AnalysisM α → Prop) : Prop where
  /-- Answering. -/
  pure {α : Type} (a : α) : P (Pure.pure a : AnalysisM α)
  /-- Sequencing. -/
  bind {α β : Type} {c : AnalysisM α} {f : α → AnalysisM β} : P c → (∀ a, P (f a)) → P (c >>= f)
  /-- Reporting a fault of a rule or a check. -/
  report (span : Span) {fault : Fault} : fault.fromPreparation = false →
    P (DecafCheck.report span fault)
  /-- Preparing a scope. -/
  prepare (n : Nat) : P (Analysis.prepareScope t n)
  /-- Preparing a scope and reading it. -/
  prepared (n : Nat) : P (Analysis.prepareScope t n >>= fun _ => DecafCheck.preparedScope n)
  /-- Looking a name up. -/
  find (n : Nat) (x : String) (deep : Bool) : P (Analysis.findDecl t n x deep)
  /-- Finding the superclass of a class. -/
  super (c : Nat) : P (Analysis.superclassOf t c)

/-- Checking a declaration or statement once it is marked: before its children, each child by its
role, after its children. -/
def checkBody (n : Nat) : AnalysisM Unit := do
  beforeChildren t n (t.kindAt n)
  (t.kindAt n).roles.forM (checkChild t cfg n)
  afterChildren t cfg n (t.kindAt n)

namespace Stepwise

variable {t} {P : {α : Type} → AnalysisM α → Prop} (h : Stepwise t P)
include h

lemma map {α β : Type} (g : α → β) {c : AnalysisM α} (hc : P c) : P (g <$> c) := by
  rw [map_eq_pure_bind]
  exact h.bind hc fun a => h.pure (g a)

/-- Reporting a fault of a rule, then answering. -/
lemma report_pure {α : Type} (span : Span) {fault : Fault} (hf : fault.fromPreparation = false)
    (a : α) : P (DecafCheck.report span fault >>= fun _ => Pure.pure a) :=
  h.bind (h.report span hf) fun _ => h.pure a

lemma forM {γ : Type} (xs : List γ) {g : γ → AnalysisM PUnit} (hg : ∀ x ∈ xs, P (g x)) :
    P (xs.forM g) := by
  induction xs with
  | nil => exact h.pure PUnit.unit
  | cons x rest ih =>
    exact h.bind (hg x (List.mem_cons_self ..)) fun _ =>
      ih fun y hy => hg y (List.mem_cons_of_mem x hy)

lemma mapM {γ β : Type} (xs : List γ) {g : γ → AnalysisM β} (hg : ∀ x ∈ xs, P (g x)) :
    P (xs.mapM g) := by
  induction xs with
  | nil => exact h.pure []
  | cons x rest ih =>
    rw [List.mapM_cons]
    refine h.bind (hg x (List.mem_cons_self ..)) fun b => ?_
    exact h.bind (ih fun y hy => hg y (List.mem_cons_of_mem x hy)) fun bs => h.pure (b :: bs)

lemma forIn {γ β : Type} (xs : List γ) (b : β) {g : γ → β → AnalysisM (ForInStep β)}
    (hg : ∀ x b, P (g x b)) : P (forIn xs b g) := by
  induction xs generalizing b with
  | nil => exact h.pure b
  | cons x rest ih =>
    rw [List.forIn_cons]
    refine h.bind (hg x b) fun step => ?_
    cases step with
    | done b' => exact h.pure b'
    | yield b' => exact ih b'

/-! ## Lookups -/

theorem isClassScope (n : Nat) (deep : Bool) : P (Analysis.isClassScope t n deep) := by
  rw [Analysis.isClassScope]
  refine h.bind (h.prepare n) fun _ => ?_
  split
  · exact h.pure _
  · next p hp =>
    split
    · exact h.pure _
    · split
      · obtain ⟨_, _⟩ := Tree.parentOf_spec hp
        exact isClassScope p deep
      · exact h.pure _
termination_by t.size - n
decreasing_by omega

theorem chainFrom (seen : List Nat) (c : Nat) : P (Analysis.chainFrom t seen c) := by
  rw [Analysis.chainFrom]
  refine h.bind (h.super c) fun r => ?_
  cases r with
  | none => exact h.pure []
  | some next =>
    by_cases hs : next ∈ seen
    · simp only [hs, dite_true]
      exact h.pure []
    · by_cases hn : next < t.size
      · have := t.unseen_cons_lt hn hs
        simp only [hs, hn, dite_false, dite_true]
        exact h.bind (chainFrom (next :: seen) next) fun l => h.pure (next :: l)
      · simp only [hs, hn, dite_false]
        exact h.pure []
termination_by t.unseen seen

theorem classChain (c : Nat) : P (Analysis.classChain t c) :=
  h.bind (h.chainFrom [c] c) fun l => h.pure (c :: l)

theorem isSubclassOf (sub sup : Nat) : P (Analysis.isSubclassOf t sub sup) :=
  h.bind (h.classChain sub) fun l => h.pure (l.contains sup)

theorem namesFind (p iface : Nat) (ids : List Ident) : P (Analysis.namesFind t p iface ids) := by
  induction ids with
  | nil => exact h.pure false
  | cons id rest ih =>
    rw [Analysis.namesFind]
    refine h.bind (h.find p id.name true) fun _ => ?_
    split
    · exact h.pure true
    · exact ih

theorem anyImplements (iface : Nat) (cs : List Nat) : P (Analysis.anyImplements t iface cs) := by
  induction cs with
  | nil => exact h.pure false
  | cons c rest ih =>
    rw [Analysis.anyImplements]
    split
    · next cd p _ _ =>
      refine h.bind (h.namesFind p iface cd.interfaces) fun _ => ?_
      split
      · exact h.pure true
      · exact ih
    · exact ih

theorem implementsIface (c iface : Nat) : P (Analysis.implementsIface t c iface) :=
  h.bind (h.classChain c) fun l => h.anyImplements iface l

theorem resolveNamed (n : Nat) (id : Ident) : P (Analysis.resolveNamed t n id) :=
  h.bind (h.find n id.name true) fun r => h.pure (r.filter fun d => (t.kindAt d).isTypeDecl)

theorem equivalent (n : Nat) (a b : Ty) : P (Analysis.equivalent t n a b) := by
  fun_induction Analysis.equivalent t n a b with
  | case1 x y =>
    refine h.bind (h.resolveNamed n x) fun _ => h.bind (h.resolveNamed n y) fun _ => ?_
    split
    · exact h.pure _
    · exact h.pure _
  | case2 x y ih => exact ih
  | case3 a b => exact h.pure _

theorem compatible (n : Nat) (source target : Ty) : P (Analysis.compatible t n source target) := by
  unfold Analysis.compatible
  split
  · exact h.pure true
  split
  · exact h.pure _
  refine h.bind (h.equivalent n source target) fun _ => ?_
  split
  · exact h.pure true
  -- a class where one of its superclasses, or an interface one of them implements, is expected
  split
  · refine h.bind (h.resolveNamed n _) fun _ => h.bind (h.resolveNamed n _) fun _ => ?_
    split
    · split
      · exact h.pure false
      split
      · exact h.isSubclassOf _ _
      split
      · exact h.implementsIface _ _
      · exact h.pure false
    · exact h.pure false
  · exact h.pure false

theorem fieldAccessible (n c : Nat) : P (Analysis.fieldAccessible t cfg n c) := by
  unfold Analysis.fieldAccessible
  split
  · exact h.pure true
  · exact h.isClassScope n true
  · refine h.bind (h.isClassScope n true) fun _ => ?_
    split
    · split
      · exact h.isSubclassOf _ _
      · exact h.pure false
    · exact h.pure false

theorem formalsAgree (n : Nat) (mine theirs : List Nat) :
    P (Analysis.formalsAgree t n mine theirs) := by
  induction mine generalizing theirs with
  | nil => exact h.pure true
  | cons x rest ih =>
    cases theirs with
    | nil => exact h.pure true
    | cons y others =>
      rw [Analysis.formalsAgree]
      split
      · refine h.bind (h.equivalent n _ _) fun _ => ?_
        split
        · exact ih others
        · exact h.pure false
      · exact ih others

/-! ## Typing rules -/

theorem operandsMismatch (c : Compound) (l r : Ty) : P (Analysis.operandsMismatch c l r) :=
  h.report_pure _ rfl _

theorem operandMismatch (c : Compound) (x : Ty) : P (Analysis.operandMismatch c x) :=
  h.report_pure _ rfl _

theorem noSuchField (name : Ident) (base : Ty) : P (Analysis.noSuchField name base) :=
  h.report_pure _ rfl _

theorem arithType (n : Nat) (c : Compound) (l r : Option Ty) :
    P (Analysis.arithType t n c l r) := by
  unfold Analysis.arithType
  split
  · refine h.bind (h.equivalent n _ _) fun _ => ?_
    split
    · exact h.pure _
    · exact h.operandsMismatch c _ _
  · split
    · exact h.pure _
    · exact h.operandMismatch c _
  · split
    · exact h.pure _
    · exact h.operandMismatch c _
  · exact h.pure _

theorem relType (n : Nat) (c : Compound) (l r : Option Ty) : P (Analysis.relType t n c l r) := by
  unfold Analysis.relType
  split
  · dsimp only
    split
    · refine h.bind (h.equivalent n _ _) fun _ => ?_
      split
      · exact h.pure _
      · exact h.operandsMismatch c _ _
    · exact h.operandsMismatch c _ _
  · exact h.pure _

theorem equalityType (n : Nat) (c : Compound) (l r : Option Ty) :
    P (Analysis.equalityType t n c l r) := by
  unfold Analysis.equalityType
  split
  · split
    · exact h.operandsMismatch c _ _
    · refine h.bind (h.compatible n _ _) fun _ => ?_
      split
      · exact h.pure _
      · refine h.bind (h.compatible n _ _) fun _ => ?_
        split
        · exact h.pure _
        · exact h.operandsMismatch c _ _
  · exact h.pure _

theorem logicalType (c : Compound) (l r : Option Ty) : P (Analysis.logicalType c l r) := by
  unfold Analysis.logicalType
  split
  · split
    · exact h.pure _
    · exact h.operandsMismatch c _ _
  · split
    · exact h.pure _
    · exact h.operandMismatch c _
  · split
    · exact h.pure _
    · exact h.operandMismatch c _
  · exact h.pure _

theorem assignType (n : Nat) (c : Compound) (l r : Option Ty) :
    P (Analysis.assignType t n c l r) := by
  unfold Analysis.assignType
  split
  · refine h.bind (h.compatible n _ _) fun _ => ?_
    split
    · exact h.pure _
    · exact h.operandsMismatch c _ _
  · exact h.pure _

theorem thisType (n : Nat) : P (Analysis.thisType t n) := by
  unfold Analysis.thisType
  refine h.bind (h.isClassScope n true) fun _ => ?_
  dsimp only
  split
  · split
    · exact h.pure _
    · exact h.report_pure _ rfl _
  · exact h.report_pure _ rfl _

theorem indexType (base subscript : Nat) (baseTy subscriptTy : Ty) :
    P (Analysis.indexType t base subscript baseTy subscriptTy) := by
  unfold Analysis.indexType
  dsimp only
  split
  · rw [pure_bind]
    split
    · exact h.pure _
    · exact h.report_pure _ rfl _
  · refine h.bind (h.report _ rfl) fun _ => ?_
    rw [pure_bind]
    split
    · exact h.pure _
    · exact h.report_pure _ rfl _

theorem varType (n : Nat) (name : Ident) : P (Analysis.varType t n name) := by
  unfold Analysis.varType
  refine h.bind (h.find n _ true) fun _ => ?_
  split
  · exact h.pure _
  · exact h.report_pure _ rfl _

theorem fieldType (n : Nat) (name : Ident) (baseTy : Ty) :
    P (Analysis.fieldType t cfg n name baseTy) := by
  unfold Analysis.fieldType
  split
  · exact h.pure _
  · refine h.bind (h.resolveNamed n _) fun _ => ?_
    split
    · exact h.report_pure _ rfl _
    · split
      · exact h.noSuchField _ _
      · refine h.bind (h.find _ _ false) fun _ => ?_
        split
        · exact h.noSuchField _ _
        · refine h.bind (h.fieldAccessible cfg _ _) fun _ => ?_
          split
          · exact h.pure _
          · exact h.report_pure _ rfl _
  · exact h.noSuchField _ _

theorem checkArgs (n : Nat) (name : Ident) (i : Nat) (formals : List Nat)
    (args : List (Nat × Ty)) : P (Analysis.checkArgs t n name i formals args) := by
  induction formals generalizing i args with
  | nil => exact h.pure _
  | cons formal formals ih =>
    cases args with
    | nil => exact h.pure _
    | cons arg rest =>
      obtain ⟨actual, given⟩ := arg
      rw [Analysis.checkArgs]
      dsimp only
      -- whatever this argument gives, the later ones are checked all the same
      have hlater : ∀ here : Bool, P (do
          let later ← Analysis.checkArgs t n name (i + 1) formals rest
          Pure.pure (here && later)) :=
        fun _ => h.bind (ih (i + 1) rest) fun _ => h.pure _
      split
      · rw [pure_bind]
        exact hlater true
      · refine h.bind (h.compatible n _ _) fun _ => ?_
        split
        · rw [pure_bind]
          exact hlater true
        · refine h.bind (h.report _ rfl) fun _ => ?_
          rw [pure_bind]
          exact hlater false

theorem callOf (n : Nat) (name : Ident) (f : Nat) (args : List (Nat × Ty)) :
    P (Analysis.callOf t n name f args) := by
  unfold Analysis.callOf
  split
  · split
    · exact h.report_pure _ rfl _
    · refine h.bind (h.checkArgs n name 1 _ _) fun _ => ?_
      split
      · exact h.pure _
      · exact h.pure _
  · exact h.pure _

theorem callType (n : Nat) (name : Ident) (baseTy : Option Ty) (args : List (Nat × Ty)) :
    P (Analysis.callType t n name baseTy args) := by
  unfold Analysis.callType
  split
  · refine h.bind (h.find n _ true) fun _ => ?_
    split
    · exact h.callOf n name _ args
    · exact h.report_pure _ rfl _
  · split
    · split
      · exact h.pure _
      · exact h.report_pure _ rfl _
    · exact h.noSuchField _ _
  · refine h.bind (h.resolveNamed n _) fun _ => ?_
    split
    · exact h.report_pure _ rfl _
    · refine h.bind (h.find _ _ false) fun _ => ?_
      split
      · exact h.callOf n name _ args
      · exact h.noSuchField _ _
  · exact h.noSuchField _ _

theorem newType (n : Nat) (cls : Ident) : P (Analysis.newType t n cls) := by
  unfold Analysis.newType
  refine h.bind (h.find n _ true) fun _ => ?_
  split
  · exact h.pure _
  · exact h.report_pure _ rfl _

theorem checkType (n : Nat) (ty : Ty) : P (Analysis.checkType t n ty) := by
  induction ty with
  | named id =>
    unfold Analysis.checkType
    refine h.bind (h.resolveNamed n id) fun _ => ?_
    split
    · exact h.pure _
    · exact h.report_pure _ rfl _
  | array elem ih =>
    unfold Analysis.checkType
    exact ih
  | _ => exact h.pure _

theorem newArrayType (n size : Nat) (sizeTy elem : Ty) :
    P (Analysis.newArrayType t n size sizeTy elem) := by
  unfold Analysis.newArrayType
  split
  · refine h.bind (h.checkType n elem) fun _ => ?_
    split
    · exact h.pure _
    · exact h.pure _
  · exact h.report_pure _ rfl _

/-- Every typing rule. -/
theorem exprType (n : Nat) (typeOf : Nat → Ty) (e : Expr) :
    P (Analysis.exprType t cfg n typeOf e) := by
  cases e with
  | arith c => exact h.arithType n c _ _
  | rel c => exact h.relType n c _ _
  | equality c => exact h.equalityType n c _ _
  | logical c => exact h.logicalType c _ _
  | assign c => exact h.assignType n c _ _
  | thisRef => exact h.thisType n
  | index base subscript => exact h.indexType base subscript _ _
  | field base name =>
    cases base with
    | none => exact h.varType n name
    | some base => exact h.fieldType cfg n name _
  | call base name actuals => exact h.callType n name _ _
  | new cls => exact h.newType n cls
  | newArray size elem => exact h.newArrayType n size _ elem
  | _ => exact h.pure _

/-! ## Checks of declarations and statements -/

theorem checkInheritance (c : Nat) : P (Analysis.checkInheritance t c) := by
  unfold Analysis.checkInheritance
  split
  · extract_lets jp
    -- the interfaces, one lookup each
    have hjp : ∀ r, P (jp r) := by
      intro _
      refine h.bind (h.forIn _ _ fun _ _ => ?_) fun _ => h.pure ()
      refine h.bind (h.find _ _ true) fun _ => ?_
      split
      · exact h.pure _
      · exact h.report_pure _ rfl _
    -- the superclass
    split
    · refine h.bind (h.find _ _ true) fun _ => ?_
      split
      · exact hjp ()
      · exact h.bind (h.report _ rfl) hjp
    · exact hjp ()
  · exact h.pure ()

theorem checkOverride (n : Nat) : P (Analysis.checkOverride t cfg n) := by
  unfold Analysis.checkOverride
  split
  · split
    · split
      · split
        · refine h.bind (h.super _) fun _ => ?_
          split
          · rw [← bind_assoc]
            refine h.bind (h.prepared _) fun _ => ?_
            extract_lets inherited jp
            split
            · split
              · refine h.bind (h.equivalent n _ _) fun _ => ?_
                have hjp : ∀ b, P (jp b) := by
                  intro _
                  dsimp only [jp]
                  split
                  · exact h.pure ()
                  · exact h.report _ rfl
                split
                · exact h.bind (h.formalsAgree n _ _) hjp
                · exact h.bind (h.pure false) hjp
              · exact h.pure ()
            · exact h.pure ()
          · exact h.pure ()
        · exact h.pure ()
      · exact h.pure ()
    · exact h.pure ()
  · exact h.pure ()

theorem afterTyped (n x : Nat) (ty : Ty) (role : Role) : P (Analysis.afterTyped t n x ty role) := by
  unfold Analysis.afterTyped
  split
  · exact h.pure ()
  · split
    · exact h.pure ()
    · exact h.report _ rfl
  · split
    · exact h.pure ()
    · exact h.report _ rfl
  · split
    · exact h.pure ()
    · refine h.bind (h.compatible n _ _) fun _ => ?_
      split
      · exact h.pure ()
      · exact h.report _ rfl

theorem beforeChildren (n : Nat) (k : NodeKind) : P (Analysis.beforeChildren t n k) := by
  unfold Analysis.beforeChildren
  split
  · exact h.prepare n
  · exact h.map _ (h.checkType n _)
  · exact h.bind (h.prepare n) fun _ => h.map _ (h.checkType n _)
  · exact h.bind (h.prepare n) fun _ => h.checkInheritance n
  · exact h.prepare n
  · exact h.prepare n
  · exact h.pure ()

theorem afterChildren (n : Nat) (k : NodeKind) : P (Analysis.afterChildren t cfg n k) := by
  unfold Analysis.afterChildren
  split
  · exact h.checkOverride cfg n
  · split
    · exact h.pure ()
    · exact h.report _ rfl
  · exact h.pure ()

end Stepwise

end Analysis

/-! ## The checker -/

namespace Tree

/-- The rank of typing `n` among the checker's steps on `n`: an expression is typed, then marked
checked; anything else is marked checked, then typed. Every step on a child ranks lower. -/
def typeRank (t : Tree) (n : Nat) : Nat := 2 * n + if (t.kindAt n).isExpr then 0 else 1

/-- The rank of checking `n`. -/
def checkRank (t : Tree) (n : Nat) : Nat := 2 * n + if (t.kindAt n).isExpr then 1 else 0

variable {t : Tree} {n x : Nat}

lemma two_mul_le_typeRank : 2 * n ≤ t.typeRank n := by
  unfold typeRank
  split <;> omega

lemma two_mul_le_checkRank : 2 * n ≤ t.checkRank n := by
  unfold checkRank
  split <;> omega

lemma typeRank_lt_of_lt (h : x < n) : t.typeRank x + 1 ≤ 2 * n := by
  unfold typeRank
  split <;> omega

lemma checkRank_lt_of_lt (h : x < n) : t.checkRank x + 1 ≤ 2 * n := by
  unfold checkRank
  split <;> omega

lemma typeRank_of_expr (h : (t.kindAt n).isExpr) : t.typeRank n = 2 * n := by
  simp [typeRank, h]

lemma typeRank_of_not_expr (h : (t.kindAt n).isExpr = false) : t.typeRank n = t.checkRank n + 1 := by
  simp [typeRank, checkRank, h]

/-- One node, one checking rank. -/
lemma checkRank_inj {k : Nat} (h : t.checkRank k = t.checkRank n) : k = n := by
  unfold checkRank at h
  split at h <;> split at h <;> omega

end Tree

namespace Analysis

variable (t : Tree) (cfg : Config)

/-- A property of computations at each bound, stepwise at every bound and kept as the bound grows.
Once it passes the checker's own steps on its tables (a type found once and remembered, an
expression checked once by typing it, a declaration or statement checked once), checking and typing
have it at the ranks of those steps: `t.checkRank n + 1` for checking `n`, `t.typeRank n + 1` for
typing it and `t.typeRank n` for inferring its type. The rest is rules, lookups and sequencing, and
every step on a child ranks below the steps on its parent. Only a declaration or a statement is
checked by `checkNode`. -/
theorem Stepwise.checkBlock {P : Nat → {α : Type} → AnalysisM α → Prop}
    (h : ∀ b, Stepwise t (P b))
    (mono : ∀ {α : Type} {b b' : Nat} {c : AnalysisM α}, b ≤ b' → P b c → P b' c)
    (hget : ∀ n, P (t.typeRank n) (infer t cfg n) → P (t.typeRank n + 1) (getType t cfg n))
    (hcheck : ∀ n, (t.kindAt n).isExpr → P (t.typeRank n + 1) (getType t cfg n) →
      P (t.checkRank n + 1) (check t cfg n))
    (hnode : ∀ n, (t.kindAt n).isExpr = false → P (t.checkRank n) (checkBody t cfg n) →
      P (t.checkRank n + 1) (checkNode t cfg n)) :
    (∀ n, P (t.checkRank n + 1) (check t cfg n)) ∧
      (∀ n, (t.kindAt n).isExpr = false → P (t.checkRank n + 1) (checkNode t cfg n)) ∧
      (∀ n, P (t.typeRank n + 1) (getType t cfg n)) ∧ (∀ n, P (t.typeRank n) (infer t cfg n)) := by
  refine check.mutual_induct t (fun n => P (t.checkRank n + 1) (check t cfg n))
    (fun n => (t.kindAt n).isExpr = false → P (t.checkRank n + 1) (checkNode t cfg n))
    (fun n => P (t.typeRank n + 1) (getType t cfg n))
    (fun n => P (t.typeRank n) (infer t cfg n)) ?_ ?_ ?_ ?_ ?_ ?_ ?_
  -- an expression is checked by typing it
  · intro n hexpr ih
    exact hcheck n hexpr ih
  -- anything else by `checkNode`
  · intro n hexpr ih
    rw [check, if_neg hexpr]
    exact ih (by simpa using hexpr)
  -- a declaration or statement: before, each child by its role, after
  · intro n ihCheck ihType hexpr
    refine hnode n hexpr ((h _).bind ((h _).beforeChildren n _) fun _ =>
      (h _).bind ((h _).forM _ fun xr hx => ?_) fun _ => (h _).afterChildren cfg n _)
    obtain ⟨x, role⟩ := xr
    have hlt : x < n := Tree.lt_of_mem_children (NodeKind.mem_children_of_mem_roles hx)
    have hrank := t.two_mul_le_checkRank (n := n)
    cases role with
    | checked => exact mono (by have := Tree.checkRank_lt_of_lt (t := t) hlt; omega) (ihCheck x .checked hx)
    | _ =>
      refine (h _).bind (mono ?_ (ihType x _ hx)) fun ty => (h _).afterTyped n x ty _
      have := Tree.typeRank_lt_of_lt (t := t) hlt
      omega
  · intro n ih
    exact hget n ih
  -- an expression: its operands, each below it, then its own rule
  · intro n e hk ih
    rw [infer_expr t cfg hk]
    have hops : P (t.typeRank n) (operandTypes t cfg n) := by
      show P _ ((t.kindAt n).children.attach.mapM fun x => do return (x.1, ← getType t cfg x.1))
      refine (h _).mapM _ fun x _ => (h _).bind ?_ fun ty => (h _).pure (x.1, ty)
      refine mono ?_ (ih x.1 x.2)
      have := Tree.typeRank_lt_of_lt (t := t) (Tree.lt_of_mem_children x.2)
      have := t.two_mul_le_typeRank (n := n)
      omega
    refine (h _).bind hops fun typed => ?_
    unfold ownType
    split
    · exact (h _).pure _
    · exact (h _).exprType cfg n _ e
  -- a variable declaration is checked and has its declared type
  · intro n v hk ih
    rw [Tree.typeRank_of_not_expr (by simp [hk, NodeKind.isExpr]), infer_var t cfg hk]
    exact (h _).bind (ih (by simp [hk, NodeKind.isExpr])) fun _ => (h _).pure _
  -- anything else is checked and has type `void`
  · intro n hne hnv ih
    have hexpr : (t.kindAt n).isExpr = false := by
      cases hk : t.kindAt n with
      | expr e => exact (hne e hk).elim
      | _ => rfl
    rw [Tree.typeRank_of_not_expr hexpr, infer_other t cfg hne hnv]
    exact (h _).bind (ih hexpr) fun _ => (h _).pure _

end Analysis

end DecafCheck
