import Mathlib.Order.Defs.Unbundled
import DecafCheck.Proofs.Queries
/-!
# What the typing rules report

A typing rule reports a fault of its own only together with the error type: an expression is
ill-typed exactly where its fault is reported, so the expressions around it, seeing the error
type, report nothing more. Besides its own faults a rule reports only what preparing the scopes it
looks into reports. The checks of declared types and of call arguments behave the same way with
`false` in place of the error type.

The converse holds where the error type has no silent source: a rule that reports nothing gives a
type in which the error type does not occur, as long as its operands' types are free of it, the
operator has the operands its rule needs and no declaration of the tree has the error type in its
declared type (`NodeKind.silentError`). An operator missing its operands is such a source: it is
typed `error` and nothing is said about it.

`RuleSpec t failed quiet c` says both of every run of `c`: the memo only grows and no type is
found, a run that reports any fault besides the conflicts and cycles of preparation answers
something `failed` holds of, and a run that reports nothing answers something `quiet` holds of.
The main statement is `rule_exprType`, for every expression and every operand typing. The checks
of declarations and statements are shown only to leave the types alone (`Keeps`).
-/

namespace DecafCheck

namespace Ty

/-- Whether the error type occurs in a type. -/
def hasError : Ty → Bool
  | error => true
  | array elem => elem.hasError
  | _ => false

end Ty

namespace NodeKind

/-- Whether the node can give the error type without reporting anything: an operator missing an
operand its rule needs, or a declaration whose declared type has the error type in it. -/
def silentError : NodeKind → Bool
  | expr (.arith c) | expr (.logical c) => c.left.isNone && c.right.isNone
  | expr (.rel c) | expr (.equality c) | expr (.assign c) => c.left.isNone || c.right.isNone
  | expr (.newArray _ elem) => elem.hasError
  | decl (.var v) => v.ty.hasError
  | decl (.fn f) => f.ret.hasError
  | _ => false

end NodeKind

/-- No node of the tree gives the error type without reporting anything. -/
def Tree.NoSilentError (t : Tree) : Prop :=
  ∀ node ∈ t.nodes.toList, node.kind.silentError = false

instance : DecidablePred Tree.NoSilentError := fun t =>
  inferInstanceAs (Decidable (∀ node ∈ t.nodes.toList, node.kind.silentError = false))

namespace Tree.NoSilentError

variable {t : Tree}

/-- Outside the tree a node reads as an empty expression, which is no source either. -/
lemma kindAt (h : t.NoSilentError) (n : Nat) : (t.kindAt n).silentError = false := by
  unfold Tree.kindAt Tree.get?
  split
  · next node hnode => exact h node (Array.mem_toList_iff.2 (Array.mem_of_getElem? hnode))
  · rfl

lemma var_ty (h : t.NoSilentError) {d : Nat} {v : VarDecl} (hv : (t.kindAt d).var? = some v) :
    v.ty.hasError = false := by
  have hs := h.kindAt d
  revert hv hs
  cases t.kindAt d with
  | decl dd =>
    cases dd with
    | var v' =>
      rintro ⟨⟩ hs
      exact hs
    | _ => nofun
  | _ => nofun

lemma fn_ret (h : t.NoSilentError) {d : Nat} {f : FunDecl} (hf : (t.kindAt d).fn? = some f) :
    f.ret.hasError = false := by
  have hs := h.kindAt d
  revert hf hs
  cases t.kindAt d with
  | decl dd =>
    cases dd with
    | fn f' =>
      rintro ⟨⟩ hs
      exact hs
    | _ => nofun
  | _ => nofun

end Tree.NoSilentError

namespace Memo

/-- The memo grows, no type is found, no node is marked checked and reference scopes are kept: what
a check of a declaration or statement does. -/
structure GrownUntyped (t : Tree) (m m' : Memo) : Prop where
  /-- The memo only grows. -/
  grown : m.Grown t m'
  /-- The types found are those found before. -/
  types_eq : m'.types = m.types
  /-- The nodes checked are those checked before. -/
  checked_eq : m'.checked = m.checked
  /-- The scopes prepared are reference scopes. -/
  sound : m.StaysSound t m'

instance (t : Tree) : IsPreorder Memo (Grown t) where
  refl := Grown.refl t
  trans _ _ _ := Grown.trans

instance (t : Tree) : IsPreorder Memo (GrownUntyped t) where
  refl m := ⟨Grown.refl t m, rfl, rfl, StaysSound.refl t m⟩
  trans _ _ _ h₁ h₂ :=
    ⟨h₁.grown.trans h₂.grown, h₂.types_eq.trans h₁.types_eq, h₂.checked_eq.trans h₁.checked_eq,
      h₁.sound.trans h₂.sound⟩

instance (t : Tree) : IsPreorder Memo (StaysSound t) where
  refl := StaysSound.refl t
  trans _ _ _ := StaysSound.trans

end Memo

namespace Analysis

variable {α β : Type} {t : Tree}

/-- Every run of `c` relates the memory it starts from to the one it ends with by `R`. -/
def Keeps (R : Memo → Memo → Prop) (c : AnalysisM α) : Prop := Spec c fun m _ m' _ => R m m'

namespace Keeps

variable {R R' : Memo → Memo → Prop} {c : AnalysisM α} {f : α → AnalysisM β}

lemma mono (h : Keeps R c) (hR : ∀ m m', R m m' → R' m m') : Keeps R' c :=
  Spec.mono h fun _ _ _ _ => hR _ _

/-- What leaves the types alone grows the memo. -/
lemma grown (h : Keeps (Memo.GrownUntyped t) c) : Keeps (Memo.Grown t) c :=
  h.mono fun _ _ h => h.grown

variable [IsPreorder Memo R]

lemma pure (a : α) : Keeps R (pure a : AnalysisM α) :=
  fun m => ⟨a, m, [], Runs.pure a m, refl_of R m⟩

lemma bind (hc : Keeps R c) (hf : ∀ a, Keeps R (f a)) : Keeps R (c >>= f) :=
  Spec.bind hc hf fun _ _ _ _ _ _ _ h₁ h₂ => trans_of R h₁ h₂

lemma map (g : α → β) (hc : Keeps R c) : Keeps R (g <$> c) := by
  rw [map_eq_pure_bind]
  exact hc.bind fun a => Keeps.pure (g a)

lemma report (span : Span) (fault : Fault) : Keeps R (DecafCheck.report span fault) :=
  fun m => ⟨(), m, _, Runs.report span fault, refl_of R m⟩

/-- A loop over a list keeps `R` when each of its steps does. -/
lemma forIn {γ : Type} (xs : List γ) (b : β) {g : γ → β → AnalysisM (ForInStep β)}
    (hg : ∀ x b, Keeps R (g x b)) : Keeps R (forIn xs b g) := by
  induction xs generalizing b with
  | nil => exact Keeps.pure b
  | cons x rest ih =>
    rw [List.forIn_cons]
    refine (hg x b).bind fun step => ?_
    cases step with
    | done b' => exact Keeps.pure b'
    | yield b' => exact ih b'

/-- A loop over a list, for its effects, keeps `R` when each step does. -/
lemma forM {γ : Type} (xs : List γ) {g : γ → AnalysisM PUnit}
    (hg : ∀ x ∈ xs, Keeps R (g x)) : Keeps R (xs.forM g) := by
  induction xs with
  | nil => exact Keeps.pure PUnit.unit
  | cons x rest ih =>
    exact (hg x (List.mem_cons_self ..)).bind fun _ =>
      ih fun y hy => hg y (List.mem_cons_of_mem x hy)

/-- Mapping over a list keeps `R` when each call does. -/
lemma mapM {γ : Type} (xs : List γ) {g : γ → AnalysisM β} (hg : ∀ x ∈ xs, Keeps R (g x)) :
    Keeps R (xs.mapM g) := by
  induction xs with
  | nil => exact Keeps.pure []
  | cons x rest ih =>
    rw [List.mapM_cons]
    refine (hg x (List.mem_cons_self ..)).bind fun b => ?_
    refine (ih fun y hy => hg y (List.mem_cons_of_mem x hy)).bind fun bs => ?_
    exact Keeps.pure (b :: bs)

end Keeps

/-- A lookup only prepares reference scopes, so it leaves the types alone. -/
lemma Answers.untyped {c : AnalysisM α} {m m' : Memo} {a : α} {ds : List Diagnostic}
    (h : Answers t c m a m' ds) : m.GrownUntyped t m' :=
  ⟨h.prepares.grown, h.prepares.types_eq, h.prepares.checked_eq, h.sound⟩

lemma Lookup.keeps {c : AnalysisM α} (h : Lookup t c) : Keeps (Memo.GrownUntyped t) c :=
  h.mono fun _ _ _ _ hq => hq.untyped

/-- A run of a typing rule from `m`: the memo grows and no type is found, a fault other than the
conflicts and cycles of preparation comes with a `failed` answer, and a run that reports nothing
answers something `quiet` holds of. -/
structure RuleRun (t : Tree) (failed quiet : α → Prop) (m : Memo) (a : α) (m' : Memo)
    (ds : List Diagnostic) : Prop where
  /-- The memo only grows, and no type is found. -/
  untyped : m.GrownUntyped t m'
  /-- A fault of its own comes with a failure. -/
  failed_of_report : ∀ d ∈ ds, d.fault.fromPreparation = false → failed a
  /-- Silence comes with a quiet answer. -/
  quiet_of_nil : ds = [] → quiet a

/-- Every run of `c` answers a failure when it reports a fault of its own, and a quiet answer when
it reports nothing. -/
def RuleSpec (t : Tree) (failed quiet : α → Prop) (c : AnalysisM α) : Prop :=
  Spec c (RuleRun t failed quiet)

namespace RuleSpec

variable {failed quiet : α → Prop} {c : AnalysisM α} {f : α → AnalysisM β}
  {failed' quiet' : β → Prop}

lemma pure {a : α} (ha : quiet a) : RuleSpec t failed quiet (pure a : AnalysisM α) :=
  fun m => ⟨a, m, [], Runs.pure a m, ⟨refl_of _ m, by simp, fun _ => ha⟩⟩

lemma lookup_bind (hc : Lookup t c) (hf : ∀ a, RuleSpec t failed' quiet' (f a)) :
    RuleSpec t failed' quiet' (c >>= f) := by
  refine Spec.bind hc hf fun m a m₁ ds b m₂ es h₁ h₂ => ⟨?_, ?_, ?_⟩
  · exact trans_of (Memo.GrownUntyped t) h₁.untyped h₂.untyped
  · intro d hd hf
    rcases List.mem_append.1 hd with hd | hd
    · -- a lookup reports only what preparing scopes finds
      have := h₁.prepares.faults d hd
      rw [hf] at this
      cases this
    · exact h₂.failed_of_report d hd hf
  · intro h
    exact h₂.quiet_of_nil (List.append_eq_nil_iff.1 h).2

/-- Reporting a fault, then answering only failures. -/
lemma report_bind (span : Span) (fault : Fault)
    (hc : Spec c fun m a m' _ => m.GrownUntyped t m' ∧ failed a) :
    RuleSpec t failed quiet (DecafCheck.report span fault >>= fun _ => c) := by
  intro m
  obtain ⟨a, m', ds, hr, hg, ha⟩ := hc m
  exact ⟨a, m', _, (Runs.report span fault).bind hr, ⟨hg, fun _ _ _ => ha, nofun⟩⟩

/-- Reporting a fault and answering a failure. -/
lemma report_pure (span : Span) (fault : Fault) {a : α} (ha : failed a) :
    RuleSpec t failed quiet (DecafCheck.report span fault >>= fun _ => Pure.pure a) :=
  report_bind span fault fun m => ⟨a, m, [], Runs.pure a m, refl_of _ m, ha⟩

/-- A check followed by an answer, which is a failure when the check fails. -/
lemma check_bind {c : AnalysisM Bool} (hc : RuleSpec t (· = false) (· = true) c) (a a₀ : α)
    (h₀ : failed a₀) (ha : quiet a) :
    RuleSpec t failed quiet (c >>= fun b => if b = true then Pure.pure a else Pure.pure a₀) := by
  intro m
  obtain ⟨b, m', ds, hr, hq⟩ := hc m
  cases b with
  | true =>
    have hrun := Runs.bind (f := fun b => if b = true then Pure.pure a else Pure.pure a₀) hr
      (Runs.pure a m')
    refine ⟨a, m', ds ++ [], hrun, ⟨hq.untyped, fun d hd hf => ?_, fun _ => ha⟩⟩
    -- a passed check reported no fault of its own
    rw [List.append_nil] at hd
    cases hq.failed_of_report d hd hf
  | false =>
    have hrun := Runs.bind (f := fun b => if b = true then Pure.pure a else Pure.pure a₀) hr
      (Runs.pure a₀ m')
    refine ⟨a₀, m', ds ++ [], hrun, ⟨hq.untyped, fun _ _ _ => h₀, fun h => ?_⟩⟩
    -- a failed check reported something
    rw [List.append_nil] at h
    cases hq.quiet_of_nil h

lemma mono_quiet {quiet₂ : α → Prop} (h : RuleSpec t failed quiet c)
    (hq : ∀ a, quiet a → quiet₂ a) : RuleSpec t failed quiet₂ c :=
  Spec.mono h fun _ _ _ _ hr =>
    ⟨hr.untyped, hr.failed_of_report, fun h => hq _ (hr.quiet_of_nil h)⟩

lemma keeps (h : RuleSpec t failed quiet c) : Keeps (Memo.GrownUntyped t) c :=
  h.mono fun _ _ _ _ hr => hr.untyped

end RuleSpec

/-- The operand types of a compound are free of the error type when its operands' are. -/
lemma Compound.clean_map {typeOf : Nat → Ty} {c : Compound}
    (h : ∀ x ∈ c.operands, (typeOf x).hasError = false) :
    (∀ y ∈ c.left.map typeOf, y.hasError = false) ∧
      (∀ y ∈ c.right.map typeOf, y.hasError = false) := by
  constructor
  · intro y hy
    obtain ⟨x, hx, rfl⟩ := Option.map_eq_some_iff.1 hy
    exact h x (List.mem_append_left _ (Option.mem_toList.2 hx))
  · intro y hy
    obtain ⟨x, hx, rfl⟩ := Option.map_eq_some_iff.1 hy
    exact h x (List.mem_append_right _ (Option.mem_toList.2 hx))

/-- An arithmetic or logical operator with an operand has an operand type. -/
lemma Compound.isSome_map_or {typeOf : Nat → Ty} {c : Compound}
    (h : (c.left.isNone && c.right.isNone) = false) :
    ((c.left.map typeOf).isSome || (c.right.map typeOf).isSome) = true := by
  cases hl : c.left <;> cases hr : c.right <;> simp_all

/-- A comparison, equality or assignment with both operands has both operand types. -/
lemma Compound.isSome_map_and {typeOf : Nat → Ty} {c : Compound}
    (h : (c.left.isNone || c.right.isNone) = false) :
    ((c.left.map typeOf).isSome && (c.right.map typeOf).isSome) = true := by
  cases hl : c.left <;> cases hr : c.right <;> simp_all

/-- The operand types of an operator that misses an operand are not both present. -/
lemma isSome_and_eq_false {l r : Option Ty} (hne : ∀ a b, l = some a → r = some b → False) :
    (l.isSome && r.isSome) = false := by
  cases l with
  | none => rfl
  | some a =>
    cases r with
    | none => rfl
    | some b => exact (hne a b rfl rfl).elim

section TypingRules

variable (t : Tree) (cfg : Config)

theorem rule_operandsMismatch (quiet : Ty → Prop) (c : Compound) (l r : Ty) :
    RuleSpec t (· = .error) quiet (operandsMismatch c l r) :=
  RuleSpec.report_pure _ _ rfl

theorem rule_operandMismatch (quiet : Ty → Prop) (c : Compound) (x : Ty) :
    RuleSpec t (· = .error) quiet (operandMismatch c x) :=
  RuleSpec.report_pure _ _ rfl

theorem rule_noSuchField (quiet : Ty → Prop) (name : Ident) (base : Ty) :
    RuleSpec t (· = .error) quiet (noSuchField name base) :=
  RuleSpec.report_pure _ _ rfl

/-- Arithmetic gives the type of one of its operands. -/
theorem rule_arithType (n : Nat) (c : Compound) (l r : Option Ty) :
    RuleSpec t (· = .error)
      (fun ty => (∀ x ∈ l, x.hasError = false) → (∀ x ∈ r, x.hasError = false) →
        (l.isSome || r.isSome) = true → ty.hasError = false)
      (arithType t n c l r) := by
  unfold arithType
  split
  · refine RuleSpec.lookup_bind (lookup_equivalent t n _ _) fun _ => ?_
    split
    · exact RuleSpec.pure fun _ hr _ => hr _ rfl
    · exact rule_operandsMismatch t _ c _ _
  · split
    · exact RuleSpec.pure fun _ hr _ => hr _ rfl
    · exact rule_operandMismatch t _ c _
  · split
    · exact RuleSpec.pure fun hl _ _ => hl _ rfl
    · exact rule_operandMismatch t _ c _
  · -- no operand at all: the error type, and nothing said
    exact RuleSpec.pure fun _ _ h => absurd h (by decide)

theorem rule_relType (n : Nat) (c : Compound) (l r : Option Ty) :
    RuleSpec t (· = .error) (fun ty => (l.isSome && r.isSome) = true → ty.hasError = false)
      (relType t n c l r) := by
  unfold relType
  split
  · dsimp only
    split
    · refine RuleSpec.lookup_bind (lookup_equivalent t n _ _) fun _ => ?_
      split
      · exact RuleSpec.pure fun _ => rfl
      · exact rule_operandsMismatch t _ c _ _
    · exact rule_operandsMismatch t _ c _ _
  · next hne => exact RuleSpec.pure fun h => absurd h (by simp [isSome_and_eq_false hne])

theorem rule_equalityType (n : Nat) (c : Compound) (l r : Option Ty) :
    RuleSpec t (· = .error) (fun ty => (l.isSome && r.isSome) = true → ty.hasError = false)
      (equalityType t n c l r) := by
  unfold equalityType
  split
  · split
    · exact rule_operandsMismatch t _ c _ _
    · refine RuleSpec.lookup_bind (lookup_compatible t n _ _) fun _ => ?_
      split
      · exact RuleSpec.pure fun _ => rfl
      · refine RuleSpec.lookup_bind (lookup_compatible t n _ _) fun _ => ?_
        split
        · exact RuleSpec.pure fun _ => rfl
        · exact rule_operandsMismatch t _ c _ _
  · next hne => exact RuleSpec.pure fun h => absurd h (by simp [isSome_and_eq_false hne])

theorem rule_logicalType (c : Compound) (l r : Option Ty) :
    RuleSpec t (· = .error) (fun ty => (l.isSome || r.isSome) = true → ty.hasError = false)
      (logicalType c l r) := by
  unfold logicalType
  split
  · split
    · exact RuleSpec.pure fun _ => rfl
    · exact rule_operandsMismatch t _ c _ _
  · split
    · exact RuleSpec.pure fun _ => rfl
    · exact rule_operandMismatch t _ c _
  · split
    · exact RuleSpec.pure fun _ => rfl
    · exact rule_operandMismatch t _ c _
  · exact RuleSpec.pure fun h => absurd h (by decide)

/-- An assignment gives the type of its target. -/
theorem rule_assignType (n : Nat) (c : Compound) (l r : Option Ty) :
    RuleSpec t (· = .error)
      (fun ty => (∀ x ∈ l, x.hasError = false) → (l.isSome && r.isSome) = true →
        ty.hasError = false)
      (assignType t n c l r) := by
  unfold assignType
  split
  · refine RuleSpec.lookup_bind (lookup_compatible t n _ _) fun _ => ?_
    split
    · exact RuleSpec.pure fun hl _ => hl _ rfl
    · exact rule_operandsMismatch t _ c _ _
  · next hne => exact RuleSpec.pure fun _ h => absurd h (by simp [isSome_and_eq_false hne])

theorem rule_thisType (n : Nat) :
    RuleSpec t (· = .error) (fun ty => ty.hasError = false) (thisType t n) := by
  unfold thisType
  refine RuleSpec.lookup_bind (lookup_isClassScope t n true) fun _ => ?_
  dsimp only
  split
  · split
    · exact RuleSpec.pure rfl
    · exact RuleSpec.report_pure _ _ rfl
  · exact RuleSpec.report_pure _ _ rfl

/-- Both the base and the subscript may be at fault; either way the answer is the error type. -/
theorem rule_indexType (base subscript : Nat) (baseTy subscriptTy : Ty) :
    RuleSpec t (· = .error) (fun ty => baseTy.hasError = false → ty.hasError = false)
      (indexType t base subscript baseTy subscriptTy) := by
  unfold indexType
  dsimp only
  split
  · rw [pure_bind]
    split
    · exact RuleSpec.pure fun h => h
    · exact RuleSpec.report_pure _ _ rfl
  · -- after a base that is no array, every answer is the error type
    simp only [pure_bind, Option.getD_none]
    refine RuleSpec.report_bind _ _ fun m => ?_
    split
    · exact ⟨_, m, [], Runs.pure _ m, refl_of _ m, rfl⟩
    · exact ⟨_, m, _, (Runs.report _ _).bind (Runs.pure _ m), refl_of _ m, rfl⟩

theorem rule_varType (n : Nat) (name : Ident) :
    RuleSpec t (· = .error) (fun ty => t.NoSilentError → ty.hasError = false)
      (varType t n name) := by
  unfold varType
  refine RuleSpec.lookup_bind (lookup_findDecl t _ true n) fun _ => ?_
  split
  · next v hv =>
    obtain ⟨d, -, hd⟩ := Option.bind_eq_some_iff.1 hv
    exact RuleSpec.pure fun hs => hs.var_ty hd
  · exact RuleSpec.report_pure _ _ rfl

theorem rule_fieldType (n : Nat) (name : Ident) (baseTy : Ty) :
    RuleSpec t (· = .error)
      (fun ty => t.NoSilentError → baseTy.hasError = false → ty.hasError = false)
      (fieldType t cfg n name baseTy) := by
  unfold fieldType
  split
  · -- an ill-typed base is passed on silently
    exact RuleSpec.pure fun _ h => absurd h (by decide)
  · refine RuleSpec.lookup_bind (lookup_resolveNamed t n _) fun _ => ?_
    split
    · exact RuleSpec.report_pure _ _ rfl
    · split
      · exact rule_noSuchField t _ _ _
      · refine RuleSpec.lookup_bind (lookup_findDecl t _ false _) fun _ => ?_
        split
        · exact rule_noSuchField t _ _ _
        · next v hv =>
          obtain ⟨d, -, hd⟩ := Option.bind_eq_some_iff.1 hv
          refine RuleSpec.lookup_bind (lookup_fieldAccessible t cfg _ _) fun _ => ?_
          split
          · exact RuleSpec.pure fun hs _ => hs.var_ty hd
          · exact RuleSpec.report_pure _ _ rfl
  · exact rule_noSuchField t _ _ _

/-- Every argument is checked; a fault at any of them makes the answer `false`, and silence
means all passed. -/
theorem rule_checkArgs (n : Nat) (name : Ident) (i : Nat) (formals : List Nat)
    (args : List (Nat × Ty)) :
    RuleSpec t (· = false) (· = true) (checkArgs t n name i formals args) := by
  induction formals generalizing i args with
  | nil => exact RuleSpec.pure rfl
  | cons formal formals ih =>
    cases args with
    | nil => exact RuleSpec.pure rfl
    | cons arg rest =>
      obtain ⟨actual, given⟩ := arg
      rw [checkArgs]
      dsimp only
      split
      · simp only [pure_bind, Bool.true_and, bind_pure]
        exact ih (i + 1) rest
      · refine RuleSpec.lookup_bind (lookup_compatible t n _ _) fun _ => ?_
        split
        · simp only [pure_bind, Bool.true_and, bind_pure]
          exact ih (i + 1) rest
        · -- the argument is at fault: whatever the later ones give, the answer is `false`
          simp only [pure_bind, Bool.false_and]
          refine RuleSpec.report_bind _ _ fun m => ?_
          obtain ⟨_, m', ds, hr, hg⟩ := (ih (i + 1) rest).keeps m
          exact ⟨false, m', ds ++ [], Runs.bind (f := fun _ => Pure.pure false) hr
            (Runs.pure _ m'), hg, rfl⟩

/-- A call of a function gives its return type. -/
theorem rule_callOf (n : Nat) (name : Ident) (f : Nat) (args : List (Nat × Ty)) :
    RuleSpec t (· = .error)
      (fun ty => t.NoSilentError → (t.kindAt f).fn?.isSome = true → ty.hasError = false)
      (callOf t n name f args) := by
  unfold callOf
  split
  · next fd hfd =>
    split
    · exact RuleSpec.report_pure _ _ rfl
    · exact RuleSpec.check_bind (rule_checkArgs t n name 1 _ _) _ _ rfl
        fun hs _ => hs.fn_ret hfd
  · next hnone =>
    -- a callee that is no function is excluded by the promise
    refine RuleSpec.pure fun _ h => ?_
    obtain ⟨fd, hfd⟩ := Option.isSome_iff_exists.1 h
    exact (hnone fd hfd).elim

theorem rule_callType (n : Nat) (name : Ident) (baseTy : Option Ty) (args : List (Nat × Ty)) :
    RuleSpec t (· = .error)
      (fun ty => t.NoSilentError → (∀ x ∈ baseTy, x.hasError = false) → ty.hasError = false)
      (callType t n name baseTy args) := by
  -- a function found by name is a function, so its call is typed by its return type
  have hcall : ∀ (found : Option Nat) f,
      found.filter (fun d => (t.kindAt d).fn?.isSome) = some f →
      RuleSpec t (· = .error)
        (fun ty => t.NoSilentError → (∀ x ∈ baseTy, x.hasError = false) → ty.hasError = false)
        (callOf t n name f args) := by
    intro found f hf
    have hfn : (t.kindAt f).fn?.isSome = true := (Option.filter_eq_some_iff.1 hf).2
    exact (rule_callOf t n name f args).mono_quiet fun _ h hs _ => h hs hfn
  unfold callType
  split
  · refine RuleSpec.lookup_bind (lookup_findDecl t _ true n) fun found => ?_
    split
    · next f hf => exact hcall found f hf
    · exact RuleSpec.report_pure _ _ rfl
  · split
    · split
      · exact RuleSpec.pure fun _ _ => rfl
      · exact RuleSpec.report_pure _ _ rfl
    · exact rule_noSuchField t _ _ _
  · refine RuleSpec.lookup_bind (lookup_resolveNamed t n _) fun _ => ?_
    split
    · exact RuleSpec.report_pure _ _ rfl
    · refine RuleSpec.lookup_bind (lookup_findDecl t _ false _) fun found => ?_
      split
      · next f hf => exact hcall found f hf
      · exact rule_noSuchField t _ _ _
  · exact rule_noSuchField t _ _ _

theorem rule_newType (n : Nat) (cls : Ident) :
    RuleSpec t (· = .error) (fun ty => ty.hasError = false) (newType t n cls) := by
  unfold newType
  refine RuleSpec.lookup_bind (lookup_findDecl t _ true n) fun _ => ?_
  split
  · exact RuleSpec.pure rfl
  · exact RuleSpec.report_pure _ _ rfl

/-- A declared type is valid, or the first name in it that finds no type is reported. -/
theorem rule_checkType (n : Nat) (ty : Ty) :
    RuleSpec t (· = false) (· = true) (checkType t n ty) := by
  induction ty with
  | named id =>
    unfold checkType
    refine RuleSpec.lookup_bind (lookup_resolveNamed t n id) fun _ => ?_
    split
    · exact RuleSpec.pure rfl
    · exact RuleSpec.report_pure _ _ rfl
  | array elem ih =>
    unfold checkType
    exact ih
  | _ => exact RuleSpec.pure rfl

theorem rule_newArrayType (n size : Nat) (sizeTy elem : Ty) :
    RuleSpec t (· = .error) (fun ty => elem.hasError = false → ty.hasError = false)
      (newArrayType t n size sizeTy elem) := by
  unfold newArrayType
  split
  · exact RuleSpec.check_bind (rule_checkType t n elem) _ _ rfl fun h => h
  · exact RuleSpec.report_pure _ _ rfl

/-- What typing an expression promises when it reports nothing: in a tree with no silent source
of the error type, an expression whose operands have types free of the error type gets a type
free of it too. -/
def QuietType (typeOf : Nat → Ty) (e : Expr) (ty : Ty) : Prop :=
  t.NoSilentError → (NodeKind.expr e).silentError = false →
    (∀ x ∈ (NodeKind.expr e).children, (typeOf x).hasError = false) → ty.hasError = false

/-- Every typing rule answers the error type when it reports a fault of its own, and, where the
error type has no silent source, a type free of it when it reports nothing. -/
theorem rule_exprType (n : Nat) (typeOf : Nat → Ty) (e : Expr) :
    RuleSpec t (· = .error) (QuietType t typeOf e) (exprType t cfg n typeOf e) := by
  cases e with
  | arith c =>
    refine (rule_arithType t n c _ _).mono_quiet fun _ h _ hsil hops => ?_
    obtain ⟨hl, hr⟩ := Compound.clean_map hops
    exact h hl hr (Compound.isSome_map_or hsil)
  | rel c =>
    exact (rule_relType t n c _ _).mono_quiet fun _ h _ hsil _ => h (Compound.isSome_map_and hsil)
  | equality c =>
    exact (rule_equalityType t n c _ _).mono_quiet fun _ h _ hsil _ =>
      h (Compound.isSome_map_and hsil)
  | logical c =>
    exact (rule_logicalType t c _ _).mono_quiet fun _ h _ hsil _ => h (Compound.isSome_map_or hsil)
  | assign c =>
    exact (rule_assignType t n c _ _).mono_quiet fun _ h _ hsil hops =>
      h (Compound.clean_map hops).1 (Compound.isSome_map_and hsil)
  | thisRef => exact (rule_thisType t n).mono_quiet fun _ h _ _ _ => h
  | index base subscript =>
    exact (rule_indexType t base subscript _ _).mono_quiet fun _ h _ _ hops =>
      h (hops base (List.mem_cons_self ..))
  | field base name =>
    cases base with
    | none => exact (rule_varType t n name).mono_quiet fun _ h hs _ _ => h hs
    | some base =>
      exact (rule_fieldType t cfg n name _).mono_quiet fun _ h hs _ hops =>
        h hs (hops base (List.mem_singleton_self _))
  | call base name actuals =>
    refine (rule_callType t n name _ _).mono_quiet fun _ h hs _ hops => h hs ?_
    intro y hy
    obtain ⟨x, hx, rfl⟩ := Option.map_eq_some_iff.1 hy
    exact hops x (List.mem_append_left _ (Option.mem_toList.2 hx))
  | new cls => exact (rule_newType t n cls).mono_quiet fun _ h _ _ _ => h
  | newArray size elem =>
    exact (rule_newArrayType t n size _ elem).mono_quiet fun _ h _ hsil _ => h hsil
  | _ => exact RuleSpec.pure fun _ _ _ => rfl

end TypingRules

section Checks

variable (t : Tree) (cfg : Config)

lemma keeps_preparedScope (n : Nat) : Keeps (Memo.GrownUntyped t) (preparedScope n) :=
  fun m => ⟨_, m, [], runs_preparedScope n m, refl_of _ m⟩

/-- The `extends` and `implements` names of a class are checked by lookups only. -/
theorem keeps_checkInheritance (c : Nat) :
    Keeps (Memo.GrownUntyped t) (checkInheritance t c) := by
  unfold checkInheritance
  split
  · extract_lets jp
    -- the interfaces, one lookup each
    have hjp : ∀ r, Keeps (Memo.GrownUntyped t) (jp r) := by
      intro _
      refine (Keeps.forIn _ _ fun _ _ => ?_).bind fun _ => Keeps.pure ()
      refine (lookup_findDecl t _ true _).keeps.bind fun _ => ?_
      split
      · exact Keeps.pure _
      · exact (Keeps.report _ _).bind fun _ => Keeps.pure _
    -- the superclass
    split
    · refine (lookup_findDecl t _ true _).keeps.bind fun _ => ?_
      split
      · exact hjp ()
      · exact (Keeps.report _ _).bind hjp
    · exact hjp ()
  · exact Keeps.pure ()

/-- A method is compared with the one it overrides through lookups only. -/
theorem keeps_checkOverride (n : Nat) : Keeps (Memo.GrownUntyped t) (checkOverride t cfg n) := by
  unfold checkOverride
  split
  · split
    · split
      · split
        · refine (lookup_superclassOf t _).keeps.bind fun _ => ?_
          split
          · refine (lookup_prepareScope t _).keeps.bind fun _ => ?_
            refine (keeps_preparedScope t _).bind fun _ => ?_
            extract_lets inherited jp
            split
            · split
              · refine (lookup_equivalent t n _ _).keeps.bind fun _ => ?_
                have hjp : ∀ b, Keeps (Memo.GrownUntyped t) (jp b) := by
                  intro _
                  dsimp only [jp]
                  split
                  · exact Keeps.pure ()
                  · exact Keeps.report _ _
                split
                · exact (lookup_formalsAgree t n _ _).keeps.bind hjp
                · exact (Keeps.pure false).bind hjp
              · exact Keeps.pure ()
            · exact Keeps.pure ()
          · exact Keeps.pure ()
        · exact Keeps.pure ()
      · exact Keeps.pure ()
    · exact Keeps.pure ()
  · exact Keeps.pure ()

/-- The checks of a child by its role: a condition, a printed value, a returned value. -/
theorem keeps_afterTyped (n x : Nat) (ty : Ty) (role : Role) :
    Keeps (Memo.GrownUntyped t) (afterTyped t n x ty role) := by
  unfold afterTyped
  split
  · exact Keeps.pure ()
  · split
    · exact Keeps.pure ()
    · exact Keeps.report _ _
  · split
    · exact Keeps.pure ()
    · exact Keeps.report _ _
  · split
    · exact Keeps.pure ()
    · refine (lookup_compatible t n _ _).keeps.bind fun _ => ?_
      split
      · exact Keeps.pure ()
      · exact Keeps.report _ _

theorem keeps_beforeChildren (n : Nat) (k : NodeKind) :
    Keeps (Memo.GrownUntyped t) (beforeChildren t n k) := by
  unfold beforeChildren
  split
  · exact (lookup_prepareScope t n).keeps
  · exact (rule_checkType t n _).keeps.map _
  · exact (lookup_prepareScope t n).keeps.bind fun _ => (rule_checkType t n _).keeps.map _
  · exact (lookup_prepareScope t n).keeps.bind fun _ => keeps_checkInheritance t n
  · exact (lookup_prepareScope t n).keeps
  · exact (lookup_prepareScope t n).keeps
  · exact Keeps.pure ()

theorem keeps_afterChildren (n : Nat) (k : NodeKind) :
    Keeps (Memo.GrownUntyped t) (afterChildren t cfg n k) := by
  unfold afterChildren
  split
  · exact keeps_checkOverride t cfg n
  · split
    · exact Keeps.pure ()
    · exact Keeps.report _ _
  · exact Keeps.pure ()

end Checks

end Analysis

end DecafCheck
