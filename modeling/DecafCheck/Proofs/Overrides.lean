import DecafCheck.Proofs.Compatibility
/-!
# Overriding methods keep the inherited signature

With override checks on, a method `f` standing directly in class `c` is compared with what the
prepared scope of the superclass of `c` binds under the method's name. That scope holds the
declarations of the superclass and, under the names it leaves free, what its own superclass's scope
holds, so along a superclass chain that runs into no cycle the binding is the declaration of the
nearest proper ancestor that declares the name (`Tree.InheritsIn`, `Tree.inheritsIn_of_logged`),
and never `f` itself (`Tree.InheritsIn.ne_of_acyclic`); so `f` overrides a function of another
signature exactly when that declaration is one (`Tree.overridesBadly_iff_inheritsIn`).

When the binding is a function whose signature differs (`Tree.SignaturesDiffer`: return types
that are not the same, different numbers of formals, or a position where both formals are
variables of types that are not the same), the check reports one override mismatch at the
method's name; otherwise it reports nothing but what preparing scopes reports, and with override
checks off it does nothing at all (`checkOverride_flags_differing_signature`).

What a computation reports besides the faults of preparation is `ruleReports`; `Analysis.Flags`
says what it is in terms of the tables the run ends with, as `Analysis.Decides` does for answers.
-/

namespace DecafCheck

namespace Tree

variable (t : Tree)

/-- The formals `mine` and `theirs` clash: at some position both are variables, of types that are
not the same. -/
def FormalsClash (mine theirs : List Nat) : Prop :=
  ∃ (i x y : Nat) (v w : VarDecl), mine[i]? = some x ∧ theirs[i]? = some y ∧
    (t.kindAt x).var? = some v ∧ (t.kindAt y).var? = some w ∧ v.ty.sameAs w.ty = false

/-- Two method signatures differ: the return types are not the same, the numbers of formals
differ, or the formals clash. -/
def SignaturesDiffer (mine theirs : FunDecl) : Prop :=
  mine.ret.sameAs theirs.ret = false ∨ mine.formals.length ≠ theirs.formals.length ∨
    t.FormalsClash mine.formals theirs.formals

variable (S : Std.TreeMap Nat Scope) (x : String)

/-- `InheritsIn t S x c r`: in the table `S`, the scope that class `c` inherits binds `x` to `r`:
the first declaration of `x` among the entries of `c`, or, when it declares none, what its
superclass's scope binds, and nothing at a class without superclass. -/
inductive InheritsIn : Nat → Option Nat → Prop
  /-- The class declares `x` itself. -/
  | own {c d : Nat} {es : List Nat} : (t.kindAt c).scopeEntries? = some es →
      t.firstDecl es x = some d → InheritsIn c (some d)
  /-- It does not, and its superclass's scope binds `x` to `r`. -/
  | up {c d : Nat} {es : List Nat} {r : Option Nat} : (t.kindAt c).scopeEntries? = some es →
      t.firstDecl es x = none → t.SuperStepIn S c d → InheritsIn d r → InheritsIn c r
  /-- It does not, and it extends nothing. -/
  | top {c : Nat} {es : List Nat} : (t.kindAt c).scopeEntries? = some es →
      t.firstDecl es x = none → t.SuperIn S c none → InheritsIn c none

/-- In the table `S`, method `f` of class `c`, declared as `method`, overrides a function of
another signature: the prepared scope of the superclass of `c` binds the method's name to a
function other than `f` whose signature differs. -/
def OverridesBadly (c f : Nat) (method : FunDecl) : Prop :=
  ∃ s sc g theirs, t.SuperStepIn S c s ∧ S[s]? = some sc ∧ sc.lookup method.name.name = some g ∧
    g ≠ f ∧ (t.kindAt g).fn? = some theirs ∧ t.SignaturesDiffer method theirs

variable {t S x} {c d f g s : Nat} {sc : Scope} {method theirs : FunDecl}

/-- Formals clash at the first position or further on. -/
lemma formalsClash_cons_iff {a b : Nat} {mine theirs : List Nat} :
    t.FormalsClash (a :: mine) (b :: theirs) ↔
      (∃ v w, (t.kindAt a).var? = some v ∧ (t.kindAt b).var? = some w ∧
        v.ty.sameAs w.ty = false) ∨ t.FormalsClash mine theirs := by
  constructor
  · rintro ⟨i, x, y, v, w, hx, hy, hv, hw, hvw⟩
    cases i with
    | zero =>
      simp only [List.getElem?_cons_zero, Option.some.injEq] at hx hy
      subst hx hy
      exact .inl ⟨v, w, hv, hw, hvw⟩
    | succ i =>
      simp only [List.getElem?_cons_succ] at hx hy
      exact .inr ⟨i, x, y, v, w, hx, hy, hv, hw, hvw⟩
  · rintro (⟨v, w, hv, hw, hvw⟩ | ⟨i, x, y, v, w, hx, hy, hv, hw, hvw⟩)
    · exact ⟨0, a, b, v, w, rfl, rfl, hv, hw, hvw⟩
    · exact ⟨i + 1, x, y, v, w, hx, hy, hv, hw, hvw⟩

lemma not_formalsClash_nil_left (theirs : List Nat) : ¬ t.FormalsClash [] theirs := by
  rintro ⟨i, x, y, v, w, hx, -⟩
  simp at hx

lemma not_formalsClash_nil_right (mine : List Nat) : ¬ t.FormalsClash mine [] := by
  rintro ⟨i, x, y, v, w, -, hy, -⟩
  simp at hy

/-- At a position where both formals are variables, they clash or the rest does. -/
lemma formalsClash_cons_of_var {a b : Nat} {v w : VarDecl} {mine theirs : List Nat}
    (hv : (t.kindAt a).var? = some v) (hw : (t.kindAt b).var? = some w) :
    t.FormalsClash (a :: mine) (b :: theirs) ↔
      v.ty.sameAs w.ty = false ∨ t.FormalsClash mine theirs := by
  rw [formalsClash_cons_iff]
  simp [hv, hw]

/-- A position where the formals are not both variables never clashes. -/
lemma formalsClash_cons_of_not_var {a b : Nat} {mine theirs : List Nat}
    (h : ∀ v w, (t.kindAt a).var? = some v → (t.kindAt b).var? = some w → False) :
    t.FormalsClash (a :: mine) (b :: theirs) ↔ t.FormalsClash mine theirs := by
  rw [formalsClash_cons_iff]
  constructor
  · rintro (⟨v, w, hv, hw, -⟩ | h')
    · exact (h v w hv hw).elim
    · exact h'
  · exact .inr

/-- The binding a class inherits is unique. -/
lemma InheritsIn.unique {r r' : Option Nat} (h : t.InheritsIn S x c r)
    (h' : t.InheritsIn S x c r') : r = r' := by
  -- the class's own entries decide between its own declaration and its superclass's binding
  induction h generalizing r' with
  | own hes hfd =>
    cases h' with
    | own hes' hfd' =>
      cases hes.symm.trans hes'
      exact hfd.symm.trans hfd'
    | up hes' hfd' =>
      cases hes.symm.trans hes'
      cases hfd.symm.trans hfd'
    | top hes' hfd' =>
      cases hes.symm.trans hes'
      cases hfd.symm.trans hfd'
  | up hes hfd hcd _ ih =>
    cases h' with
    | own hes' hfd' =>
      cases hes.symm.trans hes'
      cases hfd.symm.trans hfd'
    | up _ _ hcd' hd' => exact ih (hcd.unique hcd' ▸ hd')
    | top _ _ hnone => cases Tree.SuperIn.unique hcd hnone
  | top hes hfd hnone =>
    cases h' with
    | own hes' hfd' =>
      cases hes.symm.trans hes'
      cases hfd.symm.trans hfd'
    | up _ _ hcd' _ => cases Tree.SuperIn.unique hnone hcd'
    | top => rfl

/-- What a class inherits is a member of the class or of one of its superclasses. -/
lemma InheritsIn.parent (hcons : t.Consistent) {r : Option Nat} (h : t.InheritsIn S x c r) :
    ∀ g, r = some g → ∃ d, t.SubclassIn S c d ∧ t.parentOf g = some d := by
  induction h with
  | own hes hfd =>
    intro g hg
    cases hg
    have hmem := (declName_of_firstDecl hfd).1
    exact ⟨_, SubclassIn.refl _, hcons _ _ (NodeKind.mem_children_of_scopeEntries hes hmem)⟩
  | up _ _ hcd _ ih =>
    intro g hg
    obtain ⟨d', hdd', hpar⟩ := ih g hg
    exact ⟨d', Relation.ReflTransGen.head hcd hdd', hpar⟩
  | top => exact fun g hg => by cases hg

/-- Along a chain of superclasses that runs into no cycle, what the superclass of `c` passes on
is never a member of `c`. -/
lemma InheritsIn.ne_of_acyclic (hcons : t.Consistent)
    (hacyc : ∀ d, t.SubclassIn S c d → ¬ t.OnCycleIn S d) (hcs : t.SuperStepIn S c s)
    (h : t.InheritsIn S x s (some g)) (hf : t.parentOf f = some c) : g ≠ f := by
  rintro rfl
  obtain ⟨d, hsd, hpar⟩ := h.parent hcons g rfl
  rw [hf] at hpar
  cases hpar
  -- `c` extends `s`, which reaches `c` again
  exact hacyc c (SubclassIn.refl c) (Relation.TransGen.head' hcs hsd)

/-- Without a superclass nothing is overridden. -/
lemma not_overridesBadly_of_superIn_none (h : t.SuperIn S c none) :
    ¬ t.OverridesBadly S c f method := by
  rintro ⟨s, sc, g, theirs, hs, -⟩
  cases h.unique hs

/-- Overriding badly as the check reads it off the prepared scope of the superclass: the scope
binds the method's name to a function other than the method, and its signature differs. -/
lemma overridesBadly_iff (hs : t.SuperStepIn S c s) :
    t.OverridesBadly S c f method ↔ ∃ g theirs,
      ((S[s]?).bind (·.lookup method.name.name)).filter (· != f) = some g ∧
        (t.kindAt g).fn? = some theirs ∧ t.SignaturesDiffer method theirs := by
  constructor
  · rintro ⟨s', sc, g, theirs, hs', hsc, hg, hne, hth, hd⟩
    cases hs.unique hs'
    refine ⟨g, theirs, ?_, hth, hd⟩
    rw [hsc, Option.filter_eq_some_iff]
    exact ⟨hg, by simpa using hne⟩
  · rintro ⟨g, theirs, hfil, hth, hd⟩
    obtain ⟨hb, hne⟩ := Option.filter_eq_some_iff.1 hfil
    obtain ⟨sc, hsc, hg⟩ := Option.bind_eq_some_iff.1 hb
    exact ⟨s, sc, g, theirs, hs, hsc, hg, by simpa using hne, hth, hd⟩

/-- Once the binding the check reads is known to be function `g` declared as `theirs`, overriding
badly is a differing signature. -/
lemma overridesBadly_iff_of_binding (hs : t.SuperStepIn S c s)
    (hfil : ((S[s]?).bind (·.lookup method.name.name)).filter (· != f) = some g)
    (hth : (t.kindAt g).fn? = some theirs) :
    t.OverridesBadly S c f method ↔ t.SignaturesDiffer method theirs := by
  rw [overridesBadly_iff hs]
  constructor
  · rintro ⟨g', theirs', hg', hth', hd⟩
    rw [hfil] at hg'
    cases hg'
    rw [hth] at hth'
    cases hth'
    exact hd
  · exact fun hd => ⟨g, theirs, hfil, hth, hd⟩

/-- Where the binding the check reads is no function other than the method, nothing is
overridden badly. -/
lemma not_overridesBadly_of_binding (hs : t.SuperStepIn S c s)
    (h : ∀ g theirs, ((S[s]?).bind (·.lookup method.name.name)).filter (· != f) = some g →
      (t.kindAt g).fn? = some theirs → False) :
    ¬ t.OverridesBadly S c f method := by
  rw [overridesBadly_iff hs]
  rintro ⟨g, theirs, hg, hth, -⟩
  exact h g theirs hg hth

open Classical in
/-- A superclass off every cycle reaches fewer classes than its class does. -/
lemma card_subclasses_lt (hcd : t.SuperStepIn S c d) (hc : c < t.size)
    (hcyc : ¬ t.OnCycleIn S c) :
    ((Finset.range t.size).filter (t.SubclassIn S d ·)).card <
      ((Finset.range t.size).filter (t.SubclassIn S c ·)).card := by
  refine Finset.card_lt_card ((Finset.ssubset_iff_of_subset ?_).2 ⟨c, ?_, ?_⟩)
  · intro y hy
    simp only [Finset.mem_filter] at hy ⊢
    exact ⟨hy.1, Relation.ReflTransGen.head hcd hy.2⟩
  · simp only [Finset.mem_filter, Finset.mem_range]
    exact ⟨hc, SubclassIn.refl c⟩
  · -- `d` reaching `c` back would close a cycle through `c`
    intro hmem
    simp only [Finset.mem_filter] at hmem
    exact hcyc (Relation.TransGen.head' hcd hmem.2)

/-- In tables the ledger describes, the prepared scope of a class whose superclass chain runs into
no cycle binds each name as the class inherits it: its own first declaration of the name, or else
the nearest superclass's. -/
theorem inheritsIn_of_logged {R : List Nat} (hL : t.Logged [] R S) (x : String) {c : Nat}
    {sc : Scope} (hacyc : ∀ d, t.SubclassIn S c d → ¬ t.OnCycleIn S d) (hs : S[c]? = some sc) :
    t.InheritsIn S x c (sc.lookup x) := by
  classical
  -- induction on the number of classes `c` reaches, which the step to a superclass lowers
  induction hn : ((Finset.range t.size).filter (t.SubclassIn S c ·)).card
    using Nat.strong_induction_on generalizing c sc with
  | _ n ih =>
  obtain ⟨es, hes, ⟨hR | hnone, rfl⟩ | ⟨d, sd, hcd, -, hsd, rfl⟩⟩ := hL.shape c sc hs
  · exact absurd (hL.reporter c hR).2 (hacyc c (SubclassIn.refl c))
  · rw [lookup_declaredScope]
    cases hfd : t.firstDecl es x with
    | none => exact .top hes hfd hnone
    | some d => exact .own hes hfd
  · rw [Scope.lookup_merge, lookup_declaredScope]
    cases hfd : t.firstDecl es x with
    | some d' => exact .own hes hfd
    | none =>
      have hlt := card_subclasses_lt hcd (lt_size_of_scopeEntries? hes)
        (hacyc c (SubclassIn.refl c))
      exact .up hes hfd hcd (ih _ (hn ▸ hlt)
        (fun e he => hacyc e (Relation.ReflTransGen.head hcd he)) hsd rfl)

/-- Along a superclass chain that runs into no cycle, in tables the ledger describes, a method
overrides badly exactly when the declaration of the nearest proper ancestor that declares its name
is a function of another signature. -/
theorem overridesBadly_iff_inheritsIn (hcons : t.Consistent) {R : List Nat} (hL : t.Logged [] R S)
    (hacyc : ∀ d, t.SubclassIn S c d → ¬ t.OnCycleIn S d) (hf : t.parentOf f = some c) :
    t.OverridesBadly S c f method ↔ ∃ s g theirs, t.SuperStepIn S c s ∧
      (S[s]?).bind (·.lookup method.name.name) = some g ∧
      t.InheritsIn S method.name.name s (some g) ∧
      (t.kindAt g).fn? = some theirs ∧ t.SignaturesDiffer method theirs := by
  constructor
  · rintro ⟨s, sc, g, theirs, hs, hsc, hg, -, hth, hd⟩
    have hinh := inheritsIn_of_logged hL method.name.name
      (fun d hd => hacyc d (Relation.ReflTransGen.head hs hd)) hsc
    rw [hg] at hinh
    exact ⟨s, g, theirs, hs, by rw [hsc]; exact hg, hinh, hth, hd⟩
  · -- what the superclass passes on is never the method itself
    rintro ⟨s, g, theirs, hs, hb, hinh, hth, hd⟩
    obtain ⟨sc, hsc, hg⟩ := Option.bind_eq_some_iff.1 hb
    exact ⟨s, sc, g, theirs, hs, hsc, hg, hinh.ne_of_acyclic hcons hacyc hs hf, hth, hd⟩

end Tree

namespace Analysis

/-- What is reported besides the faults of preparation, in order. -/
def ruleReports (ds : List Diagnostic) : List Diagnostic :=
  ds.filter fun d => !d.fault.fromPreparation

lemma ruleReports_append (ds es : List Diagnostic) :
    ruleReports (ds ++ es) = ruleReports ds ++ ruleReports es :=
  List.filter_append ..

lemma ruleReports_eq_nil {ds : List Diagnostic} (h : ∀ d ∈ ds, d.fault.fromPreparation) :
    ruleReports ds = [] := by
  simpa [ruleReports, List.filter_eq_nil_iff] using h

lemma ruleReports_singleton {d : Diagnostic} (h : d.fault.fromPreparation = false) :
    ruleReports [d] = [d] := by
  simp [ruleReports, h]

variable {t : Tree} {α β : Type}

/-- Every run of `c` from a well-kept memory ends in a well-kept memory grown from it, and what it
reports besides faults of preparation is related by `Q` to the tables of every memory grown from
its end. -/
def Flags (t : Tree) (c : AnalysisM α) (Q : List Diagnostic → Std.TreeMap Nat Scope → Prop) :
    Prop :=
  Spec c fun m _ m' ds => m.WellKept t →
    m'.WellKept t ∧ m.Grown t m' ∧ ∀ m'', m'.Grown t m'' → Q (ruleReports ds) m''.scopes

namespace Flags

variable {c : AnalysisM α} {f : α → AnalysisM β}
  {Q Q' : List Diagnostic → Std.TreeMap Nat Scope → Prop}

lemma pure {a : α} (h : ∀ S, Q [] S) : Flags t (pure a : AnalysisM α) Q :=
  fun m => ⟨a, m, [], Runs.pure a m, fun hw => ⟨hw, Memo.Grown.refl t m, fun _ _ => h _⟩⟩

lemma report (span : Span) {fault : Fault} (hf : fault.fromPreparation = false)
    (h : ∀ S, Q [⟨span, fault⟩] S) : Flags t (DecafCheck.report span fault) Q := by
  refine fun m => ⟨(), m, _, Runs.report span fault, fun hw => ⟨hw, Memo.Grown.refl t m, ?_⟩⟩
  intro m'' _
  rw [ruleReports_singleton hf]
  exact h _

lemma mono (h : Flags t c Q) (hQ : ∀ ds S, Q ds S → Q' ds S) : Flags t c Q' :=
  Spec.mono h fun _ _ _ _ hq hw => (hq hw).imp_right fun h' => h'.imp_right fun h'' m'' hg =>
    hQ _ _ (h'' m'' hg)

/-- A lookup that decides `P`, then a computation that flags what `Q` says wherever `P` holds of
the lookup's answer. -/
lemma bind {P : α → Std.TreeMap Nat Scope → Prop} (hc : Decides t c P) (hl : Lookup t c)
    (hf : ∀ a, Flags t (f a) fun ds S => P a S → Q ds S) : Flags t (c >>= f) Q := by
  -- a lookup reports faults of preparation only
  have hq := hc.and (hl.mono fun _ _ _ _ h => h.prepares.faults) fun _ _ _ _ _ _ h => h
  refine Spec.bind hq hf fun m a m₁ ds b m₂ es h₁ h₂ hw => ?_
  obtain ⟨hw₁, hg₁, hp₁⟩ := h₁.1 hw
  obtain ⟨hw₂, hg₂, hq₂⟩ := h₂ hw₁
  refine ⟨hw₂, hg₁.trans hg₂, fun m'' hg => ?_⟩
  rw [ruleReports_append, ruleReports_eq_nil h₁.2, List.nil_append]
  exact hq₂ m'' hg (hp₁ m'' (hg₂.trans hg))

/-- Reporting a fault unless a test passed. -/
lemma unless_report (b : Bool) (span : Span) {fault : Fault} (hf : fault.fromPreparation = false) :
    Flags t (if b = true then Pure.pure () else DecafCheck.report span fault) fun ds _ =>
      b = false ∧ ds = [⟨span, fault⟩] ∨ b = true ∧ ds = [] := by
  cases b with
  | true => exact Flags.pure fun _ => .inr ⟨rfl, rfl⟩
  | false => exact Flags.report span hf fun _ => .inl ⟨rfl, rfl⟩

end Flags

section Consistent

variable (hcons : t.Consistent)
include hcons

/-- Preparing a scope and reading it answers what every table grown from its end holds, where the
scope is prepared unless the node owns none. -/
lemma decides_prepareScope_read (n : Nat) :
    Decides t (do prepareScope t n; preparedScope n) fun r S =>
      r = S[n]? ∧ (S.contains n ∨ (t.kindAt n).scopeEntries? = none) := by
  refine Decides.of_keepsWell (keepsWell_of_steps hcons fun h => h.prepared n) ?_
  have hread : ∀ _ : Unit, Spec (preparedScope n) fun m r m' _ => r = m.scopes[n]? ∧ m' = m :=
    fun _ m => ⟨_, m, [], runs_preparedScope n m, rfl, rfl⟩
  refine Spec.bind ((prepares_scopeBlock t).1 [] n) hread ?_
  rintro m _ m₁ ds r m₂ es ⟨hprep, hset⟩ ⟨rfl, rfl⟩ - m'' hg
  exact ⟨(hg.scope_eq (hset List.not_mem_nil)).symm, hg.prepared (hset List.not_mem_nil)⟩

/-- Formals agree exactly when they do not clash; where names are bound to their declarations
this holds whatever the tables. -/
lemma decides_formalsAgree (n : Nat) (mine theirs : List Nat) :
    Decides t (formalsAgree t n mine theirs) fun b _ =>
      (b = false ↔ t.FormalsClash mine theirs) := by
  induction mine generalizing theirs with
  | nil => exact Decides.pure fun _ => iff_of_false (by decide) (Tree.not_formalsClash_nil_left _)
  | cons x rest ih =>
    cases theirs with
    | nil =>
      exact Decides.pure fun _ => iff_of_false (by decide) (Tree.not_formalsClash_nil_right _)
    | cons y others =>
      rw [formalsAgree]
      split
      · rename_i v w hv hw
        refine (decides_equivalent hcons n v.ty w.ty).bind
          (P := fun e b _ => (e = true → (b = false ↔ t.FormalsClash rest others)) ∧
            (e = false → b = false)) (fun e => ?_) fun e b S he hb => ?_
        · cases e with
          | true => exact (ih others).mono fun b _ h => ⟨fun _ => h, fun h' => (by cases h')⟩
          | false => exact Decides.pure fun _ => ⟨fun h => (by cases h), fun _ => rfl⟩
        · rw [Tree.formalsClash_cons_of_var hv hw, ← he]
          cases e with
          | true =>
            rw [hb.1 rfl]
            simp
          | false => exact iff_of_true (hb.2 rfl) (.inl rfl)
      · rename_i hnot
        exact (ih others).mono fun b _ h => h.trans (Tree.formalsClash_cons_of_not_var hnot).symm

/-- With override checks on, checking method `f` of class `c` flags one override mismatch at the
method's name exactly when it overrides a function of another signature, and nothing else; the
superclass of `c`, if any, is prepared by then. -/
lemma flags_checkOverride {cfg : Config} (hon : cfg.checkOverrides = true) {f c : Nat}
    {method : FunDecl} (hf : (t.kindAt f).fn? = some method) (hp : t.parentOf f = some c)
    (hc : (t.kindAt c).cls?.isSome = true) :
    Flags t (checkOverride t cfg f) fun ds S =>
      (∀ s, t.SuperStepIn S c s → S.contains s) ∧
      (t.OverridesBadly S c f method ∧
          ds = [⟨method.name.span, .overrideMismatch method.name.name⟩] ∨
        ¬ t.OverridesBadly S c f method ∧ ds = []) := by
  unfold checkOverride
  split
  swap
  · rename_i hoff
    exact absurd hon hoff
  simp only [hf, hp, hc, if_true]
  refine Flags.bind (decides_superclassOf hcons c) (lookup_superclassOf t c) fun r => ?_
  cases r with
  | none =>
    refine Flags.pure fun S hnone => ⟨fun s hs => ?_, .inr ⟨?_, rfl⟩⟩
    · cases hnone.unique hs
    · exact Tree.not_overridesBadly_of_superIn_none hnone
  | some sup =>
    simp only
    rw [← bind_assoc]
    refine Flags.bind (decides_prepareScope_read hcons sup) (lookup_prepareScope_read t sup)
      fun l => ?_
    -- the superclass is a class, so preparing it leaves it prepared
    have hprep : ∀ S, (S.contains sup ∨ (t.kindAt sup).scopeEntries? = none) →
        t.SuperStepIn S c sup → ∀ s, t.SuperStepIn S c s → S.contains s := by
      intro S hset hsup s hs
      cases hsup.unique hs
      exact hset.resolve_right (NodeKind.scopeEntries?_ne_none_of_cls? hsup.isClass)
    split
    · rename_i other hfil
      split
      · rename_i theirs hth
        refine Flags.mono (Q := fun ds _ =>
            t.SignaturesDiffer method theirs ∧
              ds = [⟨method.name.span, .overrideMismatch method.name.name⟩] ∨
            ¬ t.SignaturesDiffer method theirs ∧ ds = []) ?_
          fun ds S h hl hsup => ⟨hprep S hl.2 hsup, ?_⟩
        · -- the comparison: return types, then the number of formals, then the formals
          refine Flags.bind (decides_equivalent hcons f method.ret theirs.ret)
            (lookup_equivalent t f method.ret theirs.ret) fun e => ?_
          split
          · rename_i he
            obtain ⟨he₁, he₂⟩ : e = true ∧ method.formals.length = theirs.formals.length := by
              simpa using he
            refine Flags.bind (decides_formalsAgree hcons f method.formals theirs.formals)
              (lookup_formalsAgree t f method.formals theirs.formals) fun b => ?_
            refine (Flags.unless_report b _ rfl).mono fun ds S h hb hre => ?_
            have hd : t.SignaturesDiffer method theirs ↔ b = false := by
              rw [hb, Tree.SignaturesDiffer, ← hre, he₁, he₂]
              simp
            rw [hd]
            rcases h with ⟨hb', hds⟩ | ⟨hb', hds⟩
            · exact .inl ⟨hb', hds⟩
            · exact .inr ⟨by simp [hb'], hds⟩
          · rename_i he
            rw [pure_bind]
            refine (Flags.unless_report false _ rfl).mono fun ds S h hre => .inl ⟨?_, ?_⟩
            · cases e with
              | false => exact .inl hre.symm
              | true => exact .inr (.inl (by simpa using he))
            · exact h.elim (fun h' => h'.2) fun h' => absurd h'.1 Bool.false_ne_true
        · -- the binding is `theirs`, so overriding badly is a differing signature
          rw [Tree.overridesBadly_iff_of_binding hsup (hl.1 ▸ hfil) hth]
          exact h
      · -- the binding is no function
        rename_i hnot
        refine Flags.pure fun S hl hsup => ⟨hprep S hl.2 hsup, .inr ⟨?_, rfl⟩⟩
        refine Tree.not_overridesBadly_of_binding hsup fun g theirs hg hth => ?_
        rw [← hl.1, hfil] at hg
        cases hg
        exact hnot theirs hth
    · -- the superclass binds nothing under the name but the method itself
      rename_i hnone
      refine Flags.pure fun S hl hsup => ⟨hprep S hl.2 hsup, .inr ⟨?_, rfl⟩⟩
      exact Tree.not_overridesBadly_of_binding hsup fun g _ hg _ => hnone g (hl.1 ▸ hg)

/-- Checking a method against the declaration it overrides. From every memory a session reaches,
take a method `f` standing directly in class `c`. With override checks off the check does nothing.
With them on, and with the superclass chain of `c` running into no cycle in the tables the check
ends with, what it reports besides faults of preparing scopes is one override mismatch at the
method's name or nothing, and the mismatch exactly when the superclass of `c` has a scope binding
the method's name to a function (the declaration of the nearest proper ancestor that declares the
name) whose signature differs. -/
theorem checkOverride_flags_differing_signature {cfg : Config} {m : Memo} (hm : m.Reached t cfg)
    {f c : Nat} {method : FunDecl} (hf : (t.kindAt f).fn? = some method)
    (hp : t.parentOf f = some c) (hc : (t.kindAt c).cls?.isSome = true) :
    ∃ m' ds, Runs (checkOverride t cfg f) m () m' ds ∧
      (cfg.checkOverrides = false → m' = m ∧ ds = []) ∧
      (cfg.checkOverrides = true →
        (∀ d, t.SubclassIn m'.scopes c d → ¬ t.OnCycleIn m'.scopes d) →
        (ruleReports ds = [] ∨
          ruleReports ds = [⟨method.name.span, .overrideMismatch method.name.name⟩]) ∧
        (ruleReports ds = [⟨method.name.span, .overrideMismatch method.name.name⟩] ↔
          ∃ s g theirs, t.SuperStepIn m'.scopes c s ∧
            (m'.scopes[s]?).bind (·.lookup method.name.name) = some g ∧
            t.InheritsIn m'.scopes method.name.name s (some g) ∧
            (t.kindAt g).fn? = some theirs ∧ t.SignaturesDiffer method theirs)) := by
  by_cases hon : cfg.checkOverrides = true
  · obtain ⟨_, m', ds, hr, hq⟩ := flags_checkOverride hcons hon hf hp hc m
    obtain ⟨hw', -, hQ⟩ := hq (hm.wellKept hcons)
    obtain ⟨-, hflag⟩ := hQ m' (Memo.Grown.refl t m')
    refine ⟨m', ds, hr, fun hoff => absurd hon (by simp [hoff]), fun _ hacyc => ?_⟩
    obtain ⟨R, hL⟩ := hw'.1
    rw [← Tree.overridesBadly_iff_inheritsIn hcons hL hacyc hp]
    rcases hflag with ⟨hob, hds⟩ | ⟨hob, hds⟩
    · exact ⟨.inr hds, iff_of_true hds hob⟩
    · refine ⟨.inl hds, iff_of_false ?_ hob⟩
      rw [hds]
      exact (List.cons_ne_nil _ _).symm
  · -- override checks off: the check is no step at all
    have hoff : cfg.checkOverrides = false := by simpa using hon
    have hpure : checkOverride t cfg f = pure () := by
      unfold checkOverride
      rw [hoff]
      rfl
    exact ⟨m, [], hpure ▸ Runs.pure () m, fun _ => ⟨rfl, rfl⟩, fun hon' => absurd hon' hon⟩

end Consistent

end Analysis

/-- A program where class `B` extends class `A` and both declare a method `f`, returning `int` in
`A` and `bool` in `B`: node 0 is `A.f`, node 1 is `A`, node 2 is `B.f`, node 3 is `B`, node 4 the
program. -/
def Tree.overridingReturn : Tree where
  nodes := #[⟨{}, some 1, .decl (.fn ⟨⟨"f", {}⟩, .int, [], none⟩)⟩,
    ⟨{}, some 4, .decl (.cls ⟨⟨"A", {}⟩, none, [], [0]⟩)⟩,
    ⟨{}, some 3, .decl (.fn ⟨⟨"f", {}⟩, .bool, [], none⟩)⟩,
    ⟨{}, some 4, .decl (.cls ⟨⟨"B", {}⟩, some ⟨"A", {}⟩, [], [2]⟩)⟩,
    ⟨{}, none, .program [1, 3]⟩]
  children_lt := by decide
  parent_gt := by decide

namespace Analysis

/-- Checking `B.f` from a fresh session with override checks on. -/
theorem overridingReturn_flags_differing_signature :
    Tree.overridingReturn.Consistent ∧
      (Query.sessionEnd Tree.overridingReturn {} []).Reached Tree.overridingReturn {} ∧
      (Tree.overridingReturn.kindAt 2).fn? = some ⟨⟨"f", {}⟩, .bool, [], none⟩ ∧
      Tree.overridingReturn.parentOf 2 = some 3 ∧
      (Tree.overridingReturn.kindAt 3).cls?.isSome = true ∧
      ∃ m' ds, Runs (checkOverride Tree.overridingReturn {} 2)
          (Query.sessionEnd Tree.overridingReturn {} []) () m' ds ∧
        (Config.checkOverrides {} = false →
          m' = Query.sessionEnd Tree.overridingReturn {} [] ∧ ds = []) ∧
        (Config.checkOverrides {} = true →
          (∀ d, Tree.overridingReturn.SubclassIn m'.scopes 3 d →
            ¬ Tree.overridingReturn.OnCycleIn m'.scopes d) →
          (ruleReports ds = [] ∨ ruleReports ds = [⟨{}, .overrideMismatch "f"⟩]) ∧
          (ruleReports ds = [⟨{}, .overrideMismatch "f"⟩] ↔
            ∃ s g theirs, Tree.overridingReturn.SuperStepIn m'.scopes 3 s ∧
              (m'.scopes[s]?).bind (·.lookup "f") = some g ∧
              Tree.overridingReturn.InheritsIn m'.scopes "f" s (some g) ∧
              (Tree.overridingReturn.kindAt g).fn? = some theirs ∧
              Tree.overridingReturn.SignaturesDiffer ⟨⟨"f", {}⟩, .bool, [], none⟩ theirs)) := by
  have hcons : Tree.overridingReturn.Consistent := by decide
  have hm : (Query.sessionEnd Tree.overridingReturn {} []).Reached Tree.overridingReturn {} :=
    ⟨[], rfl⟩
  exact ⟨hcons, hm, rfl, rfl, rfl,
    checkOverride_flags_differing_signature hcons hm (f := 2) (c := 3) rfl rfl rfl⟩

end Analysis

end DecafCheck
