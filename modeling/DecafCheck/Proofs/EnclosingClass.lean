import DecafCheck.Proofs.Overrides
/-!
# The class a node stands in

Two walks up the tree decide whether a node stands in a class. `Tree.enclosingClass` searches the
strict ancestors of `n` for the nearest class; the analyser's `isClassScope` climbs from `n`,
preparing the scope of each node it passes, and stops at the first node whose parent is a class,
or at once when it may not look deep. Both follow the parent links only, so they agree
(`answers_isClassScope`): deep, the test passes exactly when some strict ancestor is a class;
shallow, exactly when the parent is.

`this` is typed through both: the test first, then the class that `enclosingClass` names. Since
they agree, the error branch after a passed test is never taken. `this` has the type of its
nearest enclosing class, named as that class is declared (`Tree.ThisTypeIs`), and outside every
class it is ill-typed, with one report where it stands (`runs_thisType`). A type once recorded
for a `this` node is that type in every memory a session reaches (`Memo.Reached.thisTyped`). The
main statement is `isClassScope_agrees_enclosingClass`.
-/

namespace DecafCheck

namespace Tree

variable {t : Tree} {n p c : Nat} {q : NodeKind → Bool}

/-- A node with a parent has that parent as its nearest strict ancestor. -/
lemma ancestors_of_parentOf (h : t.parentOf n = some p) : t.ancestors n = p :: t.ancestors p := by
  rw [ancestors]
  split
  · next h' =>
    rw [h] at h'
    cases h'
  · next p' h' =>
    rw [h] at h'
    cases h'
    rfl

/-- A root has no strict ancestor. -/
lemma ancestors_of_root (h : t.parentOf n = none) : t.ancestors n = [] := by
  rw [ancestors]
  split
  · rfl
  · next p' h' =>
    rw [h] at h'
    cases h'

/-- The nearest enclosing node of a kind is the parent when it is of that kind, and otherwise the
nearest one around the parent. -/
lemma enclosing_of_parentOf (h : t.parentOf n = some p) :
    t.enclosing q n = if q (t.kindAt p) then some p else t.enclosing q p := by
  unfold enclosing
  rw [ancestors_of_parentOf h]
  by_cases hq : q (t.kindAt p) <;> simp [hq]

lemma enclosing_of_root (h : t.parentOf n = none) : t.enclosing q n = none := by
  simp [enclosing, ancestors_of_root h]

/-- What `enclosing` finds is of the kind sought. -/
lemma kind_of_enclosing (h : t.enclosing q n = some c) : q (t.kindAt c) = true :=
  List.find?_some (p := fun a => q (t.kindAt a)) h

/-- `ThisTypeIs t n ty`: `this` at `n` has type `ty`. -/
inductive ThisTypeIs (t : Tree) (n : Nat) : Ty → Prop
  /-- Inside a class: the nearest enclosing class, named as it is declared. -/
  | inClass {c : Nat} {cd : ClassDecl} : t.enclosingClass n = some c →
      (t.kindAt c).cls? = some cd → ThisTypeIs t n (.named cd.name)
  /-- Outside every class: the error type. -/
  | outside : t.enclosingClass n = none → ThisTypeIs t n .error

end Tree

namespace Analysis

variable (t : Tree)

/-- Whether `n` stands in a class, as the test answers it from every memory: looking deep, whether
some strict ancestor of `n` is a class; looking shallow, whether its parent is. -/
theorem answers_isClassScope (n : Nat) (deep : Bool) :
    Spec (isClassScope t n deep) fun _ b _ _ =>
      b = if deep then (t.enclosingClass n).isSome
        else (t.parentOf n).any fun p => (t.kindAt p).cls?.isSome := by
  intro m
  obtain ⟨_, m₁, ds, h₁, -⟩ := lookup_prepareScope t n m
  cases hp : t.parentOf n with
  | none =>
    refine ⟨false, m₁, ds, runs_isClassScope_root h₁ hp, ?_⟩
    cases deep <;> simp [Tree.enclosingClass, Tree.enclosing_of_root hp]
  | some p =>
    cases hc : (t.kindAt p).cls?.isSome with
    | true =>
      refine ⟨true, m₁, ds, runs_isClassScope_in h₁ hp hc, ?_⟩
      cases deep <;> simp [Tree.enclosingClass, Tree.enclosing_of_parentOf hp, hc]
    | false =>
      cases deep with
      | false => exact ⟨false, m₁, ds, runs_isClassScope_shallow h₁ hp hc, by simp [hc]⟩
      | true =>
        -- the parent is no class: the deep test goes on from it, and so does the search
        have := (Tree.parentOf_spec hp).1
        obtain ⟨b, m₂, es, h₂, hb⟩ := answers_isClassScope p true m₁
        refine ⟨b, m₂, ds ++ es, runs_isClassScope_up h₁ hp hc h₂, ?_⟩
        simpa [Tree.enclosingClass, Tree.enclosing_of_parentOf hp, hc] using hb
termination_by t.size - n
decreasing_by have := (Tree.parentOf_spec hp).2; omega

/-- The deep test answers whether a class encloses `n`, and reports faults of preparation only. -/
lemma runs_isClassScope_enclosing (n : Nat) (m : Memo) :
    ∃ m₁ ds, Runs (isClassScope t n true) m (t.enclosingClass n).isSome m₁ ds ∧
      ruleReports ds = [] := by
  obtain ⟨b, m₁, ds, hr, hb⟩ := answers_isClassScope t n true m
  obtain ⟨b', m₁', ds', hr', hq⟩ := lookup_isClassScope t n true m
  obtain ⟨rfl, rfl, -⟩ := hr.unique hr'
  simp only [if_true] at hb
  exact ⟨m₁, ds, hb ▸ hr, ruleReports_eq_nil hq.prepares.faults⟩

/-- `this` has the type of the nearest enclosing class, with nothing reported but what preparing
scopes reports, and outside every class the error type, with one report where it stands. -/
theorem runs_thisType (n : Nat) :
    Spec (thisType t n) fun _ ty _ ds => t.ThisTypeIs n ty ∧
      ruleReports ds =
        if t.enclosingClass n = none then [⟨t.spanAt n, .thisOutsideClass⟩] else [] := by
  intro m
  obtain ⟨m₁, ds, h₁, hds⟩ := runs_isClassScope_enclosing t n m
  unfold thisType
  cases hc : t.enclosingClass n with
  | none =>
    rw [hc] at h₁
    refine ⟨.error, m₁, ds ++ ([⟨t.spanAt n, .thisOutsideClass⟩] ++ []), h₁.bind ?_,
      .outside hc, ?_⟩
    · exact (Runs.report _ _).bind (Runs.pure _ _)
    · rw [ruleReports_append, hds, List.append_nil, ruleReports_singleton rfl, if_pos rfl]
      rfl
  | some c =>
    -- the test passes, and the class it found names the type
    obtain ⟨cd, hcd⟩ := Option.isSome_iff_exists.1 (Tree.kind_of_enclosing hc)
    rw [hc] at h₁
    refine ⟨.named cd.name, m₁, ds ++ [], h₁.bind ?_, .inClass hc hcd, ?_⟩
    · simp only [Option.isSome_some, if_true, Option.bind_some, hcd]
      exact Runs.pure _ _
    · simp [hds]

variable (cfg : Config)

variable {n : Nat} {m m₁ : Memo} {ty : Ty} {ds : List Diagnostic}

/-- Inferring the type of a `this` node is running the rule of `this`: it has no operands. -/
lemma runs_infer_this (hk : t.kindAt n = .expr .thisRef) (h : Runs (thisType t n) m ty m₁ ds) :
    Runs (infer t cfg n) m ty m₁ ds := by
  rw [infer_expr t cfg hk]
  have hops : Runs (operandTypes t cfg n) m [] m [] := by
    have hnil : (t.kindAt n).children = [] := by rw [hk]; rfl
    unfold operandTypes
    rw [List.attach_eq_nil_iff.2 hnil]
    exact Runs.pure [] m
  exact hops.bind h

/-- Typing a `this` node not typed yet runs the rule of `this` and remembers its answer. -/
lemma runs_getType_this (hk : t.kindAt n = .expr .thisRef) (hn : m.types[n]? = none)
    (h : Runs (thisType t n) m ty m₁ ds) :
    Runs (getType t cfg n) m ty { m₁ with types := m₁.types.insert n ty } ds :=
  runs_getType_infer hn (runs_infer_this t cfg hk h)

end Analysis

namespace Memo

/-- Every `this` node typed in `m` has the type `this` has there. -/
def ThisTyped (t : Tree) (m : Memo) : Prop :=
  ∀ n ty, t.kindAt n = .expr .thisRef → m.types[n]? = some ty → t.ThisTypeIs n ty

/-- `m'` types `this` rightly when `m` does. -/
def KeepsThisTyped (t : Tree) (m m' : Memo) : Prop := m.ThisTyped t → m'.ThisTyped t

instance (t : Tree) : IsPreorder Memo (KeepsThisTyped t) where
  refl _ := id
  trans _ _ _ h₁ h₂ := h₂ ∘ h₁

lemma keepsThisTyped_of_types_eq {t : Tree} {m m' : Memo} (h : m'.types = m.types) :
    m.KeepsThisTyped t m' := by
  intro hm n ty hk hty
  rw [h] at hty
  exact hm n ty hk hty

end Memo

namespace Analysis

variable {α : Type} {t : Tree}

lemma Lookup.keepsThisTyped {c : AnalysisM α} (h : Lookup t c) : Keeps (Memo.KeepsThisTyped t) c :=
  h.keeps.mono fun _ _ hg => Memo.keepsThisTyped_of_types_eq hg.types_eq

variable (t)

/-- Only typing records types, so every other step keeps `this` typed rightly. -/
theorem stepwise_keepsThisTyped : Stepwise t (Keeps (Memo.KeepsThisTyped t)) where
  pure a := Keeps.pure a
  bind hc hf := hc.bind hf
  report span _ _ := Keeps.report span _
  prepare n := (lookup_prepareScope t n).keepsThisTyped
  prepared n := (lookup_prepareScope_read t n).keepsThisTyped
  find n x deep := (lookup_findDecl t x deep n).keepsThisTyped
  super c := (lookup_superclassOf t c).keepsThisTyped

variable (cfg : Config)

/-- Checking and typing record for a `this` node only the type of `this` there. -/
theorem keepsThisTyped_checkBlock :
    (∀ n, Keeps (Memo.KeepsThisTyped t) (check t cfg n)) ∧
      (∀ n, Keeps (Memo.KeepsThisTyped t) (getType t cfg n)) := by
  refine (stepwise_keepsThisTyped t).keeps_checkBlock_of_infer cfg
    (fun _ _ => Memo.keepsThisTyped_of_types_eq rfl) fun m m₁ n ty ds _ hr hq hm k ty' hk hty => ?_
  by_cases hkn : k = n
  · -- the new type: the rule of `this` gave it
    subst hkn
    have hty' : ty' = ty := by simpa using hty.symm
    obtain ⟨ty₀, m₀, ds₀, h₀, hthis, -⟩ := runs_thisType t k m
    obtain ⟨rfl, -, -⟩ := (runs_infer_this t cfg hk h₀).unique hr
    exact hty' ▸ hthis
  · have hty₁ : m₁.types[k]? = some ty' := by
      simpa [Std.TreeMap.getElem?_insert, Ne.symm hkn] using hty
    exact hq hm k ty' hk hty₁

end Analysis

/-- Every memory a session reaches types each `this` node rightly, if at all. -/
theorem Memo.Reached.thisTyped {t : Tree} {cfg : Config} {m : Memo} (h : m.Reached t cfg) :
    m.ThisTyped t := by
  obtain ⟨qs, rfl⟩ := h
  obtain ⟨M, ds, hr, hq⟩ := Query.keeps_session (Analysis.stepwise_keepsThisTyped t)
    (Analysis.keepsThisTyped_checkBlock t cfg).1 (Analysis.keepsThisTyped_checkBlock t cfg).2 qs {}
  rw [Memo.fresh_eq_withLog, hr]
  intro n ty hk hty
  refine hq (fun _ _ _ h => ?_) n ty hk (by simpa using hty)
  simp at h

namespace Analysis

variable (t : Tree) (cfg : Config)

/-- The class a node stands in, decided two ways. From every memory, the deep test answers whether
`n` has an enclosing class, some strict ancestor that is a class, and the shallow test whether its
parent is one. At a `this` node, then, typing gives the type of the nearest enclosing class, named
as that class is declared, and outside every class the error type: a first typing reports nothing
then but what preparing scopes reports, or, outside every class, one report where `this` stands;
and from every memory a session reaches, typing answers that type. -/
theorem isClassScope_agrees_enclosingClass (n : Nat) :
    (∀ m, ((isClassScope t n true).run m).1 = (t.enclosingClass n).isSome) ∧
    (∀ m, ((isClassScope t n false).run m).1 =
      (t.parentOf n).any fun p => (t.kindAt p).cls?.isSome) ∧
    (t.kindAt n = .expr .thisRef →
      (∀ m, m.types[n]? = none → ∃ ty m' ds, Runs (getType t cfg n) m ty m' ds ∧
        t.ThisTypeIs n ty ∧
        ruleReports ds =
          if t.enclosingClass n = none then [⟨t.spanAt n, .thisOutsideClass⟩] else []) ∧
      ∀ m, m.Reached t cfg → t.ThisTypeIs n ((getType t cfg n).run m).1) := by
  refine ⟨fun m => ?_, fun m => ?_, fun hk => ⟨fun m hn => ?_, fun m hm => ?_⟩⟩
  · obtain ⟨b, m₁, ds, hr, hb⟩ := answers_isClassScope t n true m
    rw [hr.run_eq]
    simpa using hb
  · obtain ⟨b, m₁, ds, hr, hb⟩ := answers_isClassScope t n false m
    rw [hr.run_eq]
    simpa using hb
  · obtain ⟨ty, m₁, ds, hr, hthis, hds⟩ := runs_thisType t n m
    exact ⟨ty, _, ds, runs_getType_this t cfg hk hn hr, hthis, hds⟩
  · -- a type found before was found by the same rule
    cases hn : m.types[n]? with
    | some ty =>
      rw [(runs_getType_memo hn).run_eq]
      exact hm.thisTyped n ty hk hn
    | none =>
      obtain ⟨ty, m₁, ds, hr, hthis, -⟩ := runs_thisType t n m
      rw [(runs_getType_this t cfg hk hn hr).run_eq]
      exact hthis

end Analysis

/-- A class `A` with a method `f` whose body evaluates `this`: node 0 is `this`, node 1 the body,
node 2 `f`, node 3 `A`, node 4 the program. -/
def Tree.thisInMethod : Tree where
  nodes := #[⟨{}, some 1, .expr .thisRef⟩, ⟨{}, some 2, .stmt (.block [] [0])⟩,
    ⟨{}, some 3, .decl (.fn ⟨⟨"f", {}⟩, .void, [], some 1⟩)⟩,
    ⟨{}, some 4, .decl (.cls ⟨⟨"A", {}⟩, none, [], [2]⟩)⟩, ⟨{}, none, .program [3]⟩]
  children_lt := by decide
  parent_gt := by decide

namespace Analysis

/-- `this` in a method of `A`, typed first from a fresh analyser. -/
theorem thisInMethod_typed :
    Tree.thisInMethod.kindAt 0 = .expr .thisRef ∧ (Memo.fresh none).types[0]? = none ∧
      ∃ ty m' ds, Runs (getType Tree.thisInMethod {} 0) (Memo.fresh none) ty m' ds ∧
        Tree.thisInMethod.ThisTypeIs 0 ty ∧
        ruleReports ds = if Tree.thisInMethod.enclosingClass 0 = none then
          [⟨Tree.thisInMethod.spanAt 0, .thisOutsideClass⟩] else [] :=
  ⟨rfl, rfl, ((isClassScope_agrees_enclosingClass Tree.thisInMethod {} 0).2.2 rfl).1 _ rfl⟩

end Analysis

end DecafCheck
