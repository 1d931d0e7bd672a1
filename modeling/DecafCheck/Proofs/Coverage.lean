import Mathlib.Logic.Relation
import DecafCheck.Proofs.Acceptance
/-!
# Checking goes through the whole tree

Analysing a program leaves no node under it untouched: every expression is typed, every node that
owns a scope has it prepared, and every other node (the program, each declaration and each
statement) is marked checked, whatever kinds of nodes stand in whatever child positions
(`analyze_covers_program`).

The checker remembers what it has done and does not go through a marked node again, so the
statement rests on an invariant of the memory (`Memo.Ready`): a node marked typed, or marked
checked and not under way, has its whole subtree gone through (`Memo.Covers`). The nodes under way
are those on the call stack, and they were built after the node being worked on, since the
checker only ever descends to children. A run from a ready memory gets through every node it marks
before it returns (`Memo.CoverStep`), so the invariant passes from call to call; the four functions
of the checker are handled together by the mutual induction they are defined by
(`covering_checkBlock`).
-/

namespace DecafCheck

namespace Tree

/-- `x` stands in the subtree of `n`: it is `n`, or a descendant of `n` through children. -/
def Within (t : Tree) (n x : Nat) : Prop :=
  Relation.ReflTransGen (fun a b => b ∈ (t.kindAt a).children) n x

/-- A subtree is its root and the subtrees of the root's children. -/
lemma within_iff {t : Tree} {n x : Nat} :
    t.Within n x ↔ n = x ∨ ∃ c ∈ (t.kindAt n).children, t.Within c x :=
  Relation.ReflTransGen.cases_head_iff

/-- While `n` is typed, the nodes from this bound up may be under way. An expression is marked
checked before it is typed; any other node is typed only by checking it, and it is marked by that
check, which has not begun. -/
def typingBound (t : Tree) (n : Nat) : Nat := if (t.kindAt n).isExpr then n else n + 1

lemma typingBound_le (t : Tree) (n : Nat) : t.typingBound n ≤ n + 1 := by
  unfold typingBound
  split <;> omega

end Tree

namespace NodeKind

lemma exists_mem_printRoles {x : Nat} {args : List Nat} (hx : x ∈ args) (i : Nat) :
    ∃ j, (x, Role.printed j) ∈ printRoles i args := by
  induction args generalizing i with
  | nil => cases hx
  | cons a rest ih =>
    rcases List.mem_cons.1 hx with rfl | hx
    · exact ⟨i, List.mem_cons_self ..⟩
    · obtain ⟨j, hj⟩ := ih hx (i + 1)
      exact ⟨j, List.mem_cons_of_mem _ hj⟩

/-- Every child of a program, a declaration or a statement is handled in some role. -/
lemma exists_role {k : NodeKind} (hk : k.isExpr = false) {x : Nat} (hx : x ∈ k.children) :
    ∃ r, (x, r) ∈ k.roles := by
  cases k with
  | program ds => exact ⟨.checked, by simpa [roles, children] using hx⟩
  | decl d => exact ⟨.checked, by cases d <;> simpa [roles] using hx⟩
  | stmt s =>
    cases s with
    | block ds ss => exact ⟨.checked, by simpa [roles] using hx⟩
    | cond test thenBranch elseBranch =>
      simp only [children, List.mem_cons, Option.mem_toList] at hx
      rcases hx with rfl | rfl | hx
      · exact ⟨.condition, by simp [roles]⟩
      · exact ⟨.checked, by simp [roles]⟩
      · exact ⟨.checked, by simp [roles, hx]⟩
    | whileLoop test body =>
      simp only [children, List.mem_cons, List.not_mem_nil, or_false] at hx
      rcases hx with rfl | rfl
      · exact ⟨.condition, by simp [roles]⟩
      · exact ⟨.checked, by simp [roles]⟩
    | forLoop init test step body =>
      simp only [children, List.mem_cons, List.not_mem_nil, or_false] at hx
      rcases hx with rfl | rfl | rfl | rfl
      · exact ⟨.checked, by simp [roles]⟩
      · exact ⟨.condition, by simp [roles]⟩
      · exact ⟨.checked, by simp [roles]⟩
      · exact ⟨.checked, by simp [roles]⟩
    | ret value =>
      simp only [children, List.mem_singleton] at hx
      exact ⟨.returned, by simp [roles, hx]⟩
    | breakLoop => cases hx
    | print args =>
      obtain ⟨j, hj⟩ := exists_mem_printRoles hx 1
      exact ⟨.printed j, hj⟩
  | expr e => cases hk

/-- An expression owns no scope. -/
lemma scopeEntries?_of_isExpr {k : NodeKind} (h : k.isExpr = true) : k.scopeEntries? = none := by
  cases k with
  | expr e => rfl
  | _ => cases h

end NodeKind

namespace Memo

/-- The checker has been through node `x`: an expression has its type, a node that owns a scope
has it prepared, and any other node (a program, a declaration or a statement) is checked. -/
structure Done (t : Tree) (m : Memo) (x : Nat) : Prop where
  /-- An expression has its type. -/
  typed : (t.kindAt x).isExpr → m.types.contains x
  /-- A scope it owns is prepared. -/
  prepared : m.Prepared t x
  /-- Anything but an expression is checked. -/
  checked : (t.kindAt x).isExpr = false → m.checked.contains x

/-- The checker has been through the whole subtree of `n`. -/
def Covers (t : Tree) (m : Memo) (n : Nat) : Prop := ∀ x, t.Within n x → m.Done t x

variable {t : Tree} {m m₁ m₂ : Memo} {n x b : Nat}

lemma Grown.contains_types (h : m.Grown t m₁) (hx : m.types.contains x) :
    m₁.types.contains x := by
  rw [Std.TreeMap.contains_eq_isSome_getElem?] at hx ⊢
  obtain ⟨ty, hty⟩ := Option.isSome_iff_exists.1 hx
  rw [h.type_kept x ty hty]
  rfl

lemma Done.grown (h : m.Done t x) (hg : m.Grown t m₁) : m₁.Done t x :=
  ⟨fun he => hg.contains_types (h.typed he), hg.prepared h.prepared,
    fun he => hg.checked_kept x (h.checked he)⟩

lemma Covers.grown (h : m.Covers t n) (hg : m.Grown t m₁) : m₁.Covers t n :=
  fun x hx => (h x hx).grown hg

/-- Recording a type, even over another one, keeps what has been gone through. -/
lemma Covers.insertType (h : m.Covers t n) (k : Nat) (ty : Ty) :
    ({ m with types := m.types.insert k ty } : Memo).Covers t n := by
  intro x hx
  obtain ⟨htyped, hprep, hchecked⟩ := h x hx
  refine ⟨fun he => ?_, hprep, hchecked⟩
  rw [Std.TreeMap.contains_insert, htyped he, Bool.or_true]

/-- A subtree is gone through when its root is and the subtrees of its children are. -/
lemma covers_iff : m.Covers t n ↔ m.Done t n ∧ ∀ c ∈ (t.kindAt n).children, m.Covers t c := by
  constructor
  · intro h
    exact ⟨h n .refl, fun c hc x hx => h x (.head hc hx)⟩
  · rintro ⟨hn, hc⟩ x hx
    rcases Tree.within_iff.1 hx with rfl | ⟨c, hmem, hcx⟩
    · exact hn
    · exact hc c hmem x hcx

/-- Every node marked typed, and every node below `b` marked checked, has its subtree gone
through: only the nodes from `b` up may still be under way. -/
structure Ready (t : Tree) (m : Memo) (b : Nat) : Prop where
  /-- A typed node is finished. -/
  typed : ∀ y, m.types.contains y → m.Covers t y
  /-- A checked node below `b` is finished. -/
  checked : ∀ y < b, m.checked.contains y → m.Covers t y

/-- From `m` to `m₁` the memo grows, and every node newly marked typed or checked has its subtree
gone through by `m₁`. -/
structure CoverStep (t : Tree) (m m₁ : Memo) : Prop where
  /-- The memo only grows. -/
  grown : m.Grown t m₁
  /-- A newly typed node is finished. -/
  typed : ∀ y, m₁.types.contains y → m.types.contains y ∨ m₁.Covers t y
  /-- A newly checked node is finished. -/
  checked : ∀ y, m₁.checked.contains y → m.checked.contains y ∨ m₁.Covers t y

namespace CoverStep

lemma refl (t : Tree) (m : Memo) : m.CoverStep t m :=
  ⟨Grown.refl t m, fun _ h => .inl h, fun _ h => .inl h⟩

lemma trans (h₁ : m.CoverStep t m₁) (h₂ : m₁.CoverStep t m₂) : m.CoverStep t m₂ where
  grown := h₁.grown.trans h₂.grown
  typed y hy :=
    (h₂.typed y hy).elim (fun h => (h₁.typed y h).imp_right (·.grown h₂.grown)) .inr
  checked y hy :=
    (h₂.checked y hy).elim (fun h => (h₁.checked y h).imp_right (·.grown h₂.grown)) .inr

/-- Preparing scopes marks nothing. -/
lemma of_prepares {ds : List Diagnostic} (h : Analysis.Prepares t m m₁ ds) : m.CoverStep t m₁ :=
  ⟨h.grown, fun _ hy => .inl (h.types_eq ▸ hy), fun _ hy => .inl (h.checked_eq ▸ hy)⟩

/-- Neither do lookups and the checks built on them. -/
lemma of_untyped (h : m.GrownUntyped t m₁) : m.CoverStep t m₁ :=
  ⟨h.grown, fun _ hy => .inl (h.types_eq ▸ hy), fun _ hy => .inl (h.checked_eq ▸ hy)⟩

/-- A mark on `n` set before a step that goes through `n` is a cover step. -/
lemma of_mark (hs : ({ m with checked := m.checked.insert n } : Memo).CoverStep t m₁)
    (hn : m₁.Covers t n) : m.CoverStep t m₁ where
  grown := ((Grown.refl t m).insertChecked n).trans hs.grown
  typed := hs.typed
  checked y hy := by
    rcases hs.checked y hy with hc | hc
    · by_cases hyn : y = n
      · exact .inr (hyn ▸ hn)
      · left
        simpa [Std.TreeSet.contains_insert, Std.compare_eq_iff_eq, Ne.symm hyn] using hc
    · exact .inr hc

end CoverStep

namespace Ready

lemma step (h : m.Ready t b) (hs : m.CoverStep t m₁) : m₁.Ready t b where
  typed y hy := (hs.typed y hy).elim (fun h' => (h.typed y h').grown hs.grown) id
  checked y hb hy := (hs.checked y hy).elim (fun h' => (h.checked y hb h').grown hs.grown) id

lemma mono (h : m.Ready t b) {b' : Nat} (hb : b' ≤ b) : m.Ready t b' :=
  ⟨h.typed, fun y hy => h.checked y (by omega)⟩

/-- A fresh memory has marked nothing. -/
lemma fresh (t : Tree) (limit : Option Nat) (b : Nat) : (Memo.fresh limit).Ready t b :=
  ⟨fun _ hy => by simp [Memo.fresh] at hy, fun _ _ hy => by simp [Memo.fresh] at hy⟩

/-- Marking `n` checked leaves it the one more node under way. -/
lemma mark (h : m.Ready t (n + 1)) : ({ m with checked := m.checked.insert n } : Memo).Ready t n where
  typed y hy := (h.typed y hy).grown ((Grown.refl t m).insertChecked n)
  checked y hy hc := by
    have hne : n ≠ y := by omega
    have hc' : m.checked.contains y := by
      simpa [Std.TreeSet.contains_insert, Std.compare_eq_iff_eq, hne] using hc
    exact (h.checked y (by omega) hc').grown ((Grown.refl t m).insertChecked n)

end Ready

end Memo

namespace Analysis

variable {α β γ : Type} {t : Tree}

/-- Every run of `c` from a memory ready below `b` is a cover step to a memory where `goal` holds
of the answer. -/
def Covering (t : Tree) (b : Nat) (c : AnalysisM α) (goal : Memo → α → Prop) : Prop :=
  Spec c fun m a m' _ => m.Ready t b → m.CoverStep t m' ∧ goal m' a

namespace Covering

variable {b n : Nat} {c : AnalysisM α} {f : α → AnalysisM β} {G G' : Memo → α → Prop}
  {H : Memo → β → Prop}

lemma pure {a : α} (h : ∀ m, G m a) : Covering t b (pure a : AnalysisM α) G :=
  fun m => ⟨a, m, [], Runs.pure a m, fun _ => ⟨.refl t m, h m⟩⟩

lemma bind {H' : α → Memo → β → Prop} (hc : Covering t b c G)
    (hf : ∀ a, Covering t b (f a) (H' a))
    (hG : ∀ a m₁ m₂ y, G m₁ a → m₁.CoverStep t m₂ → H' a m₂ y → H m₂ y) :
    Covering t b (c >>= f) H :=
  Spec.bind hc hf fun _ a m₁ _ y m₂ _ h₁ h₂ hm => by
    obtain ⟨hs₁, hg₁⟩ := h₁ hm
    obtain ⟨hs₂, hg₂⟩ := h₂ (hm.step hs₁)
    exact ⟨hs₁.trans hs₂, hG a m₁ m₂ y hg₁ hs₂ hg₂⟩

lemma mono (h : Covering t b c G) (hG : ∀ m a, G m a → G' m a) : Covering t b c G' :=
  Spec.mono h fun _ _ _ _ hq hm => (hq hm).imp_right (hG _ _)

/-- A run from a memory ready below `b` starts from one ready below any smaller bound. -/
lemma mono_bound (h : Covering t b c G) {b' : Nat} (hb : b ≤ b') : Covering t b' c G :=
  Spec.mono h fun _ _ _ _ hq hm => hq (hm.mono hb)

/-- Passing the answer on leaves a goal about the memory as it is. -/
lemma bind_pure {P : Memo → Prop} (g : α → β) (h : Covering t b c fun m _ => P m) :
    Covering t b (c >>= fun a => (Pure.pure (g a) : AnalysisM β)) fun m _ => P m := by
  intro m
  obtain ⟨a, m', ds, hr, hq⟩ := h m
  exact ⟨g a, m', ds ++ [], hr.bind (Runs.pure _ m'), hq⟩

lemma map {P : Memo → Prop} (g : α → β) (h : Covering t b c fun m _ => P m) :
    Covering t b (g <$> c) fun m _ => P m := by
  rw [map_eq_pure_bind]
  exact h.bind_pure g

/-- What marks nothing is a cover step. -/
lemma of_keeps (h : Keeps (Memo.GrownUntyped t) c) : Covering t b c fun _ _ => True :=
  Spec.mono h fun _ _ _ _ hg _ => ⟨.of_untyped hg, trivial⟩

/-- Marking `n` checked, then a run that finishes `n` once it is marked: from a memory where `n`
is not under way, a cover step that finishes `n`. -/
lemma mark (h : Covering t n c fun m _ => m.checked.contains n → m.Covers t n) :
    Covering t (n + 1) (do modify fun m : Memo => { m with checked := m.checked.insert n }; c)
      fun m _ => m.Covers t n := by
  intro m
  obtain ⟨a, m₁, ds, hr, hq⟩ := h { m with checked := m.checked.insert n }
  refine ⟨a, m₁, ds, Runs.bind_eq (Runs.modify fun _ => rfl) hr (List.nil_append ds), fun hm => ?_⟩
  obtain ⟨hs, hn⟩ := hq hm.mark
  have hc : m₁.checked.contains n := hs.grown.checked_kept n (by simp)
  exact ⟨.of_mark hs (hn hc), hn hc⟩

/-- A loop over a list: what each step finishes stays finished. -/
lemma forM (xs : List γ) {g : γ → AnalysisM PUnit} {P : Memo → γ → Prop}
    (hP : ∀ m m' x, P m x → m.CoverStep t m' → P m' x)
    (hg : ∀ x ∈ xs, Covering t b (g x) fun m _ => P m x) :
    Covering t b (xs.forM g) fun m _ => ∀ x ∈ xs, P m x := by
  induction xs with
  | nil => exact Covering.pure fun _ _ hx => absurd hx List.not_mem_nil
  | cons x rest ih =>
    refine (hg x (List.mem_cons_self ..)).bind
      (fun _ => ih fun y hy => hg y (List.mem_cons_of_mem x hy)) ?_
    intro _ m₁ m₂ _ hx hs hrest y hy
    rcases List.mem_cons.1 hy with rfl | hy
    · exact hP m₁ m₂ y hx hs
    · exact hrest y hy

/-- Mapping over a list: what each call finishes stays finished. -/
lemma mapM (xs : List γ) {g : γ → AnalysisM β} {P : Memo → γ → Prop}
    (hP : ∀ m m' x, P m x → m.CoverStep t m' → P m' x)
    (hg : ∀ x ∈ xs, Covering t b (g x) fun m _ => P m x) :
    Covering t b (xs.mapM g) fun m _ => ∀ x ∈ xs, P m x := by
  induction xs with
  | nil => exact Covering.pure fun _ _ hx => absurd hx List.not_mem_nil
  | cons x rest ih =>
    rw [List.mapM_cons]
    refine (hg x (List.mem_cons_self ..)).bind
      (fun _ => (ih fun y hy => hg y (List.mem_cons_of_mem x hy)).bind_pure _) ?_
    intro _ m₁ m₂ _ hx hs hrest y hy
    rcases List.mem_cons.1 hy with rfl | hy
    · exact hP m₁ m₂ y hx hs
    · exact hrest y hy

end Covering

section Checker

variable (t : Tree) (cfg : Config) {b : Nat}

/-- Before its children, a node prepares the scope it owns. -/
lemma covering_beforeChildren (n : Nat) :
    Covering t b (beforeChildren t n (t.kindAt n)) fun m _ => m.Prepared t n := by
  -- preparing the scope of `n` settles it, and the lookups after it keep it settled
  have hprep : Covering t b (prepareScope t n) fun m _ => m.Prepared t n :=
    Spec.mono ((prepares_scopeBlock t).1 [] n) fun _ _ _ _ hq _ =>
      ⟨.of_prepares hq.1, hq.2 List.not_mem_nil⟩
  have hthen : ∀ {c : AnalysisM PUnit}, Keeps (Memo.GrownUntyped t) c →
      Covering t b (do prepareScope t n; c) fun m _ => m.Prepared t n := fun hc =>
    hprep.bind (fun _ => Covering.of_keeps hc) fun _ _ _ _ hp hs _ => hs.grown.prepared hp
  -- a node that owns no scope has nothing to prepare
  have hnone : (t.kindAt n).scopeEntries? = none → ∀ m : Memo, m.Prepared t n :=
    fun h _ => .inr h
  cases hk : t.kindAt n with
  | program ds => exact hprep
  | decl d =>
    cases d with
    | var v =>
      exact (Covering.of_keeps ((rule_checkType t n v.ty).keeps.map _)).mono
        fun m _ _ => hnone (by rw [hk]; rfl) m
    | fn f => exact hthen ((rule_checkType t n f.ret).keeps.map _)
    | cls c => exact hthen (keeps_checkInheritance t n)
    | iface i => exact hprep
  | stmt s =>
    cases s with
    | block ds ss => exact hprep
    | _ => exact Covering.pure fun m => hnone (by rw [hk]; rfl) m
  | expr e => exact Covering.pure fun m => hnone (by rw [hk]; rfl) m

/-- A child of `n` is handled in its role with every node from `n` up possibly under way, and
ends finished. -/
lemma covering_checkChild {n : Nat} (xr : Nat × Role) (hxr : xr ∈ (t.kindAt n).roles)
    (hcheck : Covering t (xr.1 + 1) (check t cfg xr.1) fun m _ => m.Covers t xr.1)
    (htype : Covering t (t.typingBound xr.1) (getType t cfg xr.1) fun m _ => m.Covers t xr.1) :
    Covering t n (checkChild t cfg n xr) fun m _ => m.Covers t xr.1 := by
  obtain ⟨x, role⟩ := xr
  have hlt : x < n := Tree.lt_of_mem_children (NodeKind.mem_children_of_mem_roles hxr)
  have htype' : Covering t n (getType t cfg x) fun m _ => m.Covers t x :=
    htype.mono_bound (Nat.le_trans (t.typingBound_le x) hlt)
  cases role with
  | checked => exact hcheck.mono_bound hlt
  | _ =>
    exact htype'.bind (fun ty => Covering.of_keeps (keeps_afterTyped t n x ty _))
      fun _ _ _ _ hx hs _ => hx.grown hs.grown

/-- Checking and typing from a memory where only nodes above the one at hand may be under way
finish that node: checking goes through its subtree, and typing goes through the subtree of an
expression's operands, and of the node itself when it is no expression. -/
theorem covering_checkBlock :
    (∀ n, Covering t (n + 1) (check t cfg n) fun m _ => m.Covers t n) ∧
    (∀ n, (t.kindAt n).isExpr = false →
      Covering t (n + 1) (checkNode t cfg n) fun m _ => m.Covers t n) ∧
    (∀ n, Covering t (t.typingBound n) (getType t cfg n) fun m _ => m.Covers t n) ∧
    (∀ n, Covering t (t.typingBound n) (infer t cfg n) fun m _ =>
      (∀ c ∈ (t.kindAt n).children, m.Covers t c) ∧
        ((t.kindAt n).isExpr = false → m.Covers t n)) := by
  refine check.mutual_induct t
    (fun n => Covering t (n + 1) (check t cfg n) fun m _ => m.Covers t n)
    (fun n => (t.kindAt n).isExpr = false →
      Covering t (n + 1) (checkNode t cfg n) fun m _ => m.Covers t n)
    (fun n => Covering t (t.typingBound n) (getType t cfg n) fun m _ => m.Covers t n)
    (fun n => Covering t (t.typingBound n) (infer t cfg n) fun m _ =>
      (∀ c ∈ (t.kindAt n).children, m.Covers t c) ∧
        ((t.kindAt n).isExpr = false → m.Covers t n)) ?_ ?_ ?_ ?_ ?_ ?_ ?_
  -- an expression is marked checked, then typed
  · intro n hexpr ih
    rw [check, if_pos hexpr]
    refine Spec.get_bind (fun _ _ => rfl) fun m => ?_
    split
    · next hc => exact ⟨(), m, [], Runs.pure () m, fun hm => ⟨.refl t m, hm.checked n (by omega) hc⟩⟩
    · have hbound : t.typingBound n = n := by simp [Tree.typingBound, hexpr]
      rw [hbound] at ih
      exact Covering.mark ((ih.map _).mono fun _ _ h _ => h) m
  -- anything else by `checkNode`
  · intro n hexpr ih
    rw [check, if_neg hexpr]
    exact ih (by simpa using hexpr)
  -- a declaration or statement: marked, then before, each child by its role, after
  · intro n ihCheck ihType hexpr
    rw [checkNode_eq]
    refine Spec.get_bind (fun _ _ => rfl) fun m => ?_
    split
    · next hc => exact ⟨(), m, [], Runs.pure () m, fun hm => ⟨.refl t m, hm.checked n (by omega) hc⟩⟩
    · have hchildren : Covering t n ((t.kindAt n).roles.forM (checkChild t cfg n))
          fun m _ => ∀ xr ∈ (t.kindAt n).roles, m.Covers t xr.1 :=
        Covering.forM _ (fun _ _ _ h hs => h.grown hs.grown) fun xr hxr =>
          covering_checkChild t cfg xr hxr (ihCheck xr.1 xr.2 hxr) (ihType xr.1 xr.2 hxr)
      have hafter : Covering t n (afterChildren t cfg n (t.kindAt n)) fun _ _ => True :=
        Covering.of_keeps (keeps_afterChildren t cfg n (t.kindAt n))
      refine Covering.mark ((covering_beforeChildren t n).bind
        (fun _ => hchildren.bind (fun _ => hafter) fun _ _ _ _ hc hs _ xr hxr => (hc xr hxr).grown hs.grown)
        ?_) m
      -- the node is checked and prepared, and each child is finished in its role
      intro _ m₁ m₂ _ hprep hs hc hmark
      refine Memo.covers_iff.2 ⟨⟨fun he => ?_, hs.grown.prepared hprep, fun _ => hmark⟩,
        fun c hmem => ?_⟩
      · rw [hexpr] at he
        cases he
      · obtain ⟨r, hr⟩ := NodeKind.exists_role hexpr hmem
        exact hc (c, r) hr
  -- a type is found once and remembered
  · intro n ih m
    cases hn : m.types[n]? with
    | some ty =>
      refine ⟨ty, m, [], runs_getType_memo hn, fun hm => ⟨.refl t m, hm.typed n ?_⟩⟩
      simp [Std.TreeMap.contains_eq_isSome_getElem?, hn]
    | none =>
      obtain ⟨ty, m₁, ds, hr, hq⟩ := ih m
      refine ⟨ty, _, ds, runs_getType_infer hn hr, fun hm => ?_⟩
      obtain ⟨hs, hchildren, hself⟩ := hq hm
      -- recording the type of `n` finishes it
      have hcov : ({ m₁ with types := m₁.types.insert n ty } : Memo).Covers t n := by
        refine Memo.covers_iff.2 ⟨⟨fun _ => by simp, ?_, fun he => ?_⟩,
          fun c hc => (hchildren c hc).insertType n ty⟩
        · cases he : (t.kindAt n).isExpr with
          | true => exact .inr (NodeKind.scopeEntries?_of_isExpr he)
          | false => exact (Memo.covers_iff.1 ((hself he).insertType n ty)).1.prepared
        · exact (Memo.covers_iff.1 ((hself he).insertType n ty)).1.checked he
      refine ⟨⟨hs.grown.insertType hn, fun y hy => ?_, fun y hy => ?_⟩, hcov⟩
      · by_cases hyn : y = n
        · exact .inr (hyn ▸ hcov)
        · have hy₁ : m₁.types.contains y := by
            simpa [Std.TreeMap.contains_insert, Std.compare_eq_iff_eq, Ne.symm hyn] using hy
          exact (hs.typed y hy₁).imp_right fun h => h.insertType n ty
      · exact (hs.checked y hy).imp_right fun h => h.insertType n ty
  -- an expression: its operands, then its own rule
  · intro n e hk ih
    rw [infer_expr t cfg hk]
    have hbound : t.typingBound n = n := by simp [Tree.typingBound, hk, NodeKind.isExpr]
    rw [hbound]
    have hops : Covering t n (operandTypes t cfg n)
        fun m _ => ∀ x ∈ (t.kindAt n).children.attach, m.Covers t x.1 :=
      Covering.mapM _ (fun _ _ _ h hs => h.grown hs.grown) fun x _ =>
        ((ih x.1 x.2).mono_bound
          (Nat.le_trans (t.typingBound_le x.1) (Tree.lt_of_mem_children x.2))).bind_pure _
    have hown : ∀ typed, Covering t n (ownType t cfg n e typed) fun _ _ => True := by
      intro typed
      unfold ownType
      split
      · exact Covering.pure fun _ => trivial
      · exact Covering.of_keeps (rule_exprType t cfg n _ e).keeps
    refine hops.bind hown fun _ _ _ _ hc hs _ => ⟨fun c hmem => ?_, fun he => ?_⟩
    · exact (hc ⟨c, hmem⟩ (List.mem_attach _ _)).grown hs.grown
    · rw [hk] at he
      cases he
  -- a variable declaration is checked and has its declared type
  · intro n v hk ih
    have hexpr : (t.kindAt n).isExpr = false := by rw [hk]; rfl
    have hbound : t.typingBound n = n + 1 := by simp [Tree.typingBound, hexpr]
    rw [infer_var t cfg hk, hbound]
    exact ((ih hexpr).bind_pure _).mono
      fun _ _ h => ⟨fun c hc => (Memo.covers_iff.1 h).2 c hc, fun _ => h⟩
  -- anything else is checked and has type `void`
  · intro n hne hnv ih
    have hexpr : (t.kindAt n).isExpr = false := by
      cases hk : t.kindAt n with
      | expr e => exact (hne e hk).elim
      | _ => rfl
    have hbound : t.typingBound n = n + 1 := by simp [Tree.typingBound, hexpr]
    rw [infer_other t cfg hne hnv, hbound]
    exact ((ih hexpr).bind_pure _).mono
      fun _ _ h => ⟨fun c hc => (Memo.covers_iff.1 h).2 c hc, fun _ => h⟩

end Checker

variable {t : Tree} (cfg : Config)

/-- Analysing program `root` on a fresh analyser goes through its whole tree, whatever kinds of
nodes stand in its child positions: every expression under it has a memoized type, every node
under it that owns a scope has the scope prepared, and every other node under it (the program,
each declaration and each statement) is checked. -/
theorem analyze_covers_program {root : Nat} (hprog : (t.kindAt root).isProgram) :
    ∃ m, analyzeProgram t cfg root = .ok m ∧ ∀ x, t.Within root x →
      ((t.kindAt x).isExpr → (m.types[x]?).isSome) ∧
      ((t.kindAt x).scopeEntries?.isSome → m.scopes.contains x) ∧
      ((t.kindAt x).isExpr = false → m.checked.contains x) := by
  obtain ⟨_, m', ds, hr, hq⟩ := (covering_checkBlock t cfg).1 root (Memo.fresh cfg.errorLimit)
  have hcov := (hq (Memo.Ready.fresh t _ _)).2
  have hrun : Runs (analyze t cfg root) (Memo.fresh cfg.errorLimit) (.ok ()) m' ds := by
    unfold analyze
    rw [if_pos hprog]
    exact Runs.bind_eq hr (Runs.pure _ m') (List.append_nil ds)
  refine ⟨m'.withLog ((Memo.fresh cfg.errorLimit).log.reportAll ds), ?_, fun x hx => ?_⟩
  · unfold analyzeProgram
    rw [hrun.run_eq]
  · obtain ⟨htyped, hprep, hchecked⟩ := hcov x hx
    refine ⟨fun he => ?_, fun ho => ?_, hchecked⟩
    · have h := htyped he
      rw [Std.TreeMap.contains_eq_isSome_getElem?] at h
      exact h
    · rcases hprep with hc | hnone
      · exact hc
      · rw [hnone] at ho
        cases ho

/-- The program whose `main` evaluates `1`: its analysis goes through all of it. -/
theorem mainEvaluating_covered :
    ((mainEvaluating (.intLit 1) rfl).kindAt 3).isProgram = true ∧
    ∃ m, analyzeProgram (mainEvaluating (.intLit 1) rfl) {} 3 = .ok m ∧
      ∀ x, (mainEvaluating (.intLit 1) rfl).Within 3 x →
        (((mainEvaluating (.intLit 1) rfl).kindAt x).isExpr → (m.types[x]?).isSome) ∧
        (((mainEvaluating (.intLit 1) rfl).kindAt x).scopeEntries?.isSome →
          m.scopes.contains x) ∧
        (((mainEvaluating (.intLit 1) rfl).kindAt x).isExpr = false → m.checked.contains x) :=
  ⟨rfl, analyze_covers_program {} rfl⟩

end Analysis

end DecafCheck
