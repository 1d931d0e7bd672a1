import Mathlib.Algebra.BigOperators.Group.Finset.Basic
import Mathlib.Logic.Relation
import DecafCheck.Proofs.Resolution
/-!
# What preparing a scope prepares

Preparing the scope of `n` prepares, besides `n`, the scopes that `n` needs and that are not
prepared yet, and reports, for each scope it prepares, the conflicts among that scope's own
entries. Said without the memo: a class needs the scopes that the lookup of its `extends` name
reads, from the class's parent outwards up to the scope that binds the name (`Tree.Visits`), and
the scope of its superclass (`Tree.Needs`); preparing `n` prepares what `n` reaches through
`Needs`. The scope stored is built from the owner's entries and its superclass's scope
(`Tree.ScopeBuilt`), so it is a function of the node alone (`Tree.ScopeBuilt.unique`), down to
the order in which its table was filled.

The invariant is that every prepared scope is built (`Memo.ScopesBuilt`) and that whatever a
prepared scope needs is prepared (`Memo.ScopesClosed`). On a consistent tree, a run of the
preparation block that needs no class on a superclass cycle (`Tree.OffCycles`) keeps it, prepares
exactly what it needs, and reports exactly the own conflicts of what it prepares (`Analysis.Adds`,
for each function of the block: `adds_scopeBlock`, by the mutual induction the block is defined
by). A node pending preparation is never prepared by a nested run, which is what keeps the reports
of a class and of what its preparation prepares apart.

Cycles need not be excluded beforehand. A pending class is found again only around a superclass
cycle, and then the class that wanted it reports the cycle; so a run that reports nothing does
all the above too, and what it prepares, being built, is off cycles (`Analysis.Adds.offCycles`,
through `Tree.ScopeBuilt.not_superCycle`).
-/

namespace DecafCheck

/-- Going from `A` to `C` through `B` adds what the two steps add. -/
lemma Finset.sum_sdiff_trans {ι M : Type} [DecidableEq ι] [AddCommMonoid M] {A B C : Finset ι}
    (f : ι → M) (hAB : A ⊆ B) (hBC : B ⊆ C) :
    ∑ i ∈ C \ A, f i = ∑ i ∈ B \ A, f i + ∑ i ∈ C \ B, f i := by
  rw [← Finset.sdiff_union_sdiff_cancel hBC hAB, Finset.sum_union, add_comm]
  exact Finset.disjoint_left.2 fun i h₁ h₂ => (Finset.mem_sdiff.1 h₁).2 (Finset.mem_sdiff.1 h₂).1

namespace Tree

/-- Declaring entry `d` in scope `s`: a declaration whose name is free is bound. -/
def declareStep (t : Tree) (s : Scope) (d : Nat) : Scope :=
  match (t.kindAt d).decl? with
  | none => s
  | some decl =>
    match s.declare decl.name.name d with
    | .ok grown => grown
    | .error _ => s

/-- The scope that the entries `es` declare, before anything is inherited. -/
def declaredScope (t : Tree) (es : List Nat) : Scope := es.foldl t.declareStep {}

/-- The conflicts among the entries of the scope `j` owns; none if it owns none. -/
def ownConflictsAt (t : Tree) (j : Nat) : List Diagnostic :=
  match (t.kindAt j).scopeEntries? with
  | some es => t.ownConflicts es
  | none => []

lemma ownConflictsAt_of_scopeEntries? {t : Tree} {j : Nat} {es : List Nat}
    (hk : (t.kindAt j).scopeEntries? = some es) : t.ownConflictsAt j = t.ownConflicts es := by
  simp [ownConflictsAt, hk]

/-- `ScopeBuilt t n s`: the scope prepared for `n` is `s`, as a table: the scope its entries
declare, merged, for a class with a superclass, with the superclass's scope. -/
inductive ScopeBuilt (t : Tree) : Nat → Scope → Prop
  /-- Anything but a class has the scope its entries declare. -/
  | plain {n : Nat} {es : List Nat} : (t.kindAt n).scopeEntries? = some es →
      (t.kindAt n).cls? = none → ScopeBuilt t n (t.declaredScope es)
  /-- So does a class without a superclass. -/
  | base {n : Nat} {es : List Nat} {cd : ClassDecl} : (t.kindAt n).scopeEntries? = some es →
      (t.kindAt n).cls? = some cd → t.SuperIs n none → ScopeBuilt t n (t.declaredScope es)
  /-- A class with a superclass merges its superclass's scope into its own. -/
  | derived {n s : Nat} {es : List Nat} {cd : ClassDecl} {sc : Scope} :
      (t.kindAt n).scopeEntries? = some es → (t.kindAt n).cls? = some cd →
      t.SuperIs n (some s) → ScopeBuilt t s sc →
      ScopeBuilt t n ((t.declaredScope es).merge sc).1

/-- `Visits t x n v`: a deep lookup of `x` from `n` reads the scope of `v`: `n` itself, and while
the scope read does not bind `x`, the next one outwards. -/
inductive Visits (t : Tree) (x : String) : Nat → Nat → Prop
  /-- The lookup reads the scope it starts at. -/
  | here (n : Nat) : Visits t x n n
  /-- Where that scope does not bind `x`, it reads on from the parent. -/
  | up {n p v : Nat} {S : String → Option Nat} : t.ScopeIs n S → S x = none →
      t.parentOf n = some p → Visits t x p v → Visits t x n v

/-- Preparing the scope of class `a` needs the scope of `b`: the lookup of `a`'s `extends` name
reads it, or `b` is `a`'s superclass. -/
def Needs (t : Tree) (a b : Nat) : Prop :=
  (∃ p e, t.superSite a = some (p, e) ∧ t.Visits e.name p b) ∨ t.SuperIs a (some b)

/-- Finding the superclass of `c` prepares `j`: what a scope its lookup reads needs. -/
def SuperReads (t : Tree) (c j : Nat) : Prop :=
  ∃ p e v, t.superSite c = some (p, e) ∧ t.Visits e.name p v ∧ Relation.ReflTransGen t.Needs v j

/-- Looking `x` up from `n` prepares `j`: what the scope of `n` or, looking deep, a scope the lookup
reads needs. -/
def LookupReads (t : Tree) (n : Nat) (x : String) (deep : Bool) (j : Nat) : Prop :=
  ∃ v, (v = n ∨ deep = true ∧ t.Visits x n v) ∧ Relation.ReflTransGen t.Needs v j

/-- What a lookup of `x` from `n` answers: when deep, what the reference lookup finds; else what
the reference scope of `n` binds `x` to. -/
def LookupIs (t : Tree) (n : Nat) (x : String) : Bool → Option Nat → Prop
  | true, r => t.FindsIs n x r
  | false, r => ∃ S, t.ScopeIs n S ∧ S x = r

/-! ## Lookups and needs -/

section Visits

variable {t : Tree} {x : String} {n v j : Nat} {S : String → Option Nat}

/-- A lookup reads the scope it starts at, and reads on exactly when that scope does not bind the
name. -/
lemma visits_iff (hS : t.ScopeIs n S) :
    t.Visits x n v ↔ v = n ∨ S x = none ∧ ∃ p, t.parentOf n = some p ∧ t.Visits x p v := by
  constructor
  · intro h
    cases h with
    | here => exact .inl rfl
    | up hS' hx hp hv =>
      rw [hS.unique hS'] at *
      exact .inr ⟨hx, _, hp, hv⟩
  · rintro (rfl | ⟨hx, p, hp, hv⟩)
    · exact .here v
    · exact .up hS hx hp hv

/-- What a lookup prepares: what its first scope needs, and, deep and not bound there, what the
lookup from the parent prepares. -/
lemma lookupReads_iff (hS : t.ScopeIs n S) {deep : Bool} :
    t.LookupReads n x deep j ↔ Relation.ReflTransGen t.Needs n j ∨
      deep = true ∧ S x = none ∧ ∃ p, t.parentOf n = some p ∧ t.LookupReads p x true j := by
  constructor
  · rintro ⟨v, hv, hj⟩
    rcases hv with rfl | ⟨hdeep, hv⟩
    · exact .inl hj
    · rcases (visits_iff hS).1 hv with rfl | ⟨hx, p, hp, hv⟩
      · exact .inl hj
      · exact .inr ⟨hdeep, hx, p, hp, v, .inr ⟨rfl, hv⟩, hj⟩
  · rintro (hj | ⟨hdeep, hx, p, hp, v, hv, hj⟩)
    · exact ⟨n, .inl rfl, hj⟩
    · have hpv : t.Visits x p v := by
        rcases hv with rfl | ⟨-, hv⟩
        · exact .here v
        · exact hv
      exact ⟨v, .inr ⟨hdeep, .up hS hx hp hpv⟩, hj⟩

/-- A lookup that stops at its first scope prepares what that scope needs. -/
lemma lookupReads_iff_of_stop (hS : t.ScopeIs n S) {deep : Bool}
    (hstop : deep = false ∨ S x ≠ none ∨ t.parentOf n = none) :
    t.LookupReads n x deep j ↔ Relation.ReflTransGen t.Needs n j := by
  rw [lookupReads_iff hS]
  refine or_iff_left_of_imp fun ⟨hdeep, hx, p, hp, _⟩ => ?_
  rcases hstop with h | h | h
  · rw [hdeep] at h
    cases h
  · exact absurd hx h
  · rw [hp] at h
    cases h

/-- Finding the superclass prepares what its lookup from the class's parent prepares. -/
lemma superReads_iff {c p : Nat} {e : Ident} (hsite : t.superSite c = some (p, e)) :
    t.SuperReads c j ↔ t.LookupReads p e.name true j := by
  constructor
  · rintro ⟨p', e', v, hsite', hv, hj⟩
    rw [hsite] at hsite'
    cases hsite'
    exact ⟨v, .inr ⟨rfl, hv⟩, hj⟩
  · rintro ⟨v, hv, hj⟩
    have hpv : t.Visits e.name p v := by
      rcases hv with rfl | ⟨-, hv⟩
      · exact .here v
      · exact hv
    exact ⟨p, e, v, hsite, hpv, hj⟩

lemma not_superReads {c : Nat} (hsite : t.superSite c = none) : ¬ t.SuperReads c j :=
  fun ⟨_, _, _, hsite', _⟩ => by
    rw [hsite] at hsite'
    cases hsite'

end Visits

lemma cls?_of_superSite {t : Tree} {c p : Nat} {e : Ident} (h : t.superSite c = some (p, e)) :
    ((t.kindAt c).cls?).isSome := by
  unfold superSite at h
  split at h
  · next cd _ hc _ => simp [hc]
  · cases h

lemma superSite_of_superIs {t : Tree} {c s : Nat} (h : t.SuperIs c (some s)) :
    ∃ p e, t.superSite c = some (p, e) := by
  generalize hr : some s = r at h
  cases h with
  | unnamed => cases hr
  | named hsite _ => exact ⟨_, _, hsite⟩

/-- Only a class has a superclass. -/
lemma SuperStep.isClass {t : Tree} {a b : Nat} (h : t.SuperStep a b) :
    ((t.kindAt a).cls?).isSome := by
  obtain ⟨p, e, hsite⟩ := superSite_of_superIs h
  exact cls?_of_superSite hsite

/-- Only a class needs anything, so only an owner of a scope. -/
lemma Needs.owner {t : Tree} {a b : Nat} (h : t.Needs a b) : ((t.kindAt a).scopeEntries?).isSome := by
  obtain ⟨p, e, hsite⟩ : ∃ p e, t.superSite a = some (p, e) := by
    rcases h with ⟨p, e, hsite, -⟩ | h
    · exact ⟨p, e, hsite⟩
    · exact superSite_of_superIs h
  exact Option.isSome_iff_ne_none.2
    (NodeKind.scopeEntries?_ne_none_of_cls? (cls?_of_superSite hsite))

/-- A node that owns no scope needs nothing. -/
lemma eq_of_needs_of_not_owner {t : Tree} {n j : Nat} (hk : (t.kindAt n).scopeEntries? = none)
    (h : Relation.ReflTransGen t.Needs n j) : j = n := by
  rcases Relation.ReflTransGen.cases_head_iff.1 h with rfl | ⟨k, hnk, -⟩
  · rfl
  · have := hnk.owner
    rw [hk] at this
    cases this

/-- What a class needs: itself, what its superclass lookup prepares, and what its superclass
needs. -/
lemma needs_iff {t : Tree} {n j : Nat} {r : Option Nat} (hsup : t.SuperIs n r) :
    Relation.ReflTransGen t.Needs n j ↔
      j = n ∨ t.SuperReads n j ∨ ∃ s, r = some s ∧ Relation.ReflTransGen t.Needs s j := by
  rw [Relation.ReflTransGen.cases_head_iff]
  constructor
  · rintro (rfl | ⟨k, (⟨p, e, hsite, hv⟩ | hk), hj⟩)
    · exact .inl rfl
    · exact .inr (.inl ⟨p, e, k, hsite, hv, hj⟩)
    · exact .inr (.inr ⟨k, hsup.unique hk, hj⟩)
  · rintro (rfl | ⟨p, e, k, hsite, hv, hj⟩ | ⟨s, rfl, hj⟩)
    · exact .inl rfl
    · exact .inr ⟨k, .inl ⟨p, e, hsite, hv⟩, hj⟩
    · exact .inr ⟨s, .inr hsup, hj⟩

/-! ## Built scopes -/

lemma declareOne_run_fst (t : Tree) (s : Scope) (d : Nat) (m : Memo) :
    ((Analysis.declareEntries.declareOne t s d).run m).1 = t.declareStep s d := by
  have h := Analysis.runs_declareOne t s d m
  unfold declareStep
  cases hk : (t.kindAt d).decl? with
  | none =>
    simp only [hk] at h
    simp [h.run_eq]
  | some decl =>
    simp only [hk] at h
    unfold Scope.declare
    cases hl : s.lookup decl.name.name with
    | none =>
      simp only [hl] at h
      simp [h.run_eq, hl]
    | some earlier =>
      simp only [hl] at h
      simp [h.run_eq, hl]

lemma foldlM_declareOne_run_fst (t : Tree) (es : List Nat) (s : Scope) (m : Memo) :
    ((es.foldlM (Analysis.declareEntries.declareOne t) s).run m).1 = es.foldl t.declareStep s := by
  induction es generalizing s m with
  | nil => rfl
  | cons d rest ih =>
    rw [List.foldlM_cons, List.foldl_cons, ← declareOne_run_fst t s d m, ← ih]
    rfl

/-- Declaring the entries builds the scope they declare, whatever the memo. -/
lemma runs_declareEntries_declared (t : Tree) (es : List Nat) (m : Memo) :
    Analysis.Runs (Analysis.declareEntries t es) m (t.declaredScope es) m (t.ownConflicts es) := by
  obtain ⟨s, hr, -⟩ := Analysis.runs_declareEntries t es m
  have hs : s = t.declaredScope es := by
    rw [declaredScope, ← foldlM_declareOne_run_fst t es {} m]
    exact (congrArg Prod.fst hr.run_eq).symm
  exact hs ▸ hr

lemma lookup_declaredScope (t : Tree) (es : List Nat) :
    (t.declaredScope es).lookup = t.firstDecl es := by
  obtain ⟨s, hr, hl⟩ := Analysis.runs_declareEntries t es {}
  obtain ⟨rfl, -, -⟩ := hr.unique (runs_declareEntries_declared t es {})
  exact funext hl

namespace ScopeBuilt

variable {t : Tree} {n : Nat} {s s' : Scope}

/-- A built scope binds what the reference scope binds. -/
lemma scopeIs (h : t.ScopeBuilt n s) : t.ScopeIs n s.lookup := by
  induction h with
  | plain hk hc =>
    rw [lookup_declaredScope]
    exact .plain hk hc
  | base hk hc hs =>
    rw [lookup_declaredScope]
    exact .base hk hc hs
  | @derived _ _ es _ sc hk hc hs _ ih =>
    have hmerge : ((t.declaredScope es).merge sc).1.lookup = fun x =>
        (t.firstDecl es x).or (sc.lookup x) :=
      funext fun x => by rw [Scope.lookup_merge, lookup_declaredScope]
    rw [hmerge]
    exact .derived hk hc hs ih

/-- A node has one built scope. -/
lemma unique (h : t.ScopeBuilt n s) (h' : t.ScopeBuilt n s') : s = s' := by
  induction h generalizing s' with
  | plain hk hc =>
    cases h' with
    | plain hk' _ =>
      rw [hk] at hk'
      cases hk'
      rfl
    | base _ hc' _ | derived _ hc' _ _ =>
      rw [hc] at hc'
      cases hc'
  | base hk hc hs =>
    cases h' with
    | plain _ hc' =>
      rw [hc] at hc'
      cases hc'
    | base hk' _ _ =>
      rw [hk] at hk'
      cases hk'
      rfl
    | derived _ _ hs' _ => cases hs.unique hs'
  | derived hk hc hs _ ih =>
    cases h' with
    | plain _ hc' =>
      rw [hc] at hc'
      cases hc'
    | base _ _ hs' => cases hs.unique hs'
    | derived hk' _ hs' hb' =>
      rw [hk] at hk'
      cases hk'
      cases hs.unique hs'
      rw [ih hb']

/-- Only an owner has a built scope. -/
lemma owner (h : t.ScopeBuilt n s) : ((t.kindAt n).scopeEntries?).isSome := by
  cases h with
  | plain hk _ | base hk _ _ | derived hk _ _ _ => simp [hk]

/-- A node with a built scope is on no superclass cycle: its scope is built along its chain of
superclasses, which therefore ends. -/
lemma not_superCycle (h : t.ScopeBuilt n s) : ¬ Relation.TransGen t.SuperStep n n := by
  induction h with
  | plain _ hc =>
    intro hcyc
    obtain ⟨c, hnc, -⟩ := Relation.TransGen.head'_iff.1 hcyc
    have := hnc.isClass
    rw [hc] at this
    cases this
  | base _ _ hs =>
    intro hcyc
    obtain ⟨c, hnc, -⟩ := Relation.TransGen.head'_iff.1 hcyc
    cases hs.unique hnc
  | derived _ _ hs _ ih =>
    intro hcyc
    obtain ⟨c, hnc, hcn⟩ := Relation.TransGen.head'_iff.1 hcyc
    cases hs.unique hnc
    -- the cycle through `n` goes on through its superclass, whose scope is built
    exact ih (Relation.TransGen.tail' hcn hs)

end ScopeBuilt

/-- No node that `F` asks for lies on a superclass cycle. -/
def OffCycles (t : Tree) (F : Nat → Prop) : Prop := ∀ j, F j → ¬ Relation.TransGen t.SuperStep j j

namespace OffCycles

variable {t : Tree} {F G : Nat → Prop}

lemma mono (h : t.OffCycles F) (hGF : ∀ j, G j → F j) : t.OffCycles G :=
  fun j hj => h j (hGF j hj)

lemma of_superAcyclic (hacyc : t.SuperAcyclic) (F : Nat → Prop) : t.OffCycles F :=
  fun j _ => hacyc j

end OffCycles

/-- A node pending while every pending class is above it lies on a superclass cycle. -/
lemma PendingAbove.superCycle {t : Tree} {P : List Nat} {n : Nat} (h : t.PendingAbove P n)
    (hn : n ∈ P) : Relation.TransGen t.SuperStep n n := by
  rcases h n hn with h | ⟨-, h⟩
  · exact absurd h (Nat.lt_irrefl _)
  · exact h

/-- Finding the superclass of `c` prepares only what `c` needs. -/
lemma needs_of_superReads {t : Tree} {c j : Nat} (h : t.SuperReads c j) :
    Relation.ReflTransGen t.Needs c j := by
  obtain ⟨p, e, v, hsite, hv, hj⟩ := h
  exact .head (.inl ⟨p, e, hsite, hv⟩) hj

/-- Without an `extends` site a class needs nothing. -/
lemma not_needs_of_superSite_none {t : Tree} {n k : Nat} (hsite : t.superSite n = none) :
    ¬ t.Needs n k := by
  rintro (⟨p, e, hsite', -⟩ | hs)
  · rw [hsite] at hsite'
    cases hsite'
  · obtain ⟨p, e, hsite'⟩ := superSite_of_superIs hs
    rw [hsite] at hsite'
    cases hsite'

lemma superSite_of_cls?_none {t : Tree} {n : Nat} (hc : (t.kindAt n).cls? = none) :
    t.superSite n = none := by
  simp [superSite, hc]

end Tree

namespace Memo

variable {t : Tree} {m : Memo} {n j : Nat} {sc : Scope}

/-- The nodes whose scope is prepared. -/
def scopeSet (m : Memo) : Finset Nat := m.scopes.keys.toFinset

@[simp] lemma mem_scopeSet : j ∈ m.scopeSet ↔ m.scopes.contains j := by
  simp [scopeSet, Std.TreeMap.mem_keys]

/-- Every prepared scope is the one built for its node. -/
def ScopesBuilt (t : Tree) (m : Memo) : Prop :=
  ∀ j s, m.scopes[j]? = some s → t.ScopeBuilt j s

/-- Whatever a prepared scope needs is settled. -/
def ScopesClosed (t : Tree) (m : Memo) : Prop :=
  ∀ j, m.scopes.contains j → ∀ k, t.Needs j k → m.Prepared t k

lemma contains_insert_scope (hj : m.scopes.contains j) :
    ({ m with scopes := m.scopes.insert n sc } : Memo).scopes.contains j := by
  simp [Std.TreeMap.contains_insert, hj]

lemma prepared_insert_scope (hj : m.Prepared t j) :
    ({ m with scopes := m.scopes.insert n sc } : Memo).Prepared t j :=
  hj.imp contains_insert_scope id

namespace ScopesBuilt

lemma fresh (t : Tree) (limit : Option Nat) : (Memo.fresh limit).ScopesBuilt t := by
  intro j s h
  simp [Memo.fresh] at h

/-- Built scopes are reference scopes. -/
lemma sound (h : m.ScopesBuilt t) : m.ScopesSound t := fun j s hs => (h j s hs).scopeIs

lemma insert (h : m.ScopesBuilt t) (hn : t.ScopeBuilt n sc) :
    ({ m with scopes := m.scopes.insert n sc } : Memo).ScopesBuilt t := by
  intro k s hk
  rw [Std.TreeMap.getElem?_insert] at hk
  split at hk
  · next heq =>
    cases hk
    rw [← Std.compare_eq_iff_eq.1 heq]
    exact hn
  · exact h k s hk

/-- A settled node is on no superclass cycle. -/
lemma not_superCycle (h : m.ScopesBuilt t) (hj : m.Prepared t j) :
    ¬ Relation.TransGen t.SuperStep j j := by
  rcases hj with hc | hk
  · rw [Std.TreeMap.contains_eq_isSome_getElem?] at hc
    obtain ⟨s, hs⟩ := Option.isSome_iff_exists.1 hc
    exact (h j s hs).not_superCycle
  · -- a node that owns no scope is no class
    intro hcyc
    obtain ⟨c, hjc, -⟩ := Relation.TransGen.head'_iff.1 hcyc
    exact NodeKind.scopeEntries?_ne_none_of_cls? hjc.isClass hk

end ScopesBuilt

namespace ScopesClosed

lemma fresh (t : Tree) (limit : Option Nat) : (Memo.fresh limit).ScopesClosed t := by
  intro j h
  simp [Memo.fresh] at h

/-- What a settled scope reaches through needs is settled. -/
lemma prepared (h : m.ScopesClosed t) (hn : m.Prepared t n)
    (hj : Relation.ReflTransGen t.Needs n j) : m.Prepared t j := by
  induction hj with
  | refl => exact hn
  | tail _ hab ih =>
    rcases ih with hc | hk
    · exact h _ hc _ hab
    · have := hab.owner
      rw [hk] at this
      cases this

lemma contains (h : m.ScopesClosed t) (hn : m.Prepared t n)
    (hj : Relation.ReflTransGen t.Needs n j) (ho : ((t.kindAt j).scopeEntries?).isSome) :
    m.scopes.contains j := by
  rcases h.prepared hn hj with hc | hk
  · exact hc
  · rw [hk] at ho
    cases ho

/-- Storing a scope whose needs are settled keeps the memo closed. -/
lemma insert (h : m.ScopesClosed t) (hn : ∀ k, t.Needs n k → m.Prepared t k) :
    ({ m with scopes := m.scopes.insert n sc } : Memo).ScopesClosed t := by
  intro j hj k hk
  by_cases hjn : j = n
  · subst hjn
    exact prepared_insert_scope (hn k hk)
  · have hj' : m.scopes.contains j := by
      simpa [Std.TreeMap.contains_insert, Ne.symm hjn] using hj
    exact prepared_insert_scope (h j hj' k hk)

end ScopesClosed

end Memo

namespace Analysis

/-- A run of the preparation block from `m` to `m'` reporting `ds` that keeps prepared scopes built
and closed, finds no type and checks nothing, prepares exactly the scopes of the owners `F` asks
for that are not prepared yet, and reports the own conflicts of each. -/
structure Adds (t : Tree) (F : Nat → Prop) (m m' : Memo) (ds : List Diagnostic) : Prop where
  /-- Prepared scopes are built. -/
  built : m'.ScopesBuilt t
  /-- What they need is settled. -/
  closed : m'.ScopesClosed t
  /-- No type is found. -/
  types_eq : m'.types = m.types
  /-- No node is checked. -/
  checked_eq : m'.checked = m.checked
  /-- The scopes prepared are those prepared before and those of the owners `F` asks for. -/
  contains_iff : ∀ j, m'.scopes.contains j ↔
    m.scopes.contains j ∨ F j ∧ ((t.kindAt j).scopeEntries?).isSome
  /-- Each scope prepared reports its own conflicts. -/
  reports : (ds : Multiset Diagnostic) =
    ∑ j ∈ m'.scopeSet \ m.scopeSet, (t.ownConflictsAt j : Multiset Diagnostic)

namespace Adds

variable {t : Tree} {F G : Nat → Prop} {m m₁ m₂ : Memo} {ds es : List Diagnostic}

lemma scopeSet_subset (h : Adds t F m m₁ ds) : m.scopeSet ⊆ m₁.scopeSet := fun j hj => by
  rw [Memo.mem_scopeSet] at hj ⊢
  exact (h.contains_iff j).2 (.inl hj)

lemma refl (hb : m.ScopesBuilt t) (hc : m.ScopesClosed t)
    (hF : ∀ j, F j → ((t.kindAt j).scopeEntries?).isSome → m.scopes.contains j) :
    Adds t F m m [] where
  built := hb
  closed := hc
  types_eq := rfl
  checked_eq := rfl
  contains_iff j := ⟨.inl, fun h => h.elim id fun ⟨hj, ho⟩ => hF j hj ho⟩
  reports := by simp

lemma trans (h₁ : Adds t F m m₁ ds) (h₂ : Adds t G m₁ m₂ es) :
    Adds t (fun j => F j ∨ G j) m m₂ (ds ++ es) where
  built := h₂.built
  closed := h₂.closed
  types_eq := h₂.types_eq.trans h₁.types_eq
  checked_eq := h₂.checked_eq.trans h₁.checked_eq
  contains_iff j := by
    rw [h₂.contains_iff, h₁.contains_iff]
    tauto
  reports := by
    rw [← Multiset.coe_add, h₁.reports, h₂.reports,
      Finset.sum_sdiff_trans _ h₁.scopeSet_subset h₂.scopeSet_subset]

/-- Only what `F` asks of owners matters. -/
lemma congr (h : Adds t F m m₁ ds)
    (hFG : ∀ j, ((t.kindAt j).scopeEntries?).isSome → (F j ↔ G j)) : Adds t G m m₁ ds :=
  { h with
    contains_iff := fun j => by
      rw [h.contains_iff]
      constructor
      · exact Or.imp_right fun ⟨hj, ho⟩ => ⟨(hFG j ho).1 hj, ho⟩
      · exact Or.imp_right fun ⟨hj, ho⟩ => ⟨(hFG j ho).2 hj, ho⟩ }

/-- Only the reports matter, not their order. -/
lemma perm (h : Adds t F m m₁ ds) (hp : ds.Perm es) : Adds t F m m₁ es :=
  { h with reports := (Multiset.coe_eq_coe.2 hp).symm.trans h.reports }

/-- What `F` asks for is settled at the end. -/
lemma prepared_of {j : Nat} (h : Adds t F m m₁ ds) (hj : F j) : m₁.Prepared t j := by
  cases ho : (t.kindAt j).scopeEntries? with
  | none => exact .inr ho
  | some es => exact .inl ((h.contains_iff j).2 (.inr ⟨hj, by simp [ho]⟩))

/-- After preparing what `n` needs, the scope of `n` is settled. -/
lemma prepared {n : Nat} (h : Adds t (Relation.ReflTransGen t.Needs n) m m₁ ds) :
    m₁.Prepared t n :=
  h.prepared_of .refl

/-- What a run prepares, built, is off superclass cycles. -/
lemma offCycles (h : Adds t F m m₁ ds) : t.OffCycles F :=
  fun _ hj => h.built.not_superCycle (h.prepared_of hj)

end Adds

variable {t : Tree}

/-- Storing the built scope of `n`, whose needs are settled, prepares `n` and reports its own
conflicts. -/
lemma adds_store {m : Memo} {n : Nat} {sc : Scope} (hb : m.ScopesBuilt t) (hc : m.ScopesClosed t)
    (hn : m.scopes.contains n = false) (hs : t.ScopeBuilt n sc)
    (hneeds : ∀ k, t.Needs n k → m.Prepared t k) :
    Adds t (· = n) m { m with scopes := m.scopes.insert n sc } (t.ownConflictsAt n) where
  built := hb.insert hs
  closed := hc.insert hneeds
  types_eq := rfl
  checked_eq := rfl
  contains_iff j := by
    rw [Std.TreeMap.contains_insert]
    by_cases hjn : j = n
    · subst hjn
      simp [hs.owner]
    · simp [Ne.symm hjn, hjn]
  reports := by
    have hnew : ({ m with scopes := m.scopes.insert n sc } : Memo).scopeSet \ m.scopeSet = {n} := by
      ext j
      by_cases hjn : j = n
      · subst hjn
        simp [Std.TreeMap.contains_insert, hn]
      · simp [Std.TreeMap.contains_insert, Ne.symm hjn, hjn]
    rw [hnew, Finset.sum_singleton]

/-- The nodes of `P` that were not prepared at `m` are not at `m'` either. -/
def Unprepared (P : List Nat) (m m' : Memo) : Prop :=
  ∀ k ∈ P, m.scopes.contains k = false → m'.scopes.contains k = false

namespace Unprepared

variable {P : List Nat} {m m₁ m₂ : Memo}

lemma refl (P : List Nat) (m : Memo) : Unprepared P m m := fun _ _ h => h

lemma trans (h₁ : Unprepared P m m₁) (h₂ : Unprepared P m₁ m₂) : Unprepared P m m₂ :=
  fun k hk h => h₂ k hk (h₁ k hk h)

lemma of_cons {n : Nat} (h : Unprepared (n :: P) m m₁) : Unprepared P m m₁ :=
  fun k hk => h k (List.mem_cons_of_mem n hk)

end Unprepared

/-- Preparing `n` with `P` pending, from built and closed scopes and with every pending class above
`n`, prepares what `n` needs, when what `n` needs is off superclass cycles, or when the run reports
nothing and does not stop at `n` pending. -/
def PrepAdds (t : Tree) (P : List Nat) (n : Nat) : Prop :=
  Spec (prepareWithin t P n) fun m _ m' ds => Unprepared P m m' ∧
    (m.ScopesBuilt t → m.ScopesClosed t → t.PendingAbove P n →
      (ds = [] ∧ (n ∈ P → m'.scopes.contains n) ∨ t.OffCycles (Relation.ReflTransGen t.Needs n)) →
      Adds t (Relation.ReflTransGen t.Needs n) m m' ds)

/-- Finding the superclass of `c`, with no pending class higher than `c`, prepares what its lookup
reads and finds the reference superclass, when the run reports nothing or what the lookup reads is
off superclass cycles. -/
def SuperAdds (t : Tree) (P : List Nat) (c : Nat) : Prop :=
  Spec (superclassWithin t P c) fun m r m' ds => Unprepared P m m' ∧
    (m.ScopesBuilt t → m.ScopesClosed t → (∀ k ∈ P, t.depth c ≤ t.depth k) →
      (ds = [] ∨ t.OffCycles (t.SuperReads c)) → Adds t (t.SuperReads c) m m' ds ∧ t.SuperIs c r)

/-- A lookup from `n`, with every pending class lower than `n`, prepares what it reads and finds
the reference answer, when the run reports nothing or what it reads is off superclass cycles. -/
def FindAdds (t : Tree) (P : List Nat) (n : Nat) (x : String) (deep : Bool) : Prop :=
  Spec (findWithin t P n x deep) fun m r m' ds => Unprepared P m m' ∧
    (m.ScopesBuilt t → m.ScopesClosed t → (∀ k ∈ P, t.depth n < t.depth k) →
      (ds = [] ∨ t.OffCycles (t.LookupReads n x deep)) →
      Adds t (t.LookupReads n x deep) m m' ds ∧ t.LookupIs n x deep r)

/-- Without a superclass site nothing runs and nothing is prepared. -/
lemma superAdds_of_superSite_none {P : List Nat} {c : Nat} (hsite : t.superSite c = none) :
    SuperAdds t P c := fun m =>
  ⟨none, m, [], runs_superclassWithin_none hsite, Unprepared.refl P m, fun hb hc _ _ =>
    ⟨Adds.refl hb hc fun _ hj => (Tree.not_superReads hsite hj).elim, .unnamed hsite⟩⟩

section Block

variable (hcons : t.Consistent)
include hcons

/-- What a class inherits prepares what its superclass lookup and its superclass need; with `n`
itself, that is all `n` needs. -/
lemma adds_inheritWithin {P : List Nat} {n : Nat} {es : List Nat}
    (hk : (t.kindAt n).scopeEntries? = some es)
    (ihSuper : SuperAdds t (n :: P) n) (ihPrep : ∀ sup, PrepAdds t (n :: P) sup) :
    Spec (inheritWithin t P n (t.declaredScope es)) fun m sc m' ds => Unprepared (n :: P) m m' ∧
      (m.ScopesBuilt t → m.ScopesClosed t → t.PendingAbove P n →
        (ds = [] ∨ t.OffCycles (Relation.ReflTransGen t.Needs n)) →
        ∃ F : Nat → Prop, (∀ j, F j ∨ j = n ↔ Relation.ReflTransGen t.Needs n j) ∧
          Adds t F m m' ds ∧ t.ScopeBuilt n sc ∧ ∀ k, t.Needs n k → m'.Prepared t k) := by
  intro m
  cases hc : (t.kindAt n).cls? with
  | none =>
    have hsite := Tree.superSite_of_cls?_none hc
    refine ⟨_, m, [], runs_inheritWithin_of_cls_none hc, Unprepared.refl _ m,
      fun hb hcl _ _ => ⟨fun _ => False, fun j => ?_, Adds.refl hb hcl fun _ h => h.elim,
        .plain hk hc, fun k hk => (Tree.not_needs_of_superSite_none hsite hk).elim⟩⟩
    rw [Tree.needs_iff (.unnamed hsite)]
    simp [Tree.not_superReads hsite]
  | some cd =>
    obtain ⟨r, m₁, ds, hr, hun₁, hq₁⟩ := ihSuper m
    cases r with
    | none =>
      refine ⟨_, m₁, ds, runs_inheritWithin_no_super hc hr, hun₁, fun hb hcl hP hq => ?_⟩
      obtain ⟨hadds, hsup⟩ :=
        hq₁ hb hcl hP.low (hq.imp_right fun h => h.mono fun _ => Tree.needs_of_superReads)
      refine ⟨t.SuperReads n, fun j => ?_, hadds, .base hk hc hsup, fun k hnk => ?_⟩
      · rw [Tree.needs_iff hsup]
        simp only [reduceCtorEq, false_and, exists_false, or_false]
        exact or_comm
      · rcases hnk with ⟨p, e, hsite, hv⟩ | hs
        · cases ho : (t.kindAt k).scopeEntries? with
          | none => exact .inr ho
          | some _ =>
            exact .inl ((hadds.contains_iff k).2 (.inr ⟨⟨p, e, k, hsite, hv, .refl⟩, by simp [ho]⟩))
        · cases hsup.unique hs
    | some sup =>
      obtain ⟨_, m₂, es₂, hr₂, hun₂, hq₂⟩ := ihPrep sup m₁
      -- the superclass is prepared by now, so there is no cycle to report
      have hready : m.ScopesBuilt t → m.ScopesClosed t → t.PendingAbove P n →
          (ds = [] ∧ es₂ = [] ∧ m₂.scopes.contains sup ∨
            t.OffCycles (Relation.ReflTransGen t.Needs n)) →
          Adds t (t.SuperReads n) m m₁ ds ∧ t.SuperIs n (some sup) ∧
            Adds t (Relation.ReflTransGen t.Needs sup) m₁ m₂ es₂ := by
        intro hb hcl hP hq
        obtain ⟨hadds₁, hsup⟩ :=
          hq₁ hb hcl hP.low (hq.imp (·.1) fun h => h.mono fun _ => Tree.needs_of_superReads)
        refine ⟨hadds₁, hsup, hq₂ hadds₁.built hadds₁.closed
          (hP.super hsup (hsup.depth_le hcons sup rfl)) ?_⟩
        exact hq.imp (fun h => ⟨h.2.1, fun _ => h.2.2⟩) fun h => h.mono fun _ => .head (.inr hsup)
      cases hsc : m₂.scopes[sup]? with
      | some s =>
        have hcont : m₂.scopes.contains sup := by
          simp [Std.TreeMap.contains_eq_isSome_getElem?, hsc]
        refine ⟨_, m₂, ds ++ es₂, runs_inheritWithin_merge hc hr hr₂ hsc, hun₁.trans hun₂,
          fun hb hcl hP hq => ?_⟩
        obtain ⟨hadds₁, hsup, hadds₂⟩ := hready hb hcl hP (hq.imp_left fun h =>
          ⟨(List.append_eq_nil_iff.1 h).1, (List.append_eq_nil_iff.1 h).2, hcont⟩)
        refine ⟨fun j => t.SuperReads n j ∨ Relation.ReflTransGen t.Needs sup j, fun j => ?_,
          hadds₁.trans hadds₂, .derived hk hc hsup (hadds₂.built sup s hsc), fun k hnk => ?_⟩
        · rw [Tree.needs_iff hsup]
          simp only [Option.some.injEq, exists_eq_left']
          exact or_comm
        · rcases hnk with ⟨p, e, hsite, hv⟩ | hs
          · cases ho : (t.kindAt k).scopeEntries? with
            | none => exact .inr ho
            | some _ =>
              refine .inl ((hadds₂.contains_iff k).2 (.inl ((hadds₁.contains_iff k).2 ?_)))
              exact .inr ⟨⟨p, e, k, hsite, hv, .refl⟩, by simp [ho]⟩
          · cases hsup.unique hs
            exact .inl hcont
      | none =>
        refine ⟨_, m₂, _, runs_inheritWithin_cycle hc hr hr₂ hsc, hun₁.trans hun₂,
          fun hb hcl hP hq => ?_⟩
        -- a run that reports the cycle is not silent, so what `n` needs is off cycles, and then
        -- the superclass would be prepared
        obtain ⟨-, hsup, hadds₂⟩ := hready hb hcl hP (.inr (hq.resolve_left (by simp)))
        exfalso
        rcases hadds₂.prepared with hcont | hnone
        · rw [Std.TreeMap.contains_eq_isSome_getElem?, hsc] at hcont
          cases hcont
        · exact NodeKind.scopeEntries?_ne_none_of_cls? hsup.isClass hnone

/-- Preparing a scope not prepared yet: its own conflicts, then what inheriting reports; what is
prepared is what `n` needs. -/
lemma adds_build {P : List Nat} {n : Nat} {es : List Nat} {m : Memo}
    (hs : m.scopes.contains n = false) (hk : (t.kindAt n).scopeEntries? = some es) (hp : n ∉ P)
    (ihSuper : SuperAdds t (n :: P) n) (ihPrep : ∀ sup, PrepAdds t (n :: P) sup) :
    ∃ m' ds, Runs (prepareWithin t P n) m () m' ds ∧ Unprepared P m m' ∧
      (m.ScopesBuilt t → m.ScopesClosed t → t.PendingAbove P n →
        (ds = [] ∨ t.OffCycles (Relation.ReflTransGen t.Needs n)) →
        Adds t (Relation.ReflTransGen t.Needs n) m m' ds) := by
  obtain ⟨sc, m₁, ds, hinh, hun, hq⟩ := adds_inheritWithin hcons hk ihSuper ihPrep m
  refine ⟨_, _, runs_prepareWithin_build hs hk hp (Tree.runs_declareEntries_declared t es m) hinh,
    fun k hk' hks => ?_, fun hb hc hP hq' => ?_⟩
  · have hkn : k ≠ n := fun h => hp (h ▸ hk')
    simpa [Std.TreeMap.contains_insert, Ne.symm hkn] using hun.of_cons k hk' hks
  · obtain ⟨F, hF, hadds, hbuilt, hneeds⟩ :=
      hq hb hc hP (hq'.imp_left fun h => (List.append_eq_nil_iff.1 h).2)
    have hstore := adds_store hadds.built hadds.closed (hun n (List.mem_cons_self ..) hs) hbuilt
      hneeds
    rw [Tree.ownConflictsAt_of_scopeEntries? hk] at hstore
    exact ((hadds.trans hstore).perm List.perm_append_comm).congr fun j _ => hF j

/-- From built and closed scopes, a run of the preparation block that reports nothing, or that
needs nothing on a superclass cycle, prepares exactly what it needs and reports the own conflicts
of each scope it prepares; it finds the reference superclass and the reference answer of a lookup;
a node pending preparation is never prepared. -/
theorem adds_scopeBlock :
    (∀ P n, PrepAdds t P n) ∧ (∀ P c, SuperAdds t P c) ∧ (∀ P n x deep, FindAdds t P n x deep) := by
  refine prepareWithin.mutual_induct t (PrepAdds t) (SuperAdds t) (FindAdds t) ?_ ?_ ?_ ?_ ?_
  -- preparing `n`: left alone when settled, else built
  · intro P n ihSuper ihPrep m
    cases hs : m.scopes.contains n with
    | true =>
      exact ⟨(), m, [], runs_prepareWithin_skip (.inl hs), Unprepared.refl P m,
        fun hb hc _ _ => Adds.refl hb hc fun _ hj ho => hc.contains (.inl hs) hj ho⟩
    | false =>
    cases hk : (t.kindAt n).scopeEntries? with
    | none =>
      refine ⟨(), m, [], runs_prepareWithin_skip (.inr (.inl hk)), Unprepared.refl P m,
        fun hb hc _ _ => Adds.refl hb hc fun j hj ho => ?_⟩
      rw [Tree.eq_of_needs_of_not_owner hk hj, hk] at ho
      cases ho
    | some es =>
    by_cases hp : n ∈ P
    · refine ⟨(), m, [], runs_prepareWithin_skip (.inr (.inr hp)), Unprepared.refl P m,
        fun _ _ hP hq => ?_⟩
      -- skipped while pending: `n` stays unprepared, and lies on a superclass cycle
      rcases hq with ⟨-, hcont⟩ | hoff
      · rw [hcont hp] at hs
        cases hs
      · exact (hoff n .refl (hP.superCycle hp)).elim
    obtain ⟨m', ds, hr, hun, hq⟩ := adds_build hcons hs hk hp (ihSuper es hk hp) (ihPrep es hk hp)
    exact ⟨(), m', ds, hr, hun, fun hb hc hP hq' => hq hb hc hP (hq'.imp_left (·.1))⟩
  -- the superclass of a class with an `extends` name
  · intro P c cd p hp hc e he ih m
    have hsite := Tree.superSite_eq hp hc he
    obtain ⟨r, m₁, ds, hr, hun, hq⟩ := ih m
    refine ⟨_, m₁, ds, runs_superclassWithin hsite hr, hun, fun hb hcl hP hq' => ?_⟩
    obtain ⟨hadds, hf⟩ := hq hb hcl (Tree.lower_of_parentOf hp hP)
      (hq'.imp_right fun h => h.mono fun _ hj => (Tree.superReads_iff hsite).2 hj)
    exact ⟨hadds.congr fun j _ => (Tree.superReads_iff hsite).symm, .named hsite hf⟩
  -- a class without an `extends` name
  · intro P c cd p hp hc he
    exact superAdds_of_superSite_none (by simp [Tree.superSite, hc, hp, he])
  -- no class, or no parent
  · intro P c hno
    refine superAdds_of_superSite_none ?_
    unfold Tree.superSite
    split
    · next cd p hc hp => exact (hno cd p hc hp).elim
    · rfl
  -- a lookup: in the scope of `n`, or on from its parent
  · intro P n x deep ihPrep ihUp m
    obtain ⟨_, m₁, ds, hr₁, hun₁, hq₁⟩ := ihPrep m
    -- `n` is prepared, and its scope reads as its reference scope
    have hread : m.ScopesBuilt t → m.ScopesClosed t → (∀ k ∈ P, t.depth n < t.depth k) →
        (ds = [] ∨ t.OffCycles (t.LookupReads n x deep)) →
        Adds t (Relation.ReflTransGen t.Needs n) m m₁ ds ∧
          ∃ S, t.ScopeIs n S ∧ S x = (m₁.scopes[n]?).bind (·.lookup x) := by
      intro hb hc hP hq
      -- `n` stands lower than every pending class, so it is not pending
      have hadds := hq₁ hb hc (.of_lower hP)
        (hq.imp (fun h => ⟨h, fun hn => absurd (hP n hn) (Nat.lt_irrefl _)⟩)
          fun h => h.mono fun _ hj => ⟨n, .inl rfl, hj⟩)
      exact ⟨hadds, hadds.built.sound.read hadds.prepared x⟩
    cases hd : (m₁.scopes[n]?).bind (·.lookup x) with
    | some d =>
      refine ⟨_, m₁, ds, runs_findWithin_found hr₁ hd, hun₁, fun hb hc hP hq => ?_⟩
      obtain ⟨hadds, S, hS, hSx⟩ := hread hb hc hP hq
      rw [hd] at hSx
      refine ⟨hadds.congr fun j _ => (Tree.lookupReads_iff_of_stop hS (.inr (.inl ?_))).symm, ?_⟩
      · simp [hSx]
      · cases deep with
        | true => exact .here hS hSx
        | false => exact ⟨S, hS, hSx⟩
    | none =>
      cases deep with
      | false =>
        refine ⟨_, m₁, ds, runs_findWithin_stop hr₁ hd (.inl rfl), hun₁, fun hb hc hP hq => ?_⟩
        obtain ⟨hadds, S, hS, hSx⟩ := hread hb hc hP hq
        exact ⟨hadds.congr fun j _ => (Tree.lookupReads_iff_of_stop hS (.inl rfl)).symm,
          S, hS, hSx.trans hd⟩
      | true =>
      cases hp : t.parentOf n with
      | none =>
        refine ⟨_, m₁, ds, runs_findWithin_stop hr₁ hd (.inr hp), hun₁, fun hb hc hP hq => ?_⟩
        obtain ⟨hadds, S, hS, hSx⟩ := hread hb hc hP hq
        exact ⟨hadds.congr fun j _ => (Tree.lookupReads_iff_of_stop hS (.inr (.inr hp))).symm,
          .top hS (hSx.trans hd) hp⟩
      | some p =>
        obtain ⟨r, m₂, es, hr₂, hun₂, hq₂⟩ := ihUp p hp m₁
        refine ⟨r, m₂, ds ++ es, runs_findWithin_up hr₁ hd hp hr₂, hun₁.trans hun₂,
          fun hb hc hP hq => ?_⟩
        obtain ⟨hadds₁, S, hS, hSx⟩ :=
          hread hb hc hP (hq.imp_left fun h => (List.append_eq_nil_iff.1 h).1)
        -- what the lookup from the parent prepares, the lookup from `n` prepares
        obtain ⟨hadds₂, hf⟩ := hq₂ hadds₁.built hadds₁.closed
          (Tree.lower_of_parentOf hp fun k hk => Nat.le_of_lt (hP k hk))
          (hq.imp (fun h => (List.append_eq_nil_iff.1 h).2) fun h => h.mono fun _ hj =>
            (Tree.lookupReads_iff hS).2 (.inr ⟨rfl, hSx.trans hd, p, hp, hj⟩))
        refine ⟨(hadds₁.trans hadds₂).congr fun j _ => ?_, .up hS (hSx.trans hd) hp hf⟩
        rw [Tree.lookupReads_iff hS, hSx, hd]
        simp [hp]

end Block

end Analysis

end DecafCheck
