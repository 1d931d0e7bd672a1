import DecafCheck.Proofs.Attachment
import DecafCheck.Proofs.Preparation
/-!
# The reference scopes

Said without the memo, the scope of a node is what its own entries bind, and, for a class, what
its superclass's scope binds under the names the class leaves free; the superclass is the class
that a deep lookup of the `extends` name finds from the class's parent; a deep lookup reads the
scope of the node it starts at, then of its parent, and so on outwards. The three notions call
each other, so they are one `mutual` block of relations (`Tree.ScopeIs`, `Tree.SuperIs`,
`Tree.FindsIs`), each a function of its node (`Tree.ScopeIs.unique`, ...).

On a consistent tree (`Tree.Consistent`) what a scope binds stands one level below its owner, and
a superclass, found from the class's parent, stands no lower than its class
(`Tree.SuperIs.depth_le`). Preparation marks the classes it is preparing as pending; while `k` is
pending, what may be prepared is strictly higher than `k`, or no lower and reached from `k` through
superclasses (`Tree.Above`), so with no superclass cycle (`Tree.SuperAcyclic`) it is never `k`.

A memo whose prepared scopes are all reference scopes is `Memo.ScopesSound`; a step from `m` to
`m'` that keeps this on every consistent tree with acyclic superclasses is `Memo.StaysSound`.
-/

namespace DecafCheck

namespace Tree

/-- The number of strict ancestors of `n`. -/
def depth (t : Tree) (n : Nat) : Nat := (t.ancestors n).length

lemma depth_of_parentOf {t : Tree} {n p : Nat} (h : t.parentOf n = some p) :
    t.depth n = t.depth p + 1 := by
  unfold depth
  rw [ancestors]
  split
  · next h' =>
    rw [h] at h'
    cases h'
  · next p' h' =>
    rw [h] at h'
    cases h'
    rfl

mutual

/-- `ScopeIs t n S`: the reference scope of `n` binds each name `x` to `S x`. -/
inductive ScopeIs (t : Tree) : Nat → (String → Option Nat) → Prop
  /-- A node that owns no scope binds nothing. -/
  | unowned {n : Nat} : (t.kindAt n).scopeEntries? = none → ScopeIs t n fun _ => none
  /-- Anything but a class binds its own first declarations. -/
  | plain {n : Nat} {es : List Nat} : (t.kindAt n).scopeEntries? = some es →
      (t.kindAt n).cls? = none → ScopeIs t n (t.firstDecl es)
  /-- So does a class without a superclass. -/
  | base {n : Nat} {es : List Nat} {cd : ClassDecl} : (t.kindAt n).scopeEntries? = some es →
      (t.kindAt n).cls? = some cd → SuperIs t n none → ScopeIs t n (t.firstDecl es)
  /-- A class with a superclass adds what the superclass binds under the names it leaves free. -/
  | derived {n s : Nat} {es : List Nat} {cd : ClassDecl} {S : String → Option Nat} :
      (t.kindAt n).scopeEntries? = some es → (t.kindAt n).cls? = some cd →
      SuperIs t n (some s) → ScopeIs t s S → ScopeIs t n fun x => (t.firstDecl es x).or (S x)

/-- `SuperIs t c r`: the superclass of `c` is `r`. -/
inductive SuperIs (t : Tree) : Nat → Option Nat → Prop
  /-- No class with a parent and an `extends` name, no superclass. -/
  | unnamed {c : Nat} : t.superSite c = none → SuperIs t c none
  /-- Otherwise the class that the `extends` name finds from the parent, if it is a class. -/
  | named {c p : Nat} {e : Ident} {r : Option Nat} : t.superSite c = some (p, e) →
      FindsIs t p e.name r → SuperIs t c (r.filter fun d => (t.kindAt d).cls?.isSome)

/-- `FindsIs t n x r`: a deep lookup of `x` from `n` finds `r`. -/
inductive FindsIs (t : Tree) : Nat → String → Option Nat → Prop
  /-- The scope of `n` binds `x`. -/
  | here {n d : Nat} {x : String} {S : String → Option Nat} : ScopeIs t n S → S x = some d →
      FindsIs t n x (some d)
  /-- It does not, and the lookup goes on from the parent. -/
  | up {n p : Nat} {x : String} {S : String → Option Nat} {r : Option Nat} : ScopeIs t n S →
      S x = none → t.parentOf n = some p → FindsIs t p x r → FindsIs t n x r
  /-- It does not, and `n` is the root. -/
  | top {n : Nat} {x : String} {S : String → Option Nat} : ScopeIs t n S → S x = none →
      t.parentOf n = none → FindsIs t n x none

end

mutual

/-- A node has at most one reference scope. -/
theorem ScopeIs.unique {t : Tree} {n : Nat} {S S' : String → Option Nat} :
    t.ScopeIs n S → t.ScopeIs n S' → S = S'
  | .unowned hk, h' => by
    cases h' with
    | unowned _ => rfl
    | plain hk' _ | base hk' _ _ | derived hk' _ _ _ =>
      rw [hk] at hk'
      cases hk'
  | .plain hk hc, h' => by
    cases h' with
    | unowned hk' =>
      rw [hk] at hk'
      cases hk'
    | plain hk' _ =>
      rw [hk] at hk'
      cases hk'
      rfl
    | base _ hc' _ | derived _ hc' _ _ =>
      rw [hc] at hc'
      cases hc'
  | .base hk hc hs, h' => by
    cases h' with
    | unowned hk' =>
      rw [hk] at hk'
      cases hk'
    | plain _ hc' =>
      rw [hc] at hc'
      cases hc'
    | base hk' _ _ =>
      rw [hk] at hk'
      cases hk'
      rfl
    | derived _ _ hs' _ => cases hs.unique hs'
  | .derived hk hc hs hS, h' => by
    cases h' with
    | unowned hk' =>
      rw [hk] at hk'
      cases hk'
    | plain _ hc' =>
      rw [hc] at hc'
      cases hc'
    | base _ _ hs' => cases hs.unique hs'
    | derived hk' _ hs' hS' =>
      rw [hk] at hk'
      cases hk'
      cases hs.unique hs'
      rw [hS.unique hS']

/-- A class has at most one reference superclass. -/
theorem SuperIs.unique {t : Tree} {c : Nat} {r r' : Option Nat} :
    t.SuperIs c r → t.SuperIs c r' → r = r'
  | .unnamed hsite, h' => by
    cases h' with
    | unnamed _ => rfl
    | named hsite' _ =>
      rw [hsite] at hsite'
      cases hsite'
  | .named hsite hf, h' => by
    cases h' with
    | unnamed hsite' =>
      rw [hsite] at hsite'
      cases hsite'
    | named hsite' hf' =>
      rw [hsite] at hsite'
      cases hsite'
      rw [hf.unique hf']

/-- A deep lookup has at most one reference answer. -/
theorem FindsIs.unique {t : Tree} {n : Nat} {x : String} {r r' : Option Nat} :
    t.FindsIs n x r → t.FindsIs n x r' → r = r'
  | .here hS hx, h' => by
    cases h' with
    | here hS' hx' =>
      rw [← hS.unique hS', hx] at hx'
      exact hx'
    | up hS' hx' _ _ | top hS' hx' _ =>
      rw [← hS.unique hS', hx] at hx'
      cases hx'
  | .up hS hx hp hf, h' => by
    cases h' with
    | here hS' hx' =>
      rw [← hS.unique hS', hx] at hx'
      cases hx'
    | up _ _ hp' hf' =>
      rw [hp] at hp'
      cases hp'
      exact hf.unique hf'
    | top _ _ hp' =>
      rw [hp] at hp'
      cases hp'
  | .top hS hx hp, h' => by
    cases h' with
    | here hS' hx' =>
      rw [← hS.unique hS', hx] at hx'
      cases hx'
    | up _ _ hp' _ =>
      rw [hp] at hp'
      cases hp'
    | top _ _ _ => rfl

end

/-- A declaration a scope owns stands one level below its owner. -/
lemma depth_of_firstDecl {t : Tree} (hcons : t.Consistent) {n d : Nat} {es : List Nat}
    {x : String} (hk : (t.kindAt n).scopeEntries? = some es) (h : t.firstDecl es x = some d) :
    t.depth d = t.depth n + 1 :=
  depth_of_parentOf
    (hcons n d (NodeKind.mem_children_of_scopeEntries hk (declName_of_firstDecl h).1))

lemma parentOf_of_superSite {t : Tree} {c p : Nat} {e : Ident}
    (h : t.superSite c = some (p, e)) : t.parentOf c = some p := by
  unfold superSite at h
  split at h
  · next cd p' _ hp =>
    obtain ⟨_, _, he⟩ := Option.map_eq_some_iff.1 h
    cases he
    exact hp
  · cases h

/-- The superclass site of a class with a parent and an `extends` name. -/
lemma superSite_eq {t : Tree} {c p : Nat} {cd : ClassDecl} {e : Ident}
    (hp : t.parentOf c = some p) (hc : (t.kindAt c).cls? = some cd)
    (he : cd.superName = some e) : t.superSite c = some (p, e) := by
  unfold superSite
  rw [hc, hp]
  simp [he]

/-- A superclass is a class. -/
lemma SuperIs.isClass {t : Tree} {c s : Nat} (h : t.SuperIs c (some s)) :
    ((t.kindAt s).cls?).isSome := by
  generalize hr : some s = r at h
  cases h with
  | unnamed => cases hr
  | named _ _ => exact (Option.filter_eq_some_iff.1 hr.symm).2

mutual

/-- What a scope binds stands at most one level below its owner: its own declarations one level
below, what it inherits no lower than that. -/
theorem ScopeIs.depth_le {t : Tree} (hcons : t.Consistent) {n : Nat} {S : String → Option Nat} :
    t.ScopeIs n S → ∀ x d, S x = some d → t.depth d ≤ t.depth n + 1
  | .unowned _, _, _, h => by cases h
  | .plain hk _, _, _, h => Nat.le_of_eq (depth_of_firstDecl hcons hk h)
  | .base hk _ _, _, _, h => Nat.le_of_eq (depth_of_firstDecl hcons hk h)
  | @ScopeIs.derived _ _ _ es _ _ hk _ hs hS, x, d, h => by
    cases hown : t.firstDecl es x with
    | some d' =>
      simp only [hown, Option.some_or, Option.some.injEq] at h
      subst h
      exact Nat.le_of_eq (depth_of_firstDecl hcons hk hown)
    | none =>
      simp only [hown, Option.none_or] at h
      have hd := hS.depth_le hcons x d h
      have hsup := hs.depth_le hcons _ rfl
      omega

/-- A superclass stands no lower than its class. -/
theorem SuperIs.depth_le {t : Tree} (hcons : t.Consistent) {c : Nat} {r : Option Nat} :
    t.SuperIs c r → ∀ s, r = some s → t.depth s ≤ t.depth c
  | .unnamed _, _, h => by cases h
  | .named hsite hf, s, h => by
    have hfound := hf.depth_le hcons s (Option.filter_eq_some_iff.1 h).1
    rw [depth_of_parentOf (parentOf_of_superSite hsite)]
    exact hfound

/-- What a deep lookup finds stands at most one level below where it starts. -/
theorem FindsIs.depth_le {t : Tree} (hcons : t.Consistent) {n : Nat} {x : String}
    {r : Option Nat} : t.FindsIs n x r → ∀ d, r = some d → t.depth d ≤ t.depth n + 1
  | .here hS hx, d, h => by
    cases h
    exact hS.depth_le hcons x _ hx
  | .up _ _ hp hf, d, h => by
    have := hf.depth_le hcons d h
    rw [depth_of_parentOf hp]
    omega
  | .top _ _ _, _, h => by cases h

end

/-- `b` is the superclass of class `a`. -/
def SuperStep (t : Tree) (a b : Nat) : Prop := t.SuperIs a (some b)

/-- No class reaches itself through superclasses. -/
def SuperAcyclic (t : Tree) : Prop := ∀ c, ¬ Relation.TransGen t.SuperStep c c

/-- A tree whose nodes extend nothing has no superclasses, so none in a cycle. -/
lemma superAcyclic_of_superSite_none {t : Tree} (h : ∀ c < t.size, t.superSite c = none) :
    t.SuperAcyclic := by
  -- no node has a superclass
  have hnone : ∀ a b, ¬ t.SuperStep a b := by
    intro a b hab
    obtain ⟨p, e, hsite⟩ : ∃ p e, t.superSite a = some (p, e) := by
      unfold SuperStep at hab
      generalize hr : some b = r at hab
      cases hab with
      | unnamed => cases hr
      | named hsite _ => exact ⟨_, _, hsite⟩
    by_cases hn : a < t.size
    · rw [h a hn] at hsite
      cases hsite
    · -- outside the tree there is no class
      unfold superSite at hsite
      rw [kindAt_of_size_le (Nat.le_of_not_lt hn)] at hsite
      cases hsite
  intro c hc
  cases hc with
  | single hcc => exact hnone c c hcc
  | tail _ hbc => exact hnone _ c hbc

/-- A tree without classes has no superclasses, so none in a cycle. -/
lemma superAcyclic_of_no_class {t : Tree} (h : ∀ n < t.size, (t.kindAt n).cls? = none) :
    t.SuperAcyclic :=
  superAcyclic_of_superSite_none fun c hc => by
    unfold superSite
    rw [h c hc]

mutual

/-- What a reference scope binds a name to is a declaration of that name. -/
theorem ScopeIs.declName {t : Tree} {n : Nat} {S : String → Option Nat} :
    t.ScopeIs n S → ∀ x d, S x = some d → t.declName d = some x
  | .unowned _, _, _, h => by cases h
  | .plain _ _, _, _, h => (declName_of_firstDecl h).2
  | .base _ _ _, _, _, h => (declName_of_firstDecl h).2
  | @ScopeIs.derived _ _ _ es _ _ _ _ _ hS, x, d, h => by
    cases hown : t.firstDecl es x with
    | some d' =>
      simp only [hown, Option.some_or, Option.some.injEq] at h
      subst h
      exact (declName_of_firstDecl hown).2
    | none =>
      simp only [hown, Option.none_or] at h
      exact hS.declName x d h

/-- A superclass is declared under the `extends` name of its class. -/
theorem SuperIs.declName {t : Tree} {c : Nat} {r : Option Nat} :
    t.SuperIs c r → ∀ s, r = some s →
      ∃ p e, t.superSite c = some (p, e) ∧ t.declName s = some e.name
  | .unnamed _, _, h => by cases h
  | .named hsite hf, s, h => ⟨_, _, hsite, hf.declName s (Option.filter_eq_some_iff.1 h).1⟩

/-- What a deep lookup of a name finds is a declaration of that name. -/
theorem FindsIs.declName {t : Tree} {n : Nat} {x : String} {r : Option Nat} :
    t.FindsIs n x r → ∀ d, r = some d → t.declName d = some x
  | .here hS hx, d, h => by
    cases h
    exact hS.declName x _ hx
  | .up _ _ _ hf, d, h => hf.declName d h
  | .top _ _ _, _, h => by cases h

end

/-- No class reaches itself through superclasses when some rank drops from each class to every
class of the tree declared under its `extends` name; on a given tree this is decided node by
node. -/
lemma superAcyclic_of_rank {t : Tree} (rank : Nat → Nat)
    (h : ∀ c < t.size, ∀ s < t.size, ((t.kindAt s).cls?).isSome →
      (t.superSite c).map (·.2.name) = t.declName s → rank s < rank c) :
    t.SuperAcyclic := by
  -- a superclass is a class of the tree declared under the `extends` name, so a step lowers the
  -- rank
  have hstep : ∀ a b, t.SuperStep a b → rank b < rank a := by
    intro a b hab
    obtain ⟨p, e, hsite, hname⟩ := SuperIs.declName hab b rfl
    have hb : b < t.size := by
      obtain ⟨d, hd, -⟩ := Option.map_eq_some_iff.1 hname
      exact lt_size_of_decl? hd
    have ha : a < t.size := by
      refine Nat.lt_of_not_le fun ha => ?_
      unfold superSite at hsite
      rw [kindAt_of_size_le ha] at hsite
      cases hsite
    exact h a ha b hb (SuperIs.isClass hab) (by rw [hsite, hname]; rfl)
  -- along superclasses the rank only drops, so it never comes back
  have hlt : ∀ a b, Relation.TransGen t.SuperStep a b → rank b < rank a := by
    intro a b hab
    induction hab with
    | single h => exact hstep _ _ h
    | tail _ h ih => exact Nat.lt_trans (hstep _ _ h) ih
  intro c hc
  exact Nat.lt_irrefl _ (hlt c c hc)

/-- Three classes, each extending the one before: `A` (1) declares the field `x` (0); `B` (3)
extends `A` and declares `y` (2); `C` (5) extends `B` and declares `x` again (4), hiding the `x`
it inherits. They are the declarations of the program 6. -/
def inheritedFields : Tree where
  nodes := #[⟨{}, some 1, .decl (.var ⟨⟨"x", {}⟩, .int⟩)⟩,
    ⟨{}, some 6, .decl (.cls ⟨⟨"A", {}⟩, none, [], [0]⟩)⟩,
    ⟨{}, some 3, .decl (.var ⟨⟨"y", {}⟩, .int⟩)⟩,
    ⟨{}, some 6, .decl (.cls ⟨⟨"B", {}⟩, some ⟨"A", {}⟩, [], [2]⟩)⟩,
    ⟨{}, some 5, .decl (.var ⟨⟨"x", {}⟩, .bool⟩)⟩,
    ⟨{}, some 6, .decl (.cls ⟨⟨"C", {}⟩, some ⟨"B", {}⟩, [], [4]⟩)⟩,
    ⟨{}, none, .program [1, 3, 5]⟩]
  children_lt := by decide
  parent_gt := by decide

/-- Each class there extends one built before it. -/
example : inheritedFields.SuperAcyclic := superAcyclic_of_rank id (by decide)

/-- While `k` is being prepared, `n` may be prepared too: `n` stands strictly higher than `k`, or
no lower and is reached from `k` through superclasses. -/
def Above (t : Tree) (k n : Nat) : Prop :=
  t.depth n < t.depth k ∨ (t.depth n ≤ t.depth k ∧ Relation.TransGen t.SuperStep k n)

namespace Above

variable {t : Tree} {k n s : Nat}

lemma depth_le (h : t.Above k n) : t.depth n ≤ t.depth k := by
  rcases h with h | ⟨h, _⟩ <;> omega

/-- Under acyclic superclasses, nothing is above itself. -/
lemma irrefl (hacyc : t.SuperAcyclic) (h : t.Above n n) : False := by
  rcases h with h | ⟨_, h⟩
  · exact Nat.lt_irrefl _ h
  · exact hacyc n h

/-- The superclass of a class, no lower than it, is above nothing the class is not. -/
lemma super (h : t.Above k n) (hs : t.SuperStep n s) (hd : t.depth s ≤ t.depth n) :
    t.Above k s := by
  rcases h with h | ⟨h, hkn⟩
  · exact .inl (by omega)
  · exact .inr ⟨by omega, hkn.tail hs⟩

lemma of_super (hs : t.SuperStep n s) (hd : t.depth s ≤ t.depth n) : t.Above n s :=
  .inr ⟨hd, .single hs⟩

end Above

/-- Every class pending preparation is above `n`. -/
def PendingAbove (t : Tree) (P : List Nat) (n : Nat) : Prop := ∀ k ∈ P, t.Above k n

namespace PendingAbove

variable {t : Tree} {P : List Nat} {n s : Nat}

/-- Under acyclic superclasses, a node every pending class is above is not pending itself. -/
lemma fresh (hacyc : t.SuperAcyclic) (h : t.PendingAbove P n) : n ∉ P :=
  fun hn => Above.irrefl hacyc (h n hn)

lemma of_lower (h : ∀ k ∈ P, t.depth n < t.depth k) : t.PendingAbove P n :=
  fun k hk => .inl (h k hk)

/-- With `n` pending too, every pending class stands no higher than `n`. -/
lemma low (h : t.PendingAbove P n) : ∀ k ∈ n :: P, t.depth n ≤ t.depth k := by
  intro k hk
  rcases List.mem_cons.1 hk with rfl | hk
  · exact Nat.le_refl _
  · exact (h k hk).depth_le

/-- The superclass of `n`, no lower than `n`, may be prepared while `n` is. -/
lemma super (h : t.PendingAbove P n) (hs : t.SuperStep n s) (hd : t.depth s ≤ t.depth n) :
    t.PendingAbove (n :: P) s := by
  intro k hk
  rcases List.mem_cons.1 hk with rfl | hk
  · exact Above.of_super hs hd
  · exact (h k hk).super hs hd

end PendingAbove

/-- Below every pending class, so is the parent: it stands strictly higher. -/
lemma lower_of_parentOf {t : Tree} {P : List Nat} {n p : Nat} (hp : t.parentOf n = some p)
    (h : ∀ k ∈ P, t.depth n ≤ t.depth k) : ∀ k ∈ P, t.depth p < t.depth k := by
  intro k hk
  have hn := h k hk
  rw [depth_of_parentOf hp] at hn
  omega

end Tree

/-- A class owns a scope. -/
lemma NodeKind.scopeEntries?_ne_none_of_cls? {k : NodeKind} (h : k.cls?.isSome) :
    k.scopeEntries? ≠ none := by
  cases k with
  | decl d =>
    cases d with
    | cls c => simp [NodeKind.scopeEntries?]
    | _ => simp [NodeKind.cls?] at h
  | _ => simp [NodeKind.cls?] at h

/-- Every prepared scope is the reference scope of its owner. -/
def Memo.ScopesSound (t : Tree) (m : Memo) : Prop :=
  ∀ k s, m.scopes[k]? = some s → t.ScopeIs k s.lookup

namespace Memo.ScopesSound

variable {t : Tree} {m : Memo}

lemma fresh (limit : Option Nat) : (Memo.fresh limit).ScopesSound t := by
  intro k s h
  simp [Memo.fresh] at h

lemma insert (h : m.ScopesSound t) {n : Nat} {sc : Scope} (hn : t.ScopeIs n sc.lookup) :
    ({ m with scopes := m.scopes.insert n sc } : Memo).ScopesSound t := by
  intro k s hk
  rw [Std.TreeMap.getElem?_insert] at hk
  split at hk
  · next heq =>
    cases hk
    rw [← Std.compare_eq_iff_eq.1 heq]
    exact hn
  · exact h k s hk

/-- A prepared scope reads as the reference scope of its node. -/
lemma read (h : m.ScopesSound t) {n : Nat} (hp : m.Prepared t n) (x : String) :
    ∃ S, t.ScopeIs n S ∧ S x = (m.scopes[n]?).bind (·.lookup x) := by
  cases hs : m.scopes[n]? with
  | some s => exact ⟨s.lookup, h n s hs, rfl⟩
  | none =>
    have hk : (t.kindAt n).scopeEntries? = none := by
      rcases hp with hc | hk
      · rw [Std.TreeMap.contains_eq_isSome_getElem?, hs] at hc
        cases hc
      · exact hk
    exact ⟨_, .unowned hk, rfl⟩

/-- Only the scopes of a memo matter. -/
lemma of_scopes_eq (h : m.ScopesSound t) {m' : Memo} (he : m'.scopes = m.scopes) :
    m'.ScopesSound t := by
  intro k s hk
  rw [he] at hk
  exact h k s hk

end Memo.ScopesSound

/-- From `m` to `m'` reference scopes are kept: on a consistent tree with acyclic superclasses, if
every scope prepared in `m` is a reference scope, so is every scope prepared in `m'`. -/
def Memo.StaysSound (t : Tree) (m m' : Memo) : Prop :=
  t.Consistent → t.SuperAcyclic → m.ScopesSound t → m'.ScopesSound t

namespace Memo.StaysSound

variable {t : Tree} {m m₁ m₂ : Memo}

lemma refl (t : Tree) (m : Memo) : m.StaysSound t m := fun _ _ h => h

lemma trans (h₁ : m.StaysSound t m₁) (h₂ : m₁.StaysSound t m₂) : m.StaysSound t m₂ :=
  fun hcons hacyc h => h₂ hcons hacyc (h₁ hcons hacyc h)

/-- A step that leaves the scopes alone keeps them. -/
lemma of_scopes_eq (h : m₁.scopes = m.scopes) : m.StaysSound t m₁ :=
  fun _ _ hm => hm.of_scopes_eq h

end Memo.StaysSound

end DecafCheck
