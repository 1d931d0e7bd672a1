import DecafCheck.Proofs.ErrorLimit
import DecafCheck.Proofs.Termination
/-!
# Scopes bind names to declarations of those names

Preparing a scope declares each entry under its own name, and a class adds what its superclass's
scope binds under the same names. So every scope ever prepared binds a name only to a declaration
of that name (`Memo.NamesBound`), on every tree: with inheritance cycles too, since the scope a
cycle leaves is the class's own. Preparation and lookup keep this, and what a lookup finds carries
the name it looked up (`Analysis.namesBound_scopeBlock`); every other step leaves the scopes
alone, so every memory a session reaches has it (`Memo.Reached.namesBound`).

Type equivalence resolves both sides of two named types, and falls back on their names when either
finds nothing. A declaration found carries its name, and the second lookup finds what the first did
when the names agree, so resolving only confirms what the names say: from every memory a session
reaches, `equivalent` answers `Ty.equivByName`, which is `Ty.sameAs` (`equivalent_by_name`).
-/

namespace DecafCheck

namespace Scope

/-- Every name the scope binds is bound to a declaration of that name. -/
def NamesBound (t : Tree) (s : Scope) : Prop :=
  ∀ x d, s.lookup x = some d → t.declName d = some x

variable {t : Tree} {s o : Scope}

/-- A scope binding each name to its first declaration among some entries. -/
lemma namesBound_of_firstDecl {es : List Nat} (h : ∀ x, s.lookup x = t.firstDecl es x) :
    s.NamesBound t := fun x _ hd =>
  (Tree.declName_of_firstDecl ((h x).symm.trans hd)).2

lemma NamesBound.merge (hs : s.NamesBound t) (ho : o.NamesBound t) :
    (s.merge o).1.NamesBound t := by
  intro x d hd
  rw [lookup_merge] at hd
  cases hx : s.lookup x with
  | some d' =>
    rw [hx, Option.some_or] at hd
    exact Option.some.inj hd ▸ hs x d' hx
  | none =>
    rw [hx, Option.none_or] at hd
    exact ho x d hd

end Scope

namespace Memo

/-- Every prepared scope binds each name only to a declaration of that name. -/
def NamesBound (t : Tree) (m : Memo) : Prop :=
  ∀ (o : Nat) (s : Scope), m.scopes[o]? = some s → s.NamesBound t

/-- From `m` to `m'` prepared scopes keep binding names to declarations of those names. -/
def KeepsNames (t : Tree) (m m' : Memo) : Prop := m.NamesBound t → m'.NamesBound t

instance (t : Tree) : IsPreorder Memo (KeepsNames t) where
  refl _ h := h
  trans _ _ _ h₁ h₂ h := h₂ (h₁ h)

namespace NamesBound

variable {t : Tree} {m m' : Memo}

/-- Only the scopes of a memo matter. -/
lemma of_scopes_eq (h : m.NamesBound t) (he : m'.scopes = m.scopes) : m'.NamesBound t := by
  intro o s hs
  rw [he] at hs
  exact h o s hs

lemma empty : ({} : Memo).NamesBound t := by
  intro o s hs
  simp at hs

lemma insert (h : m.NamesBound t) {n : Nat} {sc : Scope} (hsc : sc.NamesBound t) :
    ({ m with scopes := m.scopes.insert n sc } : Memo).NamesBound t := by
  intro o s hs
  rw [Std.TreeMap.getElem?_insert] at hs
  split at hs
  · cases hs
    exact hsc
  · exact h o s hs

/-- A declaration read from a prepared scope carries the name it was read under. -/
lemma read (h : m.NamesBound t) {n d : Nat} {x : String}
    (hd : (m.scopes[n]?).bind (·.lookup x) = some d) : t.declName d = some x := by
  cases hs : m.scopes[n]? with
  | none =>
    rw [hs] at hd
    cases hd
  | some s =>
    rw [hs] at hd
    exact h n s hs x d hd

end NamesBound

end Memo

namespace Analysis

variable (t : Tree)

/-- Preparation and lookup keep every prepared scope binding names to declarations of those
names, and a lookup finds a declaration of the name it looks up, or nothing. -/
theorem namesBound_scopeBlock :
    (∀ P n, Keeps (Memo.KeepsNames t) (prepareWithin t P n)) ∧
    (∀ P c, Keeps (Memo.KeepsNames t) (superclassWithin t P c)) ∧
    (∀ P n x deep, Spec (findWithin t P n x deep) fun m r m' _ => m.NamesBound t →
      m'.NamesBound t ∧ ∀ d, r = some d → t.declName d = some x) := by
  refine prepareWithin.mutual_induct t (fun P n => Keeps (Memo.KeepsNames t) (prepareWithin t P n))
    (fun P c => Keeps (Memo.KeepsNames t) (superclassWithin t P c))
    (fun P n x deep => Spec (findWithin t P n x deep) fun m r m' _ => m.NamesBound t →
      m'.NamesBound t ∧ ∀ d, r = some d → t.declName d = some x) ?_ ?_ ?_ ?_ ?_
  -- preparing `n`: its own entries under their names, then what the class inherits
  · intro P n ihSuper ihPrep m
    by_cases hskip : m.scopes.contains n ∨ (t.kindAt n).scopeEntries? = none ∨ n ∈ P
    · exact ⟨(), m, [], runs_prepareWithin_skip hskip, id⟩
    simp only [not_or, Bool.not_eq_true] at hskip
    obtain ⟨hs, hk, hp⟩ := hskip
    obtain ⟨es, hk⟩ := Option.ne_none_iff_exists'.1 hk
    obtain ⟨own, hown, hlook⟩ := runs_declareEntries t es m
    have hownB : own.NamesBound t := Scope.namesBound_of_firstDecl hlook
    -- the scope stored is the own scope, merged with the superclass's scope when it is prepared
    have hinh : ∃ sc m₁ ds, Runs (inheritWithin t P n own) m sc m₁ ds ∧
        (m.NamesBound t → m₁.NamesBound t ∧ sc.NamesBound t) := by
      cases hc : (t.kindAt n).cls? with
      | none => exact ⟨own, m, [], runs_inheritWithin_of_cls_none hc, fun hm => ⟨hm, hownB⟩⟩
      | some cd =>
        obtain ⟨r, m₁, ds₁, hr₁, hq₁⟩ := ihSuper es hk hp m
        cases r with
        | none =>
          exact ⟨own, m₁, ds₁, runs_inheritWithin_no_super hc hr₁, fun hm => ⟨hq₁ hm, hownB⟩⟩
        | some sup =>
          obtain ⟨_, m₂, ds₂, hr₂, hq₂⟩ := ihPrep es hk hp sup m₁
          cases hsc : m₂.scopes[sup]? with
          | some s =>
            refine ⟨_, m₂, _, runs_inheritWithin_merge hc hr₁ hr₂ hsc, fun hm => ?_⟩
            have hm₂ : m₂.NamesBound t := hq₂ (hq₁ hm)
            exact ⟨hm₂, hownB.merge (hm₂ sup s hsc)⟩
          | none =>
            exact ⟨_, m₂, _, runs_inheritWithin_cycle hc hr₁ hr₂ hsc,
              fun hm => ⟨hq₂ (hq₁ hm), hownB⟩⟩
    obtain ⟨sc, m₁, ds, hr, hq⟩ := hinh
    refine ⟨(), _, _, runs_prepareWithin_build hs hk hp hown hr, fun hm => ?_⟩
    obtain ⟨hm₁, hsc⟩ := hq hm
    exact hm₁.insert hsc
  -- the superclass of a class with an `extends` name: a lookup from its parent
  · intro P c cd p hp hc e he ih m
    obtain ⟨r, m₁, ds, hr, hq⟩ := ih m
    exact ⟨_, m₁, ds, runs_superclassWithin (Tree.superSite_eq hp hc he) hr, fun hm => (hq hm).1⟩
  -- a class without an `extends` name
  · intro P c cd p hp hc he m
    have hsite : t.superSite c = none := by simp [Tree.superSite, hc, hp, he]
    exact ⟨none, m, [], runs_superclassWithin_none hsite, id⟩
  -- no class, or no parent
  · intro P c hno m
    have hsite : t.superSite c = none := by
      unfold Tree.superSite
      split
      · rename_i cd p hc hp
        exact (hno cd p hc hp).elim
      · rfl
    exact ⟨none, m, [], runs_superclassWithin_none hsite, id⟩
  -- a lookup: the scope of `n` once prepared, or on from the parent
  · intro P n x deep ihPrep ihUp m
    obtain ⟨_, m₁, ds, h₁, hq₁⟩ := ihPrep m
    have hnone : ∀ d, (none : Option Nat) = some d → t.declName d = some x :=
      fun _ h => by cases h
    cases hd : (m₁.scopes[n]?).bind (·.lookup x) with
    | some d =>
      refine ⟨_, m₁, ds, runs_findWithin_found h₁ hd, fun hm => ⟨hq₁ hm, fun d' hd' => ?_⟩⟩
      cases hd'
      exact (hq₁ hm).read hd
    | none =>
      cases deep with
      | false =>
        exact ⟨_, m₁, ds, runs_findWithin_stop h₁ hd (.inl rfl), fun hm => ⟨hq₁ hm, hnone⟩⟩
      | true =>
        cases hp : t.parentOf n with
        | none =>
          exact ⟨_, m₁, ds, runs_findWithin_stop h₁ hd (.inr hp), fun hm => ⟨hq₁ hm, hnone⟩⟩
        | some p =>
          obtain ⟨r, m₂, es, h₂, hq₂⟩ := ihUp p hp m₁
          exact ⟨r, m₂, ds ++ es, runs_findWithin_up h₁ hd hp h₂, fun hm => hq₂ (hq₁ hm)⟩

/-- Every step keeps prepared scopes binding names to declarations of those names. -/
theorem stepwise_keepsNames : Stepwise t (Keeps (Memo.KeepsNames t)) where
  pure a := Keeps.pure a
  bind hc hf := hc.bind hf
  report span _ _ := Keeps.report span _
  prepare n := (namesBound_scopeBlock t).1 [] n
  prepared n := ((namesBound_scopeBlock t).1 [] n).bind fun _ m =>
    ⟨_, m, [], runs_preparedScope n m, id⟩
  find n x deep := ((namesBound_scopeBlock t).2.2 [] n x deep).mono fun _ _ _ _ h hm => (h hm).1
  super c := (namesBound_scopeBlock t).2.1 [] c

/-- Checking and typing leave the scopes to the lookups, so they keep names bound too. -/
theorem keepsNames_checkBlock (cfg : Config) :
    (∀ n, Keeps (Memo.KeepsNames t) (check t cfg n)) ∧
      (∀ n, Keeps (Memo.KeepsNames t) (getType t cfg n)) :=
  (stepwise_keepsNames t).keeps_checkBlock cfg (fun _ _ hm => hm.of_scopes_eq rfl)
    fun _ _ _ _ _ h hm => (h hm).of_scopes_eq rfl

end Analysis

/-- Every memory a session reaches binds names only to declarations of those names. -/
theorem Memo.Reached.namesBound {t : Tree} {cfg : Config} {m : Memo} (h : m.Reached t cfg) :
    m.NamesBound t := by
  obtain ⟨qs, rfl⟩ := h
  obtain ⟨M, ds, hr, hq⟩ := Query.keeps_session (Analysis.stepwise_keepsNames t)
    (Analysis.keepsNames_checkBlock t cfg).1 (Analysis.keepsNames_checkBlock t cfg).2 qs {}
  rw [Memo.fresh_eq_withLog, hr]
  exact (hq NamesBound.empty).of_scopes_eq rfl


namespace Ty

/-- Equivalence by names is sameness with identifiers compared by name. -/
theorem equivByName_eq_sameAs (a b : Ty) : a.equivByName b = a.sameAs b := by
  induction a generalizing b with
  | array a ih =>
    cases b with
    | array b => exact ih b
    | _ => rfl
  | _ => cases b <;> rfl

end Ty

namespace Analysis

variable {t : Tree}

/-- Resolving a type name is a lookup that keeps names bound, and what it finds carries the name. -/
lemma spec_resolveNamed (n : Nat) (id : Ident) :
    Spec (resolveNamed t n id) fun m r m' ds => Answers t (resolveNamed t n id) m r m' ds ∧
      (m.NamesBound t → m'.NamesBound t ∧ ∀ d, r = some d → t.declName d = some id.name) := by
  refine (lookup_resolveNamed t n id).and ?_ ?_
  · intro m
    obtain ⟨r, m', ds, hr, hq⟩ := (namesBound_scopeBlock t).2.2 [] n id.name true m
    refine ⟨_, m', ds, Runs.bind_eq hr (Runs.pure _ m') (List.append_nil ds), fun hm =>
      ⟨(hq hm).1, fun d hd => (hq hm).2 d (Option.filter_eq_some_iff.1 hd).1⟩⟩
  · intro m a m₁ m₁' ds he hq hm
    have hscopes : m₁.scopes = m₁'.scopes := by simpa using congrArg Memo.scopes (he m₁.log)
    obtain ⟨hm₁, hd⟩ := hq hm
    exact ⟨hm₁.of_scopes_eq hscopes, hd⟩

/-- Where names are bound to their declarations, two named types are equivalent exactly when
their names agree. -/
lemma equivalent_named {m : Memo} (hm : m.NamesBound t) (n : Nat) (x y : Ident) :
    ((equivalent t n (.named x) (.named y)).run m).1 = (x.name == y.name) := by
  obtain ⟨rx, m₁, ds, hx, hax, hqx⟩ := spec_resolveNamed n x m
  obtain ⟨ry, m₂, es, hy, -, hqy⟩ := spec_resolveNamed n y m₁
  obtain ⟨hm₁, hdx⟩ := hqx hm
  obtain ⟨-, hdy⟩ := hqy hm₁
  cases rx with
  | none =>
    have hr : Runs (equivalent t n (.named x) (.named y)) m (x.name == y.name) m₂ (ds ++ (es ++ [])) :=
      hx.bind (hy.bind (Runs.pure _ m₂))
    rw [hr.run_eq]
  | some dx =>
    cases ry with
    | none =>
      have hr : Runs (equivalent t n (.named x) (.named y)) m (x.name == y.name) m₂
          (ds ++ (es ++ [])) :=
        hx.bind (hy.bind (Runs.pure _ m₂))
      rw [hr.run_eq]
    | some dy =>
      have hr : Runs (equivalent t n (.named x) (.named y)) m (dx == dy) m₂ (ds ++ (es ++ [])) :=
        hx.bind (hy.bind (Runs.pure _ m₂))
      rw [hr.run_eq]
      -- the same name finds, from where the first lookup ended, what the first lookup found
      have hiff : dx = dy ↔ x.name = y.name := by
        constructor
        · intro h
          have hx' := hdx dx rfl
          rw [h, hdy dy rfl] at hx'
          exact (Option.some.inj hx').symm
        · intro h
          have hsame : resolveNamed t n y = resolveNamed t n x := by
            unfold resolveNamed
            rw [h]
          rw [hsame] at hy
          exact (Option.some.inj ((hax.settled m₁ (Memo.Grown.refl t m₁)).unique hy).1)
      rw [Bool.eq_iff_iff, beq_iff_eq, beq_iff_eq]
      exact hiff

/-- Where names are bound to their declarations, equivalence is equivalence by names. -/
lemma equivalent_run_eq_equivByName (n : Nat) (a b : Ty) :
    ∀ m : Memo, m.NamesBound t → ((equivalent t n a b).run m).1 = a.equivByName b := by
  fun_induction equivalent t n a b with
  | case1 x y => exact fun m hm => equivalent_named hm n x y
  -- arrays compare their elements, and any other pair answers by names at once
  | case2 x y ih => exact ih
  | case3 a b => exact fun _ _ => rfl

/-- From every memory a session reaches, every prepared scope binds each name only to a
declaration of that name, and type equivalence at any node answers equivalence by names, which is
sameness with identifiers compared by name. -/
theorem equivalent_by_name {cfg : Config} {m : Memo} (hm : m.Reached t cfg) :
    m.NamesBound t ∧ ∀ n a b, ((equivalent t n a b).run m).1 = a.equivByName b ∧
      a.equivByName b = a.sameAs b :=
  ⟨hm.namesBound, fun n a b =>
    ⟨equivalent_run_eq_equivByName n a b m hm.namesBound, Ty.equivByName_eq_sameAs a b⟩⟩

/-- After analysing two classes that extend each other, equivalence still goes by names. -/
theorem mutualExtends_equivalent_by_name :
    (Query.sessionEnd Tree.mutualExtends {} [.analyze 2]).Reached Tree.mutualExtends {} ∧
      (Query.sessionEnd Tree.mutualExtends {} [.analyze 2]).NamesBound Tree.mutualExtends ∧
      ∀ n a b, ((equivalent Tree.mutualExtends n a b).run
          (Query.sessionEnd Tree.mutualExtends {} [.analyze 2])).1 = a.equivByName b ∧
        a.equivByName b = a.sameAs b :=
  ⟨⟨[.analyze 2], rfl⟩, equivalent_by_name ⟨[.analyze 2], rfl⟩⟩

end Analysis

end DecafCheck
