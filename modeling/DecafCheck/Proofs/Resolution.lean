import DecafCheck.Proofs.Reference
import DecafCheck.Proofs.ScopeMerge
/-!
# Preparation builds the reference scopes

On a consistent tree with acyclic superclasses, the preparation block, run from a memo whose
prepared scopes are reference scopes, prepares reference scopes, finds the reference superclass and,
looking deep, finds what the reference lookup finds (`resolves_scopeBlock`, by the mutual
induction the block is defined by). Pending classes are never asked for: while `k` is pending,
everything prepared is above `k` (`Tree.PendingAbove`), and nothing is above itself. The reports
are the conflicts among the entries of the scopes prepared, each scope's own conflicts before what
preparing its superclass reports: inheriting never reports, and no cycle is found.

So every run of `prepareScope` keeps reference scopes (`staysSound_of_runs_prepareScope`), which
the lookups built on it inherit, and from a memo with reference scopes preparing builds the
reference scope and a deep lookup finds the reference answer (`scopes_follow_reference_of_sound`).
-/

namespace DecafCheck

/-- Two runs of one computation from one memo end with the same scopes. -/
lemma Memo.ScopesSound.of_runs {α : Type} {t : Tree} {c : AnalysisM α} {m m₁ m₂ : Memo} {a b : α}
    {ds es : List Diagnostic} (h₁ : Analysis.Runs c m a m₁ ds) (h₂ : Analysis.Runs c m b m₂ es)
    (hs : m₂.ScopesSound t) : m₁.ScopesSound t := by
  obtain ⟨-, -, he⟩ := h₁.unique h₂
  have hscopes : m₁.scopes = m₂.scopes := by
    simpa using congrArg Memo.scopes (he {})
  exact hs.of_scopes_eq hscopes

namespace Analysis

/-- A run of the preparation block with the classes `P` pending: the prepared scopes stay the
reference scopes, and every report is a conflict among the entries of a scope that is not
pending. -/
structure ResolvedRun (t : Tree) (P : List Nat) (m' : Memo) (ds : List Diagnostic) : Prop where
  /-- The prepared scopes are the reference scopes. -/
  sound : m'.ScopesSound t
  /-- Every report is a conflict among a scope's own entries. -/
  reports : ∀ d ∈ ds, ∃ k es, k ∉ P ∧ (t.kindAt k).scopeEntries? = some es ∧
    d ∈ t.ownConflicts es

namespace ResolvedRun

variable {t : Tree} {P : List Nat} {m₁ m₂ : Memo} {ds es : List Diagnostic}

lemma nil (h : m₁.ScopesSound t) : ResolvedRun t P m₁ [] := ⟨h, by simp⟩

lemma append (h₁ : ResolvedRun t P m₁ ds) (h₂ : ResolvedRun t P m₂ es) :
    ResolvedRun t P m₂ (ds ++ es) :=
  ⟨h₂.sound, fun d hd => (List.mem_append.1 hd).elim (h₁.reports d) (h₂.reports d)⟩

/-- What holds with one more node pending holds without it. -/
lemma of_cons {n : Nat} (h : ResolvedRun t (n :: P) m₁ ds) : ResolvedRun t P m₁ ds := by
  refine ⟨h.sound, fun d hd => ?_⟩
  obtain ⟨k, es, hk, hes, hd⟩ := h.reports d hd
  exact ⟨k, es, fun hP => hk (List.mem_cons_of_mem n hP), hes, hd⟩

end ResolvedRun

/-- Preparing `n` with the classes `P` pending, from reference scopes and with every pending class
above `n`, keeps the reference scopes, reports only conflicts of scopes not pending, and leaves
`n` prepared. -/
def PrepResolves (t : Tree) (P : List Nat) (n : Nat) : Prop :=
  Spec (prepareWithin t P n) fun m _ m' ds => m.ScopesSound t → t.PendingAbove P n →
    ResolvedRun t P m' ds ∧ m'.Prepared t n

/-- Finding the superclass of `c`, with no pending class higher than `c`, finds the reference
superclass. -/
def SuperResolves (t : Tree) (P : List Nat) (c : Nat) : Prop :=
  Spec (superclassWithin t P c) fun m r m' ds => m.ScopesSound t →
    (∀ k ∈ P, t.depth c ≤ t.depth k) → ResolvedRun t P m' ds ∧ t.SuperIs c r

/-- A lookup from `n`, with every pending class lower than `n`, finds, when deep, what the
reference lookup finds. -/
def FindResolves (t : Tree) (P : List Nat) (n : Nat) (x : String) (deep : Bool) : Prop :=
  Spec (findWithin t P n x deep) fun m r m' ds => m.ScopesSound t →
    (∀ k ∈ P, t.depth n < t.depth k) →
      ResolvedRun t P m' ds ∧ (deep = true → t.FindsIs n x r)

/-- Without a superclass site nothing runs, and there is no superclass. -/
lemma superResolves_of_superSite_none {t : Tree} {P : List Nat} {c : Nat}
    (hsite : t.superSite c = none) : SuperResolves t P c :=
  fun m =>
    ⟨_, m, [], runs_superclassWithin_none hsite, fun hm _ => ⟨.nil hm, .unnamed hsite⟩⟩

section Resolution

variable {t : Tree} (hcons : t.Consistent)
include hcons

/-- What a class inherits: nothing without a superclass, else the superclass's scope, which is
prepared by then since the superclass is not pending. -/
lemma resolves_inheritWithin {P : List Nat} {n : Nat} {es : List Nat} {own : Scope}
    (hk : (t.kindAt n).scopeEntries? = some es) (hown : ∀ x, own.lookup x = t.firstDecl es x)
    (ihSuper : SuperResolves t (n :: P) n) (ihPrep : ∀ sup, PrepResolves t (n :: P) sup) :
    Spec (inheritWithin t P n own) fun m sc m' ds => m.ScopesSound t → t.PendingAbove P n →
      ResolvedRun t (n :: P) m' ds ∧ t.ScopeIs n sc.lookup := by
  intro m
  have hlook : own.lookup = t.firstDecl es := funext hown
  cases hc : (t.kindAt n).cls? with
  | none =>
    refine ⟨own, m, [], runs_inheritWithin_of_cls_none hc, fun hm _ => ⟨.nil hm, ?_⟩⟩
    rw [hlook]
    exact .plain hk hc
  | some cd =>
    obtain ⟨r, m₁, ds, hr, hq⟩ := ihSuper m
    cases r with
    | none =>
      refine ⟨own, m₁, ds, runs_inheritWithin_no_super hc hr, fun hm hP => ?_⟩
      obtain ⟨hres, hsup⟩ := hq hm hP.low
      rw [hlook]
      exact ⟨hres, .base hk hc hsup⟩
    | some sup =>
      obtain ⟨_, m₂, es₂, hr₂, hq₂⟩ := ihPrep sup m₁
      cases hs : m₂.scopes[sup]? with
      | some s =>
        refine ⟨_, m₂, ds ++ es₂, runs_inheritWithin_merge hc hr hr₂ hs, fun hm hP => ?_⟩
        obtain ⟨hres₁, hsup⟩ := hq hm hP.low
        obtain ⟨hres₂, -⟩ := hq₂ hres₁.sound (hP.super hsup (hsup.depth_le hcons sup rfl))
        have hmerge : (own.merge s).1.lookup = fun x => (t.firstDecl es x).or (s.lookup x) :=
          funext fun x => by rw [Scope.lookup_merge, hown]
        rw [hmerge]
        exact ⟨hres₁.append hres₂, .derived hk hc hsup (hres₂.sound sup s hs)⟩
      | none =>
        refine ⟨_, m₂, _, runs_inheritWithin_cycle hc hr hr₂ hs, fun hm hP => ?_⟩
        -- the superclass is not pending, so its preparation left its scope
        obtain ⟨hres₁, hsup⟩ := hq hm hP.low
        obtain ⟨-, hprep⟩ := hq₂ hres₁.sound (hP.super hsup (hsup.depth_le hcons sup rfl))
        exfalso
        rcases hprep with hcont | hnone
        · rw [Std.TreeMap.contains_eq_isSome_getElem?, hs] at hcont
          cases hcont
        · exact NodeKind.scopeEntries?_ne_none_of_cls? hsup.isClass hnone

/-- Preparing a scope not prepared yet: the conflicts among its own entries come first, then what
inheriting reports, and the scope stored is the reference scope. -/
lemma resolves_build {P : List Nat} {n : Nat} {es : List Nat} {m : Memo}
    (hs : m.scopes.contains n = false) (hk : (t.kindAt n).scopeEntries? = some es) (hp : n ∉ P)
    (ihSuper : SuperResolves t (n :: P) n) (ihPrep : ∀ sup, PrepResolves t (n :: P) sup) :
    ∃ m' rest, Runs (prepareWithin t P n) m () m' (t.ownConflicts es ++ rest) ∧
      (m.ScopesSound t → t.PendingAbove P n →
        ResolvedRun t (n :: P) m' rest ∧
          ∃ s, m'.scopes[n]? = some s ∧ t.ScopeIs n s.lookup) := by
  obtain ⟨own, hown, hlook⟩ := runs_declareEntries t es m
  obtain ⟨sc, m₁, ds, hinh, hq⟩ := resolves_inheritWithin hcons hk hlook ihSuper ihPrep m
  refine ⟨_, ds, runs_prepareWithin_build hs hk hp hown hinh, fun hm hP => ?_⟩
  obtain ⟨hres, hscope⟩ := hq hm hP
  exact ⟨⟨hres.sound.insert hscope, hres.reports⟩, sc, by simp, hscope⟩

variable (hacyc : t.SuperAcyclic)
include hacyc

/-- Preparation with pending classes only above what it prepares builds the reference scopes,
and reports only conflicts among the entries of scopes that are not pending. -/
theorem resolves_scopeBlock :
    (∀ P n, PrepResolves t P n) ∧ (∀ P c, SuperResolves t P c) ∧
      (∀ P n x deep, FindResolves t P n x deep) := by
  refine prepareWithin.mutual_induct t (PrepResolves t) (SuperResolves t) (FindResolves t)
    ?_ ?_ ?_ ?_ ?_
  -- preparing `n`: its own entries, then what the class inherits
  · intro P n ihSuper ihPrep m
    cases hs : m.scopes.contains n with
    | true =>
      exact ⟨(), m, [], runs_prepareWithin_skip (.inl hs), fun hm _ => ⟨.nil hm, .inl hs⟩⟩
    | false =>
    cases hk : (t.kindAt n).scopeEntries? with
    | none =>
      exact ⟨(), m, [], runs_prepareWithin_skip (.inr (.inl hk)),
        fun hm _ => ⟨.nil hm, .inr hk⟩⟩
    | some es =>
    by_cases hp : n ∈ P
    · exact ⟨(), m, [], runs_prepareWithin_skip (.inr (.inr hp)),
        fun _ hP => (hP.fresh hacyc hp).elim⟩
    obtain ⟨m', rest, hr, hq⟩ :=
      resolves_build hcons hs hk hp (ihSuper es hk hp) (ihPrep es hk hp)
    refine ⟨(), m', _, hr, fun hm hP => ?_⟩
    obtain ⟨hres, s, hsn, -⟩ := hq hm hP
    have hprep : m'.scopes.contains n := by
      rw [Std.TreeMap.contains_eq_isSome_getElem?, hsn]
      rfl
    refine ⟨⟨hres.sound, fun d hd => ?_⟩, .inl hprep⟩
    -- its own conflicts first, then those of the scopes prepared for the superclass
    rcases List.mem_append.1 hd with hd | hd
    · exact ⟨n, es, hp, hk, hd⟩
    · exact hres.of_cons.reports d hd
  -- the superclass of a class with an `extends` name
  · intro P c cd p hp hc e he ih m
    have hsite := Tree.superSite_eq hp hc he
    obtain ⟨r, m₁, ds, hr, hq⟩ := ih m
    refine ⟨_, m₁, ds, runs_superclassWithin hsite hr, fun hm hP => ?_⟩
    obtain ⟨hres, hf⟩ := hq hm (Tree.lower_of_parentOf hp hP)
    exact ⟨hres, .named hsite (hf rfl)⟩
  -- a class without an `extends` name
  · intro P c cd p hp hc he
    refine superResolves_of_superSite_none ?_
    unfold Tree.superSite
    rw [hc, hp]
    simp [he]
  -- no class, or no parent
  · intro P c hno
    refine superResolves_of_superSite_none ?_
    unfold Tree.superSite
    split
    · next cd p hc hp => exact (hno cd p hc hp).elim
    · rfl
  -- a lookup: in the scope of `n`, or on from its parent
  · intro P n x deep ihPrep ihUp m
    obtain ⟨_, m₁, ds, hr₁, hq₁⟩ := ihPrep m
    -- `n` is prepared, and its scope reads as its reference scope
    have hread : m.ScopesSound t → (∀ k ∈ P, t.depth n < t.depth k) →
        ResolvedRun t P m₁ ds ∧
          ∃ S, t.ScopeIs n S ∧ S x = (m₁.scopes[n]?).bind (·.lookup x) := by
      intro hm hP
      obtain ⟨hres, hprep⟩ := hq₁ hm (.of_lower hP)
      exact ⟨hres, hres.sound.read hprep x⟩
    cases hd : (m₁.scopes[n]?).bind (·.lookup x) with
    | some d =>
      refine ⟨_, m₁, ds, runs_findWithin_found hr₁ hd, fun hm hP => ?_⟩
      obtain ⟨hres, S, hS, hSx⟩ := hread hm hP
      exact ⟨hres, fun _ => .here hS (hSx.trans hd)⟩
    | none =>
      cases deep with
      | false =>
        exact ⟨_, m₁, ds, runs_findWithin_stop hr₁ hd (.inl rfl),
          fun hm hP => ⟨(hread hm hP).1, fun h => absurd h Bool.false_ne_true⟩⟩
      | true =>
      cases hp : t.parentOf n with
      | none =>
        refine ⟨_, m₁, ds, runs_findWithin_stop hr₁ hd (.inr hp), fun hm hP => ?_⟩
        obtain ⟨hres, S, hS, hSx⟩ := hread hm hP
        exact ⟨hres, fun _ => .top hS (hSx.trans hd) hp⟩
      | some p =>
        obtain ⟨r, m₂, es, hr₂, hq₂⟩ := ihUp p hp m₁
        refine ⟨r, m₂, ds ++ es, runs_findWithin_up hr₁ hd hp hr₂, fun hm hP => ?_⟩
        obtain ⟨hres₁, S, hS, hSx⟩ := hread hm hP
        obtain ⟨hres₂, hf⟩ := hq₂ hres₁.sound
          (Tree.lower_of_parentOf hp fun k hk => Nat.le_of_lt (hP k hk))
        exact ⟨hres₁.append hres₂, fun _ => .up hS (hSx.trans hd) hp (hf rfl)⟩

/-- From a memo whose prepared scopes are the reference scopes, as a fresh memo's are: preparing
the scope of `n` leaves there the reference scope of `n` and keeps every prepared scope the
reference one; when the scope was not prepared yet it reports first the conflicts among `n`'s own
entries, in order, and after them only conflicts among the entries of other scopes, so inherited
names never conflict. A deep lookup finds what the reference lookup finds. -/
theorem scopes_follow_reference_of_sound {m : Memo} (hm : m.ScopesSound t) :
    (∀ n, ∃ m' ds, Runs (prepareScope t n) m () m' ds ∧ m'.ScopesSound t ∧
      ∀ es, (t.kindAt n).scopeEntries? = some es →
        (∃ s, m'.scopes[n]? = some s ∧ t.ScopeIs n s.lookup) ∧
        ∃ rest, ds = (if m.scopes.contains n then [] else t.ownConflicts es ++ rest) ∧
          ∀ d ∈ rest, ∃ k es', k ≠ n ∧ (t.kindAt k).scopeEntries? = some es' ∧
            d ∈ t.ownConflicts es') ∧
    ∀ n x, ∃ r m' ds, Runs (findDecl t n x true) m r m' ds ∧ m'.ScopesSound t ∧
      t.FindsIs n x r := by
  have hblock := resolves_scopeBlock hcons hacyc
  refine ⟨fun n => ?_, fun n x => ?_⟩
  · cases hs : m.scopes.contains n with
    | true =>
      -- prepared already: nothing runs, and the scope there is a reference scope
      refine ⟨m, [], runs_prepareWithin_skip (.inl hs), hm,
        fun es _ => ⟨?_, [], by simp, by simp⟩⟩
      rw [Std.TreeMap.contains_eq_isSome_getElem?] at hs
      obtain ⟨s, hsn⟩ := Option.isSome_iff_exists.1 hs
      exact ⟨s, hsn, hm n s hsn⟩
    | false =>
    cases hk : (t.kindAt n).scopeEntries? with
    | none =>
      exact ⟨m, [], runs_prepareWithin_skip (.inr (.inl hk)), hm, fun es h => by cases h⟩
    | some es =>
    obtain ⟨m', rest, hr, hq⟩ :=
      resolves_build hcons hs hk List.not_mem_nil (hblock.2.1 [n] n) (hblock.1 [n])
    obtain ⟨hres, hscope⟩ := hq hm fun _ h => absurd h List.not_mem_nil
    refine ⟨m', _, hr, hres.sound, fun es' hes' => ?_⟩
    obtain rfl : es = es' := Option.some.inj hes'
    refine ⟨hscope, rest, by simp, fun d hd => ?_⟩
    -- what preparing the superclass reports comes from scopes other than `n`, pending then
    obtain ⟨k, es'', hkn, hk'', hd⟩ := hres.reports d hd
    exact ⟨k, es'', fun h => hkn (h ▸ List.mem_singleton_self n), hk'', hd⟩
  · obtain ⟨r, m', ds, hr, hq⟩ := hblock.2.2 [] n x true m
    obtain ⟨hres, hf⟩ := hq hm fun _ h => absurd h List.not_mem_nil
    exact ⟨r, m', ds, hr, hres.sound, hf rfl⟩

end Resolution

variable {t : Tree}

/-- Every run of `prepareScope` keeps reference scopes. -/
theorem staysSound_of_runs_prepareScope {n : Nat} {m m' : Memo} {ds : List Diagnostic}
    (h : Runs (prepareScope t n) m () m' ds) : m.StaysSound t m' := by
  intro hcons hacyc hm
  obtain ⟨_, m'', es, h', hq⟩ := (resolves_scopeBlock hcons hacyc).1 [] n m
  have hres := (hq hm fun _ hk => absurd hk List.not_mem_nil).1
  exact Memo.ScopesSound.of_runs h h' hres.sound

end Analysis

end DecafCheck
