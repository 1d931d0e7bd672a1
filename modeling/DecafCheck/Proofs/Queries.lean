import DecafCheck.Proofs.Resolution
/-!
# Queries that only prepare scopes

Looking a name up, following superclasses and comparing types read the tree and the prepared
scopes and nothing else. The one thing such a query may do to the memory is prepare the scopes it
passes, and the only diagnostics it reports are the conflicts and cycles found doing so
(`Prepares`). Once it has run it is settled: run again from the memory it left, or from any memory
grown from that one, it gives the same answer, changes nothing and reports nothing (`Settled`).
And the scopes it prepares are reference scopes: on a consistent tree with acyclic superclasses it
keeps a memo whose prepared scopes are the reference ones of that kind (`Memo.StaysSound`).

`Lookup t c` says all three of every run of `c`. It is proved for the public scope queries
(`lookup_prepareScope`, `lookup_findDecl`, `lookup_superclassOf`, `lookup_isClassScope`) and,
through `Lookup.bind`, for every query of the class hierarchy built on them, up to `compatible`.
-/

namespace DecafCheck

namespace Analysis

variable {α β : Type} {t : Tree}

/-- Run from any memory grown from `m`, `c` answers `a`, changes nothing and reports nothing. -/
def Settled (t : Tree) (c : AnalysisM α) (a : α) (m : Memo) : Prop :=
  ∀ m₂, m.Grown t m₂ → Runs c m₂ a m₂ []

/-- A run of a query from `m`: it only prepares scopes, and where it ends it is settled. -/
structure Answers (t : Tree) (c : AnalysisM α) (m : Memo) (a : α) (m' : Memo)
    (ds : List Diagnostic) : Prop where
  /-- The run only prepares scopes. -/
  prepares : Prepares t m m' ds
  /-- Run again, it changes nothing. -/
  settled : Settled t c a m'
  /-- The scopes it prepares are reference scopes. -/
  sound : m.StaysSound t m'

/-- Every run of `c` only prepares scopes, and leaves `c` settled. -/
def Lookup (t : Tree) (c : AnalysisM α) : Prop := Spec c (Answers t c)

namespace Lookup

variable {c : AnalysisM α} {f : α → AnalysisM β}

lemma pure (t : Tree) (a : α) : Lookup t (pure a : AnalysisM α) :=
  fun m => ⟨a, m, [], Runs.pure a m, Prepares.refl t m, fun m₂ _ => Runs.pure a m₂,
    Memo.StaysSound.refl t m⟩

lemma bind (hc : Lookup t c) (hf : ∀ a, Lookup t (f a)) : Lookup t (c >>= f) := by
  intro m
  obtain ⟨a, m₁, ds, hr₁, hq₁⟩ := hc m
  obtain ⟨b, m₂, es, hr₂, hq₂⟩ := hf a m₁
  refine ⟨b, m₂, ds ++ es, hr₁.bind hr₂, hq₁.prepares.trans hq₂.prepares,
    fun m₃ h => ?_, hq₁.sound.trans hq₂.sound⟩
  -- a memory grown from the end is grown from the middle, where `c` is settled
  have h₁₃ : m₁.Grown t m₃ := hq₂.prepares.grown.trans h
  simpa using (hq₁.settled m₃ h₁₃).bind (hq₂.settled m₃ h)

lemma map (g : α → β) (hc : Lookup t c) : Lookup t (g <$> c) := by
  rw [map_eq_pure_bind]
  exact hc.bind fun a => Lookup.pure t (g a)

end Lookup

variable (t)

/-- Preparing a scope settles it. -/
theorem lookup_prepareScope (n : Nat) : Lookup t (prepareScope t n) := by
  intro m
  obtain ⟨_, m', ds, hr, hq, hp⟩ := (prepares_scopeBlock t).1 [] n m
  refine ⟨(), m', ds, hr, hq, fun m₂ h => ?_, staysSound_of_runs_prepareScope hr⟩
  have hp₂ : m₂.Prepared t n := h.prepared (hp List.not_mem_nil)
  exact runs_prepareWithin_skip (hp₂.imp id .inl)

/-- A lookup prepares the scopes it passes and finds, run again, what it found. -/
theorem lookup_findDecl (x : String) (deep : Bool) (n : Nat) : Lookup t (findDecl t n x deep) := by
  intro m
  obtain ⟨_, m₁, ds, h₁, hq₁, hp₁⟩ := (prepares_scopeBlock t).1 [] n m
  have hset : m₁.Prepared t n := hp₁ List.not_mem_nil
  have hs₁ : m.StaysSound t m₁ := staysSound_of_runs_prepareScope h₁
  -- past `m₁` the scope of `n` is settled: preparing it again does nothing
  have hskip : ∀ m₂, m₁.Grown t m₂ → Runs (prepareWithin t [] n) m₂ () m₂ [] :=
    fun m₂ h => runs_prepareWithin_skip ((h.prepared hset).imp id .inl)
  cases hd : (m₁.scopes[n]?).bind (·.lookup x) with
  | some d =>
    refine ⟨_, m₁, ds, runs_findWithin_found h₁ hd, hq₁, fun m₂ h => ?_, hs₁⟩
    have hd₂ : (m₂.scopes[n]?).bind (·.lookup x) = some d := by rw [h.scope_eq hset, hd]
    exact runs_findWithin_found (hskip m₂ h) hd₂
  | none =>
    have hstop : ∀ m₂, m₁.Grown t m₂ → (m₂.scopes[n]?).bind (·.lookup x) = none :=
      fun m₂ h => by rw [h.scope_eq hset, hd]
    cases deep with
    | false =>
      refine ⟨_, m₁, ds, runs_findWithin_stop h₁ hd (.inl rfl), hq₁,
        fun m₂ h => ?_, hs₁⟩
      exact runs_findWithin_stop (hskip m₂ h) (hstop m₂ h) (.inl rfl)
    | true =>
      cases hp : t.parentOf n with
      | none =>
        refine ⟨_, m₁, ds, runs_findWithin_stop h₁ hd (.inr hp), hq₁,
          fun m₂ h => ?_, hs₁⟩
        exact runs_findWithin_stop (hskip m₂ h) (hstop m₂ h) (.inr hp)
      | some p =>
        have := (Tree.parentOf_spec hp).1
        obtain ⟨r, m₂, es, h₂, hq₂⟩ := lookup_findDecl x true p m₁
        refine ⟨r, m₂, ds ++ es, runs_findWithin_up h₁ hd hp h₂, hq₁.trans hq₂.prepares,
          fun m₃ h => ?_, hs₁.trans hq₂.sound⟩
        have h₁₃ : m₁.Grown t m₃ := hq₂.prepares.grown.trans h
        have hr := runs_findWithin_up (hskip m₃ h₁₃) (hstop m₃ h₁₃) hp (hq₂.settled m₃ h)
        rw [List.append_nil] at hr
        exact hr
termination_by t.size - n
decreasing_by have := (Tree.parentOf_spec hp).2; omega

/-- The superclass is a lookup from the class's parent. -/
theorem lookup_superclassOf (c : Nat) : Lookup t (superclassOf t c) := by
  cases h : t.superSite c with
  | none =>
    intro m
    exact ⟨none, m, [], runs_superclassWithin_none h, Prepares.refl t m,
      fun m₂ _ => runs_superclassWithin_none h, Memo.StaysSound.refl t m⟩
  | some site =>
    obtain ⟨p, e⟩ := site
    intro m
    obtain ⟨r, m', ds, hr, hq⟩ := lookup_findDecl t e.name true p m
    exact ⟨_, m', ds, runs_superclassWithin h hr, hq.prepares,
      fun m₂ h₂ => runs_superclassWithin h (hq.settled m₂ h₂), hq.sound⟩

/-- Whether a node stands in a class is a lookup up the chain of parents. -/
theorem lookup_isClassScope (n : Nat) (deep : Bool) : Lookup t (isClassScope t n deep) := by
  intro m
  obtain ⟨_, m₁, ds, h₁, hq₁⟩ := lookup_prepareScope t n m
  have hskip : ∀ m₂, m₁.Grown t m₂ → Runs (prepareScope t n) m₂ () m₂ [] := hq₁.settled
  cases hp : t.parentOf n with
  | none =>
    exact ⟨false, m₁, ds, runs_isClassScope_root h₁ hp, hq₁.prepares,
      fun m₂ h => runs_isClassScope_root (hskip m₂ h) hp, hq₁.sound⟩
  | some p =>
    cases hc : (t.kindAt p).cls?.isSome with
    | true =>
      exact ⟨true, m₁, ds, runs_isClassScope_in h₁ hp hc, hq₁.prepares,
        fun m₂ h => runs_isClassScope_in (hskip m₂ h) hp hc, hq₁.sound⟩
    | false =>
      cases deep with
      | false =>
        exact ⟨false, m₁, ds, runs_isClassScope_shallow h₁ hp hc, hq₁.prepares,
          fun m₂ h => runs_isClassScope_shallow (hskip m₂ h) hp hc, hq₁.sound⟩
      | true =>
        have := (Tree.parentOf_spec hp).1
        obtain ⟨b, m₂, es, h₂, hq₂⟩ := lookup_isClassScope p true m₁
        refine ⟨b, m₂, ds ++ es, runs_isClassScope_up h₁ hp hc h₂,
          hq₁.prepares.trans hq₂.prepares, fun m₃ h => ?_, hq₁.sound.trans hq₂.sound⟩
        have h₁₃ : m₁.Grown t m₃ := hq₂.prepares.grown.trans h
        have hr := runs_isClassScope_up (hskip m₃ h₁₃) hp hc (hq₂.settled m₃ h)
        rw [List.append_nil] at hr
        exact hr
termination_by t.size - n
decreasing_by have := (Tree.parentOf_spec hp).2; omega

/-- The chain of superclasses is a lookup. -/
theorem lookup_chainFrom (seen : List Nat) (c : Nat) : Lookup t (chainFrom t seen c) := by
  rw [chainFrom]
  refine (lookup_superclassOf t c).bind fun r => ?_
  cases r with
  | none => exact Lookup.pure t []
  | some next =>
    by_cases hs : next ∈ seen
    · simp only [hs, dite_true]
      exact Lookup.pure t []
    · by_cases hn : next < t.size
      · have := t.unseen_cons_lt hn hs
        simp only [hs, hn, dite_false, dite_true]
        exact (lookup_chainFrom (next :: seen) next).bind fun l => Lookup.pure t (next :: l)
      · simp only [hs, hn, dite_false]
        exact Lookup.pure t []
termination_by t.unseen seen

theorem lookup_classChain (c : Nat) : Lookup t (classChain t c) :=
  (lookup_chainFrom t [c] c).bind fun l => Lookup.pure t (c :: l)

theorem lookup_isSubclassOf (sub sup : Nat) : Lookup t (isSubclassOf t sub sup) :=
  (lookup_classChain t sub).bind fun l => Lookup.pure t (l.contains sup)

theorem lookup_namesFind (p iface : Nat) (ids : List Ident) :
    Lookup t (namesFind t p iface ids) := by
  induction ids with
  | nil => exact Lookup.pure t false
  | cons id rest ih =>
    rw [namesFind]
    refine (lookup_findDecl t id.name true p).bind fun _ => ?_
    split
    · exact Lookup.pure t true
    · exact ih

theorem lookup_anyImplements (iface : Nat) (cs : List Nat) :
    Lookup t (anyImplements t iface cs) := by
  induction cs with
  | nil => exact Lookup.pure t false
  | cons c rest ih =>
    rw [anyImplements]
    split
    · rename_i cd p _ _
      refine (lookup_namesFind t p iface cd.interfaces).bind fun b => ?_
      split
      · exact Lookup.pure t true
      · exact ih
    · exact ih

theorem lookup_implementsIface (c iface : Nat) : Lookup t (implementsIface t c iface) :=
  (lookup_classChain t c).bind fun l => lookup_anyImplements t iface l

theorem lookup_resolveNamed (n : Nat) (id : Ident) : Lookup t (resolveNamed t n id) :=
  (lookup_findDecl t id.name true n).bind fun r =>
    Lookup.pure t (r.filter fun d => (t.kindAt d).isTypeDecl)

theorem lookup_equivalent (n : Nat) (a b : Ty) : Lookup t (equivalent t n a b) := by
  fun_induction equivalent t n a b with
  | case1 x y =>
    refine (lookup_resolveNamed t n x).bind fun rx => (lookup_resolveNamed t n y).bind fun ry => ?_
    split
    · exact Lookup.pure t _
    · exact Lookup.pure t _
  | case2 x y ih => exact ih
  | case3 a b => exact Lookup.pure t _

theorem lookup_compatible (n : Nat) (source target : Ty) :
    Lookup t (compatible t n source target) := by
  unfold compatible
  split
  · exact Lookup.pure t true
  split
  · exact Lookup.pure t _
  refine (lookup_equivalent t n source target).bind fun _ => ?_
  split
  · exact Lookup.pure t true
  -- a class where one of its superclasses, or an interface one of them implements, is expected
  split
  · refine (lookup_resolveNamed t n _).bind fun _ => (lookup_resolveNamed t n _).bind fun _ => ?_
    split
    · split
      · exact Lookup.pure t false
      split
      · exact lookup_isSubclassOf t _ _
      split
      · exact lookup_implementsIface t _ _
      · exact Lookup.pure t false
    · exact Lookup.pure t false
  · exact Lookup.pure t false

theorem lookup_fieldAccessible (cfg : Config) (n c : Nat) :
    Lookup t (fieldAccessible t cfg n c) := by
  unfold fieldAccessible
  split
  · exact Lookup.pure t true
  · exact lookup_isClassScope t n true
  · refine (lookup_isClassScope t n true).bind fun _ => ?_
    split
    · split
      · exact lookup_isSubclassOf t _ _
      · exact Lookup.pure t false
    · exact Lookup.pure t false

theorem lookup_formalsAgree (n : Nat) (mine theirs : List Nat) :
    Lookup t (formalsAgree t n mine theirs) := by
  induction mine generalizing theirs with
  | nil => exact Lookup.pure t true
  | cons x rest ih =>
    cases theirs with
    | nil => exact Lookup.pure t true
    | cons y others =>
      rw [formalsAgree]
      split
      · refine (lookup_equivalent t n _ _).bind fun _ => ?_
        split
        · exact ih others
        · exact Lookup.pure t false
      · exact ih others

end Analysis

end DecafCheck
