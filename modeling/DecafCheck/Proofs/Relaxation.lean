import Mathlib.Algebra.Order.BigOperators.Group.Finset
import Mathlib.Data.Multiset.OrderedMonoid
import DecafCheck.Proofs.ErrorLimit
import DecafCheck.Proofs.Settling
/-!
# Asking less accepts more

Two settings of the analysis are demands on a program: where a field may be read through an
object, and whether an overriding method must keep the inherited signature. On a consistent tree,
settings that ask no more (`Config.AsksNoMore`) never reject a program that stricter ones accept
(`accepted_of_asksNoMore`): the laxer analysis reports nothing either, finds the same type for
every node, checks the same nodes, and prepares only scopes the stricter analysis prepares, each
the same. Superclass cycles need not be excluded: preparing a class whose chain reaches one
reports it, so an analysis that accepts never prepares such a class.

The laxer analysis may prepare fewer scopes. Deciding whether a field may be read inside any class
walks out to the enclosing class and prepares every scope on the way; reading anywhere walks
nowhere (`nestedRead_scopes_differ`).

The proof is a simulation between the two analyses. A memory `m'` stands laxer beside `m`
(`Memo.Laxer`) when both have found the same types and checked the same nodes, both hold built and
closed scopes, `m'` only scopes that `m` has, and no scope of `m` has a conflict. `Relaxes t ρ c c'`
says that a run of `c` that reports nothing is matched, from every laxer memory, by a run of `c'`
that reports nothing either, with an answer related by `ρ` and ending laxer. Lookups relax to
themselves, and the stricter analysis may also run one alone (`stepwise_relaxes_self`,
`stepwise_skippable`), since both prepare the reference scopes and a scope the laxer run prepares
is among those the stricter one needs. A step of the stricter analysis that reports nothing prepares
only built scopes, which lie on no superclass cycle (`Analysis.Adds.offCycles`), so the same step
of the laxer analysis needs nothing on a cycle either. Reading a field and checking an override
relax to what the laxer settings do; the rest of the checker follows by the induction that defines
it (`relaxes_checkBlock`).
-/

namespace DecafCheck

namespace FieldRule

/-- How much a rule demands before a field is read through an object: nothing, a class around the
reader, or a class around the reader that the field's class is or extends. -/
def strictness : FieldRule → Nat
  | .unrestricted => 0
  | .anyClass => 1
  | .subclassOnly => 2

/-- Two field rules, the second no stricter: the same rule, reading anywhere, or any class where
the first asks for a subclass. -/
lemma cases_of_strictness_le {r r' : FieldRule} (h : r'.strictness ≤ r.strictness) :
    r = r' ∨ r' = .unrestricted ∨ r = .subclassOnly ∧ r' = .anyClass := by
  cases r <;> cases r' <;> simp_all [strictness]

end FieldRule

/-- Settings `cfg'` ask no more than `cfg`: a field rule no stricter, and overrides checked only
where `cfg` checks them. The error limit may differ. -/
structure Config.AsksNoMore (cfg' cfg : Config) : Prop where
  fieldRule : cfg'.fieldRule.strictness ≤ cfg.fieldRule.strictness
  checkOverrides : cfg'.checkOverrides = true → cfg.checkOverrides = true

namespace Memo

/-- Memory `m'` of a laxer analysis beside memory `m` of a stricter one: the same types found and
the same nodes checked, prepared scopes built and closed in both, those of `m'` among those of `m`,
and no conflict in any scope of `m`. -/
structure Laxer (t : Tree) (m m' : Memo) : Prop where
  types_eq : m'.types = m.types
  checked_eq : m'.checked = m.checked
  built : m.ScopesBuilt t
  closed : m.ScopesClosed t
  built' : m'.ScopesBuilt t
  closed' : m'.ScopesClosed t
  subset : m'.scopeSet ⊆ m.scopeSet
  clean : ∀ j ∈ m.scopeSet, t.ownConflictsAt j = []

namespace Laxer

variable {t : Tree} {m m' m₁ m₁' : Memo}

lemma fresh (t : Tree) (limit limit' : Option Nat) :
    (Memo.fresh limit).Laxer t (Memo.fresh limit') where
  types_eq := rfl
  checked_eq := rfl
  built := ScopesBuilt.fresh t limit
  closed := ScopesClosed.fresh t limit
  built' := ScopesBuilt.fresh t limit'
  closed' := ScopesClosed.fresh t limit'
  subset := by simp [Memo.fresh, scopeSet]
  clean := by simp [Memo.fresh, scopeSet]

/-- Only the tables count, not the log. -/
lemma withLog (h : m.Laxer t m') (log : Log) : (m.withLog log).Laxer t m' :=
  { h with }

lemma congr_left (h : m.Laxer t m') (he : ∀ log, m.withLog log = m₁.withLog log) :
    m₁.Laxer t m' := by
  have hm : m₁ = m.withLog m₁.log := by rw [he, withLog_self]
  rw [hm]
  exact h.withLog m₁.log

lemma mark (h : m.Laxer t m') (n : Nat) :
    ({ m with checked := m.checked.insert n } : Memo).Laxer t
      { m' with checked := m'.checked.insert n } :=
  { h with checked_eq := by simp only [h.checked_eq] }

lemma insertType (h : m.Laxer t m') (n : Nat) (ty : Ty) :
    ({ m with types := m.types.insert n ty } : Memo).Laxer t
      { m' with types := m'.types.insert n ty } :=
  { h with types_eq := by simp only [h.types_eq] }

/-- A scope of the laxer memory is the stricter memory's scope at the same node. -/
lemma scope_eq (h : m.Laxer t m') {j : Nat} {s : Scope} (hs : m'.scopes[j]? = some s) :
    m.scopes[j]? = some s := by
  have hj : j ∈ m.scopeSet := h.subset (by simp [Std.TreeMap.contains_eq_isSome_getElem?, hs])
  rw [mem_scopeSet, Std.TreeMap.contains_eq_isSome_getElem?] at hj
  obtain ⟨s₀, hs₀⟩ := Option.isSome_iff_exists.1 hj
  rw [hs₀, (h.built' j s hs).unique (h.built j s₀ hs₀)]

end Laxer

end Memo

namespace Analysis

variable {t : Tree} {F : Nat → Prop} {m m₁ m' m₁' : Memo} {ds : List Diagnostic}

/-- A silent run of the preparation block prepares only scopes without conflicts. -/
lemma Adds.clean (h : Adds t F m m₁ []) (hc : ∀ j ∈ m.scopeSet, t.ownConflictsAt j = []) :
    ∀ j ∈ m₁.scopeSet, t.ownConflictsAt j = [] := by
  intro j hj
  by_cases hjm : j ∈ m.scopeSet
  · exact hc j hjm
  · -- a new scope's conflicts are among the reports, and there are none
    have hsum : ∑ k ∈ m₁.scopeSet \ m.scopeSet, (t.ownConflictsAt k : Multiset Diagnostic) = 0 :=
      h.reports.symm
    exact (Multiset.coe_eq_zero _).1
      (Finset.sum_eq_zero_iff.1 hsum j (Finset.mem_sdiff.2 ⟨hj, hjm⟩))

end Analysis

namespace Memo.Laxer

variable {t : Tree} {F : Nat → Prop} {m m₁ m' m₁' : Memo} {ds : List Diagnostic}

/-- Beside a silent run of the preparation block, the laxer memory stays laxer. -/
lemma adds_left (hl : m.Laxer t m') (h : Analysis.Adds t F m m₁ []) : m₁.Laxer t m' where
  types_eq := hl.types_eq.trans h.types_eq.symm
  checked_eq := hl.checked_eq.trans h.checked_eq.symm
  built := h.built
  closed := h.closed
  built' := hl.built'
  closed' := hl.closed'
  subset := hl.subset.trans h.scopeSet_subset
  clean := h.clean hl.clean

/-- The same step of the preparation block on both sides: the laxer run prepares only scopes
the stricter one has, so it is silent too, and the memories stay laxer. -/
lemma adds (hl : m.Laxer t m') (h : Analysis.Adds t F m m₁ []) (h' : Analysis.Adds t F m' m₁' ds) :
    ds = [] ∧ m₁.Laxer t m₁' := by
  have hclean := h.clean hl.clean
  have hsub : m₁'.scopeSet ⊆ m₁.scopeSet := by
    intro j hj
    rw [Memo.mem_scopeSet, h'.contains_iff] at hj
    rw [Memo.mem_scopeSet, h.contains_iff]
    exact hj.imp_left fun hj' => by simpa using hl.subset (by simpa using hj')
  have hsum : (ds : Multiset Diagnostic) = 0 := by
    rw [h'.reports]
    exact Finset.sum_eq_zero fun j hj => by
      rw [hclean j (hsub (Finset.mem_sdiff.1 hj).1)]
      rfl
  refine ⟨(Multiset.coe_eq_zero _).1 hsum, ?_⟩
  exact {
    types_eq := h'.types_eq.trans (hl.types_eq.trans h.types_eq.symm)
    checked_eq := h'.checked_eq.trans (hl.checked_eq.trans h.checked_eq.symm)
    built := h.built
    closed := h.closed
    built' := h'.built
    closed' := h'.closed
    subset := hsub
    clean := hclean }

end Memo.Laxer

namespace Analysis

variable {α β γ δ : Type} {t : Tree} {F : Nat → Prop} {m m₁ m' : Memo} {ds : List Diagnostic}

/-- Every run of `c` that reports nothing, beside any laxer memory, is matched by a run of `c'`
from there that reports nothing, with an answer related by `ρ`, ending laxer. -/
def Relaxes (t : Tree) (ρ : α → β → Prop) (c : AnalysisM α) (c' : AnalysisM β) : Prop :=
  Spec c fun m a m₁ ds => ∀ m', m.Laxer t m' → ds = [] →
    ∃ a' m₁', Runs c' m' a' m₁' [] ∧ ρ a a' ∧ m₁.Laxer t m₁'

/-- What the stricter analysis does here, the laxer one may skip. -/
def Skippable (t : Tree) (c : AnalysisM α) : Prop :=
  Relaxes t (fun _ (_ : Unit) => True) c (pure ())

namespace Relaxes

variable {ρ : α → β → Prop} {σ : γ → δ → Prop} {c : AnalysisM α} {c' : AnalysisM β} {a : α}

/-- The run the definition picks is every run. -/
lemma of_runs (h : Relaxes t ρ c c') (hr : Runs c m a m₁ ds) (hl : m.Laxer t m') (hds : ds = []) :
    ∃ a' m₁', Runs c' m' a' m₁' [] ∧ ρ a a' ∧ m₁.Laxer t m₁' := by
  obtain ⟨b, m₂, es, hr₂, hq⟩ := h m
  obtain ⟨rfl, rfl, he⟩ := hr₂.unique hr
  obtain ⟨a', m₁', hr', hρ, hl₁⟩ := hq m' hl hds
  exact ⟨a', m₁', hr', hρ, hl₁.congr_left he⟩

lemma mono {ρ' : α → β → Prop} (h : Relaxes t ρ c c') (hρ : ∀ a a', ρ a a' → ρ' a a') :
    Relaxes t ρ' c c' :=
  Spec.mono h fun _ _ _ _ hq m' hl hds => by
    obtain ⟨a', m₁', hr, ha, hl₁⟩ := hq m' hl hds
    exact ⟨a', m₁', hr, hρ _ _ ha, hl₁⟩

/-- The stricter side may be given by any equal computation. -/
lemma of_eq_left {c₁ : AnalysisM α} (h : Relaxes t ρ c c') (hc : c = c₁) : Relaxes t ρ c₁ c' :=
  hc ▸ h

lemma pure {a' : β} (h : ρ a a') : Relaxes t ρ (pure a) (pure a') :=
  Spec.pure fun _ m' hl _ => ⟨a', m', Runs.pure a' m', h, hl⟩

/-- Sequencing: the continuations after related answers are related. -/
lemma bind {f : α → AnalysisM γ} {f' : β → AnalysisM δ} (hc : Relaxes t ρ c c')
    (htot : ∀ a, ∃ a', ρ a a') (hf : ∀ a a', ρ a a' → Relaxes t σ (f a) (f' a')) :
    Relaxes t σ (c >>= f) (c' >>= f') := by
  -- one run of the continuation, matched for every related answer
  have hf' : ∀ a, Spec (f a) fun m₁ b m₂ es => ∀ a', ρ a a' → ∀ m₁', m₁.Laxer t m₁' → es = [] →
      ∃ b' m₂', Runs (f' a') m₁' b' m₂' [] ∧ σ b b' ∧ m₂.Laxer t m₂' := by
    intro a m₁
    obtain ⟨a₀, h₀⟩ := htot a
    obtain ⟨b, m₂, es, hr, -⟩ := hf a a₀ h₀ m₁
    exact ⟨b, m₂, es, hr, fun a' h' m₁' hl hes => (hf a a' h').of_runs hr hl hes⟩
  refine Spec.bind hc hf' fun m a m₁ ds b m₂ es h₁ h₂ m' hl hnil => ?_
  -- a silent run is made of silent steps
  obtain ⟨hds, hes⟩ := List.append_eq_nil_iff.1 hnil
  obtain ⟨a', m₁', hr₁, hρ, hl₁⟩ := h₁ m' hl hds
  obtain ⟨b', m₂', hr₂, hσ, hl₂⟩ := h₂ a' hρ m₁' hl₁ hes
  exact ⟨b', m₂', hr₁.bind hr₂, hσ, hl₂⟩

/-- A step on equal answers. -/
lemma bind_eq {f : α → AnalysisM γ} {f' : α → AnalysisM δ} {c' : AnalysisM α}
    (hc : Relaxes t Eq c c') (hf : ∀ a, Relaxes t σ (f a) (f' a)) :
    Relaxes t σ (c >>= f) (c' >>= f') :=
  hc.bind (fun a => ⟨a, rfl⟩) fun a _ h => h ▸ hf a

/-- A step that always reports is never silent, so anything matches it. -/
lemma of_loud (h : ∀ m, ∃ a m₁ ds, Runs c m a m₁ ds ∧ ds ≠ []) : Relaxes t ρ c c' := by
  intro m
  obtain ⟨a, m₁, ds, hr, hne⟩ := h m
  exact ⟨a, m₁, ds, hr, fun _ _ hds => absurd hds hne⟩

lemma report (span : Span) (fault : Fault) {c' : AnalysisM Unit} :
    Relaxes t Eq (DecafCheck.report span fault) c' :=
  of_loud fun m => ⟨(), m, _, Runs.report span fault, List.cons_ne_nil _ _⟩

lemma mapM {xs : List γ} {g g' : γ → AnalysisM β} (hg : ∀ x ∈ xs, Relaxes t Eq (g x) (g' x)) :
    Relaxes t Eq (xs.mapM g) (xs.mapM g') := by
  induction xs with
  | nil => exact Relaxes.pure rfl
  | cons x rest ih =>
    rw [List.mapM_cons, List.mapM_cons]
    refine (hg x (List.mem_cons_self ..)).bind_eq fun b => ?_
    refine (ih fun y hy => hg y (List.mem_cons_of_mem x hy)).bind_eq fun bs => ?_
    exact Relaxes.pure rfl

lemma forM {xs : List γ} {g g' : γ → AnalysisM PUnit} (hg : ∀ x ∈ xs, Relaxes t Eq (g x) (g' x)) :
    Relaxes t Eq (xs.forM g) (xs.forM g') := by
  induction xs with
  | nil => exact Relaxes.pure rfl
  | cons x rest ih =>
    exact (hg x (List.mem_cons_self ..)).bind_eq fun _ =>
      ih fun y hy => hg y (List.mem_cons_of_mem x hy)

end Relaxes

/-- A step the laxer analysis skips is matched by any answer that every answer relates to. -/
lemma Skippable.relaxes {ρ : α → β → Prop} {c : AnalysisM α} {a' : β} (h : Skippable t c)
    (hρ : ∀ a, ρ a a') : Relaxes t ρ c (pure a') :=
  Spec.mono h fun _ a _ _ hq m' hl hds => by
    obtain ⟨_, m₁', hr, -, hl₁⟩ := hq m' hl hds
    obtain ⟨-, -, he⟩ := hr.unique (Runs.pure () m')
    exact ⟨a', m₁', fun log => by rw [Runs.pure a' m' log, he], hρ a, hl₁⟩

/-- A step of the preparation block that prepares what `F` asks for and answers what `R` allows
may run on both sides, or on the stricter side alone. -/
lemma relaxes_of_addsRun {c : AnalysisM α} {R : α → Prop} (huniq : ∀ a a', R a → R a' → a = a')
    (hrun : Spec c fun _ _ _ _ => True) (h : AddsRun t F R c) :
    Relaxes t Eq c c ∧ Skippable t c := by
  -- from built and closed scopes the run of `h`; elsewhere any run, with no laxer memory beside
  have hspec : Spec c fun m a m₁ ds =>
      m.ScopesBuilt t → m.ScopesClosed t → (ds = [] ∨ t.OffCycles F) → Adds t F m m₁ ds ∧ R a := by
    intro m
    by_cases hm : m.ScopesBuilt t ∧ m.ScopesClosed t
    · obtain ⟨a, m₁, ds, hr, hq⟩ := h m hm.1 hm.2
      exact ⟨a, m₁, ds, hr, fun _ _ => hq⟩
    · obtain ⟨a, m₁, ds, hr, -⟩ := hrun m
      exact ⟨a, m₁, ds, hr, fun hb hc => absurd ⟨hb, hc⟩ hm⟩
  constructor
  · refine Spec.mono hspec fun m a m₁ ds hq m' hl hds => ?_
    subst hds
    -- the stricter run reports nothing, so what it prepares is off cycles; then so is what the
    -- laxer run prepares, the same `F`
    obtain ⟨hadds, hR⟩ := hq hl.built hl.closed (.inl rfl)
    obtain ⟨a', m₁', ds', hr', hq'⟩ := h m' hl.built' hl.closed'
    obtain ⟨hadds', hR'⟩ := hq' (.inr hadds.offCycles)
    obtain ⟨rfl, hl₁⟩ := hl.adds hadds hadds'
    exact ⟨a', m₁', hr', huniq a a' hR hR', hl₁⟩
  · refine Spec.mono hspec fun m a m₁ ds hq m' hl hds => ?_
    subst hds
    exact ⟨(), m', Runs.pure () m', trivial, hl.adds_left (hq hl.built hl.closed (.inl rfl)).1⟩

/-! ## The checker's own steps -/

section Steps

variable {cfg cfg' : Config} {n : Nat}

/-- A type found once is given again, and one not yet found is inferred and remembered, on both
sides alike. -/
lemma relaxes_getType (ih : Relaxes t Eq (infer t cfg n) (infer t cfg' n)) :
    Relaxes t Eq (getType t cfg n) (getType t cfg' n) := by
  intro m
  cases hty : m.types[n]? with
  | some ty =>
    refine ⟨ty, m, [], runs_getType_memo hty, fun m' hl _ => ?_⟩
    exact ⟨ty, m', runs_getType_memo (by rw [hl.types_eq]; exact hty), rfl, hl⟩
  | none =>
    obtain ⟨ty, m₁, ds, hr, hq⟩ := ih m
    refine ⟨ty, _, ds, runs_getType_infer hty hr, fun m' hl hds => ?_⟩
    obtain ⟨_, m₁', hr', rfl, hl₁⟩ := hq m' hl hds
    exact ⟨ty, _, runs_getType_infer (by rw [hl.types_eq]; exact hty) hr', rfl,
      hl₁.insertType n ty⟩

/-- A node is checked once: nothing when it is marked, else marked and then its body, on both sides
alike. -/
lemma relaxes_once {c c' : AnalysisM Unit} {b b' : AnalysisM β}
    (hdone : ∀ m, m.checked.contains n → Runs c m () m [] ∧ Runs c' m () m [])
    (hmark : ∀ m a m₁ ds, m.checked.contains n = false →
      Runs b { m with checked := m.checked.insert n } a m₁ ds → Runs c m () m₁ ds)
    (hmark' : ∀ m a m₁ ds, m.checked.contains n = false →
      Runs b' { m with checked := m.checked.insert n } a m₁ ds → Runs c' m () m₁ ds)
    (hb : Relaxes t Eq b b') : Relaxes t Eq c c' := by
  intro m
  by_cases hc : m.checked.contains n
  · refine ⟨(), m, [], (hdone m hc).1, fun m' hl _ => ?_⟩
    exact ⟨(), m', (hdone m' (by rw [hl.checked_eq]; exact hc)).2, rfl, hl⟩
  · obtain ⟨_, m₁, ds, hr, hq⟩ := hb { m with checked := m.checked.insert n }
    refine ⟨(), m₁, ds, hmark m _ m₁ ds (Bool.eq_false_iff.2 hc) hr, fun m' hl hds => ?_⟩
    obtain ⟨_, m₁', hr', -, hl₁⟩ := hq _ (hl.mark n) hds
    have hc' : m'.checked.contains n = false := by
      rw [hl.checked_eq]
      exact Bool.eq_false_iff.2 hc
    exact ⟨(), m₁', hmark' m' _ m₁' [] hc' hr', rfl, hl₁⟩

lemma relaxes_check_expr (hexpr : (t.kindAt n).isExpr)
    (ih : Relaxes t Eq (getType t cfg n) (getType t cfg' n)) :
    Relaxes t Eq (check t cfg n) (check t cfg' n) :=
  relaxes_once (fun _ hc => ⟨runs_check_done hc, runs_check_done hc⟩)
    (fun _ _ _ _ hc hr => runs_check_expr hexpr hc hr)
    (fun _ _ _ _ hc hr => runs_check_expr hexpr hc hr) ih

lemma relaxes_checkNode (ih : Relaxes t Eq (checkBody t cfg n) (checkBody t cfg' n)) :
    Relaxes t Eq (checkNode t cfg n) (checkNode t cfg' n) :=
  relaxes_once (fun _ hc => ⟨runs_checkNode_done hc, runs_checkNode_done hc⟩)
    (fun _ _ _ _ hc hr => runs_checkNode_body hc hr)
    (fun _ _ _ _ hc hr => runs_checkNode_body hc hr) ih

/-- A run of the analysis of `r` from a fresh memory gives the memory the analysis of the program
ends with. -/
lemma analyzeProgram_of_runs {cfg : Config} {r : Nat} {m : Memo}
    (h : Runs (analyze t cfg r) (Memo.fresh cfg.errorLimit) (.ok ()) m ds) :
    analyzeProgram t cfg r = .ok (m.withLog ((Log.withLimit cfg.errorLimit).reportAll ds)) := by
  simp only [analyzeProgram, h.run_eq]
  rfl

/-- A program is accepted exactly when its analysis answers and reports nothing. -/
lemma checkProgram_eq_ok_iff {cfg : Config} {r : Nat} {a : Except Refusal Unit} {m : Memo}
    (h : Runs (analyze t cfg r) (Memo.fresh cfg.errorLimit) a m ds) :
    checkProgram t cfg r = .ok () ↔ a = .ok () ∧ ds = [] := by
  cases a with
  | error e => simp [checkProgram, analyzeProgram, h.run_eq, bind, Except.bind]
  | ok u =>
    simp [checkProgram, analyzeProgram_of_runs h, bind, Except.bind, pure, Except.pure, throw,
      throwThe, MonadExceptOf.throw, Log.withLimit]

end Steps

variable (hcons : t.Consistent)
include hcons

lemma relaxes_prepareScope (n : Nat) :
    Relaxes t Eq (prepareScope t n) (prepareScope t n) ∧ Skippable t (prepareScope t n) :=
  relaxes_of_addsRun (fun _ _ _ _ => rfl) (Spec.mono (lookup_prepareScope t n) fun _ _ _ _ _ => trivial)
    (addsRun_prepareScope hcons n)

lemma relaxes_prepared (n : Nat) :
    Relaxes t Eq (prepareScope t n >>= fun _ => DecafCheck.preparedScope n)
      (prepareScope t n >>= fun _ => DecafCheck.preparedScope n) ∧
    Skippable t (prepareScope t n >>= fun _ => DecafCheck.preparedScope n) :=
  relaxes_of_addsRun (fun _ _ h h' => PreparedIs.unique h h')
    (Spec.mono (lookup_prepareScope_read t n) fun _ _ _ _ _ => trivial)
    (addsRun_prepared hcons n)

lemma relaxes_findDecl (n : Nat) (x : String) (deep : Bool) :
    Relaxes t Eq (findDecl t n x deep) (findDecl t n x deep) ∧ Skippable t (findDecl t n x deep) :=
  relaxes_of_addsRun (fun _ _ h h' => LookupIs.unique h h')
    (Spec.mono (lookup_findDecl t x deep n) fun _ _ _ _ _ => trivial)
    (addsRun_findDecl hcons n x deep)

lemma relaxes_superclassOf (c : Nat) :
    Relaxes t Eq (superclassOf t c) (superclassOf t c) ∧ Skippable t (superclassOf t c) :=
  relaxes_of_addsRun (fun _ _ h h' => Tree.SuperIs.unique h h')
    (Spec.mono (lookup_superclassOf t c) fun _ _ _ _ _ => trivial)
    (addsRun_superclassOf hcons c)

/-- Every step relaxes to itself. -/
theorem stepwise_relaxes_self : Stepwise t fun c => Relaxes t Eq c c where
  pure _ := Relaxes.pure rfl
  bind hc hf := hc.bind_eq hf
  report span _ _ := Relaxes.report span _
  prepare n := (relaxes_prepareScope hcons n).1
  prepared n := (relaxes_prepared hcons n).1
  find n x deep := (relaxes_findDecl hcons n x deep).1
  super c := (relaxes_superclassOf hcons c).1

/-- Every step may be run by the stricter analysis alone. -/
theorem stepwise_skippable : Stepwise t (Skippable t) where
  pure _ := Relaxes.pure trivial
  bind hc hf := by
    have h := Relaxes.bind hc (fun _ => ⟨(), trivial⟩) fun a _ _ => hf a
    rwa [pure_bind] at h
  report span _ _ := Relaxes.of_loud fun m =>
    ⟨(), m, _, Runs.report span _, List.cons_ne_nil _ _⟩
  prepare n := (relaxes_prepareScope hcons n).2
  prepared n := (relaxes_prepared hcons n).2
  find n x deep := (relaxes_findDecl hcons n x deep).2
  super c := (relaxes_superclassOf hcons c).2

/-! ## The two settings -/

section Settings

variable {cfg cfg' : Config}

/-- A field the stricter rule lets be read, the laxer rule lets be read too. -/
lemma relaxes_fieldAccessible (hf : cfg'.fieldRule.strictness ≤ cfg.fieldRule.strictness)
    (n c : Nat) :
    Relaxes t (fun a a' => a = true → a' = true) (fieldAccessible t cfg n c)
      (fieldAccessible t cfg' n c) := by
  have hself := stepwise_relaxes_self hcons
  have hskip := stepwise_skippable hcons
  rcases FieldRule.cases_of_strictness_le hf with heq | hun | ⟨hsub, hany⟩
  · rw [← fieldAccessible_congr heq]
    exact (hself.fieldAccessible cfg n c).mono fun _ _ h h' => h ▸ h'
  · -- reading anywhere asks nothing
    rw [show fieldAccessible t cfg' n c = pure true by unfold fieldAccessible; rw [hun]]
    exact (hskip.fieldAccessible cfg n c).relaxes fun _ _ => rfl
  · -- both ask whether `n` stands in a class; only the stricter rule asks more
    rw [show fieldAccessible t cfg' n c = isClassScope t n true >>= Pure.pure by
      rw [bind_pure]; unfold fieldAccessible; rw [hany]]
    unfold fieldAccessible
    rw [hsub]
    refine (hself.isClassScope n true).bind_eq fun b => ?_
    split
    · split
      · exact (hskip.isSubclassOf _ _).relaxes fun _ _ => by simp_all
      · exact Relaxes.pure fun h => by simp at h
    · exact Relaxes.pure fun h => by simp at h

/-- Typing a field read: the stricter rule types it only where the laxer one types it the same. -/
lemma relaxes_fieldType (hf : cfg'.fieldRule.strictness ≤ cfg.fieldRule.strictness) (n : Nat)
    (name : Ident) (baseTy : Ty) :
    Relaxes t Eq (fieldType t cfg n name baseTy) (fieldType t cfg' n name baseTy) := by
  have hself := stepwise_relaxes_self hcons
  cases baseTy with
  | named id =>
    unfold fieldType
    refine (hself.resolveNamed n id).bind_eq fun r => ?_
    split
    · exact hself.report_pure _ rfl _
    · split
      · exact hself.noSuchField _ _
      · refine (hself.find _ _ false).bind_eq fun r => ?_
        split
        · exact hself.noSuchField _ _
        · refine (relaxes_fieldAccessible hcons hf n _).bind (fun _ => ⟨true, fun _ => rfl⟩)
            fun a a' ha => ?_
          cases a with
          | true =>
            rw [ha rfl]
            exact Relaxes.pure rfl
          | false =>
            -- the stricter rule refuses the field, and reports it
            exact Relaxes.of_loud fun m =>
              ⟨_, m, _, (Runs.report _ _).bind (Runs.pure _ m), List.cons_ne_nil _ _⟩
  | _ =>
    -- any other base names no field, whatever the settings
    refine (hself.fieldType cfg' n name _).of_eq_left ?_
    rfl

/-- Every typing rule: only a field read depends on the settings. -/
lemma relaxes_exprType (hf : cfg'.fieldRule.strictness ≤ cfg.fieldRule.strictness) (n : Nat)
    (typeOf : Nat → Ty) (e : Expr) :
    Relaxes t Eq (exprType t cfg n typeOf e) (exprType t cfg' n typeOf e) := by
  have hself := stepwise_relaxes_self hcons
  cases e with
  | field base name =>
    cases base with
    | none => exact hself.varType n name
    | some base => exact relaxes_fieldType hcons hf n name _
  | _ =>
    refine (hself.exprType cfg' n typeOf _).of_eq_left ?_
    rfl

/-- Checking an override: where the laxer settings do not check it, the stricter check is
skipped. -/
lemma relaxes_checkOverride (ho : cfg'.checkOverrides = true → cfg.checkOverrides = true)
    (n : Nat) : Relaxes t Eq (checkOverride t cfg n) (checkOverride t cfg' n) := by
  by_cases heq : cfg.checkOverrides = cfg'.checkOverrides
  · rw [checkOverride_congr heq]
    exact (stepwise_relaxes_self hcons).checkOverride cfg' n
  · have hoff : cfg'.checkOverrides = false := by
      cases h : cfg'.checkOverrides with
      | false => rfl
      | true => exact absurd ((ho h).trans h.symm) heq
    rw [show checkOverride t cfg' n = pure () by unfold checkOverride; rw [hoff]; rfl]
    exact ((stepwise_skippable hcons).checkOverride cfg n).relaxes fun _ => rfl

lemma relaxes_afterChildren (ho : cfg'.checkOverrides = true → cfg.checkOverrides = true)
    (n : Nat) (k : NodeKind) :
    Relaxes t Eq (afterChildren t cfg n k) (afterChildren t cfg' n k) := by
  cases k with
  | decl d =>
    cases d with
    | fn f => exact relaxes_checkOverride hcons ho n
    | _ => exact Relaxes.pure rfl
  | stmt s =>
    refine ((stepwise_relaxes_self hcons).afterChildren cfg' n _).of_eq_left ?_
    -- only a `break` is checked after its children, and not by the settings
    cases s <;> rfl
  | _ => exact Relaxes.pure rfl

/-- Checking and typing under settings that ask no more: by the induction that defines them, each
call on a child relaxes by induction, the rules by the lemmas above. -/
theorem relaxes_checkBlock (hcfg : cfg'.AsksNoMore cfg) :
    (∀ n, Relaxes t Eq (check t cfg n) (check t cfg' n)) ∧
      (∀ n, (t.kindAt n).isExpr = false →
        Relaxes t Eq (checkNode t cfg n) (checkNode t cfg' n)) ∧
      (∀ n, Relaxes t Eq (getType t cfg n) (getType t cfg' n)) ∧
      (∀ n, Relaxes t Eq (infer t cfg n) (infer t cfg' n)) := by
  have hself := stepwise_relaxes_self hcons
  refine check.mutual_induct t (fun n => Relaxes t Eq (check t cfg n) (check t cfg' n))
    (fun n => (t.kindAt n).isExpr = false →
      Relaxes t Eq (checkNode t cfg n) (checkNode t cfg' n))
    (fun n => Relaxes t Eq (getType t cfg n) (getType t cfg' n))
    (fun n => Relaxes t Eq (infer t cfg n) (infer t cfg' n)) ?_ ?_ ?_ ?_ ?_ ?_ ?_
  -- an expression is checked by typing it
  · intro n hexpr ih
    exact relaxes_check_expr hexpr ih
  -- anything else by `checkNode`
  · intro n hexpr ih
    have hexpr' : (t.kindAt n).isExpr = false := by simpa using hexpr
    rw [check_of_not_expr t cfg hexpr', check_of_not_expr t cfg' hexpr']
    exact ih hexpr'
  -- a declaration or statement: before, each child by its role, after
  · intro n ihCheck ihType _
    refine relaxes_checkNode ((hself.beforeChildren n _).bind_eq fun _ =>
      (Relaxes.forM fun xr hx => ?_).bind_eq fun _ =>
        relaxes_afterChildren hcons hcfg.checkOverrides n _)
    obtain ⟨x, role⟩ := xr
    cases role with
    | checked => exact ihCheck x .checked hx
    | _ => exact (ihType x _ hx).bind_eq fun ty => hself.afterTyped n x ty _
  · intro n ih
    exact relaxes_getType ih
  -- an expression: its operands, then its own rule
  · intro n e hk ih
    rw [infer_expr t cfg hk, infer_expr t cfg' hk]
    refine (Relaxes.mapM fun x _ => (ih x.1 x.2).bind_eq fun _ => Relaxes.pure rfl).bind_eq
      fun typed => ?_
    unfold ownType
    split
    · exact Relaxes.pure rfl
    · exact relaxes_exprType hcons hcfg.fieldRule n _ e
  -- a variable declaration is checked and has its declared type
  · intro n v hk ih
    rw [infer_var t cfg hk, infer_var t cfg' hk]
    exact (ih (by simp [hk, NodeKind.isExpr])).bind_eq fun _ => Relaxes.pure rfl
  -- anything else is checked and has type `void`
  · intro n hne hnv ih
    have hexpr : (t.kindAt n).isExpr = false := by
      cases hk : t.kindAt n with
      | expr e => exact (hne e hk).elim
      | _ => rfl
    rw [infer_other t cfg hne hnv, infer_other t cfg' hne hnv]
    exact (ih hexpr).bind_eq fun _ => Relaxes.pure rfl

theorem relaxes_analyze (hcfg : cfg'.AsksNoMore cfg) (r : Nat) :
    Relaxes t Eq (analyze t cfg r) (analyze t cfg' r) := by
  unfold analyze
  split
  · exact ((relaxes_checkBlock hcons hcfg).1 r).bind_eq fun _ => Relaxes.pure rfl
  · exact Relaxes.pure rfl

/-- Settings that ask no more accept every program that stricter ones accept, on a consistent tree:
their analysis finds the same types, checks the same nodes, and prepares only scopes that the
stricter analysis prepares, each the same. -/
theorem accepted_of_asksNoMore (hcfg : cfg'.AsksNoMore cfg) {r : Nat}
    (hacc : checkProgram t cfg r = .ok ()) :
    checkProgram t cfg' r = .ok () ∧
      ∃ m m', analyzeProgram t cfg r = .ok m ∧ analyzeProgram t cfg' r = .ok m' ∧
        m'.types = m.types ∧ m'.checked = m.checked ∧
        ∀ (j : Nat) (s : Scope), m'.scopes[j]? = some s → m.scopes[j]? = some s := by
  obtain ⟨a, m₁, ds, hr, hq⟩ := relaxes_analyze hcons hcfg r (Memo.fresh cfg.errorLimit)
  -- accepted, the stricter analysis answered and reported nothing
  obtain ⟨rfl, rfl⟩ := (checkProgram_eq_ok_iff hr).1 hacc
  obtain ⟨a', m₁', hr', rfl, hl⟩ := hq _ (Memo.Laxer.fresh t cfg.errorLimit cfg'.errorLimit) rfl
  exact ⟨(checkProgram_eq_ok_iff hr').2 ⟨rfl, rfl⟩, _, _, analyzeProgram_of_runs hr,
    analyzeProgram_of_runs hr', hl.types_eq, hl.checked_eq, fun j s hs => hl.scope_eq hs⟩

end Settings

end Analysis

/-! ## A program inside a class -/

/-- Class `C` (node 6) holds a block (5) whose one statement is a program (4). The program declares
class `A` (1), with field `x` (0), and reads `new A().x` (3, its `new A()` at 2). -/
def Tree.nestedRead : Tree where
  nodes := #[⟨{}, some 1, .decl (.var ⟨⟨"x", {}⟩, .int⟩)⟩,
    ⟨{}, some 4, .decl (.cls ⟨⟨"A", {}⟩, none, [], [0]⟩)⟩,
    ⟨{}, some 3, .expr (.new ⟨"A", {}⟩)⟩,
    ⟨{}, some 4, .expr (.field (some 2) ⟨"x", {}⟩)⟩,
    ⟨{}, some 5, .program [1, 3]⟩,
    ⟨{}, some 6, .stmt (.block [] [4])⟩,
    ⟨{}, none, .decl (.cls ⟨⟨"C", {}⟩, none, [], [5]⟩)⟩]
  children_lt := by decide
  parent_gt := by decide

namespace Analysis

section NestedRead

variable {cfg : Config} {m : Memo}

/-- From the `new` or the read, `A` is found in the program's scope. -/
lemma runs_findDecl_nestedRead_A (h3 : m.scopes[3]? = none)
    (h4 : m.scopes[4]? = some (Tree.nestedRead.declaredScope [1, 3])) :
    Runs (findDecl Tree.nestedRead 3 "A" true) m (some 1) m [] := by
  have hfound : Runs (findWithin Tree.nestedRead [] 4 "A" true) m (some 1) m [] :=
    runs_findWithin_found (runs_prepareWithin_skip (.inl (by simp [Std.TreeMap.contains_eq_isSome_getElem?, h4])))
      (by rw [h4, Option.bind_some, Tree.lookup_declaredScope]; rfl)
  exact runs_findWithin_up (runs_prepareWithin_skip (.inr (.inl rfl))) (by rw [h3]; rfl) rfl hfound

/-- Typing the `new A()`: `A` is found, a class. -/
lemma runs_getType_nestedRead_new (hn : m.types[2]? = none) (h2 : m.scopes[2]? = none)
    (h3 : m.scopes[3]? = none) (h4 : m.scopes[4]? = some (Tree.nestedRead.declaredScope [1, 3])) :
    Runs (getType Tree.nestedRead cfg 2) m (.named ⟨"A", {}⟩)
      { m with types := m.types.insert 2 (.named ⟨"A", {}⟩) } [] := by
  have hfind : Runs (findDecl Tree.nestedRead 2 "A" true) m (some 1) m [] :=
    runs_findWithin_up (runs_prepareWithin_skip (.inr (.inl rfl))) (by rw [h2]; rfl) rfl
      (runs_findDecl_nestedRead_A h3 h4)
  refine runs_getType_infer hn ?_
  rw [infer_expr Tree.nestedRead cfg (e := .new ⟨"A", {}⟩) rfl,
    operandTypes_of_children_nil (t := Tree.nestedRead) (n := 2) rfl]
  exact (Runs.pure [] m).bind (hfind.bind (Runs.pure _ m))

/-- Typing the read of `x`: `A` is found, a class, and binds `x` to a field of type `int`; then
the field must be accessible under `cfg`. -/
lemma runs_getType_nestedRead_read {M : Memo} (hn : m.types[3]? = none)
    (hn₂ : m.types[2]? = none) (h1 : m.scopes[1]? = some (Tree.nestedRead.declaredScope [0]))
    (h2 : m.scopes[2]? = none) (h3 : m.scopes[3]? = none)
    (h4 : m.scopes[4]? = some (Tree.nestedRead.declaredScope [1, 3]))
    (hacc : Runs (fieldAccessible Tree.nestedRead cfg 3 1)
      { m with types := m.types.insert 2 (.named ⟨"A", {}⟩) } true M []) :
    Runs (getType Tree.nestedRead cfg 3) m .int { M with types := M.types.insert 3 .int } [] := by
  have hops : Runs (operandTypes Tree.nestedRead cfg 3) m [(2, .named ⟨"A", {}⟩)]
      { m with types := m.types.insert 2 (.named ⟨"A", {}⟩) } [] := by
    unfold operandTypes
    rw [show (Tree.nestedRead.kindAt 3).children.attach = [⟨2, List.mem_singleton_self 2⟩] from rfl,
      List.mapM_cons, List.mapM_nil]
    refine Runs.bind_eq ((runs_getType_nestedRead_new hn₂ h2 h3 h4).bind (Runs.pure _ _)) ?_ rfl
    exact (Runs.pure [] _).bind (Runs.pure [(2, Ty.named ⟨"A", {}⟩)] _)
  have hres : Runs (resolveNamed Tree.nestedRead 3 ⟨"A", {}⟩)
      { m with types := m.types.insert 2 (.named ⟨"A", {}⟩) } (some 1)
      { m with types := m.types.insert 2 (.named ⟨"A", {}⟩) } [] := by
    unfold resolveNamed
    exact (runs_findDecl_nestedRead_A (m := { m with types := m.types.insert 2 (.named ⟨"A", {}⟩) })
      h3 h4).bind (Runs.pure _ _)
  have hfield : Runs (findDecl Tree.nestedRead 1 "x" false)
      { m with types := m.types.insert 2 (.named ⟨"A", {}⟩) } (some 0)
      { m with types := m.types.insert 2 (.named ⟨"A", {}⟩) } [] :=
    runs_findWithin_found
      (runs_prepareWithin_skip (.inl (by simp [Std.TreeMap.contains_eq_isSome_getElem?, h1])))
      (by simp only [h1, Option.bind_some, Tree.lookup_declaredScope]; rfl)
  refine runs_getType_infer hn ?_
  rw [infer_expr Tree.nestedRead cfg (e := .field (some 2) ⟨"x", {}⟩) rfl]
  exact hops.bind (hres.bind (hfield.bind (hacc.bind (Runs.pure Ty.int M))))

/-- Checking class `A`: its scope declares `x`, it extends nothing, and its field is checked. -/
lemma runs_check_nestedRead_class (hc₁ : m.checked.contains 1 = false)
    (hc₀ : m.checked.contains 0 = false) (hs : m.scopes.contains 1 = false) :
    Runs (check Tree.nestedRead cfg 1) m ()
      { m with checked := (m.checked.insert 1).insert 0,
               scopes := m.scopes.insert 1 (Tree.nestedRead.declaredScope [0]) } [] := by
  rw [check_of_not_expr _ _ rfl]
  have hprep : Runs (prepareScope Tree.nestedRead 1) { m with checked := m.checked.insert 1 } ()
      { m with checked := m.checked.insert 1,
               scopes := m.scopes.insert 1 (Tree.nestedRead.declaredScope [0]) } [] :=
    runs_prepareWithin_build (m := { m with checked := m.checked.insert 1 }) hs rfl
      List.not_mem_nil (Tree.runs_declareEntries_declared _ [0] _)
      (runs_inheritWithin_no_super rfl (runs_superclassWithin_none rfl))
  -- the field is a variable of a built-in type: checking it only marks it
  have hfield : Runs (check Tree.nestedRead cfg 0)
      { m with checked := m.checked.insert 1,
               scopes := m.scopes.insert 1 (Tree.nestedRead.declaredScope [0]) } ()
      { m with checked := (m.checked.insert 1).insert 0,
               scopes := m.scopes.insert 1 (Tree.nestedRead.declaredScope [0]) } [] := by
    rw [check_of_not_expr _ _ rfl]
    exact runs_checkNode_body (by simpa [Std.TreeSet.contains_insert] using hc₀) fun _ => rfl
  have hbefore : Runs (beforeChildren Tree.nestedRead 1 (Tree.nestedRead.kindAt 1))
      { m with checked := m.checked.insert 1 } ()
      { m with checked := m.checked.insert 1,
               scopes := m.scopes.insert 1 (Tree.nestedRead.declaredScope [0]) } [] :=
    hprep.bind fun _ => rfl
  have hroles : Runs ((Tree.nestedRead.kindAt 1).roles.forM (checkChild Tree.nestedRead cfg 1))
      { m with checked := m.checked.insert 1,
               scopes := m.scopes.insert 1 (Tree.nestedRead.declaredScope [0]) } ()
      { m with checked := (m.checked.insert 1).insert 0,
               scopes := m.scopes.insert 1 (Tree.nestedRead.declaredScope [0]) } [] :=
    hfield.bind (Runs.pure () _)
  exact runs_checkNode hc₁ hbefore hroles (Runs.pure () _)

/-- Field access inside any class: walking out of the program prepares the block's scope and
finds the class around it. -/
lemma runs_fieldAccessible_nestedRead_anyClass (h4 : m.scopes.contains 4)
    (h5 : m.scopes.contains 5 = false) :
    Runs (fieldAccessible Tree.nestedRead { fieldRule := .anyClass } 3 1) m true
      { m with scopes := m.scopes.insert 5 (Tree.nestedRead.declaredScope []) } [] := by
  have hblock : Runs (prepareScope Tree.nestedRead 5) m ()
      { m with scopes := m.scopes.insert 5 (Tree.nestedRead.declaredScope []) } [] :=
    runs_prepareWithin_build h5 rfl List.not_mem_nil (Tree.runs_declareEntries_declared _ [] m)
      (runs_inheritWithin_of_cls_none rfl)
  exact runs_isClassScope_up (runs_prepareWithin_skip (.inr (.inl rfl))) rfl rfl
    (runs_isClassScope_up (runs_prepareWithin_skip (.inl h4)) rfl rfl
      (runs_isClassScope_in hblock rfl rfl))

/-- Analysing the program: its scope declares `A`, class `A` is checked, then the read of `x`,
whose accessibility under `cfg` is the one step that may prepare more scopes. -/
lemma runs_analyze_nestedRead {F : Memo → Memo}
    (hacc : ∀ m : Memo, m.scopes.contains 4 → m.scopes.contains 5 = false →
      Runs (fieldAccessible Tree.nestedRead cfg 3 1) m true (F m) []) :
    ∃ T : Memo, Runs (analyze Tree.nestedRead cfg 4) (Memo.fresh cfg.errorLimit) (.ok ())
        { F T with types := (F T).types.insert 3 .int } [] ∧ T.scopes.contains 5 = false := by
  -- the program prepares its scope first, declaring `A`
  have hprep : Runs (beforeChildren Tree.nestedRead 4 (Tree.nestedRead.kindAt 4))
      { Memo.fresh cfg.errorLimit with checked := (Memo.fresh cfg.errorLimit).checked.insert 4 } () _
      [] :=
    runs_prepareWithin_build (by simp [Memo.fresh]) rfl List.not_mem_nil
      (Tree.runs_declareEntries_declared _ [1, 3] _) (runs_inheritWithin_of_cls_none rfl)
  have hafter : ∀ M, Runs (afterChildren Tree.nestedRead cfg 4 (Tree.nestedRead.kindAt 4)) M () M [] :=
    fun M _ => rfl
  -- then class `A`, then the read, whose memory before the access test is the witness
  exact ⟨_, by
    unfold analyze
    rw [if_pos (show (Tree.nestedRead.kindAt 4).isProgram = true from rfl)]
    refine Runs.bind_eq (a := ()) ?_ (Runs.pure _ _) (List.append_nil [])
    rw [check_of_not_expr _ _ rfl]
    refine runs_checkNode (by simp [Memo.fresh]) hprep
      ((runs_check_nestedRead_class ?_ ?_ ?_).bind (Runs.bind_eq
        (runs_check_expr rfl ?_ (runs_getType_nestedRead_read ?_ ?_ ?_ ?_ ?_ ?_ (hacc _ ?_ ?_)))
        (Runs.pure () _) rfl)) (hafter _)
    all_goals simp [Memo.fresh, Std.TreeMap.getElem_insert], by simp [Memo.fresh]⟩

end NestedRead

/-- Under the any-class rule the program is accepted, and deciding that `x` may be read prepares
the block's scope on the way out to `C`. Reading anywhere accepts the program too, and leaves that
scope unprepared: the two analyses accept with different scopes. -/
theorem nestedRead_scopes_differ :
    ∃ m m', analyzeProgram Tree.nestedRead { fieldRule := .anyClass } 4 = .ok m ∧
      analyzeProgram Tree.nestedRead { fieldRule := .unrestricted } 4 = .ok m' ∧
      m.log.count = 0 ∧ m'.log.count = 0 ∧
      m.scopes.contains 5 = true ∧ m'.scopes.contains 5 = false := by
  obtain ⟨T, hr, -⟩ := runs_analyze_nestedRead fun _ h4 h5 =>
    runs_fieldAccessible_nestedRead_anyClass h4 h5
  have hanywhere : ∀ m : Memo,
      Runs (fieldAccessible Tree.nestedRead { fieldRule := .unrestricted } 3 1) m true m [] :=
    fun _ _ => rfl
  obtain ⟨T', hr', h5⟩ := runs_analyze_nestedRead fun m _ _ => hanywhere m
  exact ⟨_, _, analyzeProgram_of_runs hr, analyzeProgram_of_runs hr', by simp [Log.withLimit],
    by simp [Log.withLimit], by simp, h5⟩

/-- Reading anywhere accepts the program that reading inside any class accepts. -/
theorem nestedRead_accepted_anywhere :
    Tree.nestedRead.Consistent ∧
      Config.AsksNoMore { fieldRule := .unrestricted } { fieldRule := .anyClass } ∧
      checkProgram Tree.nestedRead { fieldRule := .anyClass } 4 = .ok () ∧
      checkProgram Tree.nestedRead { fieldRule := .unrestricted } 4 = .ok () ∧
      ∃ m m', analyzeProgram Tree.nestedRead { fieldRule := .anyClass } 4 = .ok m ∧
        analyzeProgram Tree.nestedRead { fieldRule := .unrestricted } 4 = .ok m' ∧
        m'.types = m.types ∧ m'.checked = m.checked ∧
        ∀ (j : Nat) (s : Scope), m'.scopes[j]? = some s → m.scopes[j]? = some s := by
  have hcons : Tree.nestedRead.Consistent := by decide
  have hcfg : Config.AsksNoMore { fieldRule := .unrestricted } { fieldRule := .anyClass } :=
    ⟨by decide, fun h => h⟩
  have hacc : checkProgram Tree.nestedRead { fieldRule := .anyClass } 4 = .ok () := by
    obtain ⟨T, hr, -⟩ := runs_analyze_nestedRead fun _ h4 h5 =>
      runs_fieldAccessible_nestedRead_anyClass h4 h5
    exact (checkProgram_eq_ok_iff hr).2 ⟨rfl, rfl⟩
  exact ⟨hcons, hcfg, hacc, accepted_of_asksNoMore hcons hcfg hacc⟩

end Analysis

end DecafCheck
