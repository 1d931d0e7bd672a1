import Mathlib.Tactic.Lemma
import DecafCheck.Analysis.Query
/-!
# Runs of the analyser

The analyser never reads its log: a diagnostic only ever goes in through `report`. So a run of an
analysis computation from a memory is described, whatever log that memory carries, by the answer,
the memo tables it ends with, and the diagnostics it reports, in order. `Runs c m a m' ds` says
exactly this, and `Spec c Q` says that every run of `c` is such a run and satisfies `Q`. Specs
compose through `bind` (`Spec.bind`), which makes them a small Hoare logic whose postconditions
also see the reported diagnostics.

Reading reports off a `Runs` is what makes statements about diagnostics independent of the log's
limit: a full log counts a report without keeping it, but the report is in `ds` all the same.

`Memo.Grown t m m'` says that the tables of `m'` extend those of `m`: a prepared scope, a type or a
checked mark once present stays as it is, and new scopes appear only at nodes that own one.
-/

namespace DecafCheck

namespace Log

/-- Reports `ds` in order. -/
def reportAll (log : Log) (ds : List Diagnostic) : Log := ds.foldl report log

@[simp] lemma reportAll_nil (log : Log) : log.reportAll [] = log := rfl

@[simp] lemma reportAll_append (log : Log) (ds es : List Diagnostic) :
    log.reportAll (ds ++ es) = (log.reportAll ds).reportAll es :=
  List.foldl_append

@[simp] lemma reportAll_singleton (log : Log) (d : Diagnostic) : log.reportAll [d] = log.report d :=
  rfl

/-- Every report is counted. -/
@[simp] lemma count_reportAll (log : Log) (ds : List Diagnostic) :
    (log.reportAll ds).count = log.count + ds.length := by
  induction ds generalizing log with
  | nil => rfl
  | cons d ds ih =>
    rw [reportAll, List.foldl_cons, ← reportAll, ih, count_report, List.length_cons]
    omega

/-- A log without a limit keeps every report. -/
lemma records_reportAll_of_limit_none {log : Log} (h : log.limit = none) (ds : List Diagnostic) :
    (log.reportAll ds).records = log.records ++ ds := by
  induction ds generalizing log with
  | nil => simp
  | cons d ds ih =>
    have hd : (log.report d).limit = none := h
    rw [reportAll, List.foldl_cons, ← reportAll, ih hd]
    simp [report, hasRoom, h]

/-- The empty log keeps exactly what is reported to it. -/
@[simp] lemma records_reportAll_empty (ds : List Diagnostic) :
    (({} : Log).reportAll ds).records = ds :=
  records_reportAll_of_limit_none rfl ds

end Log

namespace Memo

/-- The memory `m` with its log replaced by `log`. -/
def withLog (m : Memo) (log : Log) : Memo := { m with log }

@[simp] lemma withLog_scopes (m : Memo) (log : Log) : (m.withLog log).scopes = m.scopes := rfl
@[simp] lemma withLog_types (m : Memo) (log : Log) : (m.withLog log).types = m.types := rfl
@[simp] lemma withLog_checked (m : Memo) (log : Log) : (m.withLog log).checked = m.checked := rfl
@[simp] lemma withLog_log (m : Memo) (log : Log) : (m.withLog log).log = log := rfl
@[simp] lemma withLog_withLog (m : Memo) (l l' : Log) : (m.withLog l).withLog l' = m.withLog l' :=
  rfl
@[simp] lemma withLog_self (m : Memo) : m.withLog m.log = m := rfl

/-- The scope of `n` is settled in `m`: prepared, or `n` owns none. -/
def Prepared (t : Tree) (m : Memo) (n : Nat) : Prop :=
  m.scopes.contains n ∨ (t.kindAt n).scopeEntries? = none

/-- The tables of `m'` extend those of `m`, with new scopes only at nodes that own one. -/
structure Grown (t : Tree) (m m' : Memo) : Prop where
  /-- A prepared scope stays as it is. -/
  scope_kept : ∀ (n : Nat) (s : Scope), m.scopes[n]? = some s → m'.scopes[n]? = some s
  /-- A new scope belongs to a node that owns one. -/
  scope_owner : ∀ n : Nat,
    m'.scopes.contains n → m.scopes.contains n ∨ (t.kindAt n).scopeEntries?.isSome
  /-- A type once found stays as it is. -/
  type_kept : ∀ (n : Nat) (ty : Ty), m.types[n]? = some ty → m'.types[n]? = some ty
  /-- A checked node stays checked. -/
  checked_kept : ∀ n : Nat, m.checked.contains n → m'.checked.contains n

namespace Grown

variable {t : Tree} {m m₁ m₂ : Memo}

lemma refl (t : Tree) (m : Memo) : Grown t m m :=
  ⟨fun _ _ h => h, fun _ h => .inl h, fun _ _ h => h, fun _ h => h⟩

lemma trans (h₁ : Grown t m m₁) (h₂ : Grown t m₁ m₂) : Grown t m m₂ where
  scope_kept n s h := h₂.scope_kept n s (h₁.scope_kept n s h)
  scope_owner n h := (h₂.scope_owner n h).elim (h₁.scope_owner n) .inr
  type_kept n ty h := h₂.type_kept n ty (h₁.type_kept n ty h)
  checked_kept n h := h₂.checked_kept n (h₁.checked_kept n h)

/-- Growth does not look at logs. -/
@[simp] lemma withLog_left_iff {l : Log} : Grown t (m.withLog l) m₁ ↔ Grown t m m₁ :=
  ⟨fun ⟨a, b, c, d⟩ => ⟨a, b, c, d⟩, fun ⟨a, b, c, d⟩ => ⟨a, b, c, d⟩⟩

@[simp] lemma withLog_right_iff {l : Log} : Grown t m (m₁.withLog l) ↔ Grown t m m₁ :=
  ⟨fun ⟨a, b, c, d⟩ => ⟨a, b, c, d⟩, fun ⟨a, b, c, d⟩ => ⟨a, b, c, d⟩⟩

/-- A scope may be stored at an owner that had none at the start. -/
lemma insertScope {n : Nat} {s : Scope} (h : Grown t m m₁) (hn : m.scopes.contains n = false)
    (ho : (t.kindAt n).scopeEntries?.isSome) :
    Grown t m { m₁ with scopes := m₁.scopes.insert n s } where
  scope_kept k s' hk := by
    have hne : k ≠ n := by
      rintro rfl
      rw [Std.TreeMap.contains_eq_isSome_getElem?, hk] at hn
      cases hn
    rw [Std.TreeMap.getElem?_insert]
    simp [Ne.symm hne, h.scope_kept k s' hk]
  scope_owner k hk := by
    rw [Std.TreeMap.contains_insert] at hk
    by_cases hne : k = n
    · exact .inr (hne ▸ ho)
    · have hk₁ : m₁.scopes.contains k := by simpa [Ne.symm hne] using hk
      exact h.scope_owner k hk₁
  type_kept := h.type_kept
  checked_kept := h.checked_kept

/-- A type may be stored at a node that had none at the start. -/
lemma insertType {n : Nat} {ty : Ty} (h : Grown t m m₁) (hn : m.types[n]? = none) :
    Grown t m { m₁ with types := m₁.types.insert n ty } where
  scope_kept := h.scope_kept
  scope_owner := h.scope_owner
  type_kept k ty' hk := by
    have hne : k ≠ n := by
      rintro rfl
      rw [hn] at hk
      cases hk
    rw [Std.TreeMap.getElem?_insert]
    simp [Ne.symm hne, h.type_kept k ty' hk]
  checked_kept := h.checked_kept

/-- A node may be marked checked. -/
lemma insertChecked (h : Grown t m m₁) (n : Nat) :
    Grown t m { m₁ with checked := m₁.checked.insert n } where
  scope_kept := h.scope_kept
  scope_owner := h.scope_owner
  type_kept := h.type_kept
  checked_kept k hk := by
    rw [Std.TreeSet.contains_insert, h.checked_kept k hk, Bool.or_true]

/-- A grown memory keeps whether a prepared node is prepared. -/
lemma contains_scopes (h : Grown t m m₁) {n : Nat} (hn : m.scopes.contains n) :
    m₁.scopes.contains n := by
  rw [Std.TreeMap.contains_eq_isSome_getElem?] at hn ⊢
  obtain ⟨s, hs⟩ := Option.isSome_iff_exists.1 hn
  rw [h.scope_kept n s hs]
  rfl

/-- Where the scope of `n` is settled, growth keeps it as it is. -/
lemma scope_eq {n : Nat} (h : Grown t m m₁) (hn : m.Prepared t n) :
    m₁.scopes[n]? = m.scopes[n]? := by
  cases hs : m.scopes[n]? with
  | some s => exact h.scope_kept n s hs
  | none =>
    cases hs₁ : m₁.scopes[n]? with
    | none => rfl
    | some s =>
      -- a scope that appeared belongs to an owner, which `n` is not
      have hc : m₁.scopes.contains n := by simp [Std.TreeMap.contains_eq_isSome_getElem?, hs₁]
      have hm : m.scopes.contains n = false := by
        simp [Std.TreeMap.contains_eq_isSome_getElem?, hs]
      rcases h.scope_owner n hc with h' | h'
      · rw [hm] at h'
        cases h'
      · rcases hn with hn | hn
        · rw [hm] at hn
          cases hn
        · rw [hn] at h'
          cases h'

/-- Growth keeps a settled scope settled. -/
lemma prepared {n : Nat} (h : Grown t m m₁) (hn : m.Prepared t n) : m₁.Prepared t n :=
  hn.imp h.contains_scopes id

end Grown

end Memo

namespace Analysis

variable {α β : Type}

/-- From the tables of `m` and any log, `c` answers `a`, ends with the tables of `m'` and reports
`ds`, in order. -/
def Runs (c : AnalysisM α) (m : Memo) (a : α) (m' : Memo) (ds : List Diagnostic) : Prop :=
  ∀ log, c.run (m.withLog log) = (a, m'.withLog (log.reportAll ds))

namespace Runs

variable {c : AnalysisM α} {m m₁ m₂ : Memo} {a : α} {ds es : List Diagnostic}

/-- The run from `m` itself. -/
lemma run_eq (h : Runs c m a m₁ ds) : c.run m = (a, m₁.withLog (m.log.reportAll ds)) := by
  simpa using h m.log

/-- A computation runs one way only: answer, tables and reports are determined. -/
lemma unique {b : α} {m₁' : Memo} {es : List Diagnostic} (h : Runs c m a m₁ ds)
    (h' : Runs c m b m₁' es) : a = b ∧ ds = es ∧ ∀ log, m₁.withLog log = m₁'.withLog log := by
  have e : ((a, m₁.withLog (({} : Log).reportAll ds)) : α × Memo) =
      (b, m₁'.withLog (({} : Log).reportAll es)) :=
    (h {}).symm.trans (h' {})
  obtain ⟨rfl, hm⟩ := Prod.mk.inj e
  have hds : ds = es := by
    have := congrArg (fun x : Memo => x.log.records) hm
    simpa using this
  subst hds
  refine ⟨rfl, rfl, fun log => ?_⟩
  have := congrArg (fun x : Memo => x.withLog log) hm
  simpa using this

lemma pure (a : α) (m : Memo) : Runs (pure a : AnalysisM α) m a m [] := fun _ => rfl

lemma bind {f : α → AnalysisM β} {b : β} (hc : Runs c m a m₁ ds) (hf : Runs (f a) m₁ b m₂ es) :
    Runs (c >>= f) m b m₂ (ds ++ es) := by
  intro log
  change (f (c.run (m.withLog log)).1).run (c.run (m.withLog log)).2 = _
  rw [hc log, hf, Log.reportAll_append]

/-- A computation that reads the memory reads only its tables. -/
lemma get_bind {f : Memo → AnalysisM α} (hf : ∀ log, f (m.withLog log) = f m)
    (h : Runs (f m) m a m₁ ds) : Runs (get >>= f) m a m₁ ds := by
  intro log
  change (f (m.withLog log)).run (m.withLog log) = _
  rw [hf, h]

lemma modify {g : Memo → Memo} (hg : ∀ log, g (m.withLog log) = (g m).withLog log) :
    Runs (modify g : AnalysisM PUnit) m ⟨⟩ (g m) [] := by
  intro log
  change ((), g (m.withLog log)) = _
  rw [hg]
  rfl

lemma report (span : Span) (fault : Fault) :
    Runs (DecafCheck.report span fault) m () m [⟨span, fault⟩] := fun _ => rfl

end Runs

/-- Every run of `c` satisfies `Q`, which relates its start, answer, end and reports. -/
def Spec (c : AnalysisM α) (Q : Memo → α → Memo → List Diagnostic → Prop) : Prop :=
  ∀ m, ∃ a m' ds, Runs c m a m' ds ∧ Q m a m' ds

namespace Spec

variable {c : AnalysisM α} {Q Q' : Memo → α → Memo → List Diagnostic → Prop}

lemma mono (h : Spec c Q) (hQ : ∀ m a m' ds, Q m a m' ds → Q' m a m' ds) : Spec c Q' := by
  intro m
  obtain ⟨a, m', ds, hr, hq⟩ := h m
  exact ⟨a, m', ds, hr, hQ _ _ _ _ hq⟩

lemma pure {a : α} (h : ∀ m, Q m a m []) : Spec (pure a : AnalysisM α) Q :=
  fun m => ⟨a, m, [], Runs.pure a m, h m⟩

lemma bind {f : α → AnalysisM β} {Q₁ : Memo → α → Memo → List Diagnostic → Prop}
    {Q₂ : α → Memo → β → Memo → List Diagnostic → Prop}
    {Q : Memo → β → Memo → List Diagnostic → Prop}
    (hc : Spec c Q₁) (hf : ∀ a, Spec (f a) (Q₂ a))
    (hQ : ∀ m a m₁ ds b m₂ es, Q₁ m a m₁ ds → Q₂ a m₁ b m₂ es → Q m b m₂ (ds ++ es)) :
    Spec (c >>= f) Q := by
  intro m
  obtain ⟨a, m₁, ds, hr₁, hq₁⟩ := hc m
  obtain ⟨b, m₂, es, hr₂, hq₂⟩ := hf a m₁
  exact ⟨b, m₂, ds ++ es, hr₁.bind hr₂, hQ _ _ _ _ _ _ _ hq₁ hq₂⟩

/-- A computation that reads the memory reads only its tables. -/
lemma get_bind {f : Memo → AnalysisM α} (hf : ∀ m log, f (m.withLog log) = f m)
    (h : ∀ m, ∃ a m' ds, Runs (f m) m a m' ds ∧ Q m a m' ds) : Spec (get >>= f) Q := by
  intro m
  obtain ⟨a, m', ds, hr, hq⟩ := h m
  exact ⟨a, m', ds, Runs.get_bind (hf m) hr, hq⟩

/-- A run of `c` satisfies the postconditions of all its specs at once. -/
lemma and (h : Spec c Q) (h' : Spec c Q')
    (hQ' : ∀ m a m₁ m₁' ds, (∀ log, m₁.withLog log = m₁'.withLog log) → Q' m a m₁' ds →
      Q' m a m₁ ds) :
    Spec c fun m a m' ds => Q m a m' ds ∧ Q' m a m' ds := by
  intro m
  obtain ⟨a, m₁, ds, hr, hq⟩ := h m
  obtain ⟨b, m₁', es, hr', hq'⟩ := h' m
  obtain ⟨rfl, rfl, he⟩ := hr.unique hr'
  exact ⟨a, m₁, ds, hr, hq, hQ' _ _ _ _ _ he hq'⟩

end Spec

end Analysis

end DecafCheck
