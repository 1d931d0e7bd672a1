import DecafCheck.Proofs.Typing
/-!
# Answering a query twice

Whatever the analyser works out it keeps where the next run looks first: a prepared scope, a found
type, a checked mark. So a query answered once is answered again the same way from the memory it
left, and the second time the memory, log included, does not change: nothing is prepared, typed,
checked or reported again (`answer_idempotent`). This holds from every memory, not only from those
a session can reach.

The queries that compute are `Stable`: every run grows the memo and ends where the query is
settled. Lookups are stable; checking and typing are stable because a mark or a type, once set,
stays; the queries that only read the memory change nothing at all.
-/

namespace DecafCheck

namespace Analysis

variable {α β : Type} {t : Tree}

/-- Every run of `c` grows the memo and leaves `c` settled. -/
def Stable (t : Tree) (c : AnalysisM α) : Prop :=
  Spec c fun m a m' _ => m.Grown t m' ∧ Settled t c a m'

namespace Stable

variable {c : AnalysisM α} {f : α → AnalysisM β}

lemma of_lookup (h : Lookup t c) : Stable t c :=
  h.mono fun _ _ _ _ hq => ⟨hq.prepares.grown, hq.settled⟩

lemma pure (a : α) : Stable t (pure a : AnalysisM α) :=
  of_lookup (Lookup.pure t a)

lemma bind (hc : Stable t c) (hf : ∀ a, Stable t (f a)) : Stable t (c >>= f) := by
  intro m
  obtain ⟨a, m₁, ds, hr₁, hg₁, hs₁⟩ := hc m
  obtain ⟨b, m₂, es, hr₂, hg₂, hs₂⟩ := hf a m₁
  refine ⟨b, m₂, ds ++ es, hr₁.bind hr₂, hg₁.trans hg₂, fun m₃ h => ?_⟩
  simpa using (hs₁ m₃ (hg₂.trans h)).bind (hs₂ m₃ h)

lemma map (g : α → β) (hc : Stable t c) : Stable t (g <$> c) := by
  rw [map_eq_pure_bind]
  exact hc.bind fun a => Stable.pure (g a)

/-- Run a second time from the memory the first run left, a stable computation gives the same
answer and leaves that memory as it is. -/
lemma run_run (h : Stable t c) (m : Memo) : c.run (c.run m).2 = c.run m := by
  obtain ⟨a, m', ds, hr, -, hs⟩ := h m
  rw [hr.run_eq]
  have hagain := (hs (m'.withLog (m.log.reportAll ds))
    (Memo.Grown.withLog_right_iff.2 (Memo.Grown.refl t m'))).run_eq
  rw [hagain]
  simp

end Stable

variable (t : Tree) (cfg : Config)

/-- A type, once found, is given again. -/
theorem stable_getType (n : Nat) : Stable t (getType t cfg n) := by
  intro m
  cases hn : m.types[n]? with
  | some ty =>
    exact ⟨ty, m, [], runs_getType_memo hn, Memo.Grown.refl t m,
      fun m₂ h => runs_getType_memo (h.type_kept n ty hn)⟩
  | none =>
    obtain ⟨ty, m₁, ds, hr, hg⟩ := (grows_checkBlock t cfg).2.2.2 n m
    refine ⟨ty, _, ds, runs_getType_infer hn hr, hg.insertType hn, fun m₂ h => ?_⟩
    have hty : m₂.types[n]? = some ty := h.type_kept n ty (by simp)
    exact runs_getType_memo hty

/-- A node, once checked, is not checked again. -/
theorem stable_check (n : Nat) : Stable t (check t cfg n) := by
  intro m
  -- a marked node stays marked, and checking a marked node does nothing
  have hdone : ∀ m', m'.checked.contains n → Settled t (check t cfg n) () m' :=
    fun m' hc m₂ h => runs_check_done (h.checked_kept n hc)
  by_cases hc : m.checked.contains n
  · exact ⟨(), m, [], runs_check_done hc, Memo.Grown.refl t m, hdone m hc⟩
  have hc' : m.checked.contains n = false := Bool.eq_false_iff.2 hc
  have hmark : m.Grown t { m with checked := m.checked.insert n } :=
    (Memo.Grown.refl t m).insertChecked n
  have hmarked : ({ m with checked := m.checked.insert n } : Memo).checked.contains n := by simp
  by_cases hexpr : (t.kindAt n).isExpr
  · -- an expression is marked, then typed
    obtain ⟨ty, m₁, ds, hr, hg⟩ := (grows_checkBlock t cfg).2.2.1 n
      { m with checked := m.checked.insert n }
    exact ⟨(), m₁, ds, runs_check_expr hexpr hc' hr, hmark.trans hg,
      hdone m₁ (hg.checked_kept n hmarked)⟩
  · -- anything else is marked, then checked before, through and after its children
    obtain ⟨_, m₁, ds, hb, hg₁⟩ := (keeps_beforeChildren t n (t.kindAt n)).grown
      { m with checked := m.checked.insert n }
    obtain ⟨_, m₂, es, hr, hg₂⟩ := Keeps.forM _ (fun xr _ => grows_checkChild t cfg n xr) m₁
    obtain ⟨_, m₃, fs, ha, hg₃⟩ :=
      (keeps_afterChildren t cfg n (t.kindAt n)).grown m₂
    have hrun := runs_checkNode hc' hb hr ha
    rw [← check_of_not_expr t cfg (by simpa using hexpr)] at hrun
    have hg : ({ m with checked := m.checked.insert n } : Memo).Grown t m₃ :=
      hg₁.trans (hg₂.trans hg₃)
    exact ⟨(), m₃, _, hrun, hmark.trans hg, hdone m₃ (hg.checked_kept n hmarked)⟩

theorem stable_analyze (root : Nat) : Stable t (analyze t cfg root) := by
  unfold analyze
  split
  · exact (stable_check t cfg root).bind fun _ => Stable.pure _
  · exact Stable.pure _

/-- Preparing a scope and reading it is a lookup: once prepared, the scope of a node is settled. -/
theorem lookup_prepareScope_read (n : Nat) :
    Lookup t (do prepareScope t n; preparedScope n) := by
  intro m
  obtain ⟨_, m₁, ds, hr, hq, hp⟩ := (prepares_scopeBlock t).1 [] n m
  have hset : m₁.Prepared t n := hp List.not_mem_nil
  have hq' : Prepares t m m₁ (ds ++ []) := by
    rw [List.append_nil]
    exact hq
  refine ⟨_, m₁, ds ++ [], hr.bind (runs_preparedScope n m₁), hq', fun m₂ h => ?_,
    staysSound_of_runs_prepareScope hr⟩
  have hskip : Runs (prepareScope t n) m₂ () m₂ [] :=
    runs_prepareWithin_skip ((h.prepared hset).imp id .inl)
  have hread := hskip.bind (f := fun _ => preparedScope n) (runs_preparedScope n m₂)
  rw [h.scope_eq hset] at hread
  exact hread

end Analysis

namespace Query

variable (t : Tree) (cfg : Config)

/-- A query answered once is answered again the same way from the memory it left, and the second
time leaves that memory, its log included, exactly as it is. -/
theorem answer_idempotent (q : Query) (m : Memo) :
    (q.answer t cfg).run ((q.answer t cfg).run m).2 = (q.answer t cfg).run m := by
  cases q with
  | analyze n =>
    refine Analysis.Stable.run_run (t := t) ?_ m
    refine (Analysis.stable_analyze t cfg n).bind fun r => ?_
    cases r with
    | ok _ => exact Analysis.Stable.pure _
    | error _ => exact Analysis.Stable.pure _
  | check n =>
    exact ((Analysis.stable_check t cfg n).bind fun _ => Analysis.Stable.pure _).run_run m
  | getType n => exact ((Analysis.stable_getType t cfg n).map _).run_run m
  | typeOf n => rfl
  | prepareScope n =>
    have h := (Analysis.lookup_prepareScope_read t n).bind fun s =>
      Analysis.Lookup.pure t (Reply.bindings? (s.map Scope.bindings))
    simp only [bind_assoc] at h
    exact (Analysis.Stable.of_lookup h).run_run m
  | scope n => rfl
  | findDecl n name deep =>
    exact (Analysis.Stable.of_lookup ((Analysis.lookup_findDecl t name deep n).map _)).run_run m
  | isClassScope n deep =>
    exact (Analysis.Stable.of_lookup ((Analysis.lookup_isClassScope t n deep).map _)).run_run m
  | enclosingClass n => rfl
  | enclosingFunction n => rfl
  | superclassOf n =>
    exact (Analysis.Stable.of_lookup ((Analysis.lookup_superclassOf t n).map _)).run_run m
  | isSubclassOf sub sup =>
    exact (Analysis.Stable.of_lookup ((Analysis.lookup_isSubclassOf t sub sup).map _)).run_run m
  | implementsIface c i =>
    exact (Analysis.Stable.of_lookup ((Analysis.lookup_implementsIface t c i).map _)).run_run m
  | resolveNamed n name =>
    exact (Analysis.Stable.of_lookup ((Analysis.lookup_resolveNamed t n name).map _)).run_run m
  | equivalent a b n =>
    exact (Analysis.Stable.of_lookup ((Analysis.lookup_equivalent t n a b).map _)).run_run m
  | compatible a b n =>
    exact (Analysis.Stable.of_lookup ((Analysis.lookup_compatible t n a b).map _)).run_run m
  | state => rfl

end Query

end DecafCheck
