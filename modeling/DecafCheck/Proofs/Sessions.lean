import DecafCheck.Proofs.Acceptance
/-!
# Sessions keep the reference scopes

An analyser answers queries in order on one memory (`Query.session`); the memories it passes
through are those a session reaches (`Memo.Reached`). Every query prepares scopes only through the
preparation block, directly or through the lookups and checks built on it, so on a consistent tree
with acyclic superclasses every query keeps the prepared scopes reference scopes
(`staysSound_answer`), and so does every session from a fresh memory, where no scope is prepared
(`Memo.Reached.scopesSound`).

From every memory a session reaches, then, preparing the scope of a node builds its reference
scope, and a deep lookup finds what the reference lookup finds (`scopes_follow_reference`).
-/

namespace DecafCheck

/-- The memories a session reaches: what answering some queries in order on a fresh analyser
leaves. -/
def Memo.Reached (t : Tree) (cfg : Config) (m : Memo) : Prop :=
  ∃ qs : List Query, ((qs.mapM (Query.answered t cfg)).run (Memo.fresh cfg.errorLimit)).2 = m

namespace Analysis

variable {α : Type} {t : Tree} {c : AnalysisM α}

/-- The memory a run ends with keeps reference scopes. -/
lemma Keeps.staysSound_run (h : Keeps (Memo.StaysSound t) c) (m : Memo) :
    m.StaysSound t (c.run m).2 := by
  obtain ⟨a, m', ds, hr, hs⟩ := h m
  rw [hr.run_eq]
  exact hs.trans (.of_scopes_eq rfl)

lemma Lookup.staysSound_run (h : Lookup t c) (m : Memo) : m.StaysSound t (c.run m).2 :=
  (h.keeps.mono fun _ _ hg => hg.sound).staysSound_run m

variable (t : Tree) (cfg : Config)

/-- Analysing a program prepares only reference scopes. -/
lemma staysSound_analyze (root : Nat) : Keeps (Memo.StaysSound t) (analyze t cfg root) := by
  unfold analyze
  split
  · exact ((staysSound_checkBlock t cfg).1 root).bind fun _ => Keeps.pure _
  · exact Keeps.pure _

/-- Answering a query prepares only reference scopes. -/
theorem staysSound_answer (q : Query) (m : Memo) :
    m.StaysSound t ((q.answer t cfg).run m).2 := by
  cases q with
  | analyze n =>
    refine Keeps.staysSound_run ((staysSound_analyze t cfg n).bind fun r => ?_) m
    cases r with
    | ok _ => exact Keeps.pure _
    | error _ => exact Keeps.pure _
  | check n =>
    exact (((staysSound_checkBlock t cfg).1 n).bind fun _ => Keeps.pure _).staysSound_run m
  | getType n => exact (((staysSound_checkBlock t cfg).2.2.1 n).map _).staysSound_run m
  | typeOf n => exact Memo.StaysSound.refl t m
  | prepareScope n =>
    have h := (lookup_prepareScope t n).keeps.bind fun _ =>
      (keeps_preparedScope t n).bind fun s => Keeps.pure (Reply.bindings? (s.map Scope.bindings))
    exact (h.mono fun _ _ hg => hg.sound).staysSound_run m
  | scope n => exact Memo.StaysSound.refl t m
  | findDecl n name deep => exact ((lookup_findDecl t name deep n).map _).staysSound_run m
  | isClassScope n deep => exact ((lookup_isClassScope t n deep).map _).staysSound_run m
  | enclosingClass n => exact Memo.StaysSound.refl t m
  | enclosingFunction n => exact Memo.StaysSound.refl t m
  | superclassOf n => exact ((lookup_superclassOf t n).map _).staysSound_run m
  | isSubclassOf sub sup => exact ((lookup_isSubclassOf t sub sup).map _).staysSound_run m
  | implementsIface c i => exact ((lookup_implementsIface t c i).map _).staysSound_run m
  | resolveNamed n name => exact ((lookup_resolveNamed t n name).map _).staysSound_run m
  | equivalent a b n => exact ((lookup_equivalent t n a b).map _).staysSound_run m
  | compatible a b n => exact ((lookup_compatible t n a b).map _).staysSound_run m
  | state => exact Memo.StaysSound.refl t m

/-- A session prepares only reference scopes: each answer keeps them, one after the other. -/
theorem staysSound_session (qs : List Query) (m : Memo) :
    m.StaysSound t ((qs.mapM (Query.answered t cfg)).run m).2 := by
  induction qs generalizing m with
  | nil => exact Memo.StaysSound.refl t m
  | cons q qs ih =>
    rw [List.mapM_cons]
    -- answering a query reads the log around the answer and changes nothing else
    have hq : m.StaysSound t ((q.answered t cfg).run m).2 := staysSound_answer t cfg q m
    exact hq.trans (ih _)

end Analysis

/-- On a consistent tree with acyclic superclasses, every memory a session reaches has reference
scopes only. -/
lemma Memo.Reached.scopesSound {t : Tree} {cfg : Config} {m : Memo} (hcons : t.Consistent)
    (hacyc : t.SuperAcyclic) (h : m.Reached t cfg) : m.ScopesSound t := by
  obtain ⟨qs, rfl⟩ := h
  exact Analysis.staysSound_session t cfg qs _ hcons hacyc (Memo.ScopesSound.fresh _)

namespace Analysis

variable {t : Tree} {cfg : Config}

/-- On a consistent tree (as every tree a script builds is, `Script.run_consistent`) with acyclic
superclasses, from every memory a session reaches: preparing the scope of `n` leaves there the
reference scope of `n` and keeps every prepared scope a reference one; when the scope was not
prepared yet it reports first the conflicts among `n`'s own entries, in order, and after them only
conflicts among the entries of other scopes, so inherited names never conflict. A deep lookup
finds what the reference lookup finds. -/
theorem scopes_follow_reference (hcons : t.Consistent) (hacyc : t.SuperAcyclic) {m : Memo}
    (hm : m.Reached t cfg) :
    (∀ n, ∃ m' ds, Runs (prepareScope t n) m () m' ds ∧ m'.ScopesSound t ∧
      ∀ es, (t.kindAt n).scopeEntries? = some es →
        (∃ s, m'.scopes[n]? = some s ∧ t.ScopeIs n s.lookup) ∧
        ∃ rest, ds = (if m.scopes.contains n then [] else t.ownConflicts es ++ rest) ∧
          ∀ d ∈ rest, ∃ k es', k ≠ n ∧ (t.kindAt k).scopeEntries? = some es' ∧
            d ∈ t.ownConflicts es') ∧
    ∀ n x, ∃ r m' ds, Runs (findDecl t n x true) m r m' ds ∧ m'.ScopesSound t ∧
      t.FindsIs n x r :=
  scopes_follow_reference_of_sound hcons hacyc (hm.scopesSound hcons hacyc)

/-- Three classes, each extending the one before and the last hiding an inherited field: their
tree is consistent, each class extends one built before it, and a fresh analyser's memory is
reached by the empty session. -/
theorem inheritedFields_scopes_follow_reference :
    Tree.inheritedFields.Consistent ∧ Tree.inheritedFields.SuperAcyclic ∧
      (Memo.fresh none).Reached Tree.inheritedFields {} ∧
      (∀ n, ∃ m' ds, Runs (prepareScope Tree.inheritedFields n) (Memo.fresh none) () m' ds ∧
          m'.ScopesSound Tree.inheritedFields ∧
        ∀ es, (Tree.inheritedFields.kindAt n).scopeEntries? = some es →
          (∃ s, m'.scopes[n]? = some s ∧ Tree.inheritedFields.ScopeIs n s.lookup) ∧
          ∃ rest, ds = (if (Memo.fresh none).scopes.contains n then []
              else Tree.inheritedFields.ownConflicts es ++ rest) ∧
            ∀ d ∈ rest, ∃ k es', k ≠ n ∧ (Tree.inheritedFields.kindAt k).scopeEntries? = some es' ∧
              d ∈ Tree.inheritedFields.ownConflicts es') ∧
      ∀ n x, ∃ r m' ds, Runs (findDecl Tree.inheritedFields n x true) (Memo.fresh none) r m' ds ∧
        m'.ScopesSound Tree.inheritedFields ∧ Tree.inheritedFields.FindsIs n x r := by
  have hcons : Tree.inheritedFields.Consistent := by decide
  have hacyc : Tree.inheritedFields.SuperAcyclic := Tree.superAcyclic_of_rank id (by decide)
  have hm : (Memo.fresh none).Reached Tree.inheritedFields {} := ⟨[], rfl⟩
  exact ⟨hcons, hacyc, hm, scopes_follow_reference hcons hacyc hm⟩

end Analysis

end DecafCheck
