import DecafCheck.Proofs.Settling
/-!
# Sessions do not depend on the order of their queries

On a consistent tree with acyclic superclasses every query settles: from a memo that is good at
every rank (`Memo.Settled`) it adds to what is done the footprint it has from the blank memo, and
reports its residue with the own reports of each item it does first (`settling_answer`). A session
answers its queries one after the other, so it ends with everything done that one of its queries
does, having reported the residues of its queries and the own reports of everything done
(`session_settles`). Neither depends on the order of the queries: two orders of one list end with
the same types, scopes and checked nodes and the same number of reports, and without an error limit
with the same records up to their order (`session_order_irrelevant`).

An error limit is the exception. The log keeps only the first reports, and which reports come
first depends on the order of the queries: typing two undeclared variables, each standing alone,
in the two orders with room for one record keeps different records
(`errorLimit_records_depend_on_order`).
-/

namespace DecafCheck

/-- The memory a session ends with: the queries `qs` answered in order on a fresh analyser. -/
def Query.sessionEnd (t : Tree) (cfg : Config) (qs : List Query) : Memo :=
  ((qs.mapM (Query.answered t cfg)).run (Memo.fresh cfg.errorLimit)).2

namespace Query

variable {t : Tree} {cfg : Config}

/-- Answering a query changes the memory as the answer does; the rest only reads the log. -/
lemma mapM_answered_run_snd (q : Query) (qs : List Query) (m : Memo) :
    (((q :: qs).mapM (answered t cfg)).run m).2 =
      ((qs.mapM (answered t cfg)).run ((q.answer t cfg).run m).2).2 := by
  simp [List.mapM_cons, answered, StateT.run_bind]
  rfl

end Query

/-- Good at every rank: whatever checking any node marked checked does is done. -/
def Memo.Settled (t : Tree) (cfg : Config) (m : Memo) : Prop := ∀ b, m.Good t cfg b

namespace Memo

variable {t : Tree} {cfg : Config} {m₁ m₂ : Memo} {b₁ b₂ : Nat}

lemma Settled.fresh (t : Tree) (cfg : Config) (limit : Option Nat) :
    (Memo.fresh limit).Settled t cfg := fun b =>
  show (({} : Memo).withLog (Log.withLimit limit)).Good t cfg b from
    Good.withLog_iff.2 (Good.blank t cfg b)

/-- Two good memos that have done the same have found the same types. -/
lemma Good.types_eq_of_done (h₁ : m₁.Good t cfg b₁) (h₂ : m₂.Good t cfg b₂)
    (hd : m₁.done = m₂.done) (n : Nat) : m₁.types[n]? = m₂.types[n]? := by
  have hc : m₁.types.contains n = m₂.types.contains n := by
    rw [Bool.eq_iff_iff, ← typed_mem_done, ← typed_mem_done, hd]
  cases hty₁ : m₁.types[n]? with
  | none =>
    rw [Std.TreeMap.contains_eq_isSome_getElem?, Std.TreeMap.contains_eq_isSome_getElem?,
      hty₁] at hc
    exact (Option.not_isSome_iff_eq_none.1 (by simp [← hc])).symm
  | some ty =>
    rw [Std.TreeMap.contains_eq_isSome_getElem?, Std.TreeMap.contains_eq_isSome_getElem?,
      hty₁] at hc
    obtain ⟨ty', hty₂⟩ := Option.isSome_iff_exists.1 hc.symm
    rw [hty₂, h₁.types n ty hty₁, h₂.types n ty' hty₂]

/-- Two good memos that have done the same have prepared the same scopes. -/
lemma Good.scopes_eq_of_done (h₁ : m₁.Good t cfg b₁) (h₂ : m₂.Good t cfg b₂)
    (hd : m₁.done = m₂.done) (n : Nat) : m₁.scopes[n]? = m₂.scopes[n]? := by
  have hc : m₁.scopes.contains n = m₂.scopes.contains n := by
    rw [Bool.eq_iff_iff, ← scope_mem_done, ← scope_mem_done, hd]
  cases hs₁ : m₁.scopes[n]? with
  | none =>
    rw [Std.TreeMap.contains_eq_isSome_getElem?, Std.TreeMap.contains_eq_isSome_getElem?,
      hs₁] at hc
    exact (Option.not_isSome_iff_eq_none.1 (by simp [← hc])).symm
  | some s =>
    rw [Std.TreeMap.contains_eq_isSome_getElem?, Std.TreeMap.contains_eq_isSome_getElem?,
      hs₁] at hc
    obtain ⟨s', hs₂⟩ := Option.isSome_iff_exists.1 hc.symm
    rw [hs₂, (h₁.built n s hs₁).unique (h₂.built n s' hs₂)]

end Memo

namespace Analysis

variable {α : Type} {t : Tree} {cfg : Config} {b : Nat} {c : AnalysisM α} {m : Memo}

/-- From a settled memo a settling computation ends settled. -/
lemma Settles.run_settled (hc : Settles t cfg b c) (hm : m.Settled t cfg) :
    ∃ m' ds, Runs c m (answerOf c) m' ds ∧ m'.Settled t cfg ∧ m'.done = m.done ∪ footprint c ∧
      (ds : Multiset Diagnostic) =
        residue c + ∑ i ∈ m'.done \ m.done, (ownReports t cfg i : Multiset Diagnostic) := by
  obtain ⟨m', ds, hr, -, hd, hds⟩ := hc.2 m (hm b)
  refine ⟨m', ds, hr, fun b' => ?_, hd, hds⟩
  -- the same run, seen at a rank above both
  obtain ⟨m'', ds', hr', hg', -⟩ := (hc.mono (le_max_left b b')).2 m (hm _)
  obtain ⟨-, -, he⟩ := hr.unique hr'
  have hm' : m' = m''.withLog m'.log := by simpa using he m'.log
  rw [hm']
  exact (Memo.Good.withLog_iff.2 hg').mono (le_max_right b b')

end Analysis

open Analysis

/-- A query settles: from every settled memo it ends settled, adds its footprint to what is done,
and reports its residue and the own reports of everything it does first. -/
def Query.Settling (t : Tree) (cfg : Config) (q : Query) : Prop :=
  ∀ m : Memo, m.Settled t cfg → ∃ (m' : Memo) (ds : List Diagnostic),
    (∀ log, ((q.answer t cfg).run (m.withLog log)).2 = m'.withLog (log.reportAll ds)) ∧
    m'.Settled t cfg ∧ m'.done = m.done ∪ footprint (q.answer t cfg) ∧
    (ds : Multiset Diagnostic) = residue (q.answer t cfg) +
      ∑ i ∈ m'.done \ m.done, (ownReports t cfg i : Multiset Diagnostic)

namespace Query

variable {t : Tree} {cfg : Config} {q : Query}

lemma settling_of_settles {b : Nat} (hc : Settles t cfg b (q.answer t cfg)) : q.Settling t cfg := by
  intro m hm
  obtain ⟨m', ds, hr, hs, hd, hds⟩ := hc.run_settled hm
  exact ⟨m', ds, fun log => by rw [hr log], hs, hd, hds⟩

/-- A query that only reads the memory settles, doing nothing. -/
lemma settling_of_reads (h : ∀ (m : Memo) (log : Log), ((q.answer t cfg).run (m.withLog log)).2 = m.withLog log) :
    q.Settling t cfg := by
  have hblank : ((q.answer t cfg).run {}).2 = {} := h {} {}
  have hfoot : footprint (q.answer t cfg) = ∅ := by
    rw [footprint, hblank, Memo.done_blank]
  have hres : residue (q.answer t cfg) = [] := by
    rw [residue, hblank, h]
    rfl
  intro m hm
  refine ⟨m, [], fun log => by rw [h, Log.reportAll_nil], hm, by rw [hfoot, Finset.union_empty], ?_⟩
  simp [hres]

variable (t cfg) (hcons : t.Consistent) (hacyc : t.SuperAcyclic)
include hcons hacyc

/-- On a consistent tree with acyclic superclasses, every query settles. -/
theorem settling_answer (q : Query) : q.Settling t cfg := by
  have hblock := settles_checkBlock cfg hcons hacyc
  have h := stepwise_settles cfg hcons hacyc
  cases q with
  | analyze n =>
    refine settling_of_settles (b := t.checkRank n + 1) ((?_ : Settles t cfg _ _).bind fun r => ?_)
    · unfold Analysis.analyze
      split
      · exact (hblock.1 n).bind fun _ => Settles.pure t cfg _ _
      · exact Settles.pure t cfg _ _
    · cases r <;> exact Settles.pure t cfg _ _
  | check n => exact settling_of_settles ((hblock.1 n).bind fun _ => Settles.pure t cfg _ _)
  | getType n => exact settling_of_settles ((h _).map _ (hblock.2.2.1 n))
  | typeOf n => exact settling_of_reads fun _ _ => rfl
  | prepareScope n =>
    refine settling_of_settles (b := 0) ?_
    show Settles t cfg 0 (Analysis.prepareScope t n >>= fun _ =>
      DecafCheck.preparedScope n >>= fun s => pure (Reply.bindings? (s.map Scope.bindings)))
    rw [← bind_assoc]
    exact ((h 0).prepared n).bind fun _ => Settles.pure t cfg _ _
  | scope n => exact settling_of_reads fun _ _ => rfl
  | findDecl n x deep => exact settling_of_settles ((h 0).map _ ((h 0).find n x deep))
  | isClassScope n deep => exact settling_of_settles ((h 0).map _ ((h 0).isClassScope n deep))
  | enclosingClass n => exact settling_of_reads fun _ _ => rfl
  | enclosingFunction n => exact settling_of_reads fun _ _ => rfl
  | superclassOf c => exact settling_of_settles ((h 0).map _ ((h 0).super c))
  | isSubclassOf sub sup => exact settling_of_settles ((h 0).map _ ((h 0).isSubclassOf sub sup))
  | implementsIface c i => exact settling_of_settles ((h 0).map _ ((h 0).implementsIface c i))
  | resolveNamed n name => exact settling_of_settles ((h 0).map _ ((h 0).resolveNamed n name))
  | equivalent a b n => exact settling_of_settles ((h 0).map _ ((h 0).equivalent n a b))
  | compatible a b n => exact settling_of_settles ((h 0).map _ ((h 0).compatible n a b))
  | state => exact settling_of_reads fun _ _ => rfl

/-- A session from a settled memo, whatever its log: it ends settled with everything done that
one of its queries does, having reported the residues of its queries and the own reports of each
item it did. -/
theorem session_settles (qs : List Query) {m : Memo} (hm : m.Settled t cfg) :
    ∃ (M : Memo) (ds : List Diagnostic), (∀ log, ((qs.mapM (answered t cfg)).run (m.withLog log)).2 =
        M.withLog (log.reportAll ds)) ∧ M.Settled t cfg ∧
      (∀ i, i ∈ M.done ↔ i ∈ m.done ∨ ∃ q ∈ qs, i ∈ footprint (q.answer t cfg)) ∧
      (ds : Multiset Diagnostic) = (qs.map fun q => (residue (q.answer t cfg) : Multiset Diagnostic)).sum +
        ∑ i ∈ M.done \ m.done, (ownReports t cfg i : Multiset Diagnostic) := by
  induction qs generalizing m with
  | nil =>
    refine ⟨m, [], fun log => rfl, hm, fun i => by simp, by simp⟩
  | cons q qs ih =>
    -- the first query, then the rest from where it ends
    obtain ⟨m₁, ds, hr, hm₁, hd₁, hds⟩ := settling_answer t cfg hcons hacyc q m hm
    obtain ⟨M, es, hrs, hM, hdM, hes⟩ := ih hm₁
    have hsub₁ : m.done ⊆ m₁.done := hd₁ ▸ Finset.subset_union_left
    have hsub₂ : m₁.done ⊆ M.done := fun i hi => (hdM i).2 (.inl hi)
    refine ⟨M, ds ++ es, fun log => ?_, hM, fun i => ?_, ?_⟩
    · rw [mapM_answered_run_snd, hr, hrs, Log.reportAll_append]
    · rw [hdM, hd₁, Finset.mem_union]
      simp only [List.mem_cons, exists_eq_or_imp]
      exact or_assoc
    · rw [← Multiset.coe_add, hds, hes, Finset.sum_sdiff_trans _ hsub₁ hsub₂, List.map_cons,
        List.sum_cons]
      rw [add_add_add_comm, add_assoc]

/-- On a consistent tree with acyclic superclasses, two sessions asking the same queries in two
orders end with the same types found, the same scopes prepared, the same nodes checked and the same
number of reports; without an error limit they record the same diagnostics, up to their order. -/
theorem session_order_irrelevant {qs qs' : List Query} (hperm : qs.Perm qs') :
    (∀ n : Nat, (sessionEnd t cfg qs).types[n]? = (sessionEnd t cfg qs').types[n]?) ∧
      (∀ n : Nat, (sessionEnd t cfg qs).scopes[n]? = (sessionEnd t cfg qs').scopes[n]?) ∧
      (∀ n, (sessionEnd t cfg qs).checked.contains n = (sessionEnd t cfg qs').checked.contains n) ∧
      (sessionEnd t cfg qs).log.count = (sessionEnd t cfg qs').log.count ∧
      (cfg.errorLimit = none → ((sessionEnd t cfg qs).log.records : Multiset Diagnostic) =
        (sessionEnd t cfg qs').log.records) := by
  have hfresh := Memo.Settled.fresh t cfg cfg.errorLimit
  obtain ⟨M, ds, hr, hM, hdM, hds⟩ := session_settles t cfg hcons hacyc qs hfresh
  obtain ⟨M', ds', hr', hM', hdM', hds'⟩ := session_settles t cfg hcons hacyc qs' hfresh
  -- both end with the union of the footprints, and report the same
  have hdone : M.done = M'.done := by
    ext i
    rw [hdM, hdM']
    simp only [hperm.mem_iff]
  have hreports : (ds : Multiset Diagnostic) = ds' := by
    rw [hds, hds', hdone, (hperm.map _).sum_eq]
  have hend : sessionEnd t cfg qs = M.withLog ((Log.withLimit cfg.errorLimit).reportAll ds) :=
    hr _
  have hend' : sessionEnd t cfg qs' = M'.withLog ((Log.withLimit cfg.errorLimit).reportAll ds') :=
    hr' _
  refine ⟨fun n => ?_, fun n => ?_, fun n => ?_, ?_, fun hlim => ?_⟩
  · rw [hend, hend']
    exact (hM 0).types_eq_of_done (hM' 0) hdone n
  · rw [hend, hend']
    exact (hM 0).scopes_eq_of_done (hM' 0) hdone n
  · rw [hend, hend']
    show M.checked.contains n = M'.checked.contains n
    rw [Bool.eq_iff_iff, ← Memo.checked_mem_done, ← Memo.checked_mem_done, hdone]
  · rw [hend, hend']
    simp only [Memo.withLog_log, Log.count_reportAll]
    rw [← Multiset.coe_card, ← Multiset.coe_card ds', hreports]
  · rw [hend, hend']
    simp only [Memo.withLog_log]
    rw [Log.records_reportAll_of_limit_none (by simp [Log.withLimit, hlim]),
      Log.records_reportAll_of_limit_none (by simp [Log.withLimit, hlim])]
    exact Multiset.coe_eq_coe.2 ((Multiset.coe_eq_coe.1 hreports).append_left _)

end Query

/-! ## An error limit keeps the first reports -/

namespace Analysis

variable {t : Tree} {cfg : Config} {m : Memo} {n : Nat} {name : Ident}

/-- A variable standing alone, in no enclosing node, finds no declaration: it is reported and typed
as the error type. -/
lemma runs_getType_lone_var (hk : t.kindAt n = .expr (.field none name))
    (hp : t.parentOf n = none) (hn : m.types[n]? = none) (hs : m.scopes[n]? = none) :
    Runs (getType t cfg n) m .error { m with types := m.types.insert n .error }
      [⟨name.span, .notDeclared name.name .var⟩] := by
  refine runs_getType_infer hn ?_
  rw [infer_expr t cfg hk, operandTypes_of_children_nil (by rw [hk]; rfl)]
  -- the lookup stops at once: the variable owns no scope and has no parent
  have hfind : Runs (findDecl t n name.name true) m none m [] :=
    runs_findWithin_stop (runs_prepareWithin_skip (.inr (.inl (by rw [hk]; rfl))))
      (by simp [hs]) (.inr hp)
  refine (Runs.pure [] m).bind ?_
  unfold ownType
  simp only [List.any_nil, Bool.false_eq_true, if_false]
  show Runs (varType t n name) m _ _ _
  unfold varType
  exact Runs.bind_eq hfind ((Runs.report _ _).bind (Runs.pure _ m)) rfl

end Analysis

namespace Query

open Analysis

variable {t : Tree} {cfg : Config}

/-- The answer to typing a lone undeclared variable. -/
lemma runs_answer_lone_var {m : Memo} {n : Nat} {name : Ident}
    (hk : t.kindAt n = .expr (.field none name)) (hp : t.parentOf n = none)
    (hn : m.types[n]? = none) (hs : m.scopes[n]? = none) :
    Runs ((getType n).answer t cfg) m (.type .error) { m with types := m.types.insert n .error }
      [⟨name.span, .notDeclared name.name .var⟩] := by
  show Runs (Reply.type <$> Analysis.getType t cfg n) m _ _ _
  rw [map_eq_pure_bind]
  exact Runs.bind_eq (runs_getType_lone_var hk hp hn hs) (Runs.pure _ _) (List.append_nil _)

/-- With room for one record, a session typing two lone undeclared variables keeps the report of
the first only. -/
lemma records_lone_vars {i j : Nat} {x y : Ident} (hij : i ≠ j)
    (hi : t.kindAt i = .expr (.field none x)) (hj : t.kindAt j = .expr (.field none y))
    (hpi : t.parentOf i = none) (hpj : t.parentOf j = none) (hlim : cfg.errorLimit = some 1) :
    (sessionEnd t cfg [.getType i, .getType j]).log.records = [⟨x.span, .notDeclared x.name .var⟩] := by
  unfold sessionEnd
  generalize hm₀ : Memo.fresh cfg.errorLimit = m₀
  have h₁ : Runs ((getType i).answer t cfg) m₀ _ _ _ :=
    runs_answer_lone_var hi hpi (by rw [← hm₀]; rfl) (by rw [← hm₀]; rfl)
  have hj₁ : ({ m₀ with types := m₀.types.insert i .error } : Memo).types[j]? = none := by
    simp [← hm₀, Memo.fresh, hij]
  have h₂ : Runs ((getType j).answer t cfg) _ _ _ _ :=
    runs_answer_lone_var hj hpj hj₁ (by rw [← hm₀]; rfl)
  rw [mapM_answered_run_snd, h₁.run_eq, mapM_answered_run_snd, h₂]
  -- the first report fills the log: the second is only counted
  simp [← hm₀, hlim, Memo.fresh, Log.report, Log.hasRoom, Log.withLimit]
  rfl

end Query

/-- Two undeclared variables `u` and `v`, each standing alone. -/
def loneVariables : Tree where
  nodes := #[⟨Span.point 1 1, none, .expr (.field none ⟨"u", Span.point 1 1⟩)⟩,
    ⟨Span.point 2 1, none, .expr (.field none ⟨"v", Span.point 2 1⟩)⟩]
  children_lt := by
    intro i hi c hc
    rcases i with _ | _ | i
    · cases hc
    · cases hc
    · exact absurd hi (by simp)
  parent_gt := by
    intro i hi p hp
    rcases i with _ | _ | i
    · cases hp
    · cases hp
    · exact absurd hi (by simp)

namespace Query

/-- Analysing the program of three classes and asking whether `C` extends `A`, in either order,
ends alike in all but the kept records. -/
theorem inheritedFields_order_irrelevant :
    Tree.inheritedFields.Consistent ∧ Tree.inheritedFields.SuperAcyclic ∧
      [analyze 6, isSubclassOf 5 1].Perm [isSubclassOf 5 1, analyze 6] ∧
      ((∀ n : Nat,
          (sessionEnd Tree.inheritedFields {} [analyze 6, isSubclassOf 5 1]).types[n]? =
            (sessionEnd Tree.inheritedFields {} [isSubclassOf 5 1, analyze 6]).types[n]?) ∧
        (∀ n : Nat,
          (sessionEnd Tree.inheritedFields {} [analyze 6, isSubclassOf 5 1]).scopes[n]? =
            (sessionEnd Tree.inheritedFields {} [isSubclassOf 5 1, analyze 6]).scopes[n]?) ∧
        (∀ n,
          (sessionEnd Tree.inheritedFields {} [analyze 6, isSubclassOf 5 1]).checked.contains n =
            (sessionEnd Tree.inheritedFields {} [isSubclassOf 5 1, analyze 6]).checked.contains n) ∧
        (sessionEnd Tree.inheritedFields {} [analyze 6, isSubclassOf 5 1]).log.count =
          (sessionEnd Tree.inheritedFields {} [isSubclassOf 5 1, analyze 6]).log.count ∧
        (({} : Config).errorLimit = none →
          ((sessionEnd Tree.inheritedFields {} [analyze 6, isSubclassOf 5 1]).log.records :
              Multiset Diagnostic) =
            (sessionEnd Tree.inheritedFields {} [isSubclassOf 5 1, analyze 6]).log.records)) := by
  have hcons : Tree.inheritedFields.Consistent := by decide
  have hacyc : Tree.inheritedFields.SuperAcyclic := Tree.superAcyclic_of_rank id (by decide)
  have hperm : [analyze 6, isSubclassOf 5 1].Perm [isSubclassOf 5 1, analyze 6] := .swap _ _ _
  exact ⟨hcons, hacyc, hperm, session_order_irrelevant Tree.inheritedFields {} hcons hacyc hperm⟩

/-- Under an error limit the records do depend on the order: with room for one record, typing the
two lone variables keeps the report of whichever is typed first. -/
theorem errorLimit_records_depend_on_order :
    loneVariables.Consistent ∧ loneVariables.SuperAcyclic ∧
      [getType 0, getType 1].Perm [getType 1, getType 0] ∧
      ((sessionEnd loneVariables { errorLimit := some 1 } [getType 0, getType 1]).log.records :
          Multiset Diagnostic) ≠
        (sessionEnd loneVariables { errorLimit := some 1 } [getType 1, getType 0]).log.records := by
  refine ⟨by decide, Tree.superAcyclic_of_no_class (by decide), .swap _ _ _, ?_⟩
  rw [records_lone_vars (by decide) rfl rfl rfl rfl rfl,
    records_lone_vars (by decide) rfl rfl rfl rfl rfl, Ne, Multiset.coe_eq_coe,
    List.singleton_perm]
  decide

end Query

end DecafCheck
