import DecafCheck.Proofs.QueryOrder
/-!
# Relations between memories that every query keeps

Many facts about the analyser are of one shape: a relation `R` between the memory before and the
memory after holds of every step. When `R` is a preorder that the basic steps keep (answering,
reporting, and the lookups of `Stepwise`), and marking a node checked or recording a new type keeps
it too, then checking and typing keep it (`Analysis.Stepwise.keeps_checkBlock`), and so does
answering every query (`Query.keeps_answer`) and every session (`Query.keeps_session`).

At the level of queries the statement also says that the log is written and never read: whatever
log the memory carries, a query ends with the same tables and adds the same reports. The one query
that reads the log, `state`, changes nothing.

Growth of the memo is the first such relation (`Analysis.stepwise_grows`).
-/

namespace DecafCheck

namespace Analysis

variable {t : Tree} (cfg : Config) {R : Memo → Memo → Prop} [IsPreorder Memo R]

/-- A preorder on memories that every step keeps, and that marking a node checked and recording
the type inferred for a node not typed before keep, is kept by checking and typing every node. -/
theorem Stepwise.keeps_checkBlock_of_infer (h : Stepwise t (Keeps R))
    (hmark : ∀ m n, R m { m with checked := m.checked.insert n })
    (htype : ∀ m m₁ n ty ds, m.types[n]? = none → Runs (infer t cfg n) m ty m₁ ds → R m m₁ →
      R m { m₁ with types := m₁.types.insert n ty }) :
    (∀ n, Keeps R (check t cfg n)) ∧ (∀ n, Keeps R (getType t cfg n)) := by
  obtain ⟨hcheck, -, hget, -⟩ := Stepwise.checkBlock t cfg (P := fun _ => Keeps R)
    (fun _ => h) (fun _ h => h)
    -- a type is found once and remembered
    (fun n hi m => by
      cases hty : m.types[n]? with
      | some ty => exact ⟨ty, m, [], runs_getType_memo hty, refl_of R m⟩
      | none =>
        obtain ⟨ty, m₁, ds, hr, hq⟩ := hi m
        exact ⟨ty, _, ds, runs_getType_infer hty hr, htype m m₁ n ty ds hty hr hq⟩)
    -- an expression is marked, then typed
    (fun n hexpr hg m => by
      by_cases hc : m.checked.contains n
      · exact ⟨(), m, [], runs_check_done hc, refl_of R m⟩
      · obtain ⟨_, m₁, ds, hr, hq⟩ := hg { m with checked := m.checked.insert n }
        exact ⟨(), m₁, ds, runs_check_expr hexpr (Bool.eq_false_iff.2 hc) hr,
          trans_of R (hmark m n) hq⟩)
    -- anything else is marked, then checked before, through and after its children
    (fun n _ hb m => by
      by_cases hc : m.checked.contains n
      · exact ⟨(), m, [], runs_checkNode_done hc, refl_of R m⟩
      · obtain ⟨_, m₁, ds, hr, hq⟩ := hb { m with checked := m.checked.insert n }
        exact ⟨(), m₁, ds, runs_checkNode_body (Bool.eq_false_iff.2 hc) hr,
          trans_of R (hmark m n) hq⟩)
  exact ⟨hcheck, hget⟩

/-- A preorder on memories that every step keeps, and that marking a node checked and recording a
type not found before keep, is kept by checking and typing every node. -/
theorem Stepwise.keeps_checkBlock (h : Stepwise t (Keeps R))
    (hmark : ∀ m n, R m { m with checked := m.checked.insert n })
    (htype : ∀ m m₁ n ty, m.types[n]? = none → R m m₁ →
      R m { m₁ with types := m₁.types.insert n ty }) :
    (∀ n, Keeps R (check t cfg n)) ∧ (∀ n, Keeps R (getType t cfg n)) :=
  h.keeps_checkBlock_of_infer cfg hmark fun m m₁ n ty _ hn _ hR => htype m m₁ n ty hn hR

/-- Every step grows the memo. -/
theorem stepwise_grows : Stepwise t (Keeps (Memo.Grown t)) where
  pure a := Keeps.pure a
  bind hc hf := hc.bind hf
  report span _ _ := Keeps.report span _
  prepare n := (lookup_prepareScope t n).keeps.grown
  prepared n := (lookup_prepareScope_read t n).keeps.grown
  find n x deep := (lookup_findDecl t x deep n).keeps.grown
  super c := (lookup_superclassOf t c).keeps.grown

end Analysis

namespace Query

open Analysis

variable {t : Tree} {cfg : Config} {R : Memo → Memo → Prop} {q : Query}

/-- Answering `q` from any memory `m`, whatever its log, ends with the tables of one memory `m'`
that `R` relates `m` to, and adds the same reports to the log. -/
def Keeps (R : Memo → Memo → Prop) (t : Tree) (cfg : Config) (q : Query) : Prop :=
  ∀ m : Memo, ∃ (m' : Memo) (ds : List Diagnostic),
    (∀ log, ((q.answer t cfg).run (m.withLog log)).2 = m'.withLog (log.reportAll ds)) ∧ R m m'

lemma keeps_of_steps (hc : Analysis.Keeps R (q.answer t cfg)) : q.Keeps R t cfg := by
  intro m
  obtain ⟨_, m', ds, hr, hq⟩ := hc m
  exact ⟨m', ds, fun log => by rw [hr log], hq⟩

/-- A query that only reads the memory changes nothing. -/
lemma keeps_of_reads [IsPreorder Memo R]
    (h : ∀ (m : Memo) (log : Log), ((q.answer t cfg).run (m.withLog log)).2 = m.withLog log) :
    q.Keeps R t cfg := fun m =>
  ⟨m, [], fun log => by rw [h, Log.reportAll_nil], refl_of R m⟩

variable [IsPreorder Memo R] (h : Stepwise t (Analysis.Keeps R))
  (hcheck : ∀ n, Analysis.Keeps R (Analysis.check t cfg n))
  (hget : ∀ n, Analysis.Keeps R (Analysis.getType t cfg n))
include h hcheck hget

/-- Every query keeps a preorder that its steps keep. -/
theorem keeps_answer (q : Query) : q.Keeps R t cfg := by
  cases q with
  | analyze n =>
    refine keeps_of_steps ((?_ : Analysis.Keeps R _).bind fun r => ?_)
    · unfold Analysis.analyze
      split
      · exact (hcheck n).bind fun _ => Keeps.pure _
      · exact Keeps.pure _
    · cases r <;> exact Keeps.pure _
  | check n => exact keeps_of_steps ((hcheck n).bind fun _ => Keeps.pure _)
  | getType n => exact keeps_of_steps ((hget n).map _)
  | typeOf n => exact keeps_of_reads fun _ _ => rfl
  | prepareScope n =>
    refine keeps_of_steps ?_
    show Analysis.Keeps R (Analysis.prepareScope t n >>= fun _ =>
      DecafCheck.preparedScope n >>= fun s => pure (Reply.bindings? (s.map Scope.bindings)))
    rw [← bind_assoc]
    exact (h.prepared n).bind fun _ => Keeps.pure _
  | scope n => exact keeps_of_reads fun _ _ => rfl
  | findDecl n x deep => exact keeps_of_steps ((h.find n x deep).map _)
  | isClassScope n deep => exact keeps_of_steps ((h.isClassScope n deep).map _)
  | enclosingClass n => exact keeps_of_reads fun _ _ => rfl
  | enclosingFunction n => exact keeps_of_reads fun _ _ => rfl
  | superclassOf c => exact keeps_of_steps ((h.super c).map _)
  | isSubclassOf sub sup => exact keeps_of_steps ((h.isSubclassOf sub sup).map _)
  | implementsIface c i => exact keeps_of_steps ((h.implementsIface c i).map _)
  | resolveNamed n name => exact keeps_of_steps ((h.resolveNamed n name).map _)
  | equivalent a b n => exact keeps_of_steps ((h.equivalent n a b).map _)
  | compatible a b n => exact keeps_of_steps ((h.compatible n a b).map _)
  | state => exact keeps_of_reads fun _ _ => rfl

/-- A session from any memory, whatever its log, ends with the tables of one memory that `R`
relates the start to, having added the same reports: the queries one after the other. -/
theorem keeps_session (qs : List Query) (m : Memo) :
    ∃ (M : Memo) (ds : List Diagnostic),
      (∀ log, ((qs.mapM (answered t cfg)).run (m.withLog log)).2 =
        M.withLog (log.reportAll ds)) ∧ R m M := by
  induction qs generalizing m with
  | nil => exact ⟨m, [], fun _ => rfl, refl_of R m⟩
  | cons q qs ih =>
    obtain ⟨m₁, ds, hr, hq₁⟩ := keeps_answer h hcheck hget q m
    obtain ⟨M, es, hrs, hq₂⟩ := ih m₁
    refine ⟨M, ds ++ es, fun log => ?_, trans_of R hq₁ hq₂⟩
    rw [mapM_answered_run_snd, hr, hrs, Log.reportAll_append]

end Query

end DecafCheck
