import DecafCheck.Proofs.Preserved
/-!
# The error limit only truncates the record

The analyser reads two of its settings, where fields may be read and whether overrides are
checked, and never the third: the error limit only tells the log how many records to keep. So two
settings that differ in the limit alone answer every query the same way (`Query.answer_congr`).
The log is written and never read (`Query.keeps_session`), so a session run with a limit prepares
the same scopes, finds the same types, checks the same nodes and reports the same diagnostics as
the same session without one. A log without a limit keeps every report; a log with limit `L` keeps
the first `L` (`Log.withLimit_reportAll`).

The main statement is `errorLimit_truncates`: the tables and the count agree, the records kept
under a limit of `L` are the first `L` of those kept without one, and a program is accepted under
the limit exactly when it is accepted without it, a rejection reporting the same count and the
first `L` records.
-/

namespace DecafCheck

namespace Analysis

variable {t : Tree} {cfg cfg' : Config}

/-! ## The analysis reads only two settings -/

lemma fieldAccessible_congr (h : cfg.fieldRule = cfg'.fieldRule) :
    fieldAccessible t cfg = fieldAccessible t cfg' := by
  funext n c
  unfold fieldAccessible
  rw [h]

lemma fieldType_congr (h : cfg.fieldRule = cfg'.fieldRule) :
    fieldType t cfg = fieldType t cfg' := by
  funext n name baseTy
  simp only [fieldType, fieldAccessible_congr h]

lemma exprType_congr (h : cfg.fieldRule = cfg'.fieldRule) : exprType t cfg = exprType t cfg' := by
  funext n typeOf e
  cases e <;> simp only [exprType, fieldType_congr h]

lemma checkOverride_congr (h : cfg.checkOverrides = cfg'.checkOverrides) :
    checkOverride t cfg = checkOverride t cfg' := by
  funext m
  unfold checkOverride
  rw [h]

lemma afterChildren_congr (h : cfg.checkOverrides = cfg'.checkOverrides) :
    afterChildren t cfg = afterChildren t cfg' := by
  funext n k
  unfold afterChildren
  rw [checkOverride_congr h]

/-- Checking and typing under two settings that agree on field access and override checks are the
same computations. By the induction that defines them: each call on a child is the same by
induction, and the rules they apply are the same by the lemmas above. -/
theorem checkBlock_congr (hf : cfg.fieldRule = cfg'.fieldRule)
    (ho : cfg.checkOverrides = cfg'.checkOverrides) :
    (∀ n, check t cfg n = check t cfg' n) ∧ (∀ n, checkNode t cfg n = checkNode t cfg' n) ∧
      (∀ n, getType t cfg n = getType t cfg' n) ∧ (∀ n, infer t cfg n = infer t cfg' n) := by
  refine check.mutual_induct t (fun n => check t cfg n = check t cfg' n)
    (fun n => checkNode t cfg n = checkNode t cfg' n) (fun n => getType t cfg n = getType t cfg' n)
    (fun n => infer t cfg n = infer t cfg' n) ?_ ?_ ?_ ?_ ?_ ?_ ?_
  · intro n hexpr ih
    rw [check, check, if_pos hexpr, if_pos hexpr, ih]
  · intro n hexpr ih
    rw [check, check, if_neg hexpr, if_neg hexpr, ih]
  · intro n ihCheck ihType
    have hchild :
        ∀ xr ∈ (t.kindAt n).roles, checkChild t cfg n xr = checkChild t cfg' n xr := by
      rintro ⟨x, role⟩ hx
      cases role <;> simp only [checkChild, ihCheck x _ hx, ihType x _ hx]
    -- the loop over the children sees each child with the proof that it is one
    have hloop : (t.kindAt n).roles.forM (checkChild t cfg n) =
        (t.kindAt n).roles.forM (checkChild t cfg' n) := by
      rw [← List.attach_map_subtype_val (t.kindAt n).roles]
      simp only [List.forM_eq_forM, List.forM_map]
      exact congrArg _ (funext fun xr => hchild xr.1 xr.2)
    rw [checkNode_eq, checkNode_eq, afterChildren_congr ho, hloop]
  · intro n ih
    rw [getType, getType, ih]
  · intro n e hk ih
    have hops : operandTypes t cfg n = operandTypes t cfg' n :=
      congrArg (List.mapM · _) (funext fun x => by
        obtain ⟨x, hx⟩ := x
        simp only [ih x hx])
    have hown : ownType t cfg n e = ownType t cfg' n e := by
      funext typed
      simp only [ownType, exprType_congr hf]
    rw [infer_expr t cfg hk, infer_expr t cfg' hk, hops, hown]
  · intro n v hk ih
    simp only [infer, hk, ih]
  · intro n hne hnv ih
    rw [infer_other t cfg hne hnv, infer_other t cfg' hne hnv, ih]

end Analysis

/-! ## Logs with and without a limit -/

attribute [ext] Log

namespace Log

@[simp] lemma limit_report (log : Log) (d : Diagnostic) : (log.report d).limit = log.limit := rfl

@[simp] lemma limit_reportAll (log : Log) (ds : List Diagnostic) :
    (log.reportAll ds).limit = log.limit := by
  induction ds generalizing log with
  | nil => rfl
  | cons d ds ih => exact (ih (log.report d)).trans (limit_report log d)

/-- A log with room for at most `L` records keeps the first `L` of all it is given. -/
lemma records_reportAll_of_limit_some {log : Log} {L : Nat} (h : log.limit = some L)
    (hroom : log.records.length ≤ L) (ds : List Diagnostic) :
    (log.reportAll ds).records = (log.records ++ ds).take L := by
  induction ds generalizing log with
  | nil => simp [List.take_of_length_le hroom]
  | cons d ds ih =>
    rw [reportAll, List.foldl_cons, ← reportAll]
    by_cases hlt : log.records.length < L
    · -- room for one more: `d` is kept
      have hkept : (log.report d).records = log.records ++ [d] := by
        simp [report, hasRoom, h, hlt]
      have hroom' : (log.report d).records.length ≤ L := by
        simp only [hkept, List.length_append, List.length_singleton]
        omega
      rw [@ih (log.report d) h hroom', hkept, List.append_assoc, List.singleton_append]
    · -- full: `d` is only counted, and so is everything after it
      have hfull : log.records.length = L := by omega
      have hkept : (log.report d).records = log.records := by
        simp [report, hasRoom, h, hlt]
      rw [@ih (log.report d) h (by rw [hkept]; omega), hkept, ← hfull, List.take_left,
        List.take_left]

/-- What a log that keeps at most `L` records would hold of the reports `log` holds: the first `L`
records, and the count of all. -/
def capped (log : Log) (L : Nat) : Log :=
  { log with records := log.records.take L, limit := some L }

/-- Reported to fresh logs, the same diagnostics are all kept without a limit and the first `L` of
them with limit `L`; both count them all. -/
lemma withLimit_reportAll (L : Nat) (ds : List Diagnostic) :
    (withLimit (some L)).reportAll ds = ((withLimit none).reportAll ds).capped L := by
  apply Log.ext
  · rw [records_reportAll_of_limit_some rfl (Nat.zero_le L), capped,
      records_reportAll_of_limit_none rfl]
    rfl
  · simp [capped, withLimit]
  · simp [capped, withLimit]

end Log

/-- A fresh memory is the blank one with a fresh log. -/
lemma Memo.fresh_eq_withLog (limit : Option Nat) :
    Memo.fresh limit = ({} : Memo).withLog (Log.withLimit limit) :=
  rfl

namespace Refusal

/-- The refusal as an analyser keeping at most `L` records gives it. -/
def capped (L : Nat) : Refusal → Refusal
  | rejected log => rejected (log.capped L)
  | notAProgram node => notAProgram node

end Refusal

/-! ## Sessions and program checks with and without a limit -/

namespace Query

variable {t : Tree} {cfg cfg' : Config}

lemma answer_congr (hf : cfg.fieldRule = cfg'.fieldRule)
    (ho : cfg.checkOverrides = cfg'.checkOverrides) (q : Query) :
    q.answer t cfg = q.answer t cfg' := by
  obtain ⟨hcheck, -, hget, -⟩ := Analysis.checkBlock_congr (t := t) hf ho
  cases q <;> simp only [answer, Analysis.analyze, hcheck, hget]

lemma answered_congr (hf : cfg.fieldRule = cfg'.fieldRule)
    (ho : cfg.checkOverrides = cfg'.checkOverrides) :
    answered t cfg = answered t cfg' := by
  funext q
  simp only [answered, answer_congr hf ho q]

variable (t cfg)

/-- A session does not read the error limit: one run gives the tables and the reports, and the log
keeps of the reports what its limit lets it. -/
theorem sessionEnd_errorLimit (qs : List Query) :
    ∃ (M : Memo) (ds : List Diagnostic), ∀ limit,
      sessionEnd t { cfg with errorLimit := limit } qs =
        M.withLog ((Log.withLimit limit).reportAll ds) := by
  have hblock := Analysis.grows_checkBlock t cfg
  obtain ⟨M, ds, hr, -⟩ :=
    keeps_session Analysis.stepwise_grows hblock.1 hblock.2.2.1 qs ({} : Memo)
  refine ⟨M, ds, fun limit => ?_⟩
  have hsame : answered t { cfg with errorLimit := limit } = answered t cfg :=
    answered_congr rfl rfl
  rw [sessionEnd, hsame]
  exact hr (Log.withLimit limit)

/-- Analysing a program does not read the error limit either. -/
theorem analyzeProgram_errorLimit (root : Nat) :
    ∃ (M : Memo) (ds : List Diagnostic), ∀ limit,
      analyzeProgram t { cfg with errorLimit := limit } root =
        if (t.kindAt root).isProgram then .ok (M.withLog ((Log.withLimit limit).reportAll ds))
        else .error (.notAProgram root) := by
  obtain ⟨_, M, ds, hr, -⟩ := (Analysis.grows_checkBlock t cfg).1 root ({} : Memo)
  refine ⟨M, ds, fun limit => ?_⟩
  have hcheck :
      ∀ n, Analysis.check t { cfg with errorLimit := limit } n = Analysis.check t cfg n := by
    refine (Analysis.checkBlock_congr ?_ ?_).1 <;> rfl
  have hsame : Analysis.analyze t { cfg with errorLimit := limit } root =
      Analysis.analyze t cfg root := by
    simp only [Analysis.analyze, hcheck]
  rw [analyzeProgram, hsame, Memo.fresh_eq_withLog]
  by_cases hp : (t.kindAt root).isProgram
  · have hrun : Analysis.Runs (Analysis.analyze t cfg root) {} (.ok ()) M ds := by
      unfold Analysis.analyze
      rw [if_pos hp]
      exact Analysis.Runs.bind_eq hr (Analysis.Runs.pure _ M) (List.append_nil ds)
    rw [hrun (Log.withLimit limit), if_pos hp]
  · have hrun :
        Analysis.Runs (Analysis.analyze t cfg root) {} (.error (.notAProgram root)) {} [] := by
      unfold Analysis.analyze
      rw [if_neg hp]
      exact Analysis.Runs.pure _ _
    rw [hrun (Log.withLimit limit), if_neg hp]

end Query

open Query in
/-- An error limit only truncates the record. Whatever queries an analyser answers, with a limit
of `L` records it ends with the types, scopes and checked nodes it ends with without a limit, and
with the same count of diagnostics; without a limit it keeps every diagnostic it counts, and with
one it keeps the first `L` of them, in order. So a program is accepted with the limit exactly when
it is without, and a rejection reports the same count and the first `L` records. -/
theorem errorLimit_truncates (t : Tree) (cfg : Config) (L : Nat) (qs : List Query) :
    let limited := sessionEnd t { cfg with errorLimit := some L } qs
    let full := sessionEnd t { cfg with errorLimit := none } qs
    limited.types = full.types ∧ limited.scopes = full.scopes ∧
      limited.checked = full.checked ∧ limited.log.count = full.log.count ∧
      full.log.records.length = full.log.count ∧
      limited.log.records = full.log.records.take (min L full.log.count) ∧
      ∀ root, checkProgram t { cfg with errorLimit := some L } root =
        (checkProgram t { cfg with errorLimit := none } root).mapError (Refusal.capped L) := by
  intro limited full
  obtain ⟨M, ds, hend⟩ := sessionEnd_errorLimit t cfg qs
  have hfull : full.log = (Log.withLimit none).reportAll ds := by
    simp only [full, hend, Memo.withLog_log]
  have hlimited : limited = full.withLog (full.log.capped L) := by
    simp only [limited, full, hend, Memo.withLog_withLog, Memo.withLog_log, Log.withLimit_reportAll]
  have hlength : full.log.records.length = full.log.count := by
    rw [hfull, Log.records_reportAll_of_limit_none rfl, Log.count_reportAll]
    simp [Log.withLimit]
  refine ⟨by rw [hlimited]; rfl, by rw [hlimited]; rfl, by rw [hlimited]; rfl,
    by rw [hlimited]; rfl, hlength, ?_, fun root => ?_⟩
  · rw [hlimited, ← hlength]
    exact List.take_eq_take_min
  · obtain ⟨M', es, hprog⟩ := analyzeProgram_errorLimit t cfg root
    simp only [checkProgram, hprog]
    by_cases hp : (t.kindAt root).isProgram
    · -- a program: both runs count the same reports, and the limited one keeps the first `L`
      have hcount : ∀ limit, ((Log.withLimit limit).reportAll es).count = es.length := fun _ => by
        simp [Log.withLimit]
      simp only [hp, if_true, bind, Except.bind, Memo.withLog_log, hcount]
      by_cases hc : es.length > 0
      · simp [hc, throw, throwThe, MonadExceptOf.throw, Except.mapError, Refusal.capped,
          Log.withLimit_reportAll]
      · simp only [hc, if_false]
        rfl
    · simp [hp, bind, Except.bind, Except.mapError, Refusal.capped]

end DecafCheck
