import DecafCheck.Proofs.CycleReports
import DecafCheck.Proofs.Sessions
/-!
# Every query returns, with nothing left pending

The analysis is written with its termination arguments: preparing a scope adds the class to the
pending list before it prepares anything else, so the nodes not yet pending bound the preparation
block; a lookup moves to a parent; the class chain adds each class it lists to the classes it has
seen; typing and checking descend to children. So every query returns, on every tree, cycles
included. What is left to say is what a returning query leaves behind, and where the class chain
stops.

From every memory a session reaches, the ledger of prepared scopes holds with nothing pending
(`Memo.Reached.logged`), and every query returns to a memory where it holds again: no class is left
half prepared, and every prepared class extends a prepared class. The class chain of `c` lists `c`
and its superclasses in order, each once, and stops at the first class whose superclass is none or
listed already (`Analysis.runs_classChain`). Both together are `Query.queries_return`.
-/

namespace DecafCheck

namespace Tree

variable {t : Tree} {S : Std.TreeMap Nat Scope} {c d : Nat}

/-- A superclass is a node of the tree. -/
lemma SuperStepIn.lt_size (h : t.SuperStepIn S c d) : d < t.size := by
  by_contra hd
  have hcls := h.isClass
  rw [kindAt_of_size_le (Nat.le_of_not_lt hd)] at hcls
  exact absurd hcls (by decide)

end Tree

/-- Every memory a session reaches is described by the ledger, with nothing pending. -/
lemma Memo.Reached.logged {t : Tree} {cfg : Config} {m : Memo} (hcons : t.Consistent)
    (hm : m.Reached t cfg) : ∃ R, t.Logged [] R m.scopes := by
  obtain ⟨qs, rfl⟩ := hm
  obtain ⟨M, _, R, hr, hl, -⟩ :=
    Query.session_keepsLedger cfg hcons qs (m := Memo.fresh cfg.errorLimit) (Tree.Logged.empty t)
  have hend := hr (Memo.fresh cfg.errorLimit).log
  rw [Memo.withLog_self] at hend
  rw [hend, List.nil_append] at *
  exact ⟨R, hl⟩

namespace Analysis

variable {t : Tree} (hcons : t.Consistent)
include hcons

/-- The chain from class `c`, with the classes `seen` listed: it lists superclasses new to `seen`,
each once and each the superclass of the one before, and stops at the first class whose superclass
is none or listed already. -/
theorem runs_chainFrom (seen : List Nat) (c : Nat) {m : Memo} {R : List Nat}
    (h : t.Logged [] R m.scopes) :
    ∃ (L : List Nat) (m' : Memo) (ds : List Diagnostic) (R' : List Nat),
      Runs (chainFrom t seen c) m L m' ds ∧ t.Logged [] (R ++ R') m'.scopes ∧ m.Grown t m' ∧
      L.Nodup ∧ (∀ x ∈ L, x ∉ seen) ∧ (c :: L).IsChain (t.SuperStepIn m'.scopes) ∧
      ∃ r, t.SuperIn m'.scopes ((c :: L).getLast (List.cons_ne_nil c L)) r ∧
        ∀ d, r = some d → d ∈ seen ++ L := by
  obtain ⟨r, m₁, ds₁, hr₁, hq₁⟩ := (logs_scopeBlock hcons).2.1 [] c m
  obtain ⟨R₁, hrep₁, hsup⟩ := hq₁ R h .nil List.nodup_nil fun _ hy => absurd hy List.not_mem_nil
  have hg₁ := grown_of_runs_superclassWithin hr₁
  rw [chainFrom]
  cases r with
  | none =>
    -- no superclass: the chain ends at `c`
    refine ⟨[], m₁, ds₁, R₁, Runs.bind_eq hr₁ (Runs.pure _ _) (List.append_nil _), hrep₁.logged,
      hg₁, List.nodup_nil, fun _ hx => absurd hx List.not_mem_nil, .singleton c, none, hsup, ?_⟩
    intro d hd
    cases hd
  | some next =>
    by_cases hs : next ∈ seen
    · -- a superclass listed already: the chain ends at `c`
      refine ⟨[], m₁, ds₁, R₁, Runs.bind_eq hr₁ ?_ (List.append_nil _), hrep₁.logged, hg₁,
        List.nodup_nil, fun _ hx => absurd hx List.not_mem_nil, .singleton c, some next, hsup,
        fun d hd => ?_⟩
      · simp only [hs, dite_true]
        exact Runs.pure _ _
      · rw [Option.some.inj hd] at hs
        exact List.mem_append_left [] hs
    · -- a new superclass, a node of the tree: listed, and the chain goes on from it
      have hn : next < t.size := Tree.SuperStepIn.lt_size hsup
      have := t.unseen_cons_lt hn hs
      obtain ⟨L, m₂, ds₂, R₂, hr₂, hl₂, hg₂, hnd, hnew, hchain, r', hlast, hr'⟩ :=
        runs_chainFrom (next :: seen) next hrep₁.logged
      refine ⟨next :: L, m₂, ds₁ ++ ds₂, R₁ ++ R₂, Runs.bind_eq hr₁ ?_ rfl,
        by rwa [← List.append_assoc], hg₁.trans hg₂, ?_, fun x hx => ?_,
        .cons_cons (Tree.SuperStepIn.grown hg₂ hsup) hchain, r', ?_, fun d hd => ?_⟩
      · simp only [hs, hn, dite_false, dite_true]
        exact Runs.bind_eq hr₂ (Runs.pure _ _) (List.append_nil _)
      · exact List.nodup_cons.2 ⟨fun hx => hnew next hx (List.mem_cons_self ..), hnd⟩
      · rcases List.mem_cons.1 hx with rfl | hx
        · exact hs
        · exact fun hx' => hnew x hx (List.mem_cons_of_mem next hx')
      · rwa [List.getLast_cons (List.cons_ne_nil next L)]
      · have := hr' d hd
        simp only [List.mem_append, List.mem_cons] at this ⊢
        tauto
termination_by t.unseen seen

/-- The class chain of `c`: `c` and its superclasses in order, each once, up to the first class
whose superclass is none or listed already. -/
theorem runs_classChain (c : Nat) {m : Memo} {R : List Nat} (h : t.Logged [] R m.scopes) :
    ∃ (L : List Nat) (m' : Memo) (ds : List Diagnostic),
      Runs (classChain t c) m L m' ds ∧ L.head? = some c ∧ L.Nodup ∧
      L.IsChain (t.SuperStepIn m'.scopes) ∧
      ∃ z ∈ L.getLast?, ∃ r, t.SuperIn m'.scopes z r ∧ ∀ d, r = some d → d ∈ L := by
  obtain ⟨L, m', ds, -, hr, -, -, hnd, hnew, hchain, r, hlast, hr'⟩ := runs_chainFrom hcons [c] c h
  refine ⟨c :: L, m', ds, Runs.bind_eq hr (Runs.pure _ _) (List.append_nil _), rfl,
    List.nodup_cons.2 ⟨fun hc => hnew c hc (List.mem_singleton_self c), hnd⟩, hchain,
    _, List.getLast?_eq_some_getLast (List.cons_ne_nil c L), r, hlast, fun d hd => ?_⟩
  simpa using hr' d hd

end Analysis

namespace Query

open Analysis

/-- Every query returns, on every tree the builders make, cycles of superclasses included. From
every memory a session reaches, a query returns to a memory the ledger describes with nothing
pending: every prepared scope is whole, and every prepared class extends a prepared class. The
class chain of `c` lists `c` and its superclasses in order, each once, and stops at the first class
whose superclass is none or listed already. -/
theorem queries_return {t : Tree} (cfg : Config) (hcons : t.Consistent) {m : Memo}
    (hm : m.Reached t cfg) :
    (∀ q : Query, ∃ (m' : Memo) (ds : List Diagnostic) (R : List Nat),
      (∀ log, ((q.answer t cfg).run (m.withLog log)).2 = m'.withLog (log.reportAll ds)) ∧
      t.Logged [] R m'.scopes) ∧
    ∀ c, ∃ (L : List Nat) (m' : Memo) (ds : List Diagnostic),
      Runs (Analysis.classChain t c) m L m' ds ∧ L.head? = some c ∧ L.Nodup ∧
      L.IsChain (t.SuperStepIn m'.scopes) ∧
      ∃ z ∈ L.getLast?, ∃ r, t.SuperIn m'.scopes z r ∧ ∀ d, r = some d → d ∈ L := by
  obtain ⟨R, h⟩ := hm.logged hcons
  refine ⟨fun q => ?_, fun c => Analysis.runs_classChain hcons c h⟩
  obtain ⟨m', ds, R', hr, hl, -⟩ := keepsLedger_answer cfg hcons q m R h
  exact ⟨m', ds, R ++ R', hr, hl⟩

theorem mutualExtends_queries_return :
    Tree.mutualExtends.Consistent ∧ (Memo.fresh none).Reached Tree.mutualExtends {} ∧
      ((∀ q : Query, ∃ (m' : Memo) (ds : List Diagnostic) (R : List Nat),
        (∀ log, ((q.answer Tree.mutualExtends {}).run ((Memo.fresh none).withLog log)).2 =
          m'.withLog (log.reportAll ds)) ∧
        Tree.mutualExtends.Logged [] R m'.scopes) ∧
      ∀ c, ∃ (L : List Nat) (m' : Memo) (ds : List Diagnostic),
        Runs (Analysis.classChain Tree.mutualExtends c) (Memo.fresh none) L m' ds ∧
        L.head? = some c ∧ L.Nodup ∧ L.IsChain (Tree.mutualExtends.SuperStepIn m'.scopes) ∧
        ∃ z ∈ L.getLast?, ∃ r, Tree.mutualExtends.SuperIn m'.scopes z r ∧
          ∀ d, r = some d → d ∈ L) :=
  ⟨by decide, ⟨[], rfl⟩, queries_return {} (by decide) ⟨[], rfl⟩⟩

end Query

end DecafCheck
