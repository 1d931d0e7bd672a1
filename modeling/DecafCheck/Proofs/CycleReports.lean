import DecafCheck.Proofs.Cycles
import DecafCheck.Proofs.QueryOrder
/-!
# Every run reports each inheritance cycle once

The ledger of prepared scopes and reporters (`Tree.Logged`) is what the preparation block keeps.
A run of one of its functions, called with the pending classes linked and free of repeats, ends
with the ledger of the reporters it found (`Tree.Reports`): it reports one cycle for each of them,
in order, and each of them leads its cycle in the pending chain it was called under. One invariant
per function of the block (`Analysis.PrepLogs`, `Analysis.SuperLogs`, `Analysis.FindLogs`), each
with the hypotheses its callers guarantee, is proved by the block's own mutual induction
(`Analysis.logs_scopeBlock`). The pending chain is what ties a report to the order of
preparation: when preparing `B` begins while no class of its cycle has begun, the class that
reports that cycle is the one extending `B` (`Analysis.reporter_extends_entry`).

Everything else the analysis does keeps the scopes as they are, so every step keeps the ledger
(`Analysis.KeepsLedger`) and so does a session of public queries: from a fresh analyser, the
classes that reported a cycle lie on one, no cycle is reported twice, a cycle reached from a
prepared class has its reporter, and the scope of each class of a cycle is its own members for the
reporter and its own members merged with its superclass's scope for the others
(`Query.cycles_reported_once`).
-/

namespace DecafCheck

namespace Tree

variable {t : Tree}

lemma isCycle_cycleReport (c : Nat) : (t.cycleReport c).isCycle = true := by
  unfold cycleReport
  split <;> rfl

lemma filter_map_cycleReport (R : List Nat) :
    (R.map t.cycleReport).filter Diagnostic.isCycle = R.map t.cycleReport :=
  List.filter_eq_self.2 fun _ hd => by
    obtain ⟨c, -, rfl⟩ := List.mem_map.1 hd
    exact isCycle_cycleReport c

/-- A fault of a rule or a check is no cycle. -/
lemma isCycle_of_fromPreparation {d : Diagnostic} (h : d.fault.fromPreparation = false) :
    d.isCycle = false := by
  unfold Diagnostic.isCycle
  split
  · next s hs => rw [hs] at h; cases h
  · rfl

/-- A class with no pending class on its way up reaches prepared classes only. -/
lemma Logged.contains_of_reaches {P R : List Nat} {S : Std.TreeMap Nat Scope} {a z : Nat}
    (h : t.Logged P R S) (ha : S.contains a) (hr : Relation.ReflTransGen (t.SuperStepIn S) a z)
    (hP : ∀ w, Relation.ReflTransGen (t.SuperStepIn S) a w → w ∉ P) : S.contains z := by
  induction hr with
  | refl => exact ha
  | @tail y w hay hyw ih =>
    exact (h.super_prepared y w ih hyw).resolve_right (hP w (hay.tail hyw))

/-- What a run of the preparation block leaves, from the reporters `R`: the ledger of `R ++ R'`
with `P` pending, one cycle reported for each class of `R'` in turn, and each of them leading its
cycle in the pending chain `L`. -/
structure Reports (t : Tree) (P L R R' : List Nat) (m' : Memo) (ds : List Diagnostic) : Prop where
  /-- The ledger, with the new reporters. -/
  logged : t.Logged P (R ++ R') m'.scopes
  /-- The cycles reported are those of the new reporters. -/
  reports : ds.filter Diagnostic.isCycle = R'.map t.cycleReport
  /-- Each new reporter leads its cycle in `L`. -/
  leads : ∀ c ∈ R', t.CycleLeads m'.scopes c L

namespace Reports

variable {P L R R₁ R₂ : List Nat} {m m₁ m₂ : Memo} {ds es : List Diagnostic}

lemma refl (h : t.Logged P R m.scopes) (L : List Nat) : t.Reports P L R [] m [] :=
  ⟨by rwa [List.append_nil], rfl, fun _ hc => by cases hc⟩

lemma trans (h₁ : t.Reports P L R R₁ m₁ ds) (h₂ : t.Reports P L (R ++ R₁) R₂ m₂ es)
    (hg : m₁.Grown t m₂) : t.Reports P L R (R₁ ++ R₂) m₂ (ds ++ es) where
  logged := by
    rw [← List.append_assoc]
    exact h₂.logged
  reports := by rw [List.filter_append, h₁.reports, h₂.reports, List.map_append]
  leads c hc := by
    rcases List.mem_append.1 hc with hc | hc
    · exact (h₁.leads c hc).grown hg (h₁.logged.reporter c (List.mem_append_right R hc)).2
    · exact h₂.leads c hc

/-- The ledger reads the tables only. -/
lemma withLog (h : t.Reports P L R R₁ m ds) (log : Log) : t.Reports P L R R₁ (m.withLog log) ds :=
  ⟨h.logged, h.reports, h.leads⟩

lemma tail {a : Nat} (h : t.Reports P (a :: L) R R₁ m ds) : t.Reports P L R R₁ m ds :=
  ⟨h.logged, h.reports, fun c hc => (h.leads c hc).tail⟩

/-- The conflicts among a scope's entries report no cycle. -/
lemma ownConflicts_append (h : t.Reports P L R R₁ m ds) (es : List Nat) :
    t.Reports P L R R₁ m (t.ownConflicts es ++ ds) :=
  ⟨h.logged, by rw [List.filter_append, t.filter_ownConflicts, h.reports, List.nil_append],
    h.leads⟩

/-- Storing the scope class `n` inherited, with its report if it closes a cycle. -/
lemma insert {n : Nat} {Rn es : List Nat} {sc : Scope} (hcons : t.Consistent)
    (h : t.Reports (n :: P) (n :: P) R R₁ m ds) (hk : (t.kindAt n).scopeEntries? = some es)
    (hL : t.Linked m.scopes (n :: P)) (hnd : (n :: P).Nodup)
    (hi : t.Inherited m.scopes P n es sc Rn) :
    t.Reports P (n :: P) R (R₁ ++ Rn) { m with scopes := m.scopes.insert n sc }
      (ds ++ Rn.map t.cycleReport) := by
  have hn : m.scopes.contains n = false := h.logged.pending n (List.mem_cons_self ..)
  obtain ⟨hlog, hlead⟩ := h.logged.insert hcons hn hk hL hnd hi
  refine ⟨by rwa [← List.append_assoc], ?_, fun c hc => ?_⟩
  · rw [List.filter_append, h.reports, filter_map_cycleReport, List.map_append]
  · rcases List.mem_append.1 hc with hc | hc
    · exact (h.leads c hc).grown (grown_insert hn hk)
        (h.logged.reporter c (List.mem_append_right R hc)).2
    · exact hlead c hc

end Reports

/-- What a table `S` of prepared scopes says of the cycles reported by the classes `R`. -/
structure CyclesReported (t : Tree) (R : List Nat) (S : Std.TreeMap Nat Scope) : Prop where
  /-- No class reports twice. -/
  nodup : R.Nodup
  /-- A class reports a cycle only if it lies on one. -/
  on_cycle : ∀ c ∈ R, t.OnCycleIn S c
  /-- No cycle is reported twice. -/
  once : ∀ c ∈ R, ∀ c' ∈ R, t.SameCycleIn S c c' → c = c'
  /-- A cycle that a prepared class reaches through superclasses has been reported. -/
  reached : ∀ a c, S.contains a → Relation.ReflTransGen (t.SuperStepIn S) a c → t.OnCycleIn S c →
    ∃ r ∈ R, t.SameCycleIn S c r
  /-- The reporter's scope holds its own members only. -/
  reporter_scope : ∀ c ∈ R, ∃ es, (t.kindAt c).scopeEntries? = some es ∧
    S[c]? = some (t.declaredScope es)
  /-- Every other prepared class of a cycle holds its own members, then what its superclass's scope
  binds under the names it leaves free. -/
  member_scope : ∀ c, t.OnCycleIn S c → S.contains c → c ∉ R →
    ∃ es d sd, (t.kindAt c).scopeEntries? = some es ∧ t.SuperStepIn S c d ∧ S[d]? = some sd ∧
      S[c]? = some ((t.declaredScope es).merge sd).1

/-- With nothing pending, the ledger says all there is to say of the cycles reported. -/
lemma Logged.cyclesReported {R : List Nat} {S : Std.TreeMap Nat Scope} (h : t.Logged [] R S) :
    t.CyclesReported R S where
  nodup := h.nodup
  on_cycle c hc := (h.reporter c hc).2
  once := h.once
  reached a c ha hac hc := h.complete c hc fun z hz =>
    h.contains_of_reaches ha (hac.trans hz.1) fun _ _ => List.not_mem_nil
  reporter_scope c hc := by
    obtain ⟨s, hs⟩ := exists_getElem?_of_contains (h.reporter c hc).1
    obtain ⟨es, hk, ⟨-, rfl⟩ | ⟨_, _, _, hR, _⟩⟩ := h.shape c s hs
    · exact ⟨es, hk, hs⟩
    · exact (hR hc).elim
  member_scope c hcyc hcont hR := by
    obtain ⟨s, hs⟩ := exists_getElem?_of_contains hcont
    obtain ⟨es, hk, ⟨hR' | hnone, -⟩ | ⟨d, sd, hcd, -, hsd, rfl⟩⟩ := h.shape c s hs
    · exact (hR hR').elim
    · obtain ⟨d, hcd, -⟩ := hcyc.exists_step
      cases SuperIn.unique hnone hcd
    · exact ⟨es, d, sd, hk, hcd, hsd, hs⟩

end Tree

namespace Analysis

variable {t : Tree} {P : List Nat} {n c : Nat} {x : String} {deep : Bool} {m m' : Memo}
  {ds : List Diagnostic}

/-- A run ends with the tables of every other run from the same memory. -/
lemma Runs.eq_withLog {α : Type} {comp : AnalysisM α} {a b : α} {m'' : Memo}
    {es : List Diagnostic} (h : Runs comp m a m' ds) (h' : Runs comp m b m'' es) :
    m' = m''.withLog m'.log := by
  obtain ⟨-, -, he⟩ := h.unique h'
  rw [← he, Memo.withLog_self]

lemma grown_of_runs_prepareWithin (h : Runs (prepareWithin t P n) m () m' ds) :
    m.Grown t m' ∧ (n ∉ P → m'.Prepared t n) := by
  obtain ⟨_, m'', _, h', hq, hp⟩ := (prepares_scopeBlock t).1 P n m
  rw [h.eq_withLog h']
  exact ⟨Memo.Grown.withLog_right_iff.2 hq.grown, hp⟩

lemma grown_of_runs_superclassWithin {r : Option Nat}
    (h : Runs (superclassWithin t P c) m r m' ds) : m.Grown t m' := by
  obtain ⟨_, m'', _, h', hq⟩ := (prepares_scopeBlock t).2.1 P c m
  rw [h.eq_withLog h']
  exact Memo.Grown.withLog_right_iff.2 hq.grown

lemma grown_of_runs_findWithin {r : Option Nat} (h : Runs (findWithin t P n x deep) m r m' ds) :
    m.Grown t m' := by
  obtain ⟨_, m'', _, h', hq⟩ := (prepares_scopeBlock t).2.2 P n x deep m
  rw [h.eq_withLog h']
  exact Memo.Grown.withLog_right_iff.2 hq.grown

variable (t)

/-- Preparing `n`, with the pending classes `P` linked and without repeats, keeps the ledger; its
new reporters lead their cycles in `n :: P`. -/
def PrepLogs (P : List Nat) (n : Nat) : Prop :=
  Spec (prepareWithin t P n) fun m _ m' ds => ∀ R, t.Logged P R m.scopes →
    t.Linked m.scopes (n :: P) → P.Nodup → ∃ R', t.Reports P (n :: P) R R' m' ds

/-- Finding the superclass of `c`, with no pending class higher than `c`, keeps the ledger and
finds the superclass `c` has in the tables it ends with. -/
def SuperLogs (P : List Nat) (c : Nat) : Prop :=
  Spec (superclassWithin t P c) fun m r m' ds => ∀ R, t.Logged P R m.scopes →
    t.Linked m.scopes P → P.Nodup → (∀ y ∈ P, t.depth c ≤ t.depth y) →
    ∃ R', t.Reports P P R R' m' ds ∧ t.SuperIn m'.scopes c r

/-- A lookup from `n`, with every pending class lower than `n`, keeps the ledger and, when deep,
finds what a lookup through the tables it ends with finds. -/
def FindLogs (P : List Nat) (n : Nat) (x : String) (deep : Bool) : Prop :=
  Spec (findWithin t P n x deep) fun m r m' ds => ∀ R, t.Logged P R m.scopes →
    t.Linked m.scopes P → P.Nodup → (∀ y ∈ P, t.depth n < t.depth y) →
    ∃ R', t.Reports P P R R' m' ds ∧ (deep = true → t.FindsIn m'.scopes n x r)

variable {t}

lemma superLogs_of_superSite_none (hsite : t.superSite c = none) : SuperLogs t P c := fun m =>
  ⟨none, m, [], runs_superclassWithin_none hsite, fun _ h _ _ _ =>
    ⟨[], Tree.Reports.refl h P, .unnamed hsite⟩⟩

/-- What class `n` inherits, with `n` pending: the ledger with the reporters found on the way,
and the scope and reporters of one of the three outcomes of `Tree.Inherited`. -/
lemma logs_inheritWithin (es : List Nat) (ihSuper : SuperLogs t (n :: P) n)
    (ihPrep : ∀ sup, PrepLogs t (n :: P) sup) :
    Spec (inheritWithin t P n (t.declaredScope es)) fun m sc m' ds => ∀ R,
      t.Logged (n :: P) R m.scopes → t.Linked m.scopes (n :: P) → (n :: P).Nodup →
      ∃ R₁ Rn ds₀, ds = ds₀ ++ Rn.map t.cycleReport ∧ t.Reports (n :: P) (n :: P) R R₁ m' ds₀ ∧
        t.Inherited m'.scopes P n es sc Rn ∧ m.Grown t m' := by
  intro m
  cases hc : (t.kindAt n).cls? with
  | none =>
    refine ⟨_, m, [], runs_inheritWithin_of_cls_none hc, fun R h _ _ => ⟨[], [], [], rfl,
      Tree.Reports.refl h _, .base (.unnamed (Tree.superSite_of_cls?_none hc)), .refl t m⟩⟩
  | some cd =>
    obtain ⟨r, m₁, ds₁, hr₁, hq₁⟩ := ihSuper m
    have hg₁ := grown_of_runs_superclassWithin hr₁
    -- the superclass lookup keeps the ledger, and finds the superclass `n` now has
    have hsuper : ∀ R, t.Logged (n :: P) R m.scopes → t.Linked m.scopes (n :: P) →
        (n :: P).Nodup → ∃ R₁, t.Reports (n :: P) (n :: P) R R₁ m₁ ds₁ ∧
          t.SuperIn m₁.scopes n r := fun R h hL hnd =>
      hq₁ R h hL hnd (hL.depth_le h.depth)
    cases r with
    | none =>
      refine ⟨_, m₁, ds₁, runs_inheritWithin_no_super hc hr₁, fun R h hL hnd => ?_⟩
      obtain ⟨R₁, hrep, hsup⟩ := hsuper R h hL hnd
      exact ⟨R₁, [], ds₁, (List.append_nil ds₁).symm, hrep, .base hsup, hg₁⟩
    | some sup =>
      obtain ⟨_, m₂, ds₂, hr₂, hq₂⟩ := ihPrep sup m₁
      obtain ⟨hg₂, hprep₂⟩ := grown_of_runs_prepareWithin hr₂
      -- preparing the superclass keeps the ledger; its reporters lead their cycles in `n :: P`
      have hready : ∀ R, t.Logged (n :: P) R m.scopes → t.Linked m.scopes (n :: P) →
          (n :: P).Nodup → ∃ R₁, t.Reports (n :: P) (n :: P) R R₁ m₂ (ds₁ ++ ds₂) ∧
            t.SuperStepIn m₂.scopes n sup := by
        intro R h hL hnd
        obtain ⟨R₁, hrep₁, hsup⟩ := hsuper R h hL hnd
        obtain ⟨R₂, hrep₂⟩ := hq₂ (R ++ R₁) hrep₁.logged
          (List.IsChain.cons (hL.grown hg₁) fun y hy => .inl (by
            rw [List.head?_cons, Option.mem_some_iff] at hy
            exact hy ▸ hsup)) hnd
        exact ⟨R₁ ++ R₂, hrep₁.trans hrep₂.tail hg₂, Tree.SuperStepIn.grown hg₂ hsup⟩
      cases hsc : m₂.scopes[sup]? with
      | some s =>
        refine ⟨_, m₂, _, runs_inheritWithin_merge hc hr₁ hr₂ hsc, fun R h hL hnd => ?_⟩
        obtain ⟨R₁, hrep, hstep⟩ := hready R h hL hnd
        exact ⟨R₁, [], _, (List.append_nil _).symm, hrep, .merge hstep hsc, hg₁.trans hg₂⟩
      | none =>
        refine ⟨_, m₂, _, runs_inheritWithin_cycle hc hr₁ hr₂ hsc, fun R h hL hnd => ?_⟩
        obtain ⟨R₁, hrep, hstep⟩ := hready R h hL hnd
        -- a superclass left without a scope is pending
        have hpend : sup ∈ n :: P := by
          by_contra hnot
          rcases hprep₂ hnot with hcont | hnone
          · rw [Std.TreeMap.contains_eq_isSome_getElem?, hsc] at hcont
            cases hcont
          · exact NodeKind.scopeEntries?_ne_none_of_cls? hstep.isClass hnone
        refine ⟨R₁, [n], _, ?_, hrep, .cycle hstep hpend, hg₁.trans hg₂⟩
        rw [List.map_singleton, Tree.cycleReport_of_cls? t hc]

section Block

variable (hcons : t.Consistent)
include hcons

/-- Preparing a scope not prepared yet: its own conflicts, then what it inherits, stored. -/
lemma logs_build {es : List Nat} (hs : m.scopes.contains n = false)
    (hk : (t.kindAt n).scopeEntries? = some es) (hp : n ∉ P)
    (ihSuper : SuperLogs t (n :: P) n) (ihPrep : ∀ sup, PrepLogs t (n :: P) sup) :
    ∃ m' ds, Runs (prepareWithin t P n) m () m' ds ∧ ∀ R, t.Logged P R m.scopes →
      t.Linked m.scopes (n :: P) → P.Nodup → ∃ R', t.Reports P (n :: P) R R' m' ds := by
  obtain ⟨sc, m₁, ds, hinh, hq⟩ := logs_inheritWithin es ihSuper ihPrep m
  refine ⟨_, _, runs_prepareWithin_build hs hk hp (Tree.runs_declareEntries_declared t es m) hinh,
    fun R h hL hnd => ?_⟩
  have hnd' : (n :: P).Nodup := List.nodup_cons.2 ⟨hp, hnd⟩
  obtain ⟨R₁, Rn, ds₀, rfl, hrep, hi, hg⟩ := hq R (h.push hs) hL hnd'
  exact ⟨R₁ ++ Rn, (hrep.insert hcons hk (hL.grown hg) hnd' hi).ownConflicts_append es⟩

/-- From a ledger, with the pending classes linked and without repeats, every run of the
preparation block keeps the ledger, reports a cycle for each new reporter and none else, and finds
the superclasses and lookups of the tables it ends with. -/
theorem logs_scopeBlock :
    (∀ P n, PrepLogs t P n) ∧ (∀ P c, SuperLogs t P c) ∧ (∀ P n x deep, FindLogs t P n x deep) := by
  refine prepareWithin.mutual_induct t (PrepLogs t) (SuperLogs t) (FindLogs t) ?_ ?_ ?_ ?_ ?_
  -- preparing `n`: left alone when prepared, unowned or pending, else built
  · intro P n ihSuper ihPrep m
    by_cases hskip : m.scopes.contains n ∨ (t.kindAt n).scopeEntries? = none ∨ n ∈ P
    · exact ⟨(), m, [], runs_prepareWithin_skip hskip, fun R h _ _ =>
        ⟨[], Tree.Reports.refl h _⟩⟩
    simp only [not_or, Bool.not_eq_true] at hskip
    obtain ⟨hs, hk, hp⟩ := hskip
    obtain ⟨es, hk⟩ := Option.ne_none_iff_exists'.1 hk
    obtain ⟨m', ds, hr, hq⟩ := logs_build hcons hs hk hp (ihSuper es hk hp) (ihPrep es hk hp)
    exact ⟨(), m', ds, hr, hq⟩
  -- the superclass of a class with an `extends` name: a lookup from its parent
  · intro P c cd p hp hc e he ih m
    have hsite := Tree.superSite_eq hp hc he
    obtain ⟨r, m₁, ds, hr, hq⟩ := ih m
    refine ⟨_, m₁, ds, runs_superclassWithin hsite hr, fun R h hL hnd hlow => ?_⟩
    obtain ⟨R', hrep, hf⟩ := hq R h hL hnd (Tree.lower_of_parentOf hp hlow)
    exact ⟨R', hrep, .named hsite (hf rfl)⟩
  -- a class without an `extends` name
  · intro P c cd p hp hc he
    exact superLogs_of_superSite_none (by simp [Tree.superSite, hc, hp, he])
  -- no class, or no parent
  · intro P c hno
    refine superLogs_of_superSite_none ?_
    unfold Tree.superSite
    split
    · next cd p hc hp => exact (hno cd p hc hp).elim
    · rfl
  -- a lookup: in the scope of `n`, prepared first, or on from its parent
  · intro P n x deep ihPrep ihUp m
    obtain ⟨_, m₁, ds, hr₁, hq₁⟩ := ihPrep m
    obtain ⟨hg₁, hprep₁⟩ := grown_of_runs_prepareWithin hr₁
    have hread : ∀ R, t.Logged P R m.scopes → t.Linked m.scopes P → P.Nodup →
        (∀ y ∈ P, t.depth n < t.depth y) →
        ∃ R₁, t.Reports P P R R₁ m₁ ds ∧ t.PreparedIn m₁.scopes n := by
      intro R h hL hnd hlow
      obtain ⟨R₁, hrep⟩ := hq₁ R h (hL.cons_of_lt hlow) hnd
      exact ⟨R₁, hrep.tail, hprep₁ fun hn => Nat.lt_irrefl _ (hlow n hn)⟩
    cases hd : (m₁.scopes[n]?).bind (·.lookup x) with
    | some d =>
      refine ⟨_, m₁, ds, runs_findWithin_found hr₁ hd, fun R h hL hnd hlow => ?_⟩
      obtain ⟨R₁, hrep, hpn⟩ := hread R h hL hnd hlow
      exact ⟨R₁, hrep, fun _ => .here hpn hd⟩
    | none =>
      cases deep with
      | false =>
        refine ⟨_, m₁, ds, runs_findWithin_stop hr₁ hd (.inl rfl), fun R h hL hnd hlow => ?_⟩
        obtain ⟨R₁, hrep, -⟩ := hread R h hL hnd hlow
        exact ⟨R₁, hrep, fun hf => absurd hf Bool.false_ne_true⟩
      | true =>
      cases hp : t.parentOf n with
      | none =>
        refine ⟨_, m₁, ds, runs_findWithin_stop hr₁ hd (.inr hp), fun R h hL hnd hlow => ?_⟩
        obtain ⟨R₁, hrep, hpn⟩ := hread R h hL hnd hlow
        exact ⟨R₁, hrep, fun _ => .top hpn hd hp⟩
      | some p =>
        obtain ⟨r, m₂, es, hr₂, hq₂⟩ := ihUp p hp m₁
        have hg₂ := grown_of_runs_findWithin hr₂
        refine ⟨r, m₂, ds ++ es, runs_findWithin_up hr₁ hd hp hr₂, fun R h hL hnd hlow => ?_⟩
        obtain ⟨R₁, hrep₁, hpn⟩ := hread R h hL hnd hlow
        obtain ⟨R₂, hrep₂, hf⟩ := hq₂ (R ++ R₁) hrep₁.logged (hL.grown hg₁) hnd
          (Tree.lower_of_parentOf hp fun y hy => (hlow y hy).le)
        refine ⟨R₁ ++ R₂, hrep₁.trans hrep₂ hg₂, fun _ => .up (hpn.grown hg₂) ?_ hp (hf rfl)⟩
        rw [Tree.getElem?_eq_of_grown hg₂ hpn, hd]

/-- Whenever preparing class `B` begins from a state the ledger describes, while no class of the
cycle through `B` has begun (none is pending or prepared), the run reports that cycle once, for the
class that extends `B`. -/
theorem reporter_extends_entry {B : Nat} {R : List Nat} (hr : Runs (prepareWithin t P B) m () m' ds)
    (h : t.Logged P R m.scopes) (hL : t.Linked m.scopes (B :: P)) (hnd : P.Nodup)
    (hB : t.OnCycleIn m'.scopes B)
    (hfresh : ∀ z, t.SameCycleIn m'.scopes B z → z ∉ P ∧ m.scopes.contains z = false) :
    ∃ R', t.Reports P (B :: P) R R' m' ds ∧
      ∃ C ∈ R', t.SameCycleIn m'.scopes B C ∧ t.SuperStepIn m'.scopes C B := by
  obtain ⟨_, m'', ds', hr', hq⟩ := (logs_scopeBlock hcons).1 P B m
  obtain ⟨-, rfl, -⟩ := hr.unique hr'
  obtain ⟨R', hrep⟩ := hq R h hL hnd
  have hrep' : t.Reports P (B :: P) R R' m' ds := by
    rw [hr.eq_withLog hr']
    exact hrep.withLog _
  -- `B` is prepared, and so is every class of its cycle, none of them pending
  have hB' : m'.scopes.contains B := by
    obtain ⟨p, hpB, -⟩ := hB.exists_pred
    rcases (grown_of_runs_prepareWithin hr).2 (hfresh B (.refl _ B)).1 with hc | hnone
    · exact hc
    · exact (NodeKind.scopeEntries?_ne_none_of_cls? hpB.isClass hnone).elim
  have hall : ∀ z, t.SameCycleIn m'.scopes B z → m'.scopes.contains z := fun z hz =>
    hrep'.logged.contains_of_reaches hB' hz.1 fun w hw => (hfresh w (hB.sameCycle hw)).1
  obtain ⟨C, hC, hBC⟩ := hrep'.logged.complete B hB hall
  rcases List.mem_append.1 hC with hC | hC
  · -- a reporter from before the run was prepared before it
    have hprep := (h.reporter C hC).1
    rw [(hfresh C hBC).2] at hprep
    cases hprep
  · refine ⟨R', hrep', C, hC, hBC, (hrep'.leads C hC).entry hBC.symm fun z hz hCz => ?_⟩
    exact (hfresh z (hBC.trans hCz)).1 hz

end Block

/-- Whenever preparing class `B` begins from a state the ledger describes, while no class of the
cycle through `B` has begun, the run reports that cycle exactly once: for the class extending `B`,
the class of the cycle whose preparation began first. -/
def ReportsAtEntry (t : Tree) : Prop :=
  ∀ (P R : List Nat) (B : Nat) (m m' : Memo) (ds : List Diagnostic),
    Runs (prepareWithin t P B) m () m' ds → t.Logged P R m.scopes → t.Linked m.scopes (B :: P) →
    P.Nodup → t.OnCycleIn m'.scopes B →
    (∀ z, t.SameCycleIn m'.scopes B z → z ∉ P ∧ m.scopes.contains z = false) →
    ∃ R' : List Nat, ds.filter Diagnostic.isCycle = R'.map t.cycleReport ∧ ∃ C ∈ R',
      t.SuperStepIn m'.scopes C B ∧ ∀ C' ∈ R', t.SameCycleIn m'.scopes B C' → C' = C

lemma reportsAtEntry (hcons : t.Consistent) : ReportsAtEntry t := by
  intro P R B m m' ds hr h hL hnd hB hfresh
  obtain ⟨R', hrep, C, hC, hBC, hCB⟩ := reporter_extends_entry hcons hr h hL hnd hB hfresh
  refine ⟨R', hrep.reports, C, hC, hCB, fun C' hC' hBC' => ?_⟩
  exact hrep.logged.once C' (List.mem_append_right R hC') C (List.mem_append_right R hC)
    (hBC'.symm.trans hBC)

/-! ## Every step keeps the ledger -/

/-- From the ledger with nothing pending, `c` ends with the ledger of the reporters it adds, and
reports a cycle for each of them and none else. -/
def KeepsLedger (t : Tree) {α : Type} (c : AnalysisM α) : Prop :=
  Spec c fun m _ m' ds => ∀ R, t.Logged [] R m.scopes →
    ∃ R', t.Logged [] (R ++ R') m'.scopes ∧ ds.filter Diagnostic.isCycle = R'.map t.cycleReport

namespace KeepsLedger

variable {α β : Type} {c : AnalysisM α} {f : α → AnalysisM β}

/-- Nothing changed, nothing reported. -/
lemma stays {R : List Nat} {S : Std.TreeMap Nat Scope} (h : t.Logged [] R S) :
    ∃ R', t.Logged [] (R ++ R') S ∧
      ([] : List Diagnostic).filter Diagnostic.isCycle = R'.map t.cycleReport :=
  ⟨[], by rwa [List.append_nil], rfl⟩

lemma pure (a : α) : KeepsLedger t (pure a : AnalysisM α) :=
  fun m => ⟨a, m, [], Runs.pure a m, fun _ h => stays h⟩

lemma bind (hc : KeepsLedger t c) (hf : ∀ a, KeepsLedger t (f a)) : KeepsLedger t (c >>= f) :=
  Spec.bind hc hf fun _ _ _ _ _ _ _ h₁ h₂ R h => by
    obtain ⟨R₁, hl₁, hr₁⟩ := h₁ R h
    obtain ⟨R₂, hl₂, hr₂⟩ := h₂ (R ++ R₁) hl₁
    exact ⟨R₁ ++ R₂, by rwa [← List.append_assoc],
      by rw [List.filter_append, hr₁, hr₂, List.map_append]⟩

lemma report (span : Span) {fault : Fault} (hf : fault.fromPreparation = false) :
    KeepsLedger t (DecafCheck.report span fault) := fun m =>
  ⟨(), m, [⟨span, fault⟩], Runs.report span fault, fun _ h =>
    ⟨[], by rwa [List.append_nil], by simp [Tree.isCycle_of_fromPreparation (d := ⟨span, fault⟩) hf]⟩⟩

variable (hcons : t.Consistent)
include hcons

lemma prepareScope (n : Nat) : KeepsLedger t (prepareScope t n) :=
  Spec.mono ((logs_scopeBlock hcons).1 [] n) fun _ _ _ _ hq R h => by
    obtain ⟨R', hrep⟩ := hq R h (.singleton n) List.nodup_nil
    exact ⟨R', hrep.logged, hrep.reports⟩

lemma findDecl (n : Nat) (x : String) (deep : Bool) : KeepsLedger t (findDecl t n x deep) :=
  Spec.mono ((logs_scopeBlock hcons).2.2 [] n x deep) fun _ _ _ _ hq R h => by
    obtain ⟨R', hrep, -⟩ := hq R h .nil List.nodup_nil fun _ hy => absurd hy List.not_mem_nil
    exact ⟨R', hrep.logged, hrep.reports⟩

lemma superclassOf (c : Nat) : KeepsLedger t (superclassOf t c) :=
  Spec.mono ((logs_scopeBlock hcons).2.1 [] c) fun _ _ _ _ hq R h => by
    obtain ⟨R', hrep, -⟩ := hq R h .nil List.nodup_nil fun _ hy => absurd hy List.not_mem_nil
    exact ⟨R', hrep.logged, hrep.reports⟩

end KeepsLedger

/-- Keeping the ledger is a property of every step of the analysis. -/
theorem stepwise_keepsLedger (hcons : t.Consistent) : Stepwise t (KeepsLedger t) where
  pure a := KeepsLedger.pure a
  bind hc hf := hc.bind hf
  report span _ hf := KeepsLedger.report span hf
  prepare n := KeepsLedger.prepareScope hcons n
  prepared n := (KeepsLedger.prepareScope hcons n).bind fun _ m =>
    ⟨_, m, [], runs_preparedScope n m, fun _ h => KeepsLedger.stays h⟩
  find n x deep := KeepsLedger.findDecl hcons n x deep
  super c := KeepsLedger.superclassOf hcons c

variable (cfg : Config)

/-- Typing and checking touch no scope but through the steps that keep the ledger, so checking
and typing every node keep it. -/
theorem keepsLedger_checkBlock (hcons : t.Consistent) :
    (∀ n, KeepsLedger t (check t cfg n)) ∧ (∀ n, KeepsLedger t (getType t cfg n)) := by
  obtain ⟨hcheck, -, hget, -⟩ := Stepwise.checkBlock t cfg (P := fun _ => KeepsLedger t)
    (fun _ => stepwise_keepsLedger hcons) (fun _ h => h)
    (fun n hi m => by
      cases hty : m.types[n]? with
      | some ty => exact ⟨ty, m, [], runs_getType_memo hty, fun _ h => KeepsLedger.stays h⟩
      | none =>
        obtain ⟨ty, m₁, ds, hr, hq⟩ := hi m
        exact ⟨ty, _, ds, runs_getType_infer hty hr, hq⟩)
    (fun n hexpr hg m => by
      by_cases hc : m.checked.contains n
      · exact ⟨(), m, [], runs_check_done hc, fun _ h => KeepsLedger.stays h⟩
      · obtain ⟨_, m₁, ds, hr, hq⟩ := hg { m with checked := m.checked.insert n }
        exact ⟨(), m₁, ds, runs_check_expr hexpr (Bool.eq_false_iff.2 hc) hr, hq⟩)
    (fun n _ hb m => by
      by_cases hc : m.checked.contains n
      · exact ⟨(), m, [], runs_checkNode_done hc, fun _ h => KeepsLedger.stays h⟩
      · obtain ⟨_, m₁, ds, hr, hq⟩ := hb { m with checked := m.checked.insert n }
        exact ⟨(), m₁, ds, runs_checkNode_body (Bool.eq_false_iff.2 hc) hr, hq⟩)
  exact ⟨hcheck, hget⟩

end Analysis

/-! ## Sessions -/

namespace Query

open Analysis

variable {t : Tree} {cfg : Config} {q : Query}

/-- From every memory the ledger describes with nothing pending, answering `q` ends with the ledger
of the reporters it adds, reporting a cycle for each of them and none else. -/
def KeepsLedger (t : Tree) (cfg : Config) (q : Query) : Prop :=
  ∀ (m : Memo) (R : List Nat), t.Logged [] R m.scopes →
    ∃ (m' : Memo) (ds : List Diagnostic) (R' : List Nat),
      (∀ log, ((q.answer t cfg).run (m.withLog log)).2 = m'.withLog (log.reportAll ds)) ∧
      t.Logged [] (R ++ R') m'.scopes ∧ ds.filter Diagnostic.isCycle = R'.map t.cycleReport

lemma keepsLedger_of_steps (hc : Analysis.KeepsLedger t (q.answer t cfg)) : q.KeepsLedger t cfg := by
  intro m R h
  obtain ⟨_, m', ds, hr, hq⟩ := hc m
  obtain ⟨R', hl, hds⟩ := hq R h
  exact ⟨m', ds, R', fun log => by rw [hr log], hl, hds⟩

/-- A query that only reads the memory keeps the ledger, adding nothing. -/
lemma keepsLedger_of_reads
    (h : ∀ (m : Memo) (log : Log), ((q.answer t cfg).run (m.withLog log)).2 = m.withLog log) :
    q.KeepsLedger t cfg := fun m _ hm =>
  ⟨m, [], [], fun log => by rw [h, Log.reportAll_nil], by rwa [List.append_nil], rfl⟩

variable (cfg) (hcons : t.Consistent)
include hcons

/-- Every query keeps the ledger. -/
theorem keepsLedger_answer (q : Query) : q.KeepsLedger t cfg := by
  have hblock := keepsLedger_checkBlock cfg hcons
  have h := stepwise_keepsLedger hcons
  cases q with
  | analyze n =>
    refine keepsLedger_of_steps ((?_ : Analysis.KeepsLedger t _).bind fun r => ?_)
    · unfold Analysis.analyze
      split
      · exact (hblock.1 n).bind fun _ => KeepsLedger.pure _
      · exact KeepsLedger.pure _
    · cases r <;> exact KeepsLedger.pure _
  | check n => exact keepsLedger_of_steps ((hblock.1 n).bind fun _ => KeepsLedger.pure _)
  | getType n => exact keepsLedger_of_steps (h.map _ (hblock.2 n))
  | typeOf n => exact keepsLedger_of_reads fun _ _ => rfl
  | prepareScope n =>
    refine keepsLedger_of_steps ?_
    show Analysis.KeepsLedger t (Analysis.prepareScope t n >>= fun _ =>
      DecafCheck.preparedScope n >>= fun s => pure (Reply.bindings? (s.map Scope.bindings)))
    rw [← bind_assoc]
    exact (h.prepared n).bind fun _ => KeepsLedger.pure _
  | scope n => exact keepsLedger_of_reads fun _ _ => rfl
  | findDecl n x deep => exact keepsLedger_of_steps (h.map _ (h.find n x deep))
  | isClassScope n deep => exact keepsLedger_of_steps (h.map _ (h.isClassScope n deep))
  | enclosingClass n => exact keepsLedger_of_reads fun _ _ => rfl
  | enclosingFunction n => exact keepsLedger_of_reads fun _ _ => rfl
  | superclassOf c => exact keepsLedger_of_steps (h.map _ (h.super c))
  | isSubclassOf sub sup => exact keepsLedger_of_steps (h.map _ (h.isSubclassOf sub sup))
  | implementsIface c i => exact keepsLedger_of_steps (h.map _ (h.implementsIface c i))
  | resolveNamed n name => exact keepsLedger_of_steps (h.map _ (h.resolveNamed n name))
  | equivalent a b n => exact keepsLedger_of_steps (h.map _ (h.equivalent n a b))
  | compatible a b n => exact keepsLedger_of_steps (h.map _ (h.compatible n a b))
  | state => exact keepsLedger_of_reads fun _ _ => rfl

/-- A session from a memory the ledger describes, whatever its log, keeps the ledger: it ends with
that of the reporters it adds, having reported a cycle for each of them and none else. -/
theorem session_keepsLedger (qs : List Query) {m : Memo} {R : List Nat}
    (h : t.Logged [] R m.scopes) :
    ∃ (M : Memo) (ds : List Diagnostic) (R' : List Nat),
      (∀ log, ((qs.mapM (answered t cfg)).run (m.withLog log)).2 = M.withLog (log.reportAll ds)) ∧
      t.Logged [] (R ++ R') M.scopes ∧ ds.filter Diagnostic.isCycle = R'.map t.cycleReport := by
  induction qs generalizing m R with
  | nil => exact ⟨m, [], [], fun _ => rfl, by rwa [List.append_nil], rfl⟩
  | cons q qs ih =>
    -- the first query, then the rest from where it ends
    obtain ⟨m₁, ds, R₁, hr, hl₁, hds⟩ := keepsLedger_answer cfg hcons q m R h
    obtain ⟨M, es, R₂, hrs, hl₂, hes⟩ := ih hl₁
    refine ⟨M, ds ++ es, R₁ ++ R₂, fun log => ?_, by rwa [← List.append_assoc], ?_⟩
    · rw [mapM_answered_run_snd, hr, hrs, Log.reportAll_append]
    · rw [List.filter_append, hds, hes, List.map_append]

/-- Inheritance cycles are reported once and only where they are. A session of queries on a fresh
analyser reports diagnostics `DS` and the classes `R` report a cycle, one report each: in the
tables the session ends with, each class of `R` lies on a cycle of superclasses, no two share one,
every cycle reached from a prepared class has its reporter, the reporter's scope is its own members
and the scope of every other prepared class of the cycle adds what its superclass's scope binds.
Which class reports is fixed by the order of preparation: the class extending the class of the
cycle whose preparation began first. -/
theorem cycles_reported_once (qs : List Query) :
    (∃ (R : List Nat) (DS : List Diagnostic),
      (sessionEnd t cfg qs).log = (Log.withLimit cfg.errorLimit).reportAll DS ∧
      DS.filter Diagnostic.isCycle = R.map t.cycleReport ∧
      t.CyclesReported R (sessionEnd t cfg qs).scopes) ∧
    ReportsAtEntry t := by
  obtain ⟨M, DS, R, hr, hl, hds⟩ :=
    session_keepsLedger cfg hcons qs (m := Memo.fresh cfg.errorLimit) (Tree.Logged.empty t)
  have hend : sessionEnd t cfg qs = M.withLog ((Log.withLimit cfg.errorLimit).reportAll DS) := by
    have := hr (Memo.fresh cfg.errorLimit).log
    rwa [Memo.withLog_self] at this
  rw [List.nil_append] at hl
  refine ⟨⟨R, DS, by rw [hend]; rfl, hds, ?_⟩, reportsAtEntry hcons⟩
  rw [hend]
  exact hl.cyclesReported

end Query

/-- A program of two classes extending each other: node 0 is `class A extends B`, node 1 is
`class B extends A`, node 2 the program. -/
def Tree.mutualExtends : Tree where
  nodes := #[⟨{}, some 2, .decl (.cls ⟨⟨"A", {}⟩, some ⟨"B", {}⟩, [], []⟩)⟩,
    ⟨{}, some 2, .decl (.cls ⟨⟨"B", {}⟩, some ⟨"A", {}⟩, [], []⟩)⟩, ⟨{}, none, .program [0, 1]⟩]
  children_lt := by decide
  parent_gt := by decide

theorem Query.mutualExtends_cycles_reported :
    Tree.mutualExtends.Consistent ∧
      ((∃ (R : List Nat) (DS : List Diagnostic),
        (Query.sessionEnd Tree.mutualExtends {} [.analyze 2]).log =
          (Log.withLimit none).reportAll DS ∧
        DS.filter Diagnostic.isCycle = R.map Tree.mutualExtends.cycleReport ∧
        Tree.mutualExtends.CyclesReported R
          (Query.sessionEnd Tree.mutualExtends {} [.analyze 2]).scopes) ∧
      Analysis.ReportsAtEntry Tree.mutualExtends) :=
  ⟨by decide, Query.cycles_reported_once {} (by decide) [.analyze 2]⟩

end DecafCheck
