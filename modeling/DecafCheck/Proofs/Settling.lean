import DecafCheck.Proofs.Footprint
import DecafCheck.Proofs.Stepwise
/-!
# Every step of the analysis settles what it does

On a consistent tree with acyclic superclasses the analysis finds, for every node, one scope, one
type and one set of reports, whatever has been asked before. This file says it of every step of the
analysis at once (`Analysis.Settles`). Run from the blank memo, a computation `c` answers
`answerOf c` and does the items `footprint c`: scopes prepared, types found, nodes checked (`Item`).
Run from any memo whose tables are good (`Memo.Good`: prepared scopes built and closed, every type
the one `getType` finds, and what finding a type or, below a rank, checking a node does, done), `c`
answers the same, adds its footprint to what is done, and reports what it reports once everything
it does is done (`residue c`) together with the own reports (`ownReports`) of each item it does for
the first time.

Answering, sequencing and reporting settle (`Settles.pure`, `Settles.bind`, `Settles.report`);
preparing and looking up settle because the preparation block prepares exactly what it needs
(`settles_of_adds`); the checker's own steps on its tables settle at the ranks of `Tree.typeRank`
and `Tree.checkRank`, because a node is marked checked or typed only by a step that then does what
it needs (`settles_getType`, `settles_check_expr`, `settles_checkNode`). `Stepwise.checkBlock`
assembles them: every check and every typing settles (`settles_checkBlock`).
-/

namespace DecafCheck

/-- Something the analyser does once for a node, and remembers. -/
inductive Item where
  /-- Preparing the scope the node owns. -/
  | scope (n : Nat)
  /-- Finding the type of the node. -/
  | typed (n : Nat)
  /-- Checking the node. -/
  | checked (n : Nat)
deriving DecidableEq

namespace Memo

variable {m : Memo} {n : Nat} {ty : Ty}

/-- Everything done in `m`. -/
def done (m : Memo) : Finset Item :=
  m.scopeSet.image .scope ∪ m.types.keys.toFinset.image .typed ∪
    m.checked.toList.toFinset.image .checked

@[simp] lemma scope_mem_done : Item.scope n ∈ m.done ↔ m.scopes.contains n := by
  simp [done]

@[simp] lemma typed_mem_done : Item.typed n ∈ m.done ↔ m.types.contains n := by
  simp [done, Std.TreeMap.mem_keys]

@[simp] lemma checked_mem_done : Item.checked n ∈ m.done ↔ m.checked.contains n := by
  simp [done]

@[simp] lemma done_withLog (m : Memo) (log : Log) : (m.withLog log).done = m.done := rfl

@[simp] lemma done_blank : ({} : Memo).done = ∅ := by
  ext i
  cases i <;> simp

lemma done_insertType :
    ({ m with types := m.types.insert n ty } : Memo).done = insert (.typed n) m.done := by
  ext i
  cases i with
  | typed k =>
    by_cases hk : k = n
    · simp [hk]
    · simp [Std.TreeMap.contains_insert, hk, Ne.symm hk]
  | _ => simp

lemma done_mark : ({ m with checked := m.checked.insert n } : Memo).done = insert (.checked n) m.done := by
  ext i
  cases i with
  | checked k =>
    by_cases hk : k = n
    · simp [hk]
    · simp [Std.TreeSet.contains_insert, hk, Ne.symm hk]
  | _ => simp

/-- A step that prepares scopes only does nothing else. -/
lemma done_sdiff_of_tables {m' : Memo} (ht : m'.types = m.types) (hc : m'.checked = m.checked) :
    m'.done \ m.done = (m'.scopeSet \ m.scopeSet).image .scope := by
  ext i
  cases i <;> simp [ht, hc]

end Memo

/-- Item `i` ranks below `b`; preparing a scope has no rank. -/
def Tree.Below (t : Tree) (b : Nat) : Item → Prop
  | .scope _ => True
  | .typed k => t.typeRank k < b
  | .checked k => t.checkRank k < b

lemma Tree.Below.mono {t : Tree} {b b' : Nat} {i : Item} (h : t.Below b i) (hb : b ≤ b') :
    t.Below b' i := by
  cases i with
  | scope => trivial
  | typed k => exact Nat.lt_of_lt_of_le h hb
  | checked k => exact Nat.lt_of_lt_of_le h hb

namespace Analysis

variable {α β : Type}

/-- What `c` answers from the blank memo. -/
def answerOf (c : AnalysisM α) : α := (c.run {}).1

/-- What `c` does from the blank memo. -/
def footprint (c : AnalysisM α) : Finset Item := (c.run {}).2.done

/-- What `c` reports when run again, once everything it does is done. -/
def residue (c : AnalysisM α) : List Diagnostic := (c.run ((c.run {}).2.withLog {})).2.log.records

variable (t : Tree) (cfg : Config)

/-- What doing an item reports beyond what the items it needs report: the conflicts among the
entries of a scope; what finding a node's type reports once its operands are typed and the scopes
its rule reads are prepared; what checking a node reports once its children are checked. -/
def ownReports : Item → List Diagnostic
  | .scope j => t.ownConflictsAt j
  | .typed k => residue (infer t cfg k)
  | .checked k => residue (checkBody t cfg k)

end Analysis

open Analysis in
/-- The tables of `m` are what the analysis finds and, up to rank `b`, complete: prepared scopes
are built and closed, every type found is the type `getType` finds and everything finding it does is
done, and so is everything checking a node does, for each node checked below rank `b`. -/
structure Memo.Good (t : Tree) (cfg : Config) (b : Nat) (m : Memo) : Prop where
  /-- Prepared scopes are built. -/
  built : m.ScopesBuilt t
  /-- What they need is settled. -/
  closed : m.ScopesClosed t
  /-- Every type found is the one `getType` finds. -/
  types : ∀ k ty, m.types[k]? = some ty → ty = answerOf (getType t cfg k)
  /-- Finding a type has done everything it does. -/
  typed : ∀ k, m.types.contains k → footprint (getType t cfg k) ⊆ m.done
  /-- Below rank `b`, checking a node has done everything it does. -/
  checked : ∀ k, t.checkRank k < b → m.checked.contains k →
    footprint (check t cfg k) ⊆ m.done

namespace Memo.Good

variable {t : Tree} {cfg : Config} {b b' : Nat} {m m' : Memo} {n : Nat}

@[simp] lemma withLog_iff {log : Log} : (m.withLog log).Good t cfg b ↔ m.Good t cfg b :=
  ⟨fun ⟨a, b, c, d, e⟩ => ⟨a, b, c, d, e⟩, fun ⟨a, b, c, d, e⟩ => ⟨a, b, c, d, e⟩⟩

lemma blank (t : Tree) (cfg : Config) (b : Nat) : ({} : Memo).Good t cfg b where
  built _ _ h := by simp at h
  closed _ h := by simp at h
  types _ _ h := by simp at h
  typed _ h := by simp at h
  checked _ _ h := by simp at h

lemma mono (h : m.Good t cfg b) (hb : b' ≤ b) : m.Good t cfg b' :=
  { h with checked := fun k hk => h.checked k (Nat.lt_of_lt_of_le hk hb) }

/-- Good up to the rank of checking `n`, and done with `n` if `n` is checked: good one rank
further. -/
lemma succ (h : m.Good t cfg (t.checkRank n))
    (hn : m.checked.contains n → Analysis.footprint (Analysis.check t cfg n) ⊆ m.done) :
    m.Good t cfg (t.checkRank n + 1) :=
  { h with
    checked := fun k hk hc => by
      rcases Nat.lt_succ_iff_lt_or_eq.1 hk with hk | hk
      · exact h.checked k hk hc
      · rw [Tree.checkRank_inj hk] at hc ⊢
        exact hn hc }

/-- A node is marked checked before its check begins: at its rank, that is no fault. -/
lemma mark (h : m.Good t cfg b) (hb : b ≤ t.checkRank n) :
    ({ m with checked := m.checked.insert n } : Memo).Good t cfg b where
  built := h.built
  closed := h.closed
  types := h.types
  typed k hk := by
    rw [Memo.done_mark]
    exact (h.typed k hk).trans (Finset.subset_insert _ _)
  checked k hk hc := by
    have hkn : k ≠ n := by
      rintro rfl
      omega
    rw [Memo.done_mark]
    refine (h.checked k hk ?_).trans (Finset.subset_insert _ _)
    simpa [Std.TreeSet.contains_insert, Ne.symm hkn] using hc

/-- Storing the type `getType` finds, once what finding it does is done. -/
lemma insertType {ty : Ty} (h : m.Good t cfg b)
    (hty : ty = Analysis.answerOf (Analysis.getType t cfg n))
    (hfp : Analysis.footprint (Analysis.getType t cfg n) ⊆ insert (.typed n) m.done) :
    ({ m with types := m.types.insert n ty } : Memo).Good t cfg b where
  built := h.built
  closed := h.closed
  types k ty' hk := by
    rw [Std.TreeMap.getElem?_insert] at hk
    split at hk
    · next heq =>
      cases hk
      rw [← Std.compare_eq_iff_eq.1 heq]
      exact hty
    · exact h.types k ty' hk
  typed k hk := by
    rw [Memo.done_insertType]
    by_cases hkn : k = n
    · rw [hkn]
      exact hfp
    · refine (h.typed k ?_).trans (Finset.subset_insert _ _)
      simpa [Std.TreeMap.contains_insert, Ne.symm hkn] using hk
  checked k hk hc := by
    rw [Memo.done_insertType]
    exact (h.checked k hk hc).trans (Finset.subset_insert _ _)

/-- A step that only prepares, keeping scopes built and closed, keeps the memo good. -/
lemma of_scopes (h : m.Good t cfg b) (hb : m'.ScopesBuilt t) (hc : m'.ScopesClosed t)
    (ht : m'.types = m.types) (hch : m'.checked = m.checked) (hd : m.done ⊆ m'.done) :
    m'.Good t cfg b where
  built := hb
  closed := hc
  types k ty hk := h.types k ty (ht ▸ hk)
  typed k hk := (h.typed k (ht ▸ hk)).trans hd
  checked k hk hck := (h.checked k hk (hch ▸ hck)).trans hd

end Memo.Good

namespace Analysis

variable {α β : Type} (t : Tree) (cfg : Config)

/-- `c` settles below rank `b`: everything it does ranks below `b`, and from every memo good up to
`b` it answers what it answers from the blank memo, ends good up to `b` with its footprint added to
what was done, and reports its residue with the own reports of each item it does for the first
time. -/
def Settles (b : Nat) (c : AnalysisM α) : Prop :=
  (∀ i ∈ footprint c, t.Below b i) ∧
  ∀ m, m.Good t cfg b → ∃ m' ds, Runs c m (answerOf c) m' ds ∧ m'.Good t cfg b ∧
    m'.done = m.done ∪ footprint c ∧
    (ds : Multiset Diagnostic) =
      residue c + ∑ i ∈ m'.done \ m.done, (ownReports t cfg i : Multiset Diagnostic)

variable {t cfg} {c : AnalysisM α} {b : Nat} {a : α} {m M M' : Memo} {ds es : List Diagnostic}

/-- A run from the blank memo gives the answer and the footprint. -/
lemma answerOf_eq (h : Runs c {} a M ds) : answerOf c = a := by
  simp [answerOf, h.run_eq]

lemma footprint_eq (h : Runs c {} a M ds) : footprint c = M.done := by
  simp [footprint, h.run_eq]

/-- The residue is what a run from where the blank run ends reports. -/
lemma residue_eq {a' : α} (h₀ : Runs c {} a M ds) (h : Runs c M a' M' es) : residue c = es := by
  simp [residue, h₀.run_eq, h {}]

namespace Settles

/-- Once its footprint is done, a settling computation reports its residue only. -/
lemma reports_of_done (hc : Settles t cfg b c) (hm : m.Good t cfg b) (hfp : footprint c ⊆ m.done) :
    ∃ m' ds, Runs c m (answerOf c) m' ds ∧ m'.Good t cfg b ∧ m'.done = m.done ∧
      (ds : Multiset Diagnostic) = residue c := by
  obtain ⟨m', ds, hr, hg, hd, hds⟩ := hc.2 m hm
  have hd' : m'.done = m.done := by rw [hd, Finset.union_eq_left.2 hfp]
  refine ⟨m', ds, hr, hg, hd', ?_⟩
  rw [hds, hd', Finset.sdiff_self, Finset.sum_empty, add_zero]

/-- The blank run of a settling computation: its answer, its footprint. -/
lemma blank (hc : Settles t cfg b c) :
    ∃ M ds, Runs c {} (answerOf c) M ds ∧ M.Good t cfg b ∧ M.done = footprint c := by
  obtain ⟨M, ds, hr, hg, hd, -⟩ := hc.2 {} (Memo.Good.blank t cfg b)
  exact ⟨M, ds, hr, hg, by rw [hd, Memo.done_blank, Finset.empty_union]⟩

lemma mono (hc : Settles t cfg b c) {b' : Nat} (hb : b ≤ b') : Settles t cfg b' c := by
  refine ⟨fun i hi => (hc.1 i hi).mono hb, fun m hm => ?_⟩
  obtain ⟨m', ds, hr, hg, hd, hds⟩ := hc.2 m (hm.mono hb)
  refine ⟨m', ds, hr, { hg with checked := fun k hk hck => ?_ }, hd, hds⟩
  by_cases hkb : t.checkRank k < b
  · exact hg.checked k hkb hck
  -- a node marked in between was marked before: the run marks only below `b`
  by_cases hold : m.checked.contains k
  · rw [hd]
    exact (hm.checked k hk hold).trans Finset.subset_union_left
  · have hnew : Item.checked k ∈ footprint c := by
      have : Item.checked k ∈ m'.done := Memo.checked_mem_done.2 hck
      rw [hd] at this
      exact (Finset.mem_union.1 this).resolve_left (by simpa using hold)
    exact absurd (hc.1 _ hnew) hkb

lemma pure (t : Tree) (cfg : Config) (b : Nat) (a : α) : Settles t cfg b (Pure.pure a : AnalysisM α) := by
  have hr₀ := Runs.pure a ({} : Memo)
  refine ⟨fun i hi => ?_, fun m hm => ⟨m, [], ?_, hm, ?_, ?_⟩⟩
  · rw [footprint_eq hr₀, Memo.done_blank] at hi
    cases hi
  · rw [answerOf_eq hr₀]
    exact Runs.pure a m
  · rw [footprint_eq hr₀, Memo.done_blank, Finset.union_empty]
  · rw [residue_eq hr₀ (Runs.pure a {})]
    simp

lemma report (t : Tree) (cfg : Config) (b : Nat) (span : Span) (fault : Fault) :
    Settles t cfg b (DecafCheck.report span fault) := by
  have hr₀ := Runs.report (m := {}) span fault
  refine ⟨fun i hi => ?_, fun m hm => ⟨m, _, Runs.report span fault, hm, ?_, ?_⟩⟩
  · rw [footprint_eq hr₀, Memo.done_blank] at hi
    cases hi
  · rw [footprint_eq hr₀, Memo.done_blank, Finset.union_empty]
  · rw [residue_eq hr₀ (Runs.report span fault)]
    simp

/-- Sequencing settles: the footprints add up, and so do the residues. -/
lemma bind {f : α → AnalysisM β} (hc : Settles t cfg b c) (hf : ∀ a, Settles t cfg b (f a)) :
    Settles t cfg b (c >>= f) := by
  -- the blank run: `c`, then `f` from where it ends
  obtain ⟨M₁, ds₁, hr₁, hg₁, hd₁⟩ := hc.blank
  obtain ⟨M₂, ds₂, hr₂, hg₂, hd₂, -⟩ := (hf (answerOf c)).2 M₁ hg₁
  have hr := hr₁.bind hr₂
  have hans : answerOf (c >>= f) = answerOf (f (answerOf c)) := answerOf_eq hr
  have hfoot : footprint (c >>= f) = footprint c ∪ footprint (f (answerOf c)) := by
    rw [footprint_eq hr, hd₂, hd₁]
  -- the residue: both again, from where the blank run ends
  have hres : (residue (c >>= f) : Multiset Diagnostic) =
      residue c + residue (f (answerOf c)) := by
    have hfp₁ : footprint c ⊆ M₂.done := by
      rw [hd₂, hd₁]
      exact Finset.subset_union_left
    obtain ⟨M₃, ds₃, hr₃, hg₃, hd₃, hds₃⟩ := hc.reports_of_done hg₂ hfp₁
    have hfp₂ : footprint (f (answerOf c)) ⊆ M₃.done := by
      rw [hd₃, hd₂]
      exact Finset.subset_union_right
    obtain ⟨M₄, ds₄, hr₄, -, -, hds₄⟩ := (hf (answerOf c)).reports_of_done hg₃ hfp₂
    rw [residue_eq hr (hr₃.bind hr₄), ← Multiset.coe_add, hds₃, hds₄]
  refine ⟨fun i hi => ?_, fun m hm => ?_⟩
  · rw [hfoot] at hi
    rcases Finset.mem_union.1 hi with hi | hi
    · exact hc.1 i hi
    · exact (hf _).1 i hi
  obtain ⟨m₁, ds, hr₁', hg₁', hd₁', hds⟩ := hc.2 m hm
  obtain ⟨m₂, es, hr₂', hg₂', hd₂', hes⟩ := (hf (answerOf c)).2 m₁ hg₁'
  have hsub₁ : m.done ⊆ m₁.done := hd₁' ▸ Finset.subset_union_left
  have hsub₂ : m₁.done ⊆ m₂.done := hd₂' ▸ Finset.subset_union_left
  refine ⟨m₂, ds ++ es, hans ▸ hr₁'.bind hr₂', hg₂', ?_, ?_⟩
  · rw [hd₂', hd₁', hfoot, Finset.union_assoc]
  · rw [← Multiset.coe_add, hds, hes, hres, Finset.sum_sdiff_trans _ hsub₁ hsub₂]
    exact add_add_add_comm _ _ _ _

end Settles

/-- From built and closed scopes, `c` prepares what `F` asks for and answers what `R` allows, when
it reports nothing or nothing `F` asks for lies on a superclass cycle. -/
def AddsRun (t : Tree) (F : Nat → Prop) (R : α → Prop) (c : AnalysisM α) : Prop :=
  ∀ m, m.ScopesBuilt t → m.ScopesClosed t → ∃ a m' ds, Runs c m a m' ds ∧
    (ds = [] ∨ t.OffCycles F → Adds t F m m' ds ∧ R a)

/-- A run that prepares what `F` asks for does exactly the scopes of the owners among them. -/
lemma Adds.mem_done {F : Nat → Prop} {m' : Memo} (h : Adds t F m m' ds) (i : Item) :
    i ∈ m'.done ↔ i ∈ m.done ∨ ∃ j, i = .scope j ∧ F j ∧ ((t.kindAt j).scopeEntries?).isSome := by
  cases i with
  | scope j => simp [h.contains_iff]
  | typed j => simp [h.types_eq]
  | checked j => simp [h.checked_eq]

/-- A step of the preparation block settles when it prepares what `F` asks for and its answer is
the one `R` allows. -/
lemma settles_of_adds {F : Nat → Prop} {R : α → Prop} (huniq : ∀ a a', R a → R a' → a = a')
    (h : AddsRun t F R c) (hoff : t.OffCycles F) (b : Nat) : Settles t cfg b c := by
  obtain ⟨a₀, M, ds₀, hr₀, hq₀⟩ :=
    h {} (Memo.Good.blank t cfg 0).built (Memo.Good.blank t cfg 0).closed
  obtain ⟨hadds₀, hans₀⟩ := hq₀ (.inr hoff)
  -- the blank run prepares the scopes of the owners `F` asks for, and nothing else
  have hfoot : footprint c = M.done := footprint_eq hr₀
  have hmem : ∀ i, i ∈ footprint c ↔ ∃ j, i = .scope j ∧ F j ∧ ((t.kindAt j).scopeEntries?).isSome := by
    intro i
    rw [hfoot, hadds₀.mem_done, Memo.done_blank]
    simp
  refine ⟨fun i hi => ?_, fun m hm => ?_⟩
  · obtain ⟨j, rfl, -⟩ := (hmem i).1 hi
    trivial
  obtain ⟨a, m', ds, hr, hq⟩ := h m hm.built hm.closed
  obtain ⟨hadds, hans⟩ := hq (.inr hoff)
  have hdone : m'.done = m.done ∪ footprint c := by
    ext i
    rw [Finset.mem_union, hmem, hadds.mem_done]
  -- run again where the blank run ends, nothing more is prepared and nothing reported
  have hres : residue c = [] := by
    obtain ⟨a', M', ds', hr', hq'⟩ := h M hadds₀.built hadds₀.closed
    have hadds' := (hq' (.inr hoff)).1
    have hsame : M'.scopeSet = M.scopeSet := by
      ext j
      simp only [Memo.mem_scopeSet, hadds'.contains_iff, hadds₀.contains_iff]
      exact or_self_right
    have hnil : (ds' : Multiset Diagnostic) = 0 := by
      rw [hadds'.reports, hsame, Finset.sdiff_self, Finset.sum_empty]
    rw [residue_eq hr₀ hr']
    exact (Multiset.coe_eq_zero _).1 hnil
  refine ⟨m', ds, answerOf_eq hr₀ ▸ huniq a a₀ hans hans₀ ▸ hr,
    hm.of_scopes hadds.built hadds.closed hadds.types_eq hadds.checked_eq
      (hdone ▸ Finset.subset_union_left), hdone, ?_⟩
  rw [hres, Memo.done_sdiff_of_tables hadds.types_eq hadds.checked_eq,
    Finset.sum_image fun _ _ _ _ h => Item.scope.inj h, hadds.reports]
  simp [ownReports]


/-! ## Preparation and lookup -/

/-- What reading the scope of `n` gives once it is prepared: the built scope, or nothing when `n`
owns none. -/
def PreparedIs (t : Tree) (n : Nat) : Option Scope → Prop
  | some s => t.ScopeBuilt n s
  | none => (t.kindAt n).scopeEntries? = none

lemma PreparedIs.unique {n : Nat} {r r' : Option Scope} (h : PreparedIs t n r)
    (h' : PreparedIs t n r') : r = r' := by
  cases r with
  | some s =>
    cases r' with
    | some s' => rw [Tree.ScopeBuilt.unique h h']
    | none =>
      have := Tree.ScopeBuilt.owner h
      rw [show (t.kindAt n).scopeEntries? = none from h'] at this
      cases this
  | none =>
    cases r' with
    | some s' =>
      have := Tree.ScopeBuilt.owner h'
      rw [show (t.kindAt n).scopeEntries? = none from h] at this
      cases this
    | none => rfl

lemma LookupIs.unique {n : Nat} {x : String} {deep : Bool} {r r' : Option Nat}
    (h : t.LookupIs n x deep r) (h' : t.LookupIs n x deep r') : r = r' := by
  cases deep with
  | true => exact Tree.FindsIs.unique h h'
  | false =>
    obtain ⟨S, hS, rfl⟩ := h
    obtain ⟨S', hS', rfl⟩ := h'
    rw [hS.unique hS']

variable (cfg) (hcons : t.Consistent)
include hcons

/-! The four lookups of the preparation block, each with what it prepares and answers. Nothing is
pending at the start, so a run that reports nothing needs nothing said of cycles. -/

/-- Preparing a scope from the outside. -/
lemma adds_prepareScope (n : Nat) :
    Spec (prepareScope t n) fun m _ m' ds => m.ScopesBuilt t → m.ScopesClosed t →
      (ds = [] ∨ t.OffCycles (Relation.ReflTransGen t.Needs n)) →
      Adds t (Relation.ReflTransGen t.Needs n) m m' ds :=
  Spec.mono ((adds_scopeBlock hcons).1 [] n) fun _ _ _ _ hq hb hc hoff =>
    hq.2 hb hc (fun _ h => absurd h List.not_mem_nil)
      (hoff.imp_left fun h => ⟨h, fun hn => absurd hn List.not_mem_nil⟩)

lemma addsRun_prepareScope (n : Nat) :
    AddsRun t (Relation.ReflTransGen t.Needs n) (fun _ => True) (prepareScope t n) := by
  intro m hb hc
  obtain ⟨a, m', ds, hr, hq⟩ := adds_prepareScope hcons n m
  exact ⟨a, m', ds, hr, fun hoff => ⟨hq hb hc hoff, trivial⟩⟩

lemma addsRun_prepared (n : Nat) :
    AddsRun t (Relation.ReflTransGen t.Needs n) (PreparedIs t n)
      (prepareScope t n >>= fun _ => DecafCheck.preparedScope n) := by
  intro m hb hc
  obtain ⟨_, m', ds, hr, hq⟩ := adds_prepareScope hcons n m
  refine ⟨_, m', ds, Runs.bind_eq hr (runs_preparedScope n m') (List.append_nil ds), fun hoff => ?_⟩
  have hadds := hq hb hc hoff
  refine ⟨hadds, ?_⟩
  cases hs : m'.scopes[n]? with
  | some s => exact hadds.built n s hs
  | none =>
    rcases hadds.prepared with hc' | hk
    · rw [Std.TreeMap.contains_eq_isSome_getElem?, hs] at hc'
      cases hc'
    · exact hk

lemma addsRun_findDecl (n : Nat) (x : String) (deep : Bool) :
    AddsRun t (t.LookupReads n x deep) (t.LookupIs n x deep) (findDecl t n x deep) := by
  intro m hb hc
  obtain ⟨r, m', ds, hr, -, hq⟩ := (adds_scopeBlock hcons).2.2 [] n x deep m
  exact ⟨r, m', ds, hr, hq hb hc fun _ h => absurd h List.not_mem_nil⟩

lemma addsRun_superclassOf (c : Nat) : AddsRun t (t.SuperReads c) (t.SuperIs c) (superclassOf t c) := by
  intro m hb hc
  obtain ⟨r, m', ds, hr, -, hq⟩ := (adds_scopeBlock hcons).2.1 [] c m
  exact ⟨r, m', ds, hr, hq hb hc fun _ h => absurd h List.not_mem_nil⟩

variable (hacyc : t.SuperAcyclic)
include hacyc

/-- Settling is a property of every step of the analysis. -/
theorem stepwise_settles (b : Nat) : Stepwise t (Settles t cfg b) where
  pure a := Settles.pure t cfg b a
  bind hc hf := hc.bind hf
  report span _ _ := Settles.report t cfg b span _
  prepare n := settles_of_adds (fun _ _ _ _ => rfl) (addsRun_prepareScope hcons n)
    (.of_superAcyclic hacyc _) b
  prepared n := settles_of_adds (fun _ _ h h' => PreparedIs.unique h h')
    (addsRun_prepared hcons n) (.of_superAcyclic hacyc _) b
  find n x deep := settles_of_adds (fun _ _ h h' => LookupIs.unique h h')
    (addsRun_findDecl hcons n x deep) (.of_superAcyclic hacyc _) b
  super c := settles_of_adds (fun _ _ h h' => Tree.SuperIs.unique h h')
    (addsRun_superclassOf hcons c) (.of_superAcyclic hacyc _) b


/-! ## The checker's own steps -/

section Checker

variable {cfg} {n : Nat}
omit hcons hacyc

/-- Finding the type of a node leaves it typed. -/
lemma getType_run_typed (m : Memo) : ((getType t cfg n).run m).2.types.contains n := by
  rw [getType]
  cases h : m.types[n]? with
  | some ty =>
    simp only [h, StateT.run_bind, StateT.run_get, pure_bind, StateT.run_pure]
    show m.types.contains n = true
    rw [Std.TreeMap.contains_eq_isSome_getElem?, h]
    rfl
  | none =>
    simp only [h, StateT.run_bind, StateT.run_get, pure_bind, StateT.run_modify]
    generalize (infer t cfg n).run m = r
    obtain ⟨a, s⟩ := r
    exact Std.TreeMap.contains_insert_self

/-- Typing a node again reports nothing. -/
lemma residue_getType : residue (getType t cfg n) = [] := by
  obtain ⟨ty, hty⟩ := Option.isSome_iff_exists.1
    ((Std.TreeMap.contains_eq_isSome_getElem? ..).symm.trans (getType_run_typed {} : ((getType t cfg n).run {}).2.types.contains n))
  simp [residue, runs_getType_memo (m := ((getType t cfg n).run {}).2) hty {}]

/-- Checking an expression beyond typing it does nothing. -/
lemma runs_checkBody_of_expr (hexpr : (t.kindAt n).isExpr) (m : Memo) :
    Runs (checkBody t cfg n) m () m [] := by
  cases hk : t.kindAt n with
  | expr e =>
    rw [checkBody, hk]
    exact fun _ => rfl
  | _ => simp [hk, NodeKind.isExpr] at hexpr

lemma runs_checkNode_done (hc : m.checked.contains n) : Runs (checkNode t cfg n) m () m [] := by
  rw [checkNode_eq]
  refine Runs.get_bind (fun _ => rfl) ?_
  simp only [hc, if_true]
  exact Runs.pure () m

lemma runs_checkNode_body {m' : Memo} {ds : List Diagnostic} (hc : m.checked.contains n = false)
    (h : Runs (checkBody t cfg n) { m with checked := m.checked.insert n } () m' ds) :
    Runs (checkNode t cfg n) m () m' ds := by
  rw [checkNode_eq]
  refine Runs.get_bind (fun _ => rfl) ?_
  simp only [hc]
  exact Runs.bind_eq (Runs.modify fun _ => rfl) h (List.nil_append ds)

/-- Finding a type settles one rank above inferring it: what inferring does, and the type. -/
lemma settles_getType (hi : Settles t cfg (t.typeRank n) (infer t cfg n)) :
    Settles t cfg (t.typeRank n + 1) (getType t cfg n) := by
  obtain ⟨M, ds₀, hr₀, -, hd₀⟩ := hi.blank
  have hrun₀ := runs_getType_infer (by simp) hr₀
  have hans : answerOf (getType t cfg n) = answerOf (infer t cfg n) := answerOf_eq hrun₀
  have hfoot : footprint (getType t cfg n) = insert (.typed n) (footprint (infer t cfg n)) := by
    rw [footprint_eq hrun₀, Memo.done_insertType, hd₀]
  -- inferring the type of `n` ranks below typing `n`, so it does not type `n`
  have hself : Item.typed n ∉ footprint (infer t cfg n) := fun h =>
    Nat.lt_irrefl _ (hi.1 _ h)
  refine ⟨fun i hi' => ?_, fun m hm => ?_⟩
  · rw [hfoot] at hi'
    rcases Finset.mem_insert.1 hi' with rfl | hi'
    · exact Nat.lt_succ_self _
    · exact (hi.1 i hi').mono (Nat.le_succ _)
  cases hty : m.types[n]? with
  | some ty =>
    have hsub := hm.typed n (by simp [Std.TreeMap.contains_eq_isSome_getElem?, hty])
    refine ⟨m, [], hm.types n ty hty ▸ runs_getType_memo hty, hm,
      (Finset.union_eq_left.2 hsub).symm, ?_⟩
    simp [residue_getType]
  | none =>
    obtain ⟨m₁, ds, hr, hg₁, hd₁, hds⟩ := (hi.mono (Nat.le_succ _)).2 m hm
    have hnot : Item.typed n ∉ m.done := by simp [Std.TreeMap.contains_eq_isSome_getElem?, hty]
    have hnot₁ : Item.typed n ∉ m₁.done \ m.done := by
      rw [Finset.mem_sdiff]
      rintro ⟨h, -⟩
      rw [hd₁, Finset.mem_union] at h
      exact h.elim hnot hself
    refine ⟨_, ds, ?_, hg₁.insertType hans.symm ?_, ?_, ?_⟩
    · rw [hans]
      exact runs_getType_infer hty hr
    · rw [hfoot, hd₁]
      exact Finset.insert_subset_insert _ Finset.subset_union_right
    · rw [Memo.done_insertType, hd₁, hfoot, Finset.union_insert]
    · rw [Memo.done_insertType, Finset.insert_sdiff_of_notMem _ hnot, Finset.sum_insert hnot₁,
        hds, residue_getType]
      simp [ownReports]

/-- Checking an expression settles one rank above typing it: marking it, and typing it. -/
lemma settles_check_expr (hexpr : (t.kindAt n).isExpr)
    (hg : Settles t cfg (t.typeRank n + 1) (getType t cfg n)) :
    Settles t cfg (t.checkRank n + 1) (check t cfg n) := by
  have hrank : t.typeRank n + 1 = t.checkRank n := by
    simp [Tree.typeRank, Tree.checkRank, hexpr]
  rw [hrank] at hg
  -- the blank run: mark `n`, then type it
  obtain ⟨M, ds₀, hr₀, -, hdM, -⟩ := hg.2 _ ((Memo.Good.blank t cfg _).mark le_rfl)
  have hrun₀ : Runs (check t cfg n) {} () M ds₀ := runs_check_expr hexpr (by simp) hr₀
  have hfoot : footprint (check t cfg n) = insert (.checked n) (footprint (getType t cfg n)) := by
    rw [footprint_eq hrun₀, hdM, Memo.done_mark, Memo.done_blank, Finset.insert_union,
      Finset.empty_union]
  have hmarked : M.checked.contains n := by
    rw [← Memo.checked_mem_done, hdM, Memo.done_mark]
    exact Finset.mem_union_left _ (Finset.mem_insert_self _ _)
  have hres : residue (check t cfg n) = [] := residue_eq hrun₀ (runs_check_done hmarked)
  have hown : ownReports t cfg (.checked n) = [] :=
    residue_eq (runs_checkBody_of_expr hexpr {}) (runs_checkBody_of_expr hexpr {})
  refine ⟨fun i hi => ?_, fun m hm => ?_⟩
  · rw [hfoot] at hi
    rcases Finset.mem_insert.1 hi with rfl | hi
    · exact Nat.lt_succ_self _
    · exact (hg.1 i hi).mono (Nat.le_succ _)
  by_cases hc : m.checked.contains n
  · exact ⟨m, [], runs_check_done hc, hm,
      (Finset.union_eq_left.2 (hm.checked n (Nat.lt_succ_self _) hc)).symm, by simp [hres]⟩
  have hm₀ := (hm.mono (Nat.le_succ _)).mark (n := n) le_rfl
  obtain ⟨m₁, ds, hr, hg₁, hd₁, hds⟩ := hg.2 _ hm₀
  have hsub₀ : m.done ⊆ ({ m with checked := m.checked.insert n } : Memo).done := by
    rw [Memo.done_mark]
    exact Finset.subset_insert _ _
  have hsub₁ : ({ m with checked := m.checked.insert n } : Memo).done ⊆ m₁.done :=
    hd₁ ▸ Finset.subset_union_left
  have hdone : m₁.done = m.done ∪ footprint (check t cfg n) := by
    rw [hd₁, Memo.done_mark, hfoot, Finset.insert_union, Finset.union_insert]
  refine ⟨m₁, ds, runs_check_expr hexpr (Bool.eq_false_iff.2 hc) hr,
    hg₁.succ fun _ => hdone ▸ Finset.subset_union_right, hdone, ?_⟩
  have hnew : ({ m with checked := m.checked.insert n } : Memo).done \ m.done = {.checked n} := by
    rw [Memo.done_mark, Finset.insert_sdiff_cancel (by simpa using hc)]
  rw [Finset.sum_sdiff_trans _ hsub₀ hsub₁, hnew, Finset.sum_singleton, hown, hds, residue_getType,
    hres]
  simp

/-- Checking a declaration or statement settles one rank above checking its body: marking it,
and its body. -/
lemma settles_checkNode (hexpr : (t.kindAt n).isExpr = false)
    (hb : Settles t cfg (t.checkRank n) (checkBody t cfg n)) :
    Settles t cfg (t.checkRank n + 1) (checkNode t cfg n) := by
  -- the blank run: mark `n`, then check its body
  obtain ⟨M, ds₀, hr₀, -, hdM, -⟩ := hb.2 _ ((Memo.Good.blank t cfg _).mark le_rfl)
  have hrun₀ : Runs (checkNode t cfg n) {} () M ds₀ := runs_checkNode_body (by simp) hr₀
  have hfoot : footprint (checkNode t cfg n) =
      insert (.checked n) (footprint (checkBody t cfg n)) := by
    rw [footprint_eq hrun₀, hdM, Memo.done_mark, Memo.done_blank, Finset.insert_union,
      Finset.empty_union]
  have hmarked : M.checked.contains n := by
    rw [← Memo.checked_mem_done, hdM, Memo.done_mark]
    exact Finset.mem_union_left _ (Finset.mem_insert_self _ _)
  have hres : residue (checkNode t cfg n) = [] := residue_eq hrun₀ (runs_checkNode_done hmarked)
  have hcheck : footprint (check t cfg n) = footprint (checkNode t cfg n) := by
    rw [check_of_not_expr t cfg hexpr]
  refine ⟨fun i hi => ?_, fun m hm => ?_⟩
  · rw [hfoot] at hi
    rcases Finset.mem_insert.1 hi with rfl | hi
    · exact Nat.lt_succ_self _
    · exact (hb.1 i hi).mono (Nat.le_succ _)
  by_cases hc : m.checked.contains n
  · refine ⟨m, [], runs_checkNode_done hc, hm, ?_, by simp [hres]⟩
    rw [← hcheck]
    exact (Finset.union_eq_left.2 (hm.checked n (Nat.lt_succ_self _) hc)).symm
  have hm₀ := (hm.mono (Nat.le_succ _)).mark (n := n) le_rfl
  obtain ⟨m₁, ds, hr, hg₁, hd₁, hds⟩ := hb.2 _ hm₀
  have hsub₀ : m.done ⊆ ({ m with checked := m.checked.insert n } : Memo).done := by
    rw [Memo.done_mark]
    exact Finset.subset_insert _ _
  have hsub₁ : ({ m with checked := m.checked.insert n } : Memo).done ⊆ m₁.done :=
    hd₁ ▸ Finset.subset_union_left
  have hdone : m₁.done = m.done ∪ footprint (checkNode t cfg n) := by
    rw [hd₁, Memo.done_mark, hfoot, Finset.insert_union, Finset.union_insert]
  refine ⟨m₁, ds, runs_checkNode_body (Bool.eq_false_iff.2 hc) hr,
    hg₁.succ fun _ => hcheck ▸ hdone ▸ Finset.subset_union_right, hdone, ?_⟩
  have hnew : ({ m with checked := m.checked.insert n } : Memo).done \ m.done = {.checked n} := by
    rw [Memo.done_mark, Finset.insert_sdiff_cancel (by simpa using hc)]
  rw [Finset.sum_sdiff_trans _ hsub₀ hsub₁, hnew, Finset.sum_singleton, hds, hres]
  simp [ownReports]

end Checker

include hcons hacyc

/-- On a consistent tree with acyclic superclasses, every check and every typing of a node
settles, at the ranks of its steps. -/
theorem settles_checkBlock :
    (∀ n, Settles t cfg (t.checkRank n + 1) (check t cfg n)) ∧
      (∀ n, (t.kindAt n).isExpr = false → Settles t cfg (t.checkRank n + 1) (checkNode t cfg n)) ∧
      (∀ n, Settles t cfg (t.typeRank n + 1) (getType t cfg n)) ∧
      (∀ n, Settles t cfg (t.typeRank n) (infer t cfg n)) :=
  Stepwise.checkBlock t cfg (stepwise_settles cfg hcons hacyc) (fun hb h => h.mono hb)
    (fun _ h => settles_getType h) (fun _ hexpr h => settles_check_expr hexpr h)
    (fun _ hexpr h => settles_checkNode hexpr h)

end Analysis

end DecafCheck
