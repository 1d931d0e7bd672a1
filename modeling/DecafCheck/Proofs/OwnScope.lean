import DecafCheck.Proofs.Runs
import DecafCheck.Scope.Lemmas
/-!
# The declarations a scope owns

A scope-owning node lists its entries; those that are declarations bind their names, and the first
declaration of a name wins. Said without the analyser:

* `Tree.firstDecl t es x` is the first declaration among `es` named `x`: what the scope owned by a
  node with entries `es` binds `x` to, before anything is inherited;
* `Tree.conflictsAfter t before es` lists, in order, one conflict at the name of each declaration
  of `es` whose name an earlier declaration (of `before`, or of `es` itself) already has, pointing
  at that first declaration.

The main statement is `runs_declareEntries`: declaring the entries builds exactly the first
declarations, touches no table and reports exactly the conflicts.
-/

namespace DecafCheck

namespace Tree

/-- The name declared by node `d`, if it is a declaration. -/
def declName (t : Tree) (d : Nat) : Option String := (t.kindAt d).decl?.map (·.name.name)

/-- The first declaration among `es` that is named `x`. -/
def firstDecl (t : Tree) (es : List Nat) (x : String) : Option Nat :=
  es.find? fun d => t.declName d == some x

/-- The conflicts among `es`, which follow the entries `before`: at the name of each declaration
whose name is already declared, one conflict pointing at the first declaration of that name. -/
def conflictsAfter (t : Tree) (before : List Nat) : List Nat → List Diagnostic
  | [] => []
  | d :: rest =>
    let here := match (t.kindAt d).decl? with
      | some decl =>
        match t.firstDecl before decl.name.name with
        | some first => [⟨decl.name.span, .declConflict decl.name.name (t.spanAt first)⟩]
        | none => []
      | none => []
    here ++ t.conflictsAfter (before ++ [d]) rest

/-- The conflicts among the entries `es` of one scope. -/
def ownConflicts (t : Tree) (es : List Nat) : List Diagnostic := t.conflictsAfter [] es

@[simp] lemma firstDecl_nil (t : Tree) (x : String) : t.firstDecl [] x = none := rfl

/-- One more entry matters only for a name no earlier entry declares. -/
lemma firstDecl_append_singleton (t : Tree) (es : List Nat) (d : Nat) (x : String) :
    t.firstDecl (es ++ [d]) x =
      (t.firstDecl es x).or (if t.declName d = some x then some d else none) := by
  unfold firstDecl
  rw [List.find?_append]
  cases h : es.find? (fun d => t.declName d == some x) with
  | some e => rfl
  | none =>
    by_cases hd : t.declName d = some x
    · simp [hd]
    · simp [hd]

/-- Every declaration the entries bind is one of them and carries the name. -/
lemma declName_of_firstDecl {t : Tree} {es : List Nat} {x : String} {d : Nat}
    (h : t.firstDecl es x = some d) : d ∈ es ∧ t.declName d = some x := by
  have hmem := List.mem_of_find?_eq_some h
  have hname := List.find?_some h
  exact ⟨hmem, by simpa using hname⟩

end Tree

namespace Analysis

variable (t : Tree)

/-- Declaring one entry: a declaration whose name is free is bound; one whose name is taken is
reported, pointing at the earlier declaration. -/
lemma runs_declareOne (s : Scope) (d : Nat) (m : Memo) :
    match (t.kindAt d).decl? with
    | none => Runs (declareEntries.declareOne t s d) m s m []
    | some decl =>
      match s.lookup decl.name.name with
      | none => Runs (declareEntries.declareOne t s d) m ⟨s.table.insert decl.name.name d⟩ m []
      | some earlier => Runs (declareEntries.declareOne t s d) m s m
          [⟨decl.name.span, .declConflict decl.name.name (t.spanAt earlier)⟩] := by
  unfold declareEntries.declareOne
  cases hk : (t.kindAt d).decl? with
  | none => exact Runs.pure s m
  | some decl =>
    simp only [Scope.declare]
    cases hl : s.lookup decl.name.name with
    | none => exact Runs.pure _ m
    | some earlier =>
      have h := (Runs.report (m := m) decl.name.span
        (.declConflict decl.name.name (t.spanAt earlier))).bind
          (f := fun _ => (pure s : AnalysisM Scope)) (Runs.pure s m)
      simpa using h

/-- Declaring the entries `rest` after `before`, into a scope that binds the first declarations
of `before`: the scope binds the first declarations of `before ++ rest`, the tables stay, and the
conflicts of `rest` are reported. -/
lemma runs_foldlM_declareOne (m : Memo) (before rest : List Nat) (s : Scope)
    (hs : ∀ x, s.lookup x = t.firstDecl before x) :
    ∃ s', Runs (rest.foldlM (declareEntries.declareOne t) s) m s' m (t.conflictsAfter before rest) ∧
      ∀ x, s'.lookup x = t.firstDecl (before ++ rest) x := by
  induction rest generalizing before s with
  | nil => exact ⟨s, Runs.pure s m, by simpa using hs⟩
  | cons d rest ih =>
    rw [List.foldlM_cons]
    have hstep := runs_declareOne t s d m
    simp only [Tree.conflictsAfter]
    have hcat : before ++ [d] ++ rest = before ++ d :: rest := by simp
    cases hk : (t.kindAt d).decl? with
    | none =>
      simp only [hk] at hstep
      have hs' : ∀ x, s.lookup x = t.firstDecl (before ++ [d]) x := by
        intro x
        simp [Tree.firstDecl_append_singleton, Tree.declName, hk, hs]
      obtain ⟨s', hr, hl⟩ := ih (before ++ [d]) s hs'
      exact ⟨s', by simpa using hstep.bind hr, hcat ▸ hl⟩
    | some decl =>
      simp only [hk] at hstep
      cases hl : s.lookup decl.name.name with
      | none =>
        simp only [hl] at hstep
        have hfirst : t.firstDecl before decl.name.name = none := by rw [← hs, hl]
        have hs' : ∀ x, Scope.lookup ⟨s.table.insert decl.name.name d⟩ x =
            t.firstDecl (before ++ [d]) x := by
          intro x
          rw [Scope.lookup_insert, Tree.firstDecl_append_singleton, ← hs]
          by_cases hx : x = decl.name.name
          · subst hx
            simp [Tree.declName, hk, hl]
          · have hne : ¬ (some decl.name.name = some x) := fun h => hx (Option.some.inj h).symm
            simp [hx, Tree.declName, hk, hne]
        obtain ⟨s', hr, hl'⟩ := ih (before ++ [d]) _ hs'
        refine ⟨s', ?_, hcat ▸ hl'⟩
        simpa [hfirst] using hstep.bind hr
      | some earlier =>
        simp only [hl] at hstep
        have hfirst : t.firstDecl before decl.name.name = some earlier := by rw [← hs, hl]
        have hs' : ∀ x, s.lookup x = t.firstDecl (before ++ [d]) x := by
          intro x
          rw [Tree.firstDecl_append_singleton, ← hs]
          by_cases hx : x = decl.name.name
          · subst hx
            simp [hl]
          · have hne : ¬ (some decl.name.name = some x) := fun h => hx (Option.some.inj h).symm
            simp [Tree.declName, hk, hne]
        obtain ⟨s', hr, hl'⟩ := ih (before ++ [d]) s hs'
        refine ⟨s', ?_, hcat ▸ hl'⟩
        simpa [hfirst] using hstep.bind hr

/-- Declaring the entries of a scope binds each name to its first declaration among them, leaves
the tables as they are and reports exactly the conflicts among them. -/
theorem runs_declareEntries (es : List Nat) (m : Memo) :
    ∃ s, Runs (declareEntries t es) m s m (t.ownConflicts es) ∧
      ∀ x, s.lookup x = t.firstDecl es x := by
  obtain ⟨s, hr, hl⟩ := runs_foldlM_declareOne t m [] es {} (fun x => rfl)
  exact ⟨s, hr, hl⟩

end Analysis

end DecafCheck
