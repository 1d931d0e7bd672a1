import DecafCheck.Proofs.OwnScope
/-!
# Runs of scope preparation and lookup

Preparing a scope is declaring the owner's entries, then, for a class, inheriting from the
superclass (`inheritWithin`), then storing the result (`prepareWithin_eq`). This file says once,
per branch, what a run of each function of the preparation block does (`runs_prepareWithin_build`,
`runs_findWithin_up`, ...): later proofs cite these lemmas and never unfold the functions.

From them follows the first fact about the whole block (`prepares_scopeBlock`): preparation and
lookup only grow the memo, and report nothing but declaration conflicts and inheritance cycles.
-/

namespace DecafCheck

namespace Fault

/-- The faults that only lazy scope preparation reports. -/
def fromPreparation : Fault → Bool
  | declConflict _ _ | cyclicInheritance _ => true
  | _ => false

end Fault

namespace Tree

/-- Where and under which name the superclass of `c` is looked up: from the parent of class `c`,
under its `extends` name. -/
def superSite (t : Tree) (c : Nat) : Option (Nat × Ident) :=
  match (t.kindAt c).cls?, t.parentOf c with
  | some cd, some p => cd.superName.map ((p, ·))
  | _, _ => none

/-- Every conflict among a scope's entries is a fault of preparation. -/
lemma fromPreparation_of_mem_conflictsAfter {t : Tree} {before es : List Nat} {d : Diagnostic}
    (h : d ∈ t.conflictsAfter before es) : d.fault.fromPreparation := by
  induction es generalizing before with
  | nil => cases h
  | cons e rest ih =>
    simp only [conflictsAfter, List.mem_append] at h
    rcases h with h | h
    · split at h
      · split at h
        · simp only [List.mem_singleton] at h
          subst h
          rfl
        · cases h
      · cases h
    · exact ih h

end Tree

namespace Analysis

variable {t : Tree} {α β : Type}

lemma Runs.bind_eq {c : AnalysisM α} {f : α → AnalysisM β} {m m₁ m₂ : Memo} {a : α} {b : β}
    {ds es fs : List Diagnostic} (hc : Runs c m a m₁ ds) (hf : Runs (f a) m₁ b m₂ es)
    (h : ds ++ es = fs) : Runs (c >>= f) m b m₂ fs :=
  h ▸ hc.bind hf

lemma runs_preparedScope (n : Nat) (m : Memo) : Runs (preparedScope n) m m.scopes[n]? m [] :=
  fun _ => rfl

variable (t) in
/-- What a class adds to its own scope `own`: the bindings of its superclass's scope for the
names it leaves free. A superclass still being prepared closes a cycle; it is reported at the
class's name and nothing is inherited. -/
def inheritWithin (pending : List Nat) (n : Nat) (own : Scope) : AnalysisM Scope :=
  match (t.kindAt n).cls? with
  | none => pure own
  | some c => do
    match ← superclassWithin t (n :: pending) n with
    | none => pure own
    | some sup => do
      prepareWithin t (n :: pending) sup
      match ← preparedScope sup with
      | some supScope => pure (own.merge supScope).1
      | none => do
        report c.name.span (.cyclicInheritance c.name.name)
        pure own

variable (t) in
/-- Preparing a scope: unless it is prepared, owns no scope or is under preparation, declare its
entries, inherit, and store the result. -/
lemma prepareWithin_eq (pending : List Nat) (n : Nat) : prepareWithin t pending n = (do
    if (← get).scopes.contains n then return
    match (t.kindAt n).scopeEntries? with
    | none => return
    | some es =>
      if n ∈ pending then return
      let own ← declareEntries t es
      let sc ← inheritWithin t pending n own
      modify fun m => { m with scopes := m.scopes.insert n sc }) := by
  rw [prepareWithin]
  refine congrArg (get >>= ·) (funext fun s => ?_)
  split
  · rfl
  · split
    · rename_i hk
      simp only [hk]
    · rename_i es hk
      simp only [hk]
      split
      · rfl
      · refine congrArg (declareEntries t es >>= ·) (funext fun own => ?_)
        unfold inheritWithin
        cases hc : (t.kindAt n).cls? with
        | none => simp
        | some c =>
          simp only [bind_assoc]
          refine congrArg (superclassWithin t (n :: pending) n >>= ·) (funext fun r => ?_)
          cases r with
          | none => simp
          | some sup =>
            simp only [bind_assoc]
            refine congrArg (prepareWithin t (n :: pending) sup >>= ·) (funext fun _ => ?_)
            refine congrArg (preparedScope sup >>= ·) (funext fun r => ?_)
            cases r <;> simp

/-! ## One lemma per branch -/

section Branches

variable {P : List Nat} {n p c sup : Nat} {x : String} {deep : Bool} {m m₁ m₂ : Memo}
  {ds es : List Diagnostic} {own sc s : Scope} {r : Option Nat}

/-- A scope that is prepared, not owned, or under preparation is left alone. -/
lemma runs_prepareWithin_skip
    (h : m.scopes.contains n ∨ (t.kindAt n).scopeEntries? = none ∨ n ∈ P) :
    Runs (prepareWithin t P n) m () m [] := by
  rw [prepareWithin_eq]
  refine Runs.get_bind (fun _ => rfl) ?_
  by_cases hs : m.scopes.contains n
  · simp only [hs, if_true]
    exact Runs.pure () m
  · simp only [hs]
    rcases h with h | h | h
    · exact absurd h hs
    · simp only [h]
      exact Runs.pure () m
    · cases hk : (t.kindAt n).scopeEntries? with
      | none => exact Runs.pure () m
      | some es =>
        simp only [h, if_true]
        exact Runs.pure () m

/-- A scope to prepare is its declared entries with what the class inherits, stored at `n`. -/
lemma runs_prepareWithin_build {es' : List Nat} (hs : m.scopes.contains n = false)
    (hk : (t.kindAt n).scopeEntries? = some es') (hp : n ∉ P)
    (hown : Runs (declareEntries t es') m own m ds)
    (hinh : Runs (inheritWithin t P n own) m sc m₁ es) :
    Runs (prepareWithin t P n) m () { m₁ with scopes := m₁.scopes.insert n sc } (ds ++ es) := by
  rw [prepareWithin_eq]
  refine Runs.get_bind (fun _ => rfl) ?_
  simp only [hs, hk, hp, if_false, Bool.false_eq_true]
  exact Runs.bind_eq hown (Runs.bind_eq hinh (Runs.modify fun _ => rfl) rfl) (by simp)

lemma runs_inheritWithin_of_cls_none (hc : (t.kindAt n).cls? = none) :
    Runs (inheritWithin t P n own) m own m [] := by
  unfold inheritWithin
  rw [hc]
  exact Runs.pure own m

lemma runs_inheritWithin_no_super {cd : ClassDecl} (hc : (t.kindAt n).cls? = some cd)
    (hs : Runs (superclassWithin t (n :: P) n) m none m₁ ds) :
    Runs (inheritWithin t P n own) m own m₁ ds := by
  unfold inheritWithin
  rw [hc]
  exact Runs.bind_eq hs (Runs.pure own m₁) (List.append_nil ds)

lemma runs_inheritWithin_merge {cd : ClassDecl} (hc : (t.kindAt n).cls? = some cd)
    (hs : Runs (superclassWithin t (n :: P) n) m (some sup) m₁ ds)
    (hp : Runs (prepareWithin t (n :: P) sup) m₁ () m₂ es) (hsc : m₂.scopes[sup]? = some s) :
    Runs (inheritWithin t P n own) m (own.merge s).1 m₂ (ds ++ es) := by
  unfold inheritWithin
  rw [hc]
  refine Runs.bind_eq hs (Runs.bind_eq hp (Runs.bind_eq (runs_preparedScope sup m₂)
    (?_ : Runs _ m₂ _ m₂ []) rfl) rfl) (by simp)
  simp only [hsc]
  exact Runs.pure _ m₂

lemma runs_inheritWithin_cycle {cd : ClassDecl} (hc : (t.kindAt n).cls? = some cd)
    (hs : Runs (superclassWithin t (n :: P) n) m (some sup) m₁ ds)
    (hp : Runs (prepareWithin t (n :: P) sup) m₁ () m₂ es) (hsc : m₂.scopes[sup]? = none) :
    Runs (inheritWithin t P n own) m own m₂
      (ds ++ es ++ [⟨cd.name.span, .cyclicInheritance cd.name.name⟩]) := by
  unfold inheritWithin
  rw [hc]
  refine Runs.bind_eq hs (Runs.bind_eq hp (Runs.bind_eq (runs_preparedScope sup m₂)
    (?_ : Runs _ m₂ _ m₂ [⟨cd.name.span, .cyclicInheritance cd.name.name⟩]) rfl) rfl) (by simp)
  simp only [hsc]
  exact Runs.bind_eq (Runs.report _ _) (Runs.pure own m₂) rfl

/-- A class without a parent or an `extends` name, or a node that is no class, has no superclass. -/
lemma runs_superclassWithin_none (h : t.superSite c = none) :
    Runs (superclassWithin t P c) m none m [] := by
  rw [superclassWithin]
  unfold Tree.superSite at h
  split
  · rename_i cd p hc hp
    rw [hc, hp] at h
    cases hs : cd.superName with
    | none => exact Runs.pure none m
    | some e => simp [hs] at h
  · exact Runs.pure none m

/-- The superclass is what the `extends` name finds from the class's parent, if it is a class. -/
lemma runs_superclassWithin {e : Ident} (h : t.superSite c = some (p, e))
    (hf : Runs (findWithin t P p e.name true) m r m₁ ds) :
    Runs (superclassWithin t P c) m (r.filter fun d => (t.kindAt d).cls?.isSome) m₁ ds := by
  rw [superclassWithin]
  unfold Tree.superSite at h
  split
  · rename_i cd p' hc hp
    rw [hc, hp] at h
    cases hs : cd.superName with
    | none => simp [hs] at h
    | some e' =>
      simp only [hs, Option.map_some, Option.some.injEq, Prod.mk.injEq] at h
      obtain ⟨rfl, rfl⟩ := h
      exact Runs.bind_eq hf (Runs.pure _ m₁) (List.append_nil ds)
  · rename_i hne
    split at h
    · rename_i cd p' hc hp
      exact (hne cd p' hc hp).elim
    · cases h

/-- A lookup that finds the name in the scope of `n` stops there. -/
lemma runs_findWithin_found {d : Nat} (h₁ : Runs (prepareWithin t P n) m () m₁ ds)
    (hd : (m₁.scopes[n]?).bind (·.lookup x) = some d) :
    Runs (findWithin t P n x deep) m (some d) m₁ ds := by
  rw [findWithin]
  refine Runs.bind_eq h₁ (Runs.bind_eq (runs_preparedScope n m₁) ?_ rfl) (List.append_nil ds)
  simp only [hd]
  exact Runs.pure _ _

/-- A deep lookup that does not find the name at `n` goes on from the parent. -/
lemma runs_findWithin_up (h₁ : Runs (prepareWithin t P n) m () m₁ ds)
    (hd : (m₁.scopes[n]?).bind (·.lookup x) = none) (hp : t.parentOf n = some p)
    (h₂ : Runs (findWithin t P p x true) m₁ r m₂ es) :
    Runs (findWithin t P n x true) m r m₂ (ds ++ es) := by
  rw [findWithin]
  refine Runs.bind_eq h₁ (Runs.bind_eq (runs_preparedScope n m₁) ?_ rfl) rfl
  simp only [hd, if_true]
  split
  · rename_i p' hp'
    rw [hp] at hp'
    cases hp'
    exact h₂
  · rename_i hp'
    rw [hp] at hp'
    cases hp'

/-- A lookup that does not find the name at `n`, and may or can not go further, finds nothing. -/
lemma runs_findWithin_stop (h₁ : Runs (prepareWithin t P n) m () m₁ ds)
    (hd : (m₁.scopes[n]?).bind (·.lookup x) = none) (hstop : deep = false ∨ t.parentOf n = none) :
    Runs (findWithin t P n x deep) m none m₁ ds := by
  rw [findWithin]
  refine Runs.bind_eq h₁ (Runs.bind_eq (runs_preparedScope n m₁) ?_ rfl) (List.append_nil ds)
  simp only [hd]
  rcases hstop with rfl | hp
  · exact Runs.pure _ _
  · split
    · split
      · rename_i p' hp'
        rw [hp] at hp'
        cases hp'
      · exact Runs.pure _ _
    · exact Runs.pure _ _

/-- A node whose parent is a class stands in a class. -/
lemma runs_isClassScope_in (h₁ : Runs (prepareScope t n) m () m₁ ds) (hp : t.parentOf n = some p)
    (hc : (t.kindAt p).cls?.isSome) : Runs (isClassScope t n deep) m true m₁ ds := by
  rw [isClassScope]
  refine Runs.bind_eq h₁ ?_ (List.append_nil ds)
  split
  · rename_i hp'
    rw [hp] at hp'
    cases hp'
  · rename_i p' hp'
    rw [hp] at hp'
    cases hp'
    simp only [hc, if_true]
    exact Runs.pure _ _

/-- A root stands in no class. -/
lemma runs_isClassScope_root (h₁ : Runs (prepareScope t n) m () m₁ ds) (hp : t.parentOf n = none) :
    Runs (isClassScope t n deep) m false m₁ ds := by
  rw [isClassScope]
  refine Runs.bind_eq h₁ ?_ (List.append_nil ds)
  split
  · exact Runs.pure _ _
  · rename_i p' hp'
    rw [hp] at hp'
    cases hp'

/-- Past a parent that is no class, a shallow test fails. -/
lemma runs_isClassScope_shallow (h₁ : Runs (prepareScope t n) m () m₁ ds)
    (hp : t.parentOf n = some p) (hc : (t.kindAt p).cls?.isSome = false) :
    Runs (isClassScope t n false) m false m₁ ds := by
  rw [isClassScope]
  refine Runs.bind_eq h₁ ?_ (List.append_nil ds)
  split
  · rename_i hp'
    rw [hp] at hp'
    cases hp'
  · rename_i p' hp'
    rw [hp] at hp'
    cases hp'
    simp only [hc, Bool.false_eq_true, if_false]
    exact Runs.pure _ _

/-- Past a parent that is no class, a deep test goes on from the parent. -/
lemma runs_isClassScope_up {b : Bool} (h₁ : Runs (prepareScope t n) m () m₁ ds)
    (hp : t.parentOf n = some p) (hc : (t.kindAt p).cls?.isSome = false)
    (h₂ : Runs (isClassScope t p true) m₁ b m₂ es) :
    Runs (isClassScope t n true) m b m₂ (ds ++ es) := by
  rw [isClassScope]
  refine Runs.bind_eq h₁ ?_ rfl
  split
  · rename_i hp'
    rw [hp] at hp'
    cases hp'
  · rename_i p' hp'
    rw [hp] at hp'
    cases hp'
    simp only [hc]
    exact h₂

end Branches

/-- What preparing scopes may do: grow the memo, with neither types nor checked marks, and report
conflicts and cycles only. -/
structure Prepares (t : Tree) (m m' : Memo) (ds : List Diagnostic) : Prop where
  /-- The memo only grows. -/
  grown : m.Grown t m'
  /-- No type is found. -/
  types_eq : m'.types = m.types
  /-- No node is marked checked. -/
  checked_eq : m'.checked = m.checked
  /-- Only faults of preparation are reported. -/
  faults : ∀ d ∈ ds, d.fault.fromPreparation

namespace Prepares

variable {t : Tree} {m m₁ m₂ : Memo} {ds es : List Diagnostic}

lemma refl (t : Tree) (m : Memo) : Prepares t m m [] := ⟨Memo.Grown.refl t m, rfl, rfl, by simp⟩

lemma trans (h₁ : Prepares t m m₁ ds) (h₂ : Prepares t m₁ m₂ es) : Prepares t m m₂ (ds ++ es) where
  grown := h₁.grown.trans h₂.grown
  types_eq := h₂.types_eq.trans h₁.types_eq
  checked_eq := h₂.checked_eq.trans h₁.checked_eq
  faults d hd := (List.mem_append.1 hd).elim (h₁.faults d) (h₂.faults d)

end Prepares

variable (t : Tree)

/-- Preparation and lookup only grow the memo, and report only conflicts and cycles; a scope
that is not pending is settled once prepared. -/
theorem prepares_scopeBlock :
    (∀ P n, Spec (prepareWithin t P n) fun m _ m' ds =>
      Prepares t m m' ds ∧ (n ∉ P → m'.Prepared t n)) ∧
    (∀ P c, Spec (superclassWithin t P c) fun m _ m' ds => Prepares t m m' ds) ∧
    (∀ P n x deep, Spec (findWithin t P n x deep) fun m _ m' ds => Prepares t m m' ds) := by
  refine prepareWithin.mutual_induct t
    (fun P n => Spec (prepareWithin t P n) fun m _ m' ds =>
      Prepares t m m' ds ∧ (n ∉ P → m'.Prepared t n))
    (fun P c => Spec (superclassWithin t P c) fun m _ m' ds => Prepares t m m' ds)
    (fun P n x deep => Spec (findWithin t P n x deep) fun m _ m' ds => Prepares t m m' ds)
    ?_ ?_ ?_ ?_ ?_
  -- preparing `n`: own entries, then what the class inherits
  · intro P n ihSuper ihPrep m
    by_cases hskip : m.scopes.contains n ∨ (t.kindAt n).scopeEntries? = none ∨ n ∈ P
    · refine ⟨(), m, [], runs_prepareWithin_skip hskip, Prepares.refl t m, fun hn => ?_⟩
      rcases hskip with h | h | h
      · exact .inl h
      · exact .inr h
      · exact absurd h hn
    simp only [not_or, Bool.not_eq_true] at hskip
    obtain ⟨hs, hk, hp⟩ := hskip
    obtain ⟨es, hk⟩ := Option.ne_none_iff_exists'.1 hk
    obtain ⟨own, hown, -⟩ := runs_declareEntries t es m
    have hconf : Prepares t m m (t.ownConflicts es) :=
      ⟨Memo.Grown.refl t m, rfl, rfl, fun d hd => Tree.fromPreparation_of_mem_conflictsAfter hd⟩
    -- the inherited part, from the superclass's lookup and preparation
    have hinh : ∃ sc m₁ ds, Runs (inheritWithin t P n own) m sc m₁ ds ∧ Prepares t m m₁ ds := by
      cases hc : (t.kindAt n).cls? with
      | none => exact ⟨own, m, [], runs_inheritWithin_of_cls_none hc, Prepares.refl t m⟩
      | some cd =>
        obtain ⟨r, m₁, ds₁, hr₁, hq₁⟩ := ihSuper es hk hp m
        cases r with
        | none => exact ⟨own, m₁, ds₁, runs_inheritWithin_no_super hc hr₁, hq₁⟩
        | some sup =>
          obtain ⟨_, m₂, ds₂, hr₂, hq₂⟩ := ihPrep es hk hp sup m₁
          cases hsc : m₂.scopes[sup]? with
          | some s => exact ⟨_, m₂, _, runs_inheritWithin_merge hc hr₁ hr₂ hsc, hq₁.trans hq₂.1⟩
          | none =>
            refine ⟨_, m₂, _, runs_inheritWithin_cycle hc hr₁ hr₂ hsc,
              (hq₁.trans hq₂.1).trans ⟨Memo.Grown.refl t m₂, rfl, rfl, ?_⟩⟩
            simp [Fault.fromPreparation]
    obtain ⟨sc, m₁, ds, hr, hq⟩ := hinh
    refine ⟨(), _, _, runs_prepareWithin_build hs hk hp hown hr, ?_⟩
    refine ⟨⟨(hconf.trans hq).grown.insertScope hs (by simp [hk]), (hconf.trans hq).types_eq,
      (hconf.trans hq).checked_eq, (hconf.trans hq).faults⟩, fun _ => .inl (by simp)⟩
  -- the superclass of a class with an `extends` name
  · intro P c cd p hp hc e he ih m
    obtain ⟨r, m₁, ds, hr, hq⟩ := ih m
    have hsite : t.superSite c = some (p, e) := by simp [Tree.superSite, hc, hp, he]
    exact ⟨_, m₁, ds, runs_superclassWithin hsite hr, hq⟩
  -- a class without an `extends` name
  · intro P c cd p hp hc he m
    have hsite : t.superSite c = none := by simp [Tree.superSite, hc, hp, he]
    exact ⟨none, m, [], runs_superclassWithin_none hsite, Prepares.refl t m⟩
  -- no class, or no parent
  · intro P c hno m
    have hsite : t.superSite c = none := by
      unfold Tree.superSite
      split
      · rename_i cd p hc hp
        exact (hno cd p hc hp).elim
      · rfl
    exact ⟨none, m, [], runs_superclassWithin_none hsite, Prepares.refl t m⟩
  -- a lookup: here, or from the parent
  · intro P n x deep ihPrep ihUp m
    obtain ⟨_, m₁, ds, h₁, hq₁, -⟩ := ihPrep m
    cases hd : (m₁.scopes[n]?).bind (·.lookup x) with
    | some d => exact ⟨_, m₁, ds, runs_findWithin_found h₁ hd, hq₁⟩
    | none =>
      cases deep with
      | false => exact ⟨_, m₁, ds, runs_findWithin_stop h₁ hd (.inl rfl), hq₁⟩
      | true =>
        cases hp : t.parentOf n with
        | none => exact ⟨_, m₁, ds, runs_findWithin_stop h₁ hd (.inr hp), hq₁⟩
        | some p =>
          obtain ⟨r, m₂, es, h₂, hq₂⟩ := ihUp p hp m₁
          exact ⟨r, m₂, ds ++ es, runs_findWithin_up h₁ hd hp h₂, hq₁.trans hq₂⟩

end Analysis

end DecafCheck
