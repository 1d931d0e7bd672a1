import DecafCheck.Proofs.Footprint
/-!
# Inheritance cycles

A class is prepared once. Preparing it looks its `extends` name up from its parent, preparing the
scopes the lookup passes, then prepares the superclass it found and merges that scope into its
own. The classes under preparation are pending; a superclass that is pending has no scope yet,
and the class that wanted it reports a cycle and keeps its own members only.

Said over the table of prepared scopes, the superclass of a class is what its `extends` name finds
through prepared scopes (`Tree.SuperIn`); being functional, this relation has cycles that are
closed orbits (`Tree.OnCycleIn`, `Tree.SameCycleIn`). The pending list, newest first, is linked
(`Tree.Linked`): each class in it was reached from the one before, as its superclass or as a node
strictly higher in the tree. A superclass found from the parent stands no lower than its class, so
when a class finds its superclass pending, every link back to that superclass is a superclass
link, and the pending classes from the superclass to the class are exactly a cycle
(`Tree.closes_cycle`).

From this, the ledger of prepared scopes and reporters (`Tree.Logged`) is kept by every run of the
preparation block (`Analysis.logs_scopeBlock`): a class reports a cycle only when it lies on one;
no two reporters share a cycle; a cycle whose classes are all prepared has its reporter; the
reporter keeps its own members, every other class of the cycle adds what its superclass binds. And
the reporter of a cycle is the class whose superclass is the member of the cycle whose preparation
began first (`Tree.CycleLeads`).
-/

namespace DecafCheck

/-- Whether a diagnostic reports an inheritance cycle. -/
def Diagnostic.isCycle (d : Diagnostic) : Bool :=
  match d.fault with
  | .cyclicInheritance _ => true
  | _ => false

namespace Tree

variable (t : Tree)

/-- The report of an inheritance cycle at class `c`: at the class's name, naming it. -/
def cycleReport (c : Nat) : Diagnostic :=
  match (t.kindAt c).cls? with
  | some cd => ⟨cd.name.span, .cyclicInheritance cd.name.name⟩
  | none => ⟨{}, .cyclicInheritance ""⟩

lemma cycleReport_of_cls? {c : Nat} {cd : ClassDecl} (h : (t.kindAt c).cls? = some cd) :
    t.cycleReport c = ⟨cd.name.span, .cyclicInheritance cd.name.name⟩ := by
  simp [cycleReport, h]

/-- No conflict among a scope's entries reports a cycle. -/
lemma isCycle_of_mem_conflictsAfter {before es : List Nat} {d : Diagnostic}
    (h : d ∈ t.conflictsAfter before es) : d.isCycle = false := by
  induction es generalizing before with
  | nil => cases h
  | cons e rest ih =>
    rw [conflictsAfter, List.mem_append] at h
    rcases h with h | h
    · split at h
      · split at h
        · rw [List.mem_singleton.1 h]
          rfl
        · cases h
      · cases h
    · exact ih h

lemma filter_ownConflicts (es : List Nat) : (t.ownConflicts es).filter Diagnostic.isCycle = [] :=
  List.filter_eq_nil_iff.2 fun _ hd => by simp [t.isCycle_of_mem_conflictsAfter hd]

/-! ## The superclass relation of a table of prepared scopes -/

/-- `n` is prepared in the table `S`, or owns no scope. -/
def PreparedIn (S : Std.TreeMap Nat Scope) (n : Nat) : Prop :=
  S.contains n ∨ (t.kindAt n).scopeEntries? = none

/-- `FindsIn t S n x r`: a deep lookup of `x` from `n` that passes prepared scopes only finds
`r`. -/
inductive FindsIn (t : Tree) (S : Std.TreeMap Nat Scope) : Nat → String → Option Nat → Prop
  /-- The scope of `n` binds `x`. -/
  | here {n d : Nat} {x : String} : t.PreparedIn S n → (S[n]?).bind (·.lookup x) = some d →
      FindsIn t S n x (some d)
  /-- It does not, and the lookup goes on from the parent. -/
  | up {n p : Nat} {x : String} {r : Option Nat} : t.PreparedIn S n →
      (S[n]?).bind (·.lookup x) = none → t.parentOf n = some p → FindsIn t S p x r →
      FindsIn t S n x r
  /-- It does not, and `n` is the root. -/
  | top {n : Nat} {x : String} : t.PreparedIn S n → (S[n]?).bind (·.lookup x) = none →
      t.parentOf n = none → FindsIn t S n x none

/-- `SuperIn t S c r`: in the table `S`, the superclass of `c` is `r`. -/
inductive SuperIn (t : Tree) (S : Std.TreeMap Nat Scope) : Nat → Option Nat → Prop
  /-- No class with a parent and an `extends` name, no superclass. -/
  | unnamed {c : Nat} : t.superSite c = none → SuperIn t S c none
  /-- Otherwise the class that the `extends` name finds from the parent, if it is a class. -/
  | named {c p : Nat} {e : Ident} {r : Option Nat} : t.superSite c = some (p, e) →
      t.FindsIn S p e.name r → SuperIn t S c (r.filter fun d => (t.kindAt d).cls?.isSome)

/-- In the table `S`, class `c` extends class `d`. -/
def SuperStepIn (S : Std.TreeMap Nat Scope) (c d : Nat) : Prop := t.SuperIn S c (some d)

/-- In the table `S`, class `c` extends itself, directly or through others. -/
def OnCycleIn (S : Std.TreeMap Nat Scope) (c : Nat) : Prop :=
  Relation.TransGen (t.SuperStepIn S) c c

/-- In the table `S`, `c` and `z` reach each other through superclasses. -/
def SameCycleIn (S : Std.TreeMap Nat Scope) (c z : Nat) : Prop :=
  Relation.ReflTransGen (t.SuperStepIn S) c z ∧ Relation.ReflTransGen (t.SuperStepIn S) z c

/-- A scope binds nodes at most one level below its owner. -/
def DepthBound (S : Std.TreeMap Nat Scope) : Prop :=
  ∀ a s, S[a]? = some s → ∀ x d, s.lookup x = some d → t.depth d ≤ t.depth a + 1

variable {t} {S S' : Std.TreeMap Nat Scope} {n c d z : Nat} {x : String} {r r' : Option Nat}

/-- What growth keeps: a prepared scope as it is, and nothing new where no scope is owned. -/
lemma getElem?_eq_of_grown {m m' : Memo} (h : m.Grown t m') (hn : t.PreparedIn m.scopes n) :
    m'.scopes[n]? = m.scopes[n]? :=
  h.scope_eq hn

lemma PreparedIn.grown {m m' : Memo} (h : m.Grown t m') (hn : t.PreparedIn m.scopes n) :
    t.PreparedIn m'.scopes n :=
  h.prepared hn

lemma FindsIn.prepared (h : t.FindsIn S n x r) : t.PreparedIn S n := by
  cases h with
  | here hp _ => exact hp
  | up hp _ _ _ => exact hp
  | top hp _ _ => exact hp

lemma FindsIn.unique (h : t.FindsIn S n x r) (h' : t.FindsIn S n x r') : r = r' := by
  induction h generalizing r' with
  | here _ hd =>
    cases h' with
    | here _ hd' => rw [← hd, hd']
    | up _ hd' _ _ | top _ hd' _ => rw [hd] at hd'; cases hd'
  | up _ hd hp _ ih =>
    cases h' with
    | here _ hd' => rw [hd] at hd'; cases hd'
    | up _ _ hp' hf' =>
      rw [hp] at hp'
      cases hp'
      exact ih hf'
    | top _ _ hp' => rw [hp] at hp'; cases hp'
  | top _ hd hp =>
    cases h' with
    | here _ hd' => rw [hd] at hd'; cases hd'
    | up _ _ hp' _ => rw [hp] at hp'; cases hp'
    | top _ _ _ => rfl

lemma FindsIn.grown {m m' : Memo} (hg : m.Grown t m') (h : t.FindsIn m.scopes n x r) :
    t.FindsIn m'.scopes n x r := by
  induction h with
  | here hp hd => exact .here (hp.grown hg) (by rw [getElem?_eq_of_grown hg hp, hd])
  | up hp hd hpar _ ih => exact .up (hp.grown hg) (by rw [getElem?_eq_of_grown hg hp, hd]) hpar ih
  | top hp hd hpar => exact .top (hp.grown hg) (by rw [getElem?_eq_of_grown hg hp, hd]) hpar

/-- A lookup finds a node at most one level below where it starts. -/
lemma FindsIn.depth_le (hD : t.DepthBound S) (h : t.FindsIn S n x r)
    (hr : r = some d) : t.depth d ≤ t.depth n + 1 := by
  induction h with
  | here _ hb =>
    cases hr
    obtain ⟨s, hs, hl⟩ := Option.bind_eq_some_iff.1 hb
    exact hD _ s hs _ d hl
  | up _ _ hp _ ih =>
    have := ih hr
    rw [depth_of_parentOf hp]
    omega
  | top => cases hr

lemma SuperIn.unique (h : t.SuperIn S c r) (h' : t.SuperIn S c r') : r = r' := by
  cases h with
  | unnamed hs =>
    cases h' with
    | unnamed _ => rfl
    | named hs' _ => rw [hs] at hs'; cases hs'
  | named hs hf =>
    cases h' with
    | unnamed hs' => rw [hs] at hs'; cases hs'
    | named hs' hf' =>
      rw [hs] at hs'
      cases hs'
      rw [hf.unique hf']

lemma SuperIn.grown {m m' : Memo} (hg : m.Grown t m') (h : t.SuperIn m.scopes c r) :
    t.SuperIn m'.scopes c r := by
  cases h with
  | unnamed hs => exact .unnamed hs
  | named hs hf => exact .named hs (hf.grown hg)

/-- A superclass is a class. -/
lemma SuperStepIn.isClass (h : t.SuperStepIn S c d) : ((t.kindAt d).cls?).isSome := by
  unfold SuperStepIn at h
  generalize hr : some d = r at h
  cases h with
  | unnamed => cases hr
  | named _ _ => exact (Option.filter_eq_some_iff.1 hr.symm).2

lemma SuperStepIn.unique (h : t.SuperStepIn S c d) (h' : t.SuperStepIn S c z) : d = z :=
  Option.some.inj (SuperIn.unique h h')

lemma SuperStepIn.grown {m m' : Memo} (hg : m.Grown t m') (h : t.SuperStepIn m.scopes c d) :
    t.SuperStepIn m'.scopes c d :=
  SuperIn.grown hg h

/-- A superclass, found from the class's parent, stands no lower than its class. -/
lemma SuperStepIn.depth_le (hD : t.DepthBound S)
    (h : t.SuperStepIn S c d) : t.depth d ≤ t.depth c := by
  unfold SuperStepIn at h
  generalize hr : some d = r at h
  cases h with
  | unnamed => cases hr
  | named hs hf =>
    rw [depth_of_parentOf (parentOf_of_superSite hs)]
    exact hf.depth_le hD (Option.filter_eq_some_iff.1 hr.symm).1

/-! ## Cycles of the superclass relation

A class has one superclass, so a cycle is a closed orbit: from a class on a cycle, following
superclasses never leaves its cycle. -/

section Cycles

variable {m m' : Memo}

lemma SameCycleIn.refl (S : Std.TreeMap Nat Scope) (c : Nat) : t.SameCycleIn S c c :=
  ⟨.refl, .refl⟩

lemma SameCycleIn.symm (h : t.SameCycleIn S c z) : t.SameCycleIn S z c := ⟨h.2, h.1⟩

lemma SameCycleIn.trans (h : t.SameCycleIn S c z) (h' : t.SameCycleIn S z d) :
    t.SameCycleIn S c d :=
  ⟨h.1.trans h'.1, h'.2.trans h.2⟩

lemma OnCycleIn.of_sameCycle (hc : t.OnCycleIn S c) (h : t.SameCycleIn S c z) :
    t.OnCycleIn S z :=
  Relation.TransGen.trans_right h.2 (Relation.TransGen.trans_left hc h.1)

/-- What a class on a cycle reaches lies on its cycle. -/
lemma OnCycleIn.sameCycle (hc : t.OnCycleIn S c) (h : Relation.ReflTransGen (t.SuperStepIn S) c z) :
    t.SameCycleIn S c z := by
  induction h with
  | refl => exact .refl S c
  | @tail y z hcy hyz ih =>
    -- the one superclass of `y` leads back to `y`
    obtain ⟨w, hyw, hwy⟩ := Relation.TransGen.head'_iff.1 (hc.of_sameCycle ih)
    rw [hyz.unique hyw]
    exact ⟨hcy.tail hyw, hwy.trans ih.2⟩

/-- Every class on a cycle has a superclass on it. -/
lemma OnCycleIn.exists_step (hc : t.OnCycleIn S c) :
    ∃ d, t.SuperStepIn S c d ∧ t.SameCycleIn S c d := by
  obtain ⟨d, hcd, -⟩ := Relation.TransGen.head'_iff.1 hc
  exact ⟨d, hcd, hc.sameCycle (.single hcd)⟩

/-- Every class on a cycle is the superclass of a class on it. -/
lemma OnCycleIn.exists_pred (hc : t.OnCycleIn S c) :
    ∃ p, t.SuperStepIn S p c ∧ t.SameCycleIn S c p := by
  obtain ⟨p, hcp, hpc⟩ := Relation.TransGen.tail'_iff.1 hc
  exact ⟨p, hpc, hc.sameCycle hcp⟩

lemma OnCycleIn.grown (hg : m.Grown t m') (hc : t.OnCycleIn m.scopes c) :
    t.OnCycleIn m'.scopes c :=
  Relation.TransGen.mono (fun _ _ h => SuperStepIn.grown hg h) c c hc

/-- Growing the table neither breaks a cycle nor adds to it. -/
lemma OnCycleIn.sameCycle_grown_iff (hg : m.Grown t m') (hc : t.OnCycleIn m.scopes c) :
    t.SameCycleIn m'.scopes c z ↔ t.SameCycleIn m.scopes c z := by
  have hstep : ∀ a b, t.SuperStepIn m.scopes a b → t.SuperStepIn m'.scopes a b :=
    fun _ _ h => SuperStepIn.grown hg h
  refine ⟨fun h => hc.sameCycle ?_, fun h =>
    ⟨Relation.ReflTransGen.mono hstep c z h.1, Relation.ReflTransGen.mono hstep z c h.2⟩⟩
  -- each step of the grown table from the cycle is a step of the table
  have key : ∀ y, Relation.ReflTransGen (t.SuperStepIn m'.scopes) c y →
      Relation.ReflTransGen (t.SuperStepIn m.scopes) c y := by
    intro y hy
    induction hy with
    | refl => exact .refl
    | @tail y w _ hyw ih =>
      obtain ⟨v, hyv, -⟩ := (hc.of_sameCycle (hc.sameCycle ih)).exists_step
      rw [hyw.unique (SuperStepIn.grown hg hyv)]
      exact ih.tail hyv
  exact key z h.1

/-- A cycle of a grown table whose classes had their superclasses settled was a cycle before. -/
lemma OnCycleIn.of_grown (hg : m.Grown t m') (hc : t.OnCycleIn m'.scopes c)
    (hres : ∀ z, t.SameCycleIn m'.scopes c z → ∃ r, t.SuperIn m.scopes z r) :
    t.OnCycleIn m.scopes c := by
  have hstep : ∀ y w, t.SameCycleIn m'.scopes c y → t.SuperStepIn m'.scopes y w →
      t.SuperStepIn m.scopes y w := by
    intro y w hy hyw
    obtain ⟨r, hr⟩ := hres y hy
    rw [SuperIn.unique (hr.grown hg) hyw] at hr
    exact hr
  have key : ∀ y, Relation.ReflTransGen (t.SuperStepIn m'.scopes) c y →
      Relation.ReflTransGen (t.SuperStepIn m.scopes) c y := by
    intro y hy
    induction hy with
    | refl => exact .refl
    | @tail y w hcy hyw ih => exact ih.tail (hstep y w (hc.sameCycle hcy) hyw)
  obtain ⟨p, hpc, hcp⟩ := hc.exists_pred
  exact Relation.TransGen.tail' (key p hcp.1) (hstep p c hcp hpc)

end Cycles

/-! ## Pending chains -/

/-- Node `x` was reached from node `y`: as the superclass of `y`, or as a strictly higher node. -/
def Reached (S : Std.TreeMap Nat Scope) (x y : Nat) : Prop :=
  t.SuperStepIn S y x ∨ t.depth x < t.depth y

/-- Each node of the list, newest first, was reached from the one after it. -/
def Linked (S : Std.TreeMap Nat Scope) (L : List Nat) : Prop := L.IsChain (t.Reached S)

/-- The members of the cycle of `c` in the list `L` come first in it, and the last of them is the
superclass of `c`. -/
def CycleLeads (S : Std.TreeMap Nat Scope) (c : Nat) (L : List Nat) : Prop :=
  ∃ L₁ L₂, L = L₁ ++ L₂ ∧ (∀ z ∈ L₁, t.SameCycleIn S c z) ∧ (∀ z ∈ L₂, ¬ t.SameCycleIn S c z) ∧
    ∀ z ∈ L₁.getLast?, t.SuperStepIn S c z

section Chains

variable {m m' : Memo} {L P : List Nat} {s : Nat}

lemma Reached.depth_le (hD : t.DepthBound S) {x y : Nat} (h : t.Reached S x y) :
    t.depth x ≤ t.depth y :=
  h.elim (fun h => h.depth_le hD) Nat.le_of_lt

lemma Linked.grown (hg : m.Grown t m') (h : t.Linked m.scopes L) : t.Linked m'.scopes L :=
  h.imp fun _ _ hr => hr.imp (fun h => SuperStepIn.grown hg h) id

/-- Along a pending chain depth only drops: the newest node is the highest. -/
lemma Linked.depth_le (hD : t.DepthBound S) (h : t.Linked S (n :: L)) :
    ∀ y ∈ n :: L, t.depth n ≤ t.depth y :=
  h.induction (fun y => t.depth n ≤ t.depth y) _ (fun _ _ hr hx => hx.trans (hr.depth_le hD))
    fun _ => le_rfl

/-- A node strictly higher than every pending one extends the chain. -/
lemma Linked.cons_of_lt (h : t.Linked S L) (hn : ∀ y ∈ L, t.depth n < t.depth y) :
    t.Linked S (n :: L) :=
  List.IsChain.cons h fun y hy => .inr (hn y (List.mem_of_mem_head? hy))

/-- In a chain, every node after the first follows one it is related to. -/
lemma exists_prev_of_isChain {R : Nat → Nat → Prop} {L : List Nat} (h : L.IsChain R) :
    ∀ y ∈ L.tail, ∃ x ∈ L, R x y := by
  induction h with
  | nil => intro y hy; cases hy
  | singleton a => intro y hy; cases hy
  | @cons_cons a b l hab _ ih =>
    intro y hy
    rcases List.mem_cons.1 hy with rfl | hy
    · exact ⟨a, List.mem_cons_self .., hab⟩
    · obtain ⟨x, hx, hxy⟩ := ih y hy
      exact ⟨x, List.mem_cons_of_mem a hx, hxy⟩

/-- When the newest node `n` extends a pending node `s`, the pending nodes from `s` to `n` are a
cycle through `n`, entered at `s`: every link back to `s` is a superclass link, since a superclass
stands no lower than its class and a higher node strictly higher. -/
theorem closes_cycle (hD : t.DepthBound S) (hL : t.Linked S (n :: P)) (hnd : (n :: P).Nodup)
    (hs : t.SuperStepIn S n s) (hmem : s ∈ n :: P) :
    t.OnCycleIn S n ∧ (∀ z, t.SameCycleIn S n z → z ∈ n :: P) ∧ t.CycleLeads S n (n :: P) := by
  obtain ⟨A, B, hsplit⟩ := List.append_of_mem hmem
  have hsplit' : n :: P = (A ++ [s]) ++ B := by simp [hsplit]
  have hK : t.Linked S (A ++ [s]) := (hsplit' ▸ hL : List.IsChain _ _).left_of_append
  have hsub : ∀ y ∈ A ++ [s], y ∈ n :: P := fun y hy => hsplit' ▸ List.mem_append_left B hy
  have hne : A ++ [s] ≠ [] := by simp
  have hhead : (A ++ [s]).head hne = n := by
    have := congrArg List.head? hsplit'
    cases A <;> simp_all
  -- depth does not rise from `s` to `n`, and `s` is no higher than `n`: all links are superclasses
  have hlevel : ∀ y ∈ A ++ [s], t.depth y = t.depth n := by
    intro y hy
    have hle : t.depth y ≤ t.depth s := by
      rcases List.mem_append.1 hy with hy | hy
      · exact hK.backwards_concat_induction (fun y => t.depth y ≤ t.depth s) _
          (fun _ _ hr hy => (hr.depth_le hD).trans hy) le_rfl y hy
      · rw [List.mem_singleton.1 hy]
    have := hL.depth_le hD y (hsub y hy)
    have := hs.depth_le hD
    omega
  have hK' : (A ++ [s]).IsChain fun x y => t.SuperStepIn S y x :=
    hK.imp_of_mem_imp fun a b ha hb hr => hr.resolve_right (by rw [hlevel a ha, hlevel b hb]; omega)
  -- along the chain every node reaches `n`, and `s` reaches every node
  have hto : ∀ z ∈ A ++ [s], Relation.ReflTransGen (t.SuperStepIn S) z n :=
    hK'.induction (fun z => Relation.ReflTransGen (t.SuperStepIn S) z n) _
      (fun _ _ hyx hx => .head hyx hx) fun _ => hhead ▸ .refl
  have hfrom : ∀ z ∈ A ++ [s], Relation.ReflTransGen (t.SuperStepIn S) s z := by
    intro z hz
    rcases List.mem_append.1 hz with hz | hz
    · exact hK'.backwards_concat_induction (fun z => Relation.ReflTransGen (t.SuperStepIn S) s z) _
        (fun _ _ hyx hy => hy.tail hyx) .refl z hz
    · rw [List.mem_singleton.1 hz]
  have hnK : n ∈ A ++ [s] := hhead ▸ List.head_mem hne
  have hsame : ∀ z ∈ A ++ [s], t.SameCycleIn S n z :=
    fun z hz => ⟨Relation.ReflTransGen.head hs (hfrom z hz), hto z hz⟩
  -- the cycle is closed: the superclass of each node of the chain is in the chain
  have hclosed : ∀ z, Relation.ReflTransGen (t.SuperStepIn S) n z → z ∈ A ++ [s] := by
    intro z hz
    induction hz with
    | refl => exact hnK
    | @tail y w _ hyw ih =>
      by_cases hyn : y = n
      · rw [hyn] at hyw
        rw [hyw.unique hs]
        exact List.mem_append_right A (List.mem_singleton_self s)
      · have hcons : A ++ [s] = n :: (A ++ [s]).tail := by
          rw [← hhead]
          exact (List.cons_head_tail hne).symm
        have hy : y ∈ (A ++ [s]).tail := by
          rw [hcons] at ih
          exact (List.mem_cons.1 ih).resolve_left hyn
        obtain ⟨x, hx, hyx⟩ := exists_prev_of_isChain hK' y hy
        rw [hyw.unique hyx]
        exact hx
  refine ⟨Relation.TransGen.head' hs (hfrom n hnK), fun z hz => hsub z (hclosed z hz.1),
    A ++ [s], B, hsplit', hsame, fun z hzB hz => ?_, fun z hz => ?_⟩
  · have hdisj := List.disjoint_of_nodup_append (hsplit' ▸ hnd)
    exact hdisj (hclosed z hz.1) hzB
  · rw [List.getLast?_concat, Option.mem_some_iff] at hz
    rw [← hz]
    exact hs

/-- Dropping the newest pending node keeps the members of a cycle first. -/
lemma CycleLeads.tail {a : Nat} (h : t.CycleLeads S c (a :: L)) : t.CycleLeads S c L := by
  obtain ⟨L₁, L₂, hsplit, h₁, h₂, hlast⟩ := h
  cases L₁ with
  | nil =>
    rw [List.nil_append] at hsplit
    refine ⟨[], L, rfl, by simp, fun z hz => h₂ z ?_, by simp⟩
    rw [← hsplit]
    exact List.mem_cons_of_mem a hz
  | cons b L₁ =>
    rw [List.cons_append, List.cons.injEq] at hsplit
    refine ⟨L₁, L₂, hsplit.2, fun z hz => h₁ z (List.mem_cons_of_mem b hz), h₂, fun z hz => ?_⟩
    cases L₁ with
    | nil => cases hz
    | cons _ _ => exact hlast z (by rwa [List.getLast?_cons_cons])

lemma CycleLeads.grown {m m' : Memo} (hg : m.Grown t m') (hc : t.OnCycleIn m.scopes c)
    (h : t.CycleLeads m.scopes c L) : t.CycleLeads m'.scopes c L := by
  obtain ⟨L₁, L₂, hsplit, h₁, h₂, hlast⟩ := h
  exact ⟨L₁, L₂, hsplit, fun z hz => (hc.sameCycle_grown_iff hg).2 (h₁ z hz),
    fun z hz hs => h₂ z hz ((hc.sameCycle_grown_iff hg).1 hs),
    fun z hz => SuperStepIn.grown hg (hlast z hz)⟩

/-- A cycle entered at `B`, with no member pending before `B`, is the cycle of a class extending
`B`. -/
lemma CycleLeads.entry {B : Nat} (h : t.CycleLeads S c (B :: P)) (hB : t.SameCycleIn S c B)
    (hP : ∀ z ∈ P, ¬ t.SameCycleIn S c z) : t.SuperStepIn S c B := by
  obtain ⟨L₁, L₂, hsplit, h₁, h₂, hlast⟩ := h
  cases L₁ with
  | nil =>
    rw [List.nil_append] at hsplit
    exact (h₂ B (by rw [← hsplit]; exact List.mem_cons_self ..) hB).elim
  | cons b L₁ =>
    rw [List.cons_append, List.cons.injEq] at hsplit
    obtain ⟨rfl, rfl⟩ := hsplit
    cases L₁ with
    | nil => exact hlast B rfl
    | cons z _ => exact (hP z (by simp) (h₁ z (by simp))).elim

end Chains

/-! ## The ledger of prepared scopes and reporters -/

/-- What the table `S` of prepared scopes keeps, with the nodes `P` pending and the classes `R`
that reported a cycle. -/
structure Logged (t : Tree) (P R : List Nat) (S : Std.TreeMap Nat Scope) : Prop where
  /-- A prepared scope holds its owner's declared entries, and for a class that reported no cycle
  and extends a class, what the superclass's scope binds under the names left free. -/
  shape : ∀ c s, S[c]? = some s → ∃ es, (t.kindAt c).scopeEntries? = some es ∧
    ((c ∈ R ∨ t.SuperIn S c none) ∧ s = t.declaredScope es ∨
      ∃ d sd, t.SuperStepIn S c d ∧ c ∉ R ∧ S[d]? = some sd ∧
        s = ((t.declaredScope es).merge sd).1)
  /-- A scope binds nodes at most one level below its owner. -/
  depth : t.DepthBound S
  /-- The superclass of a prepared class is settled by prepared scopes. -/
  resolved : ∀ c, S.contains c → ∃ r, t.SuperIn S c r
  /-- The superclass of a prepared class is prepared or pending. -/
  super_prepared : ∀ c d, S.contains c → t.SuperStepIn S c d → S.contains d ∨ d ∈ P
  /-- A pending node is not prepared. -/
  pending : ∀ x ∈ P, S.contains x = false
  /-- A reporter is a prepared class on a cycle. -/
  reporter : ∀ c ∈ R, S.contains c ∧ t.OnCycleIn S c
  /-- No class reports twice. -/
  nodup : R.Nodup
  /-- No two reporters share a cycle. -/
  once : ∀ c ∈ R, ∀ c' ∈ R, t.SameCycleIn S c c' → c = c'
  /-- A cycle whose classes are all prepared has its reporter. -/
  complete : ∀ c, t.OnCycleIn S c → (∀ z, t.SameCycleIn S c z → S.contains z) →
    ∃ r ∈ R, t.SameCycleIn S c r

lemma exists_getElem?_of_contains (h : S.contains c) : ∃ s, S[c]? = some s :=
  Option.isSome_iff_exists.1 (by rwa [Std.TreeMap.contains_eq_isSome_getElem?] at h)

namespace Logged

variable {P R : List Nat} {m m' : Memo}

/-- Nothing prepared, nothing pending, nothing reported. -/
lemma empty (t : Tree) : t.Logged [] [] {} where
  shape c s hs := by simp at hs
  depth a s hs := by simp at hs
  resolved c hc := by simp at hc
  super_prepared c d hc := by simp at hc
  pending x hx := by cases hx
  reporter c hc := by cases hc
  nodup := List.nodup_nil
  once c hc := by cases hc
  complete c _ hall := by simp at hall; exact absurd (hall c (.refl {} c)) (by simp)

lemma push (h : t.Logged P R S) (hn : S.contains n = false) : t.Logged (n :: P) R S where
  shape := h.shape
  depth := h.depth
  resolved := h.resolved
  super_prepared c d hc hcd := (h.super_prepared c d hc hcd).imp_right (List.mem_cons_of_mem n)
  pending x hx := (List.mem_cons.1 hx).elim (fun h => h ▸ hn) (h.pending x)
  reporter := h.reporter
  nodup := h.nodup
  once := h.once
  complete := h.complete

/-- A prepared class that reported no cycle extends a prepared class. -/
lemma unreported (h : t.Logged P R S) (hc : S.contains c) (hcd : t.SuperStepIn S c d)
    (hR : c ∉ R) : S.contains d := by
  obtain ⟨s, hs⟩ := exists_getElem?_of_contains hc
  obtain ⟨es, -, ⟨hR' | hnone, -⟩ | ⟨d', sd, hcd', -, hd', -⟩⟩ := h.shape c s hs
  · exact absurd hR' hR
  · cases SuperIn.unique hcd hnone
  · rw [hcd.unique hcd', Std.TreeMap.contains_eq_isSome_getElem?, hd']
    rfl

/-- In a grown table, a prepared class extends what it extended. -/
lemma superStep_of_grown (h : t.Logged P R m.scopes) (hg : m.Grown t m') (hc : m.scopes.contains c)
    (hcd : t.SuperStepIn m'.scopes c d) : t.SuperStepIn m.scopes c d := by
  obtain ⟨r, hr⟩ := h.resolved c hc
  rw [SuperIn.unique (hr.grown hg) hcd] at hr
  exact hr

end Logged

/-- How class `n`, with entries `es`, inherited in the table `S` while `P` is pending: its scope,
and the reporters it adds. -/
inductive Inherited (t : Tree) (S : Std.TreeMap Nat Scope) (P : List Nat) (n : Nat)
    (es : List Nat) : Scope → List Nat → Prop
  /-- No superclass: its declared entries. -/
  | base : t.SuperIn S n none → Inherited t S P n es (t.declaredScope es) []
  /-- A prepared superclass: its declared entries, then what the superclass binds. -/
  | merge {d : Nat} {sd : Scope} : t.SuperStepIn S n d → S[d]? = some sd →
      Inherited t S P n es ((t.declaredScope es).merge sd).1 []
  /-- A pending superclass closes a cycle, which `n` reports. -/
  | cycle {d : Nat} : t.SuperStepIn S n d → d ∈ n :: P →
      Inherited t S P n es (t.declaredScope es) [n]

section Insert

variable {P R Rn es : List Nat} {m : Memo} {sc : Scope}

lemma Inherited.resolved (hi : t.Inherited S P n es sc Rn) : ∃ r, t.SuperIn S n r := by
  cases hi with
  | base h => exact ⟨_, h⟩
  | merge h _ => exact ⟨_, h⟩
  | cycle h _ => exact ⟨_, h⟩

lemma Inherited.reporters (hi : t.Inherited S P n es sc Rn) : ∀ c ∈ Rn, c = n := by
  cases hi with
  | base _ | merge _ _ => intro c hc; cases hc
  | cycle _ _ => intro c hc; exact List.mem_singleton.1 hc

lemma getElem?_insert_of_ne (hne : c ≠ n) : (S.insert n sc)[c]? = S[c]? := by
  rw [Std.TreeMap.getElem?_insert]
  simp [Ne.symm hne]

lemma contains_insert_iff : (S.insert n sc).contains c ↔ c = n ∨ S.contains c := by
  rw [Std.TreeMap.contains_insert, Bool.or_eq_true, beq_iff_eq, Nat.compare_eq_eq, eq_comm]

/-- Storing the scope of `n` grows the memory. -/
lemma grown_insert (hn : m.scopes.contains n = false) (hk : (t.kindAt n).scopeEntries? = some es) :
    m.Grown t { m with scopes := m.scopes.insert n sc } :=
  (Memo.Grown.refl t m).insertScope hn (by simp [hk])

/-- The classes prepared once `n` is stored extend what they extended before. -/
lemma Logged.superStep_of_insert (h : t.Logged (n :: P) R m.scopes)
    (hn : m.scopes.contains n = false) (hk : (t.kindAt n).scopeEntries? = some es)
    (hi : t.Inherited m.scopes P n es sc Rn) (hc : (m.scopes.insert n sc).contains c)
    (hcd : t.SuperStepIn (m.scopes.insert n sc) c d) : t.SuperStepIn m.scopes c d := by
  rcases contains_insert_iff.1 hc with rfl | hc
  · obtain ⟨r, hr⟩ := hi.resolved
    rw [SuperIn.unique (hr.grown (grown_insert hn hk)) hcd] at hr
    exact hr
  · exact h.superStep_of_grown (grown_insert hn hk) hc hcd

/-- A class that reports on storing is `n`, and closes a cycle entered at its superclass, all of
whose classes are pending. -/
lemma Logged.closes_of_reporter (h : t.Logged (n :: P) R m.scopes)
    (hL : t.Linked m.scopes (n :: P)) (hnd : (n :: P).Nodup)
    (hi : t.Inherited m.scopes P n es sc Rn) (hc : c ∈ Rn) :
    c = n ∧ t.OnCycleIn m.scopes n ∧ (∀ z, t.SameCycleIn m.scopes n z → z ∈ n :: P) ∧
      t.CycleLeads m.scopes n (n :: P) := by
  cases hi with
  | base _ | merge _ _ => cases hc
  | cycle hd hmem => exact ⟨List.mem_singleton.1 hc, closes_cycle h.depth hL hnd hd hmem⟩

/-- Unless it reports, `n` does not extend itself. -/
lemma Inherited.not_superStep_self (hn : m.scopes.contains n = false)
    (hi : t.Inherited m.scopes P n es sc Rn) (hnR : n ∉ Rn) : ¬ t.SuperStepIn m.scopes n n := by
  intro hnn
  cases hi with
  | base hnone => cases SuperIn.unique hnone hnn
  | merge hd hsd =>
    rw [hnn.unique hd] at hn
    simp [Std.TreeMap.contains_eq_isSome_getElem?, hsd] at hn
  | cycle _ _ => exact hnR (List.mem_singleton_self n)

/-- The scope `n` inherits binds nodes at most one level below `n`. -/
lemma DepthBound.insert (hcons : t.Consistent) (hD : t.DepthBound S)
    (hk : (t.kindAt n).scopeEntries? = some es) (hi : t.Inherited S P n es sc Rn) :
    t.DepthBound (S.insert n sc) := by
  intro a s hs x d hl
  by_cases ha : a = n
  · subst ha
    rw [Std.TreeMap.getElem?_insert_self, Option.some.injEq] at hs
    subst hs
    -- what `a` declares stands one level below it; the rest is bound by its superclass
    have hown : ∀ d, t.firstDecl es x = some d → t.depth d ≤ t.depth a + 1 :=
      fun d hd => (depth_of_firstDecl hcons hk hd).le
    cases hi with
    | base _ | cycle _ _ => exact hown d (by rwa [lookup_declaredScope] at hl)
    | @merge d' sd hd hsd =>
      rw [Scope.lookup_merge, lookup_declaredScope] at hl
      cases hf : t.firstDecl es x with
      | some d'' =>
        rw [hf, Option.some_or, Option.some.injEq] at hl
        exact hl ▸ hown d'' hf
      | none =>
        rw [hf, Option.none_or] at hl
        have := hD d' sd hsd x d hl
        have := hd.depth_le hD
        omega
  · rw [getElem?_insert_of_ne ha] at hs
    exact hD a s hs x d hl

/-- Once `n` is stored, a cycle whose classes are all prepared has its reporter: the one it had,
or `n`, or, when the cycle runs through `n`, the class before `n` on it, prepared before. -/
lemma Logged.complete_insert (h : t.Logged (n :: P) R m.scopes)
    (hn : m.scopes.contains n = false) (hk : (t.kindAt n).scopeEntries? = some es)
    (hi : t.Inherited m.scopes P n es sc Rn) (hc : t.OnCycleIn (m.scopes.insert n sc) c)
    (hall : ∀ z, t.SameCycleIn (m.scopes.insert n sc) c z → (m.scopes.insert n sc).contains z) :
    ∃ r ∈ R ++ Rn, t.SameCycleIn (m.scopes.insert n sc) c r := by
  have hg : m.Grown t { m with scopes := m.scopes.insert n sc } := grown_insert hn hk
  by_cases hnc : t.SameCycleIn (m.scopes.insert n sc) c n
  · by_cases hnR : n ∈ Rn
    · exact ⟨n, List.mem_append_right R hnR, hnc⟩
    -- the class of the cycle extending `n` was prepared before `n`, so it reported
    obtain ⟨p, hpn, hnp⟩ := (hc.of_sameCycle hnc).exists_pred
    have hp := hall p (hnc.trans hnp)
    have hpn' := h.superStep_of_insert hn hk hi hp hpn
    rcases contains_insert_iff.1 hp with rfl | hp
    · exact (hi.not_superStep_self hn hnR hpn').elim
    · by_cases hpR : p ∈ R
      · exact ⟨p, List.mem_append_left Rn hpR, hnc.trans hnp⟩
      · simp [h.unreported hp hpn' hpR] at hn
  · -- a cycle without `n` was a cycle before storing
    have hold : ∀ z, t.SameCycleIn (m.scopes.insert n sc) c z → m.scopes.contains z := by
      intro z hz
      rcases contains_insert_iff.1 (hall z hz) with rfl | hz'
      · exact (hnc hz).elim
      · exact hz'
    have hcm : t.OnCycleIn m.scopes c :=
      OnCycleIn.of_grown hg hc fun z hz => h.resolved z (hold z hz)
    obtain ⟨r, hr, hcr⟩ := h.complete c hcm fun z hz => hold z ((hcm.sameCycle_grown_iff hg).2 hz)
    exact ⟨r, List.mem_append_left Rn hr, (hcm.sameCycle_grown_iff hg).2 hcr⟩

/-- Storing the scope class `n` inherited keeps the ledger, with `n` no longer pending; a class
that reports closes a cycle entered at its superclass. -/
theorem Logged.insert (hcons : t.Consistent) (h : t.Logged (n :: P) R m.scopes)
    (hn : m.scopes.contains n = false) (hk : (t.kindAt n).scopeEntries? = some es)
    (hL : t.Linked m.scopes (n :: P)) (hnd : (n :: P).Nodup) (hi : t.Inherited m.scopes P n es sc Rn) :
    t.Logged P (R ++ Rn) (m.scopes.insert n sc) ∧
      ∀ c ∈ Rn, t.CycleLeads (m.scopes.insert n sc) c (n :: P) := by
  have hg : m.Grown t { m with scopes := m.scopes.insert n sc } := grown_insert hn hk
  have hnR : n ∉ R := fun hR => by simp [(h.reporter n hR).1] at hn
  have hRn := hi.reporters
  -- a reporter was on a cycle already
  have hcyc : ∀ c ∈ R ++ Rn, t.OnCycleIn m.scopes c := by
    intro c hc
    rcases List.mem_append.1 hc with hc | hc
    · exact (h.reporter c hc).2
    · obtain ⟨rfl, hcyc, -⟩ := h.closes_of_reporter hL hnd hi hc
      exact hcyc
  -- no earlier reporter is on the cycle `n` reports: its classes are all pending
  have hfresh : ∀ c ∈ R, ∀ c' ∈ Rn, ¬ t.SameCycleIn m.scopes c c' := by
    intro c hc c' hc' hcc'
    obtain ⟨rfl, -, hpend, -⟩ := h.closes_of_reporter hL hnd hi hc'
    rcases List.mem_cons.1 (hpend c hcc'.symm) with rfl | hP
    · exact hnR hc
    · have hpend := h.pending c (List.mem_cons_of_mem _ hP)
      rw [(h.reporter c hc).1] at hpend
      cases hpend
  refine ⟨⟨?_, h.depth.insert hcons hk hi, ?_, ?_, ?_, ?_, ?_, ?_,
    fun c hc hall => h.complete_insert hn hk hi hc hall⟩, ?_⟩
  · -- the scope of `n` is one of the three outcomes of inheriting; the others are as they were
    intro c s hs
    by_cases hc : c = n
    · subst hc
      rw [Std.TreeMap.getElem?_insert_self, Option.some.injEq] at hs
      subst hs
      refine ⟨es, hk, ?_⟩
      cases hi with
      | base hnone => exact .inl ⟨.inr (hnone.grown hg), rfl⟩
      | @merge d sd hd hsd =>
        have hdc : d ≠ c := fun e => by
          rw [← e, Std.TreeMap.contains_eq_isSome_getElem?, hsd] at hn
          cases hn
        exact .inr ⟨d, sd, SuperStepIn.grown hg hd, by simpa using hnR,
          by rw [getElem?_insert_of_ne hdc, hsd], rfl⟩
      | cycle _ _ => exact .inl ⟨.inl (List.mem_append_right R (List.mem_singleton_self c)), rfl⟩
    · rw [getElem?_insert_of_ne hc] at hs
      obtain ⟨es', hk', hshape⟩ := h.shape c s hs
      refine ⟨es', hk', ?_⟩
      rcases hshape with ⟨hR | hnone, rfl⟩ | ⟨d, sd, hcd, hR, hsd, rfl⟩
      · exact .inl ⟨.inl (List.mem_append_left Rn hR), rfl⟩
      · exact .inl ⟨.inr (hnone.grown hg), rfl⟩
      · exact .inr ⟨d, sd, SuperStepIn.grown hg hcd,
          fun hc' => (List.mem_append.1 hc').elim hR fun hc' => hc (hRn c hc'),
          hg.scope_kept d sd hsd, rfl⟩
  · intro c hc
    rcases contains_insert_iff.1 hc with rfl | hc
    · obtain ⟨r, hr⟩ := hi.resolved
      exact ⟨r, hr.grown hg⟩
    · obtain ⟨r, hr⟩ := h.resolved c hc
      exact ⟨r, hr.grown hg⟩
  · -- the superclass of `n` is prepared, or pending when `n` closes a cycle
    intro c d hc hcd
    have hcd' := h.superStep_of_insert hn hk hi hc hcd
    have hnew : ∀ d, d ∈ n :: P → (m.scopes.insert n sc).contains d ∨ d ∈ P := fun d hd =>
      (List.mem_cons.1 hd).imp (fun e => contains_insert_iff.2 (.inl e)) id
    rcases contains_insert_iff.1 hc with rfl | hc
    · cases hi with
      | base hnone => cases SuperIn.unique hnone hcd'
      | merge hd hsd =>
        rw [hcd'.unique hd]
        exact .inl (contains_insert_iff.2 (.inr (by
          simp [Std.TreeMap.contains_eq_isSome_getElem?, hsd])))
      | cycle hd hmem =>
        rw [hcd'.unique hd]
        exact hnew _ hmem
    · exact (h.super_prepared c d hc hcd').elim (fun hd => .inl (contains_insert_iff.2 (.inr hd)))
        (hnew d)
  · intro x hx
    have hxn : x ≠ n := fun e => (List.nodup_cons.1 hnd).1 (e ▸ hx)
    rw [Bool.eq_false_iff]
    intro hc
    rcases contains_insert_iff.1 hc with e | hc
    · exact hxn e
    · simp [h.pending x (List.mem_cons_of_mem n hx)] at hc
  · intro c hc
    refine ⟨?_, (hcyc c hc).grown hg⟩
    rcases List.mem_append.1 hc with hc | hc
    · exact contains_insert_iff.2 (.inr (h.reporter c hc).1)
    · exact contains_insert_iff.2 (.inl (hRn c hc))
  · refine List.nodup_append.2 ⟨h.nodup, ?_,
      fun c hc c' hc' e => hnR (by rw [← hRn c' hc', ← e]; exact hc)⟩
    cases hi with
    | base _ | merge _ _ => exact List.nodup_nil
    | cycle _ _ => exact List.nodup_singleton n
  · intro c hc c' hc' hcc'
    rw [(hcyc c hc).sameCycle_grown_iff hg] at hcc'
    rcases List.mem_append.1 hc with hc | hc <;> rcases List.mem_append.1 hc' with hc' | hc'
    · exact h.once c hc c' hc' hcc'
    · exact (hfresh c hc c' hc' hcc').elim
    · exact (hfresh c' hc' c hc hcc'.symm).elim
    · rw [hRn c hc, hRn c' hc']
  · intro c hc
    obtain ⟨rfl, hcm, -, hlead⟩ := h.closes_of_reporter hL hnd hi hc
    exact hlead.grown hg hcm

end Insert

end Tree

end DecafCheck
