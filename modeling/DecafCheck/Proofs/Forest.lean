import Mathlib.Data.List.Nodup
import Mathlib.Logic.Relation
import DecafCheck.Proofs.Attachment
/-!
# Trees are forests built once

A tree grows one adoption at a time (`Tree.AdoptStep`): the new node takes the next identity and
becomes the parent of the children it lists, and it is refused if one of them has a parent already
or is listed twice. One step keeps the older nodes' kinds and parents, so no parent is ever
reassigned, and keeps the tree a forest (`Tree.Forest`): a node lists a child exactly when the child
records it as its parent, and lists it once. Every builder call is one or two adoptions, so a whole
script builds its tree from the empty one by adoptions (`Tree.Built`), and every prefix of it
builds a tree that the rest only extends.

The refusal names the first child, in the order the node lists them, that has a parent or that the
node listed before (`Tree.firstAttached_nil_eq_some_iff`).
-/

namespace DecafCheck

namespace Tree

variable {t t' : Tree} {span : Span} {kind : NodeKind} {id : Nat}

/-! ## The first child a new node cannot adopt -/

/-- A child that has no parent and is not among the children adopted already is adopted, and the
search goes on. -/
theorem firstAttached_cons_of_free {earlier cs : List Nat} {c : Nat} (hc : c ∉ earlier)
    (hp : t.parentOf c = none) :
    t.firstAttached id earlier (c :: cs) = t.firstAttached id (c :: earlier) cs := by
  rw [firstAttached, if_neg hc, hp]

/-- A new node adopts every one of `cs` after `earlier` exactly when they are distinct, none of
them is among `earlier`, and none has a parent. -/
theorem firstAttached_eq_none_iff {earlier cs : List Nat} :
    t.firstAttached id earlier cs = none ↔
      cs.Nodup ∧ ∀ c ∈ cs, c ∉ earlier ∧ t.parentOf c = none := by
  induction cs generalizing earlier with
  | nil => simp [firstAttached]
  | cons c cs ih =>
    by_cases he : c ∈ earlier
    · simp [firstAttached, he]
    cases hp : t.parentOf c with
    | some p => simp [firstAttached, he, hp]
    | none =>
      rw [firstAttached_cons_of_free he hp, ih, List.nodup_cons, List.forall_mem_cons]
      constructor
      · rintro ⟨hnd, hall⟩
        have hnot : c ∉ cs := fun hc => (hall c hc).1 List.mem_cons_self
        exact ⟨⟨hnot, hnd⟩, ⟨he, hp⟩, fun x hx =>
          ⟨fun hxe => (hall x hx).1 (List.mem_cons_of_mem c hxe), (hall x hx).2⟩⟩
      · rintro ⟨⟨hnot, hnd⟩, -, hall⟩
        refine ⟨hnd, fun x hx => ⟨fun hxe => ?_, (hall x hx).2⟩⟩
        rcases List.mem_cons.1 hxe with rfl | hxe
        · exact hnot hx
        · exact (hall x hx).1 hxe

/-- A new node stops at `c`, naming `p`, exactly when the children before `c` are adopted and `c`
is one of them or of `earlier`, with the new node named, or else has the parent `p`. -/
theorem firstAttached_eq_some_iff {earlier cs : List Nat} {c p : Nat} :
    t.firstAttached id earlier cs = some (c, p) ↔
      ∃ pre rest, cs = pre ++ c :: rest ∧ t.firstAttached id earlier pre = none ∧
        (c ∈ pre ++ earlier ∧ p = id ∨ c ∉ pre ++ earlier ∧ t.parentOf c = some p) := by
  induction cs generalizing earlier with
  | nil => simp [firstAttached]
  | cons x xs ih =>
    constructor
    · intro h
      by_cases he : x ∈ earlier
      · rw [firstAttached, if_pos he] at h
        obtain ⟨rfl, rfl⟩ := Prod.mk.inj (Option.some.inj h)
        exact ⟨[], xs, rfl, rfl, .inl ⟨he, rfl⟩⟩
      cases hp : t.parentOf x with
      | some q =>
        rw [firstAttached, if_neg he, hp] at h
        obtain ⟨rfl, rfl⟩ := Prod.mk.inj (Option.some.inj h)
        exact ⟨[], xs, rfl, rfl, .inr ⟨he, hp⟩⟩
      | none =>
        -- `x` is adopted: the clash lies further on, after `x`
        rw [firstAttached_cons_of_free he hp] at h
        obtain ⟨pre, rest, rfl, hpre, hc⟩ := ih.1 h
        have hmem : c ∈ pre ++ x :: earlier ↔ c ∈ (x :: pre) ++ earlier := List.perm_middle.mem_iff
        refine ⟨x :: pre, rest, rfl, ?_, ?_⟩
        · rw [firstAttached_cons_of_free he hp]
          exact hpre
        · rwa [hmem] at hc
    · rintro ⟨pre, rest, hcs, hpre, hc⟩
      cases pre with
      | nil =>
        obtain ⟨rfl, rfl⟩ := List.cons.inj hcs
        rcases hc with ⟨hin, rfl⟩ | ⟨hin, hp⟩
        · rw [firstAttached, if_pos (by simpa using hin)]
        · rw [firstAttached, if_neg (by simpa using hin), hp]
      | cons y pre =>
        obtain ⟨rfl, rfl⟩ := List.cons.inj hcs
        -- the first child is adopted, as every child before the clash is
        obtain ⟨-, hfree⟩ := firstAttached_eq_none_iff.1 hpre
        obtain ⟨he, hp⟩ := hfree x List.mem_cons_self
        have hmem : c ∈ pre ++ x :: earlier ↔ c ∈ (x :: pre) ++ earlier := List.perm_middle.mem_iff
        rw [firstAttached_cons_of_free he hp] at hpre ⊢
        exact ih.2 ⟨pre, rest, rfl, hpre, by rwa [hmem]⟩

/-- The first child a new node cannot adopt: the children before it are distinct and have no
parent, and it is one of them, with the new node named, or has a parent, which is named. -/
theorem firstAttached_nil_eq_some_iff {cs : List Nat} {c p : Nat} :
    t.firstAttached id [] cs = some (c, p) ↔
      ∃ pre rest, cs = pre ++ c :: rest ∧ pre.Nodup ∧ (∀ x ∈ pre, t.parentOf x = none) ∧
        (c ∈ pre ∧ p = id ∨ c ∉ pre ∧ t.parentOf c = some p) := by
  rw [firstAttached_eq_some_iff]
  simp [firstAttached_eq_none_iff, and_assoc]

/-! ## One adoption -/

/-- What a successful adoption did: the new node is the next one, it found no clash among its
children, and the nodes are the older ones with the children adopted, then the new one. -/
theorem adopt_eq_ok {n : Nat} (ha : t.adopt span kind = .ok (n, t')) :
    n = t.size ∧ t.firstAttached t.size [] kind.children = none ∧
      t'.nodes = (t.adoptedNodes kind.children).push ⟨span, none, kind⟩ := by
  unfold adopt at ha
  split at ha
  · split at ha
    · cases ha
    · next hfree =>
      obtain ⟨rfl, rfl⟩ := Prod.mk.inj (Except.ok.inj ha)
      exact ⟨rfl, hfree, rfl⟩
  · split at ha <;> cases ha

/-- Of children in the tree, a new node adopts all exactly when it finds no clash. -/
theorem adopt_ok_iff (hin : ∀ c ∈ kind.children, c < t.size) :
    (∃ t', t.adopt span kind = .ok (t.size, t')) ↔
      t.firstAttached t.size [] kind.children = none := by
  unfold adopt
  rw [dif_pos hin]
  split
  · next hfa => simp [hfa]
  · next hfa => simp [hfa]

/-- Of children in the tree, a new node is refused exactly for the clash it finds. -/
theorem adopt_error_iff (hin : ∀ c ∈ kind.children, c < t.size) {e : BuildError} :
    t.adopt span kind = .error e ↔
      ∃ c p, t.firstAttached t.size [] kind.children = some (c, p) ∧ e = .alreadyAttached c p := by
  unfold adopt
  rw [dif_pos hin]
  split
  · next c p hfa =>
    simp only [Except.error.injEq, hfa, Option.some.injEq, Prod.mk.injEq]
    constructor
    · rintro rfl
      exact ⟨c, p, ⟨rfl, rfl⟩, rfl⟩
    · rintro ⟨c', p', ⟨rfl, rfl⟩, rfl⟩
      rfl
  · next hfa => simp [hfa]

/-- `t'` is `t` with one more node, adopted by `Tree.adopt`. -/
def AdoptStep (t t' : Tree) : Prop := ∃ span kind, t.adopt span kind = .ok (t.size, t')

/-- `t'` is `t` grown by adoptions. -/
def Built : Tree → Tree → Prop := Relation.ReflTransGen AdoptStep

/-- The children a node lists and the parents nodes record describe one forest: a node lists a
child exactly when the child records it as parent, and lists no child twice. -/
structure Forest (t : Tree) : Prop where
  /-- A listed child records the node that lists it. -/
  consistent : t.Consistent
  /-- A recorded parent lists the child. -/
  listed : ∀ c p, t.parentOf c = some p → c ∈ (t.kindAt p).children
  /-- No node lists a child twice. -/
  nodup : ∀ n, (t.kindAt n).children.Nodup

theorem empty_forest : empty.Forest where
  consistent := empty_consistent
  listed c p h := by simp [empty, parentOf, get?] at h
  nodup n := by simp [empty, kindAt, get?, default, NodeKind.children]

namespace Forest

variable (hf : t.Forest)
include hf

/-- A node records `p` as its parent exactly when `p` lists it. -/
theorem parentOf_iff {c p : Nat} : t.parentOf c = some p ↔ c ∈ (t.kindAt p).children :=
  ⟨hf.listed c p, hf.consistent p c⟩

/-- A parent lists its child once. -/
theorem count_eq_one {c p : Nat} (hp : t.parentOf c = some p) :
    (t.kindAt p).children.count c = 1 :=
  List.count_eq_one_of_mem (hf.nodup p) (hf.listed c p hp)

end Forest

/-- The strict ancestors of a node rise strictly from it, since a parent is built after its
child. -/
theorem pairwise_ancestors (t : Tree) (n : Nat) : (n :: t.ancestors n).Pairwise (· < ·) := by
  fun_induction t.ancestors n with
  | case1 n hp => exact List.pairwise_singleton _ n
  | case2 n p hp hlt ih =>
    rw [List.pairwise_cons]
    refine ⟨fun a ha => ?_, ih⟩
    rcases List.mem_cons.1 ha with rfl | ha
    · exact hlt.1
    · exact Nat.lt_trans hlt.1 ((List.pairwise_cons.1 ih).1 a ha)

section Step

variable (h : t.AdoptStep t')
include h

theorem AdoptStep.size_eq : t'.size = t.size + 1 := by
  obtain ⟨span, kind, ha⟩ := h
  obtain ⟨-, -, hn⟩ := adopt_eq_ok ha
  simp [size, hn, size_adoptedNodes]

/-- An older node keeps its kind. -/
theorem AdoptStep.kindAt_eq {i : Nat} (hi : i < t.size) : t'.kindAt i = t.kindAt i := by
  obtain ⟨span, kind, ha⟩ := h
  obtain ⟨-, -, hn⟩ := adopt_eq_ok ha
  rw [kindAt_of_adopted hn, if_pos hi]

/-- A node that has a parent keeps it: a new node adopts only children without one. -/
theorem AdoptStep.parentOf_eq {c p : Nat} (hp : t.parentOf c = some p) :
    t'.parentOf c = some p := by
  obtain ⟨span, kind, ha⟩ := h
  obtain ⟨-, hfree, hn⟩ := adopt_eq_ok ha
  have hc : c ∉ kind.children := fun hmem => by
    rw [parentOf_eq_none_of_firstAttached hfree c hmem] at hp
    cases hp
  have hlt : c < t.size := Nat.lt_trans (parentOf_spec hp).1 (parentOf_spec hp).2
  rw [parentOf_of_adopted hn, if_pos hlt, if_neg hc, hp]

/-- One adoption keeps a forest. -/
theorem AdoptStep.forest (hf : t.Forest) : t'.Forest := by
  obtain ⟨span, kind, ha⟩ := h
  obtain ⟨-, hfree, hn⟩ := adopt_eq_ok ha
  refine ⟨consistent_of_adopt hf.consistent ha, fun c p hp => ?_, fun n => ?_⟩
  · -- a child adopted now names the new node, any other keeps its parent, which lists it
    rw [parentOf_of_adopted hn] at hp
    split at hp
    · split at hp
      · next hc =>
        cases hp
        rw [kindAt_of_adopted hn, if_neg (Nat.lt_irrefl _), if_pos rfl]
        exact hc
      · have hlt := (parentOf_spec hp).2
        rw [kindAt_of_adopted hn, if_pos hlt]
        exact hf.listed c p hp
    · cases hp
  · rw [kindAt_of_adopted hn]
    split
    · exact hf.nodup n
    · split
      · exact (firstAttached_eq_none_iff.1 hfree).1
      · exact List.nodup_nil

end Step

namespace Built

variable (h : t.Built t')
include h

theorem size_le : t.size ≤ t'.size := by
  induction h with
  | refl => exact Nat.le_refl _
  | tail _ hs ih =>
    rw [hs.size_eq]
    exact Nat.le_succ_of_le ih

/-- The older nodes keep their kinds. -/
theorem kindAt_eq {i : Nat} (hi : i < t.size) : t'.kindAt i = t.kindAt i := by
  induction h with
  | refl => rfl
  | tail hb hs ih => rw [hs.kindAt_eq (Nat.lt_of_lt_of_le hi (size_le hb)), ih]

/-- No parent is reassigned. -/
theorem parentOf_eq {c p : Nat} (hp : t.parentOf c = some p) : t'.parentOf c = some p := by
  induction h with
  | refl => exact hp
  | tail _ hs ih => exact hs.parentOf_eq ih

theorem forest (hf : t.Forest) : t'.Forest := by
  induction h with
  | refl => exact hf
  | tail _ hs ih => exact hs.forest ih

end Built

/-- Every tree that `r` gives back is `t` grown by adoptions. -/
def BuiltResult {ε : Type} (t : Tree) (r : Except ε (Nat × Tree)) : Prop :=
  ∀ n t', r = .ok (n, t') → t.Built t'

namespace BuiltResult

variable {ε ε' α : Type}

theorem bind {x : Except ε α} {f : α → Except ε (Nat × Tree)}
    (h : ∀ a, x = .ok a → BuiltResult t (f a)) : BuiltResult t (x >>= f) := by
  intro n t' hx
  cases hxa : x with
  | error e =>
    rw [hxa] at hx
    cases hx
  | ok a =>
    rw [hxa] at hx
    exact h a hxa n t' hx

theorem mapError {r : Except ε (Nat × Tree)} (g : ε → ε') (h : BuiltResult t r) :
    BuiltResult t (r.mapError g) := by
  intro n t' hr
  cases hra : r with
  | error e =>
    rw [hra] at hr
    cases hr
  | ok a =>
    rw [hra] at hr
    change Except.ok a = _ at hr
    cases hr
    exact h n t' hra

end BuiltResult

theorem builtResult_adopt (t : Tree) (span : Span) (kind : NodeKind) :
    BuiltResult t (t.adopt span kind) := by
  intro n t' ha
  obtain ⟨rfl, -⟩ := adopt_eq_ok ha
  exact Relation.ReflTransGen.single ⟨span, kind, ha⟩

/-- A bare `return` is two adoptions: its empty value, then itself. -/
theorem builtResult_ret (t : Tree) (span : Span) (value : Option Nat) :
    BuiltResult t (t.ret span value) := by
  cases value with
  | some v => exact builtResult_adopt t span _
  | none =>
    refine BuiltResult.bind fun r he => ?_
    obtain ⟨v, t₁⟩ := r
    intro n t' ha
    exact (builtResult_adopt t {} (.expr .empty) v t₁ he).trans
      (builtResult_adopt t₁ span _ n t' ha)

end Tree

namespace BuildStep

/-- Every builder call grows the tree by adoptions. -/
theorem builtResult_perform (t : Tree) (ids : Array Nat) (step : BuildStep) :
    Tree.BuiltResult t (step.perform t ids) := by
  have hadopt : ∀ span kind, Tree.BuiltResult t (perform.lift (t.adopt span kind)) :=
    fun span kind => (Tree.builtResult_adopt t span kind).mapError _
  cases step <;>
    simp only [perform, Tree.program, Tree.declare, Tree.statement, Tree.cond, Tree.whileLoop,
      Tree.forLoop, Tree.expression, Tree.emptyExpr, Tree.compound, Tree.field]
  case ret span value =>
    exact Tree.BuiltResult.bind fun v _ => (Tree.builtResult_ret t span v).mapError _
  all_goals
    repeat (refine Tree.BuiltResult.bind fun _ _ => ?_)
    exact hadopt _ _

end BuildStep

namespace Script

/-- A script grows its tree by adoptions. -/
theorem runFrom_built : ∀ (s : Script) {t t' : Tree} {ids ids' : Array Nat},
    runFrom t ids s = .ok (t', ids') → t.Built t'
  | [], _, _, _, _, hr => by
    cases hr
    exact Relation.ReflTransGen.refl
  | step :: rest, t, _, ids, _, hr => by
    unfold runFrom at hr
    cases hp : step.perform t ids with
    | error e =>
      rw [hp] at hr
      cases hr
    | ok r =>
      rw [hp] at hr
      exact (BuildStep.builtResult_perform t ids step r.1 r.2 hp).trans (runFrom_built rest hr)

/-- Performing two scripts one after the other is performing the first, then the second from
where the first ended. -/
theorem runFrom_append (t : Tree) (ids : Array Nat) (s₁ s₂ : Script) :
    runFrom t ids (s₁ ++ s₂) = (runFrom t ids s₁ >>= fun r => runFrom r.1 r.2 s₂) := by
  induction s₁ generalizing t ids with
  | nil => rfl
  | cons step rest ih =>
    simp only [List.cons_append, runFrom]
    cases step.perform t ids with
    | error e => rfl
    | ok r => exact ih r.2 (ids.push r.1)

/-- A prefix of a script that runs runs too, and the rest of the script only extends its tree. -/
theorem run_prefix {s₁ s₂ : Script} {t : Tree} {ids : Array Nat}
    (h : (s₁ ++ s₂).run = .ok (t, ids)) :
    ∃ t₁ ids₁, s₁.run = .ok (t₁, ids₁) ∧ t₁.Built t := by
  unfold run at h
  rw [runFrom_append] at h
  cases h₁ : runFrom .empty #[] s₁ with
  | error e =>
    rw [h₁] at h
    cases h
  | ok r =>
    rw [h₁] at h
    exact ⟨r.1, r.2, h₁, runFrom_built s₂ h⟩

/-- Every script that runs builds a forest, once. In its tree a node records `p` as its parent
exactly when `p` lists it, and then `p` lists it once and was built after it; the strict ancestors
of every node rise strictly; and every prefix of the script builds a tree whose nodes keep their
kinds and their parents to the end. A new node, whose children lie in the tree, is added exactly
when its children are distinct and have no parent; otherwise it is refused at the first child, in
the order it lists them, that has a parent, which is named, or that it listed before, and then the
new node is named. -/
theorem run_builds_forest {s : Script} {t : Tree} {ids : Array Nat} (h : s.run = .ok (t, ids)) :
    (∀ c p, t.parentOf c = some p ↔ c ∈ (t.kindAt p).children) ∧
    (∀ c p, t.parentOf c = some p → (t.kindAt p).children.count c = 1 ∧ c < p) ∧
    (∀ n, (n :: t.ancestors n).Pairwise (· < ·)) ∧
    (∀ s₁ s₂, s = s₁ ++ s₂ → ∃ t₁ ids₁, s₁.run = .ok (t₁, ids₁) ∧ t₁.size ≤ t.size ∧
      ∀ c < t₁.size, t.kindAt c = t₁.kindAt c ∧
        ∀ p, t₁.parentOf c = some p → t.parentOf c = some p) ∧
    ∀ (t₀ : Tree) (span : Span) (kind : NodeKind), (∀ c ∈ kind.children, c < t₀.size) →
      ((∃ t', t₀.adopt span kind = .ok (t₀.size, t')) ↔
        kind.children.Nodup ∧ ∀ c ∈ kind.children, t₀.parentOf c = none) ∧
      ∀ c p, t₀.adopt span kind = .error (.alreadyAttached c p) ↔
        ∃ pre rest, kind.children = pre ++ c :: rest ∧ pre.Nodup ∧
          (∀ x ∈ pre, t₀.parentOf x = none) ∧
          (c ∈ pre ∧ p = t₀.size ∨ c ∉ pre ∧ t₀.parentOf c = some p) := by
  have hf : t.Forest := (runFrom_built s h).forest Tree.empty_forest
  refine ⟨fun c p => hf.parentOf_iff, fun c p hp => ⟨hf.count_eq_one hp, (Tree.parentOf_spec hp).1⟩,
    t.pairwise_ancestors, ?_, ?_⟩
  -- a prefix builds a tree that the rest of the script grows by adoptions
  · rintro s₁ s₂ rfl
    obtain ⟨t₁, ids₁, h₁, hb⟩ := run_prefix h
    exact ⟨t₁, ids₁, h₁, hb.size_le, fun c hc => ⟨hb.kindAt_eq hc, fun p => hb.parentOf_eq⟩⟩
  -- one adoption, through the first clash among the children
  · intro t₀ span kind hin
    refine ⟨?_, fun c p => ?_⟩
    · rw [Tree.adopt_ok_iff hin, Tree.firstAttached_eq_none_iff]
      simp
    · rw [Tree.adopt_error_iff hin, ← Tree.firstAttached_nil_eq_some_iff]
      constructor
      · rintro ⟨c', p', hfa, he⟩
        cases he
        exact hfa
      · intro hfa
        exact ⟨c, p, hfa, rfl⟩

/-- An integer literal, printed: node 0 is the literal, node 1 the `Print` statement. -/
def printOne : Script := [.leaf {} (.intLit 1), .print {} [0]]

theorem printOne_builds_forest : ∃ t ids, printOne.run = .ok (t, ids) ∧
    (∀ c p, t.parentOf c = some p ↔ c ∈ (t.kindAt p).children) ∧
    (∀ c p, t.parentOf c = some p → (t.kindAt p).children.count c = 1 ∧ c < p) ∧
    (∀ n, (n :: t.ancestors n).Pairwise (· < ·)) ∧
    (∀ s₁ s₂, printOne = s₁ ++ s₂ → ∃ t₁ ids₁, s₁.run = .ok (t₁, ids₁) ∧ t₁.size ≤ t.size ∧
      ∀ c < t₁.size, t.kindAt c = t₁.kindAt c ∧
        ∀ p, t₁.parentOf c = some p → t.parentOf c = some p) ∧
    ∀ (t₀ : Tree) (span : Span) (kind : NodeKind), (∀ c ∈ kind.children, c < t₀.size) →
      ((∃ t', t₀.adopt span kind = .ok (t₀.size, t')) ↔
        kind.children.Nodup ∧ ∀ c ∈ kind.children, t₀.parentOf c = none) ∧
      ∀ c p, t₀.adopt span kind = .error (.alreadyAttached c p) ↔
        ∃ pre rest, kind.children = pre ++ c :: rest ∧ pre.Nodup ∧
          (∀ x ∈ pre, t₀.parentOf x = none) ∧
          (c ∈ pre ∧ p = t₀.size ∨ c ∉ pre ∧ t₀.parentOf c = some p) := by
  have hok : printOne.run.isOk = true := by decide
  cases h : printOne.run with
  | error e =>
    rw [h] at hok
    cases hok
  | ok r => exact ⟨r.1, r.2, rfl, run_builds_forest h⟩

end Script

end DecafCheck
