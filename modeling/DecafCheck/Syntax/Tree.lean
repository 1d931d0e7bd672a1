import DecafCheck.Syntax.Node
/-!
# The syntax forest

A `Tree` is the array of nodes built so far. Two facts hold of every tree and are kept in its
type, because the analyser's recursion rests on them:

* `children_lt`: a node refers only to nodes built before it;
* `parent_gt`: a node's parent was built after it, and lies in the tree.

So walking down to children or up to parents always ends. `Tree.adopt` is the one way to add a
node: it attaches the new node's children to it and refuses a child that is attached already.
The main statements are `lt_of_mem_children` and `parentOf_spec`, the two facts read off a tree,
and `ancestors`, the strict ancestors of a node, nearest first.
-/

namespace DecafCheck

/-- Why a node cannot be added. -/
inductive BuildError where
  /-- The child already has the parent `parent`: a node is adopted once only. -/
  | alreadyAttached (child parent : Nat)
  /-- The node does not exist. -/
  | unknownNode (node : Nat)
deriving DecidableEq, Repr

namespace BuildError

/-- The text of the error. -/
def message : BuildError → String
  | alreadyAttached child parent => s!"node #{child} already attached to Some(NodeId({parent}))"
  | unknownNode node => s!"node #{node} does not exist"

end BuildError

/-- The nodes built so far, with the order facts that make every walk through them end. -/
structure Tree where
  /-- The nodes, by identity. -/
  nodes : Array Node
  /-- A node refers only to nodes built before it. -/
  children_lt : ∀ (i : Nat) (h : i < nodes.size), ∀ c ∈ nodes[i].kind.children, c < i
  /-- A node's parent was built after it and lies in the tree. -/
  parent_gt : ∀ (i : Nat) (h : i < nodes.size) (p : Nat),
    nodes[i].parent = some p → i < p ∧ p < nodes.size

namespace Tree

/-- The tree without nodes. -/
def empty : Tree where
  nodes := #[]
  children_lt := by simp
  parent_gt := by simp

instance : Inhabited Tree := ⟨empty⟩

/-- The number of nodes. -/
def size (t : Tree) : Nat := t.nodes.size

/-- The node `n`, if it exists. -/
def get? (t : Tree) (n : Nat) : Option Node := t.nodes[n]?

/-- What node `n` is; a node outside the tree reads as an empty expression, which refers to
nothing and declares nothing. -/
def kindAt (t : Tree) (n : Nat) : NodeKind :=
  match t.get? n with
  | some node => node.kind
  | none => default

/-- Where node `n` stands; the default span outside the tree. -/
def spanAt (t : Tree) (n : Nat) : Span :=
  match t.get? n with
  | some node => node.span
  | none => {}

/-- The parent of node `n`. -/
def parentOf (t : Tree) (n : Nat) : Option Nat :=
  (t.get? n).bind (·.parent)

/-- A node refers only to nodes built before it. -/
theorem lt_of_mem_children {t : Tree} {n c : Nat} (h : c ∈ (t.kindAt n).children) : c < n := by
  unfold kindAt get? at h
  split at h
  · rename_i node hn
    obtain ⟨hlt, rfl⟩ := Array.getElem?_eq_some_iff.1 hn
    exact t.children_lt n hlt c h
  · simp [default, NodeKind.children] at h

/-- A parent was built after its child and lies in the tree. -/
theorem parentOf_spec {t : Tree} {n p : Nat} (h : t.parentOf n = some p) :
    n < p ∧ p < t.size := by
  unfold parentOf get? at h
  cases hn : t.nodes[n]? with
  | none => simp [hn] at h
  | some node =>
    obtain ⟨hlt, rfl⟩ := Array.getElem?_eq_some_iff.1 hn
    simp [hn] at h
    exact t.parent_gt n hlt p h

/-- A node that declares something lies in the tree. -/
theorem lt_size_of_decl? {t : Tree} {n : Nat} {d : Decl} (h : (t.kindAt n).decl? = some d) :
    n < t.size := by
  unfold kindAt get? at h
  split at h
  · rename_i node hn
    exact (Array.getElem?_eq_some_iff.1 hn).1
  · simp [default, NodeKind.decl?] at h

/-- The strict ancestors of `n`, nearest first. -/
def ancestors (t : Tree) (n : Nat) : List Nat :=
  match h : t.parentOf n with
  | none => []
  | some p =>
    have := parentOf_spec h
    p :: t.ancestors p
termination_by t.size - n
decreasing_by omega

/-- The nearest strict ancestor of `n` whose kind passes `p`. -/
def enclosing (t : Tree) (p : NodeKind → Bool) (n : Nat) : Option Nat :=
  (t.ancestors n).find? fun a => p (t.kindAt a)

/-- The nearest enclosing class declaration. -/
def enclosingClass (t : Tree) (n : Nat) : Option Nat :=
  t.enclosing (fun k => k.cls?.isSome) n

/-- The nearest enclosing function declaration. -/
def enclosingFunction (t : Tree) (n : Nat) : Option Nat :=
  t.enclosing (fun k => k.fn?.isSome) n

/-- Whether a loop encloses `n` within its function: the nearest enclosing node that is a loop or
a function is a loop. -/
def insideLoop (t : Tree) (n : Nat) : Bool :=
  match t.enclosing (fun k => k.isLoop || k.fn?.isSome) n with
  | some a => (t.kindAt a).isLoop
  | none => false

/-- The first of `children` that a new node `id` cannot adopt, with the node it is attached to:
one attached before, or one that occurs earlier in the list and so has just been adopted by `id`.
`earlier` holds the children already adopted. -/
def firstAttached (t : Tree) (id : Nat) (earlier : List Nat) :
    List Nat → Option (Nat × Nat)
  | [] => none
  | c :: cs =>
    if c ∈ earlier then some (c, id)
    else match t.parentOf c with
      | some p => some (c, p)
      | none => t.firstAttached id (c :: earlier) cs

/-- The nodes once the new node `t.size` has adopted `children`. -/
def adoptedNodes (t : Tree) (children : List Nat) : Array Node :=
  t.nodes.mapIdx fun i node => if i ∈ children then { node with parent := some t.size } else node

theorem size_adoptedNodes (t : Tree) (children : List Nat) :
    (t.adoptedNodes children).size = t.size := by
  simp [adoptedNodes, size]

theorem kind_adoptedNodes (t : Tree) (children : List Nat) (i : Nat)
    (hi : i < (t.adoptedNodes children).size) (hold : i < t.nodes.size) :
    (t.adoptedNodes children)[i].kind = t.nodes[i].kind := by
  simp only [adoptedNodes, Array.getElem_mapIdx]
  split <;> rfl

/-- Adds a node that adopts its children, in `kind.children` order: the answer is the new node's
identity and the grown tree. A child outside the tree, or attached already, is refused. -/
def adopt (t : Tree) (span : Span) (kind : NodeKind) : Except BuildError (Nat × Tree) :=
  if hin : ∀ c ∈ kind.children, c < t.size then
    match t.firstAttached t.size [] kind.children with
    | some (c, p) => .error (.alreadyAttached c p)
    | none =>
      .ok (t.size,
        { nodes := (t.adoptedNodes kind.children).push ⟨span, none, kind⟩
          children_lt := by
            intro i hi c hc
            rw [Array.size_push, size_adoptedNodes] at hi
            rw [Array.getElem_push] at hc
            split at hc
            · rename_i hlt
              have hold : i < t.nodes.size := by simpa [size_adoptedNodes, size] using hlt
              rw [kind_adoptedNodes t _ i hlt hold] at hc
              exact t.children_lt i hold c hc
            · have hsize := size_adoptedNodes t kind.children
              have : i = t.size := by omega
              subst this
              exact hin c hc
          parent_gt := by
            intro i hi p hp
            rw [Array.size_push, size_adoptedNodes] at hi ⊢
            rw [Array.getElem_push] at hp
            split at hp
            · rename_i hlt
              simp only [adoptedNodes, Array.getElem_mapIdx] at hp
              split at hp
              · simp at hp
                subst hp
                simp [size_adoptedNodes] at hlt
                omega
              · have := t.parent_gt i _ p hp
                simp [size] at this ⊢
                omega
            · simp at hp })
  else
    match kind.children.find? (fun c => !decide (c < t.size)) with
    | some c => .error (.unknownNode c)
    | none => .error (.unknownNode t.size)

end Tree

end DecafCheck
