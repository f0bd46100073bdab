import Dispatch.Argument.Parser
/-!
# Command trees

A tree of nodes, each with a number, in which every child has a greater number than its
parent. The root is node zero and matches nothing; every other node carries a label, which is
a literal word or an argument. Besides its children a node may have a redirect, which is the
number of any node and so may lead back up the tree.

A tree changes in two ways only: `update` changes what a node carries apart from its children, and
`addNode` adds a node without children under another one. Both keep the order of numbers.
-/
namespace Dispatch

/-- What a node other than the root matches. -/
inductive Label (S E M : Type) where
  /-- A fixed word. -/
  | literal (text : String)
  /-- A value, bound to a name. -/
  | argument (name : String) (parser : ArgumentParser S E M) (completer : Option (Completer S E M))

namespace Label
variable {S E M : Type}

/-- The literal's text or the argument's name. -/
def name : Label S E M → String
  | literal text => text
  | argument name _ _ => name

/-- Whether the label is a literal. -/
def isLiteral : Label S E M → Bool
  | literal _ => true
  | argument _ _ _ => false

/-- The label in usage lines. -/
def usage : Label S E M → String
  | literal text => text
  | argument name _ _ => "<" ++ name ++ ">"

/-- Inputs that the label matches. -/
def examples : Label S E M → List String
  | literal text => [text]
  | argument _ parser _ => parser.examples

end Label

/-- A node of a command tree. -/
structure Node (S E M : Type) where
  /-- What the node matches; the root has no label. -/
  label : Option (Label S E M)
  /-- Children in the order in which they were added. -/
  children : List Nat
  /-- What runs when a command line ends here. -/
  executor : Option E
  /-- Who may see and use the node. -/
  requirement : Option (S → Bool)
  /-- Where matching goes on after this node. -/
  redirect : Option Nat
  /-- What the redirect makes of the principal. -/
  modifier : Option M
  /-- Whether the redirect forks. -/
  forks : Bool

namespace Node
variable {S E M : Type}

/-- A root without children. -/
def root : Node S E M := ⟨none, [], none, none, none, none, false⟩

/-- The name of the label; the root's is empty. -/
def name (node : Node S E M) : String :=
  match node.label with
  | some label => label.name
  | none => ""

/-- Whether the node is a literal. -/
def isLiteral (node : Node S E M) : Bool := node.label.any Label.isLiteral

/-- The node in usage lines. -/
def usage (node : Node S E M) : String :=
  match node.label with
  | some label => label.usage
  | none => ""

/-- Inputs that the node matches. -/
def examples (node : Node S E M) : List String :=
  match node.label with
  | some label => label.examples
  | none => []

/-- Whether a principal passes the node's requirement. -/
def canUse (node : Node S E M) (source : S) : Bool :=
  match node.requirement with
  | some requirement => requirement source
  | none => true

/-- The node with other children. -/
def withChildren (node : Node S E M) (children : List Nat) : Node S E M :=
  { node with children := children }

end Node

/-- A tree of nodes. -/
structure Tree (S E M : Type) where
  nodes : Array (Node S E M)
  hasRoot : 0 < nodes.size
  /-- A child comes after its parent. -/
  descending : ∀ (i : Nat) (node : Node S E M), nodes[i]? = some node →
    ∀ c ∈ node.children, i < c ∧ c < nodes.size

namespace Tree
variable {S E M : Type}

/-- The number of the root. -/
def root : Nat := 0

/-- The tree that is only a root. -/
def empty : Tree S E M where
  nodes := #[Node.root]
  hasRoot := by simp
  descending := by
    intro i node h c hc
    cases i with
    | zero =>
      obtain rfl : Node.root = node := by simpa using h
      simp [Node.root] at hc
    | succ i => simp at h

instance : Inhabited (Tree S E M) := ⟨empty⟩

/-- How many nodes the tree has. -/
def size (t : Tree S E M) : Nat := t.nodes.size

/-- The node with a number. -/
def node? (t : Tree S E M) (id : Nat) : Option (Node S E M) := t.nodes[id]?

theorem child_order {t : Tree S E M} {id c : Nat} {node : Node S E M} (h : t.node? id = some node)
    (hc : c ∈ node.children) : id < c ∧ c < t.size :=
  t.descending id node h c hc

/-- The tree with a node changed, but not its children. -/
def update (t : Tree S E M) (id : Nat) (change : Node S E M → Node S E M) : Tree S E M where
  nodes := t.nodes.modify id fun node => (change node).withChildren node.children
  hasRoot := by simpa using t.hasRoot
  descending := by
    intro i node h c hc
    rw [Array.getElem?_modify] at h
    simp only [Array.size_modify]
    split at h
    · obtain ⟨old, hold, rfl⟩ := Option.map_eq_some_iff.1 h
      exact t.descending i old hold c hc
    · exact t.descending i node h c hc

/-- The tree with a node added under another one, as its last child. Whatever the children of
the given node are, it is added without any. -/
def addNode (t : Tree S E M) (parent : Nat) (node : Node S E M) : Tree S E M where
  nodes := (t.nodes.modify parent fun p => p.withChildren (p.children ++ [t.nodes.size])).push
    (node.withChildren [])
  hasRoot := by simp
  descending := by
    intro i found h c hc
    rw [Array.getElem?_push] at h
    simp only [Array.size_modify, Array.size_push] at h ⊢
    split at h
    · obtain rfl := Option.some.inj h
      simp [Node.withChildren] at hc
    · rw [Array.getElem?_modify] at h
      split at h
      · obtain ⟨old, hold, rfl⟩ := Option.map_eq_some_iff.1 h
        have bound : i < t.nodes.size := (Array.getElem?_eq_some_iff.1 hold).1
        simp only [Node.withChildren, List.mem_append, List.mem_singleton] at hc
        rcases hc with hc | rfl
        · have := t.descending i old hold c hc
          omega
        · omega
      · have := t.descending i found h c hc
        omega

/-- The number that the next added node gets. -/
def nextId (t : Tree S E M) : Nat := t.nodes.size

/-- The numbers of a node's children. A node that is not there has none. -/
def childIds (t : Tree S E M) (id : Nat) : List Nat := (t.node? id).elim [] Node.children

theorem lt_of_mem_childIds {t : Tree S E M} {i c : Nat} (h : c ∈ t.childIds i) :
    i < c ∧ c < t.size := by
  cases hnode : t.node? i with
  | none => simp [childIds, hnode] at h
  | some node =>
    rw [childIds, hnode] at h
    exact child_order hnode h

/-- The child of a node with a given name. -/
def findChild? (t : Tree S E M) (parent : Nat) (name : String) : Option Nat :=
  (t.childIds parent).find? fun c => (t.node? c).any fun child => child.name == name

/-- The node at the end of a path of names from the root. -/
def findPath? (t : Tree S E M) (path : List String) : Option Nat :=
  path.foldlM t.findChild? root

/-- The children of a node, each with its place in the order. -/
def childrenOf (t : Tree S E M) (id : Nat) : List { c : Nat // id < c ∧ c < t.size } :=
  match h : t.node? id with
  | none => []
  | some node => node.children.attach.map fun ⟨c, hc⟩ => ⟨c, child_order h hc⟩

/-- The name of a node; a node that is not there has the empty one. -/
def nameOf (t : Tree S E M) (id : Nat) : String := (t.node? id).elim "" Node.name

/-- The names on the way from a node down to another one, if it is found there. -/
def pathFrom? (t : Tree S E M) (target id : Nat) : Option (List String) :=
  if id = target then some []
  else (t.childrenOf id).findSome? fun ⟨c, _⟩ => (t.pathFrom? target c).map (t.nameOf c :: ·)
termination_by t.size - id
decreasing_by omega

/-- The names on the way from the root down to a node; empty for the root and for a node that
is not in the tree. -/
def path (t : Tree S E M) (target : Nat) : List String := (t.pathFrom? target root).getD []

end Tree
end Dispatch
