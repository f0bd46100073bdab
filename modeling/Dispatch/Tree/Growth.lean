import Dispatch.Tree.Basic
/-!
# Growing a tree

A sprout is a subtree that is not part of a tree yet. Adding it under a node merges it into
what is there: nodes of one name are joined, and the rest is appended. The whole sprout is
checked before anything is added, so a refused sprout leaves the tree as it was.
-/
namespace Dispatch

/-- A subtree before it is part of a tree. -/
structure Sprout (S E M : Type) where
  label : Label S E M
  children : List (Sprout S E M)
  executor : Option E
  requirement : Option (S → Bool)
  redirect : Option Nat
  modifier : Option M
  forks : Bool

namespace Sprout
variable {S E M : Type}

/-- A sprout with a label and nothing else. -/
def ofLabel (label : Label S E M) : Sprout S E M := ⟨label, [], none, none, none, none, false⟩

/-- A literal. -/
def literal (text : String) : Sprout S E M := ofLabel (.literal text)

/-- An argument. -/
def argument (name : String) (parser : ArgumentParser S E M) : Sprout S E M :=
  ofLabel (.argument name parser none)

/-- The sprout with one more child. -/
def child (b : Sprout S E M) (c : Sprout S E M) : Sprout S E M :=
  { b with children := b.children ++ [c] }

/-- The sprout with something to run. -/
def executes (b : Sprout S E M) (executor : E) : Sprout S E M :=
  { b with executor := some executor }

/-- The sprout with another executor or none. -/
def withExecutor (b : Sprout S E M) (executor : Option E) : Sprout S E M :=
  { b with executor := executor }

/-- The sprout with another requirement or none. -/
def withRequirement (b : Sprout S E M) (requirement : Option (S → Bool)) : Sprout S E M :=
  { b with requirement := requirement }

/-- The sprout with a redirect, what it makes of the principal, and whether it forks. -/
def forward (b : Sprout S E M) (target : Nat) (modifier : Option M) (forks : Bool) :
    Sprout S E M :=
  { b with redirect := some target, modifier := modifier, forks := forks }

/-- The sprout with a plain redirect. -/
def redirectTo (b : Sprout S E M) (target : Nat) : Sprout S E M := b.forward target none false

/-- The sprout with a completer or none; a literal stays as it is. -/
def withCompleter (b : Sprout S E M) (completer : Option (Completer S E M)) : Sprout S E M :=
  match b.label with
  | .literal _ => b
  | .argument name parser _ => { b with label := .argument name parser completer }

/-- The sprout with another text; an argument stays as it is. -/
def withLiteral (b : Sprout S E M) (text : String) : Sprout S E M :=
  match b.label with
  | .literal _ => { b with label := .literal text }
  | .argument _ _ _ => b

/-- The name of the label. -/
def name (b : Sprout S E M) : String := b.label.name

/-- Whether the sprout is a literal. -/
def isLiteral (b : Sprout S E M) : Bool := b.label.isLiteral

/-- Whether two siblings share a name but are not of one kind. -/
def clashes (a b : Label S E M) : Bool := a.name == b.name && a.isLiteral != b.isLiteral

/-- The node that a sprout becomes, still without children. -/
def toNode (b : Sprout S E M) : Node S E M where
  label := some b.label
  children := []
  executor := b.executor
  requirement := b.requirement
  redirect := b.redirect
  modifier := b.modifier
  forks := b.forks

/-- What a sprout of the same name does to a node: a new executor or a new redirect takes the
place of the old one, and everything else stays. -/
def mergeInto (b : Sprout S E M) (node : Node S E M) : Node S E M :=
  let node := if b.executor.isSome then { node with executor := b.executor } else node
  if b.redirect.isSome then
    { node with redirect := b.redirect, modifier := b.modifier, forks := b.forks }
  else node

end Sprout

namespace Tree
variable {S E M : Type}

/-- Refuses numbers of no node. -/
def checkId (t : Tree S E M) (id : Nat) : Except RegistrationError Unit :=
  if id < t.size then .ok () else .error (.unknownRedirectTarget id)

/-- Checks a label and a redirect against the node, if any, that they would be merged into. -/
def checkNode (t : Tree S E M) (existing : Option (Node S E M)) (label : Label S E M)
    (redirect : Option Nat) (hasChildren : Bool) : Except RegistrationError Unit := do
  match redirect with
  | some target => t.checkId target
  | none => pure ()
  if existing.any fun node => node.isLiteral != label.isLiteral then
    throw (.nameConflict label.name)
  let redirects := redirect.isSome || existing.any fun node => node.redirect.isSome
  let branches := hasChildren || existing.any fun node => !node.children.isEmpty
  if redirects && branches then throw (.redirectWithChildren label.name)

mutual

/-- Checks a sprout that is to go under a node, or under one that is not there yet. -/
def check (t : Tree S E M) (parent : Option Nat) : Sprout S E M → Except RegistrationError Unit
  | ⟨label, children, _, _, redirect, _, _⟩ => do
    let existing := parent.bind fun p => t.findChild? p label.name
    t.checkNode (existing.bind t.node?) label redirect (!children.isEmpty)
    t.checkSiblings existing [] children

/-- Checks sprouts that are to go under one node, given the labels of those before them. -/
def checkSiblings (t : Tree S E M) (parent : Option Nat) (earlier : List (Label S E M)) :
    List (Sprout S E M) → Except RegistrationError Unit
  | [] => pure ()
  | b :: rest => do
    if earlier.any fun label => Sprout.clashes label b.label then throw (.nameConflict b.name)
    t.check parent b
    t.checkSiblings parent (earlier ++ [b.label]) rest

end

/-- Adds a node under another one, or merges it into the child of its name there. The answer
is the tree and the number of the node. -/
def place (t : Tree S E M) (parent : Nat) (b : Sprout S E M) : Tree S E M × Nat :=
  match t.findChild? parent b.name with
  | some existing => (t.update existing b.mergeInto, existing)
  | none => (t.addNode parent b.toNode, t.nextId)

mutual

/-- Adds a sprout under a node without checking it. -/
def graft (t : Tree S E M) (parent : Nat) : Sprout S E M → Tree S E M × Nat
  | ⟨label, children, executor, requirement, redirect, modifier, forks⟩ =>
    let (placed, id) :=
      t.place parent ⟨label, children, executor, requirement, redirect, modifier, forks⟩
    (placed.graftAll id children, id)

/-- Adds sprouts under a node one after the other. -/
def graftAll (t : Tree S E M) (parent : Nat) : List (Sprout S E M) → Tree S E M
  | [] => t
  | b :: rest => (t.graft parent b).1.graftAll parent rest

end

/-- Adds a sprout under a node. The answer is the tree and the number of the sprout's own
node. -/
def addChild (t : Tree S E M) (parent : Nat) (b : Sprout S E M) :
    Except RegistrationError (Tree S E M × Nat) := do
  t.checkId parent
  t.check (some parent) b
  pure (t.graft parent b)

/-- Adds a literal under the root. -/
def register (t : Tree S E M) (b : Sprout S E M) : Except RegistrationError (Tree S E M × Nat) :=
  if b.isLiteral then t.addChild root b else .error .notALiteral

/-- Gives a node another executor or none. -/
def setExecutor (t : Tree S E M) (id : Nat) (executor : Option E) :
    Except RegistrationError (Tree S E M) := do
  t.checkId id
  pure (t.update id fun node => { node with executor := executor })

/-- Gives a node another requirement or none. -/
def setRequirement (t : Tree S E M) (id : Nat) (requirement : Option (S → Bool)) :
    Except RegistrationError (Tree S E M) := do
  t.checkId id
  pure (t.update id fun node => { node with requirement := requirement })

/-- Points a node without children at another one. Unlike a sprout, it may point at a node
that came later, and so close a cycle. -/
def setRedirect (t : Tree S E M) (id target : Nat) :
    Except RegistrationError (Tree S E M) := do
  t.checkId id
  t.checkId target
  match t.node? id with
  | some node =>
    if !node.children.isEmpty || node.label.isNone then throw (.redirectWithChildren node.name)
  | none => pure ()
  pure (t.update id fun node => { node with redirect := some target })

end Tree
end Dispatch
