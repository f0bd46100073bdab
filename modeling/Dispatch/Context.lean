import Dispatch.Error
import Dispatch.Principal
import Dispatch.Reader
import Dispatch.Value
/-!
# Contexts

What reading a command line has brought to light. A context covers the nodes matched between
two redirects: on whose behalf, which arguments are bound, which nodes were visited over which
range, and what the last of them says about running. Contexts joined by redirects form a
chain, the outermost first. Executors and redirect modifiers are named by handles, of types
chosen by the host; what they do is told apart from the tree.
-/
namespace Dispatch

/-- A visited node, by its number in the tree, and the range of the input that it took. -/
structure ParsedNode where
  node : Nat
  range : Span
  deriving DecidableEq, Repr

/-- What was read between two redirects. -/
structure Context (S E M : Type) where
  /-- On whose behalf the line is read. -/
  source : S
  input : String
  /-- The number of the node whose children were tried first. -/
  root : Nat
  /-- Bound arguments in the order in which their names were first bound. -/
  arguments : List (String × ParsedArgument)
  /-- Visited nodes in order. -/
  nodes : List ParsedNode
  /-- What the last visited node runs. -/
  executor : Option E
  /-- The bytes covered, from where the context starts. -/
  range : Span
  /-- How the last visited node redirects. -/
  modifier : Option M
  /-- Whether the redirect of the last visited node forks. -/
  forks : Bool
  /-- How many redirects led here. -/
  redirectDepth : Nat

namespace Context
variable {S E M : Type}

/-- A context that has visited nothing yet. -/
def start (source : S) (input : String) (root : Nat) (position : Nat) : Context S E M where
  source := source
  input := input
  root := root
  arguments := []
  nodes := []
  executor := none
  range := .point position
  modifier := none
  forks := false
  redirectDepth := 0

/-- The bindings with `name` bound to `argument`, in the place of an earlier binding of the
name. -/
def bind (name : String) (argument : ParsedArgument) :
    List (String × ParsedArgument) → List (String × ParsedArgument)
  | [] => [(name, argument)]
  | (other, old) :: rest =>
    if other = name then (other, argument) :: rest else (other, old) :: bind name argument rest

/-- The context with an argument bound. -/
def withArgument (c : Context S E M) (name : String) (argument : ParsedArgument) : Context S E M :=
  { c with arguments := bind name argument c.arguments }

/-- The context with one more visited node, whose redirect modifier and fork flag take the
place of those before. -/
def withNode (c : Context S E M) (node : Nat) (range : Span) (modifier : Option M)
    (forks : Bool) : Context S E M :=
  { c with
    nodes := c.nodes ++ [⟨node, range⟩]
    range := c.range.encompassing range
    modifier := modifier
    forks := forks }

/-- The context with another executor. -/
def withExecutor (c : Context S E M) (executor : Option E) : Context S E M :=
  { c with executor := executor }

/-- The context on behalf of another principal. -/
def onBehalfOf (c : Context S E M) (source : S) : Context S E M := { c with source := source }

/-- Whether any node was visited. -/
def hasNodes (c : Context S E M) : Bool := !c.nodes.isEmpty

/-- A bound argument. -/
def argument? (c : Context S E M) (name : String) : Option ParsedArgument :=
  c.arguments.lookup name

/-- Whether an argument is bound. -/
def hasArgument (c : Context S E M) (name : String) : Bool := (c.argument? name).isSome

/-- The text that a bound argument was read from; within, `none` if its range has an end
inside a character. -/
def argumentText? (c : Context S E M) (name : String) : Option (Option String) :=
  (c.argument? name).map fun argument => argument.range.text? c.input

/-- A bound argument, converted. -/
def get {α : Type} [OfValue α] (c : Context S E M) (name : String) : Except CommandError α :=
  match c.argument? name with
  | none => .error (.unknownArgument name)
  | some argument =>
    match OfValue.ofValue? argument.value with
    | some a => .ok a
    | none => .error (.argumentType name (OfValue.expected α))

/-- A bound argument, converted, or nothing if it is not bound. -/
def getOptional {α : Type} [OfValue α] (c : Context S E M) (name : String) :
    Except CommandError (Option α) :=
  if c.hasArgument name then (c.get name).map some else .ok none

/-- A bound host value of a given type. -/
def getHost (c : Context S E M) (typeName name : String) : Except CommandError HostValue :=
  match c.argument? name with
  | none => .error (.unknownArgument name)
  | some argument =>
    match argument.value with
    | .host h => if h.typeName = typeName then .ok h else .error (.argumentType name typeName)
    | _ => .error (.argumentType name typeName)

/-- Refuses to go on for a principal that lacks a capability. -/
def requireCapability [Capable S] (c : Context S E M) (capability : String) :
    Except CommandError Unit :=
  if Capable.holds c.source capability then .ok () else .error (.permissionDenied capability)

end Context

/-- Contexts joined by redirects. There is at least one. -/
structure Chain (S E M : Type) where
  outer : Context S E M
  inner : List (Context S E M)

namespace Chain
variable {S E M : Type}

/-- The chain of a single context. -/
def single (c : Context S E M) : Chain S E M := ⟨c, []⟩

/-- The chain that goes on from a context with another chain. -/
def enter (c : Context S E M) (chain : Chain S E M) : Chain S E M := ⟨c, chain.outer :: chain.inner⟩

/-- All contexts, the outermost first. -/
def levels (chain : Chain S E M) : List (Context S E M) := chain.outer :: chain.inner

/-- The innermost context. -/
def last (chain : Chain S E M) : Context S E M := chain.inner.getLastD chain.outer

/-- The chain with its outermost context on behalf of another principal. -/
def onBehalfOf (chain : Chain S E M) (source : S) : Chain S E M :=
  { chain with outer := chain.outer.onBehalfOf source }

end Chain

/-- Where a completion takes place: the number of the node whose children are asked, and the
offset from which text is replaced. -/
structure CompletionPoint where
  parent : Nat
  start : Nat
  deriving DecidableEq, Repr

namespace Context
variable {S E M : Type}

/-- The visited node that a cursor touches, with the node before it; `previous` is the node
before the first. Past them all it is the last node and the start of the context. -/
def pointWithin (c : Context S E M) (cursor : Nat) (previous : Nat) :
    List ParsedNode → CompletionPoint
  | [] => ⟨previous, c.range.start⟩
  | visited :: rest =>
    if visited.range.start ≤ cursor ∧ cursor ≤ visited.range.stop then
      ⟨previous, visited.range.start⟩
    else c.pointWithin cursor visited.node rest

/-- The point after all visited nodes. -/
def pointAfter (c : Context S E M) : CompletionPoint :=
  match c.nodes.getLast? with
  | some visited => ⟨visited.node, min (visited.range.stop + 1) (Text.size c.input)⟩
  | none => ⟨c.root, c.range.start⟩

/-- Where a cursor completes, and the context in which it does: this one, or one of those
inside it if the cursor lies beyond its range. -/
def completionPoint (cursor : Nat) (c : Context S E M) :
    (inner : List (Context S E M)) → CompletionPoint × Context S E M
  | [] =>
    if c.range.stop < cursor then (c.pointAfter, c) else (c.pointWithin cursor c.root c.nodes, c)
  | next :: rest =>
    if c.range.stop < cursor then completionPoint cursor next rest
    else (c.pointWithin cursor c.root c.nodes, c)

end Context

/-- Where a cursor completes in a chain, and the context in which it does. -/
def Chain.completionPoint {S E M : Type} (chain : Chain S E M) (cursor : Nat) :
    CompletionPoint × Context S E M :=
  chain.outer.completionPoint cursor chain.inner

end Dispatch
