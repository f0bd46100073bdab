import Dispatch.Match
/-!
# Parsing command lines

A parse walks down the tree from the root, one node for one word or argument, and tries every
child that fits and that the principal may use, in the order of the children. Where a node
with a redirect is followed by more input, the parse goes on at the redirect's target in a
context of its own, and what comes of that settles it. Among the other ways to go on, the
parse prefers one that leaves nothing of the input, then one without errors, then the one that
was found first. A parse never fails: where nothing goes on, it holds the errors of all the
children that were tried there.

Argument parsers may do as they like with the input, so it is not the input that brings a
parse to an end. It goes from a node to one of its children, which have greater numbers, or it
spends one of the redirects that the limit allows (`Dispatcher.room`).
-/
namespace Dispatch

/-- A command tree and the settings under which lines are parsed. -/
structure Dispatcher (S E M : Type) where
  tree : Tree S E M
  config : Config

/-- The outcome of parsing a command line. -/
structure Parse (S E M : Type) where
  /-- The contexts of the way that was taken. -/
  chain : Chain S E M
  /-- The reader where it ended. -/
  reader : Reader
  /-- Why the children tried there did not match, by their numbers. -/
  errors : List (Nat × SyntaxError)

namespace Parse
variable {S E M : Type}

/-- A parse that ends in a context without having tried any child there. -/
def ended (context : Context S E M) (reader : Reader) : Parse S E M := ⟨.single context, reader, []⟩

/-- Whether nothing of the input is left. -/
def isComplete (parse : Parse S E M) : Bool := !parse.reader.canRead

/-- How far a parse is from what is wished for: input left over weighs more than errors. -/
def rank (parse : Parse S E M) : Nat :=
  (if parse.isComplete then 0 else 2) + (if parse.errors.isEmpty then 0 else 1)

/-- The parse of least rank, the first of these. -/
def best (first : Parse S E M) (rest : List (Parse S E M)) : Parse S E M :=
  rest.foldl (fun chosen parse => if parse.rank < chosen.rank then parse else chosen) first

/-- The error that got farthest into the input, the first of these. -/
def bestError? (parse : Parse S E M) : Option SyntaxError :=
  match parse.errors.map (·.2) with
  | [] => none
  | first :: rest =>
    some (rest.foldl (fun chosen error =>
      if chosen.cursor.getD 0 < error.cursor.getD 0 then error else chosen) first)

end Parse

/-- What came of trying one child. -/
inductive Attempt (S E M : Type) where
  /-- It did not match. -/
  | failed (error : SyntaxError)
  /-- It is one way to go on. -/
  | possible (parse : Parse S E M)
  /-- A redirect was followed from it, so this is the parse. -/
  | settled (parse : Parse S E M)

/-- What came of trying several children. -/
inductive Survey (S E M : Type) where
  /-- The ways to go on, and the errors of the children that did not match. -/
  | choice (errors : List (Nat × SyntaxError)) (parses : List (Parse S E M))
  /-- One of them settled the parse. -/
  | settled (parse : Parse S E M)

/-- A child of a node with its number and its label. -/
structure Offspring (S E M : Type) where
  id : Nat
  node : Node S E M
  label : Label S E M

/-- The children of a node that fit the next word and that the principal may use. -/
def Tree.eligible {S E M : Type} (t : Tree S E M) (parent : Nat) (r : Reader) (source : S) :
    List (Offspring S E M) :=
  (t.childIds parent).filterMap fun c => do
    let node ← t.node? c
    let label ← node.label
    if label.fits r.peekWord && node.canUse source then some ⟨c, node, label⟩ else none

theorem Tree.mem_childIds_of_mem_eligible {S E M : Type} {t : Tree S E M} {parent : Nat}
    {r : Reader} {source : S} {child : Offspring S E M} (h : child ∈ t.eligible parent r source) :
    child.id ∈ t.childIds parent := by
  obtain ⟨c, hc, htried⟩ := List.mem_filterMap.1 h
  simp only [Option.bind_eq_bind, Option.bind_eq_some_iff] at htried
  obtain ⟨node, -, label, -, hchild⟩ := htried
  split at hchild
  · rwa [← Option.some.inj hchild]
  · cases hchild

namespace Survey
variable {S E M : Type}

/-- Tries children one after the other, up to the first that settles the parse. -/
def ofAttempts : (children : List (Offspring S E M)) →
    ((child : Offspring S E M) → child ∈ children → Attempt S E M) → Survey S E M
  | [], _ => choice [] []
  | child :: rest, attempt =>
    let others := fun other mem => attempt other (List.mem_cons_of_mem child mem)
    match attempt child List.mem_cons_self with
    | .settled parse => settled parse
    | .failed error =>
      match ofAttempts rest others with
      | choice errors parses => choice ((child.id, error) :: errors) parses
      | settled parse => settled parse
    | .possible parse =>
      match ofAttempts rest others with
      | choice errors parses => choice errors (parse :: parses)
      | settled parse => settled parse

/-- The parse that a survey of the children at a reader makes, given the context up to
there. -/
def conclude (context : Context S E M) (r : Reader) : Survey S E M → Parse S E M
  | settled parse => parse
  | choice errors [] => ⟨.single context, r, errors⟩
  | choice _ (first :: rest) => Parse.best first rest

end Survey

namespace Dispatcher
variable {S E M : Type}

/-- A dispatcher without commands. -/
def empty (config : Config) : Dispatcher S E M := ⟨.empty, config⟩

/-- How many steps may lie ahead of a node behind so many redirects: from there down to the
nodes with greater numbers, and through the whole tree for each redirect that is left. -/
def room (d : Dispatcher S E M) (node depth : Nat) : Nat :=
  (d.config.maxRedirectDepth - depth) * (d.tree.size + 1) + (d.tree.size - node)

theorem room_child {d : Dispatcher S E M} {node child : Nat} (h : child ∈ d.tree.childIds node)
    (depth : Nat) : d.room child depth < d.room node depth := by
  have := Tree.lt_of_mem_childIds h
  simp only [room]
  omega

theorem room_redirect {d : Dispatcher S E M} {depth : Nat}
    (limit : depth + 1 ≤ d.config.maxRedirectDepth) (node target : Nat) :
    d.room target (depth + 1) < d.room node depth := by
  have hsplit :
      d.config.maxRedirectDepth - depth = d.config.maxRedirectDepth - (depth + 1) + 1 := by
    omega
  simp only [room, hsplit, Nat.add_mul, Nat.one_mul]
  omega

/-- How parsing goes on where no more than so much room is left. -/
abbrev Descent (d : Dispatcher S E M) (room : Nat) : Type :=
  (node : Nat) → (after : Reader) → (context : Context S E M) →
    d.room node context.redirectDepth ≤ room → Parse S E M

/-- Follows a redirect into a context of its own, unless the limit is reached. -/
def followRedirect (d : Dispatcher S E M) (context : Context S E M) (target : Nat) (after : Reader)
    {room : Nat} (descend : d.Descent room)
    (within : context.redirectDepth + 1 ≤ d.config.maxRedirectDepth →
      d.room target (context.redirectDepth + 1) ≤ room) : Attempt S E M :=
  let depth := context.redirectDepth + 1
  if exceeded : d.config.maxRedirectDepth < depth then
    .failed (after.error .redirectLimit [("limit", Decimal.natText d.config.maxRedirectDepth)])
  else
    let start : Context S E M :=
      { Context.start context.source after.input target after.cursor with redirectDepth := depth }
    let inner := descend target after start (within (Nat.not_lt.1 exceeded))
    .settled { inner with chain := .enter context inner.chain }

/-- Tries a child at a reader. What follows it has to start with a separator. A single
separator at the end of the input is left over. -/
def attempt (d : Dispatcher S E M) (context : Context S E M) (r : Reader)
    (child : Offspring S E M) (descend : d.Descent (d.room child.id context.redirectDepth)) :
    Attempt S E M :=
  match child.label.take context r with
  | .error error => .failed error
  | .ok taken =>
    if taken.isCutOff then .failed (taken.after.error .expectedSeparator [])
    else
      let visited :=
        ((child.label.bindTo taken context).withNode child.id taken.range child.node.modifier
          child.node.forks).withExecutor child.node.executor
      have depth : visited.redirectDepth = context.redirectDepth :=
        child.label.redirectDepth_bindTo taken context
      if taken.after.canRead then
        match child.node.redirect with
        | some target => d.followRedirect visited target taken.after.pastSeparator descend
            fun limit => depth ▸ Nat.le_of_lt (room_redirect (depth ▸ limit) child.id target)
        | none =>
          if taken.after.canReadBytes 2 then
            .possible (descend child.id taken.after.pastSeparator visited (depth ▸ Nat.le_refl _))
          else .possible (.ended visited taken.after)
      else .possible (.ended visited taken.after)

/-- Parses at a reader among the children of a node, given the context up to there. -/
def parseAt (d : Dispatcher S E M) (node : Nat) (r : Reader) (context : Context S E M) :
    Parse S E M :=
  Survey.conclude context r
    (Survey.ofAttempts (d.tree.eligible node r context.source) fun child _mem =>
      d.attempt context r child fun next after visited _within => d.parseAt next after visited)
termination_by d.room node context.redirectDepth
decreasing_by
  exact Nat.lt_of_le_of_lt _within (room_child (Tree.mem_childIds_of_mem_eligible _mem) _)

/-- Parses from a reader on. A reader inside a character has nothing ahead that could be
parsed. -/
def parseFrom? (d : Dispatcher S E M) (r : Reader) (source : S) : Option (Parse S E M) :=
  if r.isOnBoundary then
    some (d.parseAt Tree.root r (.start source r.input Tree.root r.cursor))
  else none

/-- Parses a command line. -/
def parse (d : Dispatcher S E M) (input : String) (source : S) : Parse S E M :=
  d.parseAt Tree.root (.ofString input) (.start source input Tree.root 0)

end Dispatcher
end Dispatch
