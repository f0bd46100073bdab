import Dispatch.Proofs.Parse.Step
import Dispatch.Proofs.Parse.Taking
import Dispatch.Proofs.Tree.Growth
import Mathlib.Data.List.Chain
/-!
# Parses are derivations

The contexts that a parse returns can be read off the tree and the input. `Context.IsDerived`
says what makes one of them right: its nodes lie on a path along child edges, the principal
may use each of them, their ranges follow one another with a single byte in between, and what
the context records is what the nodes of the path carry. `Dispatcher.Derives` joins contexts
by redirects. The main statement is that every parse is one of these, whatever the tree, the
redirects in it and the argument parsers are.

What stands in these ranges is another matter, since a parser may put a reader of some other
text in the place of the one that it was given. Where no parser does, the byte in between is a
separator and literals are spelled out in the input (`Context.IsSpelled`).

The invariant of the descent is `Context.LeadsTo`: the context is derived so far, and the
reader stands where the next node has to start.
-/
namespace Dispatch
variable {S E M : Type}

/-- The name that a label binds. -/
def Label.boundName? : Label S E M → Option String
  | .literal _ => none
  | .argument name _ _ => some name

namespace Tree

/-- The name that a node binds. -/
def argumentName? (t : Tree S E M) (id : Nat) : Option String :=
  match (t.node? id).bind Node.label with
  | some (.argument name _ _) => some name
  | _ => none

/-- The last visited node that binds a name. -/
def lastBinder? (t : Tree S E M) (name : String) (nodes : List ParsedNode) : Option ParsedNode :=
  (nodes.filter fun v => t.argumentName? v.node == some name).getLast?

/-- The range of the last visited node that binds a name. -/
def lastRange? (t : Tree S E M) (name : String) (nodes : List ParsedNode) : Option Span :=
  (nodes.filter fun v => t.argumentName? v.node == some name).getLast?.map ParsedNode.range

/-- The last visited node. -/
def lastNode? (t : Tree S E M) (nodes : List ParsedNode) : Option (Node S E M) :=
  nodes.getLast?.bind fun v => t.node? v.node

/-- A visited node is a child of the one before it and starts one byte behind it. -/
def Follows (t : Tree S E M) (u v : ParsedNode) : Prop :=
  v.node ∈ t.childIds u.node ∧ v.range.start = u.range.stop + 1

theorem argumentName?_eq {t : Tree S E M} {id : Nat} {node : Node S E M} {label : Label S E M}
    (lookup : t.node? id = some node) (hlabel : node.label = some label) :
    t.argumentName? id = label.boundName? := by
  simp only [argumentName?, lookup, Option.bind_some, hlabel]
  cases label <;> rfl

theorem lastBinder?_append (t : Tree S E M) (name : String) (nodes : List ParsedNode)
    (v : ParsedNode) :
    t.lastBinder? name (nodes ++ [v]) =
      if t.argumentName? v.node = some name then some v else t.lastBinder? name nodes := by
  by_cases h : t.argumentName? v.node = some name
  · simp [lastBinder?, List.filter_append, h]
  · simp [lastBinder?, List.filter_append, h]

theorem lastRange?_eq (t : Tree S E M) (name : String) (nodes : List ParsedNode) :
    t.lastRange? name nodes = (t.lastBinder? name nodes).map ParsedNode.range := rfl

theorem lastRange?_append (t : Tree S E M) (name : String) (nodes : List ParsedNode)
    (v : ParsedNode) :
    t.lastRange? name (nodes ++ [v]) =
      if t.argumentName? v.node = some name then some v.range else t.lastRange? name nodes := by
  rw [lastRange?_eq, lastBinder?_append]
  split <;> rfl

theorem lastNode?_append (t : Tree S E M) (nodes : List ParsedNode) (v : ParsedNode) :
    t.lastNode? (nodes ++ [v]) = t.node? v.node := by
  simp [lastNode?]

end Tree

/-- A separator stands behind a visited node. -/
def ParsedNode.Separated (input : String) (v : ParsedNode) : Prop :=
  Text.charAt? input v.range.stop = some separator

/-- What an input spells in the ranges of a context. -/
structure Context.IsSpelled (t : Tree S E M) (input : String) (c : Context S E M) : Prop where
  input_eq : c.input = input
  /-- Between two nodes there is a separator. -/
  separated : c.nodes.IsChain fun u _ => u.Separated input
  /-- The range of a literal spells its text. -/
  spelled : ∀ v ∈ c.nodes, ∀ node text, t.node? v.node = some node →
    node.label = some (.literal text) →
      Text.slice? input v.range.start v.range.stop = some text

/-- A context is what the nodes of a path below `root` and their ranges from `start` on
say. -/
structure Context.IsDerived (d : Dispatcher S E M) (source : S) (input : String)
    (root start depth : Nat) (c : Context S E M) : Prop where
  source_eq : c.source = source
  root_eq : c.root = root
  start_eq : c.range.start = start
  depth_eq : c.redirectDepth = depth
  /-- The path starts at a child of the root, at the start. -/
  first : ∀ v ∈ c.nodes.head?, v.node ∈ d.tree.childIds root ∧ v.range.start = start
  /-- It goes on along child edges, with one byte in between. -/
  path : c.nodes.IsChain d.tree.Follows
  /-- The principal may use every node on it. -/
  usable : ∀ v ∈ c.nodes, ∃ node, d.tree.node? v.node = some node ∧ node.canUse source = true
  /-- What is run and how it redirects is up to the last node. -/
  executor_eq : c.executor = (d.tree.lastNode? c.nodes).bind Node.executor
  modifier_eq : c.modifier = (d.tree.lastNode? c.nodes).bind Node.modifier
  forks_eq : c.forks = (d.tree.lastNode? c.nodes).elim false Node.forks
  /-- No name is bound twice, and each is bound where the last node that binds it was read. -/
  names_nodup : (c.arguments.map (·.1)).Nodup
  bound : ∀ name, (c.argument? name).map ParsedArgument.range = d.tree.lastRange? name c.nodes
  /-- Where parsers keep the text, the input spells all this. -/
  text : d.tree.KeepsText → c.IsSpelled d.tree input

/-- Derived contexts, each but the first behind a redirect of the last node of the one
before. -/
inductive Dispatcher.Derives (d : Dispatcher S E M) (source : S) (input : String) :
    (root start depth : Nat) → Context S E M → List (Context S E M) → Prop
  | innermost {root start depth : Nat} {c : Context S E M}
    (derived : c.IsDerived d source input root start depth) :
    d.Derives source input root start depth c []
  | nested {root start depth : Nat} {c next : Context S E M} {inner : List (Context S E M)}
    {v : ParsedNode} {node : Node S E M} {target : Nat}
    (derived : c.IsDerived d source input root start depth)
    (last : c.nodes.getLast? = some v) (lookup : d.tree.node? v.node = some node)
    (redirect : node.redirect = some target)
    (space : d.tree.KeepsText → v.Separated input)
    (limit : depth + 1 ≤ d.config.maxRedirectDepth)
    (rest : d.Derives source input target (v.range.stop + 1) (depth + 1) next inner) :
    d.Derives source input root start depth c (next :: inner)

namespace Context

/-- A context is derived so far, and the next node is sought at a reader among the children of
`node`. -/
structure LeadsTo (d : Dispatcher S E M) (source : S) (input : String)
    (root start depth : Nat) (c : Context S E M) (node : Nat) (r : Reader) : Prop
    extends c.IsDerived d source input root start depth where
  reader_input : d.tree.KeepsText → r.input = input
  onBoundary : r.isOnBoundary = true
  start_le : start ≤ r.cursor
  /-- Without any node yet, the reader stands at the start. -/
  outset : c.nodes = [] → node = root ∧ r.cursor = start
  /-- Otherwise it stands one byte behind the last node. -/
  onward : ∀ v, c.nodes.getLast? = some v → node = v.node ∧ r.cursor = v.range.stop + 1
  /-- Where parsers keep the text, that byte is a separator. -/
  space : d.tree.KeepsText → ∀ v, c.nodes.getLast? = some v → v.Separated input

variable {d : Dispatcher S E M} {source : S} {input : String} {root start depth node : Nat}
  {c : Context S E M} {r : Reader}

/-- There is nothing to spell yet. -/
theorem isSpelled_of_nodes_eq_nil {t : Tree S E M} (hinput : c.input = input)
    (hnodes : c.nodes = []) : c.IsSpelled t input where
  input_eq := hinput
  separated := by simp [hnodes]
  spelled := by simp [hnodes]

/-- The first context of a parse, at a reader between characters. -/
theorem leadsTo_start (hr : r.isOnBoundary = true) :
    LeadsTo d source r.input root r.cursor 0 (.start source r.input root r.cursor) root r where
  source_eq := rfl
  root_eq := rfl
  start_eq := rfl
  depth_eq := rfl
  first := by simp [Context.start]
  path := by simp [Context.start]
  usable := by simp [Context.start]
  executor_eq := rfl
  modifier_eq := rfl
  forks_eq := rfl
  names_nodup := by simp [Context.start]
  bound := fun _ => rfl
  text := fun _ => isSpelled_of_nodes_eq_nil rfl rfl
  reader_input := fun _ => rfl
  onBoundary := hr
  start_le := Nat.le_refl _
  outset := fun _ => ⟨rfl, rfl⟩
  onward := by simp [Context.start]
  space := by simp [Context.start]

/-- The context in which a parse goes on behind a redirect. -/
theorem leadsTo_entrance {visited : Context S E M} {target : Nat}
    (h : visited.IsDerived d source input root start depth)
    (hinput : d.tree.KeepsText → r.input = input) (hr : r.isOnBoundary = true) :
    LeadsTo d source input target r.cursor (depth + 1) (visited.entrance target r) target r where
  source_eq := h.source_eq
  root_eq := rfl
  start_eq := rfl
  depth_eq := by simp [entrance, h.depth_eq]
  first := by simp [entrance, Context.start]
  path := by simp [entrance, Context.start]
  usable := by simp [entrance, Context.start]
  executor_eq := rfl
  modifier_eq := rfl
  forks_eq := rfl
  names_nodup := by simp [entrance, Context.start]
  bound := fun _ => rfl
  text := fun keeps => isSpelled_of_nodes_eq_nil (hinput keeps) rfl
  reader_input := hinput
  onBoundary := hr
  start_le := Nat.le_refl _
  outset := fun _ => ⟨rfl, rfl⟩
  onward := by simp [entrance, Context.start]
  space := by simp [entrance, Context.start]

namespace LeadsTo

variable {child : Offspring S E M} {taken : Taken r}

/-- The next node is a child of the last one, or of the root, and starts where it has to. -/
theorem follows (h : LeadsTo d source input root start depth c node r) {v : ParsedNode}
    (hmem : v.node ∈ d.tree.childIds node) (hstart : v.range.start = r.cursor) :
    (∀ u ∈ (c.nodes ++ [v]).head?, u.node ∈ d.tree.childIds root ∧ u.range.start = start) ∧
      (c.nodes ++ [v]).IsChain d.tree.Follows := by
  constructor
  · cases hnodes : c.nodes with
    | nil =>
      obtain ⟨rfl, hcursor⟩ := h.outset hnodes
      simpa [hstart, hcursor] using hmem
    | cons first rest => simpa [hnodes] using h.first
  · refine List.isChain_append.2 ⟨h.path, List.isChain_singleton _, ?_⟩
    intro u hu w hw
    obtain ⟨rfl, hcursor⟩ := h.onward u hu
    obtain rfl : v = w := by simpa using hw
    exact ⟨hmem, hstart.trans hcursor⟩

/-- Where parsers keep the text, a context stays spelled when a child that matches is
visited. -/
theorem isSpelled_visit (h : LeadsTo d source input root start depth c node r)
    (hlookup : d.tree.node? child.id = some child.node)
    (hlabel : child.node.label = some child.label) (hm : child.Matches c taken)
    (keeps : d.tree.KeepsText) : (child.visit c taken).IsSpelled d.tree input where
  input_eq := by rw [Offspring.visit_input, (h.text keeps).input_eq]
  separated := by
    rw [Offspring.visit_nodes]
    refine List.isChain_append.2 ⟨(h.text keeps).separated, List.isChain_singleton _, ?_⟩
    exact fun u hu _ _ => h.space keeps u hu
  spelled := by
    intro v hv found text hfound htext
    rw [Offspring.visit_nodes, List.mem_append, List.mem_singleton] at hv
    obtain hv | rfl := hv
    · exact (h.text keeps).spelled v hv found text hfound htext
    · obtain rfl : child.node = found := Option.some.inj (hlookup.symm.trans hfound)
      have hliteral : child.label = .literal text := Option.some.inj (hlabel.symm.trans htext)
      have htake := hm.1
      rw [hliteral] at htake
      rw [← h.reader_input keeps]
      exact Label.slice?_of_take_literal htake h.onBoundary

/-- What a context binds stays what the last binding node read. -/
theorem bound_visit (h : LeadsTo d source input root start depth c node r)
    (hlookup : d.tree.node? child.id = some child.node)
    (hlabel : child.node.label = some child.label) (hm : child.Matches c taken) :
    ((child.visit c taken).arguments.map (·.1)).Nodup ∧
      ∀ name, ((child.visit c taken).argument? name).map ParsedArgument.range =
        d.tree.lastRange? name (c.nodes ++ [⟨child.id, taken.range⟩]) := by
  have hname := Tree.argumentName?_eq hlookup hlabel
  simp only [argument?, Offspring.visit_arguments, Tree.lastRange?_append]
  obtain ⟨htake, -⟩ := hm
  cases hl : child.label with
  | literal text =>
    rw [hl, Label.boundName?] at hname
    simp only [hname, Label.bindTo, reduceCtorEq, if_false]
    exact ⟨h.names_nodup, h.bound⟩
  | argument name parser completer =>
    rw [hl] at htake
    obtain ⟨value, hvalue, -⟩ := Label.take_argument htake
    rw [hl, Label.boundName?] at hname
    simp only [hname, Label.bindTo, hvalue, withArgument]
    refine ⟨nodup_keys_bind name _ h.names_nodup, fun other => ?_⟩
    rw [lookup_bind]
    by_cases hother : other = name
    · simp [hother]
    · rw [if_neg hother, if_neg fun hname => hother (Option.some.inj hname).symm]
      exact h.bound other

/-- A context stays derived when a child that matches is visited. -/
theorem isDerived_visit (h : LeadsTo d source input root start depth c node r)
    (hmem : child ∈ d.tree.eligible node r c.source) (hm : child.Matches c taken) :
    (child.visit c taken).IsDerived d source input root start depth := by
  obtain ⟨hchild, hlookup, hlabel, -, huse⟩ := Tree.mem_eligible_iff.1 hmem
  obtain ⟨hfirst, hpath⟩ := h.follows (v := ⟨child.id, taken.range⟩) hchild rfl
  obtain ⟨hnodup, hbound⟩ := h.bound_visit hlookup hlabel hm
  have hlast : d.tree.lastNode? (child.visit c taken).nodes = some child.node := by
    rw [Offspring.visit_nodes, Tree.lastNode?_append, hlookup]
  refine
    { source_eq := by rw [Offspring.visit_source, h.source_eq]
      root_eq := by rw [Offspring.visit_root, h.root_eq]
      start_eq := ?_
      depth_eq := by rw [Offspring.visit_redirectDepth, h.depth_eq]
      first := by rwa [Offspring.visit_nodes]
      path := by rwa [Offspring.visit_nodes]
      usable := ?_
      executor_eq := by rw [hlast, Offspring.visit_executor, Option.bind_some]
      modifier_eq := by rw [hlast, Offspring.visit_modifier, Option.bind_some]
      forks_eq := by rw [hlast, Offspring.visit_forks, Option.elim_some]
      names_nodup := hnodup
      bound := by rwa [Offspring.visit_nodes]
      text := h.isSpelled_visit hlookup hlabel hm }
  · rw [Offspring.visit_range]
    have hstart := h.start_le
    simp only [Span.encompassing, h.start_eq, Taken.range]
    omega
  · intro v hv
    rw [Offspring.visit_nodes, List.mem_append, List.mem_singleton] at hv
    obtain hv | rfl := hv
    · exact h.usable v hv
    · exact ⟨child.node, hlookup, h.source_eq ▸ huse⟩

/-- Behind a child that matches and a separator, the invariant holds for the child's
children. -/
theorem visit (h : LeadsTo d source input root start depth c node r)
    (hmem : child ∈ d.tree.eligible node r c.source) (hm : child.Matches c taken)
    (more : taken.after.canRead = true) :
    LeadsTo d source input root start depth (child.visit c taken) child.id
      taken.after.pastSeparator where
  toIsDerived := h.isDerived_visit hmem hm
  reader_input := fun keeps => (hm.input_eq keeps hmem).trans (h.reader_input keeps)
  onBoundary := Reader.isOnBoundary_pastSeparator (hm.peek more)
  start_le := by
    have hstart := h.start_le
    have honward := taken.onward
    simp only [Reader.pastSeparator]
    omega
  outset := by simp
  onward := by
    intro v hv
    obtain rfl : ⟨child.id, taken.range⟩ = v := by simpa using hv
    exact ⟨rfl, rfl⟩
  space := by
    intro keeps v hv
    obtain rfl : ⟨child.id, taken.range⟩ = v := by simpa using hv
    rw [ParsedNode.Separated, ← h.reader_input keeps, ← hm.input_eq keeps hmem]
    exact Reader.charAt?_of_peek (hm.peek more)

end LeadsTo
end Context

namespace Dispatcher

variable {d : Dispatcher S E M} {source : S} {input : String}

/-- Whatever a parse can end with is derived if the context that it started from was. -/
theorem Yields.derives {node : Nat} {r : Reader} {c : Context S E M} {p : Parse S E M}
    (hp : d.Yields node r c p) {root start depth : Nat}
    (h : c.LeadsTo d source input root start depth node r) :
    d.Derives source input root start depth p.chain.outer p.chain.inner := by
  induction hp generalizing root start depth with
  | stuck _ => exact .innermost h.toIsDerived
  | ended hmem hm _ => exact .innermost (h.isDerived_visit hmem hm)
  | descended hmem hm _ hmore _ ih =>
    exact ih (h.visit hmem hm (Reader.canRead_of_canReadBytes hmore))
  | @redirected node r c child taken target p hmem hm hredirect hmore hlimit _ ih =>
    obtain ⟨-, hlookup, -⟩ := Tree.mem_eligible_iff.1 hmem
    have hvisit := h.visit hmem hm hmore
    refine .nested (v := ⟨child.id, taken.range⟩) (h.isDerived_visit hmem hm)
      (by simp [Chain.enter]) hlookup hredirect ?_ (by rw [← h.depth_eq]; exact hlimit) (ih ?_)
    · exact fun keeps => hvisit.space keeps _ (by simp)
    · exact Context.leadsTo_entrance (h.isDerived_visit hmem hm) hvisit.reader_input
        hvisit.onBoundary

/-- A parse at a reader between characters is a derivation from there. -/
theorem parseAt_derives (d : Dispatcher S E M) {r : Reader} (hr : r.isOnBoundary = true)
    (root : Nat) (source : S) :
    d.Derives source r.input root r.cursor 0
      (d.parseAt root r (.start source r.input root r.cursor)).chain.outer
      (d.parseAt root r (.start source r.input root r.cursor)).chain.inner :=
  (d.parseAt_yields root r _).derives (Context.leadsTo_start hr)

/-- The first of the contexts is derived. -/
theorem Derives.outer {root start depth : Nat} {c : Context S E M} {inner : List (Context S E M)}
    (h : d.Derives source input root start depth c inner) :
    c.IsDerived d source input root start depth := by
  cases h with
  | innermost derived => exact derived
  | nested derived _ _ _ _ _ _ => exact derived

/-- Every parse of a command line is a derivation from the root of the tree and the start of
the line, whatever its redirects and argument parsers do. Where the parsers keep the text, it
is spelled in the line. -/
theorem parse_derives (d : Dispatcher S E M) (input : String) (source : S) :
    d.Derives source input Tree.root 0 0 (d.parse input source).chain.outer
      (d.parse input source).chain.inner := by
  have hstart := d.parseAt_yields Tree.root (.ofString input) (.start source input Tree.root 0)
  exact hstart.derives (Context.leadsTo_start (Reader.isOnBoundary_ofString input))

/-- Reads nothing and puts a reader of another text in the place of the one that it is
given. -/
def swapper : ArgumentParser Unit Nat Unit where
  parse _ _ := (.ok (.bool true), ⟨"xx yy", 2⟩)

/-- An argument with `yy` behind it. -/
def swapping : Dispatcher Unit Nat Unit where
  tree := (Tree.empty.addNode 0 (Sprout.argument "a" swapper).toNode).addNode 1
    (Sprout.literal "yy").toNode
  config := {}

/-- In `x` the argument and `yy` are visited over ranges of the other text. -/
theorem not_isSpelled_swapping :
    ((swapping.parse "x" ()).chain.outer.nodes.map fun v =>
      (v.node, v.range.start, v.range.stop)) = [(1, 0, 2), (2, 3, 5)] ∧
    ¬(swapping.parse "x" ()).chain.outer.IsSpelled swapping.tree "x" := by
  have hnodes : ((swapping.parse "x" ()).chain.outer.nodes.map fun v =>
      (v.node, v.range.start, v.range.stop)) = [(1, 0, 2), (2, 3, 5)] := by decide +kernel
  refine ⟨hnodes, fun h => ?_⟩
  have hmem : (2, 3, 5) ∈ (swapping.parse "x" ()).chain.outer.nodes.map fun v =>
      (v.node, v.range.start, v.range.stop) := by rw [hnodes]; decide
  obtain ⟨⟨node, start, stop, ordered⟩, hv, heq⟩ := List.mem_map.1 hmem
  obtain ⟨rfl, rfl, rfl⟩ : node = 2 ∧ start = 3 ∧ stop = 5 := by simpa using heq
  have hspelled := h.spelled _ hv (Sprout.literal "yy").toNode "yy" rfl rfl
  have hnone : Text.slice? "x" 3 5 = none := by decide
  simp [hnone] at hspelled

end Dispatcher
end Dispatch
