import Dispatch.Proofs.Manager.Registration
import Dispatch.Proofs.Tree.Change
/-!
# Commands under fresh aliases

A command that is registered under an alias that was free is merged with nothing: it becomes a
literal of the root, and what is below it are new nodes (`Manager.Plants`). They are those
that come of grafting its subtree, since the further aliases are literals of their own, which
only the root gets as children. What a line that starts with the alias comes to is then a
matter of this subtree.
-/
namespace Dispatch
variable {S E M : Type}

namespace Tree
variable {t : Tree S E M} {parent : Nat} {b : Sprout S E M}

/-- The tree with a sprout as a child of its own, whatever the names of the other children
are. -/
def plant (t : Tree S E M) (parent : Nat) (b : Sprout S E M) : Tree S E M :=
  (t.addNode parent b.toNode).graftAll t.size b.children

/-- A sprout of a name that no child has is grafted as a child of its own. -/
theorem graft_of_findChild?_eq_none (h : t.findChild? parent b.name = none) :
    t.graft parent b = (t.plant parent b, t.size) := by
  rw [graft_eq, place, h]
  rfl

theorem node?_addNode_size (t : Tree S E M) (parent : Nat) (node : Node S E M) :
    (t.addNode parent node).node? t.size = some (node.withChildren []) := by
  rw [node?_addNode, if_pos rfl]

theorem lt_size_addNode (t : Tree S E M) (parent : Nat) (node : Node S E M) :
    t.size < (t.addNode parent node).size := by
  rw [size_addNode]
  exact Nat.lt_succ_self _

/-- The node of the sprout. -/
theorem exists_node?_plant (t : Tree S E M) (parent : Nat) (b : Sprout S E M) :
    ∃ children, (t.plant parent b).node? t.size = some (b.toNode.withChildren children) := by
  obtain ⟨children, h⟩ := node?_graftAll_self (t.lt_size_addNode parent b.toNode) b.children
  refine ⟨children, ?_⟩
  rw [plant, h, node?_addNode_size]
  rfl

theorem lt_size_plant (t : Tree S E M) (parent : Nat) (b : Sprout S E M) :
    t.size < (t.plant parent b).size := by
  obtain ⟨children, h⟩ := t.exists_node?_plant parent b
  exact lt_size_of_node? h

end Tree

namespace Manager
variable {m m' : Manager S E M} {config : Config} {owner : String} {mapping : Mapping}

/-- What a sprout that is registered under an alias that was free makes of a manager: it is
planted under the root, and the nodes that come of this stay as they are. -/
structure Plants (m : Manager S E M) (b : Sprout S E M) (m' : Manager S E M) (x : Nat) :
    Prop where
  isAlias : IsAlias b.name
  checked : m.tree.check (some Tree.root) b = .ok ()
  node_eq : x = m.tree.size
  literals : m'.tree.HasLiterals
  rootLiteral : ∃ children, m'.tree.RootLiteral b.name x (b.toNode.withChildren children)
  same : ∀ id, x ≤ id → id < (m.tree.plant Tree.root b).size →
    m'.tree.node? id = (m.tree.plant Tree.root b).node? id

/-- What is registered under an alias that was free is planted. -/
theorem plants_of_registerDescribed {sprout : Sprout S E M} {secondary : List String}
    {description : Description} (hm : m.Coherent)
    (registered : m.registerDescribed owner sprout secondary description = .ok (m', mapping))
    (fresh : m.registry.IsFree mapping.primary) :
    m.Plants (sprout.withLiteral mapping.primary) m' mapping.node := by
  obtain ⟨grant, t, x, added, hproceeds⟩ := registerDescribed_eq_ok_iff.1 registered
  obtain ⟨index, old, hregistered, -⟩ := hproceeds.registered hm
  obtain ⟨hprimary, hnode⟩ := hregistered.node_eq hm
  rw [hprimary] at fresh ⊢
  rw [hnode]
  have hname : (sprout.withLiteral grant.name).name ∉ m.tree.rootNames :=
    hproceeds.name_eq.symm ▸ hm.not_mem_rootNames fresh
  have hgraft := (Tree.register_eq_graft hproceeds.placed).2
  rw [Tree.graft_of_findChild?_eq_none (hm.literals.findChild?_eq_none_iff.2 hname)] at hgraft
  obtain ⟨rfl, rfl⟩ := Prod.mk.inj hgraft
  obtain ⟨children, hplanted⟩ := m.tree.exists_node?_plant Tree.root (sprout.withLiteral grant.name)
  obtain ⟨hadds, hsame⟩ := hproceeds.addsAliases hm
    (P := fun t => ∀ id, m.tree.size ≤ id →
      id < (m.tree.plant Tree.root (sprout.withLiteral grant.name)).size →
        t.node? id = (m.tree.plant Tree.root (sprout.withLiteral grant.name)).node? id)
    (fun _ _ _ => rfl) (by
      -- An alias that is added later is a new child of the root.
      intro t t' target name c literals hP hnew hregister id hid hlt
      obtain ⟨node, hlookup⟩ := Tree.exists_node? hlt
      have hsize := Tree.lt_size_of_node? ((hP id hid hlt).trans hlookup)
      have hroot : id ≠ Tree.root := Nat.ne_of_gt (Nat.lt_of_lt_of_le m.tree.hasRoot hid)
      rw [(literals.register_new hregister hnew).2 id hroot hsize, hP id hid hlt])
  obtain ⟨-, node, hliteral⟩ := hproceeds.exists_rootLiteral hm
  obtain rfl := Option.some.inj (hliteral.lookup.symm.trans hplanted)
  have halias : IsAlias grant.name := by
    have hgrants := hregistered.grants
    cases grant with
    | free _ => exact hgrants.1
    | merge _ _ => exact hgrants.1
  refine ⟨hproceeds.name_eq.symm ▸ halias, ?_, rfl, hadds.literals, ⟨children, ?_⟩, hsame⟩
  · exact (Tree.addChild_eq_ok (Tree.register_eq_ok hproceeds.placed).2).2.1
  · rw [hproceeds.name_eq]
    exact hadds.kept _ _ _ hliteral

/-- What is planted are the children of a node that had none. -/
theorem Plants.exists_graft {b : Sprout S E M} {x : Nat} (h : m.Plants b m' x) :
    ∃ t : Tree S E M, t.childIds x = [] ∧ x < t.size ∧ x < (t.graftAll x b.children).size ∧
      ∀ id, x ≤ id → id < (t.graftAll x b.children).size →
        m'.tree.node? id = (t.graftAll x b.children).node? id := by
  have hsame := h.same
  have hlt := m.tree.lt_size_plant Tree.root b
  rw [Tree.plant, ← h.node_eq] at hsame hlt
  refine ⟨m.tree.addNode Tree.root b.toNode, ?_, ?_, hlt, hsame⟩
  · rw [h.node_eq]
    exact Tree.childIds_eq (m.tree.node?_addNode_size Tree.root b.toNode)
  · rw [h.node_eq]
    exact m.tree.lt_size_addNode Tree.root b.toNode

/-- A command has the subtree of its alias, whatever alias was asked for. -/
theorem withLiteral_sprout (command : Command S E M) (name other : String) :
    (command.sprout name).withLiteral other = command.sprout other := by
  cases command
  rw [Command.sprout, Command.sprout]
  rfl

theorem plants_of_registerCommand {command : Command S E M} {primary : String}
    {secondary : List String} (hm : m.Coherent)
    (registered : m.registerCommand owner command primary secondary = .ok (m', mapping))
    (fresh : m.registry.IsFree mapping.primary) :
    m.Plants (command.sprout mapping.primary) m' mapping.node := by
  have hplants := plants_of_registerDescribed hm registered fresh
  rwa [withLiteral_sprout] at hplants

end Manager

/-! ## The subtree of a command -/

namespace CommandDraft
variable {draft : CommandDraft S E M} {command : Command S E M}

/-- The draft passes its check and describes this command. -/
structure Describes (draft : CommandDraft S E M) (command : Command S E M) : Prop where
  noConflict : draft.conflict = none
  runs : draft.executor = none → draft.subcommands ≠ [] ∧ draft.parameters = []
  command_eq : command = ⟨draft.parameters, draft.subcommands, draft.executor, draft.requirement,
    draft.shortDescription, draft.extendedDescription⟩

theorem describes_of_build (built : draft.build = .ok command) : draft.Describes command := by
  rw [build] at built
  split at built
  · simp at built
  · next hconflict =>
    split at built
    · simp at built
    · next hruns =>
      split at built
      · simp at built
      · next hparameters =>
        refine ⟨hconflict, fun hexecutor => ?_, (Except.ok.inj built).symm⟩
        rw [hexecutor] at hruns hparameters
        exact ⟨by simpa using hruns, by simpa using hparameters⟩

/-- A command without subcommands has something to run. -/
theorem Describes.exists_executor (h : draft.Describes command) (bare : command.subcommands = []) :
    ∃ executor, command.executor = some executor := by
  obtain ⟨-, hruns, rfl⟩ := h
  exact Option.ne_none_iff_exists'.1 fun hnone => (hruns hnone).1 bare

end CommandDraft

namespace Parameter

/-- What an argument of the parameter matches. -/
def label (p : Parameter S E M) : Label S E M := .argument p.key p.parser p.completer

/-- The argument of a parameter, with those of further parameters below it. -/
def sprout (executor : E) (rest : List (Parameter S E M)) (p : Parameter S E M) : Sprout S E M :=
  ⟨p.label, Command.parameterChain executor rest, Command.executorBefore executor rest, none, none,
    none, false⟩

/-- Its node in a tree. -/
def node (executor : E) (rest : List (Parameter S E M)) (children : List Nat)
    (p : Parameter S E M) : Node S E M :=
  ⟨some p.label, children, Command.executorBefore executor rest, none, none, none, false⟩

end Parameter

namespace Command

theorem parameterChain_cons (executor : E) (p : Parameter S E M) (rest : List (Parameter S E M)) :
    parameterChain executor (p :: rest) = [p.sprout executor rest] := by
  rw [parameterChain]
  rfl

variable {command : Command S E M} {name : String}

theorem sprout_name (command : Command S E M) (name : String) :
    (command.sprout name).name = name := by
  cases command
  rw [sprout]
  rfl

theorem sprout_children (command : Command S E M) (name : String) :
    (command.sprout name).children =
      (command.executor.elim [] fun e => parameterChain e command.parameters) ++
        sproutsOf command.subcommands := by
  cases command
  rw [sprout]

/-- What the literal of a command runs and asks for. -/
theorem sprout_toNode (command : Command S E M) (name : String) :
    (command.sprout name).toNode =
      ⟨some (.literal name), [], command.executor.bind (executorBefore · command.parameters),
        command.requirement, none, none, false⟩ := by
  cases command
  rw [sprout]
  rfl

end Command

namespace Manager
variable {m m' : Manager S E M} {command : Command S E M} {name : String} {x : Nat}

/-- The literal of a command under its alias. -/
theorem Plants.exists_literal (h : m.Plants (command.sprout name) m' x) :
    IsAlias name ∧ ∃ node, m'.tree.RootLiteral name x node ∧ node.redirect = none ∧
      node.executor = command.executor.bind (Command.executorBefore · command.parameters) ∧
        ∀ source, node.canUse source = command.canExecute source := by
  obtain ⟨children, hx⟩ := h.rootLiteral
  have halias := h.isAlias
  rw [Command.sprout_name] at hx halias
  rw [Command.sprout_toNode] at hx
  exact ⟨halias, _, hx, rfl, rfl, fun _ => rfl⟩

end Manager
end Dispatch
