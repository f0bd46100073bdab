import Dispatch.Command
import Dispatch.Completion
import Dispatch.Execution
import Dispatch.Registry
import Dispatch.Usage
/-!
# The command manager

A dispatcher together with the registry of who owns which of its commands. To register a
command is to have an alias granted, to add its node under the root, and to add one literal
per further alias that redirects to that node. A registration that is refused leaves the
manager as it was.
-/
namespace Dispatch

/-- Commands and their owners. -/
structure Manager (S E M : Type) where
  dispatcher : Dispatcher S E M
  registry : Registry

/-- What help says of a command. -/
structure Help where
  mapping : Mapping
  /-- Compact usage lines, the command itself first if it can be run bare. -/
  usage : List String
  deriving DecidableEq, Repr

namespace Manager
variable {S E M : Type}

/-- A manager without commands. -/
def empty (config : Config) : Manager S E M := ⟨.empty config, .empty⟩

/-- The settings in force. -/
def config (m : Manager S E M) : Config := m.dispatcher.config

/-- The command tree. -/
def tree (m : Manager S E M) : Tree S E M := m.dispatcher.tree

/-- The manager with another tree. -/
def withTree (m : Manager S E M) (tree : Tree S E M) : Manager S E M :=
  { m with dispatcher := { m.dispatcher with tree := tree } }

/-! ## Registration -/

/-- A literal that leads to a node: it has the node's requirement and runs what the node
runs. -/
def aliasSprout (t : Tree S E M) (target : Nat) (name : String) : Sprout S E M :=
  let node := t.node? target
  (((Sprout.literal name).withRequirement (node.bind Node.requirement)).withExecutor
    (node.bind Node.executor)).redirectTo target

/-- Adds the literal of a secondary alias. An alias that is not granted, was added already or
does not fit into the tree is left out. `added` are the aliases added so far. -/
def addSecondary (registry : Registry) (config : Config) (owner primary : String) (target : Nat)
    (state : Tree S E M × List String) (name : String) : Tree S E M × List String :=
  let (t, added) := state
  match registry.resolveSecondary config owner name with
  | none => (t, added)
  | some name =>
    if name = primary ∨ name ∈ added then (t, added)
    else match t.register (aliasSprout t target name) with
      | .ok (t, _) => (t, added ++ [name])
      | .error _ => (t, added)

/-- Registers a literal subtree under its own name and further aliases, with a description. -/
def registerDescribed (m : Manager S E M) (owner : String) (sprout : Sprout S E M)
    (secondary : List String) (description : Description) :
    Except RegistrationError (Manager S E M × Mapping) := do
  if !sprout.isLiteral then throw .notALiteral
  let grant ← m.registry.resolvePrimary m.config owner sprout.name
  let (t, node) ← m.tree.register (sprout.withLiteral grant.name)
  let (t, added) :=
    secondary.foldl (addSecondary m.registry m.config owner grant.name node) (t, [])
  let (registry, mapping) := m.registry.record grant owner node added description
  pure ({ m.withTree t with registry := registry }, mapping)

/-- Registers a literal subtree under its own name and further aliases. -/
def register (m : Manager S E M) (owner : String) (sprout : Sprout S E M)
    (secondary : List String) : Except RegistrationError (Manager S E M × Mapping) :=
  m.registerDescribed owner sprout secondary {}

/-- The sprout with a capability asked for before its own requirement. -/
def guarded [Capable S] (sprout : Sprout S E M) (capability : String) : Sprout S E M :=
  sprout.withRequirement (some fun source =>
    Capable.holds source capability && sprout.requirement.all fun requirement => requirement source)

/-- Registers a literal subtree for principals that hold the owner's capability for it. -/
def registerWithPermission [Capable S] (m : Manager S E M) (owner : String)
    (sprout : Sprout S E M) (secondary : List String) :
    Except RegistrationError (Manager S E M × Mapping) :=
  m.register owner (guarded sprout (m.config.permissionFor owner sprout.name)) secondary

/-- Registers a command with parameters. -/
def registerCommand (m : Manager S E M) (owner : String) (command : Command S E M)
    (primary : String) (secondary : List String) :
    Except RegistrationError (Manager S E M × Mapping) :=
  m.registerDescribed owner (command.sprout primary) secondary
    ⟨command.shortDescription, command.extendedDescription⟩

/-! ## Use -/

/-- Parses and runs a command line. -/
def execute {m : Type → Type} [Monad m] (manager : Manager S E M) (host : Host m S E M)
    (input : String) (source : S) : m (Except CommandError Int32) :=
  manager.dispatcher.execute host input source

/-- What could stand at the end of a line. -/
def completions (m : Manager S E M) (input : String) (source : S) : Completions :=
  m.dispatcher.completions input source

/-- Help for the command to which an alias leads, if the principal can use it. -/
def help? (m : Manager S E M) (source : S) (name : String) : Option Help := do
  let mapping ← m.registry.get? name
  let node ← m.tree.node? mapping.node
  if node.canUse source then
    let lines := (m.tree.smartUsage mapping.node source).map fun (_, line) =>
      Tree.joinUsage node.name line
    some ⟨mapping, if node.executor.isSome || lines.isEmpty then node.name :: lines else lines⟩
  else none

/-- One compact line for each command that the principal can use. -/
def usage (m : Manager S E M) (source : S) : List String :=
  (m.tree.smartUsage Tree.root source).map (·.2)

/-- Every line that the principal can use, in full. -/
def paths (m : Manager S E M) (source : S) : List String :=
  m.tree.allUsage Tree.root source true

/-- The registered commands in the order of their registration. -/
def mappings (m : Manager S E M) : List Mapping := m.registry.mappings

/-- The command to which an alias leads. -/
def mapping? (m : Manager S E M) (name : String) : Option Mapping := m.registry.get? name

end Manager

/-- The members of a mapping's JSON form. -/
def Mapping.toJson (mapping : Mapping) : Json :=
  .object (Json.members
    [("owner", some (.string mapping.owner)), ("primary_alias", some (.string mapping.primary)),
     ("all_aliases", some (Json.strings mapping.aliases)),
     ("description", mapping.description.short.map .string),
     ("extended_description", mapping.description.extended.map .string)])

/-- The JSON form of help. -/
def Help.toJson (help : Help) : Json :=
  .object [("mapping", help.mapping.toJson), ("usage", Json.strings help.usage)]

end Dispatch
