import Dispatch.Config
import Dispatch.Error
/-!
# The registry of aliases

Which owner holds which alias, and for which command. Aliases are kept in lower case. An owner
that asks for an alias which is taken gets it with the owner's name in front, if that is free;
its own primary aliases are not taken for it, since asking for one of them again adds to the
command that has it. Nothing is ever removed.
-/
namespace Dispatch

/-- What is said of a command in listings and in help. -/
structure Description where
  short : Option String := none
  extended : Option String := none
  deriving DecidableEq, Repr

/-- The description with what another one says in place of its own. -/
def Description.amend (old new : Description) : Description where
  short := new.short <|> old.short
  extended := new.extended <|> old.extended

/-- A registered command. -/
structure Mapping where
  /-- Who registered it. -/
  owner : String
  /-- The alias that its node has. -/
  primary : String
  /-- Every alias that leads to it, the primary one first. -/
  aliases : List String
  /-- The number of its node. -/
  node : Nat
  description : Description
  deriving DecidableEq, Repr

/-- How an alias was granted. -/
inductive Grant where
  /-- It was free. -/
  | free (name : String)
  /-- It is the primary alias of the owner's own command with that index. -/
  | merge (name : String) (index : Nat)
  deriving DecidableEq, Repr

/-- The alias that was granted. -/
def Grant.name : Grant → String
  | free name => name
  | merge name _ => name

/-- The command that a grant of a free alias starts. -/
def Grant.opening (grant : Grant) (owner : String) (node : Nat) : Mapping :=
  ⟨owner, grant.name, [grant.name], node, {}⟩

/-- The alias as it is kept. It must not be empty or have a blank in it. -/
def normalizeAlias (name : String) : Except RegistrationError String :=
  if Text.isWord name then .ok (Text.toLower name) else .error (.invalidAlias name)

/-- The registered commands, and for each alias the index of its command. -/
structure Registry where
  mappings : List Mapping
  indices : NameMap Nat
  deriving DecidableEq

namespace Registry

/-- Nothing is registered. -/
def empty : Registry := ⟨[], .empty⟩

instance : Inhabited Registry := ⟨empty⟩

/-- How many commands are registered. -/
def size (r : Registry) : Nat := r.mappings.length

/-- The command to which an alias leads, in whatever case it is given. -/
def get? (r : Registry) (name : String) : Option Mapping :=
  (r.indices.get? (Text.toLower name)).bind (r.mappings[·]?)

/-- Who holds an alias. -/
def ownerOf? (r : Registry) (name : String) : Option String := (r.get? name).map Mapping.owner

/-- Whether an alias is taken. -/
def contains (r : Registry) (name : String) : Bool := r.indices.contains (Text.toLower name)

/-- What an owner gets for an alias: it is free, or the primary one of the owner's own
command. -/
def grant? (r : Registry) (owner name : String) : Option Grant :=
  match r.indices.get? name with
  | none => some (.free name)
  | some index =>
    (r.mappings[index]?).bind fun mapping =>
      if mapping.owner = owner ∧ mapping.primary = name then some (.merge name index) else none

/-- Grants a primary alias: as it is, or else with the owner in front. -/
def resolvePrimary (r : Registry) (config : Config) (owner name : String) :
    Except RegistrationError Grant := do
  let name ← normalizeAlias name
  match r.grant? owner name with
  | some grant => pure grant
  | none =>
    let name ← normalizeAlias (config.namespaced owner name)
    match r.grant? owner name with
    | some grant => pure grant
    | none => throw (.aliasTaken name ((r.ownerOf? name).getD ""))

/-- The text if it is an alias that is free. -/
def free? (r : Registry) (name : String) : Option String :=
  if r.contains name then none else some name

/-- Grants a secondary alias: as it is, or else with the owner in front, or else not at
all. -/
def resolveSecondary (r : Registry) (config : Config) (owner name : String) : Option String := do
  let name ← (normalizeAlias name).toOption
  match r.free? name with
  | some name => some name
  | none => r.free? (← (normalizeAlias (config.namespaced owner name)).toOption)

/-- Gives a command with an index one more alias, unless that is taken. -/
def addAlias (index : Nat) (r : Registry) (name : String) : Registry :=
  if r.indices.contains name then r
  else
    { mappings := r.mappings.modify index fun mapping =>
        { mapping with aliases := mapping.aliases ++ [name] }
      indices := r.indices.insert name index }

/-- The index of the command to which a grant leads, which is added if the alias was free. -/
def enroll (r : Registry) (grant : Grant) (owner : String) (node : Nat) : Registry × Nat :=
  match grant with
  | .merge _ index => (r, index)
  | .free name =>
    ({ mappings := r.mappings ++ [grant.opening owner node]
       indices := r.indices.insert name r.size }, r.size)

/-- The registry with a command described anew. -/
def describe (r : Registry) (index : Nat) (description : Description) : Registry :=
  { r with
    mappings := r.mappings.modify index fun mapping =>
      { mapping with description := mapping.description.amend description } }

/-- Records a command under a granted alias, with further aliases and what there is to say of
it. The answer is the registry and the command as it is now. -/
def record (r : Registry) (grant : Grant) (owner : String) (node : Nat) (secondary : List String)
    (description : Description) : Registry × Mapping :=
  let (enrolled, index) := r.enroll grant owner node
  let recorded := (secondary.foldl (addAlias index) enrolled).describe index description
  (recorded, recorded.mappings[index]?.getD (grant.opening owner node))

end Registry
end Dispatch
