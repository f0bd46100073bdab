import Dispatch.Text.LowerCase
import Dispatch.Tree.Growth
/-!
# Commands with parameters

A command is a list of parameters, something to run, and subcommands. It makes a subtree: the
parameters follow one another, and the command can end wherever only optional parameters
remain; each alias of a subcommand is a literal beside the first parameter.
-/
namespace Dispatch

/-- An argument of a command. -/
structure Parameter (S E M : Type) where
  /-- The name to which its value is bound. -/
  key : String
  parser : ArgumentParser S E M
  completer : Option (Completer S E M) := none
  /-- Whether the command can run without it. Only a run of optional parameters at the end can
  be left out. -/
  isOptional : Bool := false

/-- A command with parameters and subcommands. -/
structure Command (S E M : Type) where
  parameters : List (Parameter S E M)
  /-- The subcommands, each with its aliases in lower case. -/
  subcommands : List (List String × Command S E M)
  executor : Option E
  requirement : Option (S → Bool)
  shortDescription : Option String
  extendedDescription : Option String

/-- A command that is not checked yet. -/
structure CommandDraft (S E M : Type) where
  parameters : List (Parameter S E M) := []
  subcommands : List (List String × Command S E M) := []
  executor : Option E := none
  requirement : Option (S → Bool) := none
  shortDescription : Option String := none
  extendedDescription : Option String := none
  /-- The first alias that two subcommands share. -/
  conflict : Option String := none

namespace CommandDraft
variable {S E M : Type}

/-- The aliases of all subcommands. -/
def usedAliases (b : CommandDraft S E M) : List String := b.subcommands.flatMap (·.1)

/-- The draft with one more subcommand, whose aliases are put in lower case. -/
def child (b : CommandDraft S E M) (command : Command S E M) (aliases : List String) :
    CommandDraft S E M :=
  let aliases := aliases.map Text.toLower
  { b with
    subcommands := b.subcommands ++ [(aliases, command)]
    conflict := b.conflict <|> aliases.find? b.usedAliases.contains }

/-- The draft with one more parameter. -/
def parameter (b : CommandDraft S E M) (p : Parameter S E M) : CommandDraft S E M :=
  { b with parameters := b.parameters ++ [p] }

/-- The draft with something to run. -/
def executes (b : CommandDraft S E M) (executor : E) : CommandDraft S E M :=
  { b with executor := some executor }

/-- The draft with another requirement. -/
def requires (b : CommandDraft S E M) (requirement : S → Bool) : CommandDraft S E M :=
  { b with requirement := some requirement }

/-- The draft with the requirement that the principal holds a capability. -/
def permission [Capable S] (b : CommandDraft S E M) (capability : String) : CommandDraft S E M :=
  b.requires fun source => Capable.holds source capability

/-- The command that the draft describes. It needs something to run or a subcommand, and
something to run if it has parameters; no alias may lead to two subcommands. -/
def build (b : CommandDraft S E M) : Except RegistrationError (Command S E M) :=
  match b.conflict with
  | some name => .error (.subcommandAliasConflict name)
  | none =>
    if b.executor.isNone && b.subcommands.isEmpty then .error .missingExecutor
    else if b.executor.isNone && !b.parameters.isEmpty then .error .parametersWithoutExecutor
    else .ok ⟨b.parameters, b.subcommands, b.executor, b.requirement, b.shortDescription,
      b.extendedDescription⟩

end CommandDraft

namespace Command
variable {S E M : Type}

/-- Whether a principal passes the command's own requirement. -/
def canExecute (c : Command S E M) (source : S) : Bool :=
  match c.requirement with
  | some requirement => requirement source
  | none => true

/-- The executor, where only these parameters remain; none if one of them cannot be left
out. -/
def executorBefore (executor : E) (remaining : List (Parameter S E M)) : Option E :=
  if remaining.all Parameter.isOptional then some executor else none

/-- The arguments that follow one another, as the children of the node before them. -/
def parameterChain (executor : E) : List (Parameter S E M) → List (Sprout S E M)
  | [] => []
  | p :: rest =>
    [{ Sprout.ofLabel (.argument p.key p.parser p.completer) with
        children := parameterChain executor rest
        executor := executorBefore executor rest }]

mutual

/-- The subtree of a command under an alias. -/
def sprout (name : String) : Command S E M → Sprout S E M
  | ⟨parameters, subcommands, executor, requirement, _, _⟩ =>
    { Sprout.literal name with
      requirement := requirement
      executor := executor.bind fun e => executorBefore e parameters
      children := (executor.elim [] fun e => parameterChain e parameters) ++
        sproutsOf subcommands }

/-- The subtrees of subcommands, one for each alias. -/
def sproutsOf : List (List String × Command S E M) → List (Sprout S E M)
  | [] => []
  | (aliases, command) :: rest => aliases.map (fun name => sprout name command) ++ sproutsOf rest

end

end Command
end Dispatch
