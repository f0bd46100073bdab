import Dispatch.Diagnostic.SyntaxError
/-!
# Errors

Why running a command line fails and why a registration is refused.
-/
namespace Dispatch

/-- Why a command line was not carried out. -/
inductive CommandError where
  /-- The input could not be read. -/
  | malformed (error : SyntaxError)
  /-- The input was read, but no executor is there to run. -/
  | incomplete (input : String)
  /-- An executor or a redirect modifier reported a failure. -/
  | failed (message : String)
  /-- The principal lacks a capability that an executor asked for. -/
  | permissionDenied (capability : String)
  /-- An executor asked for an argument that was not bound. -/
  | unknownArgument (name : String)
  /-- An executor asked for an argument as a type that it does not have. -/
  | argumentType (name expected : String)
  deriving DecidableEq

namespace CommandError

/-- The diagnostic code of errors that have one. -/
def id? : CommandError → Option String
  | malformed error => some error.id
  | incomplete _ => some Diagnostic.incompleteCommand.id
  | _ => none

/-- The syntax error, if that is what happened. -/
def syntaxError? : CommandError → Option SyntaxError
  | malformed error => some error
  | _ => none

/-- The error as shown; `none` if it is a syntax error without such a text. -/
def text? : CommandError → Option String
  | malformed error => error.text?
  | incomplete input => some ("unknown or incomplete command: " ++ input)
  | failed message => some message
  | permissionDenied capability => some ("missing capability '" ++ capability ++ "'")
  | unknownArgument name => some ("no argument named '" ++ name ++ "' was parsed")
  | argumentType name expected => some ("argument '" ++ name ++ "' is not a " ++ expected)

end CommandError

/-- Why a command or a node was refused. -/
inductive RegistrationError where
  /-- The alias and its namespaced form are taken. -/
  | aliasTaken (name owner : String)
  /-- The alias is empty or has a blank in it. -/
  | invalidAlias (name : String)
  /-- A command has to start with a literal. -/
  | notALiteral
  /-- Two subcommands of one command share an alias. -/
  | subcommandAliasConflict (name : String)
  /-- A command has parameters but nothing to run. -/
  | parametersWithoutExecutor
  /-- A command has neither subcommands nor anything to run. -/
  | missingExecutor
  /-- A node cannot both redirect and have children. -/
  | redirectWithChildren (name : String)
  /-- A node that was referred to is not in the tree. -/
  | unknownRedirectTarget (target : Nat)
  /-- A literal and an argument under one node share a name. -/
  | nameConflict (name : String)
  deriving DecidableEq, Repr

namespace RegistrationError

/-- The error as shown. -/
def message : RegistrationError → String
  | aliasTaken name owner => "alias '" ++ name ++ "' is already registered by '" ++ owner ++ "'"
  | invalidAlias name =>
    "invalid alias '" ++ name ++ "': aliases must be non-empty and contain no whitespace"
  | notALiteral => "only literal nodes can be registered as top-level commands"
  | subcommandAliasConflict name => "subcommand alias '" ++ name ++ "' is used more than once"
  | parametersWithoutExecutor => "an executor must exist if you set parameters"
  | missingExecutor => "either a subcommand or an executor must exist"
  | redirectWithChildren name => "node '" ++ name ++ "' cannot have both a redirect and children"
  | unknownRedirectTarget target =>
    "redirect target " ++ Decimal.natText target ++ " does not exist"
  | nameConflict name =>
    "'" ++ name ++ "' is already a child of this node with a different kind"

end RegistrationError
end Dispatch
