import Dispatch.Argument.Parser
import Dispatch.Argument.Standard
import Dispatch.Binary64
import Dispatch.Codec
import Dispatch.Command
import Dispatch.Completion
import Dispatch.Config
import Dispatch.Context
import Dispatch.Decimal.Digits
import Dispatch.Decimal.Reading
import Dispatch.Decimal.Shortest
import Dispatch.Demo
import Dispatch.Diagnostic.Code
import Dispatch.Diagnostic.Span
import Dispatch.Diagnostic.SyntaxError
import Dispatch.Diagnostic.Template
import Dispatch.Error
import Dispatch.Execution
import Dispatch.Json.Document
import Dispatch.Json.Field
import Dispatch.Json.Reading
import Dispatch.Main
import Dispatch.Manager
import Dispatch.Match
import Dispatch.NameMap
import Dispatch.Parse
import Dispatch.Principal
import Dispatch.Proofs.Parse.Derivation
import Dispatch.Proofs.Parse.Step
import Dispatch.Proofs.Parse.Taking
import Dispatch.Proofs.Text.Cut
import Dispatch.Reader
import Dispatch.Registry
import Dispatch.Shell.Answer
import Dispatch.Shell.Files
import Dispatch.Shell.Invocation
import Dispatch.Text.Blank
import Dispatch.Text.LowerCase
import Dispatch.Text.LowerCase.Table
import Dispatch.Text.Offset
import Dispatch.Text.Replace
import Dispatch.Tree.Basic
import Dispatch.Tree.Growth
import Dispatch.Usage
import Dispatch.Value
import Dispatch.Proofs.Parse.Route
import Dispatch.Proofs.Registry.Coherence
import Dispatch.Proofs.Tree.Register
import Dispatch.Proofs.Manager.Registration
import Dispatch.Proofs.Parse.FirstWord
import Dispatch.Proofs.Manager.BareAlias
import Dispatch.Proofs.Reader.Abreast
import Dispatch.Proofs.Tree.Standard
import Dispatch.Proofs.Parse.Abreast
import Dispatch.Proofs.Manager.AliasLine
import Dispatch.Proofs.Manager.Permission
import Dispatch.Proofs.Tree.Change
import Dispatch.Proofs.Tree.RedirectsAlone
import Dispatch.Proofs.Parse.Hiding
import Dispatch.Proofs.Execution.Waves
import Dispatch.Proofs.Tree.Arena
import Dispatch.Proofs.Manager.Agreement
import Dispatch.Proofs.Parse.Precedence
import Dispatch.Proofs.Tree.Alike
import Dispatch.Proofs.Parse.Secrecy
import Dispatch.Proofs.Execution.Verdict
import Dispatch.Proofs.Manager.AliasFailure
import Dispatch.Proofs.Manager.RedirectingCommand
import Dispatch.Proofs.Manager.Ownership
import Dispatch.Proofs.Tree.Again
import Dispatch.Proofs.Manager.Again
import Dispatch.Proofs.Parse.Additions
import Dispatch.Proofs.Tree.UsageLines
import Dispatch.Proofs.Execution.UsageLines
import Dispatch.Proofs.Parse.Chaining
import Dispatch.Proofs.Execution.Chaining
import Dispatch.Proofs.Tree.Renumbering
import Dispatch.Proofs.Execution.Renumbering
import Dispatch.Proofs.Manager.Independent
import Dispatch.Proofs.Parse.Places
import Dispatch.Proofs.Execution.Success
import Dispatch.Proofs.Reader.Lookahead
import Dispatch.Proofs.Parse.Completing
import Dispatch.Proofs.Parse.Access
import Dispatch.Proofs.Execution.Invocations
import Dispatch.Proofs.Manager.Requirements
import Dispatch.Proofs.Demo.Privileges
import Dispatch.Proofs.Parse.Errors
import Dispatch.Proofs.Reader.KeptText
import Dispatch.Proofs.Parse.ErrorPlaces
import Dispatch.Proofs.Completion.Range
import Dispatch.Proofs.Text.FinalSigma
import Dispatch.Proofs.Completion.Filter
import Dispatch.Proofs.Reader.Alone
import Dispatch.Proofs.Parse.Bindings
import Dispatch.Proofs.Parse.Termination
import Dispatch.Proofs.Parse.Translation
import Dispatch.Proofs.Tree.Union
import Dispatch.Proofs.Tree.Paths
import Dispatch.Proofs.Tree.Kinds
import Dispatch.Proofs.Manager.FreshCommand
import Dispatch.Proofs.Manager.OptionalTail
import Dispatch.Proofs.Tree.Siblings
import Dispatch.Proofs.Parse.LastWord
import Dispatch.Proofs.Manager.Subcommands
import Dispatch.Proofs.Reader.Quoting
import Dispatch.Proofs.Argument.Integers
import Dispatch.Proofs.Argument.Choices
import Dispatch.Proofs.Manager.Acceptance
import Dispatch.Proofs.Diagnostic.Snippet
import Dispatch.Proofs.Text.Replace
import Dispatch.Proofs.Manager.PermissionName
import Dispatch.Proofs.Execution.UnknownCommand
import Dispatch.Proofs.Manager.HelpLine
import Dispatch.Proofs.Json.Written
import Dispatch.Proofs.Json.Derived
import Dispatch.Proofs.NameMap
import Dispatch.Proofs.Principal.Capabilities
import Dispatch.Proofs.Reader.Calls
import Dispatch.Proofs.Diagnostic.ReadBack
import Dispatch.Proofs.Config.ReadBack
import Dispatch.Proofs.Diagnostic.Template
