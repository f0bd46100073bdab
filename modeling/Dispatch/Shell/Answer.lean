import Dispatch.Codec
import Dispatch.Demo
import Dispatch.Shell.Files
import Dispatch.Shell.Invocation
/-!
# Answers of the program

What an invocation prints and whether it succeeds. Results and, in the form for programs,
failures go to the standard output; in the form for people failures go to the standard error.
-/
namespace Dispatch.Shell

/-- What the program prints, and the status with which it ends. -/
structure Answer where
  status : Nat := 0
  output : String := ""
  errors : String := ""
  deriving DecidableEq, Repr

namespace Answer

/-- A line on the standard output. -/
def line (text : String) : Answer := { output := text ++ "\n" }

/-- Lines on the standard output. -/
def lines (texts : List String) : Answer := { output := String.join (texts.map (· ++ "\n")) }

/-- A failure reported on the standard output. -/
def failure (text : String) : Answer := { line text with status := 1 }

/-- A failure reported on the standard error. -/
def complaint (text : String) : Answer := { status := 1, errors := text ++ "\n" }

/-- One answer after another. The status is that of the first one that failed. -/
def andThen (first second : Answer) : Answer where
  status := if first.status = 0 then second.status else first.status
  output := first.output ++ second.output
  errors := first.errors ++ second.errors

end Answer

/-- The text in a colour of the terminal. -/
def inColour (code : Nat) (text : String) : String :=
  "\x1b[" ++ Decimal.natText code ++ "m" ++ text ++ "\x1b[0m"

/-- The code for red. -/
def red : Nat := 31

/-- The code for cyan. -/
def cyan : Nat := 36

/-- The text, filled up with blanks to a width. -/
def padded (width : Nat) (text : String) : String :=
  String.ofList (text.toList ++ List.replicate (width - text.length) ' ')

/-- The JSON form of a command line's success. -/
def successJson (input : String) (result : Int32) : Json :=
  .object [("input", .string input), ("result", .number result.toInt), ("success", .bool true)]

/-- The JSON form of a command line's failure, its members in order of name. -/
def failureJson (input : String) (error : CommandError) : Json :=
  let located := error.syntaxError?
  .object (Json.members
    [("context", (located.bind SyntaxError.details).map Json.Form.table.json),
     ("cursor", located.map fun e => e.cursor.elim .null Json.size),
     ("error", error.id?.map .string),
     ("input", some (.string input)),
     ("message", error.text?.map .string),
     ("success", some (.bool false))])

/-- The JSON form of a failure that is not that of a command line. -/
def refusalJson (kind message : String) : Json :=
  .object [("error", .string kind), ("message", .string message), ("success", .bool false)]

/-- Reports a failure of the program itself. -/
def report (format : Format) (kind message : String) : Answer :=
  match format with
  | .json => .failure (refusalJson kind message).compact
  | .pretty => .complaint ("error: " ++ message)

/-- Prints lines, in the form for programs as one array. -/
def printLines (format : Format) (texts : List String) : Answer :=
  match format with
  | .json => .line (Json.strings texts).pretty
  | .pretty => .lines texts

/-- The commands that the program runs on. -/
abbrev Console := Manager Principal Demo.Action Demo.Switch

/-- Runs a command line. -/
def exec (console : Console) (source : Principal) (format : Format) (input : String) : Answer :=
  match Id.run (console.execute Demo.host input source), format with
  | .ok result, .json => .line (successJson input result).compact
  | .ok result, .pretty => .line (Decimal.intText result.toInt)
  | .error error, .json => .failure (failureJson input error).compact
  | .error error, .pretty =>
    .complaint (inColour red (error.id?.getD "error") ++ ": " ++ error.text?.getD "")

/-- The lines of a text. A break at the end starts no further line. -/
def linesOf (text : String) : List String :=
  let parts := text.splitOn "\n"
  if parts.getLast? = some "" then parts.dropLast else parts

/-- A line without carriage returns at its end. -/
def withoutReturns (line : String) : String :=
  String.ofList (line.toList.reverse.dropWhile (· == '\r')).reverse

/-- Whether a line is to be run: it is not blank and no comment. -/
def isRunnable (line : String) : Bool := !Text.isBlankText line && !line.startsWith "#"

/-- Runs the lines of a text. -/
def execLines (console : Console) (source : Principal) (format : Format) (text : String) : Answer :=
  (((linesOf text).map withoutReturns).filter isRunnable).foldl
    (fun answer line => answer.andThen (exec console source format line)) {}

/-- Completes a command line. -/
def suggest (console : Console) (source : Principal) (format : Format) (input : String)
    (cursor : Option Nat) : Answer :=
  let parse := console.dispatcher.parse input source
  let found := console.dispatcher.completionsAt parse (cursor.getD (Text.size input))
  match format with
  | .json => .line found.toJson.pretty
  | .pretty => .lines found.texts

/-- The lines of help. -/
def helpLines (help : Help) : List String :=
  let mapping := help.mapping
  mapping.description.short.toList ++ mapping.description.extended.toList ++
    (if 1 < mapping.aliases.length then
      ["aliases: " ++ ", ".intercalate mapping.aliases] else []) ++
    help.usage.map ("  " ++ ·)

/-- Shows how the commands are used, or one of them. -/
def usage (console : Console) (source : Principal) (format : Format) :
    (name : Option String) → Answer
  | none => printLines format (console.usage source)
  | some name =>
    match console.help? source name, format with
    | none, _ => report format "unknown_command" ("no command '" ++ name ++ "'")
    | some help, .json => .line help.toJson.pretty
    | some help, .pretty => .lines (helpLines help)

/-- The line of a command in a listing. -/
def listing (mapping : Mapping) : String :=
  padded 16 mapping.primary ++ " " ++ padded 8 mapping.owner ++ " " ++
    ",".intercalate mapping.aliases ++ " " ++ mapping.description.short.getD ""

/-- Lists the registered commands. -/
def commands (console : Console) (format : Format) : Answer :=
  match format with
  | .json => .line (Json.array (console.mappings.map Mapping.toJson)).pretty
  | .pretty => .lines (console.mappings.map listing)

/-- Explains a diagnostic code. -/
def explain (format : Format) (id : String) : Answer :=
  let explanation := (Diagnostic.ofId? id).map Diagnostic.explanation
  match format, explanation with
  | .json, _ =>
    .line (Json.object [("explanation", explanation.elim .null .string), ("id", .string id)]).pretty
  | .pretty, some text => .line (inColour cyan id ++ ": " ++ text)
  | .pretty, none => .line (id ++ ": (no explanation available)")

/-- Performs a task on behalf of a principal. `input` is the standard input. -/
def perform (console : Console) (source : Principal) (format : Format) (input : String) :
    Task → Answer
  | .exec line => exec console source format line
  | .repl => execLines console source format input
  | .suggest line cursor => suggest console source format line cursor
  | .usage name => usage console source format name
  | .paths => printLines format (console.paths source)
  | .commands => commands console format
  | .explain id => explain format id

namespace Settings

/-- The name of a principal that is not given one. -/
def defaultPrincipal : String := "console"

/-- The principal that the settings describe. -/
def source (s : Settings) : Principal :=
  let name := s.principal.getD defaultPrincipal
  (if s.isOperator then Principal.operator name else .named name).grantAll s.grants

/-- The configuration that the settings name, where `read` has what their file holds or why it
could not be read. -/
def loadConfig (s : Settings) (read : String → Except ReadFault String) :
    Except String Config :=
  match s.config with
  | none => .ok {}
  | some path =>
    match read path with
    | .error fault => .error ("failed to read config '" ++ path ++ "': " ++ fault.message)
    | .ok text => (Config.ofJson text).mapError fun error =>
      "failed to load config '" ++ path ++ "': " ++ error.message

end Settings

/-- The program's name and version. -/
def versionLine : String := "cmdtree 0.1.0"

/-- How the program is used. -/
def helpText : String :=
  "Usage: cmdtree [OPTIONS] exec|repl|suggest|usage|paths|commands|explain"

/-- The answer to an invocation. `read` reads a file, `input` is the standard input, and
`detected` is the format where none is asked for. -/
def Invocation.answer (invocation : Invocation) (detected : Format)
    (read : String → Except ReadFault String) (input : String) : Answer :=
  match invocation with
  | .refused => { status := 2, errors := "error: " ++ helpText ++ "\n" }
  | .version => .line versionLine
  | .help => .line helpText
  | .run settings task =>
    let format := settings.format.getD detected
    match task with
    | .explain id => explain format id
    | task =>
      match settings.loadConfig read with
      | .error message => report format "command_failed" message
      | .ok config =>
        match Demo.manager config with
        | .error error => report format "command_failed" error.message
        | .ok console => perform console settings.source format input task

end Dispatch.Shell
