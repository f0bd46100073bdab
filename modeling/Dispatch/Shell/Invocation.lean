import Dispatch.Decimal.Digits
/-!
# Invocations of the program

What the arguments of the program ask for. Options may stand before and after the name of a
task; one that stands after it wins. Options are read from left to right, and the first that
asks for the version or for help, or that cannot be accepted, decides.
-/
namespace Dispatch.Shell

/-- How results are printed. -/
inductive Format where
  /-- For people. -/
  | pretty
  /-- For programs. -/
  | json
  deriving DecidableEq, Repr

/-- The options given on one side of the name of the task. -/
structure Settings where
  format : Option Format := none
  /-- The path of a configuration file. -/
  config : Option String := none
  /-- The name of the principal. -/
  principal : Option String := none
  /-- Capabilities to grant. -/
  grants : List String := []
  isOperator : Bool := false
  isVerbose : Bool := false
  isQuiet : Bool := false
  /-- The offset to complete at. -/
  cursor : Option Nat := none
  deriving DecidableEq, Repr

/-- What the program is asked to do. -/
inductive Task where
  /-- To run a command line. -/
  | exec (input : String)
  /-- To run the lines of the standard input. -/
  | repl
  /-- To complete a command line. -/
  | suggest (input : String) (cursor : Option Nat)
  /-- To show how commands are used, or one of them. -/
  | usage (name : Option String)
  /-- To show every command line in full. -/
  | paths
  /-- To list the registered commands. -/
  | commands
  /-- To explain a diagnostic code. -/
  | explain (id : String)
  deriving DecidableEq, Repr

/-- What the arguments of the program come to. -/
inductive Invocation where
  | run (settings : Settings) (task : Task)
  | version
  | help
  /-- The arguments cannot be accepted. -/
  | refused
  deriving DecidableEq, Repr

/-- Options without a value. -/
inductive Flag where
  | operator
  | verbose
  | quiet
  | version
  | help

/-- Options with a value. -/
inductive Setting where
  | output
  | config
  | principal
  | grant
  | cursor

/-- An option by name. -/
inductive Switch where
  | flag (f : Flag)
  | setting (s : Setting)

/-- The names of tasks. -/
inductive TaskName where
  | exec
  | repl
  | suggest
  | usage
  | paths
  | commands
  | explain
  deriving DecidableEq, Repr

namespace TaskName

/-- The task of a name. -/
def ofText? : String → Option TaskName
  | "exec" => some exec
  | "repl" => some repl
  | "suggest" => some suggest
  | "usage" => some usage
  | "paths" => some paths
  | "commands" => some commands
  | "explain" => some explain
  | _ => none

/-- How many words may follow the name. -/
def maxWords : TaskName → Nat
  | exec | suggest | usage | explain => 1
  | repl | paths | commands => 0

/-- The task with the words that follow its name. -/
def withWords? (name : TaskName) (cursor : Option Nat) (words : List String) : Option Task :=
  match name, words with
  | exec, [input] => some (.exec input)
  | repl, [] => some .repl
  | suggest, [input] => some (.suggest input cursor)
  | usage, [] => some (.usage none)
  | usage, [name] => some (.usage (some name))
  | paths, [] => some .paths
  | commands, [] => some .commands
  | explain, [id] => some (.explain id)
  | _, _ => none

end TaskName

/-- Where arguments stand: before the name of a task, or after it. -/
abbrev Place := Option TaskName

/-- The option with a long name, where it may be given. -/
def longSwitch? (place : Place) : String → Option Switch
  | "op" => some (.flag .operator)
  | "verbose" => some (.flag .verbose)
  | "quiet" => some (.flag .quiet)
  | "help" => some (.flag .help)
  | "version" => if place.isNone then some (.flag .version) else none
  | "output" => some (.setting .output)
  | "config" => some (.setting .config)
  | "as" => some (.setting .principal)
  | "grant" => some (.setting .grant)
  | "cursor" => if place = some .suggest then some (.setting .cursor) else none
  | _ => none

/-- The flag with a letter, where it may be given. -/
def letterFlag? (place : Place) (c : Char) : Option Flag :=
  if c = 'v' then some .verbose
  else if c = 'q' then some .quiet
  else if c = 'h' then some .help
  else if c = 'V' ∧ place.isNone then some .version
  else none

/-- A format by name. -/
def Format.ofText? (text : String) : Option Format :=
  if text = "pretty" then some .pretty else if text = "json" then some .json else none

/-- An offset: digits, perhaps after a plus sign, that name a number of 64 bits. -/
def readOffset? (text : String) : Option Nat :=
  let digits := match text.toList with
    | '+' :: rest => rest
    | rest => rest
  if digits.isEmpty || !digits.all Decimal.isDigit then none
  else
    let n := Decimal.ofDigits digits
    if n < UInt64.size then some n else none

namespace Settings

/-- The settings with a flag, which must not be given twice. -/
def withFlag (s : Settings) (flag : Flag) : Except Invocation Settings :=
  match flag with
  | .operator => if s.isOperator then .error .refused else .ok { s with isOperator := true }
  | .verbose => if s.isVerbose then .error .refused else .ok { s with isVerbose := true }
  | .quiet => if s.isQuiet then .error .refused else .ok { s with isQuiet := true }
  | .version => .error .version
  | .help => .error .help

/-- The settings with several flags, one after the other. -/
def withLetters (s : Settings) (place : Place) (letters : List Char) :
    Except Invocation Settings :=
  letters.foldlM (fun s c =>
    match letterFlag? place c with
    | some flag => s.withFlag flag
    | none => .error .refused) s

/-- The settings with a value, if it is one for that option. Only capabilities may be given
more than once. -/
def withSetting? (s : Settings) (setting : Setting) (value : String) : Option Settings :=
  match setting with
  | .output =>
    if s.format.isSome then none
    else (Format.ofText? value).map fun format => { s with format := some format }
  | .config =>
    if s.config.isSome || value.isEmpty then none else some { s with config := some value }
  | .principal => if s.principal.isSome then none else some { s with principal := some value }
  | .grant => some { s with grants := s.grants ++ [value] }
  | .cursor =>
    if s.cursor.isSome then none
    else (readOffset? value).map fun cursor => { s with cursor := some cursor }

/-- The settings with a value that has to be there and has to be one for that option. -/
def withValue (s : Settings) (setting : Setting) (value : Option String) :
    Except Invocation Settings :=
  match value.bind (s.withSetting? setting) with
  | some s => .ok s
  | none => .error .refused

/-- Whether the settings contradict themselves. -/
def isContradictory (s : Settings) : Bool := s.isVerbose && s.isQuiet

/-- The settings before the name of a task together with those after it. -/
def andThen (outer inner : Settings) : Settings where
  format := inner.format <|> outer.format
  config := inner.config <|> outer.config
  principal := inner.principal <|> outer.principal
  grants := if inner.grants.isEmpty then outer.grants else inner.grants
  isOperator := outer.isOperator || inner.isOperator
  isVerbose := outer.isVerbose || inner.isVerbose
  isQuiet := outer.isQuiet || inner.isQuiet
  cursor := inner.cursor <|> outer.cursor

end Settings

/-- Whether an argument starts like an option. A single dash does not. -/
def isOptionLike (argument : String) : Bool := argument.startsWith "-" && argument != "-"

/-- A long option's name, and its value if it has one after an equals sign. -/
def splitLong (characters : List Char) : String × Option String :=
  let name := characters.takeWhile (· != '=')
  let rest := characters.dropWhile (· != '=')
  (String.ofList name, if rest.isEmpty then none else some (String.ofList rest.tail))

/-- What was read on one side of the name of a task. -/
structure Reading where
  settings : Settings := {}
  words : List String := []

/-- The reading with one more word, if there may be one. -/
def Reading.addWord (r : Reading) (limit : Nat) (word : String) : Except Invocation Reading :=
  if r.words.length < limit then .ok { r with words := r.words ++ [word] } else .error .refused

/-- Reads the options and words of one side. Before the name of a task the first word ends the
reading, and what follows it is left over. -/
def readSide (place : Place) (r : Reading) : List String → Except Invocation (Reading × List String)
  | [] => .ok (r, [])
  | argument :: rest =>
    match argument.toList with
    | ['-', '-'] => do
      let limit := place.elim 0 TaskName.maxWords
      pure (← rest.foldlM (fun r word => r.addWord limit word) r, [])
    | '-' :: '-' :: characters =>
      let (name, attached) := splitLong characters
      match longSwitch? place name with
      | none => .error .refused
      | some (.flag flag) =>
        if attached.isSome then .error .refused
        else do readSide place { r with settings := ← r.settings.withFlag flag } rest
      | some (.setting setting) =>
        match attached, rest with
        | some value, rest => do
          readSide place { r with settings := ← r.settings.withValue setting (some value) } rest
        | none, value :: rest =>
          if isOptionLike value then .error .refused
          else do
            readSide place { r with settings := ← r.settings.withValue setting (some value) } rest
        | none, [] => .error .refused
    | '-' :: c :: letters => do
      readSide place { r with settings := ← r.settings.withLetters place (c :: letters) } rest
    | _ =>
      match place with
      | none => .ok (r, argument :: rest)
      | some task => do readSide place (← r.addWord task.maxWords argument) rest

/-- Whether help can be given on the words after `help`. -/
def hasHelp : List String → Bool
  | [] => true
  | [name] => name == "help" || (TaskName.ofText? name).isSome
  | _ => false

/-- Reads what follows the name of a task. -/
def readTask (outer : Settings) (name : TaskName) (arguments : List String) :
    Except Invocation Invocation := do
  let (inner, _) ← readSide (some name) {} arguments
  match name.withWords? inner.settings.cursor inner.words with
  | none => pure .refused
  | some task =>
    if inner.settings.isContradictory || outer.isContradictory then pure .refused
    else pure (.run (outer.andThen inner.settings) task)

/-- Reads all arguments. -/
def readAll (arguments : List String) : Except Invocation Invocation := do
  let (outer, rest) ← readSide none {} arguments
  match rest with
  | [] => pure .refused
  | word :: rest =>
    if word = "help" then pure (if hasHelp rest then .help else .refused)
    else match TaskName.ofText? word with
      | some name => readTask outer.settings name rest
      | none => pure .refused

/-- What the arguments of the program come to. -/
def Invocation.ofArguments (arguments : List String) : Invocation :=
  match readAll arguments with
  | .ok invocation => invocation
  | .error invocation => invocation

end Dispatch.Shell
