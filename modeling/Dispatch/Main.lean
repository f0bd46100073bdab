import Dispatch.Shell.Answer
/-!
# The program

Reads the arguments, the configuration file and the standard input, prints the answer and ends
with its status.
-/
namespace Dispatch.Shell

/-- The number of a fault of the system, which some calls report negated. -/
def faultNumber (number : UInt32) : UInt32 := if number < 0x80000000 then number else -number

/-- The fault that the system reports. -/
def ReadFault.ofError : IO.Error → ReadFault
  | .noFileOrDirectory _ _ _ => .missing
  | .inappropriateType _ number _ =>
    if faultNumber number = 21 then .isDirectory else .notDirectory
  | .invalidArgument _ number reason =>
    if faultNumber number = 36 then .nameTooLong else .other reason
  | .permissionDenied _ _ _ => .denied
  | error => .other (toString error)

/-- What a file holds, or why it could not be read. -/
def readConfig (path : String) : IO (Except ReadFault String) := do
  try
    return match String.fromUTF8? (← IO.FS.readBinFile path) with
      | some text => .ok text
      | none => .error .notText
  catch error => return .error (ReadFault.ofError error)

/-- The standard input, where the task asks for it. -/
def readInput : Invocation → IO String
  | .run _ .repl => do (← IO.getStdin).readToEnd
  | _ => return ""

/-- The configuration file that an invocation names. -/
def configPath? : Invocation → Option String
  | .run settings _ => settings.config
  | _ => none

/-- The format of an output that is a terminal or not. -/
def detectFormat : IO Format := do
  return if ← (← IO.getStdout).isTty then .pretty else .json

/-- Answers to the arguments of the program and gives the status with which it ends. -/
def program (arguments : List String) : IO UInt32 := do
  let invocation := Invocation.ofArguments arguments
  let file ← match configPath? invocation with
    | some path => readConfig path
    | none => pure (.ok "")
  let answer := invocation.answer (← detectFormat) (fun _ => file) (← readInput invocation)
  IO.print answer.output
  IO.eprint answer.errors
  return UInt32.ofNat answer.status

end Dispatch.Shell

def main (arguments : List String) : IO UInt32 := Dispatch.Shell.program arguments
