import Dispatch.Diagnostic.Code
import Dispatch.Diagnostic.Span
import Dispatch.Diagnostic.Template
import Dispatch.Json.Field
/-!
# Syntax errors

What one attempt to match a node of the command tree reports when it fails: a code, a message,
the place in the input and named details. Errors have a JSON form, which leaves out what is
absent and from which they can be read back.
-/
namespace Dispatch

/-- A failure to read a command line. -/
structure SyntaxError where
  /-- The code, usually that of a `Diagnostic`. -/
  id : String
  message : String
  input : Option String
  /-- Byte offset into the input. -/
  cursor : Option Nat
  details : Option (NameMap String)
  deriving DecidableEq

namespace SyntaxError

/-- An error without position and details. -/
def ofMessage (id message : String) : SyntaxError := ⟨id, message, none, none, none⟩

/-- An error whose message is rendered from the template of its code. A code without template
is its own message. -/
def ofId (id : String) (details : NameMap String) : SyntaxError where
  id := id
  message := match Diagnostic.ofId? id with
    | some diagnostic => Diagnostic.render diagnostic.template details
    | none => id
  input := none
  cursor := none
  details := if details.isEmpty then none else some details

/-- An error of a known kind. -/
def ofDiagnostic (diagnostic : Diagnostic) (details : List (String × String)) : SyntaxError :=
  ofId diagnostic.id (.ofList details)

/-- The error placed at an offset into an input, at most its end. -/
def locate (error : SyntaxError) (input : String) (cursor : Nat) : SyntaxError :=
  { error with input := some input, cursor := some (min cursor (Text.size input)) }

/-- The error with other details. -/
def withDetails (error : SyntaxError) (details : NameMap String) : SyntaxError :=
  { error with details := some details }

/-- Whether the error says where it happened. -/
def isLocated (error : SyntaxError) : Bool := error.input.isSome && error.cursor.isSome

/-- The explanation of the error's code. -/
def explanation? (error : SyntaxError) : Option String :=
  (Diagnostic.ofId? error.id).map Diagnostic.explanation

/-- The input and the offset, of an error that has both. -/
def place? (error : SyntaxError) : Option (String × Nat) := do
  some (← error.input, ← error.cursor)

/-- The span from an offset to the end of its word. -/
def wordSpan? (input : String) (cursor : Nat) : Option Span :=
  (Text.dropBytes? cursor input.toList).map fun rest =>
    ⟨cursor, cursor + Text.byteSize (rest.takeWhile (· != ' ')), Nat.le_add_right _ _⟩

/-- How much of the input a snippet shows before the cursor. -/
def contextAmount : Nat := 10

/-- The first boundary at or after `start`, looking no farther than `fuel` bytes. -/
def boundaryFrom (input : String) (start : Nat) : (fuel : Nat) → Nat
  | 0 => start
  | fuel + 1 => if Text.isBoundary input start then start else boundaryFrom input (start + 1) fuel

/-- Where a snippet for a cursor starts: at most `contextAmount` bytes before it, between two
characters. -/
def snippetStart (input : String) (cursor : Nat) : Nat :=
  let start := cursor - contextAmount
  boundaryFrom input start (cursor - start)

/-- The end of the input before a cursor and a mark, with dots in front if the input was cut;
`none` if the offset is not one between characters. -/
def snippetAt? (input : String) (cursor : Nat) : Option String :=
  let start := snippetStart input cursor
  (Text.slice? input start cursor).map fun shown =>
    (if 0 < start then "..." else "") ++ shown ++ "<--[HERE]"

/-- The error as shown: its message and, if it is located, where it happened. There is no such
text if the error lies at no offset between characters of its input. -/
def text? (error : SyntaxError) : Option String :=
  match error.place? with
  | none => some error.message
  | some (input, cursor) =>
    (snippetAt? input cursor).map fun snippet =>
      error.message ++ " at position " ++ Decimal.natText cursor ++ ": " ++ snippet

/-! ## JSON form -/

/-- The fields as they are declared. -/
def fields : List (Json.Field SyntaxError) :=
  [.plain "id" .string id, .plain "message" .string message,
   .optional "input" .string input, .optional "cursor" .size cursor,
   .optional "context" .table details]

/-- The JSON form; what is absent is left out. -/
def toJson (error : SyntaxError) : Json := Json.Field.object fields error

end SyntaxError
end Dispatch
