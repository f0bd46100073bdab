import Dispatch.Decimal.Reading
import Dispatch.Diagnostic.SyntaxError
/-!
# Readers

A reader is an input with a cursor, a byte offset. What lies ahead of the cursor is text only
if the cursor stands between two characters; a read elsewhere is a fault, not a syntax error.
Every read answers with an outcome and the reader it leaves behind, also when it fails.
-/
namespace Dispatch

/-- The character between one argument and the next. -/
def separator : Char := ' '

/-- Why a read did not deliver a value. -/
inductive Failure where
  /-- The text is not of the form asked for. -/
  | rejected (error : SyntaxError)
  /-- The read itself broke down, perhaps saying why. -/
  | fault (reason : Option String)

/-- A cursor over an input. -/
structure Reader where
  input : String
  cursor : Nat
  deriving DecidableEq, Repr

/-- The outcome of a read and the reader after it. -/
abbrev Scan (α : Type) := Except Failure α × Reader

namespace Reader
variable {α : Type}

/-- A reader at the start of an input. -/
def ofString (input : String) : Reader := ⟨input, 0⟩

/-- A reader at an offset of an input, at most its end. -/
def startingAt (input : String) (cursor : Nat) : Reader := ⟨input, min cursor (Text.size input)⟩

/-- The reader moved to an offset, at most the end of the input. -/
def seek (r : Reader) (cursor : Nat) : Reader := startingAt r.input cursor

/-- Length of the input in bytes. -/
def totalSize (r : Reader) : Nat := Text.size r.input

/-- How many bytes lie ahead of the cursor. -/
def remainingSize (r : Reader) : Nat := r.totalSize - r.cursor

/-- Whether the cursor stands between two characters. -/
def isOnBoundary (r : Reader) : Bool := Text.isBoundary r.input r.cursor

/-- The characters ahead of the cursor; `none` if it stands inside a character. -/
def rest? (r : Reader) : Option (List Char) := Text.dropBytes? r.cursor r.input.toList

/-- The characters ahead of a cursor that stands between characters. -/
def rest (r : Reader) : List Char := r.rest?.getD []

/-- The text behind the cursor; `none` if it stands inside a character. -/
def consumed? (r : Reader) : Option String :=
  (Text.takeBytes? r.cursor r.input.toList).map String.ofList

/-- Whether at least `n` bytes lie ahead. -/
def canReadBytes (r : Reader) (n : Nat) : Bool := r.cursor + n ≤ r.totalSize

/-- Whether anything lies ahead. -/
def canRead (r : Reader) : Bool := r.canReadBytes 1

/-- The character at the cursor, if there is one. -/
def peek (r : Reader) : Option Char := r.rest.head?

/-- The characters ahead up to the next separator. -/
def wordChars (cs : List Char) : List Char := cs.takeWhile (· != separator)

/-- The word at the cursor. -/
def peekWord (r : Reader) : String := String.ofList (wordChars r.rest)

/-- The reader past the given characters. -/
def advance (r : Reader) (cs : List Char) : Reader :=
  { r with cursor := r.cursor + Text.byteSize cs }

/-- The reader past the character at the cursor, if there is one. -/
def skip (r : Reader) : Reader := r.advance (r.rest.take 1)

/-- The reader past any blanks. -/
def skipBlanks (r : Reader) : Reader := r.advance (r.rest.takeWhile Text.isBlank)

/-- An error of a known kind at the cursor. -/
def error (r : Reader) (diagnostic : Diagnostic) (details : List (String × String)) : SyntaxError :=
  (SyntaxError.ofDiagnostic diagnostic details).locate r.input r.cursor

/-- A read that fails with an error at the cursor. -/
def reject (r : Reader) (diagnostic : Diagnostic) (details : List (String × String)) : Scan α :=
  (.error (.rejected (r.error diagnostic details)), r)

/-- A read of the characters ahead; inside a character it is a fault. -/
def withRest (r : Reader) (read : List Char → Scan α) : Scan α :=
  match r.rest? with
  | some cs => read cs
  | none => (.error (.fault none), r)

/-! ## Classes of characters -/

/-- Characters that may stand in a number. -/
def isNumberChar (c : Char) : Bool := Decimal.isDigit c || c == '.' || c == '-'

/-- Characters that open a quoted string. -/
def isQuote (c : Char) : Bool := c == '"' || c == '\''

/-- Characters that may stand in a string without quotes. -/
def isWordChar (c : Char) : Bool :=
  ('a' ≤ c && c ≤ 'z') || ('A' ≤ c && c ≤ 'Z') || Decimal.isDigit c ||
    c == '_' || c == '-' || c == '.' || c == '+'

/-! ## Reads -/

/-- Reads the longest run of number characters as a number. -/
def readNumber (r : Reader) (value? : List Char → Option α) (missing invalid : Diagnostic) :
    Scan α :=
  r.withRest fun cs =>
    let digits := cs.takeWhile isNumberChar
    if digits.isEmpty then r.reject missing []
    else match value? digits with
      | some value => (.ok value, r.advance digits)
      | none => r.reject invalid [("value", String.ofList digits)]

/-- Reads an integer of 64 bits. -/
def readInteger (r : Reader) : Scan Int64 :=
  r.readNumber Decimal.readInt64? .expectedInteger .invalidInteger

/-- Reads a decimal number. -/
def readFloat (r : Reader) : Scan Binary64 :=
  r.readNumber Decimal.readFloat? .expectedFloat .invalidFloat

/-- Reads the longest run of word characters, which may be empty. -/
def readWord (r : Reader) : Scan String :=
  r.withRest fun cs =>
    let word := cs.takeWhile isWordChar
    (.ok (String.ofList word), r.advance word)

/-- How the text up to a closing quote ends. -/
inductive Quoted where
  /-- The value of the text, and the characters up to and including the quote. -/
  | closed (value : List Char) (taken : List Char)
  /-- A backslash before a character that must not be escaped, and the characters before that
  character. -/
  | badEscape (character : Char) (taken : List Char)
  /-- The quote does not come. -/
  | unclosed (taken : List Char)

namespace Quoted

/-- The outcome for a text that starts with further characters, which add to the value. -/
def after (value taken : List Char) : Quoted → Quoted
  | closed v t => closed (value ++ v) (taken ++ t)
  | badEscape c t => badEscape c (taken ++ t)
  | unclosed t => unclosed (taken ++ t)

end Quoted

/-- The text up to a closing quote. A backslash makes the quote or a backslash after it part
of the value and may stand before nothing else. -/
def scanQuoted (quote : Char) : List Char → Quoted
  | [] => .unclosed []
  | ['\\'] => .unclosed ['\\']
  | '\\' :: c :: cs =>
    if c = quote ∨ c = '\\' then (scanQuoted quote cs).after [c] ['\\', c]
    else .badEscape c ['\\']
  | c :: cs => if c = quote then .closed [] [c] else (scanQuoted quote cs).after [c] [c]

/-- Reads the text up to a closing quote. -/
def readUntil (r : Reader) (quote : Char) : Scan String :=
  r.withRest fun cs =>
    match scanQuoted quote cs with
    | .closed value taken => (.ok (String.ofList value), r.advance taken)
    | .badEscape c taken => (r.advance taken).reject .invalidEscape [("character", c.toString)]
    | .unclosed taken => (r.advance taken).reject .unclosedQuote []

/-- Reads a string in quotes. The end of the input stands for the empty string. -/
def readQuoted (r : Reader) : Scan String :=
  r.withRest fun cs =>
    match cs with
    | [] => (.ok "", r)
    | c :: _ => if isQuote c then (r.advance [c]).readUntil c else r.reject .expectedOpeningQuote []

/-- Reads a string, in quotes if it starts with one. -/
def readString (r : Reader) : Scan String :=
  r.withRest fun cs =>
    match cs with
    | [] => (.ok "", r)
    | c :: _ => if isQuote c then (r.advance [c]).readUntil c else r.readWord

/-- Reads a truth value. -/
def readBool (r : Reader) : Scan Bool :=
  match r.readString with
  | (.error failure, after) => (.error failure, after)
  | (.ok value, after) =>
    if value.isEmpty then after.reject .expectedBool []
    else if value = "true" then (.ok true, after)
    else if value = "false" then (.ok false, after)
    else r.reject .invalidBool [("value", value)]

/-- Reads a given character. -/
def expect (r : Reader) (c : Char) : Scan Unit :=
  r.withRest fun cs =>
    if cs.head? = some c then (.ok (), r.advance [c])
    else r.reject .expectedSymbol [("symbol", c.toString)]

end Reader
end Dispatch
