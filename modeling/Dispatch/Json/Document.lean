import Dispatch.Decimal.Digits
/-!
# JSON documents

JSON values with whole numbers, and their two printed forms: on one line without any space,
and spread over lines with an indentation of two. Members of an object are printed in the
order given.
-/
namespace Dispatch

/-- A JSON value whose numbers are integers. -/
inductive Json where
  | null
  | bool (b : Bool)
  | number (n : Int)
  | string (s : String)
  | array (items : List Json)
  | object (members : List (String × Json))
  deriving Inhabited

namespace Json

/-- A sequence of strings. -/
def strings (items : List String) : Json := .array (items.map .string)

/-- A natural number. -/
def size (n : Nat) : Json := .number n

/-- The members that are present. -/
def members (fields : List (String × Option Json)) : List (String × Json) :=
  fields.filterMap fun (name, value) => value.map (name, ·)

/-- The lower-case hexadecimal digit below sixteen. -/
def hexDigit (d : Nat) : Char := if d < 10 then Char.ofNat (48 + d) else Char.ofNat (87 + d)

/-- How a character is written inside quotes: a quote, a backslash and the control characters
are escaped and everything else stands for itself. -/
def escapeChar (c : Char) : List Char :=
  if c = '"' then ['\\', '"']
  else if c = '\\' then ['\\', '\\']
  else if c = '\n' then ['\\', 'n']
  else if c = '\r' then ['\\', 'r']
  else if c = '\t' then ['\\', 't']
  else if c = '\x08' then ['\\', 'b']
  else if c = '\x0c' then ['\\', 'f']
  else if c.toNat < 32 then ['\\', 'u', '0', '0', hexDigit (c.toNat / 16), hexDigit (c.toNat % 16)]
  else [c]

/-- A string in quotes. -/
def quote (s : String) : List Char := '"' :: (s.toList.flatMap escapeChar ++ ['"'])

/-- The part of a printed value that does not depend on nesting. -/
def scalarChars : Json → List Char
  | null => "null".toList
  | bool true => "true".toList
  | bool false => "false".toList
  | number n => (Decimal.intText n).toList
  | string s => quote s
  | array _ => []
  | object _ => []

mutual

/-- A value on one line. -/
def compactChars : Json → List Char
  | array items => '[' :: (compactItems items ++ [']'])
  | object fields => '\x7b' :: (compactMembers fields ++ ['\x7d'])
  | scalar => scalarChars scalar

/-- Values separated by commas. -/
def compactItems : List Json → List Char
  | [] => []
  | [item] => compactChars item
  | item :: rest => compactChars item ++ ',' :: compactItems rest

/-- Members separated by commas. -/
def compactMembers : List (String × Json) → List Char
  | [] => []
  | [(name, value)] => quote name ++ ':' :: compactChars value
  | (name, value) :: rest => quote name ++ ':' :: (compactChars value ++ ',' :: compactMembers rest)

end

/-- A line break and the indentation of a nesting level. -/
def newLine (level : Nat) : List Char := '\n' :: List.replicate (2 * level) ' '

mutual

/-- A value spread over lines, at a level of nesting. Empty arrays and objects stay on their
line. -/
def prettyChars (level : Nat) : Json → List Char
  | array [] => ['[', ']']
  | array (item :: rest) =>
    '[' :: (newLine (level + 1) ++ prettyChars (level + 1) item ++ prettyItems level rest ++
      newLine level ++ [']'])
  | object [] => ['\x7b', '\x7d']
  | object ((name, value) :: rest) =>
    '\x7b' :: (newLine (level + 1) ++ quote name ++ [':', ' '] ++ prettyChars (level + 1) value ++
      prettyMembers level rest ++ newLine level ++ ['\x7d'])
  | scalar => scalarChars scalar

/-- The values after the first, each on a line of its own. -/
def prettyItems (level : Nat) : List Json → List Char
  | [] => []
  | item :: rest =>
    ',' :: (newLine (level + 1) ++ prettyChars (level + 1) item ++ prettyItems level rest)

/-- The members after the first, each on a line of its own. -/
def prettyMembers (level : Nat) : List (String × Json) → List Char
  | [] => []
  | (name, value) :: rest =>
    ',' :: (newLine (level + 1) ++ quote name ++ [':', ' '] ++ prettyChars (level + 1) value ++
      prettyMembers level rest)

end

/-- The text of a value on one line. -/
def compact (json : Json) : String := String.ofList json.compactChars

/-- The text of a value spread over lines. -/
def pretty (json : Json) : String := String.ofList (json.prettyChars 0)

end Json
end Dispatch
