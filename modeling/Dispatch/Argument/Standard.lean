import Dispatch.Argument.Parser
/-!
# Standard argument parsers

Parsers for words, strings, numbers within bounds, truth values and choices among given words.
They look at the text alone and not at the context.
-/
namespace Dispatch

/-- The parsers that come with the library. -/
inductive StandardParser where
  /-- A word without quotes. -/
  | word
  /-- A word, or any text in quotes. -/
  | quotable
  /-- All that is left of the input. -/
  | greedy
  /-- An integer within bounds. -/
  | integer (least greatest : Int64)
  /-- A decimal number within bounds. -/
  | float (least greatest : Binary64)
  /-- A truth value. -/
  | bool
  /-- One of the given words. -/
  | choice (choices : List String)

namespace StandardParser

/-- Any integer. -/
def anyInteger : StandardParser := .integer Int64.minValue Int64.maxValue

/-- Any integer from a bound on. -/
def integerFrom (least : Int64) : StandardParser := .integer least Int64.maxValue

/-- Refuses an empty text, naming what was asked for. -/
def rejectEmpty (r : Reader) (kind : String) : Scan Value :=
  r.reject .expectedArgument [("argument", kind)]

/-- A read that has to stay within bounds; outside of them it fails where it began. -/
def bounded {α : Type} (r : Reader) (outcome : Scan α) (isLow isHigh : α → Bool)
    (low high : Diagnostic) (least greatest : String) (text : α → String) (value : α → Value) :
    Scan Value :=
  match outcome with
  | (.error failure, after) => (.error failure, after)
  | (.ok a, after) =>
    if isLow a then r.reject low [("min", least), ("found", text a)]
    else if isHigh a then r.reject high [("max", greatest), ("found", text a)]
    else (.ok (value a), after)

/-- Reads a value at the cursor. -/
def parse (p : StandardParser) (r : Reader) : Scan Value :=
  match p with
  | word =>
    match r.readWord with
    | (.error failure, after) => (.error failure, after)
    | (.ok text, after) =>
      if text.isEmpty then rejectEmpty after "word" else (.ok (.string text), after)
  | quotable =>
    match r.readString with
    | (.error failure, after) => (.error failure, after)
    | (.ok text, after) =>
      if text.isEmpty && !r.peek.any Reader.isQuote then rejectEmpty after "string"
      else (.ok (.string text), after)
  | greedy =>
    r.withRest fun cs =>
      if cs.isEmpty then rejectEmpty r "text"
      else (.ok (.string (String.ofList cs)), r.seek r.totalSize)
  | integer least greatest =>
    bounded r r.readInteger (· < least) (greatest < ·) .integerTooLow .integerTooHigh
      (Decimal.intText least.toInt) (Decimal.intText greatest.toInt)
      (fun n => Decimal.intText n.toInt) .integer
  | float least greatest =>
    bounded r r.readFloat (· < least) (greatest < ·) .floatTooLow .floatTooHigh
      (Decimal.floatText least) (Decimal.floatText greatest) Decimal.floatText .float
  | bool =>
    match r.readBool with
    | (.error failure, after) => (.error failure, after)
    | (.ok b, after) => (.ok (.bool b), after)
  | choice choices =>
    match r.readWord with
    | (.error failure, after) => (.error failure, after)
    | (.ok text, after) =>
      if choices.contains text then (.ok (.string text), after)
      else r.reject .invalidChoice [("value", text), ("choices", ", ".intercalate choices)]

/-- Candidates while a value is being typed. -/
def suggestions : StandardParser → List String
  | bool => ["true", "false"]
  | choice choices => choices
  | _ => []

/-- Inputs that the parser reads. -/
def examples : StandardParser → List String
  | word => ["word", "words_with_underscores"]
  | quotable => ["\"quoted phrase\"", "word", "\"\""]
  | greedy => ["word", "words with spaces", "\"and symbols\""]
  | integer _ _ => ["0", "123", "-123"]
  | float _ _ => ["0", "1.2", ".5", "-1", "-.5", "-1234.56"]
  | bool => ["true", "false"]
  | choice choices => choices.take 2

/-- The parser for use in a tree. -/
def toParser {S E M : Type} (p : StandardParser) : ArgumentParser S E M where
  parse := fun _ r => p.parse r
  suggestions := fun _ _ => p.suggestions
  examples := p.examples

end StandardParser
end Dispatch
