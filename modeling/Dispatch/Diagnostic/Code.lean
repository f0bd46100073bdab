/-!
# Diagnostic codes

The kinds of failure that a command line can meet, each with its code, the template of its
message and an explanation. Codes from 1001 on belong to the reader, from 1101 on to the
argument parsers and from 2001 on to the dispatcher.
-/
namespace Dispatch

/-- A kind of failure with a code of its own. -/
inductive Diagnostic where
  /-- An integer was expected but no digits were found. -/
  | expectedInteger
  /-- Number characters did not form a valid integer. -/
  | invalidInteger
  /-- A number was expected but no digits were found. -/
  | expectedFloat
  /-- Number characters did not form a valid decimal number. -/
  | invalidFloat
  /-- A boolean was expected but nothing was found. -/
  | expectedBool
  /-- The value is not 'true' or 'false'. -/
  | invalidBool
  /-- A quoted string was expected. -/
  | expectedOpeningQuote
  /-- A quoted string was not closed. -/
  | unclosedQuote
  /-- An invalid escape sequence was used in a quoted string. -/
  | invalidEscape
  /-- A specific character was expected. -/
  | expectedSymbol
  /-- An integer argument is below its minimum. -/
  | integerTooLow
  /-- An integer argument is above its maximum. -/
  | integerTooHigh
  /-- A decimal argument is below its minimum. -/
  | floatTooLow
  /-- A decimal argument is above its maximum. -/
  | floatTooHigh
  /-- A literal keyword did not match. -/
  | literalIncorrect
  /-- The value is not one of the allowed choices. -/
  | invalidChoice
  /-- An argument value was expected but the word was empty. -/
  | expectedArgument
  /-- An argument parser broke down or left the cursor in an impossible place. -/
  | parserFault
  /-- Arguments must be separated by a single space. -/
  | expectedSeparator
  /-- No command matched the input. -/
  | unknownCommand
  /-- A command matched but its arguments did not. -/
  | unknownArgument
  /-- The input ended before reaching an executable command. -/
  | incompleteCommand
  /-- Too many redirects were followed. -/
  | redirectLimit
  deriving DecidableEq, Repr

namespace Diagnostic

/-- Every kind of failure, by ascending code. -/
def all : List Diagnostic :=
  [.expectedInteger, .invalidInteger, .expectedFloat, .invalidFloat, .expectedBool,
   .invalidBool, .expectedOpeningQuote, .unclosedQuote, .invalidEscape, .expectedSymbol,
   .integerTooLow, .integerTooHigh, .floatTooLow, .floatTooHigh, .literalIncorrect,
   .invalidChoice, .expectedArgument, .parserFault, .expectedSeparator, .unknownCommand,
   .unknownArgument, .incompleteCommand, .redirectLimit]

/-- The code. -/
def id : Diagnostic → String
  | .expectedInteger => "CMD1001"
  | .invalidInteger => "CMD1002"
  | .expectedFloat => "CMD1003"
  | .invalidFloat => "CMD1004"
  | .expectedBool => "CMD1005"
  | .invalidBool => "CMD1006"
  | .expectedOpeningQuote => "CMD1007"
  | .unclosedQuote => "CMD1008"
  | .invalidEscape => "CMD1009"
  | .expectedSymbol => "CMD1010"
  | .integerTooLow => "CMD1101"
  | .integerTooHigh => "CMD1102"
  | .floatTooLow => "CMD1103"
  | .floatTooHigh => "CMD1104"
  | .literalIncorrect => "CMD1105"
  | .invalidChoice => "CMD1106"
  | .expectedArgument => "CMD1107"
  | .parserFault => "CMD2001"
  | .expectedSeparator => "CMD2002"
  | .unknownCommand => "CMD2003"
  | .unknownArgument => "CMD2004"
  | .incompleteCommand => "CMD2005"
  | .redirectLimit => "CMD2006"

/-- The message, with names in braces for what varies. -/
def template : Diagnostic → String
  | .expectedInteger => "Expected integer"
  | .invalidInteger => "Invalid integer '{value}'"
  | .expectedFloat => "Expected float"
  | .invalidFloat => "Invalid float '{value}'"
  | .expectedBool => "Expected bool"
  | .invalidBool => "Invalid bool, expected true or false but found '{value}'"
  | .expectedOpeningQuote => "Expected quote to start a string"
  | .unclosedQuote => "Unclosed quoted string"
  | .invalidEscape => "Invalid escape sequence '{character}' in quoted string"
  | .expectedSymbol => "Expected '{symbol}'"
  | .integerTooLow => "Integer must not be less than {min}, found {found}"
  | .integerTooHigh => "Integer must not be more than {max}, found {found}"
  | .floatTooLow => "Float must not be less than {min}, found {found}"
  | .floatTooHigh => "Float must not be more than {max}, found {found}"
  | .literalIncorrect => "Expected literal {expected}"
  | .invalidChoice => "Unknown choice '{value}', expected one of: {choices}"
  | .expectedArgument => "Expected a value for '{argument}'"
  | .parserFault => "Could not parse command: {reason}"
  | .expectedSeparator => "Expected whitespace to end one argument, but found trailing data"
  | .unknownCommand => "Unknown or incomplete command, see below for error"
  | .unknownArgument => "Incorrect argument for command"
  | .incompleteCommand => "Unknown or incomplete command"
  | .redirectLimit => "Redirect limit of {limit} exceeded"

/-- What the code means, at length. -/
def explanation : Diagnostic → String
  | .expectedInteger =>
    "The reader expected an integer at the cursor but found no number characters. Integers " ++
    "are written as an optional '-' followed by digits."
  | .invalidInteger =>
    "The text at the cursor looked numeric but could not be read as a 32-bit or 64-bit " ++
    "integer (for example '1.5' or an out-of-range value)."
  | .expectedFloat =>
    "The reader expected a decimal number at the cursor but found no number characters."
  | .invalidFloat =>
    "The text at the cursor looked numeric but could not be read as a decimal number (for " ++
    "example '1.2.3')."
  | .expectedBool =>
    "The reader expected 'true' or 'false' at the cursor but the input was empty."
  | .invalidBool =>
    "Boolean arguments accept exactly 'true' or 'false'."
  | .expectedOpeningQuote =>
    "The reader expected a quoted string starting with '\"' or a single quote."
  | .unclosedQuote =>
    "A quoted string reached the end of input before its closing quote."
  | .invalidEscape =>
    "Inside a quoted string only the active quote character and '\\\\' may be escaped with a " ++
    "backslash."
  | .expectedSymbol =>
    "The reader expected a fixed symbol at the cursor."
  | .integerTooLow =>
    "Integer arguments may declare an inclusive lower bound; the value given is smaller."
  | .integerTooHigh =>
    "Integer arguments may declare an inclusive upper bound; the value given is larger."
  | .floatTooLow =>
    "Decimal arguments may declare an inclusive lower bound; the value given is smaller."
  | .floatTooHigh =>
    "Decimal arguments may declare an inclusive upper bound; the value given is larger."
  | .literalIncorrect =>
    "The next word must equal the literal keyword exactly, followed by a space or the end " ++
    "of input."
  | .invalidChoice =>
    "Choice arguments accept only the words they were declared with."
  | .expectedArgument =>
    "Word arguments need at least one character that is not a space."
  | .parserFault =>
    "An argument parser panicked instead of returning a syntax error. The failure is " ++
    "reported as a syntax error on that branch only."
  | .expectedSeparator =>
    "After a literal or argument has been read, the next character must be a space or the " ++
    "input must end."
  | .unknownCommand =>
    "None of the registered root literals matched the first word, or the principal may not " ++
    "use any that did."
  | .unknownArgument =>
    "The command name was recognized but the remaining input did not match any of its " ++
    "arguments or subcommands."
  | .incompleteCommand =>
    "Parsing consumed all input but the last matched node has no executor. More arguments " ++
    "or a subcommand are required."
  | .redirectLimit =>
    "Following alias and redirect edges exceeded the configured maximum redirect depth; the" ++
    " tree probably contains a redirect cycle."

/-- The kind of failure with a given code. -/
def ofId? (code : String) : Option Diagnostic := all.find? fun d => d.id == code

end Diagnostic
end Dispatch
