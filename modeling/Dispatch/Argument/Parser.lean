import Dispatch.Context
/-!
# Argument parsers

What an argument node needs of a host: how to read a value from the text at the cursor, and
what to propose while the value is being typed.
-/
namespace Dispatch

/-- Reads the values of an argument. -/
structure ArgumentParser (S E M : Type) where
  /-- Reads a value at the cursor of a reader, in the light of what was bound before. -/
  parse : Context S E M → Reader → Scan Value
  /-- Candidates for the text typed so far, for nodes without a completer. -/
  suggestions : Context S E M → String → List String := fun _ _ => []
  /-- Inputs that are read, for help. -/
  examples : List String := []

/-- Proposes candidates for an argument, given the context so far and the text typed. -/
abbrev Completer (S E M : Type) := Context S E M → String → List String

end Dispatch
