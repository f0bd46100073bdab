import Dispatch.Config
import Dispatch.Diagnostic.SyntaxError
import Dispatch.Json.Reading
/-!
# The codecs of the program

What stands for a library that derives codecs from declared fields when the program runs. The
members of a record are read one after the other into a draft, which holds what was seen so
far and is turned into the record in the end.
-/
namespace Dispatch

/-! ## Errors -/

namespace SyntaxError

/-- The members of the JSON form seen so far. -/
structure Draft where
  id : Option String
  message : Option String
  input : Option (Option String)
  cursor : Option (Option Nat)
  details : Option (Option (NameMap String))

namespace Draft

/-- Nothing seen. -/
def empty : Draft := ⟨none, none, none, none, none⟩

/-- An object of strings; of two members with one name the later holds. -/
def details? : Json.Reading (NameMap String) := fun cs => do
  Json.object?
    (fun details name rest => (Json.string? rest).map fun (value, after) =>
      (details.insert name value, after))
    NameMap.empty (← Json.expect? '\x7b' cs)

/-- Reads a member; one that was there before is refused and an unknown one is passed over. -/
def member? (seen : Draft) (name : String) : Json.Reading Draft := fun cs =>
  match name with
  | "id" => if seen.id.isSome then none else
    (Json.string? cs).map fun (v, rest) => ({ seen with id := some v }, rest)
  | "message" => if seen.message.isSome then none else
    (Json.string? cs).map fun (v, rest) => ({ seen with message := some v }, rest)
  | "input" => if seen.input.isSome then none else
    (Json.orNull? Json.string? cs).map fun (v, rest) => ({ seen with input := some v }, rest)
  | "cursor" => if seen.cursor.isSome then none else
    (Json.orNull? Json.size? cs).map fun (v, rest) => ({ seen with cursor := some v }, rest)
  | "context" => if seen.details.isSome then none else
    (Json.orNull? details? cs).map fun (v, rest) => ({ seen with details := some v }, rest)
  | _ => (Json.skip? cs).map fun (_, rest) => (seen, rest)

/-- Reads the element of an array that stands for the member in that place. -/
def item? (seen : Draft) (index : Nat) : Json.Reading Draft := fun cs =>
  match ["id", "message", "input", "cursor", "context"][index]? with
  | some name => member? seen name cs
  | none => none

/-- The error that the members make. The code and the message have to be there. -/
def finish? (seen : Draft) : Option SyntaxError := do
  some ⟨← seen.id, ← seen.message, seen.input.join, seen.cursor.join, seen.details.join⟩

/-- Whether every member was seen. -/
def isFull (seen : Draft) : Bool :=
  seen.id.isSome && seen.message.isSome && seen.input.isSome && seen.cursor.isSome &&
    seen.details.isSome

end Draft

/-- Reads an error from an object with its members, or from an array of all five in order. -/
def read? : Json.Reading SyntaxError := fun cs =>
  match Json.skipSpace cs with
  | '[' :: rest => do
    let (seen, after) ← Json.array? Draft.item? .empty rest
    if seen.isFull then some (← seen.finish?, after) else none
  | rest => do
    let (seen, after) ← Json.object? Draft.member? .empty (← Json.expect? '\x7b' rest)
    some (← seen.finish?, after)

/-- The error with a given JSON form. -/
def ofJson? (text : String) : Option SyntaxError := Json.ofText? read? text

/-- How the program writes and reads errors. -/
def codec : Json.Codec SyntaxError := ⟨fun error => error.toJson.compact, ofJson?⟩

end SyntaxError

/-! ## Settings -/

namespace Config

/-- The settings seen so far. -/
structure Draft where
  maxRedirectDepth : Option Nat
  namespaceSeparator : Option String
  permissionTemplate : Option String
  suggestionLimit : Option (Option Nat)

namespace Draft

/-- Nothing seen. -/
def empty : Draft := ⟨none, none, none, none⟩

/-- Reads a setting; one that was there before is refused and an unknown one is passed
over. -/
def member? (seen : Draft) (name : String) : Json.Reading Draft := fun cs =>
  match name with
  | "max_redirect_depth" => if seen.maxRedirectDepth.isSome then none else
    (Json.size? cs).map fun (v, rest) => ({ seen with maxRedirectDepth := some v }, rest)
  | "namespace_separator" => if seen.namespaceSeparator.isSome then none else
    (Json.string? cs).map fun (v, rest) => ({ seen with namespaceSeparator := some v }, rest)
  | "permission_template" => if seen.permissionTemplate.isSome then none else
    (Json.string? cs).map fun (v, rest) => ({ seen with permissionTemplate := some v }, rest)
  | "suggestion_limit" => if seen.suggestionLimit.isSome then none else
    (Json.orNull? Json.size? cs).map fun (v, rest) =>
      ({ seen with suggestionLimit := some v }, rest)
  | _ => (Json.skip? cs).map fun (_, rest) => (seen, rest)

/-- Reads the element of an array that stands for the setting in that place. -/
def item? (seen : Draft) (index : Nat) : Json.Reading Draft := fun cs =>
  match ["max_redirect_depth", "namespace_separator", "permission_template",
      "suggestion_limit"][index]? with
  | some name => member? seen name cs
  | none => none

/-- The settings, with defaults for what was not seen. -/
def finish (seen : Draft) : Config where
  maxRedirectDepth := seen.maxRedirectDepth.getD ({} : Config).maxRedirectDepth
  namespaceSeparator := seen.namespaceSeparator.getD ({} : Config).namespaceSeparator
  permissionTemplate := seen.permissionTemplate.getD ({} : Config).permissionTemplate
  suggestionLimit := seen.suggestionLimit.join

end Draft

/-- How the program writes and reads settings. -/
def codec : Json.Codec Config where
  write config := config.toJson.compact
  read? text :=
    (Json.ofText? (Json.record? Draft.member? Draft.item? .empty) text).map Draft.finish

/-- The valid settings with a given JSON form. -/
def ofJson (text : String) : Except ConfigError Config := load codec.read? text

end Config
end Dispatch
