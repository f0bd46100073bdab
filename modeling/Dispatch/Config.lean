import Dispatch.Json.Field
import Dispatch.Text.Blank
import Dispatch.Text.LowerCase
import Dispatch.Text.Replace
/-!
# Configuration

The settings of a dispatcher, what makes them valid, and their JSON form, in which every
setting may be left out and then has its default.
-/
namespace Dispatch

/-- The settings of a dispatcher. -/
structure Config where
  /-- How many redirects one parse may follow. -/
  maxRedirectDepth : Nat := 64
  /-- What stands between an owner and an alias in a namespaced alias. -/
  namespaceSeparator : String := "."
  /-- The form of the capability that guards a command, with `{owner}` and `{alias}` in it. -/
  permissionTemplate : String := "{owner}.command.{alias}"
  /-- How many candidates a completion offers at most. -/
  suggestionLimit : Option Nat := none
  deriving DecidableEq, Repr, Inhabited

/-- Why settings cannot be used. -/
inductive ConfigError where
  /-- The text is no JSON form of settings. -/
  | malformed
  | noRedirects
  | badSeparator
  | aliasNotReferenced
  | noSuggestions
  deriving DecidableEq, Repr

namespace ConfigError

/-- The setting that is at fault and what is wrong with it. -/
def complaint? : ConfigError → Option (String × String)
  | malformed => none
  | noRedirects => some ("max_redirect_depth", "must be > 0")
  | badSeparator => some ("namespace_separator", "must be non-empty and contain no whitespace")
  | aliasNotReferenced => some ("permission_template", "must reference {alias}")
  | noSuggestions => some ("suggestion_limit", "must be > 0 when set")

/-- The error as shown. -/
def message (error : ConfigError) : String :=
  match error.complaint? with
  | some (field, reason) => "invalid " ++ field ++ ": " ++ reason
  | none => "invalid config JSON"

end ConfigError

namespace Config

/-- Where a permission template takes the owner. -/
def ownerMark : String := "{owner}"

/-- Where a permission template takes the alias. -/
def aliasMark : String := "{alias}"

/-- Checks the settings one after the other. -/
def validate (config : Config) : Except ConfigError Unit :=
  if config.maxRedirectDepth = 0 then .error .noRedirects
  else if !Text.isWord config.namespaceSeparator then .error .badSeparator
  else if !Text.occursIn aliasMark.toList config.permissionTemplate.toList then
    .error .aliasNotReferenced
  else if config.suggestionLimit = some 0 then .error .noSuggestions
  else .ok ()

/-- The capability that guards a command: the template with the owner put in, and then the
alias in lower case. -/
def permissionFor (config : Config) (owner name : String) : String :=
  Text.replace (Text.replace config.permissionTemplate ownerMark owner) aliasMark
    (Text.toLower name)

/-- The alias an owner gets where the bare one is taken. -/
def namespaced (config : Config) (owner name : String) : String :=
  owner ++ config.namespaceSeparator ++ name

/-! ## JSON form -/

/-- The fields as they are declared: a member that is missing stands for the default. -/
def fields : List (Json.Field Config) :=
  [.plain "max_redirect_depth" .size maxRedirectDepth,
   .plain "namespace_separator" .string namespaceSeparator,
   .plain "permission_template" .string permissionTemplate,
   .optional "suggestion_limit" .size suggestionLimit].map (.withDefault {})

/-- The JSON form; a limit that is not set is left out. -/
def toJson (config : Config) : Json := Json.Field.object fields config

/-- The settings that are read from a text, if they are valid. -/
def load (read? : String → Option Config) (text : String) : Except ConfigError Config := do
  let some config := read? text | throw .malformed
  config.validate
  return config

end Config
end Dispatch
