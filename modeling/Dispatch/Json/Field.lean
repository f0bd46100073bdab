import Dispatch.Json.Document
import Dispatch.NameMap
/-!
# Declared fields

A record declares for each field the name of its member in the JSON form, when the member is
left out, and what the field holds where there is no member. How the records of a type are
turned into text and back is up to a codec, which a library derives from such a declaration.
-/
namespace Dispatch.Json

variable {α R : Type}

/-- How the values of a type stand in JSON. -/
structure Form (α : Type) where
  json : α → Json
  /-- Whether the type has the value. -/
  Fits : α → Prop

namespace Form

/-- A string as itself. -/
def string : Form String := ⟨.string, fun _ => True⟩

/-- A size as a number, of which 64 bits hold the value. -/
def size : Form Nat := ⟨Json.size, (· < UInt64.size)⟩

/-- A map of strings as an object with its entries in order. -/
def table : Form (NameMap String) where
  json map := .object (map.entries.map fun (name, value) => (name, .string value))
  Fits _ := True

/-- Nothing as `null`, and a value as itself. -/
def orNull (form : Form α) : Form (Option α) where
  json value := value.elim .null form.json
  Fits value := ∀ a ∈ value, form.Fits a

end Form

/-- A field of a record. -/
structure Field (R : Type) where
  name : String
  /-- The type of what it holds. -/
  Holds : Type
  form : Form Holds
  get : R → Holds
  /-- Whether its member is left out for a value. -/
  omits : Holds → Bool
  /-- What it holds where there is no member; `none` if there has to be one. -/
  missing : Option Holds

namespace Field

/-- A field whose member is always there. -/
def plain (name : String) (form : Form α) (get : R → α) : Field R where
  name := name
  Holds := α
  form := form
  get := get
  omits _ := false
  missing := none

/-- A field that may hold nothing and then has no member. -/
def optional (name : String) (form : Form α) (get : R → Option α) : Field R where
  name := name
  Holds := Option α
  form := form.orNull
  get := get
  omits := Option.isNone
  missing := some none

/-- The field where a missing member stands for what a given record holds. -/
def withDefault (start : R) (field : Field R) : Field R :=
  { field with missing := some (field.get start) }

@[simp] theorem name_plain (name : String) (form : Form α) (get : R → α) :
    (plain name form get).name = name := rfl

@[simp] theorem name_optional (name : String) (form : Form α) (get : R → Option α) :
    (optional name form get).name = name := rfl

@[simp] theorem name_withDefault (start : R) (field : Field R) :
    (field.withDefault start).name = field.name := rfl

/-- The member of a record, unless it is left out. -/
def member? (record : R) (field : Field R) : Option (String × Json) :=
  if field.omits (field.get record) then none
  else some (field.name, field.form.json (field.get record))

/-- The JSON form of a record: the members of its fields in order. -/
def object (fields : List (Field R)) (record : R) : Json :=
  .object (fields.filterMap (member? record))

end Field

/-- What writes the records of a type as text and reads them from it. -/
structure Codec (R : Type) where
  write : R → String
  read? : String → Option R

end Dispatch.Json
