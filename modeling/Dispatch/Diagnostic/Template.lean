import Dispatch.NameMap
import Dispatch.Text.Blank
/-!
# Message templates

Templates hold names in braces. One pass from left to right replaces each name that has a
value; what is inserted is not looked at again, and everything else, unknown names and braces
without a partner included, is copied.
-/
namespace Dispatch.Diagnostic

/-- What stands for the text between two braces: the value of the name, or the text as it
was. -/
def placeholder (values : NameMap String) (inside : List Char) : List Char :=
  match values.get? (String.ofList (Text.trimBlanks inside)) with
  | some value => value.toList
  | none => '\x7b' :: (inside ++ ['\x7d'])

/-- The characters with names replaced. `held` is the text since a brace that is still open,
last character first. -/
def fill (values : NameMap String) : (held : Option (List Char)) → List Char → List Char
  | none, [] => []
  | some held, [] => '\x7b' :: held.reverse
  | none, '\x7b' :: cs => fill values (some []) cs
  | none, c :: cs => c :: fill values none cs
  | some held, '\x7d' :: cs => placeholder values held.reverse ++ fill values none cs
  | some held, c :: cs => fill values (some (c :: held)) cs

/-- The message that a template makes of the given values. -/
def render (template : String) (values : NameMap String) : String :=
  String.ofList (fill values none template.toList)

end Dispatch.Diagnostic
