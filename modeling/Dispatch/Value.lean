import Dispatch.Decimal.Shortest
import Dispatch.Diagnostic.Span
/-!
# Values

What an argument of a command line stands for: a truth value, a number, a text, or a value
that only the host understands. Two host values are equal only if they are the same one.
-/
namespace Dispatch

/-- A value that the host made: the name of its type, what it holds, and an identity that sets
it apart from every other host value. -/
structure HostValue where
  typeName : String
  content : Nat
  identity : Nat
  deriving DecidableEq, Repr

/-- A value bound to an argument. -/
inductive Value where
  | bool (b : Bool)
  | integer (n : Int64)
  | float (x : Binary64)
  | string (s : String)
  | host (h : HostValue)
  deriving Inhabited

namespace Value

/-- The name of the kind of value. -/
def typeName : Value → String
  | bool _ => "bool"
  | integer _ => "integer"
  | float _ => "float"
  | string _ => "string"
  | host _ => "value"

/-- The value as shown. -/
def text : Value → String
  | bool true => "true"
  | bool false => "false"
  | integer n => Decimal.intText n.toInt
  | float x => Decimal.floatText x
  | string s => s
  | host _ => "<value>"

/-- Equality of values. Doubles compare as numbers, so one that is no number equals nothing;
host values compare by identity. -/
protected def beq : Value → Value → Bool
  | bool a, bool b => a == b
  | integer a, integer b => a == b
  | float a, float b => a.equals b
  | string a, string b => a == b
  | host a, host b => a.identity == b.identity
  | _, _ => false

instance : BEq Value := ⟨Value.beq⟩

end Value

/-- Types to which a value can be converted. -/
class OfValue (α : Type) where
  /-- What a value should have been, for messages. -/
  expected : String
  /-- The conversion; `none` for values of another kind. -/
  ofValue? : Value → Option α

instance : OfValue Bool where
  expected := "bool"
  ofValue?
    | .bool b => some b
    | _ => none

instance : OfValue Int64 where
  expected := "integer"
  ofValue?
    | .integer n => some n
    | _ => none

/-- An integer converts to 32 bits if they hold it. -/
instance : OfValue Int32 where
  expected := "32-bit integer"
  ofValue?
    | .integer n =>
      if Int32.minValue.toInt ≤ n.toInt ∧ n.toInt ≤ Int32.maxValue.toInt then
        some (Int32.ofInt n.toInt)
      else none
    | _ => none

/-- An integer converts to the nearest double. -/
instance : OfValue Binary64 where
  expected := "float"
  ofValue?
    | .float x => some x
    | .integer n => some (.ofInt n.toInt)
    | _ => none

instance : OfValue String where
  expected := "string"
  ofValue?
    | .string s => some s
    | _ => none

/-- A value and the range of the input that it was read from. -/
structure ParsedArgument where
  range : Span
  value : Value

end Dispatch
