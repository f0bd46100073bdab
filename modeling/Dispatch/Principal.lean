import Dispatch.NameMap
/-!
# Principals

A principal is on whose behalf a command line is read and run. What it may do is a matter of
the capabilities it holds. These are names with dots; a capability grants every one that
continues it after a dot, and the capability `*` grants all.
-/
namespace Dispatch

/-- Types whose members hold capabilities. -/
class Capable (S : Type) where
  /-- Whether the principal holds a capability. -/
  holds : S → String → Bool

/-- A principal with a name and a set of granted capabilities. -/
structure Principal where
  name : String
  granted : NameSet
  deriving DecidableEq

namespace Principal

/-- The capability that grants all. -/
def everything : String := "*"

/-- A principal without capabilities. -/
def named (name : String) : Principal := ⟨name, .empty⟩

/-- The principal with one more capability. -/
def grant (p : Principal) (capability : String) : Principal :=
  { p with granted := p.granted.insert capability () }

/-- The principal with the listed capabilities besides its own. -/
def grantAll (p : Principal) (capabilities : List String) : Principal :=
  capabilities.foldl grant p

/-- A principal that may do everything. -/
def operator (name : String) : Principal := (named name).grant everything

/-- The granted capabilities in ascending order. -/
def capabilities (p : Principal) : List String := p.granted.names

/-- The parts of a name before each of its dots. `before` is what was passed, last character
first. -/
def properHeads (before : List Char) : List Char → List String
  | [] => []
  | c :: cs =>
    if c = '.' then String.ofList before.reverse :: properHeads (c :: before) cs
    else properHeads (c :: before) cs

/-- Whether the principal holds a capability: it was granted everything, the capability
itself, or its part before one of its dots. -/
def hasCapability (p : Principal) (capability : String) : Bool :=
  p.granted.contains everything || p.granted.contains capability ||
    (properHeads [] capability.toList).any p.granted.contains

instance : Capable Principal := ⟨hasCapability⟩

end Principal
end Dispatch
