import Dispatch.Text.Offset
/-!
# Spans

Ranges of byte offsets into a command line. The end of a span never comes before its start.
-/
namespace Dispatch

/-- The bytes from `start` up to but without `stop`. -/
structure Span where
  start : Nat
  stop : Nat
  ordered : start ≤ stop := by omega
  deriving DecidableEq, Repr

namespace Span

/-- The span between two offsets, if they are in order. -/
def ofBounds? (start stop : Nat) : Option Span :=
  if h : start ≤ stop then some ⟨start, stop, h⟩ else none

/-- What there is to say about two offsets that are out of order. -/
def inversion (start stop : Nat) : String := s!"Span end ({stop}) < start ({start})"

/-- The span without any byte at a position. -/
def point (position : Nat) : Span := ⟨position, position, Nat.le_refl _⟩

/-- The least span that covers both. -/
def encompassing (a b : Span) : Span where
  start := min a.start b.start
  stop := max a.stop b.stop
  ordered := by have := a.ordered; omega

/-- Whether the span has no byte. -/
def isEmpty (a : Span) : Bool := a.start == a.stop

/-- How many bytes the span has. -/
def length (a : Span) : Nat := a.stop - a.start

/-- The text under the span, which is cut off at the end of the input; `none` if an end of it
lies inside a character. -/
def text? (a : Span) (input : String) : Option String :=
  let stop := min a.stop (Text.size input)
  Text.slice? input (min a.start stop) stop

end Span
end Dispatch
