import Dispatch.Config
import Dispatch.Tree.Basic
/-!
# Matching one node

What a single node takes from the input at a reader. A literal takes its own text, as a whole
word; an argument takes what its parser reads. A parser may not go back, stop inside a
character or break down: each of these counts as a failure of the node, like a syntax error,
and is located. Matching goes on with the reader that the parser hands back, even if that is a
reader of another text.
-/
namespace Dispatch

/-- What a label took from the input at a reader. -/
structure Taken (r : Reader) where
  /-- The value, of an argument. -/
  value : Option Value
  /-- The reader behind what was taken. -/
  after : Reader
  onward : r.cursor ≤ after.cursor

namespace Taken
variable {r : Reader}

/-- The range taken. -/
def range (taken : Taken r) : Span := ⟨r.cursor, taken.after.cursor, taken.onward⟩

/-- Whether the input goes on without a separator. -/
def isCutOff (taken : Taken r) : Bool :=
  taken.after.canRead && taken.after.peek != some separator

end Taken

namespace Reader

/-- The reader past the separator at its cursor. -/
def pastSeparator (r : Reader) : Reader := { r with cursor := r.cursor + 1 }

end Reader

namespace Label
variable {S E M : Type}

/-- Whether the label is worth trying where the next word is `word`. -/
def fits (label : Label S E M) (word : String) : Bool :=
  match label with
  | literal text => text == word
  | argument _ _ _ => true

/-- What there is to say of a parser that broke down without giving a reason. -/
def unknownFault : String := "argument parser panicked"

/-- What there is to say of a parser that left the cursor where it must not stand. -/
def strayCursor (cursor : Nat) : String :=
  "argument parser moved the cursor to " ++ Decimal.natText cursor

/-- The error, located at a reader unless it already is. -/
def locateAt (r : Reader) (error : SyntaxError) : SyntaxError :=
  if error.isLocated then error else error.locate r.input r.cursor

/-- Takes a value with an argument parser. Only its own text holds the cursor that it hands
back. -/
def takeValue (parser : ArgumentParser S E M) (context : Context S E M) (r : Reader) :
    Except SyntaxError (Taken r) :=
  let (outcome, moved) := parser.parse context r
  let after := moved.seek moved.cursor
  let fault (reason : String) := (after.seek r.cursor).error .parserFault [("reason", reason)]
  match outcome with
  | .error (.rejected error) => .error (locateAt after error)
  | .error (.fault reason) => .error (fault (reason.getD unknownFault))
  | .ok value =>
    if onward : r.cursor ≤ after.cursor ∧ after.isOnBoundary then
      .ok ⟨some value, after, onward.1⟩
    else .error (fault (strayCursor after.cursor))

/-- Takes what the label matches. -/
def take (label : Label S E M) (context : Context S E M) (r : Reader) :
    Except SyntaxError (Taken r) :=
  match label with
  | literal text =>
    if r.peekWord = text then
      .ok ⟨none, { r with cursor := r.cursor + Text.size text }, Nat.le_add_right _ _⟩
    else .error (r.error .literalIncorrect [("expected", text)])
  | argument _ parser _ => takeValue parser context r

/-- The context with a value bound to the argument's name. -/
def bindTo (label : Label S E M) {r : Reader} (taken : Taken r) (context : Context S E M) :
    Context S E M :=
  match label, taken.value with
  | argument name _ _, some value => context.withArgument name ⟨taken.range, value⟩
  | _, _ => context

/-- Binding a value touches nothing but the arguments. -/
theorem bindTo_eq (label : Label S E M) {r : Reader} (taken : Taken r) (c : Context S E M) :
    label.bindTo taken c = { c with arguments := (label.bindTo taken c).arguments } := by
  cases hlabel : label with
  | literal text => rfl
  | argument name parser completer =>
    cases hvalue : taken.value with
    | none => simp [bindTo, hvalue]
    | some value => simp [bindTo, hvalue, Context.withArgument]

theorem redirectDepth_bindTo (label : Label S E M) {r : Reader} (taken : Taken r)
    (c : Context S E M) : (label.bindTo taken c).redirectDepth = c.redirectDepth := by
  rw [bindTo_eq]

end Label
end Dispatch
