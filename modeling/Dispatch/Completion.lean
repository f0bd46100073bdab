import Dispatch.Parse
import Dispatch.Text.LowerCase
/-!
# Completion

What could stand at a cursor. The parse of the line tells which node's children are asked and
from where text would be replaced. Literals propose themselves and arguments what their
completer or their parser proposes; of all this remains what goes on from the text already
typed, in lower case, each text once.
-/
namespace Dispatch

/-- Texts that could stand in a range of the input. -/
structure Completions where
  /-- The range that they would replace. -/
  range : Span
  /-- The texts, in the order of the nodes that proposed them. -/
  texts : List String
  deriving DecidableEq

namespace Completions

/-- Whether there is nothing to propose. -/
def isEmpty (c : Completions) : Bool := c.texts.isEmpty

/-- The input with one of the texts put in. There is no such input if the number is that of no
text; within, it is `none` if the range has an end inside a character. -/
def applied? (c : Completions) (input : String) (index : Nat) : Option (Option String) :=
  c.texts[index]?.map fun text => do
    let size := Text.size input
    let before ← Text.slice? input 0 (min c.range.start size)
    let behind ← Text.slice? input (min c.range.stop size) size
    some (before ++ text ++ behind)

/-- The JSON form. -/
def toJson (c : Completions) : Json :=
  .object
    [("range", .object [("start", .size c.range.start), ("end", .size c.range.stop)]),
     ("list", Json.strings c.texts)]

end Completions

/-- Whether a text goes on from what was typed, in lower case. -/
def continues (typed text : String) : Bool :=
  (Text.toLower typed).toList.isPrefixOf (Text.toLower text).toList

/-- The texts without those that came before, in the order of their first occurrence. -/
def firstOccurrences (texts : List String) : List String :=
  texts.foldl (fun seen text => if seen.contains text then seen else seen ++ [text]) []

/-- What a label proposes where a text was typed. -/
def Label.proposals {S E M : Type} (label : Label S E M) (context : Context S E M)
    (typed : String) :
    List String :=
  match label with
  | .literal text => [text]
  | .argument _ _ (some completer) => completer context typed
  | .argument _ parser none => parser.suggestions context typed

/-- What a node proposes to the principal of a context. -/
def Node.proposals {S E M : Type} (node : Node S E M) (context : Context S E M) (typed : String) :
    List String :=
  match node.label with
  | some label => if node.canUse context.source then label.proposals context typed else []
  | none => []

namespace Dispatcher
variable {S E M : Type}

/-- The first so many texts, if a limit is set. -/
def limited (d : Dispatcher S E M) (texts : List String) : List String :=
  match d.config.suggestionLimit with
  | some limit => texts.take limit
  | none => texts

/-- What could stand at a cursor in a parsed line. -/
def completionsAt (d : Dispatcher S E M) (parse : Parse S E M) (cursor : Nat) : Completions :=
  let input := parse.reader.input
  let cursor := min cursor (Text.size input)
  let (point, context) := parse.chain.completionPoint cursor
  let start := min point.start cursor
  let typed := (Text.slice? input start cursor).getD ""
  let proposals := (d.tree.childIds point.parent).flatMap fun c =>
    (d.tree.node? c).elim [] fun node => node.proposals context typed
  { range := ⟨start, cursor, Nat.min_le_right _ _⟩
    texts := d.limited (firstOccurrences (proposals.filter (continues typed))) }

/-- What could stand at the end of a line. -/
def completions (d : Dispatcher S E M) (input : String) (source : S) : Completions :=
  d.completionsAt (d.parse input source) (Text.size input)

end Dispatcher
end Dispatch
