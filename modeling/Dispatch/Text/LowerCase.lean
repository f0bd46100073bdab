import Dispatch.Text.LowerCase.Table
/-!
# Lower case

Full lower-casing of text. Every character is replaced on its own, one of them by two, but for
the capital sigma, whose form depends on whether a letter stands before it and none after it
in its word.
-/
namespace Dispatch.Text

/-- Whether one of the closed ranges holds the character. -/
def inRanges (ranges : List (Nat × Nat)) (c : Char) : Bool :=
  ranges.any fun (first, last) => first ≤ c.toNat && c.toNat ≤ last

/-- Whether the next character that is not looked through is a letter with case. -/
def meetsCased (cs : List Char) : Bool :=
  (cs.dropWhile (inRanges caseIgnorableRanges)).head?.any (inRanges casedRanges)

/-- Lower case of a character outside of any context. -/
def lowerChar (c : Char) : List Char :=
  if c = 'İ' then ['i', '\u0307']
  else match lowerRuns.findSome? (·.image? c.toNat) with
    | some image => [Char.ofNat image]
    | none => [c]

/-- Lower case of `c` between the characters before it, nearest first, and those after it. A
sigma takes its final form at the end of a word. -/
def lowerBetween (before : List Char) (c : Char) (after : List Char) : List Char :=
  if c = 'Σ' then [if meetsCased before && !meetsCased after then 'ς' else 'σ'] else lowerChar c

/-- Lower case of the characters that follow `before`, which is given nearest first. -/
def lowerAfter (before : List Char) : List Char → List Char
  | [] => []
  | c :: cs => lowerBetween before c cs ++ lowerAfter (c :: before) cs

/-- Lower case of a list of characters. -/
def lowerChars (cs : List Char) : List Char := lowerAfter [] cs

/-- Lower case of a text. -/
def toLower (s : String) : String := String.ofList (lowerChars s.toList)

end Dispatch.Text
