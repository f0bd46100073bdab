/-!
# Replacing text

Replacement of every occurrence of a pattern, found from the left and without overlap. What is
inserted is not searched again.
-/
namespace Dispatch.Text

/-- The characters with each occurrence of `pattern` replaced. `skip` counts the characters of
an occurrence that still have to be passed over. -/
def replaceFrom (pattern insertion : List Char) : Nat → List Char → List Char
  | _, [] => []
  | skip + 1, _ :: cs => replaceFrom pattern insertion skip cs
  | 0, c :: cs =>
    if pattern.isPrefixOf (c :: cs) then
      insertion ++ replaceFrom pattern insertion (pattern.length - 1) cs
    else c :: replaceFrom pattern insertion 0 cs

/-- A text with each occurrence of a pattern, which is not empty, replaced. -/
def replace (s pattern insertion : String) : String :=
  String.ofList (replaceFrom pattern.toList insertion.toList 0 s.toList)

/-- Whether the pattern occurs in the characters. -/
def occursIn (pattern : List Char) : List Char → Bool
  | [] => pattern.isEmpty
  | c :: cs => pattern.isPrefixOf (c :: cs) || occursIn pattern cs

end Dispatch.Text
