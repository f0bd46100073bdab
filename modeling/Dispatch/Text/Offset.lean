/-!
# Byte offsets into text

Positions in a command line are counted in bytes of its UTF-8 encoding. A position inside a
character names no place in the text, so cutting there gives `none`. The cuts are stated on
the characters of the text; `slice?` is the cut on a `String`.
-/
namespace Dispatch.Text

/-- Bytes that the characters occupy in UTF-8. -/
def byteSize : List Char → Nat
  | [] => 0
  | c :: cs => c.utf8Size + byteSize cs

@[simp] theorem byteSize_nil : byteSize [] = 0 := rfl

@[simp] theorem byteSize_cons (c : Char) (cs : List Char) :
    byteSize (c :: cs) = c.utf8Size + byteSize cs := rfl

@[simp] theorem byteSize_append (cs ds : List Char) :
    byteSize (cs ++ ds) = byteSize cs + byteSize ds := by
  induction cs with
  | nil => simp
  | cons c cs ih => simp [ih, Nat.add_assoc]

/-- What is left after the first `n` bytes, or `none` if they do not end between
characters. -/
def dropBytes? (n : Nat) : List Char → Option (List Char)
  | [] => if n = 0 then some [] else none
  | c :: cs =>
    if n = 0 then some (c :: cs)
    else if c.utf8Size ≤ n then dropBytes? (n - c.utf8Size) cs
    else none

/-- The characters in the first `n` bytes, or `none` if these do not end between
characters. -/
def takeBytes? (n : Nat) : List Char → Option (List Char)
  | [] => if n = 0 then some [] else none
  | c :: cs =>
    if n = 0 then some []
    else if c.utf8Size ≤ n then (takeBytes? (n - c.utf8Size) cs).map (c :: ·)
    else none

@[simp] theorem dropBytes?_zero (cs : List Char) : dropBytes? 0 cs = some cs := by
  cases cs <;> simp [dropBytes?]

@[simp] theorem takeBytes?_zero (cs : List Char) : takeBytes? 0 cs = some [] := by
  cases cs <;> simp [takeBytes?]

/-- Dropping the bytes of a first part leaves the second. -/
@[simp] theorem dropBytes?_byteSize_append (cs ds : List Char) :
    dropBytes? (byteSize cs) (cs ++ ds) = some ds := by
  induction cs with
  | nil => simp
  | cons c cs ih =>
    have := Char.utf8Size_pos c
    simp [dropBytes?, ih]
    omega

/-- Taking the bytes of a first part gives it back. -/
@[simp] theorem takeBytes?_byteSize_append (cs ds : List Char) :
    takeBytes? (byteSize cs) (cs ++ ds) = some cs := by
  induction cs with
  | nil => simp
  | cons c cs ih =>
    have := Char.utf8Size_pos c
    simp [takeBytes?, ih]
    omega

/-- Length of a text in bytes. -/
def size (s : String) : Nat := byteSize s.toList

/-- Whether the offset lies between two characters or at an end of the text. -/
def isBoundary (s : String) (offset : Nat) : Bool := (dropBytes? offset s.toList).isSome

/-- The text between two offsets, or `none` if one of them lies inside a character or outside
the text, or if they are out of order. -/
def slice? (s : String) (start stop : Nat) : Option String :=
  if start ≤ stop then
    ((dropBytes? start s.toList).bind (takeBytes? (stop - start))).map String.ofList
  else none

end Dispatch.Text
