import Dispatch.Decimal.Digits
/-!
# Reading records from JSON

Readers for the pieces of which a record is made: strings, sizes, nothing at all, objects
member by member and arrays element by element. A reader takes characters and answers with
what it read and the characters left. Values that a record does not ask for are passed over;
there only the form of strings is checked, not whether their escapes name characters.
-/
namespace Dispatch.Json

/-- A reader of an `α` from the front of a text. -/
abbrev Reading (α : Type) := List Char → Option (α × List Char)

/-- The four characters that may stand between tokens. -/
def isSpace (c : Char) : Bool := c == ' ' || c == '\n' || c == '\t' || c == '\r'

/-- The text without space in front. -/
def skipSpace (cs : List Char) : List Char := cs.dropWhile isSpace

/-- The text after a given character, with space allowed before it. -/
def expect? (c : Char) (cs : List Char) : Option (List Char) :=
  match skipSpace cs with
  | d :: rest => if d = c then some rest else none
  | [] => none

/-- The text after a given word. -/
def word? (word : String) (cs : List Char) : Option (List Char) :=
  if word.toList.isPrefixOf cs then some (cs.drop word.length) else none

/-- The value of a hexadecimal digit. -/
def hexValue? (c : Char) : Option Nat :=
  if '0' ≤ c ∧ c ≤ '9' then some (c.toNat - 48)
  else if 'a' ≤ c ∧ c ≤ 'f' then some (c.toNat - 87)
  else if 'A' ≤ c ∧ c ≤ 'F' then some (c.toNat - 55)
  else none

/-- The sixteen-bit unit that four hexadecimal digits name. -/
def unitOf? (a b c d : Char) : Option Nat := do
  some (((← hexValue? a) * 16 + (← hexValue? b)) * 256 + (← hexValue? c) * 16 + (← hexValue? d))

/-- The character that a backslash and one letter stand for. -/
def escaped? (c : Char) : Option Char :=
  if c = '"' || c = '\\' || c = '/' then some c
  else if c = 'n' then some '\n'
  else if c = 'r' then some '\r'
  else if c = 't' then some '\t'
  else if c = 'b' then some '\x08'
  else if c = 'f' then some '\x0c'
  else none

/-- What a string is written as: characters, and units given by number. -/
inductive Piece where
  | char (c : Char)
  | unit (n : Nat)

/-- The pieces up to the closing quote, and the text after it. A control character must not
stand unescaped. -/
def pieces? : Reading (List Piece)
  | [] => none
  | '"' :: rest => some ([], rest)
  | '\\' :: 'u' :: a :: b :: c :: d :: rest => do
    let n ← unitOf? a b c d
    let (ps, after) ← pieces? rest
    some (.unit n :: ps, after)
  | '\\' :: c :: rest => do
    let e ← escaped? c
    let (ps, after) ← pieces? rest
    some (.char e :: ps, after)
  | c :: rest =>
    if c.toNat < 32 || c = '\\' then none
    else do
      let (ps, after) ← pieces? rest
      some (.char c :: ps, after)

/-- Whether a unit opens a surrogate pair. -/
def isHigh (n : Nat) : Bool := 0xd800 ≤ n && n ≤ 0xdbff

/-- Whether a unit closes a surrogate pair. -/
def isLow (n : Nat) : Bool := 0xdc00 ≤ n && n ≤ 0xdfff

/-- The characters that the pieces name; `none` if half of a surrogate pair stands alone. -/
def joinPieces? : List Piece → Option (List Char)
  | [] => some []
  | .char c :: ps => (joinPieces? ps).map (c :: ·)
  | [.unit n] => if isHigh n || isLow n then none else some [Char.ofNat n]
  | .unit n :: .unit m :: ps =>
    if isHigh n && isLow m then
      (joinPieces? ps).map (Char.ofNat (0x10000 + (n - 0xd800) * 0x400 + (m - 0xdc00)) :: ·)
    else if isHigh n || isLow n then none
    else (joinPieces? (.unit m :: ps)).map (Char.ofNat n :: ·)
  | .unit n :: .char c :: ps =>
    if isHigh n || isLow n then none
    else (joinPieces? ps).map (Char.ofNat n :: c :: ·)

/-- A string. -/
def string? : Reading String := fun cs => do
  let (ps, rest) ← pieces? (← expect? '"' cs)
  some (String.ofList (← joinPieces? ps), rest)

/-- A size: a natural number of 64 bits, without point or exponent. -/
def size? : Reading Nat := fun cs =>
  let cs := skipSpace cs
  let digits := cs.takeWhile Decimal.isDigit
  let rest := cs.dropWhile Decimal.isDigit
  let n := Decimal.ofDigits digits
  if digits.isEmpty || (digits.head? == some '0' && 1 < digits.length) then none
  else if rest.head?.any (fun c => c == '.' || c == 'e' || c == 'E') then none
  else if n < UInt64.size then some (n, rest)
  else none

/-- A value that may be `null`. -/
def orNull? {α : Type} (value : Reading α) : Reading (Option α) := fun cs =>
  match skipSpace cs with
  | 'n' :: rest => (word? "ull" rest).map (none, ·)
  | rest => (value rest).map fun (a, after) => (some a, after)

/-- The text after a number. -/
def skipNumber? (cs : List Char) : Option (List Char) :=
  let cs := match cs with
    | '-' :: rest => rest
    | rest => rest
  let whole := cs.takeWhile Decimal.isDigit
  let afterWhole := cs.dropWhile Decimal.isDigit
  if whole.isEmpty || (whole.head? == some '0' && 1 < whole.length) then none
  else do
    let afterFraction ← match afterWhole with
      | '.' :: rest =>
        if (rest.takeWhile Decimal.isDigit).isEmpty then none
        else some (rest.dropWhile Decimal.isDigit)
      | rest => some rest
    match afterFraction with
    | mark :: rest =>
      if mark = 'e' || mark = 'E' then
        let digits := match rest with
          | '+' :: ds => ds
          | '-' :: ds => ds
          | ds => ds
        if (digits.takeWhile Decimal.isDigit).isEmpty then none
        else some (digits.dropWhile Decimal.isDigit)
      else some (mark :: rest)
    | [] => some []

mutual

/-- The text after a value nested at most `depth` deep. -/
def skipValue? : (depth : Nat) → List Char → Option (List Char)
  | 0, _ => none
  | depth + 1, cs =>
    match skipSpace cs with
    | '\x7b' :: rest =>
      match skipSpace rest with
      | '\x7d' :: after => some after
      | members => skipMembers? depth members
    | '[' :: rest =>
      match skipSpace rest with
      | ']' :: after => some after
      | items => skipItems? depth items
    | '"' :: rest => (pieces? rest).map (·.2)
    | 't' :: rest => word? "rue" rest
    | 'f' :: rest => word? "alse" rest
    | 'n' :: rest => word? "ull" rest
    | rest => skipNumber? rest

/-- The text after the rest of an object. -/
def skipMembers? : (depth : Nat) → List Char → Option (List Char)
  | 0, _ => none
  | depth + 1, cs => do
    let (_, afterName) ← pieces? (← expect? '"' cs)
    let afterValue ← skipValue? depth (← expect? ':' afterName)
    match skipSpace afterValue with
    | ',' :: rest => skipMembers? depth rest
    | '\x7d' :: rest => some rest
    | _ => none

/-- The text after the rest of an array. -/
def skipItems? : (depth : Nat) → List Char → Option (List Char)
  | 0, _ => none
  | depth + 1, cs => do
    match skipSpace (← skipValue? depth cs) with
    | ',' :: rest => skipItems? depth rest
    | ']' :: rest => some rest
    | _ => none

end

/-- Passes over a value. Every level of nesting takes a character, so the length of the text
bounds the depth. -/
def skip? : Reading Unit := fun cs => (skipValue? (cs.length + 1) cs).map ((), ·)

/-- What follows an item: a comma and the items after it, or the end. -/
def goOn {σ : Type} (close : Char) (next : Reading σ) (made : σ) : Reading σ := fun cs =>
  match skipSpace cs with
  | c :: rest => if c = ',' then next rest else if c = close then some (made, rest) else none
  | [] => none

/-- The rest of an object of at most `count` members, each added to what the earlier ones
made. -/
def objectMembers? {σ : Type} (member : σ → String → Reading σ) : (count : Nat) → σ → Reading σ
  | 0, _, _ => none
  | count + 1, made, cs => do
    let (name, afterName) ← string? cs
    let (made, afterValue) ← member made name (← expect? ':' afterName)
    goOn '\x7d' (objectMembers? member count made) made afterValue

/-- An object after its opening brace, member by member. -/
def object? {σ : Type} (member : σ → String → Reading σ) (start : σ) : Reading σ := fun cs =>
  match skipSpace cs with
  | '\x7d' :: rest => some (start, rest)
  | rest => objectMembers? member (rest.length + 1) start rest

/-- The elements of an array from number `index` on, each added to what the earlier ones
made. -/
def arrayItems? {σ : Type} (item : σ → Nat → Reading σ) :
    (count : Nat) → (index : Nat) → σ → Reading σ
  | 0, _, _, _ => none
  | count + 1, index, made, cs => do
    let (made, afterItem) ← item made index cs
    goOn ']' (arrayItems? item count (index + 1) made) made afterItem

/-- An array after its opening bracket, element by element. -/
def array? {σ : Type} (item : σ → Nat → Reading σ) (start : σ) : Reading σ := fun cs =>
  match skipSpace cs with
  | ']' :: rest => some (start, rest)
  | rest => arrayItems? item (rest.length + 1) 0 start rest

/-- A record: an object with named members, or an array of the members in order. -/
def record? {σ : Type} (member : σ → String → Reading σ) (item : σ → Nat → Reading σ) (start : σ) :
    Reading σ := fun cs =>
  match skipSpace cs with
  | '\x7b' :: rest => object? member start rest
  | '[' :: rest => array? item start rest
  | _ => none

/-- What a reader makes of a whole text; nothing but space may be left over. -/
def ofText? {α : Type} (value : Reading α) (text : String) : Option α :=
  match value text.toList with
  | some (a, rest) => if (skipSpace rest).isEmpty then some a else none
  | none => none

end Dispatch.Json
