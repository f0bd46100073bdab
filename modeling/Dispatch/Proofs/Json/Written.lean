import Dispatch.Json.Document
import Dispatch.Json.Reading
/-!
# How values are written

The texts of a JSON value, as a grammar: tokens may have space between them, and a character
of a string may stand for itself or be escaped, by a letter, by the number of its unit, or by
those of a surrogate pair (`Json.Written`, `Json.IsTextOf`). The two printed forms are texts
of the value they print (`Json.isTextOf_compact`, `Json.isTextOf_pretty`).
-/
namespace Dispatch.Json

variable {α : Type}

/-! ## Strings -/

/-- A hexadecimal digit in either case, and its value. -/
inductive HexDigit : Char → Nat → Prop
  | decimal {d : Nat} (h : d < 10) : HexDigit (Char.ofNat (48 + d)) d
  | lower {d : Nat} (hten : 10 ≤ d) (h : d < 16) : HexDigit (Char.ofNat (87 + d)) d
  | upper {d : Nat} (hten : 10 ≤ d) (h : d < 16) : HexDigit (Char.ofNat (55 + d)) d

/-- A backslash, a `u` and the four digits of a sixteen-bit unit. -/
inductive UnitText : Nat → List Char → Prop
  | digits {a b c d : Char} {u v w x : Nat} (ha : HexDigit a u) (hb : HexDigit b v)
    (hc : HexDigit c w) (hd : HexDigit d x) :
    UnitText (((u * 16 + v) * 16 + w) * 16 + x) ['\\', 'u', a, b, c, d]

/-- The letters that stand behind a backslash for a character. -/
def letters : List (Char × Char) :=
  [('"', '"'), ('\\', '\\'), ('/', '/'), ('n', '\n'), ('r', '\r'), ('t', '\t'), ('b', '\x08'),
    ('f', '\x0c')]

/-- How a character may stand between quotes. -/
inductive CharText : Char → List Char → Prop
  | plain {c : Char} (control : 32 ≤ c.toNat) (quote : c ≠ '"') (backslash : c ≠ '\\') :
    CharText c [c]
  | letter {l c : Char} (h : (l, c) ∈ letters) : CharText c ['\\', l]
  | unit {c : Char} {text : List Char} (h : UnitText c.toNat text) : CharText c text
  | pair {c : Char} {high low : Nat} {first second : List Char} (hfirst : UnitText high first)
    (hsecond : UnitText low second) (hhigh : 0xd800 ≤ high ∧ high < 0xdc00)
    (hlow : 0xdc00 ≤ low ∧ low < 0xe000)
    (code : c.toNat = 0x10000 + (high - 0xd800) * 0x400 + (low - 0xdc00)) :
    CharText c (first ++ second)

/-- How characters may stand between quotes, one after the other. -/
inductive CharsText : List Char → List Char → Prop
  | nil : CharsText [] []
  | cons {c : Char} {cs text rest : List Char} (head : CharText c text) (tail : CharsText cs rest) :
    CharsText (c :: cs) (text ++ rest)

/-- How a string may be written. -/
inductive StringText : String → List Char → Prop
  | quoted {s : String} {inside : List Char} (h : CharsText s.toList inside) :
    StringText s ('"' :: (inside ++ ['"']))

/-! ## Values -/

/-- Characters that may stand between tokens. -/
def IsSpaces (cs : List Char) : Prop := ∀ c ∈ cs, isSpace c = true

/-- Items with commas between them and space around each; there is at least one. -/
inductive Separated (written : α → List Char → Prop) : List α → List Char → Prop
  | single {a : α} {before text after : List Char} (hbefore : IsSpaces before) (h : written a text)
    (hafter : IsSpaces after) : Separated written [a] (before ++ (text ++ after))
  | cons {a : α} {as : List α} {before text after rest : List Char} (hbefore : IsSpaces before)
    (h : written a text) (hafter : IsSpaces after) (hrest : Separated written as rest) :
    Separated written (a :: as) (before ++ (text ++ (after ++ ',' :: rest)))

/-- How a member may be written: its name, a colon and its value. -/
inductive MemberText (written : Json → List Char → Prop) : String × Json → List Char → Prop
  | named {name : String} {value : Json} {nameText before after text : List Char}
    (hname : StringText name nameText) (hbefore : IsSpaces before) (hafter : IsSpaces after)
    (h : written value text) :
    MemberText written (name, value) (nameText ++ (before ++ ':' :: (after ++ text)))

/-- How a value may be written. -/
inductive Written : Json → List Char → Prop
  | null : Written null "null".toList
  | bool (b : Bool) : Written (bool b) (scalarChars (bool b))
  | number (n : Int) : Written (number n) (Decimal.intText n).toList
  | string {s : String} {text : List Char} (h : StringText s text) : Written (string s) text
  | emptyArray {space : List Char} (h : IsSpaces space) :
    Written (array []) ('[' :: (space ++ [']']))
  | array {items : List Json} {text : List Char} (h : Separated Written items text) :
    Written (array items) ('[' :: (text ++ [']']))
  | emptyObject {space : List Char} (h : IsSpaces space) :
    Written (object []) ('\x7b' :: (space ++ ['\x7d']))
  | object {fields : List (String × Json)} {text : List Char}
    (h : Separated (MemberText Written) fields text) :
    Written (object fields) ('\x7b' :: (text ++ ['\x7d']))

/-- A text of a value, with any space around it. -/
def IsTextOf (json : Json) (text : String) : Prop :=
  ∃ before written after, text.toList = before ++ (written ++ after) ∧ IsSpaces before ∧
    json.Written written ∧ IsSpaces after

theorem isSpaces_nil : IsSpaces [] := by
  simp [IsSpaces]

/-! ## Printed strings -/

theorem hexDigit_hexDigit {d : Nat} (h : d < 16) : HexDigit (hexDigit d) d := by
  rw [hexDigit]
  split
  · next hten => exact .decimal hten
  · next hten => exact .lower (Nat.le_of_not_lt hten) h

/-- A control character is written by its number, unless it has a letter. -/
theorem charText_escapeChar (c : Char) : CharText c (escapeChar c) := by
  have hletter : ∀ {l d : Char}, (l, d) ∈ letters → c = d → CharText c ['\\', l] :=
    fun hmem heq => heq ▸ .letter hmem
  rw [escapeChar]
  split
  · next hc => exact hletter (by decide) hc
  next quote =>
  split
  · next hc => exact hletter (by decide) hc
  next backslash =>
  split
  · next hc => exact hletter (by decide) hc
  split
  · next hc => exact hletter (by decide) hc
  split
  · next hc => exact hletter (by decide) hc
  split
  · next hc => exact hletter (by decide) hc
  split
  · next hc => exact hletter (by decide) hc
  split
  · next control =>
    have hzero : HexDigit '0' 0 := hexDigit_hexDigit (d := 0) (by decide)
    have hunit := UnitText.digits hzero hzero (hexDigit_hexDigit (d := c.toNat / 16) (by omega))
      (hexDigit_hexDigit (d := c.toNat % 16) (by omega))
    have hvalue : ((0 * 16 + 0) * 16 + c.toNat / 16) * 16 + c.toNat % 16 = c.toNat := by omega
    rw [hvalue] at hunit
    exact .unit hunit
  · next control => exact .plain (Nat.le_of_not_lt control) quote backslash

theorem charsText_flatMap (cs : List Char) : CharsText cs (cs.flatMap escapeChar) := by
  induction cs with
  | nil => exact .nil
  | cons c cs ih => exact .cons (charText_escapeChar c) ih

theorem stringText_quote (s : String) : StringText s (quote s) := .quoted (charsText_flatMap _)

/-! ## Printed values -/

theorem Separated.singleton {written : α → List Char → Prop} {a : α} {text : List Char}
    (h : written a text) : Separated written [a] text := by
  simpa using Separated.single isSpaces_nil h isSpaces_nil

theorem Separated.comma {written : α → List Char → Prop} {a : α} {as : List α}
    {text rest : List Char} (h : written a text) (hrest : Separated written as rest) :
    Separated written (a :: as) (text ++ ',' :: rest) := by
  simpa using Separated.cons isSpaces_nil h isSpaces_nil hrest

mutual

/-- What is printed on one line is a way to write the value. -/
theorem written_compactChars : ∀ json : Json, Written json json.compactChars
  | .null => .null
  | .bool b => by simpa [compactChars] using Written.bool b
  | .number n => by simpa [compactChars, scalarChars] using Written.number n
  | .string s => by simpa [compactChars, scalarChars] using Written.string (stringText_quote s)
  | .array [] => by simpa [compactChars, compactItems] using Written.emptyArray isSpaces_nil
  | .array (item :: rest) => by
    simpa [compactChars] using Written.array (separated_compactItems (item :: rest) (by simp))
  | .object [] => by simpa [compactChars, compactMembers] using Written.emptyObject isSpaces_nil
  | .object (field :: rest) => by
    simpa [compactChars] using Written.object (separated_compactMembers (field :: rest) (by simp))

theorem separated_compactItems :
    ∀ items : List Json, items ≠ [] → Separated Written items (compactItems items)
  | [], h => absurd rfl h
  | [item], _ => by simpa [compactItems] using Separated.singleton (written_compactChars item)
  | item :: next :: rest, _ => by
    have hrest := separated_compactItems (next :: rest) (by simp)
    simpa [compactItems] using Separated.comma (written_compactChars item) hrest

theorem separated_compactMembers : ∀ fields : List (String × Json), fields ≠ [] →
    Separated (MemberText Written) fields (compactMembers fields)
  | [], h => absurd rfl h
  | [(name, value)], _ => by
    have hmember := MemberText.named (stringText_quote name) isSpaces_nil isSpaces_nil
      (written_compactChars value)
    simpa [compactMembers] using Separated.singleton hmember
  | (name, value) :: next :: rest, _ => by
    have hmember := MemberText.named (stringText_quote name) isSpaces_nil isSpaces_nil
      (written_compactChars value)
    have hrest := separated_compactMembers (next :: rest) (by simp)
    simpa [compactMembers] using Separated.comma hmember hrest

end

theorem isSpaces_newLine (level : Nat) : IsSpaces (newLine level) := by
  intro c hc
  rcases List.mem_cons.1 hc with rfl | hc
  · rfl
  · rw [List.eq_of_mem_replicate hc]
    rfl

theorem isSpaces_space : IsSpaces [' '] := by
  simp [IsSpaces, isSpace]

/-! What follows the first item of an array or an object is printed with a comma in front, so
without this comma it is again a sequence of items. -/

mutual

/-- What is printed over several lines is a way to write the value. -/
theorem written_prettyChars : ∀ (level : Nat) (json : Json), Written json (json.prettyChars level)
  | _, .null => .null
  | _, .bool b => by simpa [prettyChars] using Written.bool b
  | _, .number n => by simpa [prettyChars, scalarChars] using Written.number n
  | _, .string s => by simpa [prettyChars, scalarChars] using Written.string (stringText_quote s)
  | _, .array [] => by simpa [prettyChars] using Written.emptyArray isSpaces_nil
  | level, .array (item :: rest) => by
    have hitems := separated_prettyItems level (item :: rest) (by simp)
    simpa [prettyChars, prettyItems] using Written.array hitems
  | _, .object [] => by simpa [prettyChars] using Written.emptyObject isSpaces_nil
  | level, .object ((name, value) :: rest) => by
    have hfields := separated_prettyMembers level ((name, value) :: rest) (by simp)
    simpa [prettyChars, prettyMembers] using Written.object hfields

theorem separated_prettyItems : ∀ (level : Nat) (items : List Json), items ≠ [] →
    Separated Written items ((prettyItems level items).tail ++ newLine level)
  | _, [], h => absurd rfl h
  | level, [item], _ => by
    have hitem := written_prettyChars (level + 1) item
    simpa [prettyItems] using
      Separated.single (isSpaces_newLine (level + 1)) hitem (isSpaces_newLine level)
  | level, item :: next :: rest, _ => by
    have hitem := written_prettyChars (level + 1) item
    have hrest := separated_prettyItems level (next :: rest) (by simp)
    simpa [prettyItems] using
      Separated.cons (isSpaces_newLine (level + 1)) hitem isSpaces_nil hrest

theorem separated_prettyMembers : ∀ (level : Nat) (fields : List (String × Json)), fields ≠ [] →
    Separated (MemberText Written) fields ((prettyMembers level fields).tail ++ newLine level)
  | _, [], h => absurd rfl h
  | level, [(name, value)], _ => by
    have hmember := MemberText.named (stringText_quote name) isSpaces_nil isSpaces_space
      (written_prettyChars (level + 1) value)
    simpa [prettyMembers] using
      Separated.single (isSpaces_newLine (level + 1)) hmember (isSpaces_newLine level)
  | level, (name, value) :: next :: rest, _ => by
    have hmember := MemberText.named (stringText_quote name) isSpaces_nil isSpaces_space
      (written_prettyChars (level + 1) value)
    have hrest := separated_prettyMembers level (next :: rest) (by simp)
    simpa [prettyMembers] using
      Separated.cons (isSpaces_newLine (level + 1)) hmember isSpaces_nil hrest

end

theorem isTextOf_of_written {json : Json} {written : List Char} (h : json.Written written) :
    json.IsTextOf (String.ofList written) :=
  ⟨[], written, [], by simp, isSpaces_nil, h, isSpaces_nil⟩

theorem isTextOf_compact (json : Json) : json.IsTextOf json.compact :=
  isTextOf_of_written json.written_compactChars

theorem isTextOf_pretty (json : Json) : json.IsTextOf json.pretty :=
  isTextOf_of_written (written_prettyChars 0 json)

end Dispatch.Json
