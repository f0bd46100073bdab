import Dispatch.Proofs.Reader.Lookahead
import Dispatch.Proofs.Reader.KeptText
/-!
# Text in quotes

Between its quotes, a text in quotes is made of plain characters and of pairs: a backslash
with the quote or another backslash behind it (`Reader.Escaped`). Any list of characters has a
longest beginning of this form, and it is cut short by the closing quote, by a backslash
before another character, or by the end of the input (`Reader.exists_escaped`). The scan goes
over such a beginning pair by pair (`Reader.scanQuoted_append`), so what cuts it short decides
what is read (`Reader.readQuoted_quotedGrammar`). Every text can be written in this form, in
quotes of either kind.
-/
namespace Dispatch

namespace Reader
variable {quote : Char} {w value cs : List Char} {r : Reader}

/-- The characters `w` between two quotes stand for a value: each pair for its second
character, and every other character for itself. -/
inductive Escaped (quote : Char) : (w value : List Char) → Prop
  | nil : Escaped quote [] []
  | plain {c : Char} {w value : List Char} (notQuote : c ≠ quote) (notBackslash : c ≠ '\\')
    (rest : Escaped quote w value) : Escaped quote (c :: w) (c :: value)
  | pair {c : Char} {w value : List Char} (escapable : c = quote ∨ c = '\\')
    (rest : Escaped quote w value) : Escaped quote ('\\' :: c :: w) (c :: value)

/-- A value written between quotes: a backslash comes before every quote and every
backslash. -/
def escape (quote : Char) : List Char → List Char
  | [] => []
  | c :: value =>
    if c = quote ∨ c = '\\' then '\\' :: c :: escape quote value else c :: escape quote value

theorem escaped_escape (quote : Char) (value : List Char) :
    Escaped quote (escape quote value) value := by
  induction value with
  | nil => exact .nil
  | cons c value ih =>
    rw [escape]
    split
    · next escapable => exact .pair escapable ih
    · next plain =>
      rw [not_or] at plain
      exact .plain plain.1 plain.2 ih

/-- The characters start with a text in quotes that stands for `value`; `tail` follows it. -/
structure Encloses (cs : List Char) (quote : Char) (w value tail : List Char) : Prop where
  opens : isQuote quote = true
  ahead : cs = quote :: (w ++ quote :: tail)
  escaped : Escaped quote w value

/-- The characters start with a quote, and before it is closed a backslash stands before a character
`c` that must not be escaped. -/
structure Misescapes (cs : List Char) (quote : Char) (w : List Char) (c : Char)
    (tail : List Char) : Prop where
  opens : isQuote quote = true
  ahead : cs = quote :: (w ++ '\\' :: c :: tail)
  escaped : ∃ value, Escaped quote w value
  refused : ¬(c = quote ∨ c = '\\')

/-! ## The scan -/

/-- What cuts the text between quotes short. -/
inductive CutShort (quote : Char) : List Char → Prop
  | closing (tail : List Char) : CutShort quote (quote :: tail)
  | badEscape {c : Char} (refused : ¬(c = quote ∨ c = '\\')) (tail : List Char) :
    CutShort quote ('\\' :: c :: tail)
  | ended : CutShort quote []
  | lone : CutShort quote ['\\']

theorem exists_escaped (quote : Char) (cs : List Char) :
    ∃ w value rest, cs = w ++ rest ∧ Escaped quote w value ∧ CutShort quote rest := by
  fun_induction scanQuoted quote cs with
  | case1 => exact ⟨[], [], [], rfl, .nil, .ended⟩
  | case2 => exact ⟨[], [], ['\\'], rfl, .nil, .lone⟩
  | case3 c cs escapable ih =>
    obtain ⟨w, value, rest, rfl, hescaped, hcut⟩ := ih
    exact ⟨_, _, rest, rfl, .pair escapable hescaped, hcut⟩
  | case4 c cs refused => exact ⟨[], [], _, rfl, .nil, .badEscape refused cs⟩
  | case5 cs lone escape => exact ⟨[], [], _, rfl, .nil, .closing cs⟩
  | case6 c cs lone escape notQuote ih =>
    obtain ⟨w, value, rest, rfl, hescaped, hcut⟩ := ih
    exact ⟨_, _, rest, rfl, .plain notQuote (ne_backslash lone escape) hescaped, hcut⟩

@[simp] theorem Quoted.after_nil (scanned : Quoted) : scanned.after [] [] = scanned := by
  cases scanned <;> rfl

theorem Quoted.after_after (scanned : Quoted) (v t v' t' : List Char) :
    (scanned.after v t).after v' t' = scanned.after (v' ++ v) (t' ++ t) := by
  cases scanned <;> simp [after]

/-- The scan goes over characters that stand for a value, and adds the value. -/
theorem scanQuoted_append (h : Escaped quote w value) (rest : List Char) :
    scanQuoted quote (w ++ rest) = (scanQuoted quote rest).after value w := by
  induction h with
  | nil => simp
  | plain notQuote notBackslash _ ih =>
    rw [List.cons_append, scanQuoted_cons_of_ne notBackslash, if_neg notQuote, ih,
      Quoted.after_after]
    rfl
  | pair escapable _ ih =>
    rw [List.cons_append, List.cons_append, scanQuoted, if_pos escapable, ih, Quoted.after_after]
    rfl

theorem ne_backslash_of_isQuote (h : isQuote quote = true) : quote ≠ '\\' := by
  rintro rfl
  exact absurd h (by decide)

/-! ## Reading -/

theorem readQuoted_of_isQuote {rest : List Char} (h : r.rest? = some (quote :: rest))
    (opens : isQuote quote = true) : r.readQuoted =
      match scanQuoted quote rest with
      | .closed value taken => (.ok (String.ofList value), r.advance (quote :: taken))
      | .badEscape c taken =>
        (r.advance (quote :: taken)).reject .invalidEscape [("character", c.toString)]
      | .unclosed taken => (r.advance (quote :: taken)).reject .unclosedQuote [] := by
  have hbehind : (r.advance [quote]).rest? = some rest :=
    rest?_advance (show r.rest? = some ([quote] ++ rest) from h)
  have hread : r.readQuoted = (r.advance [quote]).readUntil quote := by
    rw [readQuoted, withRest_of_rest? h]
    exact if_pos opens
  rw [hread, readUntil, withRest_of_rest? hbehind]
  cases scanQuoted quote rest <;> simp only [advance_advance, List.singleton_append]

theorem readQuoted_of_encloses {tail : List Char} (ahead : r.rest? = some cs)
    (h : Encloses cs quote w value tail) :
    r.readQuoted = (.ok (String.ofList value), r.advance (quote :: (w ++ [quote]))) := by
  obtain ⟨opens, rfl, escaped⟩ := h
  rw [readQuoted_of_isQuote ahead opens, scanQuoted_append escaped,
    scanQuoted_cons_of_ne (ne_backslash_of_isQuote opens), if_pos rfl]
  simp [Quoted.after]

theorem readQuoted_of_misescapes {c : Char} {tail : List Char} (ahead : r.rest? = some cs)
    (h : Misescapes cs quote w c tail) : r.readQuoted =
      (r.advance (quote :: (w ++ ['\\']))).reject .invalidEscape [("character", c.toString)] := by
  obtain ⟨opens, rfl, ⟨value, escaped⟩, refused⟩ := h
  rw [readQuoted_of_isQuote ahead opens, scanQuoted_append escaped, scanQuoted, if_neg refused]
  rfl

/-- The characters behind an opening quote up to the end of the input, perhaps with a
backslash as the last one. -/
theorem readQuoted_of_unclosed {rest : List Char} (ahead : r.rest? = some (quote :: (w ++ rest)))
    (opens : isQuote quote = true) (escaped : Escaped quote w value)
    (hrest : rest = [] ∨ rest = ['\\']) :
    r.readQuoted = (r.advance (quote :: (w ++ rest))).reject .unclosedQuote [] := by
  have hscan : scanQuoted quote rest = .unclosed rest := by
    rcases hrest with rfl | rfl <;> rfl
  rw [readQuoted_of_isQuote ahead opens, scanQuoted_append escaped, hscan]
  rfl

theorem readQuoted_of_not_isQuote {c : Char} {rest : List Char} (ahead : r.rest? = some (c :: rest))
    (bare : isQuote c = false) : r.readQuoted = r.reject .expectedOpeningQuote [] := by
  simp only [readQuoted, withRest_of_rest? ahead, bare, Bool.false_eq_true, if_false]

/-- What is opened is closed, or has a character in it that must not be escaped, or is not
closed. -/
theorem opened_cases (opens : isQuote quote = true) (cs : List Char) :
    (∃ w value tail, Encloses (quote :: cs) quote w value tail) ∨
    (∃ w c tail, Misescapes (quote :: cs) quote w c tail) ∨
    ∃ w value rest, cs = w ++ rest ∧ Escaped quote w value ∧ (rest = [] ∨ rest = ['\\']) := by
  obtain ⟨w, value, rest, rfl, escaped, cut⟩ := exists_escaped quote cs
  cases cut with
  | closing tail => exact .inl ⟨w, value, tail, opens, rfl, escaped⟩
  | badEscape refused tail => exact .inr (.inl ⟨w, _, tail, opens, rfl, ⟨value, escaped⟩, refused⟩)
  | ended => exact .inr (.inr ⟨w, value, [], rfl, escaped, .inl rfl⟩)
  | lone => exact .inr (.inr ⟨w, value, _, rfl, escaped, .inr rfl⟩)

/-- What reading a string in quotes comes to, where the characters `cs` are ahead. -/
structure QuotedGrammar (r : Reader) (cs : List Char) : Prop where
  /-- A value is read exactly from a text in quotes that stands for it, and the reader stops
  behind the closing quote. -/
  value_iff : ∀ value moved, r.readQuoted = (.ok value, moved) ↔ ∃ quote w tail,
    Encloses cs quote w value.toList tail ∧ moved = r.advance (quote :: (w ++ [quote]))
  /-- Anything but a quote in front is refused where it stands. -/
  unopened : (∀ c ∈ cs.head?, isQuote c = false) → r.Refuses "CMD1007" [] r.readQuoted
  /-- A character that must not be escaped is refused where it stands. -/
  misescaped : ∀ quote w c tail, Misescapes cs quote w c tail →
    (r.advance (quote :: (w ++ ['\\']))).Refuses "CMD1009" [("character", c.toString)] r.readQuoted
  /-- If neither comes, what is opened is refused at the end of the input. -/
  unclosed : (∃ c ∈ cs.head?, isQuote c = true) →
    (∀ quote w value tail, ¬Encloses cs quote w value tail) →
      (∀ quote w c tail, ¬Misescapes cs quote w c tail) →
        (r.advance cs).Refuses "CMD1008" [] r.readQuoted
  /-- A text that is written in quotes is read back. -/
  written : ∀ (text : String) quote tail, isQuote quote = true →
    cs = quote :: (escape quote text.toList ++ quote :: tail) →
      r.readQuoted = (.ok text, r.advance (quote :: (escape quote text.toList ++ [quote])))

/-- Strings in quotes have this grammar wherever something is ahead. -/
theorem readQuoted_quotedGrammar (ahead : r.rest? = some cs) (nonempty : cs ≠ []) :
    r.QuotedGrammar cs := by
  obtain ⟨first, rest, rfl⟩ := List.exists_cons_of_ne_nil nonempty
  constructor
  case value_iff =>
    intro value moved
    constructor
    · intro hread
      by_cases opens : isQuote first = true
      · rcases opened_cases opens rest with
          ⟨w, read, tail, h⟩ | ⟨w, c, tail, h⟩ | ⟨w, read, stop, rfl, escaped, hstop⟩
        · rw [readQuoted_of_encloses ahead h] at hread
          obtain ⟨hok, rfl⟩ := Prod.mk.inj hread
          obtain rfl := Except.ok.inj hok
          exact ⟨first, w, tail, by rwa [String.toList_ofList], rfl⟩
        · simp [readQuoted_of_misescapes ahead h, reject] at hread
        · simp [readQuoted_of_unclosed ahead opens escaped hstop, reject] at hread
      · simp [readQuoted_of_not_isQuote ahead (Bool.eq_false_iff.2 opens), reject] at hread
    · rintro ⟨quote, w, tail, h, rfl⟩
      rw [readQuoted_of_encloses ahead h, String.ofList_toList]
  case unopened =>
    intro bare
    exact ⟨.expectedOpeningQuote, rfl, readQuoted_of_not_isQuote ahead (bare first rfl)⟩
  case misescaped =>
    intro quote w c tail h
    exact ⟨.invalidEscape, rfl, readQuoted_of_misescapes ahead h⟩
  case unclosed =>
    rintro ⟨quote, ⟨⟩, opens⟩ hencloses hmisescapes
    rcases opened_cases opens rest with
      ⟨w, value, tail, h⟩ | ⟨w, c, tail, h⟩ | ⟨w, value, stop, rfl, escaped, hstop⟩
    · exact absurd h (hencloses first w value tail)
    · exact absurd h (hmisescapes first w c tail)
    · exact ⟨.unclosedQuote, rfl, readQuoted_of_unclosed ahead opens escaped hstop⟩
  case written =>
    intro text quote tail opens hcs
    have h : Encloses (first :: rest) quote (escape quote text.toList) text.toList tail :=
      ⟨opens, hcs, escaped_escape quote text.toList⟩
    rw [readQuoted_of_encloses ahead h, String.ofList_toList]

/-- An escaped quote is read as part of the value, an escaped `n` is refused where it stands,
and so is a text without quotes. -/
theorem quotedGrammar_samples :
    (ofString "\"é\\\"\" b").readQuoted = (.ok "é\"", ⟨"\"é\\\"\" b", 6⟩) ∧
    (⟨"'a\\nb'", 3⟩ : Reader).Refuses "CMD1009" [("character", "n")]
      (ofString "'a\\nb'").readQuoted ∧
    (ofString "a'b'").Refuses "CMD1007" [] (ofString "a'b'").readQuoted := by
  have escaped : Escaped '\'' ['a'] ['a'] := .plain (by decide) (by decide) .nil
  refine ⟨?_, ?_, ?_⟩
  · exact (readQuoted_quotedGrammar (rest?_ofString "\"é\\\"\" b") (by decide)).written "é\"" '"'
      [' ', 'b'] rfl rfl
  · exact (readQuoted_quotedGrammar (rest?_ofString "'a\\nb'") (by decide)).misescaped '\'' ['a']
      'n' ['b', '\''] ⟨rfl, rfl, ⟨_, escaped⟩, by decide⟩
  · exact (readQuoted_quotedGrammar (rest?_ofString "a'b'") (by decide)).unopened fun c hc => by
      obtain rfl := Option.some.inj hc
      rfl

end Reader
end Dispatch
