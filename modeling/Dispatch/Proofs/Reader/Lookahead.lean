import Dispatch.Argument.Standard
import Dispatch.Proofs.Text.Cut
/-!
# How far ahead a read looks

The reads that the parsers of the library are made of take a run of characters of some class,
or the text in quotes. No class has the separator, and the text in quotes ends at the quote,
so where such a read ends with a word it reads this word the same wherever it stands: at the
end of an input, or in front of any separator (`EndsWithWords`). Reading all that is left is
the only exception (`StandardParser.parse_endsWithWords`). It too does not look beyond a
separator in front of which it stops, since it stops in front of none
(`StandardParser.parse_looksNoFurther`).
-/
namespace Dispatch

variable {α β : Type}

/-- What follows a word: nothing, or a separator first. -/
def EndsWord (tail : List Char) : Prop := ∀ c ∈ tail.head?, c = separator

theorem endsWord_nil : EndsWord [] := by
  simp [EndsWord]

theorem endsWord_separator (tail : List Char) : EndsWord (separator :: tail) := by
  simp [EndsWord]

/-- Where a read stops at the end of the input or in front of a separator, it reads the same
wherever these characters are ahead with the end of the input or a separator behind them. -/
structure EndsWithWords (read : Reader → Scan α) : Prop where
  again : ∀ {r r' moved : Reader} {xs tail tail' : List Char} {value : α},
    r.rest? = some (xs ++ tail) → EndsWord tail → r'.rest? = some (xs ++ tail') →
      EndsWord tail' → read r = (.ok value, moved) →
        moved.cursor = r.cursor + Text.byteSize xs → read r' = (.ok value, r'.advance xs)

/-- Where a read stops in front of a separator, what is behind the separator does not matter
to it.
-/
structure LooksNoFurther (read : Reader → Scan α) : Prop where
  again : ∀ {r r' moved : Reader} {xs ys ys' : List Char} {value : α},
    r.rest? = some (xs ++ separator :: ys) → r'.rest? = some (xs ++ separator :: ys') →
      read r = (.ok value, moved) → moved.cursor = r.cursor + Text.byteSize xs →
        read r' = (.ok value, r'.advance xs)

theorem EndsWithWords.looksNoFurther {read : Reader → Scan α} (h : EndsWithWords read) :
    LooksNoFurther read :=
  ⟨fun hrest hrest' hread hstop =>
    h.again hrest (endsWord_separator _) hrest' (endsWord_separator _) hread hstop⟩

namespace Reader

theorem withRest_of_rest? {r : Reader} {cs : List Char} (h : r.rest? = some cs)
    (read : List Char → Scan α) : r.withRest read = read cs := by
  rw [withRest, h]

/-- A run of characters of a class without the separator ends with a word. -/
theorem takeWhile_of_endsWord {p : Char → Bool} (hp : p separator = false) (xs : List Char)
    {tail : List Char} (htail : EndsWord tail) : (xs ++ tail).takeWhile p = xs.takeWhile p := by
  induction xs with
  | nil =>
    cases tail with
    | nil => rfl
    | cons c cs => simp [htail c (by simp), hp]
  | cons x xs ih => simp only [List.cons_append, List.takeWhile_cons, ih]

/-- A run with the bytes of the whole text is the text. -/
theorem takeWhile_eq_self {p : Char → Bool} {xs : List Char}
    (h : Text.byteSize (xs.takeWhile p) = Text.byteSize xs) : xs.takeWhile p = xs := by
  have hsplit := xs.takeWhile_append_dropWhile (p := p)
  have hsize := congrArg Text.byteSize hsplit
  rw [Text.byteSize_append] at hsize
  have hnil : xs.dropWhile p = [] := Text.eq_nil_of_byteSize_eq_zero (by omega)
  rw [hnil, List.append_nil] at hsplit
  exact hsplit

/-- The word ahead ends in front of a separator. -/
theorem peekWord_of_separator {r : Reader} {xs ys : List Char}
    (h : r.rest? = some (xs ++ separator :: ys)) :
    r.peekWord.toList = xs.takeWhile (· != separator) := by
  have hclass : (separator != separator) = false := by decide
  rw [peekWord, rest_eq_of_rest? h, wordChars, String.toList_ofList,
    takeWhile_of_endsWord (p := fun c => c != separator) hclass xs (endsWord_separator ys)]

theorem readNumber_endsWithWords (value? : List Char → Option α) (missing invalid : Diagnostic) :
    EndsWithWords fun r => r.readNumber value? missing invalid := by
  refine ⟨fun {r r' moved xs tail tail' value} hrest htail hrest' htail' hread hstop => ?_⟩
  have hclass : isNumberChar separator = false := by decide
  simp only [readNumber, withRest_of_rest? hrest, takeWhile_of_endsWord hclass xs htail] at hread
  simp only [readNumber, withRest_of_rest? hrest', takeWhile_of_endsWord hclass xs htail']
  split at hread
  · simp [reject] at hread
  · next hsome =>
    rw [if_neg hsome]
    split at hread
    · next found hvalue =>
      obtain ⟨hok, rfl⟩ := Prod.mk.inj hread
      obtain rfl := Except.ok.inj hok
      have hall : xs.takeWhile isNumberChar = xs := by
        refine takeWhile_eq_self ?_
        simp only [advance] at hstop
        omega
      rw [hall]
    · simp [reject] at hread

theorem readWord_endsWithWords : EndsWithWords readWord := by
  refine ⟨fun {r r' moved xs tail tail' value} hrest htail hrest' htail' hread hstop => ?_⟩
  have hclass : isWordChar separator = false := by decide
  simp only [readWord, withRest_of_rest? hrest, takeWhile_of_endsWord hclass xs htail] at hread
  simp only [readWord, withRest_of_rest? hrest', takeWhile_of_endsWord hclass xs htail']
  obtain ⟨hok, rfl⟩ := Prod.mk.inj hread
  have hall : xs.takeWhile isWordChar = xs := by
    refine takeWhile_eq_self ?_
    simp only [advance] at hstop
    omega
  rw [hall] at hok ⊢
  rw [hok]

theorem scanQuoted_cons_of_ne {quote c : Char} (h : c ≠ '\\') (cs : List Char) :
    scanQuoted quote (c :: cs) =
      if c = quote then .closed [] [c] else (scanQuoted quote cs).after [c] [c] := by
  rw [scanQuoted]
  · rintro rfl
    exact absurd rfl h
  · rintro _ _ rfl
    exact absurd rfl h

theorem Quoted.after_eq_closed {value taken v t : List Char} {scanned : Quoted}
    (h : scanned.after v t = .closed value taken) :
    ∃ value' taken', scanned = .closed value' taken' ∧ value = v ++ value' ∧
      taken = t ++ taken' := by
  cases scanned with
  | closed value' taken' =>
    obtain ⟨rfl, rfl⟩ := Quoted.closed.inj h
    exact ⟨value', taken', rfl, rfl, rfl⟩
  | badEscape c taken' => simp [Quoted.after] at h
  | unclosed taken' => simp [Quoted.after] at h

theorem ne_backslash {c : Char} {cs : List Char} (lone : c = '\\' → cs = [] → False)
    (escape : ∀ d ds, c = '\\' → cs = d :: ds → False) : c ≠ '\\' := by
  intro hc
  cases cs with
  | nil => exact lone hc rfl
  | cons d ds => exact escape d ds hc rfl

/-- What is read up to a closing quote does not depend on what follows the quote. -/
theorem scanQuoted_closed {quote : Char} {cs value taken : List Char}
    (h : scanQuoted quote cs = .closed value taken) :
    ∃ rest, cs = taken ++ rest ∧
      ∀ rest', scanQuoted quote (taken ++ rest') = .closed value taken := by
  fun_induction scanQuoted quote cs generalizing value taken with
  | case1 => simp at h
  | case2 => simp at h
  | case3 c cs hescape ih =>
    obtain ⟨value', taken', hscan, rfl, rfl⟩ := Quoted.after_eq_closed h
    obtain ⟨rest, rfl, hrest⟩ := ih hscan
    refine ⟨rest, rfl, fun rest' => ?_⟩
    simp only [List.cons_append, List.nil_append]
    rw [scanQuoted, if_pos hescape, hrest rest']
    rfl
  | case4 c cs hescape => simp at h
  | case5 cs hlone hescape =>
    obtain ⟨rfl, rfl⟩ := Quoted.closed.inj h
    refine ⟨cs, rfl, fun rest' => ?_⟩
    rw [List.singleton_append, scanQuoted_cons_of_ne (ne_backslash hlone hescape), if_pos rfl]
  | case6 c cs hlone hescape hquote ih =>
    obtain ⟨value', taken', hscan, rfl, rfl⟩ := Quoted.after_eq_closed h
    obtain ⟨rest, rfl, hrest⟩ := ih hscan
    refine ⟨rest, rfl, fun rest' => ?_⟩
    simp only [List.cons_append, List.nil_append]
    rw [scanQuoted_cons_of_ne (ne_backslash hlone hescape), if_neg hquote, hrest rest']
    rfl

theorem readUntil_endsWithWords (quote : Char) : EndsWithWords fun r => r.readUntil quote := by
  refine ⟨fun {r r' moved xs tail tail' value} hrest _ hrest' _ hread hstop => ?_⟩
  simp only [readUntil, withRest_of_rest? hrest] at hread
  simp only [readUntil, withRest_of_rest? hrest']
  cases hscan : scanQuoted quote (xs ++ tail) with
  | closed text taken =>
    rw [hscan] at hread
    obtain ⟨hok, rfl⟩ := Prod.mk.inj hread
    obtain ⟨rest, hsplit, hagain⟩ := scanQuoted_closed hscan
    have hsize : Text.byteSize taken = Text.byteSize xs := by
      simp only [advance] at hstop
      omega
    obtain ⟨es, hes, -⟩ := Text.exists_append_of_byteSize_le hsplit.symm (Nat.le_of_eq hsize)
    obtain rfl : es = [] := by
      refine Text.eq_nil_of_byteSize_eq_zero ?_
      rw [hes, Text.byteSize_append] at hsize
      omega
    obtain rfl : xs = taken := by rw [hes, List.append_nil]
    simp only [hagain tail', hok]
  | badEscape c taken =>
    rw [hscan] at hread
    simp [reject] at hread
  | unclosed taken =>
    rw [hscan] at hread
    simp [reject] at hread

/-- Where no word is ahead, the empty string is read. -/
theorem readString_of_endsWord {r : Reader} {tail : List Char} (hrest : r.rest? = some tail)
    (htail : EndsWord tail) : r.readString = (.ok "", r.advance []) := by
  simp only [readString, withRest_of_rest? hrest]
  cases tail with
  | nil => rfl
  | cons c cs =>
    obtain rfl := htail c (by simp)
    have hquote : isQuote separator = false := by decide
    have hclass : isWordChar separator = false := by decide
    simp [hquote, readWord, withRest_of_rest? hrest, hclass]

/-- A quote in front is read first. -/
theorem readString_endsWithWords : EndsWithWords readString := by
  refine ⟨fun {r r' moved xs tail tail' value} hrest htail hrest' htail' hread hstop => ?_⟩
  cases xs with
  | nil =>
    rw [readString_of_endsWord hrest htail] at hread
    obtain ⟨hok, -⟩ := Prod.mk.inj hread
    rw [readString_of_endsWord hrest' htail', hok]
  | cons x xs =>
    simp only [readString, withRest_of_rest? hrest, List.cons_append] at hread
    simp only [readString, withRest_of_rest? hrest', List.cons_append]
    by_cases hquote : isQuote x = true
    · rw [if_pos hquote] at hread ⊢
      have hahead : r.rest? = some ([x] ++ (xs ++ tail)) := hrest
      have hahead' : r'.rest? = some ([x] ++ (xs ++ tail')) := hrest'
      have hsize : moved.cursor = (r.advance [x]).cursor + Text.byteSize xs := by
        simp only [advance, Text.byteSize_cons, Text.byteSize_nil] at hstop ⊢
        omega
      have hbehind := (readUntil_endsWithWords x).again (rest?_advance hahead) htail
        (rest?_advance hahead') htail' hread hsize
      simpa [advance, Nat.add_assoc] using hbehind
    · rw [if_neg hquote] at hread ⊢
      exact readWord_endsWithWords.again hrest htail hrest' htail' hread hstop

end Reader

/-- A read that only checks what another one has read: it delivers its value wherever that one
reads the same. If that one has moved, the character ahead may count too. -/
structure Checks (first : Reader → Scan α) (read : Reader → Scan β) : Prop where
  again : ∀ {r moved : Reader} {value : β}, read r = (.ok value, moved) →
    ∃ a, first r = (.ok a, moved) ∧ ∀ {r' moved' : Reader}, (moved ≠ r → r'.peek = r.peek) →
      first r' = (.ok a, moved') → read r' = (.ok value, moved')

/-- It ends with words if that one does. -/
theorem EndsWithWords.checked {first : Reader → Scan α} {read : Reader → Scan β}
    (h : EndsWithWords first) (checks : Checks first read) : EndsWithWords read := by
  refine ⟨fun {r r' moved xs tail tail' value} hrest htail hrest' htail' hread hstop => ?_⟩
  obtain ⟨a, hfirst, hagain⟩ := checks.again hread
  have hmoved : moved = r.advance xs :=
    (Prod.mk.inj (hfirst.symm.trans (h.again hrest htail hrest htail hfirst hstop))).2
  refine hagain (fun hne => ?_) (h.again hrest htail hrest' htail' hfirst hstop)
  rw [Reader.peek, Reader.peek, Reader.rest_eq_of_rest? hrest, Reader.rest_eq_of_rest? hrest']
  cases xs with
  | nil => exact absurd hmoved hne
  | cons x xs => rfl

theorem Reader.readBool_checks : Checks readString readBool := by
  refine ⟨fun {r moved value} hread => ?_⟩
  simp only [readBool] at hread
  split at hread
  · simp at hread
  · next text after hfirst =>
    split at hread
    · simp [reject] at hread
    · next hsome =>
      split at hread
      · next htrue =>
        obtain ⟨rfl, rfl⟩ : true = value ∧ after = moved := by simpa using hread
        exact ⟨text, hfirst, fun _ hagain => by simp [readBool, hagain, htrue]⟩
      · next htrue =>
        split at hread
        · next hfalse =>
          obtain ⟨rfl, rfl⟩ : false = value ∧ after = moved := by simpa using hread
          exact ⟨text, hfirst, fun _ hagain => by simp [readBool, hagain, hfalse]⟩
        · simp [reject] at hread

/-- A string in quotes has the quotes at least. -/
theorem Reader.ne_of_readString {r moved : Reader} {text : String}
    (hread : r.readString = (.ok text, moved)) (hquote : r.peek.any isQuote = true) :
    moved ≠ r := by
  obtain ⟨c, hpeek, hc⟩ := (Option.any_eq_true _ _).1 hquote
  obtain ⟨cs, hrest⟩ := peek_eq_some_iff.1 hpeek
  have hpos := c.utf8Size_pos
  simp only [readString, withRest_of_rest? hrest, hc, if_true] at hread
  have hrest' : (r.advance [c]).rest? = some cs :=
    rest?_advance (show r.rest? = some ([c] ++ cs) from hrest)
  simp only [readUntil, withRest_of_rest? hrest'] at hread
  cases hscan : scanQuoted c cs with
  | closed value taken =>
    rw [hscan] at hread
    obtain ⟨-, rfl⟩ := Prod.mk.inj hread
    intro hsame
    have hcursor := congrArg Reader.cursor hsame
    simp only [advance, Text.byteSize_cons, Text.byteSize_nil] at hcursor
    omega
  | badEscape d taken =>
    rw [hscan] at hread
    simp [reject] at hread
  | unclosed taken =>
    rw [hscan] at hread
    simp [reject] at hread

namespace StandardParser

theorem bounded_checks (read : Reader → Scan α) (isLow isHigh : α → Bool) (low high : Diagnostic)
    (least greatest : String) (text : α → String) (value : α → Value) :
    Checks read fun r => bounded r (read r) isLow isHigh low high least greatest text value := by
  refine ⟨fun {r moved v} hread => ?_⟩
  simp only [bounded] at hread
  split at hread
  · simp at hread
  · next a after hfirst =>
    split at hread
    · simp [Reader.reject] at hread
    · next hlow =>
      split at hread
      · simp [Reader.reject] at hread
      · next hhigh =>
        obtain ⟨rfl, rfl⟩ : value a = v ∧ after = moved := by simpa using hread
        exact ⟨a, hfirst, fun _ hagain => by simp [bounded, hagain, hlow, hhigh]⟩

theorem word_checks : Checks Reader.readWord word.parse := by
  refine ⟨fun {r moved value} hread => ?_⟩
  simp only [parse] at hread
  split at hread
  · simp at hread
  · next text after hfirst =>
    split at hread
    · simp [rejectEmpty, Reader.reject] at hread
    · next hnonempty =>
      obtain ⟨rfl, rfl⟩ : Value.string text = value ∧ after = moved := by simpa using hread
      exact ⟨text, hfirst, fun _ hagain => by simp [parse, hagain, hnonempty]⟩

/-- Only the empty string needs a quote ahead. -/
theorem quotable_checks : Checks Reader.readString quotable.parse := by
  refine ⟨fun {r moved value} hread => ?_⟩
  simp only [parse] at hread
  split at hread
  · simp at hread
  · next text after hfirst =>
    split at hread
    · simp [rejectEmpty, Reader.reject] at hread
    · next hsome =>
      obtain ⟨rfl, rfl⟩ : Value.string text = value ∧ after = moved := by simpa using hread
      refine ⟨text, hfirst, fun {r' moved'} hpeek hagain => ?_⟩
      simp only [parse, hagain]
      refine if_neg fun hempty => hsome ?_
      simp only [Bool.and_eq_true, Bool.not_eq_true'] at hempty ⊢
      refine ⟨hempty.1, Bool.eq_false_iff.2 fun hquote => ?_⟩
      rw [hpeek (Reader.ne_of_readString hfirst hquote), hquote] at hempty
      exact Bool.false_ne_true hempty.2.symm

theorem bool_checks : Checks Reader.readBool bool.parse := by
  refine ⟨fun {r moved value} hread => ?_⟩
  simp only [parse] at hread
  split at hread
  · simp at hread
  · next b after hfirst =>
    obtain ⟨rfl, rfl⟩ : Value.bool b = value ∧ after = moved := by simpa using hread
    exact ⟨b, hfirst, fun _ hagain => by simp [parse, hagain]⟩

theorem choice_checks (choices : List String) : Checks Reader.readWord (choice choices).parse := by
  refine ⟨fun {r moved value} hread => ?_⟩
  simp only [parse] at hread
  split at hread
  · simp at hread
  · next text after hfirst =>
    split at hread
    · next hchoice =>
      obtain ⟨rfl, rfl⟩ : Value.string text = value ∧ after = moved := by simpa using hread
      refine ⟨text, hfirst, fun _ hagain => ?_⟩
      simp only [parse, hagain]
      exact if_pos hchoice
    · simp [Reader.reject] at hread

/-- The parsers of the library end with words, but for the one that reads all that is left. -/
theorem parse_endsWithWords {p : StandardParser} (hp : p ≠ .greedy) : EndsWithWords p.parse := by
  cases p with
  | word => exact Reader.readWord_endsWithWords.checked word_checks
  | quotable => exact Reader.readString_endsWithWords.checked quotable_checks
  | greedy => exact absurd rfl hp
  | integer least greatest => exact (Reader.readNumber_endsWithWords ..).checked (bounded_checks ..)
  | float least greatest => exact (Reader.readNumber_endsWithWords ..).checked (bounded_checks ..)
  | bool =>
    exact (Reader.readString_endsWithWords.checked Reader.readBool_checks).checked bool_checks
  | choice choices => exact Reader.readWord_endsWithWords.checked (choice_checks choices)

/-- The parsers of the library look no further than to a separator in front of which they
stop. -/
theorem parse_looksNoFurther (p : StandardParser) : LooksNoFurther p.parse := by
  by_cases hp : p = .greedy
  · -- All of the text ahead is more than what is in front of the separator.
    subst hp
    refine ⟨fun {r r' moved xs ys ys' value} hrest hrest' hread hstop => ?_⟩
    have hsize := Reader.byteSize_of_rest? hrest
    have hpos := separator.utf8Size_pos
    simp only [parse, Reader.withRest_of_rest? hrest] at hread
    split at hread
    · simp [rejectEmpty, Reader.reject] at hread
    · obtain ⟨-, rfl⟩ := Prod.mk.inj hread
      simp only [Text.byteSize_append, Text.byteSize_cons, Reader.totalSize] at hsize
      simp only [Reader.seek, Reader.startingAt, Reader.totalSize] at hstop
      omega
  · exact (parse_endsWithWords hp).looksNoFurther

end StandardParser
end Dispatch
