import Dispatch.Proofs.Reader.Lookahead
/-!
# Reading character by character

What a read takes is stated as a run of characters, or as the text up to a closing quote, all
at once. Going from character to character comes to the same: one looks at the cursor before
each, which is a fault inside a character, and moves over what one has seen
(`Reader.skipEach_eq`). Up to a quote one keeps in mind whether a backslash came last, and
goes one character back at a bad escape (`Reader.readEach_eq`). None of these looks is ever a
fault if the first is none.
-/
namespace Dispatch.Reader

variable {r : Reader} {cs : List Char}

@[simp] theorem advance_nil (r : Reader) : r.advance [] = r := rfl

theorem length_rest_advance {c : Char} (hrest : r.rest? = some (c :: cs)) :
    (r.advance [c]).rest.length < r.rest.length := by
  have hahead : r.rest? = some ([c] ++ cs) := hrest
  rw [rest_eq_of_rest? hrest, rest_eq_of_rest? (rest?_advance hahead)]
  exact Nat.lt_succ_self _

/-- Skips characters of a class one by one, with a look at the cursor before each. -/
def skipEach (p : Char → Bool) (r : Reader) : Scan Unit :=
  match _hrest : r.rest? with
  | none => (.error (.fault none), r)
  | some [] => (.ok (), r)
  | some (c :: _) => if p c then skipEach p (r.advance [c]) else (.ok (), r)
termination_by r.rest.length
decreasing_by exact length_rest_advance _hrest

/-- Reads up to a closing quote one character after the other. `escaped` says whether the last
one was a backslash that is not itself escaped. A bad escape is found behind its character,
which is given back. -/
def readEach (quote : Char) (escaped : Bool) (value : List Char) (r : Reader) : Scan String :=
  match _hrest : r.rest? with
  | none => (.error (.fault none), r)
  | some [] => r.reject .unclosedQuote []
  | some (c :: _) =>
    let after := r.advance [c]
    if escaped then
      if c = quote ∨ c = '\\' then readEach quote false (value ++ [c]) after
      else { after with cursor := after.cursor - c.utf8Size }.reject .invalidEscape
        [("character", c.toString)]
    else if c = '\\' then readEach quote true value after
    else if c = quote then (.ok (String.ofList value), after)
    else readEach quote false (value ++ [c]) after
termination_by r.rest.length
decreasing_by all_goals exact length_rest_advance _hrest

/-- Going on as long as there are characters of a class is moving over all of them at once. -/
theorem skipEach_eq (p : Char → Bool) (hrest : r.rest? = some cs) :
    r.skipEach p = (.ok (), r.advance (cs.takeWhile p)) := by
  induction cs generalizing r with
  | nil =>
    rw [skipEach]
    split
    · next hnone => simp [hrest] at hnone
    · rfl
    · next hsome => simp [hrest] at hsome
  | cons c cs ih =>
    have hahead : r.rest? = some ([c] ++ cs) := hrest
    rw [skipEach]
    split
    · next hnone => simp [hrest] at hnone
    · next hsome => simp [hrest] at hsome
    · next d ds hsome =>
      obtain ⟨rfl, rfl⟩ := List.cons.inj (Option.some.inj (hsome.symm.trans hrest))
      split
      · next hc =>
        rw [ih (rest?_advance hahead), advance_advance, List.takeWhile_cons_of_pos hc]
        rfl
      · next hc => rw [List.takeWhile_cons_of_neg hc, advance_nil]

theorem readEach_nil {quote : Char} {escaped : Bool} {value : List Char}
    (hrest : r.rest? = some []) :
    r.readEach quote escaped value = r.reject .unclosedQuote [] := by
  rw [readEach]
  split
  · next hnone => simp [hrest] at hnone
  · rfl
  · next hsome => simp [hrest] at hsome

theorem readEach_cons {quote c : Char} {escaped : Bool} {value : List Char}
    (hrest : r.rest? = some (c :: cs)) :
    r.readEach quote escaped value =
      if escaped then
        if c = quote ∨ c = '\\' then (r.advance [c]).readEach quote false (value ++ [c])
        else r.reject .invalidEscape [("character", c.toString)]
      else if c = '\\' then (r.advance [c]).readEach quote true value
      else if c = quote then (.ok (String.ofList value), r.advance [c])
      else (r.advance [c]).readEach quote false (value ++ [c]) := by
  have hback : { r.advance [c] with cursor := (r.advance [c]).cursor - c.utf8Size } = r := by
    simp [advance]
  rw [readEach]
  split
  · next hnone => simp [hrest] at hnone
  · next hsome => simp [hrest] at hsome
  · next d ds hsome =>
    obtain ⟨rfl, rfl⟩ := List.cons.inj (Option.some.inj (hsome.symm.trans hrest))
    simp only [hback]

/-- The characters that a scan for a closing quote goes over. -/
def Quoted.taken : Quoted → List Char
  | closed _ taken => taken
  | badEscape _ taken => taken
  | unclosed taken => taken

theorem Quoted.taken_after (value taken : List Char) (scanned : Quoted) :
    (scanned.after value taken).taken = taken ++ scanned.taken := by
  cases scanned <;> rfl

theorem taken_scanQuoted_isPrefix (quote : Char) (cs : List Char) :
    (scanQuoted quote cs).taken <+: cs := by
  fun_induction scanQuoted quote cs with
  | case1 => exact List.prefix_rfl
  | case2 => exact List.prefix_rfl
  | case3 c cs escape ih =>
    rw [Quoted.taken_after]
    exact (List.prefix_append_right_inj _).2 ih
  | case4 c cs escape => exact List.prefix_append ['\\'] _
  | case5 cs lone escape => exact List.prefix_append [quote] _
  | case6 c cs lone escape hquote ih =>
    rw [Quoted.taken_after]
    exact (List.prefix_append_right_inj [c]).2 ih

/-- What a scan for a closing quote comes to behind a value that was read before. -/
def Quoted.outcome (r : Reader) (before : List Char) : Quoted → Scan String
  | closed value taken => (.ok (String.ofList (before ++ value)), r.advance taken)
  | badEscape c taken => (r.advance taken).reject .invalidEscape [("character", c.toString)]
  | unclosed taken => (r.advance taken).reject .unclosedQuote []

theorem Quoted.outcome_after (r : Reader) (before value taken : List Char) (scanned : Quoted) :
    (scanned.after value taken).outcome r before =
      scanned.outcome (r.advance taken) (before ++ value) := by
  cases scanned <;> simp [after, outcome, advance_advance]

/-- Reading character by character comes to what the scan finds. -/
theorem readEach_eq_outcome (quote : Char) (value : List Char) (hrest : r.rest? = some cs) :
    r.readEach quote false value = (scanQuoted quote cs).outcome r value := by
  fun_induction scanQuoted quote cs generalizing r value with
  | case1 => rw [readEach_nil hrest]; rfl
  | case2 =>
    have hahead : r.rest? = some (['\\'] ++ []) := hrest
    rw [readEach_cons hrest, if_neg Bool.false_ne_true, if_pos rfl,
      readEach_nil (rest?_advance hahead)]
    rfl
  | case3 c cs escape ih =>
    have hahead : r.rest? = some (['\\'] ++ c :: cs) := hrest
    have hbehind : (r.advance ['\\']).rest? = some ([c] ++ cs) := rest?_advance hahead
    rw [readEach_cons hrest, if_neg Bool.false_ne_true, if_pos rfl,
      readEach_cons (rest?_advance hahead), if_pos rfl, if_pos escape,
      ih _ (rest?_advance hbehind), Quoted.outcome_after, advance_advance]
    rfl
  | case4 c cs refused =>
    have hahead : r.rest? = some (['\\'] ++ c :: cs) := hrest
    rw [readEach_cons hrest, if_neg Bool.false_ne_true, if_pos rfl,
      readEach_cons (rest?_advance hahead), if_pos rfl, if_neg refused]
    rfl
  | case5 cs lone escape =>
    rw [readEach_cons hrest, if_neg Bool.false_ne_true, if_neg (ne_backslash lone escape),
      if_pos rfl]
    simp [Quoted.outcome]
  | case6 c cs lone escape notQuote ih =>
    have hahead : r.rest? = some ([c] ++ cs) := hrest
    rw [readEach_cons hrest, if_neg Bool.false_ne_true, if_neg (ne_backslash lone escape),
      if_neg notQuote, ih _ (rest?_advance hahead), Quoted.outcome_after]

theorem readEach_eq (quote : Char) (hrest : r.rest? = some cs) :
    r.readEach quote false [] = r.readUntil quote := by
  rw [readEach_eq_outcome quote [] hrest, readUntil, withRest_of_rest? hrest]
  cases scanQuoted quote cs <;> rfl

end Dispatch.Reader
