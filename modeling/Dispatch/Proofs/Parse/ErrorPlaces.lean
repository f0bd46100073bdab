import Dispatch.Proofs.Diagnostic.Snippet
import Dispatch.Proofs.Parse.Errors
import Dispatch.Proofs.Reader.KeptText
import Dispatch.Proofs.Tree.Standard
/-!
# Where errors are placed

An error can be shown only if it lies between two characters of its input: the snippet, the
span of the word and the text of the error are all cut there (`SyntaxError.shownAt_iff`). The
errors that a parse makes itself lie between characters, because the reader stands there. What
remains are the errors of argument parsers. One that says nothing of a place is placed where
the parser has left its cursor, and nothing keeps a parser from leaving it inside a character;
so these errors, and no others, cannot be shown (`exists_place_of_mem_errors`).

Parsers may move the cursor as they like here, but they leave the text as it is
(`Tree.KeepsText`).
-/
namespace Dispatch
variable {S E M : Type}

namespace SyntaxError
variable {input : String} {cursor : Nat} {e : SyntaxError}

/-! ## What can be shown -/

theorem isSome_wordSpan?_iff :
    (wordSpan? input cursor).isSome = true ↔ Text.isBoundary input cursor = true := by
  rw [wordSpan?, Option.isSome_map, Text.isBoundary]

/-- The error lies at an offset into an input and can be shown there: as text, as the span of
a word and as a snippet. -/
structure ShownAt (e : SyntaxError) (input : String) (cursor : Nat) : Prop where
  place : e.place? = some (input, cursor)
  text : e.text?.isSome = true
  span : (wordSpan? input cursor).isSome = true
  snippet : (snippetAt? input cursor).isSome = true

theorem shownAt_iff (place : e.place? = some (input, cursor)) :
    e.ShownAt input cursor ↔ Text.isBoundary input cursor = true := by
  constructor
  · intro h
    exact isSome_wordSpan?_iff.1 h.span
  · intro h
    refine ⟨place, ?_, isSome_wordSpan?_iff.2 h, isSome_snippetAt?_iff.2 h⟩
    simp only [text?, place, Option.isSome_map]
    exact isSome_snippetAt?_iff.2 h

end SyntaxError

/-! ## Where failing children put their errors -/

namespace Label
variable {label : Label S E M} {parser : ArgumentParser S E M} {c : Context S E M}
  {r moved : Reader}

/-- An argument's parser rejects what it finds at a reader without saying where, and leaves
the cursor inside a character. -/
def RejectsInside (label : Label S E M) (c : Context S E M) (r : Reader) : Prop :=
  match label with
  | literal _ => False
  | argument _ parser _ => ∃ rejected moved,
      parser.parse c r = (.error (.rejected rejected), moved) ∧ rejected.isLocated = false ∧
        (moved.seek moved.cursor).isOnBoundary = false

/-- If the parser of an argument says where what it rejects is, this is between two characters
of the line. -/
def PlacesErrors (label : Label S E M) : Prop :=
  match label with
  | literal _ => True
  | argument _ parser _ => ∀ c r rejected moved, r.isOnBoundary = true →
      parser.parse c r = (.error (.rejected rejected), moved) → rejected.isLocated = true →
        ∃ cursor, rejected.place? = some (r.input, cursor) ∧
          Text.isBoundary r.input cursor = true

theorem not_rejectsInside_of_take {taken : Taken r} (h : label.take c r = .ok taken) :
    ¬label.RejectsInside c r := by
  cases label with
  | literal text => exact id
  | argument name parser completer =>
    obtain ⟨value, moved, hparse, -⟩ := exists_of_take_argument h
    rintro ⟨rejected, moved', hrejects, -⟩
    simp [hparse] at hrejects

/-- What a parser rejects without a place is placed at its cursor. -/
theorem place?_locateAt {rejected : SyntaxError} (h : rejected.isLocated = false) :
    (locateAt (moved.seek moved.cursor) rejected).place? =
      some (moved.input, (moved.seek moved.cursor).cursor) := by
  rw [locateAt, h]
  exact SyntaxError.place?_locate _ (Nat.min_le_right ..)

/-- If a parser breaks down or strays, the error lies where the parser began. -/
theorem place?_of_takeValue {error : SyntaxError} (keeps : parser.KeepsText)
    (hr : r.isOnBoundary = true) (h : takeValue parser c r = .error error) :
    (∃ rejected moved, parser.parse c r = (.error (.rejected rejected), moved) ∧
      moved.input = r.input ∧ error = locateAt (moved.seek moved.cursor) rejected) ∨
    (∀ rejected moved, parser.parse c r ≠ (.error (.rejected rejected), moved)) ∧
      error.place? = some (r.input, r.cursor) := by
  cases hparse : parser.parse c r with
  | mk outcome moved =>
    have hmoved : moved.input = r.input := by simpa [hparse] using keeps c r
    have hback := Reader.seek_cursor hmoved hr
    cases outcome with
    | error failure =>
      cases failure with
      | rejected rejected =>
        rw [takeValue_of_rejected hparse] at h
        exact .inl ⟨rejected, moved, rfl, hmoved, (Except.error.inj h).symm⟩
      | fault reason =>
        rw [takeValue_of_fault hparse, hback] at h
        obtain rfl := Except.error.inj h
        exact .inr ⟨by simp, Reader.place?_error hr ..⟩
    | ok value =>
      by_cases onward : r.cursor ≤ (moved.seek moved.cursor).cursor ∧
          (moved.seek moved.cursor).isOnBoundary = true
      · simp [takeValue_of_ok hparse onward] at h
      · rw [takeValue_of_stray hparse onward, hback] at h
        obtain rfl := Except.error.inj h
        exact .inr ⟨by simp, Reader.place?_error hr ..⟩

/-- A label that takes nothing puts its error between two characters, unless its parser
rejects inside one. -/
theorem place?_of_take_error {error : SyntaxError} (keeps : label.KeepsText)
    (hr : r.isOnBoundary = true) (places : label.PlacesErrors) (h : label.take c r = .error error) :
    ∃ cursor ≤ Text.size r.input, error.place? = some (r.input, cursor) ∧
      (Text.isBoundary r.input cursor = true ↔ ¬label.RejectsInside c r) := by
  cases label with
  | literal text =>
    simp only [take] at h
    split at h
    · cases h
    · obtain rfl := Except.error.inj h
      exact ⟨r.cursor, Reader.cursor_le_size hr, Reader.place?_error hr .., iff_of_true hr id⟩
  | argument name parser completer =>
    rcases place?_of_takeValue keeps hr h with
      ⟨rejected, moved, hparse, hmoved, rfl⟩ | ⟨hnever, hplace⟩
    · cases hlocated : rejected.isLocated with
      | false =>
        rw [← hmoved]
        refine ⟨_, Nat.min_le_right .., place?_locateAt hlocated, ?_⟩
        simp [RejectsInside, hparse, hlocated, Reader.isOnBoundary, Reader.seek,
          Reader.startingAt]
      | true =>
        obtain ⟨cursor, hplace, hboundary⟩ := places c r rejected moved hr hparse hlocated
        rw [locateAt, hlocated, if_pos rfl]
        refine ⟨cursor, Text.le_size_of_isBoundary hboundary, hplace, iff_of_true hboundary ?_⟩
        simp [RejectsInside, hparse, hlocated]
    · refine ⟨r.cursor, Reader.cursor_le_size hr, hplace, iff_of_true hr ?_⟩
      rintro ⟨rejected, moved, hrejects, -⟩
      exact hnever rejected moved hrejects

end Label

/-- A child that fails puts its error between two characters, unless it is an argument whose
parser rejects inside one. -/
theorem Offspring.FailsWith.place? {d : Dispatcher S E M} {c : Context S E M} {r : Reader}
    {child : Offspring S E M} {error : SyntaxError} (h : child.FailsWith d c r error)
    (keeps : child.label.KeepsText) (hr : r.isOnBoundary = true)
    (places : child.label.PlacesErrors) :
    ∃ cursor ≤ Text.size r.input, error.place? = some (r.input, cursor) ∧
      (Text.isBoundary r.input cursor = true ↔ ¬child.label.RejectsInside c r) := by
  -- What is wrong behind a match is placed behind it, or behind the separator that follows.
  have behind : ∀ {taken : Taken r} {after : Reader} (diagnostic : Diagnostic)
      (details : List (String × String)), child.label.take c r = .ok taken →
      after.input = taken.after.input → after.isOnBoundary = true →
      ∃ cursor ≤ Text.size r.input,
        (after.error diagnostic details).place? = some (r.input, cursor) ∧
          (Text.isBoundary r.input cursor = true ↔ ¬child.label.RejectsInside c r) := by
    intro taken after diagnostic details htake hinput hafter
    rw [← keeps.input_eq htake, ← hinput]
    exact ⟨after.cursor, Reader.cursor_le_size hafter, Reader.place?_error hafter ..,
      iff_of_true hafter (Label.not_rejectsInside_of_take htake)⟩
  cases h with
  | unread refused => exact Label.place?_of_take_error keeps hr places refused
  | @cutOff taken takes cut =>
    exact behind _ _ takes rfl (Label.isOnBoundary_of_take takes hr)
  | @limited taken target matched more redirect limit =>
    exact behind _ _ matched.1 rfl
      (Reader.isOnBoundary_pastSeparator (matched.peek more))

/-! ## Errors of parses -/

/-- Where the argument parsers of the tree say where what they reject is, this is between two
characters of the line. -/
def Tree.PlacesErrors (t : Tree S E M) : Prop :=
  ∀ id node label, t.node? id = some node → node.label = some label → label.PlacesErrors

/-- The node with a number is an argument whose parser has rejected inside a character where
the parse stands still. -/
def Dispatcher.RejectsInside (d : Dispatcher S E M) (p : Parse S E M) (id : Nat) : Prop :=
  ∃ node label, d.tree.node? id = some node ∧ node.label = some label ∧
    label.RejectsInside p.chain.last p.reader

namespace Dispatcher
variable {d : Dispatcher S E M} {input : String} {source : S} {id : Nat} {error : SyntaxError}

/-- Every error of a parse lies at an offset of the line, between two characters unless it
comes from a parser that has left its cursor inside one. -/
theorem place?_of_mem_errors (keeps : d.tree.KeepsText) (places : d.tree.PlacesErrors)
    (h : (id, error) ∈ (d.parse input source).errors) :
    ∃ cursor ≤ Text.size input, error.place? = some (input, cursor) ∧
      (Text.isBoundary input cursor = true ↔ ¬d.RejectsInside (d.parse input source) id) := by
  obtain ⟨-, boundary, survey⟩ := d.survey_parse (List.ne_nil_of_mem h)
  have hinput : (d.parse input source).reader.input = input :=
    (d.parseAt_yields Tree.root (.ofString input) _).input_eq keeps
  obtain ⟨child, hchild, rfl, hfailed⟩ := exists_of_mem_errors survey h
  obtain ⟨-, hlookup, hlabel, -, -⟩ := Tree.mem_eligible_iff.1 hchild
  obtain ⟨cursor, hle, hplace, hboundary⟩ :=
    hfailed.place? (keeps child.id _ _ hlookup hlabel) boundary (places child.id _ _ hlookup hlabel)
  rw [hinput] at hle hplace hboundary
  refine ⟨cursor, hle, hplace, ?_⟩
  rw [hboundary, RejectsInside]
  simp [hlookup, hlabel]

/-- Where parsers keep the text and those that say where their errors are say so correctly,
every error of a parse lies at an offset of the line. It can be shown, except if it comes from
a parser that has left its cursor inside a character. -/
theorem exists_place_of_mem_errors (d : Dispatcher S E M) (keeps : d.tree.KeepsText)
    (places : d.tree.PlacesErrors)
    {input : String} {source : S} {id : Nat} {error : SyntaxError}
    (h : (id, error) ∈ (d.parse input source).errors) :
    ∃ cursor ≤ Text.size input, error.place? = some (input, cursor) ∧
      (error.ShownAt input cursor ↔ ¬d.RejectsInside (d.parse input source) id) := by
  obtain ⟨cursor, hle, hplace, hboundary⟩ := place?_of_mem_errors keeps places h
  refine ⟨cursor, hle, hplace, ?_⟩
  rw [SyntaxError.shownAt_iff hplace]
  exact hboundary

/-- Goes on by one byte and rejects what it has found. -/
def nibbler : ArgumentParser Unit Nat Unit where
  parse _ r := (.error (.rejected (.ofMessage "HOST0001" "not a thing")), r.seek (r.cursor + 1))

/-- `x` with an argument behind it. -/
def nibbling : Dispatcher Unit Nat Unit where
  tree := Tree.empty.afterAll
    [.register ((Sprout.literal "x").child (Sprout.argument "thing" nibbler))]
  config := {}

theorem placesErrors_nibbling : nibbling.tree.PlacesErrors := by
  intro id node label hnode hlabel
  obtain _ | _ | _ | id := id
  · obtain rfl := Option.some.inj hnode
    cases hlabel
  · obtain rfl := Option.some.inj hnode
    obtain rfl := Option.some.inj hlabel
    trivial
  · obtain rfl := Option.some.inj hnode
    obtain rfl := Option.some.inj hlabel
    rintro c r _ _ _ ⟨⟩ ⟨⟩
  · cases hnode

theorem keepsText_nibbling : nibbling.tree.KeepsText := by
  intro id node label hnode hlabel
  obtain _ | _ | _ | id := id
  · obtain rfl := Option.some.inj hnode
    cases hlabel
  · obtain rfl := Option.some.inj hnode
    obtain rfl := Option.some.inj hlabel
    trivial
  · obtain rfl := Option.some.inj hnode
    obtain rfl := Option.some.inj hlabel
    exact fun _ _ => rfl
  · cases hnode

/-- Behind `x` the parser stops inside a character of two bytes, and there its error is
placed. -/
theorem not_shownAt_nibbling : nibbling.tree.KeepsText ∧ nibbling.tree.PlacesErrors ∧
    ∃ error, (2, error) ∈ (nibbling.parse "x é" ()).errors ∧
      error.place? = some ("x é", 3) ∧ ¬error.ShownAt "x é" 3 := by
  have listed : (2, (SyntaxError.ofMessage "HOST0001" "not a thing").locate "x é" 3) ∈
      (nibbling.parse "x é" ()).errors := by decide +kernel
  have inside : nibbling.RejectsInside (nibbling.parse "x é" ()) 2 := by
    refine ⟨_, _, rfl, rfl, _, _, rfl, rfl, ?_⟩
    decide +kernel
  obtain ⟨cursor, -, place, shown⟩ :=
    nibbling.exists_place_of_mem_errors keepsText_nibbling placesErrors_nibbling listed
  have there := SyntaxError.place?_locate (.ofMessage "HOST0001" "not a thing")
    (show 3 ≤ Text.size "x é" by decide)
  obtain rfl : 3 = cursor := (Prod.mk.inj (Option.some.inj (there.symm.trans place))).2
  exact ⟨keepsText_nibbling, placesErrors_nibbling, _, listed, place, fun h => shown.1 h inside⟩

end Dispatcher
end Dispatch
