import Dispatch.Argument.Standard
import Dispatch.Proofs.Text.Cut
/-!
# Reads keep the text

Every read hands back a reader of the text that it was given, wherever it started and whatever
came of it. So do the parsers of the library, which are made of such reads
(`StandardParser.input_parse`).
-/
namespace Dispatch
variable {α : Type}

/-- An error is placed at an offset within the input. -/
theorem SyntaxError.place?_locate {input : String} (e : SyntaxError) {cursor : Nat}
    (h : cursor ≤ Text.size input) : (e.locate input cursor).place? = some (input, cursor) := by
  simp [place?, locate, Nat.min_eq_left h]

namespace Reader
variable {r : Reader}

theorem place?_error (hr : r.isOnBoundary = true) (diagnostic : Diagnostic)
    (details : List (String × String)) :
    (r.error diagnostic details).place? = some (r.input, r.cursor) :=
  SyntaxError.place?_locate _ (cursor_le_size hr)

/-- The outcome is that of a read that is refused at the reader's place, with the error of a
code. -/
def Refuses (r : Reader) (code : String) (details : List (String × String)) (outcome : Scan α) :
    Prop :=
  ∃ diagnostic : Diagnostic, diagnostic.id = code ∧ outcome = r.reject diagnostic details

/-! ## Reads -/

theorem input_withRest {read : List Char → Scan α} (h : ∀ cs, (read cs).2.input = r.input) :
    (r.withRest read).2.input = r.input := by
  rw [withRest]
  split
  · exact h _
  · rfl

theorem input_readNumber (r : Reader) (value? : List Char → Option α)
    (missing invalid : Diagnostic) : (r.readNumber value? missing invalid).2.input = r.input := by
  refine input_withRest fun cs => ?_
  dsimp only
  split
  · rfl
  · split <;> rfl

theorem input_readWord (r : Reader) : r.readWord.2.input = r.input := input_withRest fun _ => rfl

theorem input_readUntil (r : Reader) (quote : Char) : (r.readUntil quote).2.input = r.input := by
  refine input_withRest fun cs => ?_
  cases scanQuoted quote cs <;> rfl

theorem input_readString (r : Reader) : r.readString.2.input = r.input := by
  refine input_withRest fun cs => ?_
  cases cs with
  | nil => rfl
  | cons c cs =>
    dsimp only
    split
    · exact input_readUntil (r.advance [c]) c
    · exact input_readWord r

theorem input_readBool (r : Reader) : r.readBool.2.input = r.input := by
  have hstring := r.input_readString
  rw [readBool]
  cases hread : r.readString with
  | mk outcome after =>
  rw [hread] at hstring
  cases outcome with
  | error failure => exact hstring
  | ok value =>
    dsimp only
    split
    · exact hstring
    · split
      · exact hstring
      · split
        · exact hstring
        · rfl

end Reader

namespace StandardParser

theorem input_bounded (r : Reader) {outcome : Scan α} (houtcome : outcome.2.input = r.input)
    (isLow isHigh : α → Bool) (low high : Diagnostic) (least greatest : String)
    (text : α → String) (value : α → Value) :
    (bounded r outcome isLow isHigh low high least greatest text value).2.input = r.input := by
  obtain ⟨outcome, after⟩ := outcome
  cases outcome with
  | error failure => exact houtcome
  | ok a =>
    dsimp only [bounded]
    split
    · rfl
    · split
      · rfl
      · exact houtcome

/-- The parsers of the library hand back readers of the text that they were given. -/
theorem input_parse (p : StandardParser) (r : Reader) : (p.parse r).2.input = r.input := by
  have hword := r.input_readWord
  cases p with
  | word =>
    rw [parse]
    cases hread : r.readWord with
    | mk outcome after =>
    rw [hread] at hword
    cases outcome with
    | error failure => exact hword
    | ok text =>
      dsimp only
      split <;> exact hword
  | quotable =>
    have hstring := r.input_readString
    rw [parse]
    cases hread : r.readString with
    | mk outcome after =>
    rw [hread] at hstring
    cases outcome with
    | error failure => exact hstring
    | ok text =>
      dsimp only
      split <;> exact hstring
  | greedy =>
    refine Reader.input_withRest fun cs => ?_
    split <;> rfl
  | integer least greatest => exact input_bounded r (r.input_readNumber ..) ..
  | float least greatest => exact input_bounded r (r.input_readNumber ..) ..
  | bool =>
    have hbool := r.input_readBool
    rw [parse]
    cases hread : r.readBool with
    | mk outcome after =>
    rw [hread] at hbool
    cases outcome <;> exact hbool
  | choice choices =>
    rw [parse]
    cases hread : r.readWord with
    | mk outcome after =>
    rw [hread] at hword
    cases outcome with
    | error failure => exact hword
    | ok text =>
      dsimp only
      split
      · exact hword
      · rfl

end StandardParser
end Dispatch
