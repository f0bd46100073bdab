import Dispatch.Argument.Standard
import Dispatch.Proofs.Text.Cut
/-!
# Reading behind another text

A reader over `v` may be put behind a text `u`: its input is then `u` and `v`, and its cursor is
moved by the bytes of `u` (`Reader.shift`). It has the same ahead, so every read does the same there
and shows it in its readers and errors, which are moved by as much. No read compares an offset with
anything but another offset or the end of the input; for the parsers of the library this is
`StandardParser.parse_shift`.
-/
namespace Dispatch
variable {α β : Type} (u : String)

/-- The reader over the input with `u` in front, at the same place. -/
def Reader.shift (r : Reader) : Reader := ⟨u ++ r.input, Text.size u + r.cursor⟩

/-- The error about the input with `u` in front, at the same place. -/
def SyntaxError.shift (e : SyntaxError) : SyntaxError :=
  { e with input := e.input.map (u ++ ·), cursor := e.cursor.map (Text.size u + ·) }

/-- The failure to read the input with `u` in front. -/
def Failure.shift : Failure → Failure
  | .rejected e => .rejected (e.shift u)
  | .fault reason => .fault reason

/-- The outcome of a read of the input with `u` in front. -/
def Scan.shift : Scan α → Scan α
  | (.ok a, r) => (.ok a, r.shift u)
  | (.error f, r) => (.error (f.shift u), r.shift u)

namespace SyntaxError

theorem shift_locate (e : SyntaxError) (input : String) (cursor : Nat) :
    e.locate (u ++ input) (Text.size u + cursor) = (e.locate input cursor).shift u := by
  simp only [locate, shift, Text.size_append, Option.map_some, Nat.add_min_add_left]

@[simp] theorem isLocated_shift (e : SyntaxError) : (e.shift u).isLocated = e.isLocated := by
  simp [isLocated, shift]

end SyntaxError

namespace Reader

@[simp] theorem rest?_shift (r : Reader) : (r.shift u).rest? = r.rest? := by
  rw [rest?, rest?, shift, String.toList_append, Text.size, Text.dropBytes?_byteSize_add]

@[simp] theorem rest_shift (r : Reader) : (r.shift u).rest = r.rest := by
  rw [rest, rest, rest?_shift]

@[simp] theorem peek_shift (r : Reader) : (r.shift u).peek = r.peek := by
  rw [peek, peek, rest_shift]

@[simp] theorem peekWord_shift (r : Reader) : (r.shift u).peekWord = r.peekWord := by
  rw [peekWord, peekWord, rest_shift]

@[simp] theorem totalSize_shift (r : Reader) :
    (r.shift u).totalSize = Text.size u + r.totalSize := by
  simp [totalSize, shift]

@[simp] theorem canReadBytes_shift (r : Reader) (n : Nat) :
    (r.shift u).canReadBytes n = r.canReadBytes n := by
  rw [Bool.eq_iff_iff, canReadBytes_iff, canReadBytes_iff, totalSize_shift]
  simp only [shift]
  omega

@[simp] theorem canRead_shift (r : Reader) : (r.shift u).canRead = r.canRead :=
  canReadBytes_shift u r 1

theorem advance_shift (r : Reader) (cs : List Char) :
    (r.shift u).advance cs = (r.advance cs).shift u := by
  simp [advance, shift, Nat.add_assoc]

theorem seek_shift (r : Reader) (n : Nat) :
    (r.shift u).seek (Text.size u + n) = (r.seek n).shift u := by
  simp only [seek, startingAt, shift, Text.size_append, Nat.add_min_add_left]

theorem error_shift (r : Reader) (diagnostic : Diagnostic) (details : List (String × String)) :
    (r.shift u).error diagnostic details = (r.error diagnostic details).shift u :=
  SyntaxError.shift_locate u _ r.input r.cursor

/-! ## Reads -/

theorem reject_shift (r : Reader) (diagnostic : Diagnostic) (details : List (String × String)) :
    ((r.shift u).reject diagnostic details : Scan α) =
      Scan.shift u (r.reject diagnostic details) := by
  rw [reject, error_shift]
  rfl

/-- A read of what lies ahead does so there too. -/
theorem withRest_shift (r : Reader) {read read' : List Char → Scan α}
    (h : ∀ cs, read' cs = Scan.shift u (read cs)) :
    (r.shift u).withRest read' = Scan.shift u (r.withRest read) := by
  rw [withRest, withRest, rest?_shift]
  cases r.rest? with
  | none => rfl
  | some cs => exact h cs

theorem readNumber_shift (r : Reader) (value? : List Char → Option α)
    (missing invalid : Diagnostic) :
    (r.shift u).readNumber value? missing invalid =
      Scan.shift u (r.readNumber value? missing invalid) := by
  refine withRest_shift u r fun cs => ?_
  dsimp only
  split
  · exact reject_shift u r _ _
  · split
    · rw [advance_shift]
      rfl
    · exact reject_shift u r _ _

theorem readWord_shift (r : Reader) : (r.shift u).readWord = Scan.shift u r.readWord := by
  refine withRest_shift u r fun cs => ?_
  dsimp only
  rw [advance_shift]
  rfl

theorem readUntil_shift (r : Reader) (quote : Char) :
    (r.shift u).readUntil quote = Scan.shift u (r.readUntil quote) := by
  refine withRest_shift u r fun cs => ?_
  cases scanQuoted quote cs with
  | closed value taken =>
    dsimp only
    rw [advance_shift]
    rfl
  | badEscape c taken =>
    dsimp only
    rw [advance_shift, reject_shift]
  | unclosed taken =>
    dsimp only
    rw [advance_shift, reject_shift]

theorem readString_shift (r : Reader) : (r.shift u).readString = Scan.shift u r.readString := by
  refine withRest_shift u r fun cs => ?_
  cases cs with
  | nil => rfl
  | cons c cs =>
    dsimp only
    split
    · rw [advance_shift, readUntil_shift]
    · exact readWord_shift u r

theorem readBool_shift (r : Reader) : (r.shift u).readBool = Scan.shift u r.readBool := by
  rw [readBool, readBool, readString_shift]
  obtain ⟨failure | value, after⟩ := r.readString
  · rfl
  · dsimp only [Scan.shift]
    split
    · exact reject_shift u after _ _
    · split
      · rfl
      · split
        · rfl
        · exact reject_shift u r _ _

end Reader

namespace StandardParser

theorem bounded_shift (r : Reader) (outcome : Scan α) (isLow isHigh : α → Bool)
    (low high : Diagnostic) (least greatest : String) (text : α → String) (value : α → Value) :
    bounded (r.shift u) (Scan.shift u outcome) isLow isHigh low high least greatest text value =
      Scan.shift u (bounded r outcome isLow isHigh low high least greatest text value) := by
  obtain ⟨failure | a, after⟩ := outcome
  · rfl
  · dsimp only [Scan.shift, bounded]
    split
    · exact Reader.reject_shift u r _ _
    · split
      · exact Reader.reject_shift u r _ _
      · rfl

/-- The parsers of the library read the same behind another text. -/
theorem parse_shift (p : StandardParser) (r : Reader) :
    p.parse (r.shift u) = Scan.shift u (p.parse r) := by
  cases p with
  | word =>
    rw [parse, parse, Reader.readWord_shift]
    obtain ⟨failure | text, after⟩ := r.readWord
    · rfl
    · dsimp only [Scan.shift]
      split
      · exact Reader.reject_shift u after _ _
      · rfl
  | quotable =>
    rw [parse, parse, Reader.readString_shift, Reader.peek_shift]
    obtain ⟨failure | text, after⟩ := r.readString
    · rfl
    · dsimp only [Scan.shift]
      split
      · exact Reader.reject_shift u after _ _
      · rfl
  | greedy =>
    refine Reader.withRest_shift u r fun cs => ?_
    split
    · exact Reader.reject_shift u r _ _
    · rw [Reader.totalSize_shift, Reader.seek_shift]
      rfl
  | integer least greatest =>
    rw [parse, parse, Reader.readInteger, Reader.readNumber_shift]
    exact bounded_shift u r _ _ _ _ _ _ _ _ _
  | float least greatest =>
    rw [parse, parse, Reader.readFloat, Reader.readNumber_shift]
    exact bounded_shift u r _ _ _ _ _ _ _ _ _
  | bool =>
    rw [parse, parse, Reader.readBool_shift]
    obtain ⟨failure | b, after⟩ := r.readBool
    · rfl
    · rfl
  | choice choices =>
    rw [parse, parse, Reader.readWord_shift]
    obtain ⟨failure | text, after⟩ := r.readWord
    · rfl
    · dsimp only [Scan.shift]
      split
      · rfl
      · exact Reader.reject_shift u r _ _

end StandardParser
end Dispatch
