import Dispatch.Argument.Standard
import Dispatch.Proofs.Text.Cut
/-!
# Readers abreast

Two inputs may end alike behind different beginnings. Readers over them that stand at the same
place of the common end are abreast: whatever lies ahead of one lies ahead of the other, so
every read has the same outcome on both and leaves them abreast. Offsets differ by the lengths
of the beginnings throughout, those in errors too. The parsers of the library are made of such
reads (`StandardParser.parse_abreast`).
-/
namespace Dispatch

variable {u u' v : String} {α β : Type}

/-- Offsets that are the same but for the lengths of two beginnings. -/
def Aligned (u u' : String) (n n' : Nat) : Prop := n + Text.size u' = n' + Text.size u

/-- Two readers behind `u` and `u'`, at the same place of the common end `v` of their
inputs. -/
structure Abreast (u u' v : String) (r r' : Reader) : Prop where
  input : r.input = u ++ v
  input' : r'.input = u' ++ v
  behind : Text.size u ≤ r.cursor
  aligned : Aligned u u' r.cursor r'.cursor

/-- Errors with one code, located at the same place of the common end. -/
structure SyntaxError.Abreast (u u' v : String) (e e' : SyntaxError) : Prop where
  id_eq : e.id = e'.id
  input : e.input = some (u ++ v)
  input' : e'.input = some (u' ++ v)
  cursor : ∃ n n', e.cursor = some n ∧ e'.cursor = some n' ∧ Aligned u u' n n'

/-- Failures of one kind, with errors that are abreast. -/
inductive Failure.Abreast (u u' v : String) : Failure → Failure → Prop
  | rejected {e e' : SyntaxError} (errors : e.Abreast u u' v e') :
    Abreast u u' v (.rejected e) (.rejected e')
  | fault (reason : Option String) : Abreast u u' v (.fault reason) (.fault reason)

/-- The same value or failures that are abreast, with readers that are abreast. -/
inductive ScanAbreast (u u' v : String) : Scan α → Scan α → Prop
  | ok {a : α} {r r' : Reader} (readers : Abreast u u' v r r') :
    ScanAbreast u u' v (.ok a, r) (.ok a, r')
  | error {f f' : Failure} {r r' : Reader} (failures : f.Abreast u u' v f')
    (readers : Abreast u u' v r r') : ScanAbreast u u' v (.error f, r) (.error f', r')

namespace Abreast
variable {r r' : Reader}

theorem aligned' (h : Abreast u u' v r r') :
    r.cursor + Text.size u' = r'.cursor + Text.size u := h.aligned

theorem totalSize_eq (h : Abreast u u' v r r') :
    r.totalSize = Text.size u + Text.size v ∧ r'.totalSize = Text.size u' + Text.size v := by
  simp [Reader.totalSize, h.input, h.input']

theorem rest?_eq (h : Abreast u u' v r r') : r.rest? = r'.rest? := by
  obtain ⟨n, hn⟩ := Nat.exists_eq_add_of_le h.behind
  have hn' : r'.cursor = Text.size u' + n := by
    have := h.aligned'
    omega
  simp only [Reader.rest?, h.input, h.input', hn, hn', String.toList_append, Text.size]
  rw [Text.dropBytes?_byteSize_add, Text.dropBytes?_byteSize_add]

theorem rest_eq (h : Abreast u u' v r r') : r.rest = r'.rest := by
  rw [Reader.rest, Reader.rest, h.rest?_eq]

theorem peek_eq (h : Abreast u u' v r r') : r.peek = r'.peek := by
  rw [Reader.peek, Reader.peek, h.rest_eq]

theorem peekWord_eq (h : Abreast u u' v r r') : r.peekWord = r'.peekWord := by
  rw [Reader.peekWord, Reader.peekWord, h.rest_eq]

theorem isOnBoundary_eq (h : Abreast u u' v r r') : r.isOnBoundary = r'.isOnBoundary := by
  have hrest := h.rest?_eq
  simp only [Reader.rest?] at hrest
  rw [Reader.isOnBoundary, Reader.isOnBoundary, Text.isBoundary, Text.isBoundary, hrest]

theorem canReadBytes_eq (h : Abreast u u' v r r') (n : Nat) :
    r.canReadBytes n = r'.canReadBytes n := by
  rw [Bool.eq_iff_iff, Reader.canReadBytes_iff, Reader.canReadBytes_iff, h.totalSize_eq.1,
    h.totalSize_eq.2]
  have := h.aligned'
  omega

theorem canRead_eq (h : Abreast u u' v r r') : r.canRead = r'.canRead :=
  h.canReadBytes_eq 1

/-- Readers that move by the same number of bytes stay abreast. -/
theorem move (h : Abreast u u' v r r') (n : Nat) :
    Abreast u u' v { r with cursor := r.cursor + n } { r' with cursor := r'.cursor + n } where
  input := h.input
  input' := h.input'
  behind := Nat.le_add_right_of_le h.behind
  aligned := by
    have := h.aligned'
    simp only [Aligned]
    omega

theorem advance (h : Abreast u u' v r r') (cs : List Char) :
    Abreast u u' v (r.advance cs) (r'.advance cs) :=
  h.move (Text.byteSize cs)

/-- So do readers that are set to where others stand. -/
theorem seek (h : Abreast u u' v r r') {s s' : Reader} (hs : Abreast u u' v s s') :
    Abreast u u' v (r.seek s.cursor) (r'.seek s'.cursor) where
  input := h.input
  input' := h.input'
  behind := by
    have hsize := h.totalSize_eq.1
    have hbehind := hs.behind
    simp only [Reader.totalSize] at hsize
    simp only [Reader.seek, Reader.startingAt, hsize]
    omega
  aligned := by
    obtain ⟨hsize, hsize'⟩ := h.totalSize_eq
    have haligned := hs.aligned'
    simp only [Reader.totalSize] at hsize hsize'
    simp only [Aligned, Reader.seek, Reader.startingAt, hsize, hsize']
    omega

/-- Errors of one kind at readers abreast are abreast. -/
theorem error (h : Abreast u u' v r r') (diagnostic : Diagnostic)
    (details details' : List (String × String)) :
    (r.error diagnostic details).Abreast u u' v (r'.error diagnostic details') where
  id_eq := rfl
  input := by simp [Reader.error, SyntaxError.locate, h.input]
  input' := by simp [Reader.error, SyntaxError.locate, h.input']
  cursor := by
    refine ⟨_, _, rfl, rfl, ?_⟩
    have := h.aligned'
    simp only [Aligned, h.input, h.input', Text.size_append]
    omega

/-! ## Reads -/

theorem reject (h : Abreast u u' v r r') (diagnostic : Diagnostic)
    (details : List (String × String)) :
    ScanAbreast u u' v (r.reject diagnostic details : Scan α) (r'.reject diagnostic details) :=
  .error (.rejected (h.error diagnostic details details)) h

/-- Reads of what lies ahead compare if they do for all texts. -/
theorem withRest (h : Abreast u u' v r r') {read read' : List Char → Scan α}
    (hread : ∀ cs, ScanAbreast u u' v (read cs) (read' cs)) :
    ScanAbreast u u' v (r.withRest read) (r'.withRest read') := by
  rw [Reader.withRest, Reader.withRest, h.rest?_eq]
  cases r'.rest? with
  | none => exact .error (.fault none) h
  | some cs => exact hread cs

theorem readNumber (h : Abreast u u' v r r') (value? : List Char → Option α)
    (missing invalid : Diagnostic) :
    ScanAbreast u u' v (r.readNumber value? missing invalid)
      (r'.readNumber value? missing invalid) := by
  refine h.withRest fun cs => ?_
  by_cases hempty : (cs.takeWhile Reader.isNumberChar).isEmpty = true
  · simp only [hempty, if_true]
    exact h.reject _ _
  · simp only [hempty, Bool.false_eq_true, if_false]
    cases value? (cs.takeWhile Reader.isNumberChar) with
    | some value => exact .ok (h.advance _)
    | none => exact h.reject _ _

theorem readWord (h : Abreast u u' v r r') : ScanAbreast u u' v r.readWord r'.readWord :=
  h.withRest fun _ => .ok (h.advance _)

theorem readUntil (h : Abreast u u' v r r') (quote : Char) :
    ScanAbreast u u' v (r.readUntil quote) (r'.readUntil quote) := by
  refine h.withRest fun cs => ?_
  cases Reader.scanQuoted quote cs with
  | closed value taken => exact .ok (h.advance taken)
  | badEscape c taken => exact (h.advance taken).reject _ _
  | unclosed taken => exact (h.advance taken).reject _ _

theorem readString (h : Abreast u u' v r r') : ScanAbreast u u' v r.readString r'.readString := by
  refine h.withRest fun cs => ?_
  cases cs with
  | nil => exact .ok h
  | cons c cs =>
    by_cases hquote : Reader.isQuote c = true
    · simp only [hquote, if_true]
      exact (h.advance [c]).readUntil c
    · simp only [hquote, Bool.false_eq_true, if_false]
      exact h.readWord

theorem readBool (h : Abreast u u' v r r') : ScanAbreast u u' v r.readBool r'.readBool := by
  have hread := h.readString
  rw [Reader.readBool, Reader.readBool]
  generalize r.readString = outcome at hread
  generalize r'.readString = outcome' at hread
  cases hread with
  | error failures readers => exact .error failures readers
  | @ok value _ _ readers =>
    by_cases hempty : value.isEmpty = true
    · simp only [hempty, if_true]
      exact readers.reject _ _
    · simp only [hempty, Bool.false_eq_true, if_false]
      by_cases htrue : value = "true"
      · simp only [htrue, if_true]
        exact .ok readers
      · by_cases hfalse : value = "false"
        · rw [if_neg htrue, if_neg htrue, if_pos hfalse, if_pos hfalse]
          exact .ok readers
        · simp only [htrue, hfalse, if_false]
          exact h.reject _ _

end Abreast

/-! ## Standard parsers -/

namespace StandardParser
variable {r r' : Reader}

theorem bounded_abreast (h : Abreast u u' v r r') {outcome outcome' : Scan α}
    (hread : ScanAbreast u u' v outcome outcome') (isLow isHigh : α → Bool) (low high : Diagnostic)
    (least greatest : String) (text : α → String) (value : α → Value) :
    ScanAbreast u u' v (bounded r outcome isLow isHigh low high least greatest text value)
      (bounded r' outcome' isLow isHigh low high least greatest text value) := by
  cases hread with
  | error failures readers => exact .error failures readers
  | @ok a _ _ readers =>
    simp only [bounded]
    by_cases hlow : isLow a = true
    · simp only [hlow, if_true]
      exact h.reject _ _
    · simp only [hlow, Bool.false_eq_true, if_false]
      by_cases hhigh : isHigh a = true
      · simp only [hhigh, if_true]
        exact h.reject _ _
      · simp only [hhigh, Bool.false_eq_true, if_false]
        exact .ok readers

/-- Standard parsers read the same from readers abreast. -/
theorem parse_abreast (p : StandardParser) (h : Abreast u u' v r r') :
    ScanAbreast u u' v (p.parse r) (p.parse r') := by
  cases p with
  | word =>
    have hread := h.readWord
    rw [parse, parse]
    generalize r.readWord = outcome at hread
    generalize r'.readWord = outcome' at hread
    cases hread with
    | error failures readers => exact .error failures readers
    | @ok text _ _ readers =>
      by_cases hempty : text.isEmpty = true
      · simp only [hempty, if_true]
        exact readers.reject _ _
      · simp only [hempty, Bool.false_eq_true, if_false]
        exact .ok readers
  | quotable =>
    have hread := h.readString
    rw [parse, parse, h.peek_eq]
    generalize r.readString = outcome at hread
    generalize r'.readString = outcome' at hread
    cases hread with
    | error failures readers => exact .error failures readers
    | @ok text _ _ readers =>
      by_cases hempty : (text.isEmpty && !r'.peek.any Reader.isQuote) = true
      · simp only [hempty, if_true]
        exact readers.reject _ _
      · simp only [hempty, Bool.false_eq_true, if_false]
        exact .ok readers
  | greedy =>
    refine h.withRest fun cs => ?_
    by_cases hempty : cs.isEmpty = true
    · simp only [hempty, if_true]
      exact h.reject _ _
    · simp only [hempty, Bool.false_eq_true, if_false]
      have hend : Abreast u u' v ⟨r.input, r.totalSize⟩ ⟨r'.input, r'.totalSize⟩ := by
        obtain ⟨hsize, hsize'⟩ := h.totalSize_eq
        refine ⟨h.input, h.input', ?_, ?_⟩
        · simp only [hsize]
          omega
        · simp only [Aligned, hsize, hsize']
          omega
      exact .ok (h.seek hend)
  | integer least greatest => exact bounded_abreast h (h.readNumber _ _ _) _ _ _ _ _ _ _ _
  | float least greatest => exact bounded_abreast h (h.readNumber _ _ _) _ _ _ _ _ _ _ _
  | bool =>
    have hread := h.readBool
    rw [parse, parse]
    generalize r.readBool = outcome at hread
    generalize r'.readBool = outcome' at hread
    cases hread with
    | error failures readers => exact .error failures readers
    | ok readers => exact .ok readers
  | choice choices =>
    have hread := h.readWord
    rw [parse, parse]
    generalize r.readWord = outcome at hread
    generalize r'.readWord = outcome' at hread
    cases hread with
    | error failures readers => exact .error failures readers
    | @ok text _ _ readers =>
      by_cases hmem : choices.contains text = true
      · simp only [hmem, if_true]
        exact .ok readers
      · simp only [hmem, Bool.false_eq_true, if_false]
        exact h.reject _ _

end StandardParser
end Dispatch
