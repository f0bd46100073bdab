import Dispatch.Proofs.Text.Cut
import Dispatch.Tree.Basic
import Dispatch.Match
/-!
# What a match takes

A literal takes its own text, an argument takes what its parser reads, and both leave the
reader between two characters. Whether that is still a reader of the same text is up to the
parser (`ArgumentParser.KeepsText`). Bound names stay distinct, and a name is bound to what
was bound last.
-/
namespace Dispatch
variable {S E M : Type}

namespace Context

theorem lookup_bind (name other : String) (argument : ParsedArgument)
    (arguments : List (String × ParsedArgument)) :
    (bind name argument arguments).lookup other =
      if other = name then some argument else arguments.lookup other := by
  induction arguments with
  | nil =>
    by_cases h : other = name
    · simp [bind, h]
    · simp [bind, List.lookup_cons, h, beq_eq_false_iff_ne.2 h]
  | cons head rest ih =>
    obtain ⟨first, old⟩ := head
    by_cases hfirst : first = name
    · subst hfirst
      by_cases h : other = first
      · simp [bind, h]
      · simp [bind, List.lookup_cons, h, beq_eq_false_iff_ne.2 h]
    · by_cases h : other = first
      · subst h
        simp [bind, hfirst]
      · simp [bind, hfirst, List.lookup_cons, beq_eq_false_iff_ne.2 h, ih]

theorem keys_bind (name : String) (argument : ParsedArgument)
    (arguments : List (String × ParsedArgument)) :
    (bind name argument arguments).map (·.1) =
      if name ∈ arguments.map (·.1) then arguments.map (·.1)
      else arguments.map (·.1) ++ [name] := by
  induction arguments with
  | nil => simp [bind]
  | cons head rest ih =>
    obtain ⟨first, old⟩ := head
    by_cases hfirst : first = name
    · simp [bind, hfirst]
    · have hname : ¬name = first := fun h => hfirst h.symm
      simp only [bind, hfirst, if_false, List.map_cons, ih, List.mem_cons, hname, false_or]
      split <;> simp

theorem nodup_keys_bind (name : String) (argument : ParsedArgument)
    {arguments : List (String × ParsedArgument)} (h : (arguments.map (·.1)).Nodup) :
    ((bind name argument arguments).map (·.1)).Nodup := by
  rw [keys_bind]
  split
  · exact h
  · next hname =>
    refine List.nodup_append.2 ⟨h, by simp, ?_⟩
    intro a ha b hb
    obtain rfl : b = name := by simpa using hb
    exact fun hab => hname (hab ▸ ha)

end Context

namespace Reader

/-- The word ahead is where the text ahead begins. -/
theorem exists_rest?_peekWord {r : Reader} (h : r.isOnBoundary = true) :
    ∃ ds, r.rest? = some (r.peekWord.toList ++ ds) := by
  obtain ⟨cs, hcs⟩ := isOnBoundary_iff.1 h
  refine ⟨cs.dropWhile (· != separator), ?_⟩
  rw [hcs, peekWord, rest_eq_of_rest? hcs, wordChars, String.toList_ofList,
    List.takeWhile_append_dropWhile]

/-- A separator at the cursor is a single byte. -/
theorem rest?_pastSeparator {r : Reader} {cs : List Char}
    (h : r.rest? = some (separator :: cs)) : r.pastSeparator.rest? = some cs := by
  have hahead : r.rest? = some ([separator] ++ cs) := h
  exact rest?_advance hahead

/-- The cursor behind a separator stands between characters. -/
theorem isOnBoundary_pastSeparator {r : Reader} (h : r.peek = some separator) :
    r.pastSeparator.isOnBoundary = true := by
  obtain ⟨cs, hcs⟩ := peek_eq_some_iff.1 h
  exact isOnBoundary_iff.2 ⟨cs, rest?_pastSeparator hcs⟩

/-- Where two bytes are left, one is behind a separator. -/
theorem canRead_pastSeparator {r : Reader} (h : r.canReadBytes 2 = true) :
    r.pastSeparator.canRead = true := by
  rw [canReadBytes_iff] at h
  rw [canRead_iff]
  exact h

theorem charAt?_of_peek {r : Reader} {c : Char} (h : r.peek = some c) :
    Text.charAt? r.input r.cursor = some c := by
  obtain ⟨cs, hcs⟩ := peek_eq_some_iff.1 h
  rw [rest?] at hcs
  simp [Text.charAt?, hcs]

end Reader

namespace Label

section
variable {parser : ArgumentParser S E M} {c : Context S E M} {r moved : Reader}

/-! What a value parser does decides what is taken. -/

theorem takeValue_of_rejected {error : SyntaxError}
    (h : parser.parse c r = (.error (.rejected error), moved)) :
    takeValue parser c r = .error (locateAt (moved.seek moved.cursor) error) := by
  simp only [takeValue, h]

theorem takeValue_of_fault {reason : Option String}
    (h : parser.parse c r = (.error (.fault reason), moved)) :
    takeValue parser c r = .error
      ((moved.seek r.cursor).error .parserFault [("reason", reason.getD unknownFault)]) := by
  simp only [takeValue, h]
  rfl

theorem takeValue_of_ok {value : Value} (h : parser.parse c r = (.ok value, moved))
    (onward : r.cursor ≤ (moved.seek moved.cursor).cursor ∧
      (moved.seek moved.cursor).isOnBoundary) :
    takeValue parser c r = .ok ⟨some value, moved.seek moved.cursor, onward.1⟩ := by
  simp only [takeValue, h, onward, and_self, dif_pos]

/-- A parser that reads the first of the characters ahead takes these. -/
theorem takeValue_of_advance {value : Value} {cs ds : List Char}
    (h : parser.parse c r = (.ok value, r.advance cs)) (hrest : r.rest? = some (cs ++ ds)) :
    takeValue parser c r = .ok ⟨some value, r.advance cs, Nat.le_add_right _ _⟩ := by
  have hseek : (r.advance cs).seek (r.advance cs).cursor = r.advance cs :=
    Reader.seek_advance hrest
  have onward : r.cursor ≤ ((r.advance cs).seek (r.advance cs).cursor).cursor ∧
      ((r.advance cs).seek (r.advance cs).cursor).isOnBoundary = true := by
    rw [hseek]
    exact ⟨Nat.le_add_right _ _, Reader.isOnBoundary_iff.2 ⟨ds, Reader.rest?_advance hrest⟩⟩
  rw [takeValue_of_ok h onward]
  exact congrArg Except.ok (by simp only [hseek])

theorem takeValue_of_stray {value : Value} (h : parser.parse c r = (.ok value, moved))
    (stray : ¬(r.cursor ≤ (moved.seek moved.cursor).cursor ∧
      (moved.seek moved.cursor).isOnBoundary)) :
    takeValue parser c r = .error ((moved.seek r.cursor).error .parserFault
      [("reason", strayCursor (moved.seek moved.cursor).cursor)]) := by
  simp only [takeValue, h, dif_neg stray]
  rfl

end

theorem take_literal {text : String} {c : Context S E M} {r : Reader} {taken : Taken r}
    (h : (literal text).take c r = .ok taken) :
    r.peekWord = text ∧ taken.value = none ∧ taken.after = r.advance text.toList := by
  simp only [take] at h
  split at h
  · next hword =>
    obtain rfl := Except.ok.inj h
    exact ⟨hword, rfl, rfl⟩
  · simp at h

theorem take_argument {name : String} {parser : ArgumentParser S E M}
    {completer : Option (Completer S E M)} {c : Context S E M} {r : Reader} {taken : Taken r}
    (h : (argument name parser completer).take c r = .ok taken) :
    ∃ value, taken.value = some value ∧ taken.after.isOnBoundary = true := by
  simp only [take, takeValue] at h
  split at h
  · simp at h
  · simp at h
  · next value _ =>
    split at h
    · next onward =>
      obtain rfl := Except.ok.inj h
      exact ⟨value, rfl, onward.2⟩
    · simp at h

/-- What an argument takes is what its parser has read. -/
theorem exists_of_take_argument {name : String} {parser : ArgumentParser S E M}
    {completer : Option (Completer S E M)} {c : Context S E M} {r : Reader} {taken : Taken r}
    (h : (argument name parser completer).take c r = .ok taken) :
    ∃ value moved, parser.parse c r = (.ok value, moved) ∧ taken.value = some value ∧
      taken.after = moved.seek moved.cursor := by
  simp only [take, takeValue] at h
  split at h
  · simp at h
  · simp at h
  · next value hparse =>
    split at h
    · obtain rfl := Except.ok.inj h
      exact ⟨value, (parser.parse c r).2, Prod.ext hparse rfl, rfl, rfl⟩
    · simp at h

/-- What matches is worth trying. -/
theorem fits_of_take {label : Label S E M} {c : Context S E M} {r : Reader} {taken : Taken r}
    (h : label.take c r = .ok taken) : label.fits r.peekWord = true := by
  cases label with
  | literal text =>
    obtain ⟨hword, -⟩ := take_literal h
    simp [fits, hword]
  | argument name parser completer => rfl

/-- A match ends between two characters. -/
theorem isOnBoundary_of_take {label : Label S E M} {c : Context S E M} {r : Reader}
    {taken : Taken r} (h : label.take c r = .ok taken) (hr : r.isOnBoundary = true) :
    taken.after.isOnBoundary = true := by
  cases label with
  | literal text =>
    obtain ⟨rfl, -, hafter⟩ := take_literal h
    obtain ⟨ds, hds⟩ := Reader.exists_rest?_peekWord hr
    rw [hafter]
    exact Reader.isOnBoundary_iff.2 ⟨ds, Reader.rest?_advance hds⟩
  | argument name parser completer =>
    obtain ⟨-, -, hboundary⟩ := take_argument h
    exact hboundary

/-- The range of a matched literal spells its text. -/
theorem slice?_of_take_literal {text : String} {c : Context S E M} {r : Reader}
    {taken : Taken r} (h : (literal text).take c r = .ok taken) (hr : r.isOnBoundary = true) :
    Text.slice? r.input taken.range.start taken.range.stop = some text := by
  obtain ⟨rfl, -, hafter⟩ := take_literal h
  obtain ⟨ds, hds⟩ := Reader.exists_rest?_peekWord hr
  obtain ⟨pre, htext, hcursor⟩ := Reader.rest?_eq_some_iff.1 hds
  have hslice := Text.slice?_of_toList_eq htext
  rw [String.ofList_toList] at hslice
  simpa [Taken.range, hafter, Reader.advance, hcursor] using hslice

end Label

/-! ## The text of the reader -/

/-- The parser hands back a reader of the text that it was given, whatever comes of the
read. -/
def ArgumentParser.KeepsText (parser : ArgumentParser S E M) : Prop :=
  ∀ c r, (parser.parse c r).2.input = r.input

/-- A literal, or an argument with a parser that keeps the text of its reader. -/
def Label.KeepsText : Label S E M → Prop
  | .literal _ => True
  | .argument _ parser _ => parser.KeepsText

/-- All argument parsers keep the text of their reader. -/
def Tree.KeepsText (t : Tree S E M) : Prop :=
  ∀ id node label, t.node? id = some node → node.label = some label → label.KeepsText

/-- The labels of a tree without arguments are literals. -/
theorem Tree.exists_literal {t : Tree S E M} (h : ∀ node ∈ t.nodes, node.label.all Label.isLiteral)
    {id : Nat} {node : Node S E M} {label : Label S E M} (hnode : t.node? id = some node)
    (hlabel : node.label = some label) : ∃ text, label = .literal text := by
  have hliteral := h node (Array.mem_of_getElem? hnode)
  rw [hlabel, Option.all_some] at hliteral
  cases label with
  | literal text => exact ⟨text, rfl⟩
  | argument name parser completer => cases hliteral

/-- Where there are no arguments, there are no parsers that could replace the text. -/
theorem Tree.keepsText_of_isLiteral {t : Tree S E M}
    (h : ∀ node ∈ t.nodes, node.label.all Label.isLiteral) : t.KeepsText := by
  intro id node label hnode hlabel
  obtain ⟨text, rfl⟩ := Tree.exists_literal h hnode hlabel
  trivial

/-- Behind a match the text is the same. -/
theorem Label.KeepsText.input_eq {label : Label S E M} {c : Context S E M} {r : Reader}
    {taken : Taken r} (keeps : label.KeepsText) (h : label.take c r = .ok taken) :
    taken.after.input = r.input := by
  cases label with
  | literal text =>
    obtain ⟨-, -, hafter⟩ := take_literal h
    rw [hafter, Reader.advance]
  | argument name parser completer =>
    obtain ⟨value, moved, hparse, -, hafter⟩ := exists_of_take_argument h
    have hmoved : moved.input = r.input := by simpa [hparse] using keeps c r
    rw [hafter, Reader.seek, Reader.startingAt, hmoved]

/-- A match ends within the input. -/
theorem Label.KeepsText.cursor_le {label : Label S E M} {c : Context S E M} {r : Reader}
    {taken : Taken r} (keeps : label.KeepsText) (h : label.take c r = .ok taken)
    (hr : r.isOnBoundary = true) : taken.after.cursor ≤ r.totalSize := by
  have hle := Reader.cursor_le_size (isOnBoundary_of_take h hr)
  rwa [keeps.input_eq h] at hle

end Dispatch
