import Dispatch.Proofs.Reader.Loops
/-!
# Calls of a reader

Whoever has a reader may look behind and ahead, skip, read and expect, in any order and also
after failures (`Reader.Call`). Each of these needs a cursor between two characters, and each
leaves one: whatever its outcome, the reader behind it has moved over a beginning of what lay
ahead (`Reader.Takes`). From one call to all of them this is an induction on the list of
calls, so a reader that started at the start of its input never faults
(`Reader.safe_performAll`).
-/
namespace Dispatch

namespace Reader
variable {α β : Type} {r : Reader} {scan : Scan α} {cs taken : List Char}

/-! ## The calls -/

/-- A call of a reader that does not set the cursor by number. -/
inductive Call where
  /-- The text behind the cursor. -/
  | consumed
  /-- The text ahead of the cursor. -/
  | remaining
  | totalSize
  | remainingSize
  | canRead
  /-- The character at the cursor. -/
  | peek
  /-- A character some way ahead. -/
  | peekAt (offset : Nat)
  | peekWord
  /-- The character at the cursor, which is moved over it. -/
  | next
  | skip
  | skipBlanks
  | readInteger
  | readFloat
  | readWord
  | readQuoted
  | readUntil (quote : Char)
  | readString
  | readBool
  | expect (c : Char)
  /-- An error at an offset, at most the end of the input. -/
  | errorAt (cursor : Nat) (id : String) (details : NameMap String)

/-- What a call delivers. -/
inductive Answer where
  | nothing
  | text (s : String)
  | size (n : Nat)
  | truth (b : Bool)
  | character (c : Option Char)
  | integer (n : Int64)
  | float (x : Binary64)
  | report (error : SyntaxError)

/-- The outcome with its value made into another. -/
def mapScan (f : α → β) (scan : Scan α) : Scan β := (scan.1.map f, scan.2)

namespace Call

/-- The outcome of a call and the reader after it. Away from the places between characters it
is a fault to ask what lies ahead or behind, and behind the end of the input how much is
left. -/
def perform (call : Call) (r : Reader) : Scan Answer :=
  match call with
  | consumed =>
    match r.consumed? with
    | some text => (.ok (.text text), r)
    | none => (.error (.fault none), r)
  | remaining => r.withRest fun cs => (.ok (.text (String.ofList cs)), r)
  | totalSize => (.ok (.size r.totalSize), r)
  | remainingSize =>
    if r.cursor ≤ r.totalSize then (.ok (.size r.remainingSize), r) else (.error (.fault none), r)
  | canRead => (.ok (.truth r.canRead), r)
  | peek => r.withRest fun _ => (.ok (.character r.peek), r)
  | peekAt offset => r.withRest fun cs => (.ok (.character cs[offset]?), r)
  | peekWord => r.withRest fun _ => (.ok (.text r.peekWord), r)
  | next => r.withRest fun _ => (.ok (.character r.peek), r.skip)
  | skip => r.withRest fun _ => (.ok .nothing, r.skip)
  | skipBlanks => r.withRest fun _ => (.ok .nothing, r.skipBlanks)
  | readInteger => mapScan .integer r.readInteger
  | readFloat => mapScan .float r.readFloat
  | readWord => mapScan .text r.readWord
  | readQuoted => mapScan .text r.readQuoted
  | readUntil quote => mapScan .text (r.readUntil quote)
  | readString => mapScan .text r.readString
  | readBool => mapScan .truth r.readBool
  | expect c => mapScan (fun _ => .nothing) (r.expect c)
  | errorAt cursor id details =>
    (.ok (.report ((SyntaxError.ofId id details).locate r.input cursor)), r)

end Call

/-- The reader after calls, one after the other. -/
def performAll (calls : List Call) (r : Reader) : Reader :=
  calls.foldl (fun r call => (call.perform r).2) r

/-! ## What one read takes -/

/-- Whatever its value, the outcome is no fault, and the reader after it has moved over a
beginning of what lay ahead. -/
structure Takes (r : Reader) (scan : Scan α) : Prop where
  moved : ∃ taken rest, r.rest? = some (taken ++ rest) ∧ scan.2 = r.advance taken
  sound : ∀ reason, scan.1 ≠ .error (.fault reason)

namespace Takes

theorem prefix_ok (hrest : r.rest? = some cs) (hbegins : taken <+: cs) (a : α) :
    Takes r (.ok a, r.advance taken) := by
  obtain ⟨rest, rfl⟩ := hbegins
  exact ⟨⟨taken, rest, hrest, rfl⟩, by simp⟩

theorem prefix_reject (hrest : r.rest? = some cs) (hbegins : taken <+: cs) (diagnostic : Diagnostic)
    (details : List (String × String)) :
    Takes r ((r.advance taken).reject diagnostic details : Scan α) := by
  obtain ⟨rest, rfl⟩ := hbegins
  exact ⟨⟨taken, rest, hrest, rfl⟩, by simp [reject]⟩

theorem stay_ok (hrest : r.rest? = some cs) (a : α) : Takes r (.ok a, r) :=
  prefix_ok hrest List.nil_prefix a

theorem stay_reject (hrest : r.rest? = some cs) (diagnostic : Diagnostic)
    (details : List (String × String)) : Takes r (r.reject diagnostic details : Scan α) :=
  prefix_reject hrest List.nil_prefix diagnostic details

/-- What is taken behind a first part is taken with it. -/
theorem behind {ds : List Char} (hrest : r.rest? = some (cs ++ ds))
    (h : Takes (r.advance cs) scan) : Takes r scan := by
  obtain ⟨taken, rest, hbehind, hmoved⟩ := h.moved
  obtain rfl := Option.some.inj ((rest?_advance hrest).symm.trans hbehind)
  exact ⟨⟨cs ++ taken, rest, by rw [hrest, List.append_assoc], by rw [hmoved, advance_advance]⟩,
    h.sound⟩

theorem map (h : Takes r scan) (f : α → β) : Takes r (mapScan f scan) := by
  refine ⟨h.moved, fun reason hfault => ?_⟩
  obtain ⟨outcome, after⟩ := scan
  cases outcome with
  | ok a => simp [mapScan, Except.map] at hfault
  | error failure => exact h.sound reason (by simpa [mapScan, Except.map] using hfault)

theorem input_eq (h : Takes r scan) : scan.2.input = r.input := by
  obtain ⟨taken, rest, -, hmoved⟩ := h.moved
  rw [hmoved, advance]

theorem isOnBoundary (h : Takes r scan) : scan.2.isOnBoundary = true := by
  obtain ⟨taken, rest, hrest, hmoved⟩ := h.moved
  rw [hmoved]
  exact isOnBoundary_iff.2 ⟨rest, rest?_advance hrest⟩

theorem cursor_le (h : Takes r scan) : r.cursor ≤ scan.2.cursor := by
  obtain ⟨taken, rest, -, hmoved⟩ := h.moved
  rw [hmoved, advance]
  exact Nat.le_add_right ..

end Takes

/-! ## The reads -/

theorem readNumber_takes (hrest : r.rest? = some cs) (value? : List Char → Option α)
    (missing invalid : Diagnostic) : Takes r (r.readNumber value? missing invalid) := by
  simp only [readNumber, withRest_of_rest? hrest]
  split
  · exact .stay_reject hrest ..
  · split
    · exact .prefix_ok hrest (List.takeWhile_prefix _) _
    · exact .stay_reject hrest ..

/-- Where no number is read, the reader stays. -/
theorem readNumber_unchanged {value? : List Char → Option α} {missing invalid : Diagnostic}
    {failure : Failure} {after : Reader}
    (h : r.readNumber value? missing invalid = (.error failure, after)) : after = r := by
  rw [readNumber, withRest] at h
  cases hrest : r.rest? with
  | none =>
    rw [hrest] at h
    exact (Prod.mk.inj h).2.symm
  | some cs =>
    simp only [hrest] at h
    split at h
    · exact (Prod.mk.inj h).2.symm
    · split at h
      · simp at h
      · exact (Prod.mk.inj h).2.symm

theorem readWord_takes (hrest : r.rest? = some cs) : Takes r r.readWord := by
  simp only [readWord, withRest_of_rest? hrest]
  exact .prefix_ok hrest (List.takeWhile_prefix _) _

theorem readUntil_takes (hrest : r.rest? = some cs) (quote : Char) :
    Takes r (r.readUntil quote) := by
  have hbegins := taken_scanQuoted_isPrefix quote cs
  simp only [readUntil, withRest_of_rest? hrest]
  cases hscan : scanQuoted quote cs with
  | closed value taken =>
    rw [hscan] at hbegins
    exact .prefix_ok hrest hbegins _
  | badEscape c taken =>
    rw [hscan] at hbegins
    exact .prefix_reject hrest hbegins ..
  | unclosed taken =>
    rw [hscan] at hbegins
    exact .prefix_reject hrest hbegins ..

/-- A quote in front is taken with the text up to the closing one. -/
theorem readUntil_takes_quote {c : Char} (hrest : r.rest? = some (c :: cs)) :
    Takes r ((r.advance [c]).readUntil c) := by
  have hahead : r.rest? = some ([c] ++ cs) := hrest
  exact .behind hahead (readUntil_takes (rest?_advance hahead) c)

theorem readQuoted_takes (hrest : r.rest? = some cs) : Takes r r.readQuoted := by
  simp only [readQuoted, withRest_of_rest? hrest]
  cases cs with
  | nil => exact .stay_ok hrest ""
  | cons c cs =>
    dsimp only
    split
    · exact readUntil_takes_quote hrest
    · exact .stay_reject hrest ..

theorem readString_takes (hrest : r.rest? = some cs) : Takes r r.readString := by
  simp only [readString, withRest_of_rest? hrest]
  cases cs with
  | nil => exact .stay_ok hrest ""
  | cons c cs =>
    dsimp only
    split
    · exact readUntil_takes_quote hrest
    · exact readWord_takes hrest

/-- What is no truth value is given back, but a failure to read a string is not. -/
theorem readBool_takes (hrest : r.rest? = some cs) : Takes r r.readBool := by
  have hstring := readString_takes hrest
  rw [readBool]
  cases hread : r.readString with
  | mk outcome after =>
  rw [hread] at hstring
  cases outcome with
  | error failure => exact ⟨hstring.moved, fun reason h => hstring.sound reason (by simpa using h)⟩
  | ok value =>
    dsimp only
    split
    · exact ⟨hstring.moved, by simp [reject]⟩
    · split
      · exact ⟨hstring.moved, by simp⟩
      · split
        · exact ⟨hstring.moved, by simp⟩
        · exact .stay_reject hrest ..

theorem expect_takes (hrest : r.rest? = some cs) (c : Char) : Takes r (r.expect c) := by
  simp only [expect, withRest_of_rest? hrest]
  split
  · next hhead =>
    obtain ⟨ds, rfl⟩ := List.head?_eq_some_iff.1 hhead
    exact .prefix_ok hrest (List.prefix_append [c] ds) ()
  · exact .stay_reject hrest ..

/-- Between two characters every call takes a beginning of what lies ahead. -/
theorem Call.perform_takes (call : Call) (hr : r.isOnBoundary = true) :
    Takes r (call.perform r) := by
  obtain ⟨cs, hrest⟩ := isOnBoundary_iff.1 hr
  have hahead := rest_eq_of_rest? hrest
  cases call with
  | consumed =>
    have hsome : r.consumed?.isSome = true := by
      rw [consumed?, Option.isSome_map, Text.isSome_takeBytes?]
      exact hr
    obtain ⟨text, htext⟩ := Option.isSome_iff_exists.1 hsome
    simp only [perform, htext]
    exact .stay_ok hrest _
  | remainingSize =>
    have hwithin : r.cursor ≤ r.totalSize := cursor_le_size hr
    rw [perform, if_pos hwithin]
    exact .stay_ok hrest _
  | totalSize => exact .stay_ok hrest _
  | canRead => exact .stay_ok hrest _
  | errorAt cursor id details => exact .stay_ok hrest _
  | remaining | peek | peekAt | peekWord =>
    simp only [perform, withRest_of_rest? hrest]
    exact .stay_ok hrest _
  | next | skip =>
    simp only [perform, withRest_of_rest? hrest, Reader.skip, hahead]
    exact .prefix_ok hrest (List.take_prefix 1 cs) _
  | skipBlanks =>
    simp only [perform, withRest_of_rest? hrest, Reader.skipBlanks, hahead]
    exact .prefix_ok hrest (List.takeWhile_prefix _) _
  | readInteger => exact (readNumber_takes hrest ..).map _
  | readFloat => exact (readNumber_takes hrest ..).map _
  | readWord => exact (readWord_takes hrest).map _
  | readQuoted => exact (readQuoted_takes hrest).map _
  | readUntil quote => exact (readUntil_takes hrest quote).map _
  | readString => exact (readString_takes hrest).map _
  | readBool => exact (readBool_takes hrest).map _
  | expect c => exact (expect_takes hrest c).map _

/-! ## All calls -/

/-- What a call leaves of a reader: its outcome is no fault, and the cursor stands between two
characters of the same input, not before where it stood, and where it stood if no number was
read. -/
structure Call.Keeps (call : Call) (r : Reader) : Prop where
  sound : ∀ reason, (call.perform r).1 ≠ .error (.fault reason)
  same : (call.perform r).2.input = r.input
  boundary : (call.perform r).2.isOnBoundary = true
  within : (call.perform r).2.cursor ≤ r.totalSize
  forward : r.cursor ≤ (call.perform r).2.cursor
  unchanged : call = .readInteger ∨ call = .readFloat →
    ∀ failure, (call.perform r).1 = .error failure → (call.perform r).2 = r

theorem mapScan_error {f : α → β} {failure : Failure} (h : (mapScan f scan).1 = .error failure) :
    scan = (.error failure, scan.2) := by
  obtain ⟨outcome, after⟩ := scan
  cases outcome with
  | ok a => simp [mapScan, Except.map] at h
  | error failure' =>
    obtain rfl : failure' = failure := by simpa [mapScan, Except.map] using h
    rfl

theorem Call.keeps (call : Call) (hr : r.isOnBoundary = true) : call.Keeps r := by
  have htakes := call.perform_takes hr
  have hsize := cursor_le_size htakes.isOnBoundary
  rw [htakes.input_eq] at hsize
  refine ⟨htakes.sound, htakes.input_eq, htakes.isOnBoundary, hsize, htakes.cursor_le, ?_⟩
  rintro (rfl | rfl) failure hfailed
  · exact readNumber_unchanged (mapScan_error hfailed)
  · exact readNumber_unchanged (mapScan_error hfailed)

/-- A reader that may be asked for anything: it stands between two characters of an input,
every call keeps it so, and the loops in which calls go from character to character keep it so
as well, since they come to what the calls take at once. -/
structure Safe (input : String) (r : Reader) : Prop where
  same : r.input = input
  boundary : r.isOnBoundary = true
  within : r.cursor ≤ Text.size input
  keeps : ∀ call : Call, call.Keeps r
  skips : ∀ p, r.skipEach p = (.ok (), r.advance (r.rest.takeWhile p))
  reads : ∀ quote, r.readEach quote false [] = r.readUntil quote

theorem safe_of_isOnBoundary (hr : r.isOnBoundary = true) : r.Safe r.input := by
  obtain ⟨cs, hrest⟩ := isOnBoundary_iff.1 hr
  refine ⟨rfl, hr, cursor_le_size hr, fun call => call.keeps hr, fun p => ?_,
    fun quote => readEach_eq quote hrest⟩
  rw [rest_eq_of_rest? hrest, skipEach_eq p hrest]

/-- What holds of the first reader and is kept by every call holds after any calls. -/
theorem performAll_induction {motive : Reader → Prop} (calls : List Call) (start : motive r)
    (step : ∀ (r : Reader) (call : Call), motive r → motive (call.perform r).2) :
    motive (performAll calls r) := by
  induction calls generalizing r with
  | nil => exact start
  | cons call calls ih => exact ih (step r call start)

/-- After any calls from the start of any input, failures included, a reader stands between
two characters, and no further call is a fault, goes back or moves on where it reads no
number. -/
theorem safe_performAll (input : String) (calls : List Call) :
    (performAll calls (ofString input)).Safe input := by
  have hkept : (performAll calls (ofString input)).input = input ∧
      (performAll calls (ofString input)).isOnBoundary = true := by
    refine performAll_induction (motive := fun r => r.input = input ∧ r.isOnBoundary = true) calls
      ⟨rfl, isOnBoundary_ofString input⟩ fun r call ⟨same, boundary⟩ => ?_
    have hkeeps := call.keeps boundary
    exact ⟨hkeeps.same.trans same, hkeeps.boundary⟩
  have hsafe := safe_of_isOnBoundary hkept.2
  rwa [hkept.1] at hsafe

end Reader
end Dispatch
