import Dispatch.Proofs.Reader.Lookahead
import Mathlib.Data.List.TakeWhile
/-!
# What a value is read from

A read that delivers a value goes over the first of the characters ahead, and the value comes
from these alone: where nothing else is ahead, the read goes over them again and delivers the
same (`ReadsAlone`). No class of characters needs what follows a run to end it, and neither
does a closing quote. So it is for the parsers of the library
(`StandardParser.parse_readsAlone`).
-/
namespace Dispatch
variable {α β : Type}

/-- The characters that a read goes over give its value also when they are all that is
ahead. -/
structure ReadsAlone (read : Reader → Scan α) : Prop where
  taken : ∀ {r moved : Reader} {value : α}, read r = (.ok value, moved) →
    ∃ xs ys, r.rest? = some (xs ++ ys) ∧ moved = r.advance xs ∧
      ∀ {r' : Reader}, r'.rest? = some xs → read r' = (.ok value, r'.advance xs)

/-- A value is read where something may lie ahead. -/
theorem Reader.exists_rest?_of_withRest {r moved : Reader} {read : List Char → Scan α} {value : α}
    (h : r.withRest read = (.ok value, moved)) :
    ∃ cs, r.rest? = some cs ∧ read cs = (.ok value, moved) := by
  rw [withRest] at h
  cases hrest : r.rest? with
  | none => simp [hrest] at h
  | some cs => exact ⟨cs, rfl, by rwa [hrest] at h⟩

namespace Reader

theorem readNumber_readsAlone (value? : List Char → Option α) (missing invalid : Diagnostic) :
    ReadsAlone fun r => r.readNumber value? missing invalid := by
  refine ⟨fun {r moved value} hread => ?_⟩
  obtain ⟨cs, hrest, hread⟩ := exists_rest?_of_withRest hread
  refine ⟨cs.takeWhile isNumberChar, cs.dropWhile isNumberChar, ?_, ?_⟩
  · rw [List.takeWhile_append_dropWhile, hrest]
  · dsimp only at hread
    split at hread
    · simp [reject] at hread
    · next hsome =>
      split at hread
      · next found hvalue =>
        obtain ⟨hok, rfl⟩ := Prod.mk.inj hread
        refine ⟨rfl, fun {r'} hrest' => ?_⟩
        simp only [readNumber, withRest_of_rest? hrest', List.takeWhile_idem]
        simp only [hsome, Bool.false_eq_true, if_false, hvalue, hok]
      · simp [reject] at hread

theorem readWord_readsAlone : ReadsAlone readWord := by
  refine ⟨fun {r moved value} hread => ?_⟩
  obtain ⟨cs, hrest, hread⟩ := exists_rest?_of_withRest hread
  obtain ⟨hok, rfl⟩ := Prod.mk.inj hread
  refine ⟨cs.takeWhile isWordChar, cs.dropWhile isWordChar, ?_, rfl, fun {r'} hrest' => ?_⟩
  · rw [List.takeWhile_append_dropWhile, hrest]
  · simp only [readWord, withRest_of_rest? hrest', List.takeWhile_idem, hok]

theorem readUntil_readsAlone (quote : Char) : ReadsAlone fun r => r.readUntil quote := by
  refine ⟨fun {r moved value} hread => ?_⟩
  obtain ⟨cs, hrest, hread⟩ := exists_rest?_of_withRest hread
  cases hscan : scanQuoted quote cs with
  | closed text taken =>
    simp only [hscan] at hread
    obtain ⟨hok, rfl⟩ := Prod.mk.inj hread
    obtain ⟨rest, rfl, hagain⟩ := scanQuoted_closed hscan
    refine ⟨taken, rest, hrest, rfl, fun {r'} hrest' => ?_⟩
    have halone := hagain []
    rw [List.append_nil] at halone
    simp only [readUntil, withRest_of_rest? hrest', halone, hok]
  | badEscape c taken => simp [hscan, reject] at hread
  | unclosed taken => simp [hscan, reject] at hread

/-- What is in quotes is read with the quote in front. -/
theorem readString_readsAlone : ReadsAlone readString := by
  refine ⟨fun {r moved value} hread => ?_⟩
  obtain ⟨cs, hrest, hbranch⟩ := exists_rest?_of_withRest hread
  cases cs with
  | nil =>
    obtain ⟨hok, rfl⟩ := Prod.mk.inj hbranch
    refine ⟨[], [], hrest, rfl, fun {r'} hrest' => ?_⟩
    simp only [readString, withRest_of_rest? hrest', hok]
    rfl
  | cons c cs =>
    by_cases hquote : isQuote c = true
    · simp only [hquote, if_true] at hbranch
      have hrest' : (r.advance [c]).rest? = some cs :=
        rest?_advance (show r.rest? = some ([c] ++ cs) from hrest)
      obtain ⟨xs, ys, hsplit, rfl, hagain⟩ := (readUntil_readsAlone c).taken hbranch
      obtain rfl : cs = xs ++ ys := Option.some.inj (hrest'.symm.trans hsplit)
      refine ⟨c :: xs, ys, hrest, ?_, fun {r'} halone => ?_⟩
      · rw [advance_advance, List.singleton_append]
      · have hbehind : (r'.advance [c]).rest? = some xs :=
          rest?_advance (show r'.rest? = some ([c] ++ xs) from halone)
        simp only [readString, withRest_of_rest? halone, hquote, if_true]
        rw [hagain hbehind, advance_advance, List.singleton_append]
    · simp only [hquote, Bool.false_eq_true, if_false] at hbranch
      obtain ⟨xs, ys, hsplit, rfl, hagain⟩ := readWord_readsAlone.taken hbranch
      refine ⟨xs, ys, hsplit, rfl, fun {r'} halone => ?_⟩
      cases xs with
      | nil =>
        have hword := hagain halone
        simp only [readWord, withRest_of_rest? halone] at hword
        simp only [readString, withRest_of_rest? halone]
        exact hword
      | cons x xs =>
        obtain rfl : c = x := by
          rw [hrest, List.cons_append] at hsplit
          exact (List.cons.inj (Option.some.inj hsplit)).1
        simp only [readString, withRest_of_rest? halone, hquote, Bool.false_eq_true, if_false]
        exact hagain halone

end Reader

/-- A read that only checks what another one has read takes what that one takes. -/
theorem ReadsAlone.checked {first : Reader → Scan α} {read : Reader → Scan β}
    (h : ReadsAlone first) (checks : Checks first read) : ReadsAlone read := by
  refine ⟨fun {r moved value} hread => ?_⟩
  obtain ⟨a, hfirst, hagain⟩ := checks.again hread
  obtain ⟨xs, ys, hrest, hmoved, halone⟩ := h.taken hfirst
  refine ⟨xs, ys, hrest, hmoved, fun {r'} hrest' => hagain (fun hne => ?_) (halone hrest')⟩
  rw [Reader.peek, Reader.peek, Reader.rest_eq_of_rest? hrest, Reader.rest_eq_of_rest? hrest']
  cases xs with
  | nil => exact absurd hmoved hne
  | cons x xs => rfl

/-- The values of the parsers of the library come from what they take alone. -/
theorem StandardParser.parse_readsAlone (p : StandardParser) : ReadsAlone p.parse := by
  cases p with
  | word => exact Reader.readWord_readsAlone.checked word_checks
  | quotable => exact Reader.readString_readsAlone.checked quotable_checks
  | greedy =>
    refine ⟨fun {r moved value} hread => ?_⟩
    have hseek : ∀ {r : Reader} {cs : List Char}, r.rest? = some cs →
        r.seek r.totalSize = r.advance cs := by
      intro r cs hrest
      have hsize := Reader.byteSize_of_rest? hrest
      simp only [Reader.seek, Reader.startingAt, Reader.advance, Reader.totalSize, Nat.min_self]
      rw [hsize, Reader.totalSize]
    obtain ⟨cs, hrest, hread⟩ := Reader.exists_rest?_of_withRest hread
    split at hread
    · simp [rejectEmpty, Reader.reject] at hread
    · next hsome =>
      obtain ⟨hok, rfl⟩ := Prod.mk.inj hread
      refine ⟨cs, [], by rw [List.append_nil, hrest], hseek hrest, fun {r'} hrest' => ?_⟩
      simp only [parse, Reader.withRest_of_rest? hrest']
      rw [if_neg hsome, hok, hseek hrest']
  | integer least greatest => exact (Reader.readNumber_readsAlone ..).checked (bounded_checks ..)
  | float least greatest => exact (Reader.readNumber_readsAlone ..).checked (bounded_checks ..)
  | bool =>
    exact (Reader.readString_readsAlone.checked Reader.readBool_checks).checked bool_checks
  | choice choices => exact Reader.readWord_readsAlone.checked (choice_checks choices)

end Dispatch
