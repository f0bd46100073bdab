import Dispatch.Proofs.Decimal.Numerals
import Dispatch.Proofs.Reader.Lookahead
import Dispatch.Proofs.Reader.KeptText
/-!
# Integers as arguments

What is read as an integer is the longest run of number characters ahead, all of it or
nothing: the run has to denote an integer of 64 bits within the bounds, and then it is taken.
In every other case the reader stays where it is, and the error says which of the conditions
failed (`StandardParser.parse_integerGrammar`). The text that is written for an integer has
number characters only, so it is read back wherever no such character follows it.
-/
namespace Dispatch

namespace Decimal
variable {cs : List Char} {n : Int}

/-- What denotes an integer is made of number characters. -/
theorem Denotes.isNumberChar (h : Denotes cs n) : ∀ c ∈ cs, Reader.isNumberChar c = true := by
  have hdigits : ∀ {ds : List Char} {k : Nat}, Numeral ds k →
      ∀ c ∈ ds, Reader.isNumberChar c = true := by
    intro ds k numeral c hc
    simp [Reader.isNumberChar, numeral.digits c hc]
  rcases h with numeral | numeral
  · exact hdigits numeral
  · exact List.forall_mem_cons.2 ⟨by decide, hdigits numeral⟩

theorem Denotes.ne_nil (h : Denotes cs n) : cs ≠ [] := by
  rcases h with numeral | numeral
  · exact numeral.nonempty
  · exact List.cons_ne_nil _ _

end Decimal

namespace StandardParser
open Decimal (Denotes intText)
variable {least greatest : Int64} {r : Reader} {cs : List Char}

section
variable (ahead : r.rest? = some cs)
include ahead

theorem parse_integer_of_empty (empty : cs.takeWhile Reader.isNumberChar = []) :
    (integer least greatest).parse r = r.reject .expectedInteger [] := by
  have hread : r.readInteger = r.reject .expectedInteger [] := by
    rw [Reader.readInteger, Reader.readNumber, Reader.withRest_of_rest? ahead]
    exact if_pos (List.isEmpty_iff.2 empty)
  rw [parse, hread]
  rfl

/-- A run that is not empty is read as what its text is. -/
theorem readInteger_of_ne_nil (nonempty : cs.takeWhile Reader.isNumberChar ≠ []) :
    r.readInteger = match Decimal.readInt64? (cs.takeWhile Reader.isNumberChar) with
      | some k => (.ok k, r.advance (cs.takeWhile Reader.isNumberChar))
      | none => r.reject .invalidInteger
          [("value", String.ofList (cs.takeWhile Reader.isNumberChar))] := by
  rw [Reader.readInteger, Reader.readNumber, Reader.withRest_of_rest? ahead]
  refine (if_neg (mt List.isEmpty_iff.1 nonempty)).trans ?_
  cases Decimal.readInt64? (cs.takeWhile Reader.isNumberChar) <;> rfl

theorem parse_integer_of_malformed (nonempty : cs.takeWhile Reader.isNumberChar ≠ [])
    (malformed : Decimal.readInt64? (cs.takeWhile Reader.isNumberChar) = none) :
    (integer least greatest).parse r = r.reject .invalidInteger
      [("value", String.ofList (cs.takeWhile Reader.isNumberChar))] := by
  rw [parse, readInteger_of_ne_nil ahead nonempty, malformed]
  rfl

/-- What is denoted is compared with the bounds, the lower one first. -/
theorem parse_integer_of_denotes {k : Int64}
    (denotes : Denotes (cs.takeWhile Reader.isNumberChar) k.toInt) :
    (integer least greatest).parse r =
      if k < least then
        r.reject .integerTooLow [("min", intText least.toInt), ("found", intText k.toInt)]
      else if greatest < k then
        r.reject .integerTooHigh [("max", intText greatest.toInt), ("found", intText k.toInt)]
      else (.ok (.integer k), r.advance (cs.takeWhile Reader.isNumberChar)) := by
  rw [parse, readInteger_of_ne_nil ahead denotes.ne_nil, Decimal.readInt64?_eq_some_iff.2 denotes]
  simp only [bounded, decide_eq_true_eq]

/-- The value is what all the number characters denote, within the bounds. -/
theorem of_parse_integer {value : Value} {moved : Reader}
    (h : (integer least greatest).parse r = (.ok value, moved)) :
    ∃ k : Int64, Denotes (cs.takeWhile Reader.isNumberChar) k.toInt ∧ least ≤ k ∧ k ≤ greatest ∧
      value = .integer k ∧ moved = r.advance (cs.takeWhile Reader.isNumberChar) := by
  by_cases empty : cs.takeWhile Reader.isNumberChar = []
  · simp [parse_integer_of_empty ahead empty, Reader.reject] at h
  · cases hvalue : Decimal.readInt64? (cs.takeWhile Reader.isNumberChar) with
    | none => simp [parse_integer_of_malformed ahead empty hvalue, Reader.reject] at h
    | some k =>
      have denotes := Decimal.readInt64?_eq_some_iff.1 hvalue
      rw [parse_integer_of_denotes ahead denotes] at h
      split at h
      · simp [Reader.reject] at h
      · next hlow =>
        split at h
        · simp [Reader.reject] at h
        · next hhigh =>
          obtain ⟨hok, rfl⟩ := Prod.mk.inj h
          exact ⟨k, denotes, Int64.not_lt.1 hlow, Int64.not_lt.1 hhigh, (Except.ok.inj hok).symm,
            rfl⟩

end

/-- What reading an integer within bounds comes to, where `cs` is ahead and `w` are the number
characters in front of it. -/
structure IntegerGrammar (least greatest : Int64) (r : Reader) (cs w : List Char) : Prop where
  /-- A value is read exactly from an integer of 64 bits within the bounds, which is all of
  `w`. -/
  value_iff : ∀ value moved, (integer least greatest).parse r = (.ok value, moved) ↔
    ∃ n : Int, Denotes w n ∧ (-2 ^ 63 ≤ n ∧ n < 2 ^ 63) ∧ (least.toInt ≤ n ∧ n ≤ greatest.toInt) ∧
      value = .integer (Int64.ofInt n) ∧ moved = r.advance w
  missing : w = [] → r.Refuses "CMD1001" [] ((integer least greatest).parse r)
  malformed : w ≠ [] → (∀ n, Denotes w n → ¬(-2 ^ 63 ≤ n ∧ n < 2 ^ 63)) →
    r.Refuses "CMD1002" [("value", String.ofList w)] ((integer least greatest).parse r)
  low : ∀ n, Denotes w n → (-2 ^ 63 ≤ n ∧ n < 2 ^ 63) → n < least.toInt →
    r.Refuses "CMD1101" [("min", intText least.toInt), ("found", intText n)]
      ((integer least greatest).parse r)
  high : ∀ n, Denotes w n → (-2 ^ 63 ≤ n ∧ n < 2 ^ 63) → least.toInt ≤ n → greatest.toInt < n →
    r.Refuses "CMD1102" [("max", intText greatest.toInt), ("found", intText n)]
      ((integer least greatest).parse r)
  /-- An integer within the bounds is read back from what is written for it. -/
  written : ∀ (n : Int64) (tail : List Char), least ≤ n → n ≤ greatest →
    cs = (intText n.toInt).toList ++ tail → (∀ c ∈ tail.head?, Reader.isNumberChar c = false) →
      (integer least greatest).parse r = (.ok (.integer n), r.advance (intText n.toInt).toList)

/-- An integer of 64 bits, as one of them. -/
theorem exists_int64 {n : Int} (h : -2 ^ 63 ≤ n ∧ n < 2 ^ 63) : ∃ k : Int64, k.toInt = n :=
  ⟨Int64.ofInt n, Int64.toInt_ofInt_of_le h.1 h.2⟩

/-- Integers have this grammar wherever a reader stands between characters. -/
theorem parse_integerGrammar (least greatest : Int64) (ahead : r.rest? = some cs) :
    IntegerGrammar least greatest r cs (cs.takeWhile Reader.isNumberChar) := by
  constructor
  case value_iff =>
    intro value moved
    constructor
    · intro hread
      obtain ⟨k, denotes, hle, hge, rfl, rfl⟩ := of_parse_integer ahead hread
      exact ⟨k.toInt, denotes, ⟨k.le_toInt, k.toInt_lt⟩,
        ⟨Int64.le_iff_toInt_le.1 hle, Int64.le_iff_toInt_le.1 hge⟩, by rw [Int64.ofInt_toInt], rfl⟩
    · rintro ⟨n, denotes, range, ⟨hle, hge⟩, rfl, rfl⟩
      obtain ⟨k, rfl⟩ := exists_int64 range
      rw [← Int64.le_iff_toInt_le, ← Int64.not_lt] at hle hge
      rw [parse_integer_of_denotes ahead denotes, if_neg hle, if_neg hge, Int64.ofInt_toInt]
  case missing => exact fun empty => ⟨.expectedInteger, rfl, parse_integer_of_empty ahead empty⟩
  case malformed =>
    intro nonempty outside
    exact ⟨.invalidInteger, rfl, parse_integer_of_malformed ahead nonempty
      (Decimal.readInt64?_eq_none_iff.2 outside)⟩
  case low =>
    intro n denotes range hlow
    obtain ⟨k, rfl⟩ := exists_int64 range
    refine ⟨.integerTooLow, rfl, ?_⟩
    rw [parse_integer_of_denotes ahead denotes, if_pos (Int64.lt_iff_toInt_lt.2 hlow)]
  case high =>
    intro n denotes range hlow hhigh
    obtain ⟨k, rfl⟩ := exists_int64 range
    rw [← Int64.le_iff_toInt_le, ← Int64.not_lt] at hlow
    refine ⟨.integerTooHigh, rfl, ?_⟩
    rw [parse_integer_of_denotes ahead denotes, if_neg hlow,
      if_pos (Int64.lt_iff_toInt_lt.2 hhigh)]
  case written =>
    intro n tail hlow hhigh hcs htail
    have denotes := Decimal.denotes_intText n.toInt
    have hw : cs.takeWhile Reader.isNumberChar = (intText n.toInt).toList := by
      rw [hcs, Text.takeWhile_append_of_head? denotes.isNumberChar htail]
    rw [← hw] at denotes
    rw [parse_integer_of_denotes ahead denotes, if_neg (Int64.not_lt.2 hlow),
      if_neg (Int64.not_lt.2 hhigh), hw]

/-- Between -5 and 64, `-05` is read as -5 in front of a space, `-6` is too low, and `1.5` is
no integer. -/
theorem integerGrammar_samples :
    (integer (-5) 64).parse (.ofString "-05 x") = (.ok (.integer (-5)), ⟨"-05 x", 3⟩) ∧
    (Reader.ofString "-6").Refuses "CMD1101" [("min", "-5"), ("found", "-6")]
      ((integer (-5) 64).parse (.ofString "-6")) ∧
    (Reader.ofString "1.5").Refuses "CMD1002" [("value", "1.5")]
      ((integer (-5) 64).parse (.ofString "1.5")) := by
  have five : Denotes ['-', '0', '5'] (-5) :=
    .negated (n := 5) ⟨by decide, List.all_eq_true.1 rfl, by decide⟩
  have six : Denotes ['-', '6'] (-6) :=
    .negated (n := 6) ⟨by decide, List.all_eq_true.1 rfl, by decide⟩
  refine ⟨?_, ?_, ?_⟩
  · exact ((parse_integerGrammar (-5) 64 (Reader.rest?_ofString "-05 x")).value_iff _ _).2
      ⟨-5, five, by decide, by decide, rfl, rfl⟩
  · have low := (parse_integerGrammar (-5) 64 (Reader.rest?_ofString "-6")).low (-6) six (by decide)
      (by decide)
    have hmin : intText (-5 : Int64).toInt = "-5" := by
      show "-" ++ Decimal.natText 5 = "-5"
      rw [Decimal.natText_of_lt (by decide)]
      rfl
    have hfound : intText (-6) = "-6" := by
      show "-" ++ Decimal.natText 6 = "-6"
      rw [Decimal.natText_of_lt (by decide)]
      rfl
    rwa [hmin, hfound] at low
  · refine (parse_integerGrammar (-5) 64 (Reader.rest?_ofString "1.5")).malformed (by decide) ?_
    exact Decimal.readInt64?_eq_none_iff.1 (by decide)

end StandardParser
end Dispatch
