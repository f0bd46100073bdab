import Dispatch.Proofs.Reader.Lookahead
import Dispatch.Proofs.Reader.KeptText
import Mathlib.Data.List.TakeWhile
/-!
# Choices as arguments

A choice is looked for by the longest run of word characters ahead. What is read is thus
always one of the choices, and the text that stands for it. A choice that has other characters
in it can be listed, and is proposed like the others, but it is never read: the run ends
inside of it, and what is in front of the first other character is all that is looked for
(`StandardParser.parse_choiceGrammar`).
-/
namespace Dispatch.StandardParser
variable {choices : List String} {r : Reader} {cs : List Char}

section
variable (ahead : r.rest? = some cs)
include ahead

theorem parse_choice_of_mem (listed : String.ofList (cs.takeWhile Reader.isWordChar) ∈ choices) :
    (choice choices).parse r = (.ok (.string (String.ofList (cs.takeWhile Reader.isWordChar))),
      r.advance (cs.takeWhile Reader.isWordChar)) := by
  simp [parse, Reader.readWord, Reader.withRest_of_rest? ahead, listed]

theorem parse_choice_of_not_mem
    (unlisted : String.ofList (cs.takeWhile Reader.isWordChar) ∉ choices) :
    (choice choices).parse r = r.reject .invalidChoice
      [("value", String.ofList (cs.takeWhile Reader.isWordChar)),
        ("choices", ", ".intercalate choices)] := by
  simp [parse, Reader.readWord, Reader.withRest_of_rest? ahead, unlisted]

/-- The value is the run of word characters. -/
theorem of_parse_choice {value : Value} {moved : Reader}
    (h : (choice choices).parse r = (.ok value, moved)) :
    String.ofList (cs.takeWhile Reader.isWordChar) ∈ choices ∧
      value = .string (String.ofList (cs.takeWhile Reader.isWordChar)) ∧
        moved = r.advance (cs.takeWhile Reader.isWordChar) := by
  by_cases listed : String.ofList (cs.takeWhile Reader.isWordChar) ∈ choices
  · rw [parse_choice_of_mem ahead listed] at h
    obtain ⟨hok, rfl⟩ := Prod.mk.inj h
    exact ⟨listed, (Except.ok.inj hok).symm, rfl⟩
  · simp [parse_choice_of_not_mem ahead listed, Reader.reject] at h

/-- A choice that stands ahead as a word is read exactly if it is made of word characters. -/
theorem parse_choice_iff {c : String} {tail : List Char} (listed : c ∈ choices)
    (hcs : cs = c.toList ++ tail) (htail : EndsWord tail) :
    (choice choices).parse r = (.ok (.string c), r.advance c.toList) ↔
      ∀ ch ∈ c.toList, Reader.isWordChar ch = true := by
  constructor
  · intro h ch hch
    obtain ⟨-, hvalue, -⟩ := of_parse_choice ahead h
    rw [Value.string.inj hvalue, String.toList_ofList] at hch
    exact List.mem_takeWhile_imp hch
  · intro plain
    have hrun : cs.takeWhile Reader.isWordChar = c.toList := by
      rw [hcs]
      refine Text.takeWhile_append_of_head? plain fun ch hch => ?_
      rw [htail ch hch]
      decide
    have hword : String.ofList (cs.takeWhile Reader.isWordChar) = c := by
      rw [hrun, String.ofList_toList]
    rw [parse_choice_of_mem ahead (hword.symm ▸ listed), hword, hrun]

end

/-- What reading a choice comes to, where the characters `cs` are ahead. -/
structure ChoiceGrammar (choices : List String) (r : Reader) (cs : List Char) : Prop where
  /-- A value is one of the choices, and the text that is taken. -/
  value : ∀ value moved, (choice choices).parse r = (.ok value, moved) → ∃ text ∈ choices,
    value = .string text ∧ text.toList <+: cs ∧ moved = r.advance text.toList
  /-- A choice that stands ahead as a word is read exactly if it is made of word
  characters. -/
  chosen_iff : ∀ c ∈ choices, ∀ tail, EndsWord tail → cs = c.toList ++ tail →
    ((choice choices).parse r = (.ok (.string c), r.advance c.toList) ↔
      ∀ ch ∈ c.toList, Reader.isWordChar ch = true)
  /-- The longest run of word characters is read if it is a choice, and refused if it is
  none. -/
  word : ∀ word, word.toList = cs.takeWhile Reader.isWordChar →
    (word ∈ choices → (choice choices).parse r = (.ok (.string word), r.advance word.toList)) ∧
    (word ∉ choices → r.Refuses "CMD1106"
      [("value", word), ("choices", ", ".intercalate choices)] ((choice choices).parse r))

/-- Choices have this grammar wherever a reader stands between characters. So those that are
proposed are read exactly if they are made of word characters. -/
theorem parse_choiceGrammar (choices : List String) :
    (∀ r cs, r.rest? = some cs → ChoiceGrammar choices r cs) ∧
    ∀ c ∈ (choice choices).suggestions,
      ((choice choices).parse (.ofString c) = (.ok (.string c), ⟨c, Text.size c⟩) ↔
        ∀ ch ∈ c.toList, Reader.isWordChar ch = true) := by
  constructor
  · intro r cs ahead
    constructor
    case value =>
      intro value moved h
      obtain ⟨listed, rfl, rfl⟩ := of_parse_choice ahead h
      refine ⟨_, listed, rfl, ?_, ?_⟩
      · rw [String.toList_ofList]
        exact List.takeWhile_prefix _
      · rw [String.toList_ofList]
    case chosen_iff =>
      intro c listed tail htail hcs
      exact parse_choice_iff ahead listed hcs htail
    case word =>
      intro word hword
      obtain rfl : word = String.ofList (cs.takeWhile Reader.isWordChar) := by
        rw [← hword, String.ofList_toList]
      rw [String.toList_ofList]
      exact ⟨parse_choice_of_mem ahead, fun unlisted =>
        ⟨.invalidChoice, rfl, parse_choice_of_not_mem ahead unlisted⟩⟩
  · intro c listed
    have hmoved : (Reader.ofString c).advance c.toList = ⟨c, Text.size c⟩ := by
      simp [Reader.advance, Reader.ofString, Text.size]
    rw [← hmoved]
    exact parse_choice_iff (Reader.rest?_ofString c) listed (List.append_nil _).symm endsWord_nil

/-- Of the choices `café` and `tea`, only the second one is ever read. -/
theorem choiceGrammar_samples :
    (choice ["café", "tea"]).parse (.ofString "tea x") = (.ok (.string "tea"), ⟨"tea x", 3⟩) ∧
    (Reader.ofString "café").Refuses "CMD1106" [("value", "caf"), ("choices", "café, tea")]
      ((choice ["café", "tea"]).parse (.ofString "café")) := by
  constructor
  · have h := (parse_choiceGrammar ["café", "tea"]).1 _ _ (Reader.rest?_ofString "tea x")
    have plain : "tea".toList.all Reader.isWordChar = true := by decide
    exact (h.chosen_iff "tea" (by decide) [' ', 'x'] (endsWord_separator _) rfl).2
      (List.all_eq_true.1 plain)
  · have h := (parse_choiceGrammar ["café", "tea"]).1 _ _ (Reader.rest?_ofString "café")
    exact (h.word "caf" (by decide)).2 (by decide)

end Dispatch.StandardParser
