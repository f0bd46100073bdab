import Dispatch.Text.LowerCase
import Mathlib.Data.List.TakeWhile
import Mathlib.Tactic.Tauto
/-!
# Lower case of a beginning

The lower case of a text need not begin with the lower case of its beginning. A sigma at the
end of a word has a form of its own, and a text that goes on may show that the word was not at
its end. This is the only exception: whether the beginning ends in such a sigma
(`EndsInFinalSigma`) and the text goes on with a letter decides it
(`lowerChars_isPrefix_iff`).

Both forms are one character, so the two lower cases of a beginning have the same length and
can only be compared place by place. The induction carries the characters before.
-/
namespace Dispatch.Text
variable {before after after' cs ds : List Char} {c : Char}

/-- Lower case of characters between those before, nearest first, and those after them. -/
def lowerWithin (before : List Char) : List Char → List Char → List Char
  | [], _ => []
  | c :: cs, after => lowerBetween before c (cs ++ after) ++ lowerWithin (c :: before) cs after

/-- Behind the characters before, nearest first, a sigma stands at the end of a word: a letter
with case comes before it, and nothing but what is looked through behind it. -/
def SigmaEnds (before cs : List Char) : Prop :=
  ∃ xs ys, cs = xs ++ 'Σ' :: ys ∧ meetsCased (xs.reverse ++ before) = true ∧
    ∀ y ∈ ys, inRanges caseIgnorableRanges y = true

/-- The characters end in a sigma that has its final form if nothing goes on. -/
def EndsInFinalSigma (cs : List Char) : Prop := SigmaEnds [] cs

theorem not_sigmaEnds_nil (before : List Char) : ¬SigmaEnds before [] := by
  rintro ⟨xs, ys, hsplit, -⟩
  simp at hsplit

theorem sigmaEnds_cons_iff :
    SigmaEnds before (c :: cs) ↔
      (c = 'Σ' ∧ meetsCased before = true ∧ ∀ y ∈ cs, inRanges caseIgnorableRanges y = true) ∨
        SigmaEnds (c :: before) cs := by
  constructor
  · rintro ⟨xs, ys, hsplit, hcased, hignored⟩
    cases xs with
    | nil =>
      obtain ⟨rfl, rfl⟩ := List.cons.inj hsplit
      exact .inl ⟨rfl, hcased, hignored⟩
    | cons x xs =>
      obtain ⟨rfl, rfl⟩ := List.cons.inj hsplit
      exact .inr ⟨xs, ys, rfl, by simpa using hcased, hignored⟩
  · rintro (⟨rfl, hcased, hignored⟩ | ⟨xs, ys, rfl, hcased, hignored⟩)
    · exact ⟨[], cs, rfl, hcased, hignored⟩
    · exact ⟨c :: xs, ys, rfl, by simpa using hcased, hignored⟩

/-! ## Lower case in two contexts -/

/-- Characters that are looked through do not decide what comes next. -/
theorem meetsCased_append_of_ignored (h : ∀ c ∈ cs, inRanges caseIgnorableRanges c = true)
    (ds : List Char) : meetsCased (cs ++ ds) = meetsCased ds := by
  rw [meetsCased, List.dropWhile_append, List.dropWhile_eq_nil_iff.2 h]
  rfl

theorem meetsCased_append_of_not_ignored
    (h : ¬∀ c ∈ cs, inRanges caseIgnorableRanges c = true) (ds : List Char) :
    meetsCased (cs ++ ds) = meetsCased cs := by
  rw [← List.dropWhile_eq_nil_iff] at h
  obtain ⟨x, xs, hx⟩ := List.exists_cons_of_ne_nil h
  simp [meetsCased, List.dropWhile_append, hx]

theorem meetsCased_of_ignored (h : ∀ c ∈ cs, inRanges caseIgnorableRanges c = true) :
    meetsCased cs = false := by
  simpa [meetsCased] using meetsCased_append_of_ignored h []

theorem length_lowerBetween (before after after' : List Char) (c : Char) :
    (lowerBetween before c after).length = (lowerBetween before c after').length := by
  simp only [lowerBetween]
  split <;> rfl

/-- What comes after a sigma matters to it if there is a letter before it. -/
theorem lowerBetween_eq_iff :
    lowerBetween before c after = lowerBetween before c after' ↔
      ¬(c = 'Σ' ∧ meetsCased before = true ∧ meetsCased after ≠ meetsCased after') := by
  by_cases hc : c = 'Σ'
  · cases hbefore : meetsCased before <;> cases hafter : meetsCased after <;>
      cases hafter' : meetsCased after' <;>
        simp [lowerBetween, hc, hbefore, hafter, hafter']
  · simp [lowerBetween, hc]

theorem length_lowerWithin (before cs after after' : List Char) :
    (lowerWithin before cs after).length = (lowerWithin before cs after').length := by
  induction cs generalizing before with
  | nil => rfl
  | cons c cs ih =>
    simp only [lowerWithin, List.length_append]
    rw [ih, length_lowerBetween before (cs ++ after) (cs ++ after')]

/-- Going on changes the lower case exactly if a sigma was at the end of a word and the word
goes on. -/
theorem lowerWithin_eq_iff :
    lowerWithin before cs after = lowerWithin before cs [] ↔
      ¬(SigmaEnds before cs ∧ meetsCased after = true) := by
  induction cs generalizing before with
  | nil => simp [lowerWithin, not_sigmaEnds_nil]
  | cons c cs ih =>
    have hsplit : lowerWithin before (c :: cs) after = lowerWithin before (c :: cs) [] ↔
        lowerBetween before c (cs ++ after) = lowerBetween before c cs ∧
          lowerWithin (c :: before) cs after = lowerWithin (c :: before) cs [] := by
      simp only [lowerWithin, List.append_nil]
      constructor
      · intro h
        exact List.append_inj h (length_lowerBetween ..)
      · rintro ⟨hhead, htail⟩
        rw [hhead, htail]
    rw [hsplit, ih, sigmaEnds_cons_iff, lowerBetween_eq_iff]
    by_cases hignored : ∀ y ∈ cs, inRanges caseIgnorableRanges y = true
    · rw [meetsCased_append_of_ignored hignored, meetsCased_of_ignored hignored]
      simp only [ne_eq, Bool.not_eq_false]
      tauto
    · rw [meetsCased_append_of_not_ignored hignored]
      simp only [hignored, and_false, ne_eq, not_true, false_or, not_false_iff, true_and]

/-! ## Beginnings -/

theorem lowerAfter_eq_lowerWithin (before cs : List Char) :
    lowerAfter before cs = lowerWithin before cs [] := by
  induction cs generalizing before with
  | nil => rfl
  | cons c cs ih => rw [lowerAfter, lowerWithin, ih, List.append_nil]

theorem lowerAfter_append (before cs ds : List Char) :
    lowerAfter before (cs ++ ds) =
      lowerWithin before cs ds ++ lowerAfter (cs.reverse ++ before) ds := by
  induction cs generalizing before with
  | nil => rfl
  | cons c cs ih =>
    simp only [List.cons_append, lowerAfter, lowerWithin, ih, List.append_assoc,
      List.reverse_cons, List.nil_append]

/-- Where the lower case of a text begins another one, the lower case of its beginning does so
as well, unless the beginning ends in a final sigma and the text goes on with a letter. -/
theorem lowerChars_isPrefix_iff {ts : List Char} (h : lowerChars (cs ++ ds) <+: ts) :
    lowerChars cs <+: ts ↔ ¬(EndsInFinalSigma cs ∧ meetsCased ds = true) := by
  rw [EndsInFinalSigma, ← lowerWithin_eq_iff, lowerChars, lowerAfter_eq_lowerWithin]
  rw [lowerChars, lowerAfter_append] at h
  have hbegins : lowerWithin [] cs ds <+: ts := (List.prefix_append ..).trans h
  have hlength := length_lowerWithin [] cs ds []
  constructor
  · intro halone
    have hwithin := List.prefix_of_prefix_length_le hbegins halone (Nat.le_of_eq hlength)
    exact hwithin.eq_of_length hlength
  · intro hsame
    rwa [← hsame]

end Dispatch.Text
