import Dispatch.Text.Blank
import Dispatch.Text.LowerCase
/-!
# Lower case is kept

A character in lower case has no other lower case, wherever it stands. This is a property of
the table: no run maps into a run. The table is checked once, run against run
(`lowerRuns_avoid`), and what is said of texts follows character by character: lower-casing
twice is lower-casing once (`toLower_toLower`), and a word stays a word (`isWord_toLower`).
-/
namespace Dispatch.Text

namespace LowerRun

/-- Whether the images are code points of characters. -/
def isScalar (run : LowerRun) : Bool :=
  (run.image + (run.last - run.first)).blt 0xd800 ||
    (Nat.blt 0xdfff run.image && (run.image + (run.last - run.first)).blt 0x110000)

/-- Whether no image is in another run: the images lie beyond its ends or between its
steps. -/
def avoids (run other : LowerRun) : Bool :=
  (run.image + (run.last - run.first)).blt other.first || other.last.blt run.image ||
    ((run.stride.beq 2 || run.last.beq run.first) && other.stride.beq 2 &&
      ((run.image + other.first) % 2).beq 1)

theorem exists_of_image? {run : LowerRun} {c n : Nat} (h : run.image? c = some n) :
    ∃ k, k ≤ run.last - run.first ∧ k % run.stride = 0 ∧ n = run.image + k := by
  simp only [image?] at h
  split at h
  · next hc => exact ⟨c - run.first, by omega, hc.2.2, (Option.some.inj h).symm⟩
  · simp at h

theorem image?_of_avoids {run other : LowerRun} (h : run.avoids other = true) {k : Nat}
    (hk : k ≤ run.last - run.first) (hstride : k % run.stride = 0) :
    other.image? (run.image + k) = none := by
  simp only [image?, ite_eq_right_iff, reduceCtorEq, imp_false]
  rintro ⟨hfirst, hlast, hother⟩
  simp only [avoids, Bool.or_eq_true, Bool.and_eq_true, Nat.blt_eq, Nat.beq_eq] at h
  obtain (h | h) | ⟨⟨hsteps, htwo⟩, hodd⟩ := h
  · omega
  · omega
  · rw [htwo] at hother
    obtain hsteps | hsteps := hsteps
    · rw [hsteps] at hstride
      omega
    · omega

end LowerRun

/-- What else the table does not map to: the blanks, and the capital letter with a dot
above. -/
def exemptRuns : List LowerRun :=
  [⟨0x9, 0xd, 1, 0⟩, ⟨0x20, 0x20, 1, 0⟩, ⟨0x85, 0x85, 1, 0⟩, ⟨0xa0, 0xa0, 1, 0⟩,
    ⟨0x1680, 0x1680, 1, 0⟩, ⟨0x2000, 0x200a, 1, 0⟩, ⟨0x2028, 0x2029, 1, 0⟩,
    ⟨0x202f, 0x202f, 1, 0⟩, ⟨0x205f, 0x205f, 1, 0⟩, ⟨0x3000, 0x3000, 1, 0⟩, ⟨0x130, 0x130, 1, 0⟩]

theorem lowerRuns_avoid :
    (lowerRuns.all fun run =>
      run.isScalar && lowerRuns.all run.avoids && exemptRuns.all run.avoids) = true := by
  decide +kernel

theorem image?_exempt {c : Char} (h : isBlank c = true ∨ c = 'İ') :
    ∃ run ∈ exemptRuns, run.image? c.toNat ≠ none := by
  obtain h | rfl := h
  · simp only [isBlank, Bool.or_eq_true, Bool.and_eq_true, decide_eq_true_eq, beq_iff_eq] at h
    simp only [exemptRuns, List.mem_cons, List.not_mem_nil, or_false, exists_eq_or_imp,
      exists_eq_left, LowerRun.image?, Nat.mod_one, and_true, ne_eq, ite_eq_right_iff, reduceCtorEq,
      imp_false, Decidable.not_not]
    omega
  · decide +kernel

/-- A character that is its own lower case. -/
structure IsLower (c : Char) : Prop where
  no_dot : c ≠ 'İ'
  no_image : ∀ run ∈ lowerRuns, run.image? c.toNat = none

/-- The image of a character is in lower case and is no blank. -/
theorem isLower_image {run : LowerRun} (hrun : run ∈ lowerRuns) {c : Char} {n : Nat}
    (h : run.image? c.toNat = some n) :
    IsLower (Char.ofNat n) ∧ isBlank (Char.ofNat n) = false := by
  obtain ⟨k, hk, hstride, rfl⟩ := LowerRun.exists_of_image? h
  have htable := List.all_eq_true.1 lowerRuns_avoid run hrun
  simp only [Bool.and_eq_true, List.all_eq_true] at htable
  obtain ⟨⟨hscalar, hruns⟩, hexempt⟩ := htable
  have hvalid : (run.image + k).isValidChar := by
    simp only [LowerRun.isScalar, Bool.or_eq_true, Bool.and_eq_true, Nat.blt_eq] at hscalar
    simp only [Nat.isValidChar]
    omega
  have hnat : (Char.ofNat (run.image + k)).toNat = run.image + k := by
    rw [Char.ofNat, dif_pos hvalid]
    rfl
  have hfree : ∀ other, run.avoids other = true →
      other.image? (Char.ofNat (run.image + k)).toNat = none := by
    intro other havoids
    rw [hnat]
    exact LowerRun.image?_of_avoids havoids hk hstride
  have hkept : ¬(isBlank (Char.ofNat (run.image + k)) = true ∨
      Char.ofNat (run.image + k) = 'İ') := by
    intro hbad
    obtain ⟨other, hother, hsome⟩ := image?_exempt hbad
    exact hsome (hfree other (hexempt other hother))
  rw [not_or] at hkept
  exact ⟨⟨hkept.2, fun other hother => hfree other (hruns other hother)⟩,
    Bool.eq_false_iff.2 hkept.1⟩

/-- The lower case of a character is made of characters in lower case, and of a blank only if
it was one. -/
theorem isLower_of_mem_lowerBetween {before after : List Char} {c x : Char}
    (h : x ∈ lowerBetween before c after) :
    IsLower x ∧ (isBlank c = false → isBlank x = false) := by
  have hfixed : ∀ y ∈ ['ς', 'σ', 'i', '\u0307'], IsLower y ∧ isBlank y = false := by
    intro y hy
    have htable : (['ς', 'σ', 'i', '\u0307'].all fun y => y != 'İ' && !isBlank y &&
        lowerRuns.all fun run => (run.image? y.toNat).isNone) = true := by decide +kernel
    have hall := List.all_eq_true.1 htable y hy
    simp only [Bool.and_eq_true, bne_iff_ne, Bool.not_eq_true', List.all_eq_true,
      Option.isNone_iff_eq_none] at hall
    exact ⟨⟨hall.1.1, hall.2⟩, hall.1.2⟩
  simp only [lowerBetween, lowerChar] at h
  split at h
  · have hmem : x ∈ ['ς', 'σ', 'i', '\u0307'] := by
      obtain rfl := List.mem_singleton.1 h
      split <;> simp
    exact ⟨(hfixed x hmem).1, fun _ => (hfixed x hmem).2⟩
  · split at h
    · have hmem : x ∈ ['ς', 'σ', 'i', '\u0307'] := List.mem_cons_of_mem _ (List.mem_cons_of_mem _ h)
      exact ⟨(hfixed x hmem).1, fun _ => (hfixed x hmem).2⟩
    · next hdot =>
      split at h
      · next image himage =>
        obtain rfl := List.mem_singleton.1 h
        obtain ⟨run, hrun, hsome⟩ := List.exists_of_findSome?_eq_some himage
        obtain ⟨hlower, hblank⟩ := isLower_image hrun hsome
        exact ⟨hlower, fun _ => hblank⟩
      · next hnone =>
        obtain rfl := List.mem_singleton.1 h
        exact ⟨⟨hdot, List.findSome?_eq_none_iff.1 hnone⟩, id⟩

/-- A character in lower case stays as it is, whatever stands around it. -/
theorem IsLower.lowerBetween_eq {c : Char} (h : IsLower c) (before after : List Char) :
    lowerBetween before c after = [c] := by
  have hsigma : c ≠ 'Σ' := by
    rintro rfl
    have htable : (lowerRuns.any fun run => (run.image? 'Σ'.toNat).isSome) = true := by
      decide +kernel
    obtain ⟨run, hrun, hsome⟩ := List.any_eq_true.1 htable
    rw [h.no_image run hrun] at hsome
    simp at hsome
  simp only [lowerBetween, if_neg hsigma, lowerChar, if_neg h.no_dot,
    List.findSome?_eq_none_iff.2 h.no_image]

theorem isLower_of_mem_lowerAfter {before cs : List Char} {x : Char}
    (h : x ∈ lowerAfter before cs) :
    IsLower x ∧ ((∀ c ∈ cs, isBlank c = false) → isBlank x = false) := by
  induction cs generalizing before with
  | nil => simp [lowerAfter] at h
  | cons c cs ih =>
    rw [lowerAfter, List.mem_append] at h
    obtain h | h := h
    · obtain ⟨hlower, hblank⟩ := isLower_of_mem_lowerBetween h
      exact ⟨hlower, fun hcs => hblank (hcs c (by simp))⟩
    · obtain ⟨hlower, hblank⟩ := ih h
      exact ⟨hlower, fun hcs => hblank fun d hd => hcs d (by simp [hd])⟩

theorem lowerAfter_eq_self {cs : List Char} (h : ∀ c ∈ cs, IsLower c) (before : List Char) :
    lowerAfter before cs = cs := by
  induction cs generalizing before with
  | nil => rfl
  | cons c cs ih =>
    rw [lowerAfter, (h c (by simp)).lowerBetween_eq, ih fun d hd => h d (by simp [hd])]
    rfl

theorem toLower_toLower (s : String) : toLower (toLower s) = toLower s := by
  have hlower : ∀ c ∈ lowerChars s.toList, IsLower c :=
    fun c hc => (isLower_of_mem_lowerAfter hc).1
  rw [toLower, toLower, String.toList_ofList, lowerChars, lowerAfter_eq_self hlower]

theorem lowerBetween_ne_nil (before after : List Char) (c : Char) :
    lowerBetween before c after ≠ [] := by
  simp only [lowerBetween, lowerChar]
  split
  · simp
  · split
    · simp
    · split <;> simp

theorem isWord_iff {s : String} :
    isWord s = true ↔ s.toList ≠ [] ∧ ∀ c ∈ s.toList, isBlank c = false := by
  simp [isWord]

theorem isWord_toLower {s : String} (h : isWord s = true) : isWord (toLower s) = true := by
  rw [isWord_iff] at h ⊢
  rw [toLower, String.toList_ofList]
  refine ⟨?_, fun c hc => (isLower_of_mem_lowerAfter hc).2 h.2⟩
  cases hs : s.toList with
  | nil => exact absurd hs h.1
  | cons c cs => simp [lowerChars, lowerAfter, lowerBetween_ne_nil]

end Dispatch.Text
