import Dispatch.Diagnostic.SyntaxError
import Dispatch.Proofs.Text.Cut
import Mathlib.Data.List.DropRight
/-!
# Snippets

What a snippet shows of the input before a cursor. There is one wherever the cursor lies
between two characters, and it shows as much as fits into `contextAmount` bytes, counted from
the cursor back (`IsWindow`); dots stand for whatever does not fit. So the last
`contextAmount` characters are shown if all of them fit into as many bytes. Where some of them
take more than one byte there may be room for fewer, and the snippet cuts off the others
(`snippetAt?_eq_byCharacters_iff`).
-/
namespace Dispatch.SyntaxError
variable {input : String} {cursor : Nat} {before after cut shown : List Char}

/-! ## Where a snippet starts -/

theorem boundaryFrom_le (input : String) (start fuel : Nat) :
    boundaryFrom input start fuel ≤ start + fuel := by
  induction fuel generalizing start with
  | zero => simp [boundaryFrom]
  | succ fuel ih =>
    have hnext := ih (start + 1)
    simp only [boundaryFrom]
    split <;> omega

theorem le_boundaryFrom (input : String) (start fuel : Nat) :
    start ≤ boundaryFrom input start fuel := by
  induction fuel generalizing start with
  | zero => simp [boundaryFrom]
  | succ fuel ih =>
    have hnext := ih (start + 1)
    simp only [boundaryFrom]
    split <;> omega

/-- The search for a boundary finds one if there is one at its end. -/
theorem isBoundary_boundaryFrom {start fuel : Nat}
    (h : Text.isBoundary input (start + fuel) = true) :
    Text.isBoundary input (boundaryFrom input start fuel) = true := by
  induction fuel generalizing start with
  | zero => simpa [boundaryFrom] using h
  | succ fuel ih =>
    simp only [boundaryFrom]
    split
    · assumption
    · apply ih
      rwa [Nat.add_right_comm, Nat.add_assoc]

/-- The search goes past no boundary. -/
theorem boundaryFrom_le_of_isBoundary {start n : Nat} (fuel : Nat) (hstart : start ≤ n)
    (h : Text.isBoundary input n = true) : boundaryFrom input start fuel ≤ n := by
  induction fuel generalizing start with
  | zero => simpa [boundaryFrom] using hstart
  | succ fuel ih =>
    simp only [boundaryFrom]
    split
    · exact hstart
    · next hinside =>
      refine ih (Nat.lt_of_le_of_ne hstart ?_)
      rintro rfl
      exact hinside h

theorem snippetStart_le (input : String) (cursor : Nat) : snippetStart input cursor ≤ cursor := by
  have hle := boundaryFrom_le input (cursor - contextAmount) (cursor - (cursor - contextAmount))
  simp only [snippetStart]
  omega

theorem le_snippetStart (input : String) (cursor : Nat) :
    cursor ≤ snippetStart input cursor + contextAmount := by
  have hle := le_boundaryFrom input (cursor - contextAmount) (cursor - (cursor - contextAmount))
  simp only [snippetStart]
  omega

theorem isBoundary_snippetStart (h : Text.isBoundary input cursor = true) :
    Text.isBoundary input (snippetStart input cursor) = true := by
  refine isBoundary_boundaryFrom ?_
  rwa [Nat.add_sub_cancel' (Nat.sub_le ..)]

/-- There is a snippet for an offset between two characters, and for no other. -/
theorem isSome_snippetAt?_iff :
    (snippetAt? input cursor).isSome = true ↔ Text.isBoundary input cursor = true := by
  simp only [snippetAt?, Option.isSome_map, Text.isSome_slice?_iff, snippetStart_le, true_and]
  constructor
  · exact And.right
  · intro h
    exact ⟨isBoundary_snippetStart h, h⟩

/-! ## What a snippet shows -/

/-- Of the characters before a cursor, as many as fit into `contextAmount` bytes are shown,
and the others are cut off. -/
structure IsWindow (before cut shown : List Char) : Prop where
  split : before = cut ++ shown
  fits : Text.byteSize shown ≤ contextAmount
  /-- The last character that is cut off does not fit. -/
  full : ∀ c ∈ cut.getLast?, contextAmount < c.utf8Size + Text.byteSize shown

/-- A snippet is a window, with dots in front of it if anything is cut off. -/
theorem exists_isWindow (h : input.toList = before ++ after) : ∃ cut shown,
    IsWindow before cut shown ∧ snippetAt? input (Text.byteSize before) =
      some ((if cut = [] then "" else "...") ++ String.ofList shown ++ "<--[HERE]") := by
  have hboundary : Text.isBoundary input (Text.byteSize before) = true :=
    Text.isBoundary_iff.2 ⟨before, after, h, rfl⟩
  have hle := snippetStart_le input (Text.byteSize before)
  obtain ⟨cut, rest, hcut, hstart⟩ := Text.isBoundary_iff.1 (isBoundary_snippetStart hboundary)
  obtain ⟨shown, rfl, rfl⟩ :=
    Text.exists_append_of_byteSize_le (hcut.symm.trans h) (hstart.symm ▸ hle)
  refine ⟨cut, shown, ⟨rfl, ?fits, ?full⟩, ?snippet⟩
  case fits =>
    have hge := le_snippetStart input (Text.byteSize (cut ++ shown))
    rw [← hstart, Text.byteSize_append] at hge
    omega
  case full =>
    intro c hc
    obtain ⟨others, rfl⟩ := List.getLast?_eq_some_iff.1 hc
    -- The search for the start has passed over the boundary before `c`.
    have hothers : Text.isBoundary input (Text.byteSize others) = true :=
      Text.isBoundary_iff.2 ⟨others, _, by rw [hcut, List.append_assoc], rfl⟩
    have hpassed : Text.byteSize others <
        Text.byteSize (others ++ [c] ++ shown) - contextAmount := by
      by_contra hreached
      have hstop := boundaryFrom_le_of_isBoundary
        (Text.byteSize (others ++ [c] ++ shown) -
          (Text.byteSize (others ++ [c] ++ shown) - contextAmount))
        (Nat.not_lt.1 hreached) hothers
      have hpos := c.utf8Size_pos
      rw [← snippetStart, ← hstart] at hstop
      simp only [Text.byteSize_append, Text.byteSize_cons, Text.byteSize_nil] at hstop
      omega
    simp only [Text.byteSize_append, Text.byteSize_cons, Text.byteSize_nil] at hpassed
    omega
  case snippet =>
    have hdots : 0 < Text.byteSize cut ↔ cut ≠ [] := by
      rw [Nat.pos_iff_ne_zero]
      exact not_congr ⟨Text.eq_nil_of_byteSize_eq_zero, fun hnil => by rw [hnil]; rfl⟩
    rw [snippetAt?, ← hstart, Text.byteSize_append, Text.slice?_of_toList_eq hcut]
    simp only [hdots, Option.map_some, ite_not]

/-- Whatever ends at the cursor and fits is shown. -/
theorem IsWindow.isSuffix (h : IsWindow before cut shown) {w : List Char} (hw : w <:+ before)
    (fits : Text.byteSize w ≤ contextAmount) : w <:+ shown := by
  obtain ⟨others, hothers⟩ := hw
  rcases List.append_eq_append_iff.1 (hothers.trans h.split) with
    ⟨more, rfl, rfl⟩ | ⟨more, rfl, rfl⟩
  · -- The window goes on into what is cut off only if there is nothing more of it.
    obtain rfl | ⟨more, c, rfl⟩ := List.eq_nil_or_concat' more
    · exact List.suffix_refl shown
    · have hfull := h.full c (by simp)
      simp only [Text.byteSize_append, Text.byteSize_cons, Text.byteSize_nil] at fits
      omega
  · exact List.suffix_append more w

/-! ## Windows and characters -/

/-- A snippet that shows the last `contextAmount` characters, with dots for others before
them. -/
def byCharacters (before : List Char) : String :=
  (if before.length ≤ contextAmount then "" else "...") ++
    String.ofList (before.rtake contextAmount) ++ "<--[HERE]"

/-- No character has less than a byte. -/
theorem length_le_byteSize (cs : List Char) : cs.length ≤ Text.byteSize cs := by
  induction cs with
  | nil => simp
  | cons c cs ih =>
    have hpos := c.utf8Size_pos
    simp only [List.length_cons, Text.byteSize_cons]
    omega

/-- Nothing is cut off exactly if all of it fits. -/
theorem IsWindow.cut_eq_nil_iff (h : IsWindow before cut shown) :
    cut = [] ↔ Text.byteSize before ≤ contextAmount := by
  constructor
  · rintro rfl
    rw [h.split]
    exact h.fits
  · intro fits
    have hall := h.isSuffix (List.suffix_refl before) fits
    have hlength := hall.length_le
    rw [h.split, List.length_append] at hlength
    exact List.eq_nil_of_length_eq_zero (by omega)

/-- Where there are more than `contextAmount` characters, these are the window exactly if they
fit. -/
theorem IsWindow.shown_eq_iff (h : IsWindow before cut shown)
    (many : contextAmount < before.length) :
    shown = before.rtake contextAmount ↔
      Text.byteSize (before.rtake contextAmount) ≤ contextAmount := by
  constructor
  · intro hshown
    rw [← hshown]
    exact h.fits
  · intro fits
    have hsuffix := h.isSuffix (List.drop_suffix _ before) fits
    have hlength : (before.rtake contextAmount).length = contextAmount := by
      rw [List.rtake, List.length_drop]
      omega
    have hle := (length_le_byteSize shown).trans h.fits
    exact (hsuffix.eq_of_length_le (hlength.symm ▸ hle)).symm

/-- Three dots are cut off exactly if they stand before `contextAmount` bytes. -/
theorem IsWindow.cut_eq_dots_iff (h : IsWindow before cut shown) :
    cut = "...".toList ↔
      ∃ rest, before = "...".toList ++ rest ∧ Text.byteSize rest = contextAmount := by
  constructor
  · rintro rfl
    have hfull := h.full '.' (by decide)
    have hone : '.'.utf8Size = 1 := by decide
    have hfits := h.fits
    exact ⟨shown, h.split, by omega⟩
  · rintro ⟨rest, hbefore, hrest⟩
    have hsuffix := h.isSuffix (hbefore ▸ List.suffix_append _ rest) hrest.le
    obtain ⟨more, rfl⟩ := hsuffix
    have hfits := h.fits
    have hmore : more = [] := by
      refine Text.eq_nil_of_byteSize_eq_zero ?_
      rw [Text.byteSize_append] at hfits
      omega
    subst hmore
    exact List.append_cancel_right (h.split.symm.trans hbefore)

/-- A window is what the characters are if the last `contextAmount` characters fit into it.
The only other case is that of three dots in the input, which the dots of the snippet
replace. -/
theorem IsWindow.eq_byCharacters_iff (h : IsWindow before cut shown) :
    (if cut = [] then "" else "...") ++ String.ofList shown ++ "<--[HERE]" = byCharacters before ↔
      Text.byteSize (before.rtake contextAmount) ≤ contextAmount ∨
        before.length ≤ contextAmount ∧
          ∃ rest, before = "...".toList ++ rest ∧ Text.byteSize rest = contextAmount := by
  rw [byCharacters, ← String.toList_inj]
  simp only [String.toList_append, String.toList_ofList, List.append_cancel_right_eq]
  by_cases few : before.length ≤ contextAmount
  · have hall : before.rtake contextAmount = before := by
      rw [List.rtake, Nat.sub_eq_zero_of_le few, List.drop_zero]
    rw [if_pos few, hall, ← h.cut_eq_nil_iff, ← h.cut_eq_dots_iff, and_iff_right few]
    by_cases hcut : cut = []
    · simp [hcut, h.split]
    · rw [if_neg hcut, or_iff_right hcut, h.split, String.toList_empty, List.nil_append,
        List.append_cancel_right_eq]
      exact eq_comm
  · have hcut : cut ≠ [] := by
      rw [Ne, h.cut_eq_nil_iff]
      exact fun fits => few ((length_le_byteSize before).trans fits)
    rw [if_neg few, if_neg hcut, List.append_cancel_left_eq, h.shown_eq_iff (Nat.lt_of_not_le few)]
    simp [few]

/-- An error between two characters of its input has a snippet, which is a window of
`contextAmount` bytes. It is what a window of `contextAmount` characters would be exactly if
these characters fit into as many bytes, but for the case in which its dots take the place of
dots. -/
theorem snippetAt?_eq_byCharacters_iff {error : SyntaxError} (h : input.toList = before ++ after)
    (place : error.place? = some (input, Text.byteSize before)) :
    ∃ cut shown snippet, IsWindow before cut shown ∧
      snippet = (if cut = [] then "" else "...") ++ String.ofList shown ++ "<--[HERE]" ∧
      snippetAt? input (Text.byteSize before) = some snippet ∧
      error.text? = some (error.message ++ " at position " ++
        Decimal.natText (Text.byteSize before) ++ ": " ++ snippet) ∧
      (snippet = byCharacters before ↔
        Text.byteSize (before.rtake contextAmount) ≤ contextAmount ∨
          before.length ≤ contextAmount ∧
            ∃ rest, before = "...".toList ++ rest ∧ Text.byteSize rest = contextAmount) := by
  obtain ⟨cut, shown, hwindow, hsnippet⟩ := exists_isWindow h
  refine ⟨cut, shown, _, hwindow, rfl, hsnippet, ?_, hwindow.eq_byCharacters_iff⟩
  simp only [text?, place, hsnippet, Option.map_some]

/-- Of eleven characters, one of them of two bytes, nine are shown instead of ten. -/
theorem snippet_ne_byCharacters_accent : ∃ error : SyntaxError,
    error.place? = some ("aé234567890", Text.byteSize "aé234567890".toList) ∧
    snippetAt? "aé234567890" 12 = some "...234567890<--[HERE]" ∧
    byCharacters "aé234567890".toList = "...é234567890<--[HERE]" ∧
    ¬"...234567890<--[HERE]" = byCharacters "aé234567890".toList := by
  let error : SyntaxError := ⟨"X", "m", some "aé234567890", some 12, none⟩
  have place : error.place? = some ("aé234567890", Text.byteSize "aé234567890".toList) := by decide
  have ten : byCharacters "aé234567890".toList = "...é234567890<--[HERE]" := by decide
  have nine : snippetAt? "aé234567890" (Text.byteSize "aé234567890".toList) =
      some "...234567890<--[HERE]" := by decide
  obtain ⟨-, -, snippet, -, -, hsnippet, -, hiff⟩ :=
    snippetAt?_eq_byCharacters_iff (List.append_nil _).symm place
  obtain rfl := Option.some.inj (nine.symm.trans hsnippet)
  refine ⟨error, place, nine, ten, fun heq => ?_⟩
  rcases hiff.1 heq with fits | ⟨few, -⟩
  · exact absurd fits (by decide)
  · exact absurd few (by decide)

end Dispatch.SyntaxError
