import Dispatch.Text.Replace
import Mathlib.Data.List.Infix
/-!
# Where a mark is replaced

A mark is a pattern whose first character stands nowhere else in it, so that no two of its
occurrences overlap. Replacing it changes the length of a text by as much as each occurrence
does (`length_replaceFrom`).

A text can be made from one with gaps by putting a mark into each gap. To replace the mark is
then to fill the gaps, but the mark may also stand where no gap was, in the text itself or
across the edge of a gap, and there it is replaced as well. So the two come to the same
exactly if the mark stands in the gaps only, or if it is replaced by itself
(`replaceFrom_filled_eq_iff`).
-/
namespace Dispatch.Text
variable {pattern insertion cs : List Char} {first c : Char} {body : List Char}

/-- How often a pattern occurs in the characters. -/
def occurrences (pattern : List Char) : List Char → Nat
  | [] => 0
  | c :: cs => (if pattern.isPrefixOf (c :: cs) then 1 else 0) + occurrences pattern cs

/-! ## One character after the other -/

theorem replaceFrom_skip (pattern insertion : List Char) (skip : Nat) (cs : List Char) :
    replaceFrom pattern insertion skip cs = replaceFrom pattern insertion 0 (cs.drop skip) := by
  induction skip generalizing cs with
  | zero => rw [List.drop_zero]
  | succ skip ih =>
    cases cs with
    | nil => simp [replaceFrom]
    | cons c cs => rw [replaceFrom, ih, List.drop_succ_cons]

theorem replaceFrom_cons (h : ¬pattern <+: c :: cs) :
    replaceFrom pattern insertion 0 (c :: cs) = c :: replaceFrom pattern insertion 0 cs := by
  rw [replaceFrom, if_neg (by simpa using h)]

theorem occurrences_cons (h : ¬pattern <+: c :: cs) :
    occurrences pattern (c :: cs) = occurrences pattern cs := by
  rw [occurrences, if_neg (by simpa using h), Nat.zero_add]

theorem occurrences_le_cons (pattern : List Char) (c : Char) (cs : List Char) :
    occurrences pattern cs ≤ occurrences pattern (c :: cs) :=
  Nat.le_add_left ..

/-- A mark starts at none of the characters that are not its first one. -/
theorem not_isPrefix_cons (h : c ≠ first) : ¬first :: body <+: c :: cs := fun hstarts =>
  h (List.cons_prefix_cons.1 hstarts).1.symm

theorem replaceFrom_append {w : List Char} (h : first ∉ w) (insertion cs : List Char) :
    replaceFrom (first :: body) insertion 0 (w ++ cs) =
      w ++ replaceFrom (first :: body) insertion 0 cs := by
  induction w with
  | nil => rfl
  | cons c w ih =>
    rw [List.mem_cons, not_or] at h
    rw [List.cons_append, replaceFrom_cons (not_isPrefix_cons (Ne.symm h.1)), ih h.2,
      List.cons_append]

theorem occurrences_append {w : List Char} (h : first ∉ w) (cs : List Char) :
    occurrences (first :: body) (w ++ cs) = occurrences (first :: body) cs := by
  induction w with
  | nil => rfl
  | cons c w ih =>
    rw [List.mem_cons, not_or] at h
    rw [List.cons_append, occurrences_cons (not_isPrefix_cons (Ne.symm h.1)), ih h.2]

/-! ## One occurrence after the other -/

/-- What is inserted takes the place of the pattern. -/
theorem replaceFrom_pattern (first : Char) (body insertion cs : List Char) :
    replaceFrom (first :: body) insertion 0 (first :: body ++ cs) =
      insertion ++ replaceFrom (first :: body) insertion 0 cs := by
  have hstarts : (first :: body).isPrefixOf (first :: (body ++ cs)) = true := by simp
  rw [List.cons_append, replaceFrom, if_pos hstarts, replaceFrom_skip]
  simp

theorem occurrences_mark (mark : first ∉ body) (cs : List Char) :
    occurrences (first :: body) (first :: body ++ cs) =
      1 + occurrences (first :: body) cs := by
  have hstarts : (first :: body).isPrefixOf (first :: (body ++ cs)) = true := by simp
  rw [List.cons_append, occurrences, if_pos hstarts, occurrences_append mark]

/-- Another mark with the same first character is passed over. -/
theorem replaceFrom_other {other : List Char} (mark : first ∉ other)
    (h : ¬first :: body <+: first :: other ++ cs) (insertion : List Char) :
    replaceFrom (first :: body) insertion 0 (first :: other ++ cs) =
      first :: other ++ replaceFrom (first :: body) insertion 0 cs := by
  rw [List.cons_append] at h ⊢
  rw [replaceFrom_cons h, replaceFrom_append mark, List.cons_append]

theorem occurrences_other {other : List Char} (mark : first ∉ other)
    (h : ¬first :: body <+: first :: other ++ cs) :
    occurrences (first :: body) (first :: other ++ cs) = occurrences (first :: body) cs := by
  rw [List.cons_append] at h ⊢
  rw [occurrences_cons h, occurrences_append mark]

/-- A text is made of occurrences of a pattern and of characters at which none starts. -/
theorem occurrence_induction {motive : List Char → Prop} (pattern : List Char)
    (nonempty : pattern ≠ []) (nil : motive [])
    (occurs : ∀ cs, motive cs → motive (pattern ++ cs))
    (other : ∀ c cs, ¬pattern <+: c :: cs → motive cs → motive (c :: cs)) (cs : List Char) :
    motive cs := by
  induction hlength : cs.length using Nat.strongRecOn generalizing cs with
  | ind n ih =>
    subst hlength
    by_cases hstarts : pattern <+: cs
    · obtain ⟨rest, rfl⟩ := hstarts
      have hpos := List.length_pos_iff.2 nonempty
      exact occurs rest (ih _ (by rw [List.length_append]; omega) rest rfl)
    · cases cs with
      | nil => exact nil
      | cons c cs => exact other c cs hstarts (ih _ (Nat.lt_succ_self _) cs rfl)

/-- Each occurrence of a mark gives up its length for that of what is inserted. -/
theorem length_replaceFrom (mark : first ∉ body) (insertion cs : List Char) :
    (replaceFrom (first :: body) insertion 0 cs).length +
        (first :: body).length * occurrences (first :: body) cs =
      cs.length + insertion.length * occurrences (first :: body) cs := by
  induction cs using occurrence_induction (first :: body) (List.cons_ne_nil _ _) with
  | nil => simp [replaceFrom, occurrences]
  | occurs cs ih =>
    rw [replaceFrom_pattern, occurrences_mark mark, List.length_append, List.length_append,
      Nat.mul_add, Nat.mul_add, Nat.mul_one, Nat.mul_one]
    omega
  | other c cs hstarts ih =>
    rw [replaceFrom_cons hstarts, occurrences_cons hstarts]
    simp only [List.length_cons] at ih ⊢
    omega

/-- A mark that is replaced by itself stays as it is. -/
theorem replaceFrom_self (first : Char) (body cs : List Char) :
    replaceFrom (first :: body) (first :: body) 0 cs = cs := by
  induction cs using occurrence_induction (first :: body) (List.cons_ne_nil _ _) with
  | nil => rfl
  | occurs cs ih => rw [replaceFrom_pattern, ih]
  | other c cs hstarts ih => rw [replaceFrom_cons hstarts, ih]

/-! ## Texts with gaps -/

/-- The text that comes of putting the same characters into every gap. -/
def filled (insertion : List Char) (gapped : List (Option Char)) : List Char :=
  gapped.flatMap fun piece => piece.elim insertion ([·])

theorem filled_gap (insertion : List Char) (gapped : List (Option Char)) :
    filled insertion (none :: gapped) = insertion ++ filled insertion gapped := rfl

theorem filled_char (insertion : List Char) (c : Char) (gapped : List (Option Char)) :
    filled insertion (some c :: gapped) = c :: filled insertion gapped := rfl

theorem filled_map_some (insertion w : List Char) (gapped : List (Option Char)) :
    filled insertion (w.map some ++ gapped) = w ++ filled insertion gapped := by
  induction w with
  | nil => rfl
  | cons c w ih => rw [List.map_cons, List.cons_append, filled_char, ih, List.cons_append]

theorem length_filled (insertion : List Char) (gapped : List (Option Char)) :
    (filled insertion gapped).length + gapped.count none =
      gapped.length + insertion.length * gapped.count none := by
  induction gapped with
  | nil => rfl
  | cons piece gapped ih =>
    cases piece with
    | none =>
      rw [filled_gap, List.length_append, List.length_cons, List.count_cons_self, Nat.mul_succ]
      omega
    | some c =>
      rw [filled_char, List.length_cons, List.length_cons, List.count_cons_of_ne (by simp)]
      omega

/-- A mark stands in each of the gaps that it is put into. -/
theorem count_le_occurrences (mark : first ∉ body) (gapped : List (Option Char)) :
    gapped.count none ≤ occurrences (first :: body) (filled (first :: body) gapped) := by
  induction gapped with
  | nil => exact Nat.zero_le _
  | cons piece gapped ih =>
    cases piece with
    | none =>
      rw [filled_gap, occurrences_mark mark, List.count_cons_self]
      omega
    | some c =>
      rw [filled_char, List.count_cons_of_ne (by simp)]
      exact ih.trans (occurrences_le_cons ..)

/-- The rest of a mark that starts before a gap ends before it. -/
theorem exists_of_prefix_filled {w : List Char} (h : first ∉ w) {gapped : List (Option Char)}
    (hstarts : w <+: filled (first :: body) gapped) : ∃ rest, gapped = w.map some ++ rest := by
  induction w generalizing gapped with
  | nil => exact ⟨gapped, rfl⟩
  | cons c w ih =>
    rw [List.mem_cons, not_or] at h
    cases gapped with
    | nil => simp [filled] at hstarts
    | cons piece gapped =>
      cases piece with
      | none => exact absurd (List.cons_prefix_cons.1 hstarts).1.symm h.1
      | some d =>
        obtain ⟨rfl, hrest⟩ := List.cons_prefix_cons.1 hstarts
        obtain ⟨rest, rfl⟩ := ih h.2 hrest
        exact ⟨rest, rfl⟩

/-- If a mark is replaced where nothing is filled in, what it is replaced by has its length,
as the texts behind it differ by as much as this for each further mark. -/
theorem eq_mark_of_append_eq (mark : first ∉ body) {gapped : List (Option Char)}
    (heq : insertion ++ replaceFrom (first :: body) insertion 0 (filled (first :: body) gapped) =
      first :: body ++ filled insertion gapped) : insertion = first :: body := by
  have hlength := congrArg List.length heq
  rw [List.length_append, List.length_append] at hlength
  have hreplaced := length_replaceFrom mark insertion (filled (first :: body) gapped)
  have hmarked := length_filled (first :: body) gapped
  have hfilled := length_filled insertion gapped
  obtain ⟨more, hmore⟩ := Nat.exists_eq_add_of_le (count_le_occurrences mark gapped)
  rw [hmore, Nat.mul_add, Nat.mul_add] at hreplaced
  have hsame : insertion.length * (more + 1) = (first :: body).length * (more + 1) := by
    rw [Nat.mul_add_one, Nat.mul_add_one]
    omega
  exact List.append_inj_left heq (Nat.eq_of_mul_eq_mul_right (Nat.succ_pos more) hsame)

/-- To replace a mark is to fill the gaps that it stands in, exactly if it stands nowhere else
or is replaced by itself. -/
theorem replaceFrom_filled_eq_iff (mark : first ∉ body) (insertion : List Char)
    (gapped : List (Option Char)) :
    replaceFrom (first :: body) insertion 0 (filled (first :: body) gapped) =
        filled insertion gapped ↔
      occurrences (first :: body) (filled (first :: body) gapped) = gapped.count none ∨
        insertion = first :: body := by
  induction hlength : gapped.length using Nat.strongRecOn generalizing gapped with
  | ind n ih =>
    subst hlength
    rcases gapped with _ | ⟨_ | c, gapped⟩
    · simp [filled, replaceFrom, occurrences]
    · have hrest := ih _ (Nat.lt_succ_self _) gapped rfl
      rw [filled_gap, filled_gap, replaceFrom_pattern, occurrences_mark mark,
        List.count_cons_self, List.append_cancel_left_eq, hrest, Nat.add_comm 1,
        Nat.add_right_cancel_iff]
    · rw [filled_char, filled_char, List.count_cons_of_ne (by simp)]
      by_cases hstarts : first :: body <+: c :: filled (first :: body) gapped
      · -- The mark stands where no gap is, so it is replaced where nothing is filled in.
        obtain ⟨rfl, hbody⟩ := List.cons_prefix_cons.1 hstarts
        obtain ⟨rest, rfl⟩ := exists_of_prefix_filled mark hbody
        have hcount : (body.map some ++ rest).count none = rest.count none := by
          rw [List.count_append, List.count_eq_zero.2 (by simp), Nat.zero_add]
        have hle := count_le_occurrences mark rest
        rw [filled_map_some, filled_map_some, ← List.cons_append, ← List.cons_append,
          replaceFrom_pattern, occurrences_mark mark, hcount]
        constructor
        · exact fun heq => .inr (eq_mark_of_append_eq mark heq)
        · rintro (hno | rfl)
          · omega
          · rw [replaceFrom_self]
      · have hrest := ih _ (Nat.lt_succ_self _) gapped rfl
        rw [replaceFrom_cons hstarts, occurrences_cons hstarts, List.cons.injEq, and_iff_right rfl,
          hrest]

end Dispatch.Text
