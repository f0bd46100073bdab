import Dispatch.Proofs.Execution.Verdict
import Dispatch.Proofs.Parse.Places
import Dispatch.Proofs.Reader.KeptText
import Dispatch.Proofs.Tree.Change
/-!
# Unknown commands and unknown arguments

A line with input left over, and without a single error to say why, is refused as an unknown
command or for an unknown argument, at the reader. Which of the two it is, is told from the
bytes that the first context covers. It covers some as soon as it has visited two nodes, since
a separator lies between them, but a single node may have taken nothing
(`Context.IsDerived.isEmpty_range_iff`). So the command counts as unknown if no node was
visited, or only one, which took nothing at the start of the line; and then the line goes on
with a separator (`refuses_unknownCommand_iff`).
-/
namespace Dispatch
variable {S E M : Type}

/-- A context that reaches to the end of its last node covers no byte exactly if it has
visited nothing but one node at most that took nothing. -/
theorem Context.IsDerived.isEmpty_range_iff {d : Dispatcher S E M} {source : S} {input : String}
    {root start depth : Nat} {c : Context S E M}
    (h : c.IsDerived d source input root start depth) (filled : c.IsFilled) :
    c.range.isEmpty = true ↔ c.nodes = [] ∨ ∃ id, c.nodes = [⟨id, .point start⟩] := by
  have hempty : c.range.isEmpty = true ↔ c.range.stop = start := by
    rw [Span.isEmpty, beq_iff_eq, h.start_eq, eq_comm]
  have hbefore := h.pairwise_before
  have hstart := h.start_le
  have hstop := h.stop_le filled
  rw [hempty]
  constructor
  · intro heq
    rcases hnodes : c.nodes with _ | ⟨u, _ | ⟨v, rest⟩⟩
    · exact .inl rfl
    · obtain ⟨id, range⟩ := u
      have hle : start ≤ range.start := hstart ⟨id, range⟩ (by simp [hnodes])
      have hge : range.stop ≤ start := heq ▸ hstop ⟨id, range⟩ (by simp [hnodes])
      have hordered := range.ordered
      have hpoint : range = .point start := by
        cases range
        simp only [Span.point, Span.mk.injEq] at hle hge hordered ⊢
        omega
      exact .inr ⟨id, hpoint ▸ rfl⟩
    · -- The second node starts behind the separator after the first one.
      rw [hnodes] at hbefore
      have hgap : u.range.stop < v.range.start :=
        (List.pairwise_cons.1 hbefore).1 v List.mem_cons_self
      have hle := hstart u (by simp [hnodes])
      have hge := hstop v (by simp [hnodes])
      have hu := u.range.ordered
      have hv := v.range.ordered
      omega
  · rintro (hnodes | ⟨id, hnodes⟩)
    · rw [filled, hnodes, h.start_eq]
      rfl
    · rw [filled, hnodes]
      rfl

/-- Without exactly one error, the bytes that the first context covers tell what is wrong. -/
theorem Parse.stuckError_of_length_ne_one {p : Parse S E M} (several : p.errors.length ≠ 1) :
    p.stuckError = p.reader.error
      (if p.chain.outer.range.isEmpty then .unknownCommand else .unknownArgument) [] := by
  rw [stuckError]
  rcases herrors : p.errors with _ | ⟨_, _ | ⟨_, _⟩⟩
  · exact (apply_ite (p.reader.error · []) _ _ _).symm
  · simp [herrors] at several
  · exact (apply_ite (p.reader.error · []) _ _ _).symm

namespace Dispatcher
variable {d : Dispatcher S E M}

/-- If input is left over, the last node of the first context stands in front of a separator,
where parsers keep the text. -/
theorem Yields.charAt?_of_isComplete_eq_false {node : Nat} {r : Reader} {c : Context S E M}
    {p : Parse S E M} (h : d.Yields node r c p) (keeps : d.tree.KeepsText)
    (stuck : p.isComplete = false)
    (before : ∀ v, c.nodes.getLast? = some v →
      Text.charAt? r.input v.range.stop = some separator) :
    ∀ v, p.chain.outer.nodes.getLast? = some v →
      Text.charAt? r.input v.range.stop = some separator := by
  have hvisit : ∀ {r : Reader} {c : Context S E M} {child : Offspring S E M} {taken : Taken r},
      taken.after.input = r.input → child.Matches c taken → taken.after.canRead = true →
      ∀ v, (child.visit c taken).nodes.getLast? = some v →
        Text.charAt? r.input v.range.stop = some separator := by
    intro r c child taken hinput matched more v hv
    obtain rfl : ⟨child.id, taken.range⟩ = v := by simpa using hv
    rw [← hinput]
    exact Reader.charAt?_of_peek (matched.peek more)
  induction h with
  | stuck _ => exact before
  | ended mem matched _ => exact hvisit (matched.input_eq keeps mem) matched (by simpa using stuck)
  | @descended _ _ _ _ taken _ mem matched _ more _ ih =>
    have hbefore := hvisit (matched.input_eq keeps mem) matched
      (Reader.canRead_of_canReadBytes more)
    have hinput : taken.after.pastSeparator.input = _ := matched.input_eq keeps mem
    rw [← hinput] at hbefore ⊢
    exact ih stuck hbefore
  | redirected mem matched _ more _ _ _ =>
    exact hvisit (matched.input_eq keeps mem) matched more

/-- A line with input left over and not exactly one error is refused at the reader, either as
an unknown command or for an unknown argument. The command counts as unknown exactly if no
node was visited in the first context, where the reader is still at the start of the line, or
a single one that took nothing. Where parsers keep the text, that one stands in front of a
separator there. -/
theorem refuses_unknownCommand_iff (d : Dispatcher S E M) {input : String} {source : S}
    (stuck : (d.parse input source).isComplete = false)
    (several : (d.parse input source).errors.length ≠ 1) :
    ∃ error, d.Refuses input source (.malformed error) ∧
      error.place? = some ((d.parse input source).reader.input,
        (d.parse input source).reader.cursor) ∧
      (error.id = "CMD2003" ∨ error.id = "CMD2004") ∧
      (error.id = "CMD2003" ↔ (d.parse input source).chain.outer.nodes = [] ∨
        ∃ id, (d.parse input source).chain.outer.nodes = [⟨id, .point 0⟩]) ∧
      ((d.parse input source).chain.outer.nodes = [] →
        (d.parse input source).reader.cursor = 0) ∧
      (d.tree.KeepsText → (d.parse input source).reader.input = input ∧
        ∀ id, (d.parse input source).chain.outer.nodes = [⟨id, .point 0⟩] →
          Text.charAt? input 0 = some separator) := by
  have hyields := d.parseAt_yields Tree.root (.ofString input) (.start source input Tree.root 0)
  have hread : (d.parse input source).reader.canRead = true := by
    simpa [Parse.isComplete] using stuck
  have hderived : (d.parse input source).chain.outer.IsDerived d source input Tree.root 0 0 :=
    (d.parseAt_derives (Reader.isOnBoundary_ofString input) Tree.root source).outer
  have hfilled : (d.parse input source).chain.outer.IsFilled :=
    hyields.isFilled rfl (Nat.le_refl _) _ List.mem_cons_self
  have hid : ∀ diagnostic, ((d.parse input source).reader.error diagnostic []).id =
      diagnostic.id := fun _ => rfl
  refine ⟨_, refuses_of_not_isComplete stuck, ?place, ?codes, ?unknown, ?start, ?single⟩
  case place =>
    rw [Reader.canRead_iff, Reader.totalSize] at hread
    rw [Parse.stuckError_of_length_ne_one several, Reader.error]
    exact SyntaxError.place?_locate _ (by omega)
  case codes =>
    rw [Parse.stuckError_of_length_ne_one several, hid]
    split
    · exact .inl rfl
    · exact .inr rfl
  case unknown =>
    rw [Parse.stuckError_of_length_ne_one several, hid, ← hderived.isEmpty_range_iff hfilled]
    split
    · next hempty => exact iff_of_true rfl hempty
    · next hempty => exact iff_of_false (by decide) hempty
  case start =>
    intro hnodes
    rcases hyields.stopped_or_visited with ⟨-, hreader⟩ | ⟨first, rest, hvisited⟩
    · exact congrArg Reader.cursor hreader
    · rw [← parse, hnodes] at hvisited
      simp at hvisited
  case single =>
    refine fun keeps => ⟨hyields.input_eq keeps, fun id hnodes => ?_⟩
    exact hyields.charAt?_of_isComplete_eq_false keeps stuck (by simp [Context.start])
      ⟨id, .point 0⟩ (by rw [← parse, hnodes]; rfl)

/-- A command whose name is the empty text. -/
def unnamed : Dispatcher Unit Nat Unit where
  tree := Tree.empty.afterAll [.register ((Sprout.literal "").executes 1)]
  config := {}

/-- Behind a first separator the command has been recognized, and what follows it is refused
as an unknown command. -/
theorem refuses_unknownCommand_unnamed :
    (unnamed.parse " foo" ()).isComplete = false ∧ (unnamed.parse " foo" ()).errors.length ≠ 1 ∧
    (unnamed.parse " foo" ()).chain.outer.nodes = [⟨1, .point 0⟩] ∧
    ∃ error, unnamed.Refuses " foo" () (.malformed error) ∧ error.id = "CMD2003" ∧
      error.place? = some (" foo", 1) := by
  have stuck : (unnamed.parse " foo" ()).isComplete = false := by decide +kernel
  have several : (unnamed.parse " foo" ()).errors.length ≠ 1 := by decide +kernel
  have visited : (unnamed.parse " foo" ()).chain.outer.nodes = [⟨1, .point 0⟩] := by
    decide +kernel
  have cursor : (unnamed.parse " foo" ()).reader.cursor = 1 := by decide +kernel
  have keeps : unnamed.tree.KeepsText := Tree.keepsText_of_isLiteral (by decide +kernel)
  obtain ⟨error, refused, place, -, unknown, -, kept⟩ :=
    unnamed.refuses_unknownCommand_iff stuck several
  rw [cursor, (kept keeps).1] at place
  exact ⟨stuck, several, visited, error, refused, unknown.2 (.inr ⟨1, visited⟩), place⟩

end Dispatcher
end Dispatch
