import Dispatch.Proofs.Parse.FirstWord
import Dispatch.Proofs.Parse.Route
/-!
# The last word of a line

Where nothing but a word is ahead, a child takes all of it or does not match: what it leaves
would have to start with a separator. Nothing is left for a redirect to be followed with,
either. So the parse ends behind the first of the eligible children that takes the word, and
those that come after it, however well they fit, are not asked
(`Dispatcher.parseAt_of_takesAll`).
-/
namespace Dispatch
variable {S E M : Type}

/-- The label takes all that is ahead. -/
structure Label.TakesAll (label : Label S E M) (c : Context S E M) {r : Reader} (taken : Taken r) :
    Prop where
  takes : label.take c r = .ok taken
  atEnd : taken.after.canRead = false

/-- What is ahead behind a match was ahead before it, if the text is the same. -/
theorem Taken.exists_rest? {r : Reader} {cs ds : List Char} (taken : Taken r)
    (hinput : taken.after.input = r.input) (hrest : r.rest? = some cs)
    (hafter : taken.after.rest? = some ds) : ∃ es, cs = es ++ ds := by
  obtain ⟨pre, htext, hcursor⟩ := Reader.rest?_eq_some_iff.1 hrest
  obtain ⟨pre', htext', hcursor'⟩ := Reader.rest?_eq_some_iff.1 hafter
  rw [hinput] at htext'
  have hle : Text.byteSize pre ≤ Text.byteSize pre' := by
    rw [hcursor, hcursor']
    exact taken.onward
  obtain ⟨es, -, hcs⟩ := Text.exists_append_of_byteSize_le (htext.symm.trans htext') hle
  exact ⟨es, hcs⟩

/-- A literal takes itself where it is all that is ahead. -/
theorem Label.exists_takesAll {r : Reader} {name : String} (hrest : r.rest? = some name.toList)
    (hname : ∀ ch ∈ name.toList, ch ≠ separator) (c : Context S E M) :
    ∃ taken : Taken r, (Label.literal name).TakesAll c taken := by
  rw [← List.append_nil name.toList] at hrest
  obtain ⟨taken, htake, hafter⟩ := take_word hrest hname endsWord_nil c
  exact ⟨taken, htake, Reader.canRead_of_rest?_nil (hafter ▸ Reader.rest?_advance hrest)⟩

namespace Offspring
variable {child : Offspring S E M} {c : Context S E M} {r : Reader} {taken : Taken r}

theorem matches_of_takesAll (h : child.label.TakesAll c taken) : child.Matches c taken :=
  ⟨h.takes, by simp [Taken.isCutOff, h.atEnd]⟩

/-- A child that keeps the text and matches the last word takes all of it. -/
theorem Matches.takesAll {cs : List Char} (h : child.Matches c taken)
    (keeps : child.label.KeepsText) (hrest : r.rest? = some cs)
    (hword : ∀ ch ∈ cs, ch ≠ separator) : child.label.TakesAll c taken := by
  refine ⟨h.1, Bool.eq_false_iff.2 fun more => ?_⟩
  obtain ⟨ds, hds⟩ := Reader.peek_eq_some_iff.1 (h.peek more)
  obtain ⟨es, rfl⟩ := taken.exists_rest? (keeps.input_eq h.1) hrest hds
  exact hword separator (by simp) rfl

end Offspring

/-- The line ends in one context, behind a node and with an executor or none. -/
structure Parse.EndsAt (p : Parse S E M) (id : Nat) (executor : Option E) : Prop where
  complete : p.isComplete = true
  ended : ∃ below range, p.chain = .single below ∧ below.nodes.getLast? = some ⟨id, range⟩ ∧
    below.executor = executor

theorem Parse.EndsAt.unique {p : Parse S E M} {id id' : Nat} {executor executor' : Option E}
    (h : p.EndsAt id executor) (h' : p.EndsAt id' executor') : id = id' := by
  obtain ⟨-, below, range, hchain, hlast, -⟩ := h
  obtain ⟨-, below', range', hchain', hlast', -⟩ := h'
  obtain rfl : below = below' := (Chain.mk.inj (hchain.symm.trans hchain')).1
  exact (ParsedNode.mk.inj (Option.some.inj (hlast.symm.trans hlast'))).1

namespace Dispatcher
variable {d : Dispatcher S E M} {id : Nat} {r : Reader} {c : Context S E M}
  {child : Offspring S E M} {before after : List (Offspring S E M)} {taken : Taken r}

section
variable (alone : ∀ other ∈ d.tree.eligible id r c.source, ∀ taken : Taken r,
  other.Matches c taken → other.label.TakesAll c taken)
include alone

/-- Where children take all or nothing, no redirect is followed. -/
theorem exists_survey : ∃ errors, d.survey id r c = .choice errors
    ((d.tree.eligible id r c.source).filterMap fun other => (d.trial c r other).possible?) := by
  cases hsurvey : d.survey id r c with
  | settled p =>
    obtain ⟨other, hother, htrial⟩ := Survey.exists_of_ofAttempts_eq_settled hsurvey
    obtain ⟨taken, -, hm, more, -⟩ := trial_eq_settled htrial
    rw [(alone other hother taken hm).atEnd] at more
    exact absurd more Bool.false_ne_true
  | choice errors parses =>
    obtain ⟨-, hparses, -⟩ := Survey.ofAttempts_eq_choice hsurvey
    exact ⟨errors, congrArg (Survey.choice errors) hparses⟩

/-- A child that does not take all is passed over. -/
theorem possible?_of_not_takesAll (mem : child ∈ d.tree.eligible id r c.source)
    (h : ∀ taken : Taken r, ¬child.label.TakesAll c taken) :
    (d.trial c r child).possible? = none := by
  rw [Option.eq_none_iff_forall_ne_some]
  intro p hp
  obtain ⟨taken, hm, -⟩ := trial_eq_possible (Attempt.possible?_eq_some_iff.1 hp)
  exact h taken (alone child mem taken hm)

/-- The parse ends behind the first child that takes all. -/
theorem parseAt_of_takesAll (helig : d.tree.eligible id r c.source = before ++ child :: after)
    (first : ∀ other ∈ before, ∀ taken : Taken r, ¬other.label.TakesAll c taken)
    (h : child.label.TakesAll c taken) :
    (d.parseAt id r c).EndsAt child.id child.node.executor := by
  have complete : (Parse.ended (child.visit c taken) taken.after).isComplete = true := by
    rw [Parse.isComplete_ended, h.atEnd]
    rfl
  have htrial : (d.trial c r child).possible? = some (.ended (child.visit c taken) taken.after) :=
    Attempt.possible?_eq_some_iff.2 (trial_of_atEnd (Offspring.matches_of_takesAll h) h.atEnd)
  have hpassed : before.filterMap (fun other => (d.trial c r other).possible?) = [] :=
    List.filterMap_eq_nil_iff.2 fun other hother =>
      possible?_of_not_takesAll alone (helig ▸ List.mem_append_left _ hother) (first other hother)
  obtain ⟨errors, hsurvey⟩ := d.exists_survey alone
  rw [parseAt_eq, hsurvey, helig, List.filterMap_append, hpassed, List.nil_append,
    List.filterMap_cons_some (f := fun other => (d.trial c r other).possible?) htrial,
    Survey.conclude,
    Parse.best_of_rank_eq_zero (Parse.rank_eq_zero complete rfl)]
  refine ⟨complete, child.visit c taken, taken.range, rfl, ?_, rfl⟩
  rw [child.visit_nodes, List.getLast?_concat]

end
end Dispatcher
end Dispatch
