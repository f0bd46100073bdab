import Dispatch.Completion
import Dispatch.Proofs.Text.FinalSigma
import Dispatch.Proofs.Tree.Change
/-!
# Which proposals are listed

A proposal is listed if its lower case begins with the lower case of what was typed. One that
begins with what was typed, letter for letter, should be among them, and typing on should only
take proposals away. Both hold except for one case, and in that case both fail: what was typed
ends in a final sigma, which is no final sigma in the proposal (`mem_texts_iff_of_toList_eq`).
-/
namespace Dispatch
variable {S E M : Type} {text typed : String}

theorem continues_iff :
    continues typed text = true ↔
      Text.lowerChars typed.toList <+: Text.lowerChars text.toList := by
  simp [continues, Text.toLower]

/-- Going through texts adds those that were not seen. -/
theorem mem_foldl_unseen_iff {texts seen : List String} :
    text ∈ texts.foldl (fun seen t => if seen.contains t then seen else seen ++ [t]) seen ↔
      text ∈ seen ∨ text ∈ texts := by
  induction texts generalizing seen with
  | nil => simp
  | cons t rest ih =>
    rw [List.foldl_cons, ih, List.mem_cons]
    by_cases hseen : t ∈ seen
    · simp only [List.contains_iff_mem, hseen, if_true]
      constructor
      · rintro (h | h)
        · exact .inl h
        · exact .inr (.inr h)
      · rintro (h | rfl | h)
        · exact .inl h
        · exact .inl hseen
        · exact .inr h
    · simp [hseen, or_assoc]

theorem mem_firstOccurrences_iff {texts : List String} :
    text ∈ firstOccurrences texts ↔ text ∈ texts := by
  rw [firstOccurrences, mem_foldl_unseen_iff]
  simp

/-- A node proposes what its label does, to those who may use it. -/
theorem Node.mem_proposals_iff {node : Node S E M} {c : Context S E M} :
    text ∈ node.proposals c typed ↔
      ∃ label, node.label = some label ∧ node.canUse c.source = true ∧
        text ∈ label.proposals c typed := by
  rw [Node.proposals]
  cases node.label with
  | none => simp
  | some label => simp

/-- What was typed where a cursor completes: the text from there to the cursor. -/
def Parse.typedAt (p : Parse S E M) (cursor : Nat) : String :=
  let cursor := min cursor (Text.size p.reader.input)
  let start := min (p.chain.completionPoint cursor).1.start cursor
  (Text.slice? p.reader.input start cursor).getD ""

namespace Dispatcher
variable {d : Dispatcher S E M} {p : Parse S E M} {cursor : Nat}

/-- A child proposes a text where a cursor completes, and the principal may use the child. -/
def Proposes (d : Dispatcher S E M) (p : Parse S E M) (cursor : Nat) (text : String) : Prop :=
  let found := p.chain.completionPoint (min cursor (Text.size p.reader.input))
  ∃ id ∈ d.tree.childIds found.1.parent, ∃ node label, d.tree.node? id = some node ∧
    node.label = some label ∧ node.canUse found.2.source = true ∧
      text ∈ label.proposals found.2 (p.typedAt cursor)

/-- Without a limit, the proposals that go on from what was typed are listed. -/
theorem mem_texts_iff (unlimited : d.config.suggestionLimit = none) :
    text ∈ (d.completionsAt p cursor).texts ↔
      d.Proposes p cursor text ∧ continues (p.typedAt cursor) text = true := by
  simp only [completionsAt, limited, unlimited, mem_firstOccurrences_iff, List.mem_filter,
    List.mem_flatMap, Proposes]
  refine and_congr_left fun _ => exists_congr fun id => and_congr_right fun _ => ?_
  cases d.tree.node? id with
  | none => simp
  | some node => simpa [Parse.typedAt] using Node.mem_proposals_iff

/-- Without a limit, consider a text that is proposed. If it begins with what was typed, it is
listed, and if it is listed where more was typed, it is listed; in both cases unless what was
typed ends in a final sigma and goes on with a letter. Then it is not. -/
theorem mem_texts_iff_of_toList_eq (unlimited : d.config.suggestionLimit = none)
    (proposed : d.Proposes p cursor text) :
    (∀ rest, text.toList = (p.typedAt cursor).toList ++ rest →
      (text ∈ (d.completionsAt p cursor).texts ↔
        ¬(Text.EndsInFinalSigma (p.typedAt cursor).toList ∧ Text.meetsCased rest = true))) ∧
    ∀ (p' : Parse S E M) (cursor' : Nat) (more : List Char),
      (p'.typedAt cursor').toList = (p.typedAt cursor).toList ++ more →
        text ∈ (d.completionsAt p' cursor').texts →
          (text ∈ (d.completionsAt p cursor).texts ↔
            ¬(Text.EndsInFinalSigma (p.typedAt cursor).toList ∧ Text.meetsCased more = true)) := by
  have listed : text ∈ (d.completionsAt p cursor).texts ↔
      Text.lowerChars (p.typedAt cursor).toList <+: Text.lowerChars text.toList := by
    rw [mem_texts_iff unlimited, continues_iff]
    exact and_iff_right proposed
  constructor
  · intro rest htext
    rw [listed]
    apply Text.lowerChars_isPrefix_iff
    simp [htext]
  · intro p' cursor' more htyped hmem
    rw [listed]
    apply Text.lowerChars_isPrefix_iff
    rw [← htyped]
    exact continues_iff.1 ((mem_texts_iff unlimited).1 hmem).2

/-- A word with a sigma between two letters. -/
def saw : Dispatcher Unit Nat Unit where
  tree := Tree.empty.afterAll [.register (Sprout.literal "ΑΣΑ")]
  config := {}

/-- The word is listed where all of it was typed, and it is not where the last letter is
missing. -/
theorem not_mem_texts_saw :
    saw.Proposes (saw.parse "ΑΣ" ()) (Text.size "ΑΣ") "ΑΣΑ" ∧
      "ΑΣΑ" ∈ (saw.completions "ΑΣΑ" ()).texts ∧ "ΑΣΑ" ∉ (saw.completions "ΑΣ" ()).texts := by
  have proposed : saw.Proposes (saw.parse "ΑΣ" ()) (Text.size "ΑΣ") "ΑΣΑ" :=
    ⟨1, by decide +kernel, _, _, rfl, rfl, rfl, List.mem_singleton_self _⟩
  have typed : (saw.parse "ΑΣ" ()).typedAt (Text.size "ΑΣ") = "ΑΣ" := by decide +kernel
  have ends : Text.EndsInFinalSigma "ΑΣ".toList := ⟨['Α'], [], rfl, by decide +kernel, by simp⟩
  have listed := (mem_texts_iff_of_toList_eq rfl proposed).1 ['Α'] (by rw [typed]; rfl)
  rw [typed] at listed
  refine ⟨proposed, by decide +kernel, fun hmem => listed.1 hmem ⟨ends, by decide +kernel⟩⟩

end Dispatcher
end Dispatch
