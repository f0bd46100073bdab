import Dispatch.Completion
import Dispatch.Proofs.Parse.Places
import Dispatch.Proofs.Tree.Change
/-!
# The range of completions

A completion is put in by cutting the input at the ends of its range, and there is no cut
inside a character. The range always starts between two characters: a node that was visited
starts where its context does or behind a separator, and so would the next one
(`Derives.isBoundary_start`). Where the range stops is up to the caller. It is the cursor that
was asked for, at most the end of the input, also inside a character; then none of the texts
can be put in (`range_completionsAt`).
-/
namespace Dispatch
variable {S E M : Type}

/-! ## Putting a text in -/

namespace Completions
variable {c : Completions} {input text : String} {index : Nat}

/-- A line is the input with a text in the place of what the range covers. -/
def Replaces (c : Completions) (input text line : String) : Prop :=
  ∃ before covered behind, input = before ++ covered ++ behind ∧
    Text.size before = c.range.start ∧ Text.size before + Text.size covered = c.range.stop ∧
      line = before ++ text ++ behind

/-- What stands in front of the range and behind it stays. -/
theorem applied?_of_toList_eq {before covered behind : List Char}
    (proposed : c.texts[index]? = some text)
    (hinput : input.toList = before ++ (covered ++ behind))
    (hstart : c.range.start = Text.byteSize before)
    (hstop : c.range.stop = Text.byteSize before + Text.byteSize covered) :
    c.applied? input index =
      some (some (String.ofList before ++ text ++ String.ofList behind)) := by
  have hsize : Text.size input =
      Text.byteSize before + Text.byteSize covered + Text.byteSize behind := by
    simp only [Text.size, hinput, Text.byteSize_append, Nat.add_assoc]
  have hbefore : Text.slice? input 0 (Text.byteSize before) = some (String.ofList before) := by
    have hslice : Text.slice? input (Text.byteSize []) (Text.byteSize [] + Text.byteSize before) =
        some (String.ofList before) := Text.slice?_of_toList_eq hinput
    rwa [Text.byteSize_nil, Nat.zero_add] at hslice
  have hbehind : Text.slice? input (Text.byteSize before + Text.byteSize covered)
      (Text.size input) = some (String.ofList behind) := by
    have hsplit : input.toList = (before ++ covered) ++ (behind ++ []) := by simp [hinput]
    have hslice := Text.slice?_of_toList_eq hsplit
    rwa [Text.byteSize_append, ← hsize] at hslice
  have hstart' : min c.range.start (Text.size input) = Text.byteSize before := by omega
  have hstop' : min c.range.stop (Text.size input) =
      Text.byteSize before + Text.byteSize covered := by omega
  simp only [applied?, proposed, hstart', hstop', hbefore, hbehind]
  rfl

/-- Where both ends of the range are boundaries, a text takes the place of what it covers. -/
theorem exists_applied? (proposed : c.texts[index]? = some text)
    (hstart : Text.isBoundary input c.range.start = true)
    (hstop : Text.isBoundary input c.range.stop = true) :
    ∃ line, c.applied? input index = some (some line) ∧ c.Replaces input text line := by
  obtain ⟨before, rest, hsplit, hbefore⟩ := Text.isBoundary_iff.1 hstart
  obtain ⟨upTo, behind, hsplit', hupTo⟩ := Text.isBoundary_iff.1 hstop
  have hordered := c.range.ordered
  obtain ⟨covered, rfl, rfl⟩ :=
    Text.exists_append_of_byteSize_le (hsplit.symm.trans hsplit') (by omega)
  rw [Text.byteSize_append] at hupTo
  refine ⟨_, applied?_of_toList_eq proposed hsplit hbefore.symm (hbefore ▸ hupTo.symm),
    String.ofList before, String.ofList covered, String.ofList behind, ?_, ?_, ?_, rfl⟩
  · simp [← String.toList_inj, hsplit]
  · simpa [Text.size] using hbefore
  · simpa [Text.size] using hupTo

/-- Where the range stops inside a character, nothing can be put in. -/
theorem applied?_eq_none (proposed : c.texts[index]? = some text)
    (within : c.range.stop ≤ Text.size input)
    (hstop : Text.isBoundary input c.range.stop = false) :
    c.applied? input index = some none := by
  have hbehind : Text.slice? input c.range.stop (Text.size input) = none := by
    rw [← Option.not_isSome_iff_eq_none, Text.isSome_slice?_iff]
    simp [hstop]
  simp only [applied?, proposed, Nat.min_eq_left within, hbehind, Option.map_some]
  cases Text.slice? input 0 (min c.range.start (Text.size input)) <;> rfl

end Completions

/-! ## Where nodes start and stop -/

/-- Behind a node the input ends or goes on with a separator. -/
def ParsedNode.SetApart (input : String) (v : ParsedNode) : Prop :=
  v.range.stop < Text.size input → Text.charAt? input v.range.stop = some separator

/-- A child that matches is set apart like the nodes before it. -/
theorem Offspring.Matches.setApart_visit {c : Context S E M} {r : Reader}
    {child : Offspring S E M} {taken : Taken r} (h : child.Matches c taken)
    (hinput : taken.after.input = r.input) (apart : ∀ v ∈ c.nodes, v.SetApart r.input) :
    ∀ v ∈ (child.visit c taken).nodes, v.SetApart r.input := by
  intro v hv
  rw [Offspring.visit_nodes] at hv
  rcases List.mem_append.1 hv with hv | hv
  · exact apart v hv
  · obtain rfl := List.mem_singleton.1 hv
    intro hlt
    rw [← hinput] at hlt ⊢
    exact Reader.charAt?_of_peek (h.peek (Reader.canRead_iff.2 hlt))

/-- Where parsers keep the text, all nodes that a parse visits are set apart from what
follows. -/
theorem Dispatcher.Yields.setApart {d : Dispatcher S E M} {node : Nat} {r : Reader}
    {c : Context S E M} {p : Parse S E M} (h : d.Yields node r c p) (keeps : d.tree.KeepsText)
    (apart : ∀ v ∈ c.nodes, v.SetApart r.input) :
    ∀ level ∈ p.chain.levels, ∀ v ∈ level.nodes, v.SetApart r.input := by
  induction h with
  | stuck _ => simpa [Chain.levels, Chain.single] using apart
  | ended mem matched _ =>
    simpa [Parse.ended, Chain.levels, Chain.single] using
      matched.setApart_visit (matched.input_eq keeps mem) apart
  | descended mem matched _ _ _ ih =>
    have hinput := matched.input_eq keeps mem
    simp only [Reader.pastSeparator, hinput] at ih
    exact ih (matched.setApart_visit hinput apart)
  | redirected mem matched _ _ _ _ ih =>
    have hinput := matched.input_eq keeps mem
    simp only [Reader.pastSeparator, hinput] at ih
    intro level hlevel
    rcases List.mem_cons.1 hlevel with rfl | hlevel
    · exact matched.setApart_visit hinput apart
    · exact ih (by simp [Context.entrance, Context.start]) level hlevel

/-- The nodes of a context start between characters if the context does and they are of the
input. -/
theorem Context.IsDerived.isBoundary_start {d : Dispatcher S E M} {source : S} {input : String}
    {root start depth : Nat} {c : Context S E M}
    (h : c.IsDerived d source input root start depth) (keeps : d.tree.KeepsText)
    (hstart : Text.isBoundary input start = true) :
    ∀ v ∈ c.nodes, Text.isBoundary input v.range.start = true := by
  intro v hv
  obtain ⟨before, after, split⟩ := List.append_of_mem hv
  have hfirst := h.first
  have hpath := h.path
  have hseparated := (h.text keeps).separated
  rw [split] at hfirst hpath hseparated
  cases hlast : before.getLast? with
  | none =>
    obtain rfl := List.getLast?_eq_none_iff.1 hlast
    rw [(hfirst v rfl).2]
    exact hstart
  | some u =>
    have hspace := (List.isChain_append.1 hseparated).2.2 u hlast v rfl
    rw [((List.isChain_append.1 hpath).2.2 u hlast v rfl).2]
    exact Text.isBoundary_behind_separator hspace

namespace Dispatcher
variable {d : Dispatcher S E M} {source : S} {input : String} {root start depth : Nat}
  {c : Context S E M} {inner : List (Context S E M)}

/-- All contexts of a chain and all of their nodes start between characters. -/
theorem Derives.isBoundary_start (h : d.Derives source input root start depth c inner)
    (keeps : d.tree.KeepsText) (hstart : Text.isBoundary input start = true) :
    ∀ level ∈ c :: inner, Text.isBoundary input level.range.start = true ∧
      ∀ v ∈ level.nodes, Text.isBoundary input v.range.start = true := by
  induction h with
  | innermost derived =>
    intro level hlevel
    obtain rfl := List.mem_singleton.1 hlevel
    exact ⟨derived.start_eq ▸ hstart, derived.isBoundary_start keeps hstart⟩
  | nested derived last lookup redirect space limit rest ih =>
    intro level hlevel
    rcases List.mem_cons.1 hlevel with rfl | hlevel
    · exact ⟨derived.start_eq ▸ hstart, derived.isBoundary_start keeps hstart⟩
    · exact ih (Text.isBoundary_behind_separator (space keeps)) level hlevel

/-- A completion starts between characters. -/
theorem Derives.isBoundary_point (h : d.Derives source input root start depth c inner)
    (keeps : d.tree.KeepsText) (hstart : Text.isBoundary input start = true)
    (apart : ∀ level ∈ c :: inner, ∀ v ∈ level.nodes, v.SetApart input)
    {cursor : Nat} (within : cursor ≤ Text.size input) {point : CompletionPoint}
    {level : Context S E M} (places : Chain.PlacesAt ⟨c, inner⟩ cursor point level) :
    Text.isBoundary input point.start = true := by
  obtain ⟨hlevel, hnodes⟩ := h.isBoundary_start keeps hstart level places.mem
  by_cases touched : ∃ v ∈ level.nodes, v.range.Touches cursor
  · obtain ⟨v, hv, htouches⟩ := touched
    obtain ⟨before, after, split⟩ := List.append_of_mem hv
    rw [places.within before v after split htouches]
    exact hnodes v hv
  · obtain ⟨-, hbehind, hpoint⟩ := places.beyond fun v hv htouches => touched ⟨v, hv, htouches⟩
    rw [hpoint, Context.nextStart]
    cases hlast : level.nodes.getLast? with
    | none => exact hlevel
    | some v =>
      have hv := List.mem_of_getLast? hlast
      have hlt := hbehind v hv
      exact Text.isBoundary_behind_separator (apart level places.mem v hv (by omega))

/-! ## The range -/

/-- The completions of a parsed line start between characters, at the place found for the
cursor, and stop at the cursor. -/
theorem isBoundary_range_completionsAt (keeps : d.tree.KeepsText) (input : String) (source : S)
    (cursor : Nat) :
    Text.isBoundary input (d.completionsAt (d.parse input source) cursor).range.start = true ∧
      (d.completionsAt (d.parse input source) cursor).range.stop =
        min cursor (Text.size input) := by
  have hyields := d.parseAt_yields Tree.root (.ofString input) (.start source input Tree.root 0)
  have hinput : (d.parse input source).reader.input = input := hyields.input_eq keeps
  have hderives : d.Derives source input Tree.root 0 0 (d.parse input source).chain.outer
      (d.parse input source).chain.inner :=
    d.parseAt_derives (Reader.isOnBoundary_ofString input) Tree.root source
  have within : min cursor (Text.size input) ≤ Text.size input := Nat.min_le_right ..
  have hplaces := hderives.placesAt keeps (d.isFilled_parse input source) (Nat.zero_le _) within
  have hstart := hderives.isBoundary_point keeps (Text.isBoundary_zero input)
    (hyields.setApart keeps (by simp [Context.start])) within hplaces
  simp only [completionsAt, hinput]
  refine ⟨?_, trivial⟩
  rw [Nat.min_eq_left]
  · exact hstart
  · exact hplaces.start_le

/-- Where parsers keep the text, the completions of a line have, at any cursor, a range that
starts between characters and stops at the cursor, or at the end of the line. Each of them
takes the place of what the range covers if the cursor stands between characters, and cannot
be put in if it stands inside one. -/
theorem range_completionsAt (d : Dispatcher S E M) (keeps : d.tree.KeepsText) (input : String)
    (source : S) (cursor : Nat) :
    Text.isBoundary input (d.completionsAt (d.parse input source) cursor).range.start = true ∧
    (d.completionsAt (d.parse input source) cursor).range.stop = min cursor (Text.size input) ∧
    ∀ index text, (d.completionsAt (d.parse input source) cursor).texts[index]? = some text →
      (Text.isBoundary input (min cursor (Text.size input)) = true →
        ∃ line, (d.completionsAt (d.parse input source) cursor).applied? input index =
            some (some line) ∧
          (d.completionsAt (d.parse input source) cursor).Replaces input text line) ∧
      (Text.isBoundary input (min cursor (Text.size input)) = false →
        (d.completionsAt (d.parse input source) cursor).applied? input index = some none) := by
  obtain ⟨hstart, hstop⟩ := isBoundary_range_completionsAt keeps input source cursor
  refine ⟨hstart, hstop, fun index text proposed => ⟨fun between => ?_, fun inside => ?_⟩⟩
  · exact Completions.exists_applied? proposed hstart (hstop ▸ between)
  · refine Completions.applied?_eq_none proposed ?_ (hstop ▸ inside)
    rw [hstop]
    exact Nat.min_le_right ..

/-- One word, `a`. -/
def letter : Dispatcher Unit Nat Unit where
  tree := Tree.empty.afterAll [.register (Sprout.literal "a")]
  config := {}

/-- Inside a character of two bytes `a` is proposed and cannot be put in; in front of it, it
can. -/
theorem applied?_letter : letter.tree.KeepsText ∧
    (letter.completionsAt (letter.parse "é" ()) 1).texts[0]? = some "a" ∧
    (letter.completionsAt (letter.parse "é" ()) 1).applied? "é" 0 = some none ∧
    (letter.completionsAt (letter.parse "é" ()) 0).texts[0]? = some "a" ∧
    ∃ line, (letter.completionsAt (letter.parse "é" ()) 0).applied? "é" 0 = some (some line) := by
  have keeps : letter.tree.KeepsText := Tree.keepsText_of_isLiteral (by decide)
  have inside : (letter.completionsAt (letter.parse "é" ()) 1).texts[0]? = some "a" := by
    decide +kernel
  have before : (letter.completionsAt (letter.parse "é" ()) 0).texts[0]? = some "a" := by
    decide +kernel
  have hnone := ((letter.range_completionsAt keeps "é" () 1).2.2 0 "a" inside).2 (by decide)
  obtain ⟨line, hline, -⟩ :=
    ((letter.range_completionsAt keeps "é" () 0).2.2 0 "a" before).1 (by decide)
  exact ⟨keeps, inside, hnone, before, line, hline⟩

end Dispatcher
end Dispatch
