import Dispatch.Proofs.Parse.Derivation
import Dispatch.Proofs.Reader.Alone
import Dispatch.Proofs.Tree.Change
import Dispatch.Proofs.Tree.Standard
/-!
# Bindings and the text that they come from

With the parsers of the library, a binding can be told from the input alone. It stands for the
last visited node of its name, this node took what lies between two separators or ends of the
input, and its parser reads this text, put alone, to its end and to the same value again
(`spells_of_mem_levels`). So it is also where a name is bound anew.

The invariant of the descent is that all bindings so far are of this kind and that the next
node starts at the start of the input or behind a separator.
-/
namespace Dispatch
variable {S E M : Type}

/-- An offset is the start of the input or lies behind a separator. -/
def Text.OpensWord (input : String) (offset : Nat) : Prop :=
  offset = 0 ∨ ∃ n, offset = n + 1 ∧ Text.charAt? input n = some separator

/-- An offset is the end of the input or a separator is there. -/
def Text.ClosesWord (input : String) (offset : Nat) : Prop :=
  offset = Text.size input ∨ Text.charAt? input offset = some separator

/-- A visited argument took a text between separators, which its parser alone reads to the
end, to a value. -/
structure ParsedNode.Spells (t : Tree S E M) (input : String) (v : ParsedNode) (name : String)
    (value : Value) (text : String) : Prop where
  opens : Text.OpensWord input v.range.start
  closes : Text.ClosesWord input v.range.stop
  slice?_eq : Text.slice? input v.range.start v.range.stop = some text
  reread : ∃ node parser completer, t.node? v.node = some node ∧
    node.label = some (.argument name parser completer) ∧
      ∀ c : Context S E M, parser.parse c (.ofString text) = (.ok value, ⟨text, Text.size text⟩)

/-- A range between characters of the input covers what it says it does. -/
theorem Span.text?_of_slice? {a : Span} {input text : String}
    (h : Text.slice? input a.start a.stop = some text) : a.text? input = some text := by
  have hsome : (Text.slice? input a.start a.stop).isSome = true := by rw [h, Option.isSome_some]
  obtain ⟨hle, -, hstop⟩ := Text.isSome_slice?_iff.1 hsome
  have hsize := Text.le_size_of_isBoundary hstop
  simp only [text?, Nat.min_eq_left hsize, Nat.min_eq_left hle, h]

namespace Label
variable {name : String} {p : StandardParser} {completer : Option (Completer S E M)}
  {c : Context S E M} {r : Reader} {taken : Taken r}

/-- An argument that is read by a parser of the library takes the first of the characters
ahead and its value comes from these alone. -/
theorem exists_of_take_standard (h : (argument name p.toParser completer).take c r = .ok taken) :
    ∃ value xs ys, taken.value = some value ∧ r.rest? = some (xs ++ ys) ∧
      taken.after = r.advance xs ∧
        ∀ {r' : Reader}, r'.rest? = some xs → p.parse r' = (.ok value, r'.advance xs) := by
  obtain ⟨value, moved, hparse, hvalue, hafter⟩ := exists_of_take_argument h
  obtain ⟨xs, ys, hrest, rfl, halone⟩ := p.parse_readsAlone.taken hparse
  exact ⟨value, xs, ys, hvalue, hrest, hafter.trans (Reader.seek_advance hrest), halone⟩

end Label

namespace Offspring.Matches
variable {d : Dispatcher S E M} {c : Context S E M} {r : Reader} {child : Offspring S E M}
  {taken : Taken r} {name : String} {completer : Option (Completer S E M)}

/-- Behind a match the input ends or goes on with a separator. -/
theorem closesWord (h : child.Matches c taken) (keeps : child.label.KeepsText)
    (hr : r.isOnBoundary = true) : Text.ClosesWord r.input taken.after.cursor := by
  have hle := keeps.cursor_le h.1 hr
  by_cases more : taken.after.canRead = true
  · refine .inr ?_
    rw [← keeps.input_eq h.1]
    exact Reader.charAt?_of_peek (h.peek more)
  · rw [Reader.canRead_iff, Reader.totalSize, keeps.input_eq h.1] at more
    exact .inl (by simp only [Reader.totalSize] at hle; omega)

/-- Where the next node starts, behind a match and a separator. -/
theorem opensWord (h : child.Matches c taken) (same : taken.after.input = r.input)
    (more : taken.after.canRead = true) :
    Text.OpensWord r.input taken.after.pastSeparator.cursor := by
  refine .inr ⟨taken.after.cursor, rfl, ?_⟩
  rw [← same]
  exact Reader.charAt?_of_peek (h.peek more)

/-- A matched argument with a parser of the library spells its value. -/
theorem spells (h : child.Matches c taken) (lookup : d.tree.node? child.id = some child.node)
    (label : child.node.label = some child.label) {p : StandardParser}
    (argument : child.label = .argument name p.toParser completer)
    (opens : Text.OpensWord r.input r.cursor) (hr : r.isOnBoundary = true) :
    ∃ value text, taken.value = some value ∧
      ParsedNode.Spells d.tree r.input ⟨child.id, taken.range⟩ name value text := by
  have htake := h.1
  rw [argument] at htake
  obtain ⟨value, xs, ys, hvalue, hrest, hafter, halone⟩ := Label.exists_of_take_standard htake
  obtain ⟨pre, htext, hcursor⟩ := Reader.rest?_eq_some_iff.1 hrest
  have keeps : child.label.KeepsText := by
    rw [argument]
    exact Label.IsStandard.keepsText ⟨p, rfl⟩
  refine ⟨value, String.ofList xs, hvalue, opens, h.closesWord keeps hr, ?_, child.node, p.toParser,
    completer, lookup, argument ▸ label, fun _ => ?_⟩
  · have hslice := Text.slice?_of_toList_eq htext
    simpa [Taken.range, hafter, Reader.advance, hcursor] using hslice
  · change p.parse (.ofString (String.ofList xs)) = _
    have hahead : (Reader.ofString (String.ofList xs)).rest? = some xs := by
      rw [Reader.rest?_ofString, String.toList_ofList]
    simpa [Reader.ofString, Reader.advance, Text.size] using halone hahead

end Offspring.Matches

/-- Every binding of a context is spelled by the last visited node of its name. -/
structure Context.SpellsBindings (t : Tree S E M) (input : String) (c : Context S E M) : Prop where
  input_eq : c.input = input
  spelled : ∀ name a, c.argument? name = some a → ∃ v text, t.lastBinder? name c.nodes = some v ∧
    a.range = v.range ∧ v.Spells t input name a.value text

namespace Context.SpellsBindings
variable {d : Dispatcher S E M} {c : Context S E M} {r : Reader} {child : Offspring S E M}
  {taken : Taken r}

/-- A context that binds nothing. -/
theorem of_arguments_eq_nil {t : Tree S E M} {input : String} (hinput : c.input = input)
    (h : c.arguments = []) : c.SpellsBindings t input where
  input_eq := hinput
  spelled := by simp [argument?, h]

/-- A match adds at most a binding for the node that it visits. -/
theorem visit (h : c.SpellsBindings d.tree r.input) (standard : d.tree.HasStandardLabels)
    (opens : Text.OpensWord r.input r.cursor) (hr : r.isOnBoundary = true)
    (mem : child ∈ d.tree.eligible node r c.source) (matched : child.Matches c taken) :
    (child.visit c taken).SpellsBindings d.tree r.input := by
  obtain ⟨-, lookup, hlabel, -⟩ := Tree.mem_eligible_iff.1 mem
  refine ⟨(child.visit_input c taken).trans h.input_eq, fun name a ha => ?_⟩
  have hname := Tree.argumentName?_eq lookup hlabel
  simp only [argument?, Offspring.visit_arguments] at ha
  rw [Offspring.visit_nodes, Tree.lastBinder?_append]
  cases hchild : child.label with
  | literal text =>
    rw [hchild, Label.boundName?] at hname
    simp only [hchild, Label.bindTo] at ha
    rw [hname, if_neg (by simp)]
    exact h.spelled name a ha
  | argument bound parser completer =>
    rw [hchild, Label.boundName?] at hname
    obtain ⟨p, rfl⟩ : ∃ p : StandardParser, parser = p.toParser := by
      have := standard _ _ _ lookup hlabel
      rwa [hchild] at this
    obtain ⟨value, text, hvalue, hspells⟩ := matched.spells lookup hlabel hchild opens hr
    simp only [hchild, Label.bindTo, hvalue, withArgument, lookup_bind] at ha
    -- A name that is bound again is bound to what this node took, any other one stays.
    by_cases hbound : name = bound
    · subst hbound
      obtain rfl : ⟨taken.range, value⟩ = a := by simpa using ha
      exact ⟨_, text, if_pos hname, rfl, hspells⟩
    · rw [if_neg hbound] at ha
      rw [hname, if_neg fun heq => hbound (Option.some.inj heq).symm]
      exact h.spelled name a ha

end Context.SpellsBindings

namespace Dispatcher
variable {d : Dispatcher S E M}

/-- What a parse binds is spelled in the input on every level. -/
theorem Yields.spellsBindings {node : Nat} {r : Reader} {c : Context S E M} {p : Parse S E M}
    (h : d.Yields node r c p) (standard : d.tree.HasStandardLabels)
    (opens : Text.OpensWord r.input r.cursor) (hr : r.isOnBoundary = true)
    (spells : c.SpellsBindings d.tree r.input) :
    ∀ level ∈ p.chain.levels, level.SpellsBindings d.tree r.input := by
  induction h with
  | stuck _ => simpa [Chain.levels, Chain.single] using spells
  | ended mem matched _ =>
    simpa [Parse.ended, Chain.levels, Chain.single] using
      spells.visit standard opens hr mem matched
  | @descended _ r _ _ taken _ mem matched _ more _ ih =>
    have hinput : taken.after.pastSeparator.input = r.input :=
      matched.input_eq standard.keepsText mem
    have hmore := Reader.canRead_of_canReadBytes more
    have hbehind := Reader.isOnBoundary_pastSeparator (matched.peek hmore)
    rw [hinput] at ih
    exact ih (matched.opensWord hinput hmore) hbehind (spells.visit standard opens hr mem matched)
  | @redirected _ r _ child taken target _ mem matched _ more _ _ ih =>
    have hinput : taken.after.pastSeparator.input = r.input :=
      matched.input_eq standard.keepsText mem
    have hbehind := Reader.isOnBoundary_pastSeparator (matched.peek more)
    have hvisit := spells.visit standard opens hr mem matched
    rw [hinput] at ih
    intro level hlevel
    rcases List.mem_cons.1 hlevel with rfl | hlevel
    · exact hvisit
    · -- Behind a redirect nothing is bound yet.
      exact ih (matched.opensWord hinput more) hbehind (.of_arguments_eq_nil hinput rfl) level
        hlevel

/-- With the parsers of the library, whatever a parse binds on any level is bound where the
last visited node of the name stands. The text of the binding is the text between the
separators around this node, and its parser reads this text alone to the end and gives the
bound value. -/
theorem spells_of_mem_levels (d : Dispatcher S E M) (standard : d.tree.HasStandardLabels)
    (input : String) (source : S) :
    ∀ level ∈ (d.parse input source).chain.levels, ∀ name a, level.argument? name = some a →
      ∃ v text, d.tree.lastBinder? name level.nodes = some v ∧ a.range = v.range ∧
        level.argumentText? name = some (some text) ∧ v.Spells d.tree input name a.value text := by
  intro level hlevel name a ha
  have hyields := d.parseAt_yields Tree.root (.ofString input) (.start source input Tree.root 0)
  have hlevels := hyields.spellsBindings standard (.inl rfl) (Reader.isOnBoundary_ofString input)
    (.of_arguments_eq_nil rfl rfl)
  obtain ⟨hinput, hspelled⟩ := hlevels level hlevel
  obtain ⟨v, text, hlast, hrange, hspells⟩ := hspelled name a ha
  refine ⟨v, text, hlast, hrange, ?_, hspells⟩
  have htext := Span.text?_of_slice? hspells.slice?_eq
  rw [Context.argumentText?, ha, Option.map_some, hinput, hrange, htext]

/-- `tell` with a word and then a quoted text, both of the same name. -/
def telling : Dispatcher Unit Nat Unit where
  tree := Tree.empty.afterAll
    [.register ((Sprout.literal "tell").child
      ((Sprout.argument "what" StandardParser.word.toParser).child
        (Sprout.argument "what" StandardParser.quotable.toParser)))]
  config := {}

theorem hasStandardLabels_telling : telling.tree.HasStandardLabels := by
  intro id node label hnode hlabel
  obtain _ | _ | _ | _ | id := id
  · obtain rfl := Option.some.inj hnode
    cases hlabel
  · obtain rfl := Option.some.inj hnode
    obtain rfl := Option.some.inj hlabel
    trivial
  · obtain rfl := Option.some.inj hnode
    obtain rfl := Option.some.inj hlabel
    exact ⟨.word, rfl⟩
  · obtain rfl := Option.some.inj hnode
    obtain rfl := Option.some.inj hlabel
    exact ⟨.quotable, rfl⟩
  · cases hnode

/-- Of the two the quoted text is bound, and the quotes are part of its source. -/
theorem spells_telling : telling.tree.HasStandardLabels ∧
    ∃ level ∈ (telling.parse "tell me \"a b\"" ()).chain.levels, ∃ a v,
      level.argument? "what" = some a ∧ telling.tree.lastBinder? "what" level.nodes = some v ∧
        v.range.start = 8 ∧ level.argumentText? "what" = some (some "\"a b\"") ∧
          v.Spells telling.tree "tell me \"a b\"" "what" a.value "\"a b\"" := by
  have hmem : (telling.parse "tell me \"a b\"" ()).chain.outer ∈
      (telling.parse "tell me \"a b\"" ()).chain.levels := List.mem_cons_self
  have hbound : ((telling.parse "tell me \"a b\"" ()).chain.outer.argument? "what").isSome := by
    decide +kernel
  obtain ⟨a, ha⟩ := Option.isSome_iff_exists.1 hbound
  have htext : (telling.parse "tell me \"a b\"" ()).chain.outer.argumentText? "what" =
      some (some "\"a b\"") := by decide +kernel
  have hstart : ((telling.parse "tell me \"a b\"" ()).chain.outer.argument? "what").map
      (·.range.start) = some 8 := by decide +kernel
  obtain ⟨v, text, hlast, hrange, htext', hspells⟩ :=
    telling.spells_of_mem_levels hasStandardLabels_telling _ () _ hmem "what" a ha
  obtain rfl : text = "\"a b\"" := Option.some.inj (Option.some.inj (htext'.symm.trans htext))
  have hv : a.range.start = 8 := by simpa [ha] using hstart
  exact ⟨hasStandardLabels_telling, _, hmem, a, v, ha, hlast, hrange ▸ hv, htext, hspells⟩

end Dispatcher
end Dispatch
