import Dispatch.Proofs.Completion.Range
import Dispatch.Proofs.Parse.FirstWord
import Dispatch.Proofs.Parse.Route
import Dispatch.Proofs.Reader.Lookahead
import Dispatch.Proofs.Tree.Standard
/-!
# Completed lines parse

A literal that is proposed at the end of a line is put in behind what the parse of the line
has descended through, and this part of the line ends with a separator or is empty. The
parsers of the library look no further than to a separator, so on the completed line the same
way down is open (`Reaches.transport`), although the parse of that line need not take it. With
the literal at its end it is a route for the line, and where there is a route a parse is
complete.
-/
namespace Dispatch
variable {S E M : Type}

/-! ## The same match on another line -/

/-- What lies ahead up to a separator is the same on lines that are the same up to behind
it. -/
theorem Reader.exists_rest?_of_common {r after : Reader} (hr : r.isOnBoundary = true)
    (hsame : after.input = r.input) (onward : r.cursor ≤ after.cursor)
    (space : after.peek = some separator) {line : String} {pre cs cs' : List Char}
    (hinput : r.input.toList = pre ++ cs) (hline : line.toList = pre ++ cs')
    (hle : after.cursor + 1 ≤ Text.byteSize pre) :
    ∃ xs ys ys', r.rest? = some (xs ++ separator :: ys) ∧
      (⟨line, r.cursor⟩ : Reader).rest? = some (xs ++ separator :: ys') ∧
      after.cursor = r.cursor + Text.byteSize xs := by
  obtain ⟨ahead, hahead⟩ := isOnBoundary_iff.1 hr
  obtain ⟨first, hfirst, hfirstSize⟩ := rest?_eq_some_iff.1 hahead
  obtain ⟨ys, hys⟩ := peek_eq_some_iff.1 space
  obtain ⟨upTo, hupTo, hupToSize⟩ := rest?_eq_some_iff.1 hys
  rw [hsame] at hupTo
  obtain ⟨xs, rfl, -⟩ := Text.exists_append_of_byteSize_le (hfirst.symm.trans hupTo) (by omega)
  have hsplit : (first ++ xs ++ [separator]) ++ ys = pre ++ cs := by
    rw [← hinput, hupTo, List.append_assoc _ [separator]]
    rfl
  have hone : separator.utf8Size = 1 := by decide
  have hcommon : Text.byteSize (first ++ xs ++ [separator]) ≤ Text.byteSize pre := by
    rw [Text.byteSize_append, hupToSize, Text.byteSize_cons, hone]
    exact hle
  obtain ⟨es, rfl, -⟩ := Text.exists_append_of_byteSize_le hsplit hcommon
  refine ⟨xs, ys, es ++ cs', ?_, ?_, ?_⟩
  · exact rest?_eq_some_iff.2 ⟨first, by rw [hupTo, List.append_assoc], hfirstSize⟩
  · exact rest?_eq_some_iff.2 ⟨first, by simp [hline], hfirstSize⟩
  · rw [← hupToSize, ← hfirstSize, Text.byteSize_append]

namespace Label
variable {label : Label S E M} {c c' : Context S E M} {r r' : Reader}

/-- The parsers of the library do not look at the context. -/
theorem IsStandard.take_eq (standard : label.IsStandard) (c c' : Context S E M) (r : Reader) :
    label.take c r = label.take c' r := by
  cases label with
  | literal text => rfl
  | argument name parser completer =>
    obtain ⟨p, rfl⟩ := standard
    rfl

/-- What is matched in front of a separator is matched on any line that is the same up to
there. -/
theorem IsStandard.take_again (standard : label.IsStandard) {taken : Taken r}
    {xs ys ys' : List Char} (htake : label.take c r = .ok taken)
    (hrest : r.rest? = some (xs ++ separator :: ys))
    (hrest' : r'.rest? = some (xs ++ separator :: ys'))
    (hstop : taken.after.cursor = r.cursor + Text.byteSize xs) :
    ∃ taken' : Taken r', label.take c r' = .ok taken' ∧ taken'.after = r'.advance xs := by
  cases label with
  | literal text =>
    obtain ⟨hword, -, hafter⟩ := take_literal htake
    have hchars := hword ▸ Reader.peekWord_of_separator hrest
    have hall : xs.takeWhile (· != separator) = xs := by
      refine Reader.takeWhile_eq_self ?_
      rw [hafter, hchars] at hstop
      simp only [Reader.advance] at hstop
      omega
    have hword' : r'.peekWord = text :=
      String.toList_inj.1 ((Reader.peekWord_of_separator hrest').trans hchars.symm)
    refine ⟨_, if_pos hword', ?_⟩
    rw [Reader.advance, ← hall, ← hchars]
    rfl
  | argument name parser completer =>
    obtain ⟨p, rfl⟩ := standard
    obtain ⟨value, moved, hparse, -, hafter⟩ := exists_of_take_argument htake
    have hsize := Reader.byteSize_of_rest? hrest
    have hpos := separator.utf8Size_pos
    rw [Text.byteSize_append, Text.byteSize_cons] at hsize
    have hmoved : moved.input = r.input := by
      have hinput := p.input_parse r
      rwa [show p.parse r = (.ok value, moved) from hparse] at hinput
    have hcursor : moved.cursor = r.cursor + Text.byteSize xs := by
      rw [hafter] at hstop
      simp only [Reader.seek, Reader.startingAt, hmoved] at hstop
      simp only [Reader.totalSize] at hsize
      omega
    have hparse' : p.parse r' = (.ok value, r'.advance xs) :=
      p.parse_looksNoFurther.again hrest hrest' hparse hcursor
    have htake' : takeValue p.toParser c r' = _ := takeValue_of_advance hparse' hrest'
    exact ⟨_, htake', rfl⟩

end Label

namespace Dispatcher
variable {d : Dispatcher S E M} {source : S} {node node' : Nat} {r r' : Reader}

/-- From a node and a reader one comes down to another node and reader, with a separator
behind every match. -/
inductive Reaches (d : Dispatcher S E M) (source : S) : Nat → Reader → Nat → Reader → Prop
  | refl (node : Nat) (r : Reader) : d.Reaches source node r node r
  | step {node node' : Nat} {r r' : Reader} {child : Offspring S E M} {taken : Taken r}
    (c : Context S E M) (mem : child.id ∈ d.tree.childIds node)
    (offered : d.tree.Offers source child) (takes : child.label.take c r = .ok taken)
    (space : taken.after.peek = some separator)
    (rest : d.Reaches source child.id taken.after.pastSeparator node' r') :
    d.Reaches source node r node' r'

theorem Reaches.onward (h : d.Reaches source node r node' r') (keeps : d.tree.KeepsText) :
    r'.input = r.input ∧ r.cursor ≤ r'.cursor := by
  induction h with
  | refl _ _ => exact ⟨rfl, Nat.le_refl _⟩
  | @step _ _ _ _ _ taken _ _ offered takes _ _ ih =>
    obtain ⟨hinput, hcursor⟩ := ih
    have htaken := (keeps _ _ _ offered.1 offered.2.1).input_eq takes
    exact ⟨hinput.trans htaken, Nat.le_trans taken.onward (Nat.le_of_succ_le hcursor)⟩

section
variable (standard : d.tree.HasStandardLabels)
include standard

/-- The same way down is open on a line that is the same up to where it ends. -/
theorem Reaches.transport (h : d.Reaches source node r node' r') (hr : r.isOnBoundary = true)
    {line : String} {pre cs cs' : List Char} (hinput : r.input.toList = pre ++ cs)
    (hline : line.toList = pre ++ cs') (hpre : Text.byteSize pre = r'.cursor) :
    d.Reaches source node ⟨line, r.cursor⟩ node' ⟨line, r'.cursor⟩ := by
  induction h with
  | refl node r => exact .refl node _
  | @step node node' r r' child taken c mem offered takes space rest ih =>
    have hafter := (rest.onward standard.keepsText).2
    have hsame := (standard.keepsText _ _ _ offered.1 offered.2.1).input_eq takes
    obtain ⟨xs, ys, ys', hrest, hrest', hstop⟩ := Reader.exists_rest?_of_common hr hsame
      taken.onward space hinput hline (hpre ▸ hafter)
    obtain ⟨taken', htake', hafter'⟩ :=
      (standard _ _ _ offered.1 offered.2.1).take_again takes hrest hrest' hstop
    have hspace : taken'.after.peek = some separator := by
      rw [hafter']
      exact Reader.peek_eq_some_iff.2 ⟨_, Reader.rest?_advance hrest'⟩
    have hbehind : taken'.after.pastSeparator = ⟨line, taken.after.pastSeparator.cursor⟩ := by
      simp only [hafter', Reader.pastSeparator, Reader.advance, hstop]
    refine .step c mem offered htake' hspace ?_
    rw [hbehind]
    exact ih (Reader.isOnBoundary_pastSeparator space)
      (by rw [Reader.pastSeparator, hsame, hinput]) hpre

/-- With a way on to the end of the line from there, the way down is part of a route. -/
theorem Reaches.exists_route (h : d.Reaches source node r node' r')
    (more : r'.canRead = true)
    (last : ∀ c : Context S E M, c.source = source →
      ∃ places below, d.Route node' r' c places below)
    {c : Context S E M} (hc : c.source = source) :
    ∃ places below, d.Route node r c places below := by
  induction h generalizing c with
  | refl node r => exact last c hc
  | @step node node' r r' child taken c' mem offered takes space rest ih =>
    obtain ⟨hinput, hafter⟩ := rest.onward standard.keepsText
    obtain ⟨place, here⟩ := List.getElem?_of_mem mem
    have htake : child.label.take c r = .ok taken :=
      ((standard _ _ _ offered.1 offered.2.1).take_eq c c' r).trans takes
    have hvisit : (child.visit c taken).source = source := by rw [child.visit_source, hc]
    obtain ⟨places, below, hroute⟩ := ih more last hvisit
    have beforeEnd : taken.after.canReadBytes 2 = true := by
      have hsize : r'.totalSize = taken.after.totalSize := by
        rw [Reader.totalSize, hinput, Reader.pastSeparator, Reader.totalSize]
      rw [Reader.canRead_iff] at more
      rw [Reader.canReadBytes_iff]
      simp only [Reader.pastSeparator] at hafter
      omega
    exact ⟨place :: places, below, .further here (hc ▸ offered) htake space beforeEnd hroute⟩

/-- A line that ends with a literal among the children of what is reached in front of it
parses completely. -/
theorem Reaches.isComplete_parse (plain : d.tree.IsPlain)
    {line text : String} {node : Nat} {pre : List Char}
    (h : d.Reaches source Tree.root (.ofString line) node ⟨line, Text.byteSize pre⟩)
    (hline : line.toList = pre ++ text.toList) (token : IsToken text)
    {child : Offspring S E M} (mem : child.id ∈ d.tree.childIds node)
    (offered : d.tree.Offers source child) (literal : child.label = .literal text) :
    (d.parse line source).isComplete = true := by
  have hend : (⟨line, Text.byteSize pre⟩ : Reader).rest? = some (text.toList ++ []) :=
    Reader.rest?_eq_some_iff.2 ⟨pre, by rw [hline, List.append_nil], rfl⟩
  have hsize : Text.size line = Text.byteSize pre + Text.byteSize text.toList := by
    rw [Text.size, hline, Text.byteSize_append]
  have hpos := Text.size_pos token.ne_empty
  rw [Text.size] at hpos
  have more : (⟨line, Text.byteSize pre⟩ : Reader).canRead = true := by
    simp only [Reader.canRead_iff, Reader.totalSize]
    omega
  have nonempty : line ≠ "" := by
    rintro rfl
    exact absurd hsize (by rw [show Text.size "" = 0 from rfl]; omega)
  have last : ∀ c : Context S E M, c.source = source →
      ∃ places below, d.Route node ⟨line, Text.byteSize pre⟩ c places below := by
    rintro c rfl
    obtain ⟨place, here⟩ := List.getElem?_of_mem mem
    obtain ⟨taken, htake, hafter⟩ := Label.take_word hend token.ne_separator endsWord_nil c
    rw [← literal] at htake
    refine ⟨[place], _, .last here offered htake ?_⟩
    exact Reader.canRead_of_rest?_nil (hafter ▸ Reader.rest?_advance hend)
  obtain ⟨places, below, hroute⟩ :=
    h.exists_route standard more last (c := .start source line Tree.root 0) rfl
  exact (d.parseAt_finds plain Tree.root (.ofString line) _
    (Reader.canRead_ofString nonempty)).complete places below hroute

end
end Dispatcher

/-! ## Where a completion is put in -/

namespace Context.LeadsTo
variable {d : Dispatcher S E M} {source : S} {input : String} {root start depth node : Nat}
  {c : Context S E M} {r : Reader}

theorem behind_eq (h : c.LeadsTo d source input root start depth node r) :
    c.behind c.nodes = node ∧ c.nextStart = r.cursor := by
  rw [behind, nextStart]
  cases hlast : c.nodes.getLast? with
  | none =>
    obtain ⟨rfl, rfl⟩ := h.outset (List.getLast?_eq_none_iff.1 hlast)
    exact ⟨h.root_eq, h.start_eq⟩
  | some v =>
    obtain ⟨rfl, hcursor⟩ := h.onward v hlast
    exact ⟨rfl, hcursor.symm⟩

section
variable (keeps : d.tree.KeepsText)
include keeps

theorem cursor_le (h : c.LeadsTo d source input root start depth node r) :
    r.cursor ≤ Text.size input := by
  have hle := Reader.cursor_le_size h.onBoundary
  rwa [h.reader_input keeps] at hle

/-- Where a parse comes to a stop, a completion goes on. -/
theorem completionPoint_eq (h : c.LeadsTo d source input root start depth node r)
    (filled : c.IsFilled) :
    ((Chain.single c).completionPoint (Text.size input)).1 = ⟨node, r.cursor⟩ := by
  have hplaces := (Dispatcher.Derives.innermost h.toIsDerived).placesAt keeps
    (by simpa using filled) (Nat.le_trans h.start_le (h.cursor_le keeps)) (Nat.le_refl _)
  obtain ⟨hbehind, hnext⟩ := h.behind_eq
  have hlevel := List.mem_singleton.1 hplaces.mem
  have untouched : ∀ v ∈ c.nodes, ¬v.range.Touches (Text.size input) := by
    intro v hv htouches
    have hlt := h.stop_lt_nextStart v hv
    have hle := h.cursor_le keeps
    have hstop := htouches.2
    omega
  rw [hlevel] at hplaces
  obtain ⟨-, -, hpoint⟩ := hplaces.beyond untouched
  rw [← hbehind, ← hnext]
  exact hpoint

/-- A match that ends the line may be replaced. -/
theorem completionPoint_visit {child : Offspring S E M} {taken : Taken r}
    (h : c.LeadsTo d source input root start depth node r) (within : c.range.stop ≤ r.cursor)
    (hmem : child ∈ d.tree.eligible node r c.source) (hm : child.Matches c taken)
    (atEnd : taken.after.cursor = Text.size input) :
    ((Chain.single (child.visit c taken)).completionPoint (Text.size input)).1 =
      ⟨node, r.cursor⟩ := by
  have derived := h.isDerived_visit hmem hm
  have hplaces := (Dispatcher.Derives.innermost derived).placesAt keeps
    (by simpa using (isFilled_visit child taken within).2)
    (Nat.le_trans h.start_le (h.cursor_le keeps)) (Nat.le_refl _)
  have hlevel := List.mem_singleton.1 hplaces.mem
  rw [hlevel] at hplaces
  have htouches : taken.range.Touches (Text.size input) :=
    ⟨h.cursor_le keeps, Nat.le_of_eq atEnd.symm⟩
  have hpoint := hplaces.within c.nodes ⟨child.id, taken.range⟩ [] (child.visit_nodes c taken)
    htouches
  rw [behind, child.visit_root] at hpoint
  rw [← h.behind_eq.1]
  exact hpoint

end
end Context.LeadsTo

/-- Texts that would replace the end of a line are put in behind what is left of it. -/
theorem Completions.applied?_eq (c : Completions) {input text : String} {i : Nat}
    {pre cs : List Char} (proposed : c.texts[i]? = some text) (hinput : input.toList = pre ++ cs)
    (hstart : c.range.start = Text.byteSize pre) (hstop : c.range.stop = Text.size input) :
    c.applied? input i = some (some (String.ofList pre ++ text)) := by
  have hsplit : input.toList = pre ++ (cs ++ []) := by rw [hinput, List.append_nil]
  have hsize : Text.size input = Text.byteSize pre + Text.byteSize cs := by
    rw [Text.size, hinput, Text.byteSize_append]
  simpa using applied?_of_toList_eq proposed hsplit hstart (hstop.trans hsize)

namespace Dispatcher
variable {d : Dispatcher S E M} {source : S} {input : String}

/-- Completions at the end of a line replace what is behind the place found for it. -/
theorem range_completions (keeps : d.tree.KeepsText) {point : CompletionPoint}
    (hpoint : ((d.parse input source).chain.completionPoint (Text.size input)).1 = point)
    (within : point.start ≤ Text.size input) :
    (d.completions input source).range.start = point.start ∧
      (d.completions input source).range.stop = Text.size input := by
  have hyields := d.parseAt_yields Tree.root (.ofString input) (.start source input Tree.root 0)
  have hinput : (d.parse input source).reader.input = input := hyields.input_eq keeps
  simp only [completions, completionsAt, hinput, Nat.min_self, hpoint]
  exact ⟨Nat.min_eq_left within, trivial⟩

/-- Without redirects, a completion at the end of the line is put in where one comes down to
on the part of the line before it. -/
theorem Yields.exists_reaches (plain : d.tree.IsPlain) (keeps : d.tree.KeepsText) {node : Nat}
    {r : Reader}
    {c : Context S E M} {p : Parse S E M} (h : d.Yields node r c p) {root start depth : Nat}
    (leads : c.LeadsTo d source input root start depth node r) (filled : c.IsFilled)
    (within : c.range.stop ≤ r.cursor) :
    ∃ node' r', d.Reaches source node r node' r' ∧ r'.isOnBoundary = true ∧ r'.input = input ∧
      (p.chain.completionPoint (Text.size input)).1 = ⟨node', r'.cursor⟩ := by
  induction h with
  | @stuck node r c errors survey =>
    exact ⟨node, r, .refl node r, leads.onBoundary, leads.reader_input keeps,
      leads.completionPoint_eq keeps filled⟩
  | @ended node r c child taken mem matched last =>
    obtain ⟨hchild, hnode, hlabel, -, huse⟩ := Tree.mem_eligible_iff.1 mem
    by_cases more : taken.after.canRead = true
    · have hvisit := leads.visit mem matched more
      exact ⟨child.id, taken.after.pastSeparator,
        .step c hchild ⟨hnode, hlabel, leads.source_eq ▸ huse⟩ matched.1 (matched.peek more)
          (.refl _ _),
        hvisit.onBoundary, hvisit.reader_input keeps,
        hvisit.completionPoint_eq keeps (Context.isFilled_visit child taken within).2⟩
    · have hkeeps := keeps _ _ _ hnode hlabel
      have hle := hkeeps.cursor_le matched.1 leads.onBoundary
      rw [Reader.canRead_iff, Reader.totalSize, hkeeps.input_eq matched.1] at more
      rw [Reader.totalSize] at hle
      have atEnd : taken.after.cursor = Text.size input := by
        rw [← leads.reader_input keeps]
        omega
      exact ⟨node, r, .refl node r, leads.onBoundary, leads.reader_input keeps,
        leads.completionPoint_visit keeps within mem matched atEnd⟩
  | @descended node r c child taken p mem matched plainChild more below ih =>
    obtain ⟨hchild, hnode, hlabel, -, huse⟩ := Tree.mem_eligible_iff.1 mem
    have hread : taken.after.canRead = true := Reader.canRead_of_canReadBytes more
    obtain ⟨hstop, hfilled⟩ := Context.isFilled_visit child taken within
    obtain ⟨node', r', hreaches, hboundary, hinput, hpoint⟩ :=
      ih (leads.visit mem matched hread) hfilled (hstop ▸ Nat.le_succ _)
    exact ⟨node', r', .step c hchild ⟨hnode, hlabel, leads.source_eq ▸ huse⟩ matched.1
      (matched.peek hread) hreaches, hboundary, hinput, hpoint⟩
  | redirected mem _ redirect _ _ _ _ =>
    obtain ⟨-, hnode, -⟩ := Tree.mem_eligible_iff.1 mem
    rw [plain _ _ hnode] at redirect
    exact absurd redirect (by simp)

/-- The place for a completion at the end of a line is reached on the part of the line before
it. -/
theorem exists_reaches_completionPoint (plain : d.tree.IsPlain) (keeps : d.tree.KeepsText)
    (input : String) (source : S) :
    ∃ node pre cs, input.toList = pre ++ cs ∧
      d.Reaches source Tree.root (.ofString input) node ⟨input, Text.byteSize pre⟩ ∧
      ((d.parse input source).chain.completionPoint (Text.size input)).1 =
        ⟨node, Text.byteSize pre⟩ := by
  have hyields := d.parseAt_yields Tree.root (.ofString input) (.start source input Tree.root 0)
  have hstart := Reader.isOnBoundary_ofString input
  obtain ⟨node, ⟨_, cursor⟩, hreaches, hboundary, rfl, hpoint⟩ :=
    hyields.exists_reaches plain keeps (Context.leadsTo_start hstart) rfl (Nat.le_refl _)
  obtain ⟨cs, hcs⟩ := Reader.isOnBoundary_iff.1 hboundary
  obtain ⟨pre, hpre, rfl⟩ := Reader.rest?_eq_some_iff.1 hcs
  exact ⟨node, pre, cs, hpre, hreaches, hpoint⟩

/-- A literal among the children that are asked for completions at the end of a line, which
the principal may use. -/
def AsksLiteral (d : Dispatcher S E M) (input : String) (source : S) (text : String) : Prop :=
  ∃ id node, id ∈ d.tree.childIds
      ((d.parse input source).chain.completionPoint (Text.size input)).1.parent ∧
    d.tree.node? id = some node ∧ node.label = some (.literal text) ∧ node.canUse source = true

/-- In a tree without redirects, of tokens and of arguments that the parsers of the library
read, the line with a proposed literal put in parses completely. -/
theorem isComplete_applied (d : Dispatcher S E M) (source : S) (plain : d.tree.IsPlain)
    (standard : ∀ id node label, d.tree.node? id = some node → node.label = some label →
      label.IsStandard)
    (tokens : ∀ id node text, d.tree.node? id = some node → node.label = some (.literal text) →
      IsToken text)
    {input text : String} {i : Nat} (proposed : (d.completions input source).texts[i]? = some text)
    (literal : d.AsksLiteral input source text) :
    ∃ line, (d.completions input source).applied? input i = some (some line) ∧
      (d.parse line source).isComplete = true := by
  obtain ⟨id, found, hchild, hnode, hlabel, huse⟩ := literal
  have keeps := Tree.HasStandardLabels.keepsText standard
  obtain ⟨node, pre, cs, hinput, hreaches, hpoint⟩ :=
    exists_reaches_completionPoint plain keeps input source
  have hsize : Text.byteSize pre ≤ Text.size input := by
    rw [Text.size, hinput, Text.byteSize_append]
    exact Nat.le_add_right _ _
  obtain ⟨hrangeStart, hrangeStop⟩ := range_completions keeps hpoint hsize
  refine ⟨String.ofList pre ++ text,
    (d.completions input source).applied?_eq proposed hinput hrangeStart hrangeStop, ?_⟩
  -- The way down is open on the new line as well, and the literal is the end of it.
  have hline : (String.ofList pre ++ text).toList = pre ++ text.toList := by
    rw [String.toList_append, String.toList_ofList]
  have hdown := hreaches.transport standard (Reader.isOnBoundary_ofString input) hinput hline rfl
  have offered : d.tree.Offers source ⟨id, found, .literal text⟩ := ⟨hnode, hlabel, huse⟩
  rw [hpoint] at hchild
  exact hdown.isComplete_parse standard plain hline (tokens id found text hnode hlabel) hchild
    offered rfl

/-- `give` with a name behind it, and `stone` behind that. -/
def giveStone : Dispatcher Unit Unit Unit where
  tree := ((Tree.empty.addNode 0 (Sprout.literal "give").toNode).addNode 1
    (Sprout.argument "who" StandardParser.word.toParser).toNode).addNode 2
    (Sprout.literal "stone").toNode
  config := {}

/-- Behind the name, `st` becomes `stone`. -/
theorem isComplete_give_sam_stone : giveStone.tree.IsPlain ∧
    (giveStone.completions "give sam st" ()).texts[0]? = some "stone" ∧
    giveStone.AsksLiteral "give sam st" () "stone" ∧
    ∃ line, (giveStone.completions "give sam st" ()).applied? "give sam st" 0 = some (some line) ∧
      (giveStone.parse line ()).isComplete = true := by
  have plain : giveStone.tree.IsPlain :=
    ((Tree.isPlain_empty.addNode 0 rfl).addNode 1 rfl).addNode 2 rfl
  have labels : ∀ id node label, giveStone.tree.node? id = some node → node.label = some label →
      label.IsStandard ∧ ∀ text, label = .literal text → IsToken text := by
    intro id node label hnode hlabel
    obtain _ | _ | _ | _ | n := id
    · obtain rfl := Option.some.inj hnode
      cases hlabel
    · obtain rfl := Option.some.inj hnode
      obtain rfl := Option.some.inj hlabel
      refine ⟨trivial, ?_⟩
      rintro _ ⟨⟩
      exact ⟨by decide, by simp [separator]⟩
    · obtain rfl := Option.some.inj hnode
      obtain rfl := Option.some.inj hlabel
      exact ⟨⟨.word, rfl⟩, by rintro _ ⟨⟩⟩
    · obtain rfl := Option.some.inj hnode
      obtain rfl := Option.some.inj hlabel
      refine ⟨trivial, ?_⟩
      rintro _ ⟨⟩
      exact ⟨by decide, by simp [separator]⟩
    · cases hnode
  have proposed : (giveStone.completions "give sam st" ()).texts[0]? = some "stone" := by
    decide +kernel
  have literal : giveStone.AsksLiteral "give sam st" () "stone" :=
    ⟨3, _, by decide +kernel, rfl, rfl, rfl⟩
  exact ⟨plain, proposed, literal, giveStone.isComplete_applied () plain
    (fun id node label hnode hlabel => (labels id node label hnode hlabel).1)
    (fun id node text hnode hlabel => (labels id node _ hnode hlabel).2 text rfl) proposed literal⟩

end Dispatcher
end Dispatch
