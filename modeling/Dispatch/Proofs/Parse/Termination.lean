import Dispatch.Proofs.Parse.Derivation
import Dispatch.Proofs.Parse.Locality
import Dispatch.Proofs.Tree.Change
import Mathlib.Logic.Function.Iterate
/-!
# Why parses terminate

A parse asks for another one among the children of a child, or at the target of a redirect
(`Dispatcher.Calls`). It comes to an end if something gets smaller with every call, and as
many rounds as that is great at the start settle it, whatever stands for the parses that would
come after these (`Dispatcher.Shrinks`). Whatever the parsers do, the room gets smaller, since
children have greater numbers and redirects are limited.

As long as parsers keep the text there is a bound that knows nothing of the tree. A call is
made only behind a separator, whatever the parsers do to the cursor, and so with less of the
input left and with fewer separators in it. A parse of a line is therefore settled after one
round more than the line has separators, and visits no more nodes than that
(`parse_terminates`).
-/
namespace Dispatch
variable {S E M : Type}

/-- What a parse is asked for: the node whose children are tried, the reader and the
context. -/
structure Call (S E M : Type) where
  node : Nat
  reader : Reader
  context : Context S E M

/-- The call with which the parse of a line begins. -/
def Call.start (input : String) (source : S) : Call S E M :=
  ⟨Tree.root, .ofString input, .start source input Tree.root 0⟩

namespace Reader

/-- How many separators lie ahead of a cursor between characters. -/
def separators (r : Reader) : Nat := r.rest.count separator

/-- Behind a separator there are fewer of them ahead. -/
theorem separators_pastSeparator {r : Reader} {taken : Taken r} (hr : r.isOnBoundary = true)
    (same : taken.after.input = r.input) (hpeek : taken.after.peek = some separator) :
    taken.after.pastSeparator.separators < r.separators := by
  obtain ⟨cs, hcs⟩ := isOnBoundary_iff.1 hr
  obtain ⟨ds, hds⟩ := peek_eq_some_iff.1 hpeek
  obtain ⟨pre, hsplit, hpre⟩ := rest?_eq_some_iff.1 hcs
  obtain ⟨pre', hsplit', hpre'⟩ := rest?_eq_some_iff.1 hds
  rw [same] at hsplit'
  obtain ⟨es, -, rfl⟩ := Text.exists_append_of_byteSize_le (hsplit.symm.trans hsplit')
    (by rw [hpre, hpre']; exact taken.onward)
  rw [separators, separators, rest_eq_of_rest? hcs, rest_eq_of_rest? (rest?_pastSeparator hds),
    List.count_append, List.count_cons_self]
  omega

/-- Behind a match and the separator after it, less of the same text is left. -/
theorem remainingSize_pastSeparator {r : Reader} (taken : Taken r)
    (same : taken.after.input = r.input) (more : taken.after.canRead = true) :
    taken.after.pastSeparator.remainingSize < r.remainingSize := by
  have := taken.onward
  simp only [canRead, canReadBytes, totalSize, decide_eq_true_eq, same] at more
  simp only [remainingSize, totalSize, pastSeparator, same]
  omega

end Reader

namespace Dispatcher

/-- A parse may ask for another one: among the children of a child that matches, or at the
target of its redirect. -/
inductive Calls (d : Dispatcher S E M) : Call S E M → Call S E M → Prop
  | descent {node : Nat} {r : Reader} {c : Context S E M} {child : Offspring S E M}
    {taken : Taken r} (mem : child ∈ d.tree.eligible node r c.source)
    (matched : child.Matches c taken) (plain : child.node.redirect = none)
    (more : taken.after.canReadBytes 2 = true) :
    d.Calls ⟨node, r, c⟩ ⟨child.id, taken.after.pastSeparator, child.visit c taken⟩
  | redirect {node : Nat} {r : Reader} {c : Context S E M} {child : Offspring S E M}
    {taken : Taken r} {target : Nat} (mem : child ∈ d.tree.eligible node r c.source)
    (matched : child.Matches c taken) (redirect : child.node.redirect = some target)
    (more : taken.after.canRead = true)
    (limit : c.redirectDepth + 1 ≤ d.config.maxRedirectDepth) :
    d.Calls ⟨node, r, c⟩ ⟨target, taken.after.pastSeparator,
      (child.visit c taken).entrance target taken.after.pastSeparator⟩

/-- A parse, given what comes of those that it asks for. -/
def round (d : Dispatcher S E M) (answer : Call S E M → Parse S E M) (call : Call S E M) :
    Parse S E M :=
  Survey.conclude call.context call.reader
    (Survey.ofAttempts (d.tree.eligible call.node call.reader call.context.source) fun child _ =>
      d.attempt call.context call.reader child fun next after visited _within =>
        answer ⟨next, after, visited⟩)

/-- What comes of a call. -/
def answer (d : Dispatcher S E M) (call : Call S E M) : Parse S E M :=
  d.parseAt call.node call.reader call.context

variable {d : Dispatcher S E M} {call call' : Call S E M}

theorem answer_eq_round (d : Dispatcher S E M) (call : Call S E M) :
    d.answer call = d.round d.answer call := by
  rw [answer, parseAt]
  rfl

/-- A child is tried alike if the calls for it are answered alike. -/
theorem attempt_congr {f g : Call S E M → Parse S E M} {node : Nat} {r : Reader}
    {c : Context S E M} {child : Offspring S E M}
    (same : ∀ call, d.Calls ⟨node, r, c⟩ call → f call = g call)
    (mem : child ∈ d.tree.eligible node r c.source) :
    d.attempt c r child (fun next after visited _ => f ⟨next, after, visited⟩) =
      d.attempt c r child (fun next after visited _ => g ⟨next, after, visited⟩) := by
  cases htake : child.label.take c r with
  | error error => rw [attempt_of_take_error _ htake, attempt_of_take_error _ htake]
  | ok taken =>
    cases hcut : taken.isCutOff with
    | true => rw [attempt_of_isCutOff _ htake hcut, attempt_of_isCutOff _ htake hcut]
    | false =>
      have matched : child.Matches c taken := ⟨htake, hcut⟩
      rw [attempt_of_matches (fun next after visited => f ⟨next, after, visited⟩) matched,
        attempt_of_matches (fun next after visited => g ⟨next, after, visited⟩) matched]
      by_cases more : taken.after.canRead = true
      · rw [if_pos more, if_pos more]
        cases hredirect : child.node.redirect with
        | none =>
          dsimp only
          split
          · next hbytes => rw [same _ (.descent mem matched hredirect hbytes)]
          · rfl
        | some target =>
          dsimp only
          split
          · rfl
          · next hlimit => rw [same _ (.redirect mem matched hredirect more (Nat.not_lt.1 hlimit))]
      · rw [if_neg more, if_neg more]

/-- A parse depends on the answers to its calls alone. -/
theorem round_congr {f g : Call S E M → Parse S E M}
    (same : ∀ call', d.Calls call call' → f call' = g call') : d.round f call = d.round g call := by
  rw [round, round]
  exact congrArg (Survey.conclude _ _)
    (Survey.ofAttempts_congr fun child mem => attempt_congr same mem)

/-- The room where a call goes on. -/
def roomAt (d : Dispatcher S E M) (call : Call S E M) : Nat :=
  d.room call.node call.context.redirectDepth

namespace Calls

/-- There is less room for every call that a parse makes. -/
theorem roomAt_lt (h : d.Calls call call') : d.roomAt call' < d.roomAt call := by
  cases h with
  | descent mem _ _ _ => exact room_visit mem _
  | redirect _ _ _ _ limit => exact room_entrance limit _

/-- Where parsers keep the text, a call goes on in the text of its caller, behind a
separator. -/
theorem exists_taken (h : d.Calls call call') (keeps : d.tree.KeepsText) :
    ∃ taken : Taken call.reader, taken.after.input = call.reader.input ∧
      taken.after.canRead = true ∧ taken.after.peek = some separator ∧
      call'.reader = taken.after.pastSeparator := by
  cases h with
  | @descent node r c child taken mem matched _ more =>
    have hread := Reader.canRead_of_canReadBytes more
    exact ⟨taken, matched.input_eq keeps mem, hread, matched.peek hread, rfl⟩
  | @redirect node r c child taken target mem matched _ more _ =>
    exact ⟨taken, matched.input_eq keeps mem, more, matched.peek more, rfl⟩

/-- There less of the input is left for every call that a parse makes. -/
theorem remainingSize_lt (h : d.Calls call call') (keeps : d.tree.KeepsText) :
    call'.reader.remainingSize < call.reader.remainingSize := by
  obtain ⟨taken, same, more, -, hreader⟩ := h.exists_taken keeps
  rw [hreader]
  exact Reader.remainingSize_pastSeparator taken same more

/-- There fewer separators are left. -/
theorem separators_lt (h : d.Calls call call') (keeps : d.tree.KeepsText)
    (hr : call.reader.isOnBoundary = true) :
    call'.reader.isOnBoundary = true ∧ call'.reader.separators < call.reader.separators := by
  obtain ⟨taken, same, -, hpeek, hreader⟩ := h.exists_taken keeps
  rw [hreader]
  exact ⟨Reader.isOnBoundary_pastSeparator hpeek, Reader.separators_pastSeparator hr same hpeek⟩

end Calls

/-- With every call something gets smaller, among calls of some kind. -/
def Shrinks (d : Dispatcher S E M) (kind : Call S E M → Prop) (size : Call S E M → Nat) : Prop :=
  ∀ call call', d.Calls call call' → kind call → kind call' ∧ size call' < size call

theorem shrinks_roomAt (d : Dispatcher S E M) : d.Shrinks (fun _ => True) d.roomAt :=
  fun _ _ h _ => ⟨trivial, h.roomAt_lt⟩

theorem shrinks_separators (keeps : d.tree.KeepsText) :
    d.Shrinks (fun call => call.reader.isOnBoundary = true) fun call => call.reader.separators :=
  fun _ _ h hr => h.separators_lt keeps hr

namespace Shrinks
variable {kind : Call S E M → Prop} {size : Call S E M → Nat}

/-- More rounds than that is great settle a parse. -/
theorem iterate_round_eq_answer (h : d.Shrinks kind size) (bottom : Call S E M → Parse S E M)
    (n : Nat) (hkind : kind call) (hn : size call < n) :
    d.round^[n] bottom call = d.answer call := by
  induction n generalizing call with
  | zero => omega
  | succ n ih =>
    rw [Function.iterate_succ_apply', answer_eq_round]
    refine round_congr fun call' hcall => ?_
    obtain ⟨hkind', hless⟩ := h call call' hcall hkind
    exact ih hkind' (by omega)

/-- A parse visits at most one node more. -/
theorem visited_le (h : d.Shrinks kind size) {node : Nat} {r : Reader} {c : Context S E M}
    {p : Parse S E M} (hp : d.Yields node r c p) (hkind : kind ⟨node, r, c⟩) :
    (p.chain.levels.flatMap Context.nodes).length ≤ c.nodes.length + size ⟨node, r, c⟩ + 1 := by
  have hvisit : ∀ {r : Reader} (child : Offspring S E M) (c : Context S E M) (taken : Taken r),
      (child.visit c taken).nodes.length = c.nodes.length + 1 := by
    intro r child c taken
    rw [child.visit_nodes, List.length_append, List.length_singleton]
  induction hp with
  | stuck _ =>
    simp only [Chain.levels, Chain.single, List.flatMap_cons, List.flatMap_nil, List.append_nil]
    omega
  | @ended _ r c child taken _ _ _ =>
    have hnodes := hvisit child c taken
    simp only [Parse.ended, Chain.levels, Chain.single, List.flatMap_cons, List.flatMap_nil,
      List.append_nil]
    omega
  | @descended _ r c child taken _ mem matched plain more _ ih =>
    obtain ⟨hkind', hless⟩ := h _ _ (.descent mem matched plain more) hkind
    have hnodes := hvisit child c taken
    have hbelow := ih hkind'
    omega
  | @redirected _ r c child taken target p mem matched redirect more limit _ ih =>
    obtain ⟨hkind', hless⟩ := h _ _ (.redirect mem matched redirect more limit) hkind
    have hnodes := hvisit child c taken
    have hbelow := ih hkind'
    have hfresh : ((child.visit c taken).entrance target taken.after.pastSeparator).nodes.length =
        0 := rfl
    have hlevels : (Chain.enter (child.visit c taken) p.chain).levels =
        child.visit c taken :: p.chain.levels := rfl
    rw [hlevels, List.flatMap_cons, List.length_append]
    omega

end Shrinks

/-- Parsing comes to an end in every dispatcher and on every line. A parse is a function of
the parses that it asks for, each with less room; for a line, one round more than there is
room settles it, from anything, and it visits no more nodes than that. Where parsers keep the
text, each of the parses has less of the input left, and one round more than there are
separators in the line settles it, which is also as many nodes as it may visit. -/
theorem parse_terminates (d : Dispatcher S E M) :
    (∀ call call', d.Calls call call' → d.roomAt call' < d.roomAt call) ∧
    (∀ call f, (∀ call', d.Calls call call' → f call' = d.answer call') →
      d.round f call = d.answer call) ∧
    (∀ input source,
      (∀ bottom, d.round^[d.room Tree.root 0 + 1] bottom (.start input source) =
        d.parse input source) ∧
      ((d.parse input source).chain.levels.flatMap Context.nodes).length ≤
        d.room Tree.root 0 + 1) ∧
    (d.tree.KeepsText →
      (∀ call call', d.Calls call call' →
        call'.reader.remainingSize < call.reader.remainingSize) ∧
      ∀ input source,
        (∀ bottom, d.round^[input.toList.count separator + 1] bottom (.start input source) =
          d.parse input source) ∧
        ((d.parse input source).chain.levels.flatMap Context.nodes).length ≤
          input.toList.count separator + 1) := by
  -- A parse of a line, whatever gets smaller with its calls.
  have hline : ∀ (kind : Call S E M → Prop) (size : Call S E M → Nat) (input : String) (source : S),
      d.Shrinks kind size → kind (.start input source) →
        (∀ bottom, d.round^[size (.start input source) + 1] bottom (.start input source) =
          d.parse input source) ∧
        ((d.parse input source).chain.levels.flatMap Context.nodes).length ≤
          size (.start input source) + 1 := by
    intro kind size input source h hkind
    have hyields := d.parseAt_yields Tree.root (.ofString input) (.start source input Tree.root 0)
    have hvisited := h.visited_le hyields hkind
    have hfresh : (Context.start source input Tree.root 0 : Context S E M).nodes.length = 0 := rfl
    rw [hfresh, Nat.zero_add] at hvisited
    exact ⟨fun bottom => h.iterate_round_eq_answer bottom _ hkind (Nat.lt_succ_self _), hvisited⟩
  refine ⟨fun _ _ h => h.roomAt_lt, fun call f h => ?_,
    fun input source => hline _ _ input source d.shrinks_roomAt trivial,
    fun keeps => ⟨fun _ _ h => h.remainingSize_lt keeps, fun input source => ?_⟩⟩
  · rw [answer_eq_round]
    exact round_congr h
  · have hseparators : (Reader.ofString input).separators = input.toList.count separator := by
      rw [Reader.separators, Reader.rest_eq_of_rest? (Reader.rest?_ofString input)]
    rw [← hseparators]
    exact hline _ _ input source (shrinks_separators keeps) (Reader.isOnBoundary_ofString input)

/-- A literal that leads back to the root. -/
def circling : Dispatcher Unit Nat Unit where
  tree := Tree.empty.afterAll [.register ((Sprout.literal "again").redirectTo Tree.root)]
  config := {}

theorem keepsText_circling : circling.tree.KeepsText := Tree.keepsText_of_isLiteral (by decide)

/-- The first round trip leads to a call with six bytes less, and with the third one the line
has as many nodes as it can have. -/
theorem parse_terminates_circling : circling.tree.KeepsText ∧
    (∃ call, circling.Calls (.start "again again again" ()) call ∧
      call.reader.remainingSize = 11 ∧
      call.reader.remainingSize < (Reader.ofString "again again again").remainingSize) ∧
    circling.round^[3] (fun call => .ended call.context call.reader)
      (.start "again again again" ()) = circling.parse "again again again" () ∧
    ((circling.parse "again again again" ()).chain.levels.flatMap Context.nodes).length = 3 := by
  obtain ⟨-, -, -, hkept⟩ := circling.parse_terminates
  obtain ⟨hshrinks, hline⟩ := hkept keepsText_circling
  let child : Offspring Unit Nat Unit :=
    ⟨1, ((Sprout.literal "again").redirectTo Tree.root).toNode, .literal "again"⟩
  let taken : Taken (.ofString "again again again") :=
    ⟨none, ⟨"again again again", 5⟩, Nat.zero_le 5⟩
  have mem : child ∈ circling.tree.eligible Tree.root (.ofString "again again again") () :=
    Tree.mem_eligible_iff.2 ⟨by decide +kernel, rfl, rfl, by decide +kernel, rfl⟩
  have matched : child.Matches (.start () "again again again" Tree.root 0) taken :=
    ⟨rfl, by decide +kernel⟩
  have hcall : circling.Calls (.start "again again again" ()) _ :=
    .redirect mem matched rfl (by decide +kernel) (by decide)
  exact ⟨keepsText_circling, ⟨_, hcall, by decide +kernel, hshrinks _ _ hcall⟩,
    (hline "again again again" ()).1 _, by decide +kernel⟩

/-- Behind the argument of `swapping` more is left to read than there was before it, and with
`yy` more nodes are visited than `x` has words. -/
theorem remainingSize_lt_swapping :
    (∃ call, swapping.Calls (.start "x" ()) call ∧
      (Reader.ofString "x").remainingSize < call.reader.remainingSize) ∧
    "x".toList.count separator + 1 <
      ((swapping.parse "x" ()).chain.levels.flatMap Context.nodes).length := by
  let child : Offspring Unit Nat Unit :=
    ⟨1, (Sprout.argument "a" swapper).toNode.withChildren [2], .argument "a" swapper none⟩
  let taken : Taken (.ofString "x") := ⟨some (.bool true), ⟨"xx yy", 2⟩, Nat.zero_le 2⟩
  have mem : child ∈ swapping.tree.eligible Tree.root (.ofString "x") () :=
    Tree.mem_eligible_iff.2 ⟨by decide +kernel, rfl, rfl, by decide +kernel, rfl⟩
  have matched : child.Matches (.start () "x" Tree.root 0) taken := ⟨rfl, by decide +kernel⟩
  have hcall : swapping.Calls (.start "x" ()) _ := .descent mem matched rfl (by decide +kernel)
  exact ⟨⟨_, hcall, by decide +kernel⟩, by decide +kernel⟩

end Dispatcher
end Dispatch
