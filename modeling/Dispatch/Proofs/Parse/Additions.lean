import Dispatch.Proofs.Parse.Route
import Dispatch.Proofs.Tree.Change
/-!
# Additions break no line

What is added to a tree is appended or merged. Nodes that were there match what they matched
and admit whom they admitted, and children keep their places (`Tree.Includes`); a merged node
may only get another executor. So a route stays a route with the same places, provided that
the parsers along it do not ask what the line would run so far (`Tree.IgnoresExecutors`).
Where nothing redirects, a line is parsed completely exactly if there is a route for it, and
so an addition may change which route wins, but never makes a complete parse incomplete. The
empty line has no route. It is complete as long as no parser brings in a text of its own.
-/
namespace Dispatch
variable {S E M : Type}

/-! ## Nothing redirects -/

/-- A subtree without redirects. -/
inductive Sprout.IsPlain : Sprout S E M → Prop
  | mk {b : Sprout S E M} (plain : b.redirect = none)
    (children : ∀ child ∈ b.children, child.IsPlain) : b.IsPlain

theorem Sprout.IsPlain.redirect_eq {b : Sprout S E M} (h : b.IsPlain) : b.redirect = none := by
  obtain ⟨plain, -⟩ := h
  exact plain

theorem Sprout.IsPlain.child {b : Sprout S E M} (h : b.IsPlain) :
    ∀ child ∈ b.children, child.IsPlain := by
  obtain ⟨-, children⟩ := h
  exact children

namespace Tree
variable {t t' t'' : Tree S E M} {parent x : Nat} {b : Sprout S E M}

theorem IsPlain.place (h : t.IsPlain) (plain : b.redirect = none) :
    (t.place parent b).1.IsPlain := by
  obtain ⟨x, -, hplace⟩ | ⟨-, hplace⟩ := t.place_cases parent b
  · rw [hplace]
    intro id node hnode
    rw [node?_update] at hnode
    split at hnode
    · obtain ⟨old, hold, rfl⟩ := Option.map_eq_some_iff.1 hnode
      rw [Node.withChildren_redirect, Sprout.mergeInto_redirect plain]
      exact h id old hold
    · exact h id node hnode
  · rw [hplace]
    exact h.addNode parent plain

/-! ## What an addition keeps -/

/-- The nodes of another tree are there, match the same and admit the same principals, and
their children are in the same places. -/
structure Includes (t' t : Tree S E M) : Prop where
  node : ∀ id node, t.node? id = some node → ∃ node', t'.node? id = some node' ∧
    node'.label = node.label ∧ node'.requirement = node.requirement ∧
    node'.modifier = node.modifier ∧ node'.forks = node.forks
  children : ∀ id, t.childIds id <+: t'.childIds id

namespace Includes

theorem refl (t : Tree S E M) : t.Includes t where
  node := fun _ node hnode => ⟨node, hnode, rfl, rfl, rfl, rfl⟩
  children := fun _ => List.prefix_rfl

theorem trans (h : t''.Includes t') (h' : t'.Includes t) : t''.Includes t where
  node := by
    intro id node hnode
    obtain ⟨node', hnode', hlabel, hrequirement, hmodifier, hforks⟩ := h'.node id node hnode
    obtain ⟨node'', hnode'', hlabel', hrequirement', hmodifier', hforks'⟩ := h.node id node' hnode'
    exact ⟨node'', hnode'', hlabel'.trans hlabel, hrequirement'.trans hrequirement,
      hmodifier'.trans hmodifier, hforks'.trans hforks⟩
  children := fun id => (h'.children id).trans (h.children id)

/-- A sprout without a redirect changes nothing but the executor of the node that it is merged
into. -/
theorem place (hlt : parent < t.size) (plain : b.redirect = none) :
    (t.place parent b).1.Includes t := by
  obtain ⟨x, -, hplace⟩ | ⟨-, hplace⟩ := t.place_cases parent b
  · rw [hplace]
    refine ⟨fun id node hnode => ?_, fun id => by simp⟩
    rw [node?_update, hnode]
    obtain ⟨hmodifier, hforks⟩ := Sprout.mergeInto_modifier plain node
    split
    · exact ⟨_, rfl, b.mergeInto_label node, b.mergeInto_requirement node, hmodifier, hforks⟩
    · exact ⟨node, rfl, rfl, rfl, rfl, rfl⟩
  · rw [hplace]
    refine ⟨fun id node hnode => ?_, fun id => ?_⟩
    · have hne : id ≠ t.size := Nat.ne_of_lt (lt_size_of_node? hnode)
      rw [node?_addNode, if_neg hne, hnode]
      split
      · exact ⟨_, rfl, rfl, rfl, rfl, rfl⟩
      · exact ⟨node, rfl, rfl, rfl, rfl, rfl⟩
    · rw [childIds_addNode hlt]
      split
      · exact List.prefix_append ..
      · exact List.prefix_rfl

end Includes

/-- Grafting what does not redirect keeps all that was there, and no redirect comes up. -/
theorem IsPlain.graft (h : t.IsPlain) (hlt : parent < t.size) (plain : b.IsPlain) :
    (t.graft parent b).1.IsPlain ∧ (t.graft parent b).1.Includes t := by
  have hstep : ∀ (t' : Tree S E M) (parent : Nat) (b : Sprout S E M),
      (t'.IsPlain ∧ t'.Includes t) → True → parent < t'.size → b.IsPlain →
        ((t'.place parent b).1.IsPlain ∧ (t'.place parent b).1.Includes t) ∧ True := by
    rintro t' parent b ⟨hplain, hincludes⟩ - hlt hb
    exact ⟨⟨hplain.place hb.redirect_eq,
      (Includes.place hlt hb.redirect_eq).trans hincludes⟩, trivial⟩
  exact (graft_induction (T := fun _ => True) (fun b hb => hb.child) hstep b
    ⟨h, .refl t⟩ trivial hlt plain).1

end Tree

/-! ## Routes stay -/

/-- What the parser makes of a text may depend on the principal, the bindings and the nodes
visited, but not on what the line would run if it ended before the text. -/
def ArgumentParser.IgnoresExecutor (parser : ArgumentParser S E M) : Prop :=
  ∀ (c : Context S E M) (executor : Option E) (r : Reader),
    parser.parse (c.withExecutor executor) r = parser.parse c r

/-- No argument parser asks what the line would run so far. -/
def Tree.IgnoresExecutors (t : Tree S E M) : Prop :=
  ∀ id node name parser completer, t.node? id = some node →
    node.label = some (.argument name parser completer) → parser.IgnoresExecutor

theorem StandardParser.ignoresExecutor (p : StandardParser) :
    (p.toParser : ArgumentParser S E M).IgnoresExecutor := fun _ _ _ => rfl

theorem Tree.ignoresExecutors_empty : (Tree.empty : Tree S E M).IgnoresExecutors := by
  intro id node name parser completer hnode hlabel
  rw [(eq_root_of_node?_empty hnode).2] at hlabel
  simp [Node.root] at hlabel

theorem Tree.IgnoresExecutors.addNode {t : Tree S E M} (h : t.IgnoresExecutors) (parent : Nat)
    {node : Node S E M} (ignores : ∀ name parser completer,
      node.label = some (.argument name parser completer) → parser.IgnoresExecutor) :
    (t.addNode parent node).IgnoresExecutors := by
  intro id found name parser completer hfound hlabel
  obtain ⟨-, rfl⟩ | ⟨-, old, children, hold, rfl⟩ := exists_of_node?_addNode hfound
  · exact ignores name parser completer hlabel
  · exact h id old name parser completer hold hlabel

theorem Tree.IgnoresExecutors.take_eq {t : Tree S E M} (h : t.IgnoresExecutors) {id : Nat}
    {node : Node S E M} {label : Label S E M} (hnode : t.node? id = some node)
    (hlabel : node.label = some label) (c : Context S E M) (executor : Option E) (r : Reader) :
    label.take (c.withExecutor executor) r = label.take c r := by
  cases label with
  | literal text => rfl
  | argument name parser completer =>
    simp only [Label.take, Label.takeValue,
      h id node name parser completer hnode hlabel c executor r]

/-- Binding a value does not depend on what the context has to run. -/
theorem Label.bindTo_withExecutor (label : Label S E M) {r : Reader} (taken : Taken r)
    (c : Context S E M) (executor : Option E) :
    label.bindTo taken (c.withExecutor executor) =
      (label.bindTo taken c).withExecutor executor := by
  cases hlabel : label with
  | literal text => rfl
  | argument name parser completer =>
    cases hvalue : taken.value with
    | none => simp [bindTo, hvalue]
    | some value =>
      simp only [bindTo, hvalue]
      rfl

namespace Tree.Includes
variable {t t' : Tree S E M} {source : S} {child : Offspring S E M}

/-- A child that is offered stays on offer, and visiting it differs at most in what it
runs. -/
theorem offers (h : t'.Includes t) (offered : t.Offers source child) :
    ∃ child' : Offspring S E M, child'.id = child.id ∧ child'.label = child.label ∧
      t'.Offers source child' ∧
      ∀ {r : Reader} (taken : Taken r) (c : Context S E M) (executor : Option E),
        child'.visit (c.withExecutor executor) taken =
          (child.visit c taken).withExecutor child'.node.executor := by
  obtain ⟨id, node, label⟩ := child
  obtain ⟨hnode, hlabel, huse⟩ := offered
  obtain ⟨node', hnode', hlabel', hrequirement, hmodifier, hforks⟩ := h.node id node hnode
  refine ⟨⟨id, node', label⟩, rfl, rfl, ⟨hnode', hlabel'.trans hlabel, ?_⟩, ?_⟩
  · rw [← huse]
    simp only [Node.canUse, hrequirement]
  · intro r taken c executor
    simp only [Offspring.visit, Label.bindTo_withExecutor, hmodifier, hforks]
    rfl

theorem getElem?_childIds (h : t'.Includes t) {node place id : Nat}
    (here : (t.childIds node)[place]? = some id) : (t'.childIds node)[place]? = some id := by
  obtain ⟨more, hmore⟩ := h.children node
  rw [← hmore, List.getElem?_append_left (List.getElem?_eq_some_iff.1 here).1]
  exact here

end Tree.Includes

namespace Dispatcher
variable {d d' : Dispatcher S E M} {source : S} {input : String}

/-- A route stays one, with the same places, and binds the same. -/
theorem Route.of_includes (h : d'.tree.Includes d.tree) (ignores : d.tree.IgnoresExecutors)
    {node : Nat} {r : Reader} {c below : Context S E M} {places : List Nat}
    (hroute : d.Route node r c places below) (executor : Option E) :
    ∃ executor', d'.Route node r (c.withExecutor executor) places
      (below.withExecutor executor') := by
  induction hroute generalizing executor with
  | @last _ _ _ c child taken here offered takes atEnd =>
    obtain ⟨child', hid, hlabel, hoffers, hvisit⟩ := h.offers offered
    refine ⟨child'.node.executor, ?_⟩
    rw [← hvisit taken c executor]
    refine .last (hid ▸ h.getElem?_childIds here) hoffers ?_ atEnd
    rw [hlabel, ignores.take_eq offered.1 offered.2.1]
    exact takes
  | @further _ _ _ _ c _ child taken here offered takes space beforeEnd _ ih =>
    obtain ⟨child', hid, hlabel, hoffers, hvisit⟩ := h.offers offered
    obtain ⟨executor', hrest⟩ := ih child'.node.executor
    refine ⟨executor', .further (hid ▸ h.getElem?_childIds here) hoffers ?_ space beforeEnd ?_⟩
    · rw [hlabel, ignores.take_eq offered.1 offered.2.1]
      exact takes
    · rw [hid, hvisit taken c executor]
      exact hrest

/-- Of an empty line nothing can be left over, unless a parser brings in another text. -/
theorem isComplete_parse_empty (d : Dispatcher S E M) (keeps : d.tree.KeepsText) (source : S) :
    (d.parse "" source).isComplete = true := by
  have hinput : (d.parse "" source).reader.input = "" :=
    (d.parseAt_yields Tree.root (.ofString "") (.start source "" Tree.root 0)).input_eq keeps
  have hread : ¬(d.parse "" source).reader.canRead = true := by
    rw [Reader.canRead_iff, Reader.totalSize, hinput]
    simp [Text.size]
  simp [Parse.isComplete, hread]

/-- Where nothing redirects, a sprout that is added anywhere in the tree makes no complete
parse incomplete, for no principal, if parsers do not ask what the line would run so far and,
for the empty line, keep the text. -/
theorem isComplete_parse_addChild {t t' : Tree S E M} {config : Config} {parent x : Nat}
    {b : Sprout S E M} (plain : t.IsPlain) (ignores : t.IgnoresExecutors) (added : b.IsPlain)
    (hadd : t.addChild parent b = .ok (t', x)) (input : String) (source : S)
    (keeps : input = "" → t'.KeepsText)
    (complete : ((⟨t, config⟩ : Dispatcher S E M).parse input source).isComplete = true) :
    ((⟨t', config⟩ : Dispatcher S E M).parse input source).isComplete = true := by
  obtain ⟨hlt, -, hgraft⟩ := Tree.addChild_eq_ok hadd
  obtain ⟨plain', hincludes⟩ := plain.graft hlt added
  obtain rfl : t' = (t.graft parent b).1 := congrArg Prod.fst hgraft
  by_cases hinput : input = ""
  · rw [hinput]
    exact isComplete_parse_empty ⟨(t.graft parent b).1, config⟩ (keeps hinput) source
  · have more := Reader.canRead_ofString hinput
    -- The new parse may follow another route, if an earlier one came up.
    obtain ⟨-, places, below, hroute, -⟩ :=
      (parseAt_finds plain Tree.root (.ofString input) _ more).first complete
    have hgrown : (⟨(t.graft parent b).1, config⟩ : Dispatcher S E M).tree.Includes t := hincludes
    obtain ⟨executor, hroute'⟩ := hroute.of_includes hgrown ignores none
    exact (parseAt_finds plain' Tree.root (.ofString input) _ more).complete places _ hroute'

/-- Behind the word of `wordOrPair` comes a `y` too. The line has taken the way through `x`,
and now takes the earlier one through the word. -/
theorem isComplete_set_x_y_added :
    ∃ t' x, wordOrPair.tree.addChild 2 (.literal "y") = .ok (t', x) ∧
      wordOrPair.tree.along Tree.root [0, 1, 0] = [1, 3, 4] ∧
      t'.along Tree.root [0, 0, 0] = [1, 2, 5] ∧
      ((⟨t', {}⟩ : Dispatcher Unit Unit Unit).parse "set x y" ()).isComplete = true := by
  have plain : wordOrPair.tree.IsPlain :=
    (((Tree.isPlain_empty.addNode 0 rfl).addNode 1 rfl).addNode 1 rfl).addNode 3 rfl
  have ignores : wordOrPair.tree.IgnoresExecutors := by
    refine (((Tree.ignoresExecutors_empty.addNode 0 ?_).addNode 1 ?_).addNode 1 ?_).addNode 3 ?_
    · rintro _ _ _ ⟨⟩
    · rintro _ _ _ ⟨⟩
      exact StandardParser.word.ignoresExecutor
    · rintro _ _ _ ⟨⟩
    · rintro _ _ _ ⟨⟩
  have complete : (wordOrPair.parse "set x y" ()).isComplete = true := by
    have offers : ∀ id node label, wordOrPair.tree.node? id = some node →
        node.label = some label → node.requirement = none →
          wordOrPair.tree.Offers () ⟨id, node, label⟩ :=
      fun id node label hnode hlabel huse => ⟨hnode, hlabel, by simp [Node.canUse, huse]⟩
    exact (wordOrPair.parseAt_finds plain Tree.root (.ofString "set x y") _
      (by decide)).complete [0, 1, 0] _
        (.further rfl (offers 1 _ _ rfl rfl rfl) rfl (by decide) (by decide)
          (.further rfl (offers 3 _ _ rfl rfl rfl) rfl (by decide) (by decide)
            (.last rfl (offers 4 _ _ rfl rfl rfl) rfl (by decide))))
  have added : (Sprout.literal "y" : Sprout Unit Unit Unit).IsPlain := .mk rfl (by rintro _ ⟨⟩)
  have hadd : wordOrPair.tree.addChild 2 (.literal "y") =
      .ok (wordOrPair.tree.addNode 2 (Sprout.literal "y").toNode, 5) := rfl
  exact ⟨_, _, hadd, rfl, rfl, isComplete_parse_addChild plain ignores added hadd "set x y" ()
    (fun h => absurd h (by decide)) complete⟩

/-- Reads a word, but not where the line would already run something. -/
def wary : ArgumentParser Unit Nat Unit where
  parse c r :=
    if c.executor.isSome then r.reject .expectedArgument [] else StandardParser.word.parse r

/-- `set` with such an argument behind it. -/
def setWary : Tree Unit Nat Unit :=
  (Tree.empty.addNode 0 (Sprout.literal "set").toNode).addNode 1 (Sprout.argument "a" wary).toNode

/-- `set` is added once more, with something to run. It is merged, and its argument is no
longer read. -/
theorem not_isComplete_set_x_executes :
    setWary.IsPlain ∧
    ((Sprout.literal "set").withExecutor (some 7) : Sprout Unit Nat Unit).IsPlain ∧
    ∃ t' x,
      setWary.addChild Tree.root ((Sprout.literal "set").withExecutor (some 7)) = .ok (t', x) ∧
      ((⟨setWary, {}⟩ : Dispatcher Unit Nat Unit).parse "set x" ()).isComplete = true ∧
      ((⟨t', {}⟩ : Dispatcher Unit Nat Unit).parse "set x" ()).isComplete = false := by
  refine ⟨(Tree.isPlain_empty.addNode 0 rfl).addNode 1 rfl, .mk rfl (by rintro _ ⟨⟩), _, _, rfl,
    ?_, ?_⟩
  · decide +kernel
  · decide +kernel

end Dispatcher
end Dispatch
