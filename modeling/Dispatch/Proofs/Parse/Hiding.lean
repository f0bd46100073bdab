import Dispatch.Completion
import Dispatch.Proofs.Parse.Derivation
import Dispatch.Proofs.Parse.FirstWord
import Dispatch.Proofs.Tree.Change
/-!
# What a requirement hides

A node that a principal may not use is never visited on their behalf, and since a node has one
parent only, no way along child edges leads past it. What is under it is still within reach of
a redirect: where the parse goes on behind one, what is asked of a principal is up to the node
that redirects, and nothing that its target or a node above that asks counts. So a context
stays out of what is under the node unless it starts there (`not_under_of_isDerived`), and it
starts there only if a redirect leads there (`Derives.redirects`).
-/
namespace Dispatch
variable {S E M : Type}

namespace Tree

/-- A node is another one or below it, along child edges. -/
def Under (t : Tree S E M) (above id : Nat) : Prop :=
  Relation.ReflTransGen (fun i j => j ∈ t.childIds i) above id

/-- The last node that a context visits redirects to where the next context starts. -/
def Redirects (t : Tree S E M) (outer inner : Context S E M) : Prop :=
  ∃ node, t.lastNode? outer.nodes = some node ∧ node.redirect = some inner.root

variable {t : Tree S E M} {hidden parent id : Nat}

/-- Only what is below the node or the node itself leads under it. -/
theorem UniqueParents.under_parent (unique : t.UniqueParents) (hchild : id ∈ t.childIds parent)
    (hunder : t.Under hidden id) (hne : id ≠ hidden) : t.Under hidden parent := by
  rcases Relation.ReflTransGen.cases_tail hunder with heq | ⟨other, hother, hedge⟩
  · exact absurd heq hne
  · rw [unique parent other id hchild hedge]
    exact hother

/-- The root is under no other node. -/
theorem not_under_root (hne : hidden ≠ root) : ¬t.Under hidden root := by
  intro hunder
  rcases Relation.ReflTransGen.cases_tail hunder with heq | ⟨other, -, hedge⟩
  · exact hne heq.symm
  · exact absurd (lt_of_mem_childIds hedge).1 (Nat.not_lt_zero other)

/-- A way along child edges that starts outside and avoids the node stays outside. -/
theorem UniqueParents.not_under_of_isChain (unique : t.UniqueParents)
    {nodes : List ParsedNode} (path : nodes.IsChain t.Follows)
    (first : ∀ v ∈ nodes.head?, v.node ∈ t.childIds parent)
    (avoids : ∀ v ∈ nodes, v.node ≠ hidden) (outside : ¬t.Under hidden parent) :
    ∀ v ∈ nodes, ¬t.Under hidden v.node := by
  induction nodes generalizing parent with
  | nil => simp
  | cons u rest ih =>
    have hu : ¬t.Under hidden u.node := by
      intro hunder
      apply outside
      exact unique.under_parent (first u rfl) hunder (avoids u (List.mem_cons_self ..))
    intro v hv
    rcases List.mem_cons.1 hv with rfl | hv
    · exact hu
    · have hpath := List.isChain_cons.1 path
      refine ih hpath.2 (fun w hw => (hpath.1 w hw).1) ?_ hu v hv
      exact fun w hw => avoids w (List.mem_cons_of_mem u hw)

end Tree

namespace Context
variable {d : Dispatcher S E M} {source : S} {input : String} {root start depth hidden : Nat}
  {c : Context S E M} {node : Node S E M}

/-- A node that the principal may not use is not visited. -/
theorem IsDerived.ne_of_not_canUse (h : c.IsDerived d source input root start depth)
    (hnode : d.tree.node? hidden = some node) (huse : node.canUse source = false) :
    ∀ v ∈ c.nodes, v.node ≠ hidden := by
  intro v hv heq
  obtain ⟨found, hfound, hmay⟩ := h.usable v hv
  rw [heq, hnode] at hfound
  obtain rfl := Option.some.inj hfound
  rw [huse] at hmay
  exact Bool.false_ne_true hmay

/-- A context that does not start under such a node does not come there. -/
theorem IsDerived.not_under (h : c.IsDerived d source input root start depth)
    (unique : d.tree.UniqueParents) (hnode : d.tree.node? hidden = some node)
    (huse : node.canUse source = false) (outside : ¬d.tree.Under hidden c.root) :
    ∀ v ∈ c.nodes, ¬d.tree.Under hidden v.node := by
  rw [h.root_eq] at outside
  apply unique.not_under_of_isChain h.path
  · exact fun v hv => (h.first v hv).1
  · exact h.ne_of_not_canUse hnode huse
  · exact outside

/-! ## Where completions ask -/

theorem pointWithin_parent (c : Context S E M) (cursor previous : Nat) (nodes : List ParsedNode) :
    (c.pointWithin cursor previous nodes).parent = previous ∨
      ∃ v ∈ nodes, (c.pointWithin cursor previous nodes).parent = v.node := by
  induction nodes generalizing previous with
  | nil => exact .inl rfl
  | cons u rest ih =>
    rw [pointWithin]
    split
    · exact .inl rfl
    · rcases ih u.node with heq | ⟨v, hv, heq⟩
      · exact .inr ⟨u, List.mem_cons_self .., heq⟩
      · exact .inr ⟨v, List.mem_cons_of_mem u hv, heq⟩

theorem pointAfter_parent (c : Context S E M) :
    c.pointAfter.parent = c.root ∨ ∃ v ∈ c.nodes, c.pointAfter.parent = v.node := by
  rw [pointAfter]
  split
  · next v hv => exact .inr ⟨v, List.mem_of_getLast? hv, rfl⟩
  · exact .inl rfl

/-- A completion asks the children of a node that its context visits, or of the one where it
starts. -/
theorem completionPoint_parent (cursor : Nat) (c : Context S E M) (inner : List (Context S E M)) :
    (c.completionPoint cursor inner).2 ∈ c :: inner ∧
      ((c.completionPoint cursor inner).1.parent = (c.completionPoint cursor inner).2.root ∨
        ∃ v ∈ (c.completionPoint cursor inner).2.nodes,
          (c.completionPoint cursor inner).1.parent = v.node) := by
  induction inner generalizing c with
  | nil =>
    rw [completionPoint]
    split
    · exact ⟨List.mem_cons_self .., c.pointAfter_parent⟩
    · exact ⟨List.mem_cons_self .., c.pointWithin_parent cursor c.root c.nodes⟩
  | cons next rest ih =>
    rw [completionPoint]
    split
    · exact ⟨List.mem_cons_of_mem c (ih next).1, (ih next).2⟩
    · exact ⟨List.mem_cons_self .., c.pointWithin_parent cursor c.root c.nodes⟩

end Context

namespace Dispatcher
variable {d : Dispatcher S E M} {source : S} {input : String} {root start depth hidden : Nat}
  {c : Context S E M} {inner : List (Context S E M)} {node : Node S E M}

/-- Each of the contexts is derived for itself. -/
theorem Derives.isDerived (h : d.Derives source input root start depth c inner) :
    ∀ level ∈ c :: inner, ∃ start depth, level.IsDerived d source input level.root start depth := by
  have hroot : ∀ {level : Context S E M} {root start depth : Nat},
      level.IsDerived d source input root start depth →
        level.IsDerived d source input level.root start depth := by
    intro level root start depth derived
    rw [derived.root_eq]
    exact derived
  induction h with
  | innermost derived => simpa using ⟨_, _, hroot derived⟩
  | nested derived _ _ _ _ _ _ ih =>
    intro level hlevel
    rcases List.mem_cons.1 hlevel with rfl | hlevel
    · exact ⟨_, _, hroot derived⟩
    · exact ih level hlevel

/-- Each of the contexts but the first starts where a redirect of the one before leads. -/
theorem Derives.redirects (h : d.Derives source input root start depth c inner) :
    (c :: inner).IsChain d.tree.Redirects := by
  induction h with
  | innermost _ => exact List.isChain_singleton _
  | @nested _ _ _ c next inner v node target _ last lookup redirect _ _ rest ih =>
    refine List.isChain_cons_cons.2 ⟨⟨node, ?_, ?_⟩, ih⟩
    · rw [Tree.lastNode?, last, Option.bind_some, lookup]
    · rw [redirect, rest.outer.root_eq]

/-- The contexts keep out of what is under a node, except for those that redirects lead
there. -/
structure KeepsOut (d : Dispatcher S E M) (hidden : Nat) (chain : Chain S E M) : Prop where
  /-- The node is visited nowhere. -/
  unvisited : ∀ level ∈ chain.levels, ∀ v ∈ level.nodes, v.node ≠ hidden
  /-- A context visits nothing under the node unless it starts there. -/
  outside : ∀ level ∈ chain.levels, ¬d.tree.Under hidden level.root →
    ∀ v ∈ level.nodes, ¬d.tree.Under hidden v.node
  /-- The children of nothing under the node are asked for completions, either. -/
  unasked : ∀ cursor, (chain.completionPoint cursor).2 ∈ chain.levels ∧
    (¬d.tree.Under hidden (chain.completionPoint cursor).2.root →
      ¬d.tree.Under hidden (chain.completionPoint cursor).1.parent)
  /-- The first context does not start there, and each other one starts where the last node of
  the context before it redirects. -/
  outset : ¬d.tree.Under hidden chain.outer.root
  redirects : chain.levels.IsChain d.tree.Redirects

/-- A parse visits no node that the principal may not use, nor what is under it but behind a
redirect that leads there. -/
theorem keepsOut_parse (grown : d.tree.Grown) (hroot : hidden ≠ Tree.root)
    (hnode : d.tree.node? hidden = some node) (huse : node.canUse source = false)
    (input : String) : d.KeepsOut hidden (d.parse input source).chain := by
  have hderives : d.Derives source input Tree.root 0 0 (d.parse input source).chain.outer
      (d.parse input source).chain.inner :=
    d.parseAt_derives (Reader.isOnBoundary_ofString input) Tree.root source
  have houtside : ∀ level ∈ (d.parse input source).chain.levels,
      ¬d.tree.Under hidden level.root → ∀ v ∈ level.nodes, ¬d.tree.Under hidden v.node := by
    intro level hlevel
    obtain ⟨start, depth, hderived⟩ := hderives.isDerived level hlevel
    exact hderived.not_under grown.uniqueParents hnode huse
  constructor
  · intro level hlevel
    obtain ⟨start, depth, hderived⟩ := hderives.isDerived level hlevel
    exact hderived.ne_of_not_canUse hnode huse
  · exact houtside
  · intro cursor
    obtain ⟨hlevel, hparent⟩ := Context.completionPoint_parent cursor
      (d.parse input source).chain.outer (d.parse input source).chain.inner
    refine ⟨hlevel, fun hlevelRoot => ?_⟩
    rcases hparent with heq | ⟨v, hv, heq⟩
    · exact heq ▸ hlevelRoot
    · exact heq ▸ houtside _ hlevel hlevelRoot v hv
  · rw [hderives.outer.root_eq]
    exact Tree.not_under_root hroot
  · exact hderives.redirects

/-- Nobody may use `t`, which has a child `x`. -/
def lockedDoor : Sprout Principal Nat Unit :=
  ((Sprout.literal "t").child (.literal "x")).withRequirement (some fun _ => false)

/-- `r` redirects to `t`. -/
def backDoor : Dispatcher Principal Nat Unit where
  tree := Tree.empty.afterAll [.register lockedDoor, .register ((Sprout.literal "r").redirectTo 1)]
  config := {}

theorem keepsOut_backDoor : backDoor.tree.Grown ∧ (1 : Nat) ≠ Tree.root ∧
    Node.canUse ((backDoor.tree.node? 1).get rfl) (.named "guest") = false ∧
    backDoor.KeepsOut 1 (backDoor.parse "r x" (.named "guest")).chain := by
  have grown : backDoor.tree.Grown := ⟨_, rfl⟩
  have lookup : backDoor.tree.node? 1 = some ((backDoor.tree.node? 1).get rfl) := rfl
  have locked : Node.canUse ((backDoor.tree.node? 1).get rfl) (.named "guest") = false := rfl
  exact ⟨grown, by decide, locked, keepsOut_parse grown (by decide) lookup locked "r x"⟩

/-- Behind `r`, the child of `t` is visited by principals that may not use `t`, and it is to
the children of `t` that completions go. -/
theorem visited_under_backDoor : backDoor.tree.Grown ∧ (1 : Nat) ≠ Tree.root ∧
    Node.canUse ((backDoor.tree.node? 1).get rfl) (.named "guest") = false ∧
    (∃ level ∈ (backDoor.parse "r x" (.named "guest")).chain.levels, ∃ v ∈ level.nodes,
      backDoor.tree.Under 1 v.node) ∧
    backDoor.tree.Under 1 ((backDoor.parse "r x" (.named "guest")).chain.completionPoint
      (Text.size "r x")).1.parent := by
  have first : (Tree.empty : Tree Principal Nat Unit).Registers lockedDoor
      (Tree.empty.after (.register lockedDoor)) 1 := Tree.hasLiterals_empty.register rfl
  have literals : backDoor.tree.HasLiterals :=
    (first.literals.register (b := (Sprout.literal "r").redirectTo 1) (x := 3) rfl).literals
  have r : backDoor.tree.RootLiteral "r" 3 _ := ⟨by decide, rfl, rfl⟩
  have separate : ∀ c ∈ "r".toList, c ≠ separator := by simp [separator]
  have mayUse : Node.canUse ((backDoor.tree.node? 3).get rfl) (.named "guest") = true := rfl
  obtain ⟨inner, hinner, line⟩ := (parse_line literals r separate (v := "x") (by decide) rfl
    mayUse).2 1 rfl (by decide)
  rw [parseAt_eq] at hinner
  subst hinner
  rw [show "r x" = "r" ++ (" " ++ "x") from rfl, line]
  have edge : 2 ∈ backDoor.tree.childIds 1 := by decide
  refine ⟨⟨_, rfl⟩, by decide, rfl, ⟨_, List.mem_cons_of_mem _ (List.mem_cons_self ..), ⟨2, _⟩,
    List.mem_cons_self .., .single edge⟩, ?_⟩
  exact .refl

end Dispatcher
end Dispatch
