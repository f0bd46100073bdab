import Dispatch.Proofs.Parse.Hiding
/-!
# How far a principal gets

A parse comes to a node from the root, along child edges to nodes that the principal may use
and across redirects, whose targets are not asked. `Tree.Accessible` says that there is such a
way, and every visited node of every context has one (`Derives.accessible`). So a part of a
tree is shut against a principal if no redirect leads into it from outside and every node that
stands at an entrance to it asks for what the principal lacks (`Guards.allows`).
-/
namespace Dispatch
variable {S E M : Type}

namespace Tree

/-- A principal can come to a node from the root. -/
inductive Accessible (t : Tree S E M) (source : S) : Nat → Prop
  | root : t.Accessible source root
  | child {parent c : Nat} {node : Node S E M} (reached : t.Accessible source parent)
    (edge : c ∈ t.childIds parent) (lookup : t.node? c = some node)
    (mayUse : node.canUse source = true) : t.Accessible source c
  | redirect {id target : Nat} {node : Node S E M} (reached : t.Accessible source id)
    (lookup : t.node? id = some node) (redirects : node.redirect = some target) :
    t.Accessible source target

/-- One comes into a part of the tree only by nodes that ask for what is to be allowed. -/
structure Guards (t : Tree S E M) (inside : Nat → Prop) (allowed : S → Prop) : Prop where
  root_outside : ¬inside root
  /-- A node at an entrance lets nobody else pass. -/
  entrance : ∀ parent c node source, c ∈ t.childIds parent → ¬inside parent → inside c →
    t.node? c = some node → node.canUse source = true → allowed source
  /-- No redirect leads in. -/
  redirect : ∀ id node target, t.node? id = some node → node.redirect = some target →
    ¬inside id → ¬inside target

variable {t : Tree S E M} {source : S} {inside : Nat → Prop} {allowed : S → Prop} {id : Nat}

/-- Whoever came in was allowed to. -/
theorem Guards.allows (h : t.Guards inside allowed) (accessible : t.Accessible source id)
    (within : inside id) : allowed source := by
  induction accessible with
  | root => exact absurd within h.root_outside
  | @child parent c node _ edge lookup mayUse ih =>
    by_cases hparent : inside parent
    · exact ih hparent
    · exact h.entrance parent c node source edge hparent within lookup mayUse
  | @redirect origin target node _ lookup redirects ih =>
    by_cases horigin : inside origin
    · exact ih horigin
    · exact absurd within (h.redirect origin node target lookup redirects horigin)

/-- A path of usable nodes below a node that one can come to. -/
theorem Accessible.path {nodes : List ParsedNode} {parent : Nat}
    (reached : t.Accessible source parent)
    (first : ∀ v ∈ nodes.head?, v.node ∈ t.childIds parent)
    (path : nodes.IsChain t.Follows)
    (usable : ∀ v ∈ nodes, ∃ node, t.node? v.node = some node ∧ node.canUse source = true) :
    ∀ v ∈ nodes, t.Accessible source v.node := by
  induction nodes generalizing parent with
  | nil => simp
  | cons u rest ih =>
    obtain ⟨node, lookup, mayUse⟩ := usable u (List.mem_cons_self ..)
    have hu : t.Accessible source u.node := reached.child (first u rfl) lookup mayUse
    have hpath := List.isChain_cons.1 path
    have hrest := ih hu (fun w hw => (hpath.1 w hw).1) hpath.2
      fun w hw => usable w (List.mem_cons_of_mem u hw)
    intro v hv
    rcases List.mem_cons.1 hv with rfl | hv
    · exact hu
    · exact hrest v hv

end Tree

namespace Dispatcher
variable {d : Dispatcher S E M} {source : S} {input : String} {root start depth : Nat}
  {c : Context S E M} {inner : List (Context S E M)}

/-- Derived contexts visit what the principal can come to if the first of them starts
there. -/
theorem Derives.accessible (h : d.Derives source input root start depth c inner)
    (reached : d.tree.Accessible source root) :
    ∀ level ∈ c :: inner, ∀ v ∈ level.nodes, d.tree.Accessible source v.node := by
  induction h with
  | innermost derived =>
    have visited := reached.path (fun v hv => (derived.first v hv).1) derived.path derived.usable
    simpa using visited
  | @nested _ _ _ c next inner v node target derived last lookup redirect _ _ _ ih =>
    have visited := reached.path (fun v hv => (derived.first v hv).1) derived.path derived.usable
    have target_reached : d.tree.Accessible source target :=
      (visited v (List.mem_of_getLast? last)).redirect lookup redirect
    intro level hlevel
    rcases List.mem_cons.1 hlevel with rfl | hlevel
    · exact visited
    · exact ih target_reached level hlevel

/-- What a parse ends up running is the executor of a node that the principal can come to. -/
theorem exists_accessible_of_executor {executor : E}
    (hexecutor : (d.parse input source).chain.last.executor = some executor) :
    ∃ id node, d.tree.Accessible source id ∧ d.tree.node? id = some node ∧
      node.executor = some executor := by
  have hderives : d.Derives source input Tree.root 0 0 (d.parse input source).chain.outer
      (d.parse input source).chain.inner :=
    d.parseAt_derives (Reader.isOnBoundary_ofString input) Tree.root source
  have hmem : (d.parse input source).chain.last ∈
      (d.parse input source).chain.outer :: (d.parse input source).chain.inner :=
    List.getLastD_mem_cons
  obtain ⟨_, _, derived⟩ := hderives.isDerived _ hmem
  have hlast := derived.executor_eq.symm.trans hexecutor
  simp only [Tree.lastNode?, Option.bind_eq_some_iff] at hlast
  obtain ⟨node, ⟨v, hv, lookup⟩, hnode⟩ := hlast
  exact ⟨v.node, node, hderives.accessible .root _ hmem v (List.mem_of_getLast? hv), lookup, hnode⟩

end Dispatcher
end Dispatch
