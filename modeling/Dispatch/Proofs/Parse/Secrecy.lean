import Dispatch.Proofs.Parse.Locality
import Dispatch.Proofs.Tree.Alike
/-!
# What is hidden stays secret

What a dispatcher does for a principal does not depend on the nodes that it hides from them.
This is a statement about two dispatchers, which differ in what both of them hide and in
nothing else (`Dispatcher.Alike`): every line is parsed the same by both, and completions and
usage lines are the same (`Dispatcher.Indistinguishable`). The parse goes down from the root
along nodes that are not hidden, and at each of them it tries the same children.
-/
namespace Dispatch
variable {S E M : Type}

namespace Tree
variable {t t' : Tree S E M} {source : S} {id : Nat}

theorem tried?_of_not_isUsable (h : t.isUsable source id = false) (r : Reader) :
    t.tried? r source id = none := by
  rw [Option.eq_none_iff_forall_ne_some]
  intro child hchild
  obtain ⟨rfl, hnode, -, -, huse⟩ := tried?_eq_some_iff.1 hchild
  rw [isUsable_eq hnode, huse] at h
  exact Bool.false_ne_true h.symm

/-- At a node that is not hidden the same children are tried. -/
theorem Alike.eligible_eq (h : t.Alike t' source) (shown : ¬t.Hides source id) (r : Reader) :
    t'.eligible id r source = t.eligible id r source := by
  rw [Tree.eligible_eq, Tree.eligible_eq, h.childIds_eq shown]
  refine List.filterMap_congr fun c hc => ?_
  rcases h.child_cases shown hc with ⟨-, hsame⟩ | ⟨hunusable, hunusable'⟩
  · rw [tried?, tried?, hsame]
  · rw [tried?_of_not_isUsable hunusable, tried?_of_not_isUsable hunusable']

/-- What may not be used proposes nothing. -/
theorem proposals_of_not_isUsable {context : Context S E M}
    (h : t.isUsable context.source id = false) (typed : String) :
    (t.node? id).elim [] (fun node => node.proposals context typed) = [] := by
  cases hnode : t.node? id with
  | none => rfl
  | some node =>
    rw [isUsable_eq hnode] at h
    cases hlabel : node.label <;> simp [Node.proposals, hlabel, h]

/-- What is tried at a node that is not hidden is not hidden, either. -/
theorem UniqueParents.not_hides_of_mem_eligible (unique : t.UniqueParents)
    (shown : ¬t.Hides source id) {r : Reader} {child : Offspring S E M}
    (hchild : child ∈ t.eligible id r source) : ¬t.Hides source child.id := by
  obtain ⟨hc, hnode, -, -, huse⟩ := mem_eligible_iff.1 hchild
  exact unique.not_hides_child hc ((isUsable_eq hnode).trans huse) shown

end Tree

namespace Dispatcher
variable {d d' : Dispatcher S E M} {source : S}

/-- Two dispatchers with the same settings whose trees differ at most in what both hide from a
principal. The root is not hidden, and no redirect leads from what is not hidden to what
is. -/
structure Alike (d d' : Dispatcher S E M) (source : S) : Prop where
  config_eq : d'.config = d.config
  tree : d.tree.Alike d'.tree source
  root : ∀ node, d.tree.node? Tree.root = some node → node.canUse source = true
  redirects : d.tree.RedirectsShown source

/-- Nothing that the principal is told makes a difference between two dispatchers. -/
structure Indistinguishable (d d' : Dispatcher S E M) (source : S) : Prop where
  hides_iff : ∀ id, d'.tree.Hides source id ↔ d.tree.Hides source id
  parse : ∀ input, d'.parse input source = d.parse input source
  parseFrom : ∀ r, d'.parseFrom? r source = d.parseFrom? r source
  completions : ∀ input cursor, d'.completionsAt (d'.parse input source) cursor =
    d.completionsAt (d.parse input source) cursor
  smartUsage : ∀ id, ¬d.tree.Hides source id →
    d'.tree.smartUsage id source = d.tree.smartUsage id source
  allUsage : ∀ id, ¬d.tree.Hides source id →
    d'.tree.allUsage id source true = d.tree.allUsage id source true

namespace Alike
variable {node : Nat} {r : Reader} {c : Context S E M}

/-- The two do the same at what is not hidden. -/
theorem agreeWithin (h : d.Alike d' source) :
    d.AgreeWithin d' source fun id => ¬d.tree.Hides source id where
  config_eq := h.config_eq
  eligible := fun _ shown => h.tree.eligible_eq shown
  children := fun _ shown _ _ hchild =>
    h.tree.grown.uniqueParents.not_hides_of_mem_eligible shown hchild
  redirects := h.redirects

theorem parseAt_eq (h : d.Alike d' source) (shown : ¬d.tree.Hides source node)
    (hsource : c.source = source) : d'.parseAt node r c = d.parseAt node r c :=
  h.agreeWithin.parseAt_eq shown hsource

theorem not_hides_root (h : d.Alike d' source) : ¬d.tree.Hides source Tree.root := by
  obtain ⟨node, hnode⟩ := Tree.exists_node? d.tree.hasRoot
  exact Tree.not_hides_root hnode (h.root node hnode)

end Alike

/-! ## Completions -/

/-- A context on behalf of the principal that starts and stays at nodes which are not
hidden. -/
structure InSight (d : Dispatcher S E M) (source : S) (c : Context S E M) : Prop where
  source_eq : c.source = source
  root : ¬d.tree.Hides source c.root
  nodes : ∀ v ∈ c.nodes, ¬d.tree.Hides source v.node

/-- A context that starts at a node which is not hidden visits none that is. -/
theorem inSight_of_isDerived {input : String} {root start depth : Nat} {c : Context S E M}
    (h : c.IsDerived d source input root start depth) (unique : d.tree.UniqueParents)
    (shown : ¬d.tree.Hides source root) : d.InSight source c := by
  rw [← h.root_eq] at shown
  refine ⟨h.source_eq, shown, ?_⟩
  rintro v hv ⟨above, node, hunder, hnode, huse⟩
  have outside : ¬d.tree.Under above c.root := fun hroot =>
    shown ⟨above, node, hroot, hnode, huse⟩
  exact h.not_under unique hnode huse outside v hv hunder

/-- Where redirects do not lead to hidden nodes, nor do the contexts behind them. -/
theorem Derives.inSight {input : String} {root start depth : Nat} {c : Context S E M}
    {inner : List (Context S E M)} (h : d.Derives source input root start depth c inner)
    (unique : d.tree.UniqueParents) (redirects : d.tree.RedirectsShown source)
    (shown : ¬d.tree.Hides source root) : ∀ level ∈ c :: inner, d.InSight source level := by
  induction h with
  | innermost derived => simpa using inSight_of_isDerived derived unique shown
  | @nested _ _ _ _ _ _ v node target derived last lookup redirect _ _ _ ih =>
    have houter := inSight_of_isDerived derived unique shown
    have hv := houter.nodes v (List.mem_of_getLast? last)
    intro level hlevel
    rcases List.mem_cons.1 hlevel with rfl | hlevel
    · exact houter
    · exact ih (redirects v.node node target hv lookup redirect) level hlevel

namespace Alike

/-- A parse whose contexts keep out of what is hidden is completed the same. -/
theorem completionsAt_eq (h : d.Alike d' source) {p : Parse S E M}
    (inSight : ∀ level ∈ p.chain.levels, d.InSight source level) (cursor : Nat) :
    d'.completionsAt p cursor = d.completionsAt p cursor := by
  obtain ⟨hlevel, hparent⟩ := Context.completionPoint_parent
    (min cursor (Text.size p.reader.input)) p.chain.outer p.chain.inner
  have hcontext := inSight _ hlevel
  rw [completionsAt, completionsAt, Chain.completionPoint]
  generalize Context.completionPoint _ p.chain.outer p.chain.inner = point at *
  have hpoint : ¬d.tree.Hides source point.1.parent := by
    rcases hparent with heq | ⟨v, hv, heq⟩
    · exact heq ▸ hcontext.root
    · exact heq ▸ hcontext.nodes v hv
  have hproposals : ∀ typed, ∀ c ∈ d.tree.childIds point.1.parent,
      (d'.tree.node? c).elim [] (fun node => node.proposals point.2 typed) =
        (d.tree.node? c).elim [] fun node => node.proposals point.2 typed := by
    intro typed c hc
    rcases h.tree.child_cases hpoint hc with ⟨-, hsame⟩ | ⟨hunusable, hunusable'⟩
    · rw [hsame]
    · rw [← hcontext.source_eq] at hunusable hunusable'
      rw [Tree.proposals_of_not_isUsable hunusable, Tree.proposals_of_not_isUsable hunusable']
  simp only [h.tree.childIds_eq hpoint, List.flatMap_congr (hproposals _), limited, h.config_eq]

/-- A principal cannot tell two dispatchers apart that differ only in what they hide from
them. -/
theorem indistinguishable (h : d.Alike d' source) : d.Indistinguishable d' source where
  hides_iff := fun _ => h.tree.hides_iff
  parse := fun _ => h.parseAt_eq h.not_hides_root rfl
  parseFrom := by
    intro r
    rw [parseFrom?, parseFrom?, h.parseAt_eq h.not_hides_root rfl]
  completions := by
    intro input cursor
    have hparse : d'.parse input source = d.parse input source :=
      h.parseAt_eq h.not_hides_root rfl
    have hderives : d.Derives source input Tree.root 0 0 (d.parse input source).chain.outer
        (d.parse input source).chain.inner :=
      d.parseAt_derives (Reader.isOnBoundary_ofString input) Tree.root source
    rw [hparse]
    exact h.completionsAt_eq (hderives.inSight h.tree.grown.uniqueParents h.redirects
      h.not_hides_root) cursor
  smartUsage := fun _ shown => h.tree.smartUsage_eq h.redirects shown
  allUsage := fun _ shown => h.tree.allUsage_eq h.redirects shown

end Alike

/-- A command that nobody may use, and `again`, which leads back to the root. -/
def besideAgain (command : Sprout Principal Nat Unit) : Dispatcher Principal Nat Unit where
  tree := Tree.empty.afterAll [.register (command.withRequirement (some fun _ => false)),
    .register ((Sprout.literal "again").redirectTo Tree.root)]
  config := {}

/-- Under `vault` there is `gold` and under that `ring`. -/
def vault : Dispatcher Principal Nat Unit :=
  besideAgain ((Sprout.literal "vault").child ((Sprout.literal "gold").child (.literal "ring")))

/-- Under `crypt` there is `bones`, which can be run, and `ghost`, which redirects. -/
def crypt : Dispatcher Principal Nat Unit :=
  besideAgain (((Sprout.literal "crypt").child
    ((Sprout.literal "bones").withExecutor (some 9))).child
      ((Sprout.literal "ghost").redirectTo Tree.root))

theorem indistinguishable_vault_crypt : vault.Alike crypt (.named "guest") ∧
    vault.Indistinguishable crypt (.named "guest") ∧
      vault.tree.findPath? ["vault", "gold", "ring"] = some 3 ∧
        crypt.tree.findPath? ["crypt", "ghost"] = some 3 := by
  let again : Node Principal Nat Unit := ((Sprout.literal "again").redirectTo Tree.root).toNode
  have vault₀ : vault.tree.node? 0 = some (Node.root.withChildren [1, 4]) := rfl
  have crypt₀ : crypt.tree.node? 0 = some (Node.root.withChildren [1, 4]) := rfl
  have vault₄ : vault.tree.node? 4 = some again := rfl
  have crypt₄ : crypt.tree.node? 4 = some again := rfl
  have vault₁ : vault.tree.Hides (.named "guest") 1 := ⟨1, _, .refl, rfl, rfl⟩
  have crypt₁ : crypt.tree.Hides (.named "guest") 1 := ⟨1, _, .refl, rfl, rfl⟩
  have vault₂ : vault.tree.Hides (.named "guest") 2 := vault₁.child (by decide)
  have same : ∀ id, ¬(vault.tree.Hides (.named "guest") id ∧ crypt.tree.Hides (.named "guest") id) →
      crypt.tree.node? id = vault.tree.node? id := by
    intro id hid
    match id with
    | 0 => exact crypt₀.trans vault₀.symm
    | 1 => exact absurd ⟨vault₁, crypt₁⟩ hid
    | 2 => exact absurd ⟨vault₂, crypt₁.child (by decide)⟩ hid
    | 3 => exact absurd ⟨vault₂.child (by decide), crypt₁.child (by decide)⟩ hid
    | 4 => exact crypt₄.trans vault₄.symm
    | n + 5 =>
      rw [Tree.node?_eq_none (Nat.le_add_left 5 n), Tree.node?_eq_none (Nat.le_add_left 5 n)]
  have root : ¬vault.tree.Hides (.named "guest") Tree.root := Tree.not_hides_root rfl rfl
  have redirects : vault.tree.RedirectsShown (.named "guest") := by
    intro id node target shown lookup redirect
    match id with
    | 0 =>
      rw [← Option.some.inj (vault₀.symm.trans lookup)] at redirect
      exact absurd redirect (Option.some_ne_none target).symm
    | 1 => exact absurd vault₁ shown
    | 2 => exact absurd vault₂ shown
    | 3 => exact absurd (vault₂.child (by decide)) shown
    | 4 =>
      rw [← Option.some.inj (vault₄.symm.trans lookup)] at redirect
      exact Option.some.inj redirect ▸ root
    | n + 5 =>
      rw [Tree.node?_eq_none (Nat.le_add_left 5 n)] at lookup
      exact absurd lookup (Option.some_ne_none node).symm
  have alike : vault.Alike crypt (.named "guest") :=
    ⟨rfl, ⟨⟨_, rfl⟩, ⟨_, rfl⟩, same⟩, by rintro _ ⟨⟩; rfl, redirects⟩
  exact ⟨alike, alike.indistinguishable, by decide, by decide⟩
end Dispatcher
end Dispatch
