import Dispatch.Proofs.Manager.Registration
import Mathlib.Data.List.Perm.Basic
/-!
# Tree and registry agree

A manager keeps its aliases in three places: the index leads from an alias to a command, each
command lists its aliases, and the root of the tree has a literal for each of them. `Agrees`
says that the three tell the same, and that the literals lead to the nodes that the registry
names. It is read off the invariant of registrations (`Reachable.coherent`).
-/
namespace Dispatch

namespace Registry
variable {r : Registry}

/-- No alias stands twice in the lists of all commands taken together. -/
theorem Coherent.nodup_aliases (h : r.Coherent) : (r.mappings.flatMap Mapping.aliases).Nodup := by
  refine List.nodup_flatMap.2 ⟨fun mapping hmem => ?_, List.pairwise_iff_getElem.2 ?_⟩
  · obtain ⟨i, hi⟩ := List.getElem?_of_mem hmem
    exact h.nodup i mapping hi
  · intro i j hi hj hlt name hmem hmem'
    have hsame : i = j := h.index_eq (List.getElem?_eq_getElem hi) (List.getElem?_eq_getElem hj)
      hmem hmem'
    omega

theorem mem_aliases_iff {name : String} :
    name ∈ r.mappings.flatMap Mapping.aliases ↔ r.Lists name := by
  rw [List.mem_flatMap]
  constructor
  · rintro ⟨mapping, hmem, hname⟩
    obtain ⟨i, hi⟩ := List.getElem?_of_mem hmem
    exact ⟨i, mapping, hi, hname⟩
  · rintro ⟨i, mapping, hi, hname⟩
    exact ⟨mapping, List.mem_of_getElem? hi, hname⟩

end Registry

namespace Manager
variable {S E M : Type}

/-- The manager after several registrations. -/
def afterAll [Capable S] (m : Manager S E M) (registrations : List (Registration S E M)) :
    Manager S E M :=
  registrations.foldl after m

/-- Registrations, refused or not, lead to a reachable manager. -/
theorem Reachable.afterAll [Capable S] {config : Config} {allowed : Registration S E M → Prop}
    {m : Manager S E M} (h : Reachable config allowed m)
    {registrations : List (Registration S E M)}
    (hallowed : ∀ registration ∈ registrations, allowed registration) :
    Reachable config allowed (m.afterAll registrations) := by
  induction registrations generalizing m with
  | nil => exact h
  | cons registration rest ih =>
    refine ih ?_ fun other hother => hallowed other (List.mem_cons_of_mem registration hother)
    exact h.after (hallowed registration List.mem_cons_self)

/-- The index of aliases, the aliases that commands list and the literals under the root
agree. -/
structure Agrees (m : Manager S E M) : Prop where
  /-- An alias leads to the command that lists it. -/
  leads : ∀ (name : String) (i : Nat), m.registry.indices.get? name = some i ↔
    ∃ mapping, m.registry.mappings[i]? = some mapping ∧ name ∈ mapping.aliases
  /-- No alias is listed twice, by one command or by two. -/
  nodup : (m.registry.mappings.flatMap Mapping.aliases).Nodup
  first : ∀ mapping ∈ m.registry.mappings, mapping.aliases.head? = some mapping.primary
  /-- All children of the root are literals. -/
  literals : ∀ c ∈ m.tree.childIds Tree.root, ∃ node text,
    m.tree.node? c = some node ∧ node.label = some (.literal text)
  /-- There is one of them for each alias and no other. -/
  names : m.tree.rootNames.Perm (m.registry.mappings.flatMap Mapping.aliases)
  /-- The node of a command is the child of its primary alias. -/
  primary : ∀ mapping ∈ m.registry.mappings,
    m.tree.findChild? Tree.root mapping.primary = some mapping.node
  /-- The children of its other aliases redirect to that node. -/
  secondary : ∀ mapping ∈ m.registry.mappings, ∀ name ∈ mapping.aliases, name ≠ mapping.primary →
    ∃ c node, m.tree.findChild? Tree.root name = some c ∧ m.tree.node? c = some node ∧
      node.redirect = some mapping.node

theorem Coherent.agrees {m : Manager S E M} (h : m.Coherent) : m.Agrees where
  leads := h.registry.leads
  nodup := h.registry.nodup_aliases
  first := by
    intro mapping hmem
    obtain ⟨i, hi⟩ := List.getElem?_of_mem hmem
    exact h.registry.primary i mapping hi
  literals := by
    intro c hc
    obtain ⟨name, node, hliteral⟩ := h.literals.literal c hc
    exact ⟨node, name, hliteral.lookup, hliteral.label⟩
  names := by
    refine (List.perm_ext_iff_of_nodup h.literals.nodup h.registry.nodup_aliases).2 fun name => ?_
    rw [h.names, Registry.mem_aliases_iff]
  primary := by
    intro mapping hmem
    obtain ⟨i, hi⟩ := List.getElem?_of_mem hmem
    obtain ⟨node, hnode⟩ := h.primary i mapping hi
    exact h.literals.findChild?_of_rootLiteral hnode
  secondary := by
    intro mapping hmem name hname hne
    obtain ⟨i, hi⟩ := List.getElem?_of_mem hmem
    obtain ⟨c, node, halias⟩ := h.secondary i mapping hi name hname hne
    exact ⟨c, node, h.literals.findChild?_of_rootLiteral halias.literal, halias.literal.lookup,
      halias.redirect⟩

/-- Whatever is registered, and whether it is refused or not, the tree and the registry
agree. -/
theorem agrees_afterAll [Capable S] (config : Config)
    (registrations : List (Registration S E M)) :
    ((empty config : Manager S E M).afterAll registrations).Agrees := by
  have start : Reachable config (fun _ => True) (empty config : Manager S E M) := .refl
  exact (start.afterAll fun registration _ => trivial).coherent.agrees

end Manager
end Dispatch
