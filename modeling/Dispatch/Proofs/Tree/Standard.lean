import Dispatch.Proofs.Parse.Taking
import Dispatch.Proofs.Reader.KeptText
import Dispatch.Proofs.Tree.Register
/-!
# Trees with standard parsers

Subtrees that take arguments with the parsers of the library and do not redirect make a tree
in which the same holds below the root. The children of the root are left out, since aliases
of commands are among them and redirect (`IsStandard.register`).
-/
namespace Dispatch
variable {S E M : Type}

/-- A literal, or an argument that is read by a parser of the library. -/
def Label.IsStandard : Label S E M → Prop
  | .literal _ => True
  | .argument _ parser _ => ∃ p : StandardParser, parser = p.toParser

theorem Label.IsStandard.keepsText {label : Label S E M} (h : label.IsStandard) :
    label.KeepsText := by
  cases label with
  | literal text => trivial
  | argument name parser completer =>
    obtain ⟨p, rfl⟩ := h
    exact fun _ r => p.input_parse r

/-- A subtree without redirects in which all arguments are read by parsers of the library. -/
inductive Sprout.IsStandard : Sprout S E M → Prop
  | mk {b : Sprout S E M} (label : b.label.IsStandard) (plain : b.redirect = none)
    (children : ∀ child ∈ b.children, child.IsStandard) : b.IsStandard

theorem Sprout.IsStandard.withRequirement {b : Sprout S E M} (h : b.IsStandard)
    (requirement : Option (S → Bool)) : (b.withRequirement requirement).IsStandard := by
  obtain ⟨label, plain, children⟩ := h
  exact ⟨label, plain, children⟩

theorem Sprout.IsStandard.withLiteral {b : Sprout S E M} (h : b.IsStandard) (name : String) :
    (b.withLiteral name).IsStandard := by
  rw [Sprout.withLiteral]
  split
  · obtain ⟨-, plain, children⟩ := h
    exact ⟨trivial, plain, children⟩
  · exact h

namespace Tree
variable {t t' : Tree S E M} {b : Sprout S E M} {parent x : Nat}

/-- All arguments are read by parsers of the library. -/
def HasStandardLabels (t : Tree S E M) : Prop :=
  ∀ id node label, t.node? id = some node → node.label = some label → label.IsStandard

/-- All arguments are read by parsers of the library, and no node redirects but children of
the root. -/
structure IsStandard (t : Tree S E M) : Prop where
  labels : ∀ id node, t.node? id = some node → ∀ label, node.label = some label → label.IsStandard
  plain : ∀ id c node, id ≠ root → c ∈ t.childIds id → t.node? c = some node →
    node.redirect = none

theorem HasStandardLabels.keepsText (h : t.HasStandardLabels) : t.KeepsText :=
  fun id node label hnode hlabel => (h id node label hnode hlabel).keepsText

theorem IsStandard.keepsText (h : t.IsStandard) : t.KeepsText :=
  fun id node label hnode hlabel => (h.labels id node hnode label hlabel).keepsText

theorem isStandard_empty : (empty : Tree S E M).IsStandard where
  labels := by
    intro id node hnode label hlabel
    rw [(eq_root_of_node?_empty hnode).2] at hlabel
    simp [Node.root] at hlabel
  plain := by
    intro id c node hid hc
    simp at hc

/-- Child edges stay within some nodes, and what they lead to is read by parsers of the
library and does not redirect. -/
structure StandardBelow (t : Tree S E M) (P : Nat → Prop) : Prop where
  closed : ∀ id c, P id → c ∈ t.childIds id → P c
  labels : ∀ id c node, P id → c ∈ t.childIds id → t.node? c = some node →
    ∀ label, node.label = some label → label.IsStandard
  plain : ∀ id c node, P id → c ∈ t.childIds id → t.node? c = some node → node.redirect = none

theorem IsStandard.standardBelow (h : t.IsStandard) : t.StandardBelow (· ≠ root) where
  closed := fun _ _ _ hc => Nat.ne_of_gt (root_lt_of_mem_childIds hc)
  labels := fun _ c node _ _ hnode => h.labels c node hnode
  plain := h.plain

/-- A sprout that is placed has to be without a redirect, unless it is placed under the
root. -/
theorem IsStandard.place (h : t.IsStandard) (apart : t.RootApart) (hlt : parent < t.size)
    (label : b.label.IsStandard) (plain : parent ≠ root → b.redirect = none) :
    (t.place parent b).1.IsStandard := by
  obtain ⟨x, hx, hplace⟩ | ⟨-, hplace⟩ := t.place_cases parent b
  · have hchild := (findChild?_eq_some hx).1
    simp only [hplace]
    constructor
    · intro id node hnode tag htag
      rw [node?_update] at hnode
      split at hnode
      · obtain ⟨old, hold, rfl⟩ := Option.map_eq_some_iff.1 hnode
        exact h.labels id old hold tag (by simpa using htag)
      · exact h.labels id node hnode tag htag
    · intro id c node hid hc hnode
      rw [childIds_update] at hc
      rw [node?_update] at hnode
      split at hnode
      · next hcx =>
        obtain ⟨old, hold, rfl⟩ := Option.map_eq_some_iff.1 hnode
        have hparent : parent ≠ root := by
          rintro rfl
          exact hid (apart id c (hcx ▸ hchild) hc)
        rw [Node.withChildren_redirect, Sprout.mergeInto_redirect (plain hparent)]
        exact h.plain id c old hid hc hold
      · exact h.plain id c node hid hc hnode
  · simp only [hplace]
    constructor
    · intro id node hnode tag htag
      obtain ⟨-, rfl⟩ | ⟨-, old, children, hold, rfl⟩ := exists_of_node?_addNode hnode
      · obtain rfl : b.label = tag := Option.some.inj htag
        exact label
      · exact h.labels id old hold tag htag
    · intro id c node hid hc hnode
      obtain ⟨rfl, rfl⟩ | ⟨hne, old, children, hold, rfl⟩ := exists_of_node?_addNode hnode
      · rcases (mem_childIds_addNode hlt b.toNode).1 hc with hc | ⟨rfl, -⟩
        · have := (lt_of_mem_childIds hc).2
          omega
        · exact plain hid
      · rcases (mem_childIds_addNode hlt b.toNode).1 hc with hc | ⟨-, rfl⟩
        · exact h.plain id c old hid hc hold
        · exact absurd rfl hne

/-- Only the node of the sprout itself may redirect. -/
theorem IsStandard.register (h : t.IsStandard) (literals : t.HasLiterals)
    (children : ∀ child ∈ b.children, child.IsStandard) (hregister : t.register b = .ok (t', x)) :
    t'.IsStandard := by
  obtain ⟨hliteral, hgraft⟩ := register_eq_graft hregister
  rw [graft_eq] at hgraft
  obtain ⟨rfl, rfl⟩ := Prod.mk.inj hgraft
  have hlabel : b.label.IsStandard := by
    cases hb : b.label with
    | literal text => trivial
    | argument _ _ _ => simp [Sprout.isLiteral, hb, Label.isLiteral] at hliteral
  have hplaced := h.place literals.apart t.hasRoot hlabel fun hne => absurd rfl hne
  have hstep : ∀ (t : Tree S E M) (parent : Nat) (b : Sprout S E M),
      (t.IsStandard ∧ t.RootApart) → parent ≠ root → parent < t.size → b.IsStandard →
        ((t.place parent b).1.IsStandard ∧ (t.place parent b).1.RootApart) ∧
          (t.place parent b).2 ≠ root := by
    rintro t parent b ⟨hstandard, hapart⟩ hne hlt ⟨label, plain, -⟩
    exact ⟨⟨hstandard.place hapart hlt label fun _ => plain, hapart.place hlt b⟩,
      Nat.ne_of_gt (t.root_lt_place parent b)⟩
  have hchildren : ∀ b : Sprout S E M, b.IsStandard → ∀ child ∈ b.children, child.IsStandard := by
    rintro b ⟨-, -, hchildren⟩
    exact hchildren
  exact (graftAll_induction hchildren hstep b.children ⟨hplaced, literals.apart.place t.hasRoot b⟩
    (Nat.ne_of_gt (t.root_lt_place root b)) (t.size_le_place root b).2 children).1.1

end Tree
end Dispatch
