import Dispatch.Proofs.Parse.Hiding
import Dispatch.Proofs.Tree.Arena
import Dispatch.Usage
/-!
# Trees that look alike

A tree hides from a principal the nodes that the principal may not use, and what is under
them. Two trees look alike to a principal if they differ only in nodes that both of them hide
(`Alike`). Then they hide the same nodes, a node that is not hidden has the same children in
both, and each of these children is the same in both or may be used in neither
(`Alike.child_cases`). Usage lines look at a child no further than this allows, so they are
the same.
-/
namespace Dispatch
variable {S E M : Type}

namespace Tree
variable {t t' : Tree S E M} {source : S} {id parent c : Nat} {node : Node S E M}

/-- The principal may not use the node or one that it is under. -/
def Hides (t : Tree S E M) (source : S) (id : Nat) : Prop :=
  ∃ above node, t.Under above id ∧ t.node? above = some node ∧ node.canUse source = false

/-- There is a node with that number, and the principal may use it. -/
def isUsable (t : Tree S E M) (source : S) (id : Nat) : Bool :=
  (t.node? id).any fun node => node.canUse source

theorem isUsable_eq (hnode : t.node? id = some node) :
    t.isUsable source id = node.canUse source := by
  rw [isUsable, hnode, Option.any_some]

theorem Hides.child (h : t.Hides source parent) (hc : c ∈ t.childIds parent) :
    t.Hides source c := by
  obtain ⟨above, node, hunder, hnode⟩ := h
  exact ⟨above, node, hunder.tail hc, hnode⟩

/-- A hidden child of a node that is not hidden may not be used. -/
theorem UniqueParents.not_isUsable (unique : t.UniqueParents) (hc : c ∈ t.childIds parent)
    (hides : t.Hides source c) (shown : ¬t.Hides source parent) :
    t.isUsable source c = false := by
  obtain ⟨above, node, hunder, hnode, huse⟩ := hides
  by_cases heq : c = above
  · subst heq
    rw [isUsable_eq hnode, huse]
  · exact absurd ⟨above, node, unique.under_parent hc hunder heq, hnode, huse⟩ shown

/-- A child that may be used is not hidden if its parent is not. -/
theorem UniqueParents.not_hides_child (unique : t.UniqueParents) (hc : c ∈ t.childIds parent)
    (usable : t.isUsable source c = true) (shown : ¬t.Hides source parent) :
    ¬t.Hides source c := by
  intro hides
  rw [unique.not_isUsable hc hides shown] at usable
  exact Bool.false_ne_true usable

/-- The root is hidden only by what it asks for itself. -/
theorem not_hides_root (hnode : t.node? root = some node) (huse : node.canUse source = true) :
    ¬t.Hides source root := by
  rintro ⟨above, found, hunder, hfound, hrejects⟩
  by_cases heq : above = root
  · rw [heq, hnode] at hfound
    rw [← Option.some.inj hfound, huse] at hrejects
    exact Bool.false_ne_true hrejects.symm
  · exact not_under_root heq hunder

/-- Trees that differ at most in nodes that both of them hide from a principal. They have as
many nodes, since a number of no node is not hidden. -/
structure Alike (t t' : Tree S E M) (source : S) : Prop where
  grown : t.Grown
  grown' : t'.Grown
  same : ∀ id, ¬(t.Hides source id ∧ t'.Hides source id) → t'.node? id = t.node? id

namespace Alike

theorem symm (h : t.Alike t' source) : t'.Alike t source where
  grown := h.grown'
  grown' := h.grown
  same := fun id hid => (h.same id fun hhides => hid hhides.symm).symm

theorem node?_eq (h : t.Alike t' source) (shown : ¬t.Hides source id) :
    t'.node? id = t.node? id :=
  h.same id fun hhides => shown hhides.1

theorem childIds_eq (h : t.Alike t' source) (shown : ¬t.Hides source id) :
    t'.childIds id = t.childIds id := by
  rw [childIds, childIds, h.node?_eq shown]

/-- Going down to a hidden node, what the one tree hides the other one hides as well: the
parent that a node which is not hidden has in one tree is its parent in both. -/
theorem hides_of_hides (h : t.Alike t' source) (hides : t'.Hides source id) :
    t.Hides source id := by
  obtain ⟨above, node, hunder, hnode, huse⟩ := hides
  induction hunder with
  | refl =>
    by_contra shown
    rw [h.node?_eq shown] at hnode
    exact shown ⟨above, node, .refl, hnode, huse⟩
  | @tail parent id _ hchild ih =>
    by_contra shown
    obtain ⟨found, hfound⟩ := exists_node? (lt_of_mem_childIds hchild).2
    rw [h.node?_eq shown] at hfound
    obtain ⟨other, hother⟩ := h.grown.arranged.parent id (lt_size_of_node? hfound)
      (Nat.ne_of_gt (root_lt_of_mem_childIds hchild))
    have shown' : ¬t.Hides source other := fun hides => shown (hides.child hother)
    rw [← h.childIds_eq shown'] at hother
    exact shown' (h.grown'.uniqueParents other parent id hother hchild ▸ ih)

theorem hides_iff (h : t.Alike t' source) : t'.Hides source id ↔ t.Hides source id :=
  ⟨h.hides_of_hides, h.symm.hides_of_hides⟩

/-- A child of a node that is not hidden is the same in both trees, or may be used in
neither. -/
theorem child_cases (h : t.Alike t' source) (shown : ¬t.Hides source id)
    (hc : c ∈ t.childIds id) :
    (¬t.Hides source c ∧ t'.node? c = t.node? c) ∨
      (t.isUsable source c = false ∧ t'.isUsable source c = false) := by
  by_cases hides : t.Hides source c
  · have hc' : c ∈ t'.childIds id := h.childIds_eq shown ▸ hc
    exact .inr ⟨h.grown.uniqueParents.not_isUsable hc hides shown,
      h.grown'.uniqueParents.not_isUsable hc' (h.hides_iff.2 hides) (mt h.hides_iff.1 shown)⟩
  · exact .inl ⟨hides, h.node?_eq hides⟩

end Alike

/-! ## Usage lines -/

theorem map_val_childrenOf (t : Tree S E M) (id : Nat) :
    (t.childrenOf id).map Subtype.val = t.childIds id := by
  rw [childrenOf, childIds]
  split
  · next hnone => simp [hnone]
  · next node hnode => simp [hnode, Function.comp_def]

/-- Nothing is shown of what the principal may not use. -/
theorem usageFrom_of_not_isUsable (h : t.isUsable source id = false) (line : String) :
    t.usageFrom source true line id = [] := by
  rw [usageFrom]
  cases hnode : t.node? id with
  | none => rfl
  | some node =>
    rw [isUsable_eq hnode] at h
    simp [h]

/-- The lines from a node on: its own if it runs something, and those of its children or the
one of its redirect. -/
theorem usageFrom_eq (hnode : t.node? id = some node) (huse : node.canUse source = true)
    (line : String) :
    t.usageFrom source true line id =
      (if node.executor.isSome then [line] else []) ++
        match node.redirect with
        | some target =>
          [joinUsage (if line.isEmpty then node.usage else line) (t.redirectUsage target)]
        | none => (t.childIds id).flatMap fun c => t.usageFrom source true
            (if line.isEmpty then t.usageOf c else joinUsage line (t.usageOf c)) c := by
  rw [usageFrom, hnode, ← map_val_childrenOf, List.flatMap_map]
  cases hredirect : node.redirect <;>
    simp only [huse, hredirect, Bool.not_true, Bool.and_false, Bool.false_eq_true, if_false]

theorem compactUsage_of_not_isUsable (h : t.isUsable source id = false) (isOptional : Bool) :
    t.compactUsage source isOptional id = none := by
  rw [compactUsage]
  cases hnode : t.node? id with
  | none => rfl
  | some node =>
    rw [isUsable_eq hnode] at h
    simp [h]

/-- What a compact line says of the children that can be used, where `alone` is the line of a
child that stands alone. -/
def tailUsage? (t : Tree S E M) (isOptional : Bool) (alone : Nat → Option String) :
    List Nat → Option String
  | [] => none
  | [only] => if isOptional then some (bracketed true (t.usageOf only)) else alone only
  | several => alternatives isOptional (several.map t.usageOf)

theorem tailUsage?_congr {ids : List Nat} {isOptional : Bool} {alone alone' : Nat → Option String}
    (usages : ∀ c ∈ ids, t'.usageOf c = t.usageOf c) (lines : ∀ c ∈ ids, alone' c = alone c) :
    t'.tailUsage? isOptional alone' ids = t.tailUsage? isOptional alone ids := by
  match ids with
  | [] => rfl
  | [only] =>
    rw [tailUsage?, tailUsage?, usages only (List.mem_singleton_self only),
      lines only (List.mem_singleton_self only)]
  | first :: second :: rest =>
    simp only [tailUsage?]
    rw [List.map_congr_left usages]

/-- The compact line of a node: the node, and its redirect or what is said of its children. -/
theorem compactUsage_eq (hnode : t.node? id = some node) (huse : node.canUse source = true)
    (isOptional : Bool) :
    t.compactUsage source isOptional id = some
      (match node.redirect with
      | some target => joinUsage (bracketed isOptional node.usage) (t.redirectUsage target)
      | none =>
        match t.tailUsage? node.executor.isSome (t.compactUsage source false)
          ((t.childIds id).filter (t.isUsable source)) with
        | some text => joinUsage (bracketed isOptional node.usage) text
        | none => bracketed isOptional node.usage) := by
  have hids : (t.childIds id).filter (t.isUsable source) =
      ((t.childrenOf id).filter fun c => t.isUsable source c.val).map Subtype.val := by
    rw [← map_val_childrenOf, List.filter_map]
    rfl
  rw [compactUsage, hnode, hids]
  simp only [huse, Bool.not_true, Bool.false_eq_true, if_false]
  cases node.redirect with
  | some target => rfl
  | none =>
    simp only [isUsable]
    generalize (t.childrenOf id).filter _ = usable
    rcases usable with - | ⟨first, - | ⟨second, rest⟩⟩
    · rfl
    · rfl
    · simp only [tailUsage?, List.map_cons, List.map_map]
      rfl

/-- Redirects of nodes that are not hidden do not lead to hidden ones. -/
def RedirectsShown (t : Tree S E M) (source : S) : Prop :=
  ∀ id node target, ¬t.Hides source id → t.node? id = some node → node.redirect = some target →
    ¬t.Hides source target

namespace Alike

theorem usageOf_eq (h : t.Alike t' source) (shown : ¬t.Hides source id) :
    t'.usageOf id = t.usageOf id := by
  rw [usageOf, usageOf, h.node?_eq shown]

theorem redirectUsage_eq (h : t.Alike t' source) (shown : ¬t.Hides source id) :
    t'.redirectUsage id = t.redirectUsage id := by
  rw [redirectUsage, redirectUsage, h.usageOf_eq shown]

/-- A node that is not hidden is the same in both trees and may be used, or it is not
there. -/
theorem usable_cases (h : t.Alike t' source) (shown : ¬t.Hides source id) :
    (∃ node, t.node? id = some node ∧ t'.node? id = some node ∧ node.canUse source = true) ∨
      (t.isUsable source id = false ∧ t'.isUsable source id = false) := by
  have hsame := h.node?_eq shown
  cases hnode : t.node? id with
  | none =>
    rw [hnode] at hsame
    exact .inr ⟨by simp [isUsable, hnode], by simp [isUsable, hsame]⟩
  | some node =>
    refine .inl ⟨node, rfl, hsame.trans hnode, ?_⟩
    by_contra huse
    exact shown ⟨id, node, .refl, hnode, Bool.eq_false_iff.2 huse⟩

/-- The children that can be used are the same, and none of them is hidden. -/
theorem filter_isUsable_eq (h : t.Alike t' source) (shown : ¬t.Hides source id) :
    (t'.childIds id).filter (t'.isUsable source) = (t.childIds id).filter (t.isUsable source) ∧
      ∀ c ∈ (t.childIds id).filter (t.isUsable source), ¬t.Hides source c := by
  rw [h.childIds_eq shown]
  constructor
  · refine List.filter_congr fun c hc => ?_
    rcases h.child_cases shown hc with ⟨-, hsame⟩ | ⟨hunusable, hunusable'⟩
    · rw [isUsable, isUsable, hsame]
    · rw [hunusable, hunusable']
  · intro c hc
    obtain ⟨hchild, husable⟩ := List.mem_filter.1 hc
    exact h.grown.uniqueParents.not_hides_child hchild husable shown

/-- The lines that a principal can use from a node on. -/
theorem usageFrom_eq (h : t.Alike t' source) (redirects : t.RedirectsShown source)
    (shown : ¬t.Hides source id) (line : String) :
    t'.usageFrom source true line id = t.usageFrom source true line id := by
  -- Children have greater numbers, and there are no more than the tree has nodes.
  induction hrank : t.size - id using Nat.strongRecOn generalizing id line with
  | ind rank ih =>
    subst hrank
    rcases h.usable_cases shown with ⟨node, hnode, hnode', huse⟩ | ⟨hunusable, hunusable'⟩
    · rw [Tree.usageFrom_eq hnode huse, Tree.usageFrom_eq hnode' huse, h.childIds_eq shown]
      cases hredirect : node.redirect with
      | some target =>
        simp only [h.redirectUsage_eq (redirects id node target shown hnode hredirect)]
      | none =>
        refine congrArg _ (List.flatMap_congr fun c hc => ?_)
        rcases h.child_cases shown hc with ⟨shown', -⟩ | ⟨hunusable, hunusable'⟩
        · have horder := lt_of_mem_childIds hc
          rw [h.usageOf_eq shown']
          exact ih (t.size - c) (by omega) shown' _ rfl
        · rw [usageFrom_of_not_isUsable hunusable, usageFrom_of_not_isUsable hunusable']
    · rw [usageFrom_of_not_isUsable hunusable, usageFrom_of_not_isUsable hunusable']

/-- The compact line of a node. -/
theorem compactUsage_eq (h : t.Alike t' source) (redirects : t.RedirectsShown source)
    (shown : ¬t.Hides source id) (isOptional : Bool) :
    t'.compactUsage source isOptional id = t.compactUsage source isOptional id := by
  induction hrank : t.size - id using Nat.strongRecOn generalizing id isOptional with
  | ind rank ih =>
    subst hrank
    rcases h.usable_cases shown with ⟨node, hnode, hnode', huse⟩ | ⟨hunusable, hunusable'⟩
    · rw [Tree.compactUsage_eq hnode huse, Tree.compactUsage_eq hnode' huse]
      cases hredirect : node.redirect with
      | some target =>
        simp only [h.redirectUsage_eq (redirects id node target shown hnode hredirect)]
      | none =>
        obtain ⟨hfilter, hshown⟩ := h.filter_isUsable_eq shown
        rw [hfilter, tailUsage?_congr (fun c hc => h.usageOf_eq (hshown c hc)) fun c hc => ?_]
        have horder := lt_of_mem_childIds (List.mem_filter.1 hc).1
        exact ih (t.size - c) (by omega) (hshown c hc) false rfl
    · rw [compactUsage_of_not_isUsable hunusable, compactUsage_of_not_isUsable hunusable']

theorem allUsage_eq (h : t.Alike t' source) (redirects : t.RedirectsShown source)
    (shown : ¬t.Hides source id) : t'.allUsage id source true = t.allUsage id source true :=
  h.usageFrom_eq redirects shown ""

theorem smartUsage_eq (h : t.Alike t' source) (redirects : t.RedirectsShown source)
    (shown : ¬t.Hides source id) : t'.smartUsage id source = t.smartUsage id source := by
  rw [smartUsage, smartUsage, h.node?_eq shown]
  cases hnode : t.node? id with
  | none => rfl
  | some node =>
    refine List.filterMap_congr fun c hc => ?_
    rw [← Tree.childIds_eq hnode] at hc
    rcases h.child_cases shown hc with ⟨shown', -⟩ | ⟨hunusable, hunusable'⟩
    · rw [h.compactUsage_eq redirects shown']
    · rw [compactUsage_of_not_isUsable hunusable, compactUsage_of_not_isUsable hunusable']

end Alike
end Tree
end Dispatch
