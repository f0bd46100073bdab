import Dispatch.Proofs.Parse.Additions
import Dispatch.Proofs.Tree.Arena
import Dispatch.Proofs.Tree.Register
import Mathlib.Logic.Equiv.Basic
/-!
# Trees with other numbers

The number of a node is how many nodes were there before it, so two subtrees that are added
one after the other get other numbers when they are added the other way round. `Renumbers`
says that trees are the same but for their numbers and the order of the children of the root.

Where the same is added to two trees, beside what they have, it is the same but for a shift
(`GrowsAlike`). This is shown along the growth: a node that is added or changed in both trees,
a subtree that is grafted, a literal that is registered. From it, the two orders of adding
differ by an exchange of two blocks of numbers (`renumbers_exchange`).
-/
namespace Dispatch
variable {S E M : Type}

/-- The permutation that exchanges two blocks of numbers from `n` on, one of `a` numbers and one of
`b` numbers after it. -/
def exchange (n a b : Nat) : Equiv.Perm Nat where
  toFun id := if id < n then id else if id < n + a then id + b else if id < n + a + b then id - a
    else id
  invFun id := if id < n then id else if id < n + b then id + a else if id < n + b + a then id - b
    else id
  left_inv id := by
    dsimp only
    split_ifs <;> omega
  right_inv id := by
    dsimp only
    split_ifs <;> omega

theorem exchange_apply (n a b id : Nat) : exchange n a b id =
    if id < n then id else if id < n + a then id + b else if id < n + a + b then id - a else id :=
  rfl

section
variable {n a b id : Nat}

theorem exchange_of_lt (h : id < n) : exchange n a b id = id := by
  rw [exchange_apply, if_pos h]

theorem exchange_of_first (hle : n ≤ id) (hlt : id < n + a) : exchange n a b id = id + b := by
  rw [exchange_apply, if_neg (Nat.not_lt.2 hle), if_pos hlt]

theorem exchange_of_second (hle : n ≤ id) (hlt : id < n + b) : exchange n a b (id + a) = id := by
  rw [exchange_apply]
  split_ifs <;> omega

theorem exchange_of_ge (h : n + a + b ≤ id) : exchange n a b id = id := by
  rw [exchange_apply]
  split_ifs <;> omega

end

namespace Node
variable {σ τ : Nat → Nat} {node : Node S E M}

/-- The node where all nodes have other numbers. -/
def renumber (σ : Nat → Nat) (node : Node S E M) : Node S E M :=
  { node with children := node.children.map σ, redirect := node.redirect.map σ }

@[simp] theorem renumber_label (σ : Nat → Nat) (node : Node S E M) :
    (node.renumber σ).label = node.label := rfl

@[simp] theorem renumber_children (σ : Nat → Nat) (node : Node S E M) :
    (node.renumber σ).children = node.children.map σ := rfl

@[simp] theorem renumber_executor (σ : Nat → Nat) (node : Node S E M) :
    (node.renumber σ).executor = node.executor := rfl

@[simp] theorem renumber_requirement (σ : Nat → Nat) (node : Node S E M) :
    (node.renumber σ).requirement = node.requirement := rfl

@[simp] theorem renumber_redirect (σ : Nat → Nat) (node : Node S E M) :
    (node.renumber σ).redirect = node.redirect.map σ := rfl

@[simp] theorem renumber_modifier (σ : Nat → Nat) (node : Node S E M) :
    (node.renumber σ).modifier = node.modifier := rfl

@[simp] theorem renumber_forks (σ : Nat → Nat) (node : Node S E M) :
    (node.renumber σ).forks = node.forks := rfl

@[simp] theorem renumber_name (σ : Nat → Nat) (node : Node S E M) :
    (node.renumber σ).name = node.name := rfl

@[simp] theorem renumber_canUse (σ : Nat → Nat) (node : Node S E M) (source : S) :
    (node.renumber σ).canUse source = node.canUse source := rfl

@[simp] theorem renumber_withChildren (σ : Nat → Nat) (node : Node S E M) (children : List Nat) :
    (node.withChildren children).renumber σ =
      (node.renumber σ).withChildren (children.map σ) := rfl

/-- Only the numbers that a node mentions matter. -/
theorem renumber_congr (children : ∀ c ∈ node.children, σ c = τ c)
    (redirect : ∀ x, node.redirect = some x → σ x = τ x) : node.renumber σ = node.renumber τ := by
  rw [renumber, renumber, List.map_congr_left children]
  cases hredirect : node.redirect with
  | none => rfl
  | some x => rw [Option.map_some, Option.map_some, redirect x hredirect]

theorem renumber_renumber (σ τ : Nat → Nat) (node : Node S E M) :
    (node.renumber σ).renumber τ = node.renumber fun id => τ (σ id) := by
  simp [renumber, Function.comp_def]

theorem renumber_id (node : Node S E M) : (node.renumber fun id => id) = node := by
  simp [renumber]

/-- A sprout without a redirect is merged in the same way. -/
theorem mergeInto_renumber {b : Sprout S E M} (plain : b.redirect = none) (σ : Nat → Nat)
    (node : Node S E M) : b.mergeInto (node.renumber σ) = (b.mergeInto node).renumber σ := by
  cases hexecutor : b.executor <;> simp [Sprout.mergeInto, hexecutor, plain, renumber]

theorem toNode_renumber {b : Sprout S E M} (plain : b.redirect = none) (σ : Nat → Nat) :
    b.toNode.renumber σ = b.toNode := by
  simp [Sprout.toNode, renumber, plain]

end Node

namespace Tree
variable {t₀ t₀' t t' : Tree S E M} {s parent parent' id x : Nat} {b b' : Sprout S E M}

/-! ## Growing alike -/

/-- Two trees have grown from two others alike: what is new in them is the same but for a
shift of the numbers by `s`, it has come up beside what was there, and its redirects lead to
what is new and change no principal. -/
structure GrowsAlike (t₀ t₀' : Tree S E M) (s : Nat) (t t' : Tree S E M) : Prop where
  base : t₀'.size = t₀.size + s
  size : t'.size = t.size + s
  le_size : t₀.size ≤ t.size
  kept : ∀ id, id ≠ root → id < t₀.size → t.node? id = t₀.node? id
  kept' : ∀ id, id ≠ root → id < t₀'.size → t'.node? id = t₀'.node? id
  roots : ∃ new, (∀ c ∈ new, t₀.size ≤ c) ∧ t.childIds root = t₀.childIds root ++ new ∧
    t'.childIds root = t₀'.childIds root ++ new.map (· + s)
  nodes : ∀ id, t₀.size ≤ id → t'.node? (id + s) = (t.node? id).map (Node.renumber (· + s))
  redirects : ∀ id node x, t₀.size ≤ id → t.node? id = some node → node.redirect = some x →
    t₀.size ≤ x ∧ x < t.size ∧ node.modifier = none

namespace GrowsAlike

theorem refl (h : t₀'.size = t₀.size + s) : GrowsAlike t₀ t₀' s t₀ t₀' where
  base := h
  size := h
  le_size := Nat.le_refl _
  kept := fun _ _ _ => rfl
  kept' := fun _ _ _ => rfl
  roots := ⟨[], by simp⟩
  nodes := by
    intro id hid
    have hid' : t₀'.size ≤ id + s := by omega
    rw [node?_eq_none hid, node?_eq_none hid']
    rfl
  redirects := by
    intro id node x hid hnode
    exact absurd (lt_size_of_node? hnode) (Nat.not_lt.2 hid)

variable (h : GrowsAlike t₀ t₀' s t t')
include h

theorem childIds_eq (hid : t₀.size ≤ id) : t'.childIds (id + s) = (t.childIds id).map (· + s) := by
  rw [childIds, h.nodes id hid, childIds]
  cases t.node? id <;> rfl

/-- A new node has its children under the same names. -/
theorem findChild?_eq (hid : t₀.size ≤ id) (name : String) :
    t'.findChild? (id + s) name = (t.findChild? id name).map (· + s) := by
  rw [findChild?, h.childIds_eq hid, List.find?_map, findChild?]
  congr 1
  refine List.find?_congr fun c hc => ?_
  have hnew : t₀.size ≤ c := Nat.le_trans hid (Nat.le_of_lt (lt_of_mem_childIds hc).1)
  simp only [Function.comp_apply, h.nodes c hnew]
  cases t.node? c <;> rfl

/-- A new node is changed in both trees, but not its redirect. -/
theorem update {change : Node S E M → Node S E M} (hx : t₀.size ≤ x)
    (alike : ∀ node, change (node.renumber (· + s)) = (change node).renumber (· + s))
    (redirect : ∀ node, (change node).redirect = node.redirect)
    (modifier : ∀ node, (change node).modifier = node.modifier) :
    GrowsAlike t₀ t₀' s (t.update x change) (t'.update (x + s) change) where
  base := h.base
  size := by rw [size_update, size_update, h.size]
  le_size := by
    rw [size_update]
    exact h.le_size
  kept := by
    intro id hroot hid
    have hne : id ≠ x := by omega
    rw [node?_update, if_neg hne, h.kept id hroot hid]
  kept' := by
    intro id hroot hid
    have hbase := h.base
    have hne : id ≠ x + s := by omega
    rw [node?_update, if_neg hne, h.kept' id hroot hid]
  roots := by simpa only [childIds_update] using h.roots
  nodes := by
    intro id hid
    simp only [node?_update, Nat.add_right_cancel_iff, h.nodes id hid]
    split
    · cases t.node? id <;> simp [alike]
    · rfl
  redirects := by
    intro id node y hid hnode hy
    rw [size_update]
    rw [node?_update] at hnode
    split at hnode
    · obtain ⟨old, hold, rfl⟩ := Option.map_eq_some_iff.1 hnode
      rw [Node.withChildren_redirect, redirect] at hy
      obtain ⟨hge, hlt, hplain⟩ := h.redirects id old y hid hold hy
      exact ⟨hge, hlt, (modifier old).trans hplain⟩
    · exact h.redirects id node y hid hnode hy

/-- A node is added in both trees under the root or under a new node. -/
theorem addNode {node : Node S E M}
    (hparent : parent = root ∧ parent' = root ∨ t₀.size ≤ parent ∧ parent' = parent + s)
    (hlt : parent < t.size)
    (hredirect : ∀ y, node.redirect = some y → t₀.size ≤ y ∧ y < t.size ∧ node.modifier = none) :
    GrowsAlike t₀ t₀' s (t.addNode parent node)
      (t'.addNode parent' (node.renumber (· + s))) where
  base := h.base
  size := by rw [size_addNode, size_addNode, h.size, Nat.add_right_comm]
  le_size := by
    rw [size_addNode]
    exact Nat.le_succ_of_le h.le_size
  kept := by
    intro id hroot hid
    have hle := h.le_size
    have hne : id ≠ t.size := by omega
    have hne' : id ≠ parent := by omega
    rw [node?_addNode, if_neg hne, if_neg hne', h.kept id hroot hid]
  kept' := by
    intro id hroot hid
    have hle := h.le_size
    have hbase := h.base
    have hsize := h.size
    have hne : id ≠ t'.size := by omega
    have hne' : id ≠ parent' := by omega
    rw [node?_addNode, if_neg hne, if_neg hne', h.kept' id hroot hid]
  roots := by
    obtain ⟨new, hnew, hroots, hroots'⟩ := h.roots
    have hsize := h.size
    rcases hparent with ⟨rfl, rfl⟩ | ⟨hparent, rfl⟩
    · refine ⟨new ++ [t.size], fun c hc => ?_, ?_, ?_⟩
      · rcases List.mem_append.1 hc with hc | hc
        · exact hnew c hc
        · exact List.mem_singleton.1 hc ▸ h.le_size
      · rw [childIds_addNode hlt, if_pos rfl, hroots, List.append_assoc]
      · have hlt' : root < t'.size := t'.hasRoot
        rw [childIds_addNode hlt', if_pos rfl, hroots', hsize, List.map_append, List.append_assoc]
        rfl
    · have hroot : root < parent := Nat.lt_of_lt_of_le t₀.hasRoot hparent
      have hlt' : parent + s < t'.size := by omega
      refine ⟨new, hnew, ?_, ?_⟩
      · rw [childIds_addNode hlt, if_neg (Nat.ne_of_lt hroot), hroots]
      · rw [childIds_addNode hlt', if_neg (Nat.ne_of_lt (Nat.lt_add_right s hroot)), hroots']
  nodes := by
    intro id hid
    have hroot : id ≠ root := Nat.ne_of_gt (Nat.lt_of_lt_of_le t₀.hasRoot hid)
    have hparents : id + s = parent' ↔ id = parent := by
      rcases hparent with ⟨rfl, rfl⟩ | ⟨-, rfl⟩
      · exact iff_of_false (Nat.ne_of_gt (Nat.lt_add_right s (Nat.pos_of_ne_zero hroot))) hroot
      · exact Nat.add_right_cancel_iff
    simp only [node?_addNode, h.size, Nat.add_right_cancel_iff, hparents, h.nodes id hid]
    split
    · rfl
    · split
      · cases t.node? id <;> simp
      · rfl
  redirects := by
    intro id found y hid hfound hy
    rw [size_addNode]
    obtain ⟨-, rfl⟩ | ⟨-, old, children, hold, rfl⟩ := exists_of_node?_addNode hfound
    · obtain ⟨hge, hlt, hplain⟩ := hredirect y hy
      exact ⟨hge, Nat.lt_succ_of_lt hlt, hplain⟩
    · obtain ⟨hge, hlt, hplain⟩ := h.redirects id old y hid hold hy
      exact ⟨hge, Nat.lt_succ_of_lt hlt, hplain⟩

/-- A sprout without a redirect is placed alike under a new node. -/
theorem place (plain : b.redirect = none) (hparent : t₀.size ≤ parent) (hlt : parent < t.size) :
    GrowsAlike t₀ t₀' s (t.place parent b).1 (t'.place (parent + s) b).1 ∧
      (t'.place (parent + s) b).2 = (t.place parent b).2 + s ∧
      t₀.size ≤ (t.place parent b).2 := by
  have hfind := h.findChild?_eq hparent b.name
  obtain ⟨x, hx, hplace⟩ | ⟨hnone, hplace⟩ := t.place_cases parent b
  · have hnew : t₀.size ≤ x :=
      Nat.le_trans hparent (Nat.le_of_lt (lt_of_mem_childIds (findChild?_eq_some hx).1).1)
    obtain ⟨x', hx', hplace'⟩ | ⟨hnone', -⟩ := t'.place_cases (parent + s) b
    · rw [hx', hx, Option.map_some, Option.some.injEq] at hfind
      rw [hplace, hplace', hfind]
      refine ⟨h.update hnew (fun node => Node.mergeInto_renumber plain _ node) ?_ ?_, rfl, hnew⟩
      · exact fun node => Sprout.mergeInto_redirect plain node
      · exact fun node => (Sprout.mergeInto_modifier plain node).1
    · rw [hnone', hx] at hfind
      cases hfind
  · obtain ⟨x', hx', -⟩ | ⟨-, hplace'⟩ := t'.place_cases (parent + s) b
    · rw [hx', hnone] at hfind
      cases hfind
    · have hplain : ∀ y, b.toNode.redirect = some y →
          t₀.size ≤ y ∧ y < t.size ∧ b.toNode.modifier = none := by
        intro y hy
        exact absurd (plain.symm.trans hy) nofun
      have hgrows := h.addNode (.inr ⟨hparent, rfl⟩) hlt hplain
      rw [Node.toNode_renumber plain] at hgrows
      rw [hplace, hplace']
      exact ⟨hgrows, h.size, h.le_size⟩

end GrowsAlike

mutual

/-- A sprout without redirects is grafted alike under a new node. -/
theorem GrowsAlike.graft : ∀ (b : Sprout S E M) {t t' : Tree S E M} {parent : Nat}, b.IsPlain →
    GrowsAlike t₀ t₀' s t t' → t₀.size ≤ parent → parent < t.size →
      GrowsAlike t₀ t₀' s (t.graft parent b).1 (t'.graft (parent + s) b).1
  | ⟨label, children, executor, requirement, redirect, modifier, forks⟩, t, t', parent, plain, h,
      hparent, hlt => by
    obtain ⟨hplace, hid, hnew⟩ := h.place plain.redirect_eq hparent hlt
    have hlt' := (t.size_le_place parent
      (⟨label, children, executor, requirement, redirect, modifier, forks⟩ : Sprout S E M)).2
    rw [graft_eq, graft_eq, hid]
    exact GrowsAlike.graftAll children plain.child hplace hnew hlt'

theorem GrowsAlike.graftAll : ∀ (bs : List (Sprout S E M)) {t t' : Tree S E M} {parent : Nat},
    (∀ b ∈ bs, b.IsPlain) → GrowsAlike t₀ t₀' s t t' → t₀.size ≤ parent → parent < t.size →
      GrowsAlike t₀ t₀' s (t.graftAll parent bs) (t'.graftAll (parent + s) bs)
  | [], t, t', parent, _, h, _, _ => by
    rw [Tree.graftAll, Tree.graftAll]
    exact h
  | b :: rest, t, t', parent, plain, h, hparent, hlt => by
    have hgraft := GrowsAlike.graft b (plain b List.mem_cons_self) h hparent hlt
    have hextends := Extends.graft hlt b
    rw [Tree.graftAll, Tree.graftAll]
    exact GrowsAlike.graftAll rest (fun other hother => plain other (List.mem_cons_of_mem b hother))
      hgraft hparent (Nat.lt_of_lt_of_le hlt hextends.size_le)

end

/-- The literal of a new name is placed as a new node. -/
theorem HasLiterals.place_eq (literals : t.HasLiterals) (hname : b.name ∉ t.rootNames) :
    t.place root b = (t.addNode root b.toNode, t.size) := by
  obtain ⟨x, hx, -⟩ | ⟨-, hplace⟩ := t.place_cases root b
  · simp [literals.findChild?_eq_none_iff.2 hname] at hx
  · exact hplace

/-- A literal of a new name is registered alike in both trees, where nothing below it
redirects. -/
theorem GrowsAlike.register {t₁ t₁' : Tree S E M} {x' : Nat} (h : GrowsAlike t₀ t₀' s t t')
    (literals : t.HasLiterals) (literals' : t'.HasLiterals) (hname : b.name ∉ t.rootNames)
    (hname' : b'.name ∉ t'.rootNames) (alike : b'.toNode = b.toNode.renumber (· + s))
    (children : b'.children = b.children) (plain : ∀ child ∈ b.children, child.IsPlain)
    (redirect : ∀ y, b.redirect = some y → t₀.size ≤ y ∧ y < t.size ∧ b.modifier = none)
    (hregister : t.register b = .ok (t₁, x)) (hregister' : t'.register b' = .ok (t₁', x')) :
    GrowsAlike t₀ t₀' s t₁ t₁' := by
  obtain ⟨-, hgraft⟩ := register_eq_graft hregister
  obtain ⟨-, hgraft'⟩ := register_eq_graft hregister'
  rw [graft_eq, literals.place_eq hname] at hgraft
  rw [graft_eq, literals'.place_eq hname', alike, children, h.size] at hgraft'
  obtain ⟨rfl, rfl⟩ := Prod.mk.inj hgraft
  obtain ⟨rfl, rfl⟩ := Prod.mk.inj hgraft'
  have hredirect : ∀ y, b.toNode.redirect = some y →
      t₀.size ≤ y ∧ y < t.size ∧ b.toNode.modifier = none := redirect
  have hadded := h.addNode (.inl ⟨rfl, rfl⟩) t.hasRoot hredirect
  refine GrowsAlike.graftAll b.children plain hadded h.le_size ?_
  rw [size_addNode]
  exact Nat.lt_succ_self _

/-! ## Two orders -/

/-- A tree has the nodes of another one under other numbers, and the children of the root in
some order. Where a redirect has a modifier, the numbers stay up to that node. -/
structure Renumbers (σ : Equiv.Perm Nat) (t t' : Tree S E M) : Prop where
  root_eq : σ root = root
  nodes : ∀ id, id ≠ root → t'.node? (σ id) = (t.node? id).map (Node.renumber σ)
  roots : (t'.childIds root).Perm ((t.childIds root).map σ)
  modifiers : ∀ id node, t.node? id = some node → node.redirect ≠ none → node.modifier ≠ none →
    ∀ i ≤ id, σ i = i

section
variable {ta tb tab tba : Tree S E M} {na nb : Nat}
  (ha : GrowsAlike t tb nb ta tba) (hb : GrowsAlike t ta na tb tab)
include ha hb

/-- Old nodes stay as they are. -/
theorem renumbers_old (inside : t.RedirectsInside) (hroot : id ≠ root) (hid : id < t.size) :
    tba.node? id = (tab.node? id).map (Node.renumber (exchange t.size na nb)) := by
  have hbase := ha.base
  have hbase' := hb.base
  have hid' : id < tb.size := by omega
  have hid'' : id < ta.size := by omega
  rw [ha.kept' id hroot hid', hb.kept id hroot hid, hb.kept' id hroot hid'', ha.kept id hroot hid]
  cases hnode : t.node? id with
  | none => rfl
  | some node =>
    have hsame : node.renumber (exchange t.size na nb) = node.renumber fun id => id := by
      refine Node.renumber_congr (fun c hc => exchange_of_lt ?_) fun x hx => exchange_of_lt ?_
      · exact (child_order hnode hc).2
      · exact inside id node x hnode hx
    rw [Option.map_some, hsame, Node.renumber_id]

/-- What was added first comes later in the other tree. -/
theorem renumbers_first (hle : t.size ≤ id) (hid : id < t.size + na) :
    tba.node? (id + nb) = (tab.node? id).map (Node.renumber (exchange t.size na nb)) := by
  have hbase := hb.base
  have hroot : id ≠ root := Nat.ne_of_gt (Nat.lt_of_lt_of_le t.hasRoot hle)
  have hid' : id < ta.size := by omega
  rw [ha.nodes id hle, hb.kept' id hroot hid']
  cases hnode : ta.node? id with
  | none => rfl
  | some node =>
    rw [Option.map_some, Option.map_some]
    congr 1
    refine Node.renumber_congr (fun c hc => (exchange_of_first ?_ ?_).symm) fun x hx =>
      (exchange_of_first ?_ ?_).symm
    · exact Nat.le_trans hle (Nat.le_of_lt (child_order hnode hc).1)
    · exact hbase ▸ (child_order hnode hc).2
    · exact (ha.redirects id node x hle hnode hx).1
    · exact hbase ▸ (ha.redirects id node x hle hnode hx).2.1

/-- What was added second comes earlier in the other tree. -/
theorem renumbers_second (hle : t.size ≤ id) (hid : id < t.size + nb) :
    tba.node? id = (tab.node? (id + na)).map (Node.renumber (exchange t.size na nb)) := by
  have hbase := ha.base
  have hroot : id ≠ root := Nat.ne_of_gt (Nat.lt_of_lt_of_le t.hasRoot hle)
  have hid' : id < tb.size := by omega
  rw [ha.kept' id hroot hid', hb.nodes id hle]
  cases hnode : tb.node? id with
  | none => rfl
  | some node =>
    have hsame : (node.renumber fun id => exchange t.size na nb (id + na)) =
        node.renumber fun id => id := by
      refine Node.renumber_congr (fun c hc => exchange_of_second ?_ ?_) fun x hx =>
        exchange_of_second ?_ ?_
      · exact Nat.le_trans hle (Nat.le_of_lt (child_order hnode hc).1)
      · exact hbase ▸ (child_order hnode hc).2
      · exact (hb.redirects id node x hle hnode hx).1
      · exact hbase ▸ (hb.redirects id node x hle hnode hx).2.1
    rw [Option.map_some, Option.map_some, Node.renumber_renumber, hsame, Node.renumber_id]

/-- Two additions beside each other, made in either order, lead to trees that differ by an
exchange of the numbers that they brought. -/
theorem renumbers_exchange (inside : t.RedirectsInside) :
    Renumbers (exchange t.size na nb) tab tba where
  root_eq := exchange_of_lt t.hasRoot
  nodes := by
    intro id hroot
    have hbase := hb.base
    have hbase' := ha.base
    have hsize := ha.size
    have hsize' := hb.size
    rcases Nat.lt_or_ge id t.size with hold | hnew
    · rw [exchange_of_lt hold]
      exact renumbers_old ha hb inside hroot hold
    · rcases Nat.lt_or_ge id (t.size + na) with hfirst | hlater
      · rw [exchange_of_first hnew hfirst]
        exact renumbers_first ha hb hnew hfirst
      · rcases Nat.lt_or_ge id (t.size + na + nb) with hsecond | hnone
        · obtain ⟨i, rfl⟩ : ∃ i, id = i + na := ⟨id - na, by omega⟩
          have hle : t.size ≤ i := by omega
          have hlt : i < t.size + nb := by omega
          rw [exchange_of_second hle hlt]
          exact renumbers_second ha hb hle hlt
        · have hab : tab.size ≤ id := by omega
          have hba : tba.size ≤ id := by omega
          rw [exchange_of_ge hnone, node?_eq_none hab, node?_eq_none hba]
          rfl
  roots := by
    obtain ⟨newa, hnewa, hroots, hroots'⟩ := ha.roots
    obtain ⟨newb, hnewb, hroots'', hroots'''⟩ := hb.roots
    have hbase := ha.base
    have hbase' := hb.base
    have hold : (t.childIds root).map (exchange t.size na nb) = t.childIds root := by
      refine (List.map_congr_left fun c hc => ?_).trans (List.map_id _)
      exact exchange_of_lt (lt_of_mem_childIds hc).2
    have hfirst : newa.map (exchange t.size na nb) = newa.map (· + nb) := by
      refine List.map_congr_left fun c hc => exchange_of_first (hnewa c hc) ?_
      have hmem : c ∈ ta.childIds root := hroots ▸ List.mem_append_right _ hc
      exact hbase' ▸ (lt_of_mem_childIds hmem).2
    have hsecond : (newb.map (· + na)).map (exchange t.size na nb) = newb := by
      rw [List.map_map]
      refine (List.map_congr_left fun c hc => ?_).trans (List.map_id _)
      have hmem : c ∈ tb.childIds root := hroots'' ▸ List.mem_append_right _ hc
      exact exchange_of_second (hnewb c hc) (hbase ▸ (lt_of_mem_childIds hmem).2)
    rw [hroots', hroots'', hroots''', hroots, List.map_append, List.map_append, hold, hfirst,
      hsecond, List.append_assoc, List.append_assoc]
    exact List.perm_append_comm.append_left _
  modifiers := by
    intro id node hnode hredirect hmodifier i hi
    obtain ⟨x, hx⟩ := Option.ne_none_iff_exists'.1 hredirect
    have hbase := hb.base
    rcases Nat.lt_or_ge id t.size with hold | hnew
    · exact exchange_of_lt (Nat.lt_of_le_of_lt hi hold)
    · have hroot : id ≠ root := Nat.ne_of_gt (Nat.lt_of_lt_of_le t.hasRoot hnew)
      rcases Nat.lt_or_ge id ta.size with hfirst | hlater
      · rw [hb.kept' id hroot hfirst] at hnode
        exact absurd (ha.redirects id node x hnew hnode hx).2.2 hmodifier
      · obtain ⟨j, rfl⟩ : ∃ j, id = j + na := ⟨id - na, by omega⟩
        have hle : t.size ≤ j := by omega
        rw [hb.nodes j hle] at hnode
        obtain ⟨old, hold, rfl⟩ := Option.map_eq_some_iff.1 hnode
        obtain ⟨y, hy⟩ := Option.ne_none_iff_exists'.1 (by simpa using hredirect)
        exact absurd (hb.redirects j old y hle hold hy).2.2 hmodifier

end

end Tree
end Dispatch
