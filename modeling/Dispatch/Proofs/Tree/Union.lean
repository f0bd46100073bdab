import Dispatch.Proofs.Tree.Again
import Mathlib.Data.List.Induction
/-!
# Adding a sprout is a union

A sprout that is added leads to a union of two trees: its parts, which are found by the names
on the way to them, are joined with the nodes to which the same names lead, and the rest of
them becomes new nodes (`Tree.IsUnion`). Nodes that were there keep their numbers, and new
ones are numbered as they come in the sprout, each part before the parts below it. So it is if
no two siblings in the sprout share a name (`isUnion_addChild`).

Sprouts are grafted one after the other. That the union with several of them is a union with
one and then with the others (`IsUnion.append`) takes that a node has one parent: the nodes
below children of different names are different ones.
-/
namespace Dispatch
variable {S E M : Type}

namespace Sprout

mutual

/-- The parts of a sprout, each before those below it, with the names on the way there. -/
def parts : Sprout S E M → List (List String × Sprout S E M)
  | ⟨label, children, executor, requirement, redirect, modifier, forks⟩ =>
    ([label.name], ⟨label, children, executor, requirement, redirect, modifier, forks⟩) ::
      (partsAll children).map fun part => (label.name :: part.1, part.2)

/-- The parts of several sprouts. -/
def partsAll : List (Sprout S E M) → List (List String × Sprout S E M)
  | [] => []
  | b :: rest => b.parts ++ partsAll rest

end

theorem parts_eq (b : Sprout S E M) :
    b.parts = ([b.name], b) ::
      (partsAll b.children).map fun part => (b.name :: part.1, part.2) := by
  obtain ⟨label, children, executor, requirement, redirect, modifier, forks⟩ := b
  rw [parts]
  rfl

theorem partsAll_singleton (b : Sprout S E M) : partsAll [b] = b.parts := by
  rw [partsAll, partsAll, List.append_nil]

theorem partsAll_append (bs cs : List (Sprout S E M)) :
    partsAll (bs ++ cs) = partsAll bs ++ partsAll cs := by
  induction bs with
  | nil => rw [List.nil_append, partsAll, List.nil_append]
  | cons b rest ih => rw [List.cons_append, partsAll, partsAll, ih, List.append_assoc]

/-- The way to a part starts with the name of one of the sprouts. -/
theorem exists_of_mem_partsAll {bs : List (Sprout S E M)} {path : List String} {s : Sprout S E M}
    (h : (path, s) ∈ partsAll bs) : ∃ first ∈ bs.map name, ∃ rest, path = first :: rest := by
  induction bs with
  | nil => simp [partsAll] at h
  | cons b rest ih =>
    rw [partsAll, List.mem_append] at h
    rcases h with h | h
    · rw [parts_eq, List.mem_cons, List.mem_map] at h
      rcases h with h | ⟨part, -, h⟩
      · exact ⟨b.name, by simp, [], (Prod.mk.inj h).1⟩
      · exact ⟨b.name, by simp, part.1, (Prod.mk.inj h).1.symm⟩
    · obtain ⟨first, hfirst, tail, htail⟩ := ih h
      exact ⟨first, List.mem_cons_of_mem _ hfirst, tail, htail⟩

/-- A part of a sprout is the sprout or a part of one of its children. -/
theorem mem_partsAll_singleton {b s : Sprout S E M} {path : List String} :
    (path, s) ∈ partsAll [b] ↔ path = [b.name] ∧ s = b ∨
      ∃ rest, path = b.name :: rest ∧ (rest, s) ∈ partsAll b.children := by
  rw [partsAll_singleton, parts_eq, List.mem_cons, List.mem_map, Prod.mk.injEq]
  constructor
  · rintro (h | ⟨⟨rest, s⟩, hmem, h⟩)
    · exact .inl h
    · obtain ⟨rfl, rfl⟩ := Prod.mk.inj h
      exact .inr ⟨rest, rfl, hmem⟩
  · rintro (h | ⟨rest, rfl, hmem⟩)
    · exact .inl h
    · exact .inr ⟨(rest, s), hmem, rfl⟩

/-- What a part makes of a node at which it is: an executor and a redirect of its own take the
place of those of the node. -/
structure Merges (s : Sprout S E M) (old new : Node S E M) : Prop where
  label : new.label = old.label
  requirement : new.requirement = old.requirement
  executor : new.executor = if s.executor.isSome then s.executor else old.executor
  forward : (new.redirect, new.modifier, new.forks) =
    if s.redirect.isSome then (s.redirect, s.modifier, s.forks)
    else (old.redirect, old.modifier, old.forks)

/-- What a part becomes where no node was. -/
structure Becomes (s : Sprout S E M) (new : Node S E M) : Prop where
  label : new.label = some s.label
  requirement : new.requirement = s.requirement
  executor : new.executor = s.executor
  forward : (new.redirect, new.modifier, new.forks) = (s.redirect, s.modifier, s.forks)

theorem merges_mergeInto (s : Sprout S E M) (old : Node S E M) (children : List Nat) :
    s.Merges old ((s.mergeInto old).withChildren children) := by
  cases hexecutor : s.executor <;> cases hredirect : s.redirect <;>
    constructor <;> simp [mergeInto, Node.withChildren, hexecutor, hredirect]

theorem becomes_toNode (s : Sprout S E M) (children : List Nat) :
    s.Becomes (s.toNode.withChildren children) := ⟨rfl, rfl, rfl, rfl⟩

end Sprout

namespace Tree
variable {t t' t'' : Tree S E M} {parent id i j : Nat} {name : String} {path : List String}
  {b s : Sprout S E M} {bs cs : List (Sprout S E M)}

/-! ## Ways down by names -/

/-- The node to which some names lead from a node. -/
def below? (t : Tree S E M) (id : Nat) (path : List String) : Option Nat :=
  path.foldlM t.findChild? id

theorem below?_cons (t : Tree S E M) (id : Nat) (name : String) (path : List String) :
    t.below? id (name :: path) = (t.findChild? id name).bind (t.below? · path) := rfl

theorem below?_cons_eq {x : Nat} (h : t.findChild? id name = some x) (path : List String) :
    t.below? id (name :: path) = t.below? x path := by
  rw [below?_cons, h, Option.bind_some]

theorem below?_cons_eq_none (h : t.findChild? id name = none) (path : List String) :
    t.below? id (name :: path) = none := by
  rw [below?_cons, h, Option.bind_none]

theorem below?_concat (t : Tree S E M) (id : Nat) (path : List String) (name : String) :
    t.below? id (path ++ [name]) = (t.below? id path).bind (t.findChild? · name) := by
  rw [below?, below?, List.foldlM_append, Option.bind_eq_bind]
  congr 1
  funext j
  simp

theorem below?_singleton (t : Tree S E M) (id : Nat) (name : String) :
    t.below? id [name] = t.findChild? id name := by
  rw [below?_cons]
  cases t.findChild? id name <;> rfl

theorem le_of_below? (h : t.below? id path = some j) :
    id ≤ j ∧ (id < t.size → j < t.size) := by
  induction path generalizing id with
  | nil => exact Option.some.inj h ▸ ⟨Nat.le_refl id, fun hid => hid⟩
  | cons name rest ih =>
    rw [below?_cons] at h
    obtain ⟨c, hc, hrest⟩ := Option.bind_eq_some_iff.1 h
    have hlt := lt_of_mem_childIds (findChild?_eq_some hc).1
    obtain ⟨hle, hsize⟩ := ih hrest
    exact ⟨Nat.le_trans (Nat.le_of_lt hlt.1) hle, fun _ => hsize hlt.2⟩

/-- A way that is not empty leads to a later node. -/
theorem lt_of_below? (h : t.below? id (name :: path) = some j) : id < j ∧ j < t.size := by
  rw [below?_cons] at h
  obtain ⟨c, hc, hrest⟩ := Option.bind_eq_some_iff.1 h
  have hlt := lt_of_mem_childIds (findChild?_eq_some hc).1
  obtain ⟨hle, hsize⟩ := le_of_below? hrest
  exact ⟨Nat.lt_of_lt_of_le hlt.1 hle, hsize hlt.2⟩

/-- Different ways lead to different nodes, since a node has one parent. -/
theorem UniqueParents.eq_of_below? (unique : t.UniqueParents) {path' : List String}
    (h : t.below? id path = some j) (h' : t.below? id path' = some j) : path = path' := by
  induction path using List.reverseRecOn generalizing j path' with
  | nil =>
    obtain rfl := Option.some.inj h
    cases path' with
    | nil => rfl
    | cons name rest => exact absurd (lt_of_below? h').1 (Nat.lt_irrefl _)
  | append_singleton q name ih =>
    rw [below?_concat] at h
    obtain ⟨p, hp, hname⟩ := Option.bind_eq_some_iff.1 h
    obtain ⟨hchild, node, hnode, rfl⟩ := findChild?_eq_some hname
    have hlt := (lt_of_mem_childIds hchild).1
    induction path' using List.reverseRecOn with
    | nil =>
      obtain rfl := Option.some.inj h'
      exact absurd (le_of_below? hp).1 (Nat.not_le.2 hlt)
    | append_singleton q' name' _ =>
      rw [below?_concat] at h'
      obtain ⟨p', hp', hname'⟩ := Option.bind_eq_some_iff.1 h'
      obtain ⟨hchild', node', hnode', rfl⟩ := findChild?_eq_some hname'
      obtain rfl : node = node' := Option.some.inj (hnode.symm.trans hnode')
      obtain rfl := unique p p' j hchild hchild'
      rw [ih hp hp']

namespace Extends

theorem nameOf_eq (h : t'.Extends t) (hid : id < t.size) : t'.nameOf id = t.nameOf id := by
  obtain ⟨node, hnode⟩ := exists_node? hid
  obtain ⟨node', hnode', hlabel, -⟩ := h.nodes id node hnode
  simp [nameOf, hnode, hnode', Node.name, hlabel]

theorem map_nameOf_eq (h : t'.Extends t) {ids : List Nat} (hids : ∀ c ∈ ids, c < t.size) :
    ids.map t'.nameOf = ids.map t.nameOf :=
  List.map_congr_left fun c hc => h.nameOf_eq (hids c hc)

/-- Where no child was added, the same names lead on. -/
theorem findChild?_eq (h : t'.Extends t) (same : t'.childIds id = t.childIds id) (name : String) :
    t'.findChild? id name = t.findChild? id name := by
  obtain ⟨x, hx, hx'⟩ | ⟨hnone, hnew⟩ := h.findChild? id name
  · rw [hx, hx']
  · rw [hnone, Option.eq_none_iff_forall_ne_some]
    intro x hx
    have hmem := (Tree.findChild?_eq_some hx).1
    rw [same] at hmem
    exact absurd (hnew x hx) (Nat.not_le.2 (lt_of_mem_childIds hmem).2)

theorem below?_eq_some (h : t'.Extends t) (hpath : t.below? id path = some j) :
    t'.below? id path = some j := by
  induction path generalizing id with
  | nil => exact hpath
  | cons name rest ih =>
    rw [below?_cons] at hpath ⊢
    obtain ⟨c, hc, hrest⟩ := Option.bind_eq_some_iff.1 hpath
    rw [h.findChild?_eq_some hc]
    exact ih hrest

end Extends

/-! ## The union -/

/-- The ways to parts of sprouts under a node where there is no node yet. -/
def newPaths (t : Tree S E M) (parent : Nat) (bs : List (Sprout S E M)) : List (List String) :=
  ((Sprout.partsAll bs).map (·.1)).filter fun path => (t.below? parent path).isNone

/-- The names of sprouts that no child of a node has. -/
def newNames (t : Tree S E M) (id : Nat) (bs : List (Sprout S E M)) : List String :=
  (bs.map Sprout.name).filter fun name => (t.findChild? id name).isNone

/-- The node is the one to which the way to some part leads. -/
def HasPartAt (t : Tree S E M) (parent : Nat) (bs : List (Sprout S E M)) (id : Nat) : Prop :=
  ∃ path s, (path, s) ∈ Sprout.partsAll bs ∧ t.below? parent path = some id

/-- The second tree is the union of the first one and of sprouts under a node of it. -/
structure IsUnion (t : Tree S E M) (parent : Nat) (bs : List (Sprout S E M)) (t' : Tree S E M) :
    Prop where
  size_eq : t'.size = t.size + (t.newPaths parent bs).length
  /-- New nodes are numbered as their parts come. -/
  numbered : ∀ k path, (t.newPaths parent bs)[k]? = some path →
    t'.below? parent path = some (t.size + k)
  /-- Where there was a node, the part is merged into it. -/
  kept : ∀ path s id node, (path, s) ∈ Sprout.partsAll bs → t.below? parent path = some id →
    t.node? id = some node → ∃ node' more, t'.below? parent path = some id ∧
      t'.node? id = some node' ∧ s.Merges node node' ∧
      node'.children = node.children ++ more ∧ more.map t'.nameOf = t.newNames id s.children
  /-- Where there was none, the part has become one. -/
  added : ∀ path s, (path, s) ∈ Sprout.partsAll bs → t.below? parent path = none →
    ∃ id node', t'.below? parent path = some id ∧ t'.node? id = some node' ∧ s.Becomes node' ∧
      node'.children.map t'.nameOf = s.children.map Sprout.name
  /-- The node above gets children for the sprouts. -/
  above : ∀ node, t.node? parent = some node → ∃ more,
    t'.node? parent = some (node.withChildren (node.children ++ more)) ∧
      more.map t'.nameOf = t.newNames parent bs
  others : ∀ id, id < t.size → id ≠ parent → ¬t.HasPartAt parent bs id → t'.node? id = t.node? id

theorem newPaths_append (t : Tree S E M) (parent : Nat) (bs cs : List (Sprout S E M)) :
    t.newPaths parent (bs ++ cs) = t.newPaths parent bs ++ t.newPaths parent cs := by
  rw [newPaths, Sprout.partsAll_append, List.map_append, List.filter_append, newPaths, newPaths]

theorem newNames_append (t : Tree S E M) (id : Nat) (bs cs : List (Sprout S E M)) :
    t.newNames id (bs ++ cs) = t.newNames id bs ++ t.newNames id cs := by
  rw [newNames, List.map_append, List.filter_append, newNames, newNames]

/-- Nodes to which ways with different first names lead are different. -/
theorem UniqueParents.not_hasPartAt (unique : t.UniqueParents)
    (h : t.below? parent (name :: path) = some id) (hname : name ∉ bs.map Sprout.name) :
    ¬t.HasPartAt parent bs id := by
  rintro ⟨path', s, hpart, hbelow⟩
  obtain ⟨first, hfirst, rest, rfl⟩ := Sprout.exists_of_mem_partsAll hpart
  have heq := unique.eq_of_below? h hbelow
  exact hname ((List.cons.inj heq).1 ▸ hfirst)

namespace IsUnion

/-- Nothing is done to a node to which a way leads that starts with the name of none of the
sprouts. -/
theorem node?_eq (h : t.IsUnion parent bs t') (unique : t.UniqueParents)
    (hid : t.below? parent (name :: path) = some id) (hname : name ∉ bs.map Sprout.name) :
    t'.node? id = t.node? id := by
  obtain ⟨hparent, hsize⟩ := lt_of_below? hid
  exact h.others id hsize (Nat.ne_of_gt hparent) (unique.not_hasPartAt hid hname)

/-- The node above gets a child of a name from a sprout of this name only. -/
theorem findChild?_eq (h : t.IsUnion parent bs t') (hextends : t'.Extends t)
    (hlt : parent < t.size) (hname : name ∉ bs.map Sprout.name) :
    t'.findChild? parent name = t.findChild? parent name := by
  obtain ⟨node, hnode⟩ := exists_node? hlt
  obtain ⟨more, hnode', hmore⟩ := h.above node hnode
  obtain ⟨x, hx, hx'⟩ | ⟨hnone, hnew⟩ := hextends.findChild? parent name
  · rw [hx, hx']
  · rw [hnone, Option.eq_none_iff_forall_ne_some]
    intro x hx
    obtain ⟨hmem, found, hfound, hfoundName⟩ := findChild?_eq_some hx
    rw [childIds_eq hnode', Node.withChildren_children, List.mem_append] at hmem
    rcases hmem with hold | hadded
    · exact absurd (hnew x hx) (Nat.not_le.2 (child_order hnode hold).2)
    · have hnames : t'.nameOf x ∈ t.newNames parent bs := hmore ▸ List.mem_map_of_mem hadded
      rw [nameOf, hfound, Option.elim_some, hfoundName] at hnames
      exact hname (List.mem_of_mem_filter hnames)

/-- Ways that start with the name of none of the sprouts lead where they did. -/
theorem below?_eq (h : t.IsUnion parent bs t') (hextends : t'.Extends t) (unique : t.UniqueParents)
    (hlt : parent < t.size) (hname : name ∉ bs.map Sprout.name) (path : List String) :
    t'.below? parent (name :: path) = t.below? parent (name :: path) := by
  induction path using List.reverseRecOn with
  | nil =>
    rw [below?_singleton, below?_singleton]
    exact h.findChild?_eq hextends hlt hname
  | append_singleton q last ih =>
    rw [← List.cons_append, below?_concat, below?_concat, ih]
    cases hq : t.below? parent (name :: q) with
    | none => rfl
    | some j =>
      have hsame := h.node?_eq unique hq hname
      exact hextends.findChild?_eq (by rw [childIds, hsame, childIds]) last

/-- A part of a sprout of another name is merged as if the sprouts before it had not been
added. -/
theorem kept_of_disjoint (h : t.IsUnion parent bs t') (hextends : t'.Extends t)
    (unique : t.UniqueParents) (disjoint : ∀ name ∈ cs.map Sprout.name, name ∉ bs.map Sprout.name)
    (h' : t'.IsUnion parent cs t'') {node : Node S E M} (hpart : (path, s) ∈ Sprout.partsAll cs)
    (hid : t.below? parent path = some id) (hnode : t.node? id = some node) :
    ∃ node' more, t''.below? parent path = some id ∧
      t''.node? id = some node' ∧ s.Merges node node' ∧
      node'.children = node.children ++ more ∧ more.map t''.nameOf = t.newNames id s.children := by
  obtain ⟨first, hfirst, rest, rfl⟩ := Sprout.exists_of_mem_partsAll hpart
  have hsame := h.node?_eq unique hid (disjoint first hfirst)
  obtain ⟨node', more, hid', hnode', hmerges, hchildren, hmore⟩ :=
    h'.kept _ s id node hpart (hextends.below?_eq_some hid) (hsame.trans hnode)
  refine ⟨node', more, hid', hnode', hmerges, hchildren, hmore.trans ?_⟩
  refine List.filter_congr fun name _ => ?_
  rw [hextends.findChild?_eq (by rw [childIds, hsame, childIds])]

section Disjoint
variable (h : t.IsUnion parent bs t') (hextends : t'.Extends t) (unique : t.UniqueParents)
  (hlt : parent < t.size) (disjoint : ∀ name ∈ cs.map Sprout.name, name ∉ bs.map Sprout.name)
include h hextends unique hlt disjoint

/-- The ways to the parts of sprouts of other names lead where they did. -/
theorem below?_part_eq (hpart : (path, s) ∈ Sprout.partsAll cs) :
    t'.below? parent path = t.below? parent path := by
  obtain ⟨first, hfirst, rest, rfl⟩ := Sprout.exists_of_mem_partsAll hpart
  exact h.below?_eq hextends unique hlt (disjoint first hfirst) rest

theorem newPaths_eq : t'.newPaths parent cs = t.newPaths parent cs := by
  refine List.filter_congr fun path hpath => ?_
  obtain ⟨⟨_, s⟩, hpart, rfl⟩ := List.mem_map.1 hpath
  rw [h.below?_part_eq hextends unique hlt disjoint hpart]

end Disjoint

/-- The union with some sprouts and then with others of different names is one with all of
them. -/
theorem append (h : t.IsUnion parent bs t') (h' : t'.IsUnion parent cs t'')
    (hextends : t'.Extends t) (hextends' : t''.Extends t') (unique : t.UniqueParents)
    (unique' : t'.UniqueParents) (hlt : parent < t.size)
    (disjoint : ∀ name ∈ cs.map Sprout.name, name ∉ bs.map Sprout.name) :
    t.IsUnion parent (bs ++ cs) t'' := by
  have hbelow : ∀ path s, (path, s) ∈ Sprout.partsAll cs →
      t'.below? parent path = t.below? parent path :=
    fun _ _ hpart => h.below?_part_eq hextends unique hlt disjoint hpart
  -- Nothing is done later to the nodes at earlier parts.
  have hapart : ∀ path s id, (path, s) ∈ Sprout.partsAll bs → t'.below? parent path = some id →
      t''.node? id = t'.node? id := by
    intro path s id hpart hid
    obtain ⟨first, hfirst, rest, rfl⟩ := Sprout.exists_of_mem_partsAll hpart
    exact h'.node?_eq unique' hid fun hmem => disjoint first hmem hfirst
  have hpaths := h.newPaths_eq hextends unique hlt disjoint
  have hnames : t'.newNames parent cs = t.newNames parent cs := by
    refine List.filter_congr fun name hname => ?_
    rw [h.findChild?_eq hextends hlt (disjoint name hname)]
  constructor
  case size_eq =>
    rw [h'.size_eq, h.size_eq, hpaths, newPaths_append, List.length_append, Nat.add_assoc]
  case numbered =>
    intro k path hk
    rw [newPaths_append] at hk
    rcases Nat.lt_or_ge k (t.newPaths parent bs).length with hless | hge
    · rw [List.getElem?_append_left hless] at hk
      exact hextends'.below?_eq_some (h.numbered k path hk)
    · rw [List.getElem?_append_right hge, ← hpaths] at hk
      rw [h'.numbered _ path hk, h.size_eq]
      congr 1
      omega
  case kept =>
    intro path s id node hpart hid hnode
    rw [Sprout.partsAll_append, List.mem_append] at hpart
    rcases hpart with hpart | hpart
    · obtain ⟨node', more, hid', hnode', hmerges, hchildren, hmore⟩ :=
        h.kept path s id node hpart hid hnode
      have hsame := hapart path s id hpart hid'
      have hmem : ∀ c ∈ more, c ∈ node'.children := fun c hc => by simp [hchildren, hc]
      refine ⟨node', more, hextends'.below?_eq_some hid', hsame.trans hnode', hmerges, hchildren,
        ?_⟩
      rw [hextends'.map_nameOf_eq fun c hc => (child_order hnode' (hmem c hc)).2, hmore]
    · exact h.kept_of_disjoint hextends unique disjoint h' hpart hid hnode
  case added =>
    intro path s hpart hnone
    rw [Sprout.partsAll_append, List.mem_append] at hpart
    rcases hpart with hpart | hpart
    · obtain ⟨id, node', hid, hnode', hbecomes, hchildren⟩ := h.added path s hpart hnone
      have hsame := hapart path s id hpart hid
      refine ⟨id, node', hextends'.below?_eq_some hid, hsame.trans hnode', hbecomes, ?_⟩
      rw [hextends'.map_nameOf_eq fun c hc => (child_order hnode' hc).2, hchildren]
    · exact h'.added path s hpart ((hbelow path s hpart).trans hnone)
  case above =>
    intro node hnode
    obtain ⟨more, hnode', hmore⟩ := h.above node hnode
    obtain ⟨more', hnode'', hmore'⟩ := h'.above _ hnode'
    refine ⟨more ++ more', ?_, ?_⟩
    · rw [hnode'', ← List.append_assoc]
      rfl
    · rw [List.map_append, hmore', hnames, newNames_append, ← hmore,
        hextends'.map_nameOf_eq fun c hc => (child_order hnode' (by simp [hc])).2]
  case others =>
    intro id hsize hparent hpart
    have hfirst : ¬t.HasPartAt parent bs id := by
      rintro ⟨path, s, hmem, hid⟩
      exact hpart ⟨path, s, by simp [Sprout.partsAll_append, hmem], hid⟩
    have hrest : ¬t'.HasPartAt parent cs id := by
      rintro ⟨path, s, hmem, hid⟩
      exact hpart ⟨path, s, by simp [Sprout.partsAll_append, hmem], hbelow path s hmem ▸ hid⟩
    rw [h'.others id (Nat.lt_of_lt_of_le hsize hextends.size_le) hparent hrest,
      h.others id hsize hparent hfirst]

end IsUnion

/-! ## One sprout -/

theorem newPaths_singleton (t : Tree S E M) (parent : Nat) (b : Sprout S E M) :
    t.newPaths parent [b] = (if t.findChild? parent b.name = none then [[b.name]] else []) ++
      (((Sprout.partsAll b.children).map (·.1)).filter fun path =>
        (t.below? parent (b.name :: path)).isNone).map (b.name :: ·) := by
  rw [newPaths, Sprout.partsAll_singleton, Sprout.parts_eq, List.map_cons, List.map_map,
    List.filter_cons, below?_singleton]
  have hmap : List.map (Prod.fst ∘ fun part : List String × Sprout S E M =>
      (b.name :: part.1, part.2)) (Sprout.partsAll b.children) =
        ((Sprout.partsAll b.children).map (·.1)).map (b.name :: ·) := by
    rw [List.map_map]
    rfl
  rw [hmap, List.filter_map]
  cases t.findChild? parent b.name <;> rfl

/-- Where the sprout is a child already, its new parts are those of its children below it. -/
theorem newPaths_of_findChild? {x : Nat} (hx : t.findChild? parent b.name = some x) :
    t.newPaths parent [b] = (t.newPaths x b.children).map (b.name :: ·) := by
  rw [newPaths_singleton, hx, if_neg (by simp), List.nil_append, newPaths]
  simp only [below?_cons_eq hx]

/-- Where it is not, all of its parts are new. -/
theorem newPaths_of_findChild?_eq_none (hnone : t.findChild? parent b.name = none) :
    t.newPaths parent [b] =
      [b.name] :: ((Sprout.partsAll b.children).map (·.1)).map (b.name :: ·) := by
  rw [newPaths_singleton, if_pos hnone, List.singleton_append,
    List.filter_eq_self.2 fun path _ => by rw [below?_cons_eq_none hnone, Option.isNone_none]]

/-! Merging the fields of a sprout into a node changes no names and no ways. -/

theorem findChild?_update_mergeInto (t : Tree S E M) (x : Nat) (b : Sprout S E M) :
    (t.update x b.mergeInto).findChild? = t.findChild? := by
  funext id name
  exact (Extends.update_mergeInto t x b).findChild?_eq (childIds_update t x id b.mergeInto) name

theorem below?_update_mergeInto (t : Tree S E M) (x : Nat) (b : Sprout S E M) :
    (t.update x b.mergeInto).below? = t.below? := by
  funext id path
  rw [below?, below?, findChild?_update_mergeInto]

theorem newNames_update_mergeInto (t : Tree S E M) (x : Nat) (b : Sprout S E M) (id : Nat)
    (bs : List (Sprout S E M)) : (t.update x b.mergeInto).newNames id bs = t.newNames id bs := by
  rw [newNames, newNames, findChild?_update_mergeInto]

theorem newPaths_update_mergeInto (t : Tree S E M) (x : Nat) (b : Sprout S E M) (id : Nat)
    (bs : List (Sprout S E M)) : (t.update x b.mergeInto).newPaths id bs = t.newPaths id bs := by
  rw [newPaths, newPaths, below?_update_mergeInto]

/-- A sprout of the name of a child is merged into it, and its own children into what is
below. -/
theorem IsUnion.of_update {x : Nat} (hx : t.findChild? parent b.name = some x)
    (h : (t.update x b.mergeInto).IsUnion x b.children t')
    (hextends : t'.Extends (t.update x b.mergeInto)) : t.IsUnion parent [b] t' := by
  obtain ⟨hchild, old, hold, -⟩ := findChild?_eq_some hx
  obtain ⟨hparent, hxlt⟩ := lt_of_mem_childIds hchild
  have hbelow := t.below?_update_mergeInto x b
  have hnames := t.newNames_update_mergeInto x b
  have hsame : ∀ id, id ≠ x → (t.update x b.mergeInto).node? id = t.node? id := by
    intro id hne
    rw [node?_update, if_neg hne]
  have hpaths : t.newPaths parent [b] =
      ((t.update x b.mergeInto).newPaths x b.children).map (b.name :: ·) := by
    rw [newPaths_of_findChild? hx, newPaths_update_mergeInto]
  have hdown := below?_cons_eq hx
  have hfound : t'.findChild? parent b.name = some x :=
    hextends.findChild?_eq_some (findChild?_update_mergeInto t x b ▸ hx)
  have hdown' := below?_cons_eq hfound
  constructor
  case size_eq => rw [h.size_eq, size_update, hpaths, List.length_map]
  case numbered =>
    intro k path hk
    rw [hpaths, List.getElem?_map] at hk
    obtain ⟨rest, hrest, rfl⟩ := Option.map_eq_some_iff.1 hk
    rw [hdown', h.numbered k rest hrest, size_update]
  case kept =>
    intro path s id node hpart hid hnode
    obtain ⟨rfl, rfl⟩ | ⟨rest, rfl, hmem⟩ := Sprout.mem_partsAll_singleton.1 hpart
    · rw [below?_singleton, hx] at hid
      obtain rfl := Option.some.inj hid
      have hmerged : (t.update x s.mergeInto).node? x =
          some ((s.mergeInto node).withChildren node.children) := by
        rw [node?_update, if_pos rfl, hnode, Option.map_some]
      obtain ⟨more, hnode', hmore⟩ := h.above _ hmerged
      exact ⟨_, more, (below?_singleton ..).trans hfound, hnode', s.merges_mergeInto node _, rfl,
        hmore.trans (hnames x s.children)⟩
    · rw [hdown, ← hbelow] at hid
      obtain ⟨first, -, tail, rfl⟩ := Sprout.exists_of_mem_partsAll hmem
      have hne := Nat.ne_of_gt (lt_of_below? hid).1
      obtain ⟨node', more, hid', hnode', hmerges, hchildren, hmore⟩ :=
        h.kept _ s id node hmem hid ((hsame id hne).trans hnode)
      exact ⟨node', more, (hdown' _).trans hid', hnode', hmerges, hchildren,
        hmore.trans (hnames id s.children)⟩
  case added =>
    intro path s hpart hnone
    obtain ⟨rfl, rfl⟩ | ⟨rest, rfl, hmem⟩ := Sprout.mem_partsAll_singleton.1 hpart
    · rw [below?_singleton, hx] at hnone
      simp at hnone
    · rw [hdown, ← hbelow] at hnone
      rw [hdown']
      exact h.added rest s hmem hnone
  case above =>
    intro node hnode
    have hapart : ¬(t.update x b.mergeInto).HasPartAt x b.children parent := by
      rintro ⟨path, s, -, hpath⟩
      exact absurd (le_of_below? hpath).1 (Nat.not_le.2 hparent)
    have hlt : parent < (t.update x b.mergeInto).size := by
      rw [size_update]
      exact Nat.lt_trans hparent hxlt
    have hkept := h.others parent hlt (Nat.ne_of_lt hparent) hapart
    refine ⟨[], ?_, ?_⟩
    · rw [hkept, hsame parent (Nat.ne_of_lt hparent), hnode, List.append_nil]
      rfl
    · simp [newNames, hx]
  case others =>
    intro id hsize hne hpart
    have hidx : id ≠ x := by
      rintro rfl
      exact hpart ⟨[b.name], b, Sprout.mem_partsAll_singleton.2 (.inl ⟨rfl, rfl⟩),
        (below?_singleton ..).trans hx⟩
    have hapart : ¬(t.update x b.mergeInto).HasPartAt x b.children id := by
      rintro ⟨path, s, hmem, hid⟩
      rw [hbelow, ← hdown] at hid
      exact hpart ⟨_, s, Sprout.mem_partsAll_singleton.2 (.inr ⟨path, rfl, hmem⟩), hid⟩
    rw [h.others id (by rwa [size_update]) hidx hapart, hsame id hidx]

/-! Below a node that was just added there is nothing yet. -/

theorem findChild?_addNode_size (t : Tree S E M) (parent : Nat) (node : Node S E M)
    (name : String) : (t.addNode parent node).findChild? t.size name = none := by
  have hnew : (t.addNode parent node).node? t.size = some (node.withChildren []) := by
    rw [node?_addNode, if_pos rfl]
  rw [findChild?, childIds_eq hnew]
  rfl

theorem below?_addNode_size (t : Tree S E M) (parent : Nat) (node : Node S E M)
    (hpart : (path, s) ∈ Sprout.partsAll bs) :
    (t.addNode parent node).below? t.size path = none := by
  obtain ⟨first, -, rest, rfl⟩ := Sprout.exists_of_mem_partsAll hpart
  exact below?_cons_eq_none (t.findChild?_addNode_size parent node first) rest

theorem newPaths_addNode_size (t : Tree S E M) (parent : Nat) (node : Node S E M)
    (bs : List (Sprout S E M)) :
    (t.addNode parent node).newPaths t.size bs = (Sprout.partsAll bs).map (·.1) := by
  refine List.filter_eq_self.2 fun path hpath => ?_
  obtain ⟨⟨_, s⟩, hpart, rfl⟩ := List.mem_map.1 hpath
  rw [t.below?_addNode_size parent node hpart, Option.isNone_none]

theorem newNames_addNode_size (t : Tree S E M) (parent : Nat) (node : Node S E M)
    (bs : List (Sprout S E M)) :
    (t.addNode parent node).newNames t.size bs = bs.map Sprout.name := by
  simp [newNames, findChild?_addNode_size]

theorem not_hasPartAt_addNode_size (t : Tree S E M) (parent : Nat) (node : Node S E M)
    (bs : List (Sprout S E M)) (id : Nat) :
    ¬(t.addNode parent node).HasPartAt t.size bs id := by
  rintro ⟨path, s, hpart, hid⟩
  simp [t.below?_addNode_size parent node hpart] at hid

/-- A sprout of another name becomes a new child, and so do its own children below it. -/
theorem IsUnion.of_addNode (hnone : t.findChild? parent b.name = none) (hlt : parent < t.size)
    (h : (t.addNode parent b.toNode).IsUnion t.size b.children t')
    (hextends : t'.Extends (t.addNode parent b.toNode)) : t.IsUnion parent [b] t' := by
  have hfound : t'.findChild? parent b.name = some t.size := by
    have hplace := findChild?_place hlt b
    rw [place, hnone] at hplace
    exact hextends.findChild?_eq_some hplace
  have hdown := below?_cons_eq_none hnone
  have hdown' := below?_cons_eq hfound
  have hpaths : t.newPaths parent [b] =
      [b.name] :: ((t.addNode parent b.toNode).newPaths t.size b.children).map (b.name :: ·) := by
    rw [newPaths_of_findChild?_eq_none hnone, newPaths_addNode_size]
  constructor
  case size_eq =>
    rw [h.size_eq, size_addNode, hpaths, List.length_cons, List.length_map]
    omega
  case numbered =>
    intro k path hk
    rw [hpaths] at hk
    cases k with
    | zero =>
      obtain rfl : [b.name] = path := by simpa using hk
      rw [below?_singleton, hfound, Nat.add_zero]
    | succ k =>
      rw [List.getElem?_cons_succ, List.getElem?_map] at hk
      obtain ⟨rest, hrest, rfl⟩ := Option.map_eq_some_iff.1 hk
      rw [hdown', h.numbered k rest hrest, size_addNode]
      congr 1
      omega
  case kept =>
    intro path s id node hpart hid
    obtain ⟨rfl, rfl⟩ | ⟨rest, rfl, -⟩ := Sprout.mem_partsAll_singleton.1 hpart
    · simp [hdown] at hid
    · simp [hdown] at hid
  case added =>
    intro path s hpart _
    obtain ⟨rfl, rfl⟩ | ⟨rest, rfl, hmem⟩ := Sprout.mem_partsAll_singleton.1 hpart
    · have hnew : (t.addNode parent s.toNode).node? t.size = some (s.toNode.withChildren []) := by
        rw [node?_addNode, if_pos rfl]
      obtain ⟨more, hnode', hmore⟩ := h.above _ hnew
      refine ⟨t.size, _, (below?_singleton ..).trans hfound, hnode', s.becomes_toNode _, ?_⟩
      rw [Node.withChildren_children, Node.withChildren_children, List.nil_append, hmore,
        newNames_addNode_size]
    · rw [hdown']
      exact h.added rest s hmem (t.below?_addNode_size parent b.toNode hmem)
  case above =>
    intro node hnode
    have hapart := t.not_hasPartAt_addNode_size parent b.toNode b.children parent
    have hkept := h.others parent (by rw [size_addNode]; omega) (Nat.ne_of_lt hlt) hapart
    refine ⟨[t.size], ?_, ?_⟩
    · rw [hkept, node?_addNode, if_neg (Nat.ne_of_lt hlt), if_pos rfl, hnode, Option.map_some]
    · have hname := (findChild?_eq_some hfound).2
      obtain ⟨child, hchild, hname⟩ := hname
      simp [newNames, hnone, nameOf, hchild, hname]
  case others =>
    intro id hsize hne _
    have hapart := t.not_hasPartAt_addNode_size parent b.toNode b.children id
    rw [h.others id (by rw [size_addNode]; omega) (Nat.ne_of_lt hsize) hapart, node?_addNode,
      if_neg (Nat.ne_of_lt hsize), if_neg hne]

/-! ## Grafting -/

theorem isUnion_nil (t : Tree S E M) (parent : Nat) : t.IsUnion parent [] t where
  size_eq := by simp [newPaths, Sprout.partsAll]
  numbered := by simp [newPaths, Sprout.partsAll]
  kept := by simp [Sprout.partsAll]
  added := by simp [Sprout.partsAll]
  above := by
    intro node hnode
    exact ⟨[], by rw [hnode, List.append_nil]; rfl, by simp [newNames]⟩
  others := fun _ _ _ _ => rfl

mutual

theorem graft_isUnion : ∀ (b : Sprout S E M) {t : Tree S E M} {parent : Nat}, t.UniqueParents →
    parent < t.size → b.Distinct → t.IsUnion parent [b] (t.graft parent b).1
  | ⟨label, children, executor, requirement, redirect, modifier, forks⟩, t, parent, unique, hlt,
      ⟨nodup, below⟩ => by
    have hlt' := (t.size_le_place parent
      ⟨label, children, executor, requirement, redirect, modifier, forks⟩).2
    have hall := graftAll_isUnion children (unique.place hlt _) hlt' nodup below
    have hextends := Extends.graftAll hlt' children
    rw [graft_eq]
    obtain ⟨x, hx, hplace⟩ | ⟨hnone, hplace⟩ := t.place_cases parent
      ⟨label, children, executor, requirement, redirect, modifier, forks⟩
    · rw [hplace] at hall hextends ⊢
      exact .of_update hx hall hextends
    · rw [hplace] at hall hextends ⊢
      exact .of_addNode hnone hlt hall hextends

theorem graftAll_isUnion : ∀ (bs : List (Sprout S E M)) {t : Tree S E M} {parent : Nat},
    t.UniqueParents → parent < t.size → (bs.map Sprout.name).Nodup → (∀ b ∈ bs, b.Distinct) →
      t.IsUnion parent bs (t.graftAll parent bs)
  | [], t, parent, _, _, _, _ => by
    rw [graftAll]
    exact isUnion_nil t parent
  | first :: rest, t, parent, unique, hlt, nodup, distinct => by
    have hextends := Extends.graft hlt first
    have hlt' := Nat.lt_of_lt_of_le hlt hextends.size_le
    have unique' := unique.graft hlt first
    obtain ⟨hfirst, hrest⟩ := List.nodup_cons.1 nodup
    have hone := graft_isUnion first unique hlt (distinct first List.mem_cons_self)
    have hall := graftAll_isUnion rest unique' hlt' hrest fun b hb =>
      distinct b (List.mem_cons_of_mem first hb)
    rw [graftAll, ← List.singleton_append]
    refine hone.append hall hextends (Extends.graftAll hlt' rest) unique unique' hlt ?_
    intro name hname hmem
    obtain rfl : name = first.name := by simpa using hmem
    exact hfirst hname

end

/-- A sprout without siblings of one name that is added to a tree makes it the union of the
two, and its number is that of the node of its name under the parent. -/
theorem isUnion_addChild (grown : t.Grown) (distinct : b.Distinct) {x : Nat}
    (h : t.addChild parent b = .ok (t', x)) :
    t'.findChild? parent b.name = some x ∧ t.IsUnion parent [b] t' := by
  obtain ⟨hlt, -, hgraft⟩ := addChild_eq_ok h
  have hfound := (graft_holds b hlt).1
  have hunion := graft_isUnion b grown.uniqueParents hlt distinct
  rw [← hgraft] at hfound hunion
  exact ⟨hfound, hunion⟩

/-- `set` with `x` and `y` below it. -/
def setting : Tree Unit Nat Unit :=
  Tree.empty.afterAll [.register ((((Sprout.literal "set").executes 1).child
    ((Sprout.literal "x").executes 2)).child (Sprout.literal "y"))]

/-- Another `set`, with something below `y` and with `z`. -/
def moreSettings : Sprout Unit Nat Unit :=
  (((Sprout.literal "set").executes 3).child
    ((Sprout.literal "y").child ((Sprout.literal "a").child (Sprout.literal "b")))).child
      ((Sprout.literal "z").executes 4)

theorem grown_setting : setting.Grown := ⟨_, rfl⟩

theorem distinct_moreSettings : moreSettings.Distinct := by
  have leaf : ∀ b : Sprout Unit Nat Unit, b.children = [] → b.Distinct := fun b hb =>
    ⟨by simp [hb], by simp [hb]⟩
  have single : ∀ b c : Sprout Unit Nat Unit, b.children = [c] → c.Distinct → b.Distinct :=
    fun b c hb hc => ⟨by simp [hb], by simpa [hb] using hc⟩
  have hy : ((Sprout.literal "y").child ((Sprout.literal "a").child
      (Sprout.literal "b")) : Sprout Unit Nat Unit).Distinct :=
    single _ _ rfl (single _ _ rfl (leaf _ rfl))
  have hz : ((Sprout.literal "z").executes 4 : Sprout Unit Nat Unit).Distinct := leaf _ rfl
  exact ⟨by decide, List.forall_mem_cons.2 ⟨hy, List.forall_mem_singleton.2 hz⟩⟩

/-- `set` and `y` are merged, and what is below `y` gets its numbers before `z` does. -/
theorem isUnion_setting : setting.Grown ∧ moreSettings.Distinct ∧
    ∃ t' : Tree Unit Nat Unit, setting.addChild root moreSettings = .ok (t', 1) ∧
      t'.findChild? root "set" = some 1 ∧ setting.IsUnion root [moreSettings] t' ∧
      setting.size = 4 ∧ setting.newPaths root [moreSettings] =
        [["set", "y", "a"], ["set", "y", "a", "b"], ["set", "z"]] ∧
      t'.below? root ["set", "z"] = some 6 ∧ (t'.childIds 1).map t'.nameOf = ["x", "y", "z"] ∧
      (t'.node? 1).bind Node.executor = some 3 := by
  have hadd : setting.addChild root moreSettings =
      .ok ((setting.graft root moreSettings).1, 1) := rfl
  obtain ⟨hfound, hunion⟩ := isUnion_addChild grown_setting distinct_moreSettings hadd
  refine ⟨grown_setting, distinct_moreSettings, _, hadd, hfound, hunion, ?_, ?_, ?_, ?_, ?_⟩
  all_goals decide +kernel

end Tree
end Dispatch
