import Dispatch.Proofs.Tree.Union
/-!
# Children of a new node

Sprouts that are grafted under a node without children become its children, one for each name.
Where sprouts share a name only if they are the same sprout, merging one of them into the
child of its name changes nothing at the child, so each child is the node of one of the
sprouts (`Bears`). The first child is that of the first sprout.
-/
namespace Dispatch
variable {S E M : Type}

namespace Sprout
variable {b : Sprout S E M}

/-- Each name is the name of one sprout. -/
def Agree (bs : List (Sprout S E M)) : Prop :=
  ∀ b ∈ bs, ∀ c ∈ bs, b.name = c.name → b = c

theorem Agree.append_left {bs cs : List (Sprout S E M)} (h : Agree (bs ++ cs)) : Agree bs :=
  fun b hb c hc => h b (List.mem_append_left _ hb) c (List.mem_append_left _ hc)

/-- Merging a sprout into its own node changes nothing. -/
theorem mergeInto_toNode (b : Sprout S E M) (children : List Nat) :
    b.mergeInto (b.toNode.withChildren children) = b.toNode.withChildren children := by
  cases hexecutor : b.executor <;> cases hredirect : b.redirect <;>
    simp [mergeInto, toNode, Node.withChildren, hexecutor, hredirect]

end Sprout

namespace Tree
variable {t t' : Tree S E M} {x y : Nat} {b : Sprout S E M} {bs cs : List (Sprout S E M)}

/-- The node of a sprout has its name. -/
theorem nameOf_eq_name {c : Nat} {children : List Nat}
    (h : t.node? c = some (b.toNode.withChildren children)) : t.nameOf c = b.name := by
  rw [nameOf, h]
  rfl

/-- A change that does not change the node leaves the tree as it is. -/
theorem update_eq_self {change : Node S E M → Node S E M} {id : Nat}
    (h : ∀ node, t.node? id = some node → (change node).withChildren node.children = node) :
    t.update id change = t := by
  have hnodes : (t.update id change).nodes = t.nodes := by
    refine Array.ext_getElem? fun i => ?_
    have hlookup := t.node?_update id i change
    rw [node?, node?] at hlookup
    rw [hlookup]
    split
    · next hi =>
      cases hnode : t.nodes[i]? with
      | none => rfl
      | some node => rw [Option.map_some, h node (hi ▸ hnode)]
    · rfl
  cases t
  cases hupdate : Tree.update _ id change
  rw [hupdate] at hnodes
  cases hnodes
  rfl

/-- The children of the node are what these sprouts become, one child for each name. -/
structure Bears (t : Tree S E M) (x : Nat) (bs : List (Sprout S E M)) : Prop where
  own : ∀ c ∈ t.childIds x, ∃ b ∈ bs, ∃ children, t.node? c = some (b.toNode.withChildren children)
  borne : ∀ b ∈ bs, b.name ∈ (t.childIds x).map t.nameOf
  distinct : ((t.childIds x).map t.nameOf).Nodup
  first : ((t.childIds x).map t.nameOf).head? = bs.head?.map Sprout.name

theorem bears_nil (bare : t.childIds x = []) : t.Bears x [] where
  own := by simp [bare]
  borne := by simp
  distinct := by simp [bare]
  first := by simp [bare]

namespace Bears

/-- Children of one name are the same. -/
theorem eq_of_nameOf_eq (h : t.Bears x bs) {c : Nat} (hc : c ∈ t.childIds x)
    (hy : y ∈ t.childIds x) (hname : t.nameOf c = t.nameOf y) : c = y :=
  List.inj_on_of_nodup_map h.distinct hc hy hname

/-- Each of the sprouts has its child. -/
theorem exists_child (h : t.Bears x bs) (agree : Sprout.Agree bs) (hb : b ∈ bs) :
    ∃ c children, t.findChild? x b.name = some c ∧
      t.node? c = some (b.toNode.withChildren children) := by
  obtain ⟨c, hc, hname⟩ := List.mem_map.1 (h.borne b hb)
  obtain ⟨d, hd, children, hnode⟩ := h.own c hc
  obtain rfl : d = b := agree d hd b hb ((nameOf_eq_name hnode).symm.trans hname)
  obtain ⟨y, hy⟩ := findChild?_isSome hc hnode
  obtain ⟨hmem, found, hfound, hsame⟩ := findChild?_eq_some hy
  have hyc : y = c := by
    refine h.eq_of_nameOf_eq hmem hc ?_
    rw [nameOf_eq_name hnode, nameOf, hfound]
    exact hsame
  exact ⟨c, children, hyc ▸ hy, hnode⟩

/-- The first child is that of the first sprout. -/
theorem exists_first (h : t.Bears x (b :: bs)) (agree : Sprout.Agree (b :: bs)) :
    ∃ c children later, t.childIds x = c :: later ∧ t.findChild? x b.name = some c ∧
      t.node? c = some (b.toNode.withChildren children) := by
  obtain ⟨c, children, hc, hnode⟩ := h.exists_child agree List.mem_cons_self
  have hmem := (findChild?_eq_some hc).1
  obtain ⟨first, later, hids⟩ := List.exists_cons_of_ne_nil (List.ne_nil_of_mem hmem)
  have hname := h.first
  rw [hids, List.map_cons, List.head?_cons, List.head?_cons, Option.map_some] at hname
  have hfirst : first = c := h.eq_of_nameOf_eq (by simp [hids]) hmem
    ((Option.some.inj hname).trans (nameOf_eq_name hnode).symm)
  exact ⟨c, children, later, hfirst ▸ hids, hc, hnode⟩

/-- Nothing but the lists of children may change. -/
theorem of_withChildren (h : t.Bears x bs) (same : t'.childIds x = t.childIds x)
    (kept : ∀ c ∈ t.childIds x, ∃ children,
      t'.node? c = (t.node? c).map (·.withChildren children)) : t'.Bears x bs := by
  have hnames : (t'.childIds x).map t'.nameOf = (t.childIds x).map t.nameOf := by
    rw [same]
    refine List.map_congr_left fun c hc => ?_
    obtain ⟨children, hkept⟩ := kept c hc
    rw [nameOf, nameOf, hkept]
    cases t.node? c <;> rfl
  refine ⟨fun c hc => ?_, hnames ▸ h.borne, hnames ▸ h.distinct, hnames ▸ h.first⟩
  rw [same] at hc
  obtain ⟨b, hb, children, hnode⟩ := h.own c hc
  obtain ⟨children', hkept⟩ := kept c hc
  exact ⟨b, hb, children', by rw [hkept, hnode]; rfl⟩

/-- A node bears its sprouts wherever its children are. -/
theorem of_node?_eq (h : t.Bears x bs)
    (same : ∀ id, x ≤ id → id < t.size → t'.node? id = t.node? id) (hlt : x < t.size) :
    t'.Bears x bs := by
  refine h.of_withChildren ?_ fun c hc => ?_
  · rw [childIds, childIds, same x (Nat.le_refl _) hlt]
  · obtain ⟨hxc, hcs⟩ := lt_of_mem_childIds hc
    obtain ⟨node, hnode⟩ := exists_node? hcs
    exact ⟨node.children, by rw [same c (Nat.le_of_lt hxc) hcs, hnode]; rfl⟩

/-- One more sprout of a name that a child has makes no difference. -/
theorem concat (h : t.Bears x bs) (hname : b.name ∈ (t.childIds x).map t.nameOf) :
    t.Bears x (bs ++ [b]) where
  own c hc := by
    obtain ⟨d, hd, hnode⟩ := h.own c hc
    exact ⟨d, List.mem_append_left _ hd, hnode⟩
  borne := by
    intro d hd
    obtain hd | hd := List.mem_append.1 hd
    · exact h.borne d hd
    · exact List.mem_singleton.1 hd ▸ hname
  distinct := h.distinct
  first := by
    rw [h.first]
    cases bs with
    | nil =>
      have hnone := h.first
      rw [List.head?_nil, Option.map_none, List.head?_eq_none_iff] at hnone
      rw [hnone] at hname
      exact absurd hname List.not_mem_nil
    | cons first rest => rfl

/-- One more sprout of a name that no child has gets a child of its own. -/
theorem addNode (h : t.Bears x bs) (hname : b.name ∉ (t.childIds x).map t.nameOf)
    (hlt : x < t.size) : (t.addNode x b.toNode).Bears x (bs ++ [b]) := by
  have hchildren : (t.addNode x b.toNode).childIds x = t.childIds x ++ [t.size] := by
    rw [childIds_addNode hlt, if_pos rfl]
  have hnew : (t.addNode x b.toNode).node? t.size = some (b.toNode.withChildren []) := by
    rw [node?_addNode, if_pos rfl]
  have hold : ∀ c ∈ t.childIds x, (t.addNode x b.toNode).node? c = t.node? c := by
    intro c hc
    obtain ⟨hxc, hcs⟩ := lt_of_mem_childIds hc
    rw [node?_addNode, if_neg (Nat.ne_of_lt hcs), if_neg (Nat.ne_of_gt hxc)]
  have hnames : ((t.addNode x b.toNode).childIds x).map (t.addNode x b.toNode).nameOf =
      (t.childIds x).map t.nameOf ++ [b.name] := by
    rw [hchildren, List.map_append, List.map_singleton, nameOf, hnew]
    refine congrArg₂ _ (List.map_congr_left fun c hc => ?_) rfl
    rw [nameOf, nameOf, hold c hc]
  refine ⟨fun c hc => ?_, fun d hd => ?_, ?_, ?_⟩
  · rw [hchildren] at hc
    obtain hc | hc := List.mem_append.1 hc
    · obtain ⟨d, hd, hnode⟩ := h.own c hc
      exact ⟨d, List.mem_append_left _ hd, by rwa [hold c hc]⟩
    · obtain rfl := List.mem_singleton.1 hc
      exact ⟨b, by simp, [], hnew⟩
  · rw [hnames]
    obtain hd | hd := List.mem_append.1 hd
    · exact List.mem_append_left _ (h.borne d hd)
    · exact List.mem_append_right _ (by rw [List.mem_singleton.1 hd]; simp)
  · rw [hnames]
    refine List.nodup_append.2 ⟨h.distinct, by simp, fun name hmem other hother => ?_⟩
    rw [List.mem_singleton.1 hother]
    rintro rfl
    exact hname hmem
  · rw [hnames, List.head?_append, List.head?_append, h.first]
    cases bs <;> rfl

theorem place (h : t.Bears x bs) (agree : Sprout.Agree (bs ++ [b])) (hlt : x < t.size) :
    (t.place x b).1.Bears x (bs ++ [b]) := by
  obtain ⟨y, hy, hplace⟩ | ⟨hnone, hplace⟩ := t.place_cases x b
  · -- The child is the node of the sprout, which is merged into it.
    obtain ⟨hmem, found, hfound, hname⟩ := findChild?_eq_some hy
    obtain ⟨d, hd, children, hnode⟩ := h.own y hmem
    obtain rfl := Option.some.inj (hfound.symm.trans hnode)
    obtain rfl : d = b := agree d (List.mem_append_left _ hd) b (by simp) hname
    have hsame : t.update y d.mergeInto = t := by
      refine update_eq_self fun node hlookup => ?_
      obtain rfl := Option.some.inj (hnode.symm.trans hlookup)
      rw [Sprout.mergeInto_toNode]
      rfl
    rw [hplace, hsame]
    exact h.concat (h.borne d hd)
  · rw [hplace]
    refine h.addNode (fun hmem => ?_) hlt
    obtain ⟨c, hc, hname⟩ := List.mem_map.1 hmem
    obtain ⟨node, hnode⟩ := exists_node? (lt_of_mem_childIds hc).2
    refine findChild?_eq_none hnone hc hnode ?_
    rw [← hname, nameOf, hnode]
    rfl

/-- What is grafted under one of the children does not matter to their node. -/
theorem graftAll_child (h : t.Bears x bs)
    (apart : ∀ i c, c ∈ t.childIds x → c ∈ t.childIds i → i = x) (hy : y ∈ t.childIds x)
    (cs : List (Sprout S E M)) : (t.graftAll y cs).Bears x bs := by
  obtain ⟨hxy, hlt⟩ := lt_of_mem_childIds hy
  refine h.of_withChildren ?_ fun c hc => ?_
  · rw [childIds, node?_graftAll_of_lt hxy hlt, ← childIds]
  · by_cases hcy : c = y
    · obtain ⟨children, hself⟩ := node?_graftAll_self hlt cs
      exact ⟨children, hcy ▸ hself⟩
    · rw [node?_graftAll_sibling apart hy cs hc hcy]
      cases hnode : t.node? c with
      | none => exact ⟨[], rfl⟩
      | some node => exact ⟨node.children, rfl⟩

/-- Grafting sprouts one after the other makes children of them. -/
theorem graftAll (h : t.Bears x bs) (agree : Sprout.Agree (bs ++ cs))
    (apart : ∀ i c, c ∈ t.childIds x → c ∈ t.childIds i → i = x) (hlt : x < t.size) :
    (t.graftAll x cs).Bears x (bs ++ cs) := by
  induction cs generalizing t bs with
  | nil =>
    rw [Tree.graftAll, List.append_nil]
    exact h
  | cons b rest ih =>
    rw [← List.singleton_append, ← List.append_assoc] at agree ⊢
    have hplace := h.place agree.append_left hlt
    obtain ⟨hsize, hid⟩ := t.size_le_place x b
    have hapart := place_apart apart hlt b
    have hchild := (findChild?_eq_some (findChild?_place hlt b)).1
    rw [List.singleton_append, Tree.graftAll, graft_eq]
    refine ih (hplace.graftAll_child hapart hchild b.children) agree ?_ ?_
    · exact graftAll_keeps (fun h hlt b => place_apart h hlt b) hapart hid b.children
    · exact Nat.lt_of_lt_of_le (Nat.lt_of_lt_of_le hlt hsize) (Extends.graftAll hid _).size_le

end Bears

/-- Under a node without children, sprouts become its children if each name is that of one of
them.
-/
theorem bears_graftAll (bare : t.childIds x = []) (agree : Sprout.Agree bs) (hlt : x < t.size) :
    (t.graftAll x bs).Bears x bs :=
  (bears_nil bare).graftAll agree (by simp [bare]) hlt

end Tree
end Dispatch
