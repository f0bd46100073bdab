import Dispatch.Proofs.Tree.Growth
import Mathlib.Data.List.Nodup
/-!
# Registering literals

Command trees grow by literals that are registered under the root. The children of the root
are then literals, each of another name (`HasLiterals`), and `HasLiterals.register` says what
one registration does: it is merged into the literal of its name, or becomes a new one, and
the other children of the root stay as they are.
-/
namespace Dispatch
variable {S E M : Type}

namespace Tree
variable {t t' : Tree S E M} {b : Sprout S E M} {x c : Nat} {name : String} {node : Node S E M}

/-- A child of the root that is a literal of that name. -/
structure RootLiteral (t : Tree S E M) (name : String) (c : Nat) (node : Node S E M) : Prop where
  child : c ∈ t.childIds root
  lookup : t.node? c = some node
  label : node.label = some (.literal name)

/-- The names of the children of the root. -/
def rootNames (t : Tree S E M) : List String := (t.childIds root).map t.nameOf

/-- The children of the root belong to it alone and are literals, each of another name. -/
structure HasLiterals (t : Tree S E M) : Prop where
  apart : t.RootApart
  literal : ∀ c ∈ t.childIds root, ∃ name node, t.RootLiteral name c node
  nodup : t.rootNames.Nodup

theorem hasLiterals_empty : (empty : Tree S E M).HasLiterals where
  apart := rootApart_empty
  literal := by simp
  nodup := by simp [rootNames]

theorem RootLiteral.name_eq (h : t.RootLiteral name c node) : node.name = name := by
  simp [Node.name, h.label, Label.name]

theorem RootLiteral.nameOf_eq (h : t.RootLiteral name c node) : t.nameOf c = name := by
  simp [nameOf, h.lookup, h.name_eq]

theorem RootLiteral.mem_rootNames (h : t.RootLiteral name c node) : name ∈ t.rootNames :=
  List.mem_map.2 ⟨c, h.child, h.nameOf_eq⟩

theorem HasLiterals.exists_of_mem (h : t.HasLiterals) (hname : name ∈ t.rootNames) :
    ∃ c node, t.RootLiteral name c node := by
  obtain ⟨c, hc, hnameOf⟩ := List.mem_map.1 hname
  obtain ⟨other, node, hliteral⟩ := h.literal c hc
  obtain rfl : other = name := hliteral.nameOf_eq.symm.trans hnameOf
  exact ⟨c, node, hliteral⟩

theorem HasLiterals.unique (h : t.HasLiterals) {c' : Nat} {node' : Node S E M}
    (hc : t.RootLiteral name c node) (hc' : t.RootLiteral name c' node') : c = c' :=
  List.inj_on_of_nodup_map h.nodup hc.child hc'.child (hc.nameOf_eq.trans hc'.nameOf_eq.symm)

theorem HasLiterals.findChild?_eq_some (h : t.HasLiterals)
    (hfind : t.findChild? root name = some c) : ∃ node, t.RootLiteral name c node := by
  obtain ⟨hmem, child, hchild, hname⟩ := Tree.findChild?_eq_some hfind
  obtain ⟨other, node, hliteral⟩ := h.literal c hmem
  obtain rfl : node = child := Option.some.inj (hliteral.lookup.symm.trans hchild)
  obtain rfl : other = name := hliteral.name_eq.symm.trans hname
  exact ⟨node, hliteral⟩

theorem HasLiterals.findChild?_of_rootLiteral (h : t.HasLiterals) (hc : t.RootLiteral name c node) :
    t.findChild? root name = some c := by
  obtain ⟨x, hx⟩ := findChild?_isSome hc.child hc.lookup
  rw [hc.name_eq] at hx
  obtain ⟨found, hfound⟩ := h.findChild?_eq_some hx
  rw [hx, h.unique hfound hc]

theorem HasLiterals.findChild?_eq_none_iff (h : t.HasLiterals) :
    t.findChild? root name = none ↔ name ∉ t.rootNames := by
  constructor
  · intro hfind hname
    obtain ⟨c, node, hliteral⟩ := h.exists_of_mem hname
    exact findChild?_eq_none hfind hliteral.child hliteral.lookup hliteral.name_eq
  · intro hname
    rw [Option.eq_none_iff_forall_ne_some]
    intro c hc
    obtain ⟨node, hliteral⟩ := h.findChild?_eq_some hc
    exact hname hliteral.mem_rootNames

/-- Nodes other than `x` that stay, and `x` if it keeps its name, keep the list of names. -/
theorem map_nameOf_eq {ids : List Nat} (others : ∀ y ∈ ids, y ≠ x → t'.node? y = t.node? y)
    (own : x ∈ ids → t'.nameOf x = t.nameOf x) : ids.map t'.nameOf = ids.map t.nameOf := by
  refine List.map_congr_left fun y hy => ?_
  by_cases hyx : y = x
  · subst hyx
    exact own hy
  · rw [nameOf, nameOf, others y hy hyx]

/-! ## One registration -/

theorem register_eq_graft
    (h : t.register b = .ok (t', x)) : b.isLiteral = true ∧ (t', x) = t.graft root b := by
  obtain ⟨hliteral, hadd⟩ := register_eq_ok h
  exact ⟨hliteral, (addChild_eq_ok hadd).2.2⟩

theorem register_cases (apart : t.RootApart) (h : t.register b = .ok (t', x)) :
    b.isLiteral = true ∧ t'.RootApart ∧
    ((t.findChild? root b.name = some x ∧ t'.childIds root = t.childIds root ∧
        ∃ node children, t.node? x = some node ∧
          t'.node? x = some ((b.mergeInto node).withChildren children)) ∨
      (t.findChild? root b.name = none ∧ x = t.size ∧ t'.childIds root = t.childIds root ++ [x] ∧
        ∃ children, t'.node? x = some (b.toNode.withChildren children))) ∧
    ∀ y ∈ t.childIds root, y ≠ x → t'.node? y = t.node? y := by
  obtain ⟨hliteral, hgraft⟩ := register_eq_graft h
  rw [graft_eq] at hgraft
  obtain ⟨rfl, rfl⟩ := Prod.mk.inj hgraft
  have hroot : root < t.size := t.hasRoot
  have hxlt := (t.size_le_place root b).2
  have hapart := apart.place hroot b
  have hchildren := childIds_root_graftAll (t.root_lt_place root b) hxlt b.children
  obtain ⟨children, hself⟩ := node?_graftAll_self hxlt b.children
  refine ⟨hliteral, hapart.graftAll hxlt b.children, ?_⟩
  obtain ⟨x, hx, hplace⟩ | ⟨hnone, hplace⟩ := t.place_cases root b
  · obtain ⟨hmem, node, hnode, -⟩ := findChild?_eq_some hx
    simp only [hplace, childIds_update] at hchildren hself hapart ⊢
    refine ⟨.inl ⟨hx, hchildren, node, children, hnode, ?_⟩, ?_⟩
    · rw [hself, node?_update, if_pos rfl, hnode]
      rfl
    · intro y hy hne
      have hold := (childIds_update t x root b.mergeInto).symm
      rw [hapart.node?_graftAll (hold ▸ hmem) b.children (hold ▸ hy) hne, node?_update, if_neg hne]
  · simp only [hplace, childIds_addNode hroot, if_pos] at hchildren hself hapart ⊢
    refine ⟨.inr ⟨hnone, trivial, hchildren, children, ?_⟩, ?_⟩
    · rw [hself, node?_addNode, if_pos rfl]
      rfl
    · intro y hy hne
      have hkept := (mem_childIds_addNode hroot b.toNode).2 (.inl hy)
      have hnew := (mem_childIds_addNode hroot b.toNode).2 (.inr ⟨rfl, rfl⟩)
      rw [hapart.node?_graftAll hnew b.children hkept hne, node?_addNode, if_neg hne,
        if_neg (Nat.ne_of_gt (root_lt_of_mem_childIds hy))]

/-- Registering a literal touches the root and a region around it: one that is closed under
children and has all nodes that are new. -/
theorem register_frame {T : Nat → Prop} (h : t.register b = .ok (t', x))
    (closed : ∀ i c, T i → c ∈ t.childIds i → T c) (new : ∀ i, t.size ≤ i → T i) (hx : T x)
    {id : Nat} (hroot : id ≠ root) (hid : ¬T id) : t'.node? id = t.node? id := by
  obtain ⟨-, hgraft⟩ := register_eq_graft h
  rw [graft_eq] at hgraft
  obtain ⟨rfl, rfl⟩ := Prod.mk.inj hgraft
  have hlt := t.size_le_place root b
  obtain ⟨y, hy, hplace⟩ | ⟨-, hplace⟩ := t.place_cases root b
  · rw [hplace] at hx hlt ⊢
    have hne : id ≠ y := fun heq => hid (heq ▸ hx)
    rw [graftAll_frame (T := T) (by simpa using closed) (by simpa using new) hx hlt.2
      b.children hid, node?_update, if_neg hne]
  · rw [hplace] at hx hlt ⊢
    have hne : id ≠ t.size := fun heq => hid (heq ▸ hx)
    rw [graftAll_frame (T := T) ?_ (fun i hi => new i (Nat.le_trans hlt.1 hi)) hx hlt.2 b.children
      hid, node?_addNode, if_neg hne, if_neg hroot]
    intro i c hi hc
    rcases (mem_childIds_addNode t.hasRoot b.toNode).1 hc with hc | ⟨-, rfl⟩
    · exact closed i c hi hc
    · exact hx

/-- What registering a literal makes of a tree: it is merged into the literal of its name, or
becomes the root's last child, and the other children of the root stay as they are. -/
structure Registers (t : Tree S E M) (b : Sprout S E M) (t' : Tree S E M) (x : Nat) : Prop where
  literals : t'.HasLiterals
  placed :
    (∃ node children, t.RootLiteral b.name x node ∧
      t'.RootLiteral b.name x ((b.mergeInto node).withChildren children) ∧
      t'.childIds root = t.childIds root ∧ t'.rootNames = t.rootNames) ∨
    (b.name ∉ t.rootNames ∧ x ∉ t.childIds root ∧
      (∃ children, t'.RootLiteral b.name x (b.toNode.withChildren children)) ∧
      t'.childIds root = t.childIds root ++ [x] ∧ t'.rootNames = t.rootNames ++ [b.name])
  others : ∀ y ∈ t.childIds root, y ≠ x → t'.node? y = t.node? y

namespace Registers

theorem mem_rootNames_iff (h : t.Registers b t' x) :
    name ∈ t'.rootNames ↔ name ∈ t.rootNames ∨ name = b.name := by
  obtain ⟨_, _, hold, -, -, hnames⟩ | ⟨-, -, -, -, hnames⟩ := h.placed
  · rw [hnames]
    constructor
    · exact .inl
    · rintro (hname | rfl)
      · exact hname
      · exact hold.mem_rootNames
  · rw [hnames, List.mem_append, List.mem_singleton]

/-- A literal of another name stays. -/
theorem rootLiteral (h : t.Registers b t' x) (hc : t.RootLiteral name c node)
    (hne : name ≠ b.name) : t'.RootLiteral name c node := by
  have hcx : c ≠ x := by
    rintro rfl
    obtain ⟨_, _, hold, -⟩ | ⟨-, hnotin, -⟩ := h.placed
    · exact hne (hc.nameOf_eq.symm.trans hold.nameOf_eq)
    · exact hnotin hc.child
  refine ⟨?_, (h.others c hc.child hcx).trans hc.lookup, hc.label⟩
  obtain ⟨_, _, -, -, hchildren, -⟩ | ⟨-, -, -, hchildren, -⟩ := h.placed
  · rw [hchildren]
    exact hc.child
  · rw [hchildren]
    exact List.mem_append_left _ hc.child

/-- The registered literal is there. -/
theorem exists_rootLiteral (h : t.Registers b t' x) : ∃ node, t'.RootLiteral b.name x node := by
  obtain ⟨_, _, -, hnew, -⟩ | ⟨-, -, ⟨_, hnew⟩, -⟩ := h.placed
  · exact ⟨_, hnew⟩
  · exact ⟨_, hnew⟩

end Registers

/-- A child of the root that stays is a literal still. -/
theorem HasLiterals.exists_rootLiteral (h : t.HasLiterals) (hc : c ∈ t.childIds root)
    (hkept : c ∈ t'.childIds root) (hsame : t'.node? c = t.node? c) :
    ∃ name node, t'.RootLiteral name c node := by
  obtain ⟨name, node, hliteral⟩ := h.literal c hc
  exact ⟨name, node, hkept, hsame.trans hliteral.lookup, hliteral.label⟩

theorem HasLiterals.register (h : t.HasLiterals) (hregister : t.register b = .ok (t', x)) :
    t.Registers b t' x := by
  obtain ⟨hliteral, hapart, hplaced, hothers⟩ := register_cases h.apart hregister
  have hlabel : b.label = .literal b.name := by
    cases hb : b.label with
    | literal text => simp [Sprout.name, hb, Label.name]
    | argument _ _ _ => simp [Sprout.isLiteral, hb, Label.isLiteral] at hliteral
  obtain ⟨hfind, hchildren, node, children, hnode, hnew⟩ |
    ⟨hfind, rfl, hchildren, children, hnew⟩ := hplaced
  · obtain ⟨found, hold⟩ := h.findChild?_eq_some hfind
    obtain rfl : found = node := Option.some.inj (hold.lookup.symm.trans hnode)
    have hplace : t'.RootLiteral b.name x ((b.mergeInto found).withChildren children) :=
      ⟨hchildren ▸ hold.child, hnew, by simpa using hold.label⟩
    have hnames : t'.rootNames = t.rootNames := by
      rw [rootNames, hchildren]
      exact map_nameOf_eq hothers fun _ => hplace.nameOf_eq.trans hold.nameOf_eq.symm
    refine ⟨⟨hapart, fun c hc => ?_, hnames ▸ h.nodup⟩,
      .inl ⟨found, children, hold, hplace, hchildren, hnames⟩, hothers⟩
    by_cases hcx : c = x
    · exact ⟨b.name, _, hcx ▸ hplace⟩
    · have hmem : c ∈ t.childIds root := hchildren ▸ hc
      exact h.exists_rootLiteral hmem hc (hothers c hmem hcx)
  · have hnotin : t.size ∉ t.childIds root := fun hmem =>
      Nat.lt_irrefl _ (lt_of_mem_childIds hmem).2
    have hplace : t'.RootLiteral b.name t.size (b.toNode.withChildren children) :=
      ⟨by rw [hchildren]; simp, hnew, by simp [Sprout.toNode, hlabel]⟩
    have hname := h.findChild?_eq_none_iff.1 hfind
    have hnames : t'.rootNames = t.rootNames ++ [b.name] := by
      rw [rootNames, hchildren, List.map_append, List.map_singleton, hplace.nameOf_eq, rootNames,
        map_nameOf_eq hothers fun hx => absurd hx hnotin]
    refine ⟨⟨hapart, fun c hc => ?_, ?_⟩,
      .inr ⟨hname, hnotin, ⟨children, hplace⟩, hchildren, hnames⟩, hothers⟩
    · have hcases := hc
      rw [hchildren, List.mem_append, List.mem_singleton] at hcases
      obtain hmem | rfl := hcases
      · have hne : c ≠ t.size := fun hcx => hnotin (hcx ▸ hmem)
        exact h.exists_rootLiteral hmem hc (hothers c hmem hne)
      · exact ⟨b.name, _, hplace⟩
    · rw [hnames]
      refine List.nodup_append.2 ⟨h.nodup, by simp, ?_⟩
      intro a ha b' hb'
      obtain rfl : b' = b.name := by simpa using hb'
      exact fun hab => hname (hab ▸ ha)

/-- A literal of a new name becomes a new node, and all others but the root stay as they
are. -/
theorem HasLiterals.register_new (h : t.HasLiterals) (hregister : t.register b = .ok (t', x))
    (hname : b.name ∉ t.rootNames) :
    x = t.size ∧ ∀ id, id ≠ root → id < t.size → t'.node? id = t.node? id := by
  obtain ⟨-, -, ⟨hfind, -⟩ | ⟨-, rfl, -⟩, -⟩ := register_cases h.apart hregister
  · obtain ⟨node, hold⟩ := h.findChild?_eq_some hfind
    exact absurd hold.mem_rootNames hname
  · refine ⟨rfl, fun id hroot hlt => ?_⟩
    refine register_frame (T := (t.size ≤ ·)) hregister ?_ (fun _ hi => hi) (Nat.le_refl _) hroot
      (Nat.not_le.2 hlt)
    intro i c hi hc
    exact Nat.le_trans hi (Nat.le_of_lt (lt_of_mem_childIds hc).1)

end Tree
end Dispatch
