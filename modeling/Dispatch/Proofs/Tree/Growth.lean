import Dispatch.Tree.Growth
/-!
# What growing a tree changes

All growth is made of two steps, changing a node apart from its children and adding a node;
`place` does one of them. `graft_induction` says that what every `place` keeps is kept by
grafting a whole sprout. It gives the frame rule `graftAll_frame`: a region that is closed
under children is all that grafting into it touches.
-/
namespace Dispatch
variable {S E M : Type}

namespace Node

@[simp] theorem withChildren_children (node : Node S E M) (children : List Nat) :
    (node.withChildren children).children = children := rfl

@[simp] theorem withChildren_label (node : Node S E M) (children : List Nat) :
    (node.withChildren children).label = node.label := rfl

@[simp] theorem withChildren_requirement (node : Node S E M) (children : List Nat) :
    (node.withChildren children).requirement = node.requirement := rfl

@[simp] theorem withChildren_executor (node : Node S E M) (children : List Nat) :
    (node.withChildren children).executor = node.executor := rfl

@[simp] theorem withChildren_redirect (node : Node S E M) (children : List Nat) :
    (node.withChildren children).redirect = node.redirect := rfl

@[simp] theorem withChildren_name (node : Node S E M) (children : List Nat) :
    (node.withChildren children).name = node.name := rfl

end Node

namespace Sprout

@[simp] theorem mergeInto_label (b : Sprout S E M) (node : Node S E M) :
    (b.mergeInto node).label = node.label := by
  simp only [mergeInto]
  split <;> split <;> rfl

@[simp] theorem mergeInto_requirement (b : Sprout S E M) (node : Node S E M) :
    (b.mergeInto node).requirement = node.requirement := by
  simp only [mergeInto]
  split <;> split <;> rfl

/-- An executor of the sprout takes the place of that of the node. -/
theorem mergeInto_executor_eq (b : Sprout S E M) (node : Node S E M) :
    (b.mergeInto node).executor = b.executor.or node.executor := by
  cases hexecutor : b.executor <;> cases hredirect : b.redirect <;>
    simp [mergeInto, hexecutor, hredirect]

/-- A redirect of the sprout takes the place of that of the node. -/
theorem mergeInto_redirect_eq (b : Sprout S E M) (node : Node S E M) :
    (b.mergeInto node).redirect = b.redirect.or node.redirect := by
  cases hexecutor : b.executor <;> cases hredirect : b.redirect <;>
    simp [mergeInto, hexecutor, hredirect]

theorem mergeInto_redirect {b : Sprout S E M} (h : b.redirect = none) (node : Node S E M) :
    (b.mergeInto node).redirect = node.redirect := by
  rw [mergeInto_redirect_eq, h, Option.none_or]

@[simp] theorem withLiteral_children (b : Sprout S E M) (text : String) :
    (b.withLiteral text).children = b.children := by
  cases hlabel : b.label <;> simp [withLiteral, hlabel]

@[simp] theorem withLiteral_requirement (b : Sprout S E M) (text : String) :
    (b.withLiteral text).requirement = b.requirement := by
  cases hlabel : b.label <;> simp [withLiteral, hlabel]

@[simp] theorem withLiteral_isLiteral (b : Sprout S E M) (text : String) :
    (b.withLiteral text).isLiteral = b.isLiteral := by
  cases hlabel : b.label <;> simp [withLiteral, isLiteral, hlabel, Label.isLiteral]

theorem withLiteral_name {b : Sprout S E M} (h : b.isLiteral = true) (text : String) :
    (b.withLiteral text).name = text := by
  cases hlabel : b.label with
  | literal _ => simp [withLiteral, hlabel, name, Label.name]
  | argument _ _ _ => simp [isLiteral, hlabel, Label.isLiteral] at h

/-- A sprout without a redirect leaves the modifier and the fork flag alone. -/
theorem mergeInto_modifier {b : Sprout S E M} (h : b.redirect = none) (node : Node S E M) :
    (b.mergeInto node).modifier = node.modifier ∧ (b.mergeInto node).forks = node.forks := by
  cases hexecutor : b.executor <;> simp [mergeInto, hexecutor, h]

end Sprout

namespace Tree
variable {t : Tree S E M} {parent id i c : Nat} {node : Node S E M}

/-! ## Nodes and children -/

theorem lt_size_of_node? (h : t.node? id = some node) : id < t.size :=
  (Array.getElem?_eq_some_iff.1 h).1

theorem exists_node? (h : id < t.size) : ∃ node, t.node? id = some node :=
  ⟨t.nodes[id], Array.getElem?_eq_some_iff.2 ⟨h, rfl⟩⟩

theorem node?_eq_none (h : t.size ≤ id) : t.node? id = none :=
  Array.getElem?_eq_none h

theorem childIds_eq (h : t.node? id = some node) : t.childIds id = node.children := by
  simp [childIds, h]

/-- The root is all there is in an empty tree. -/
theorem eq_root_of_node?_empty (h : (empty : Tree S E M).node? id = some node) :
    id = root ∧ node = Node.root := by
  obtain rfl : id = 0 := Nat.lt_one_iff.1 (lt_size_of_node? h)
  exact ⟨rfl, by simpa [node?, empty, eq_comm] using h⟩

@[simp] theorem childIds_empty (id : Nat) : (empty : Tree S E M).childIds id = [] := by
  cases hnode : (empty : Tree S E M).node? id with
  | none => simp [childIds, hnode]
  | some node => simp [childIds_eq hnode, (eq_root_of_node?_empty hnode).2, Node.root]

theorem root_lt_of_mem_childIds (h : c ∈ t.childIds i) : root < c :=
  Nat.lt_of_le_of_lt (Nat.zero_le i) (lt_of_mem_childIds h).1

theorem findChild?_eq_some {name : String} (h : t.findChild? parent name = some c) :
    c ∈ t.childIds parent ∧ ∃ child, t.node? c = some child ∧ child.name = name := by
  refine ⟨List.mem_of_find?_eq_some h, ?_⟩
  have hname := List.find?_some h
  cases hchild : t.node? c with
  | none => simp [hchild] at hname
  | some child => exact ⟨child, rfl, by simpa [hchild] using hname⟩

/-- No child of the node has the name. -/
theorem findChild?_eq_none {name : String} (h : t.findChild? parent name = none)
    (hc : c ∈ t.childIds parent) {child : Node S E M} (hchild : t.node? c = some child) :
    child.name ≠ name := by
  have hnone := List.find?_eq_none.1 h c hc
  simpa [hchild] using hnone

theorem findChild?_isSome (hc : c ∈ t.childIds parent) (hnode : t.node? c = some node) :
    ∃ x, t.findChild? parent node.name = some x := by
  rw [← Option.isSome_iff_exists, findChild?, List.find?_isSome]
  exact ⟨c, hc, by simp [hnode]⟩

/-! ## The two steps of growth -/

@[simp] theorem size_update (t : Tree S E M) (id : Nat) (change : Node S E M → Node S E M) :
    (t.update id change).size = t.size := by
  simp [size, update]

@[simp] theorem size_addNode (t : Tree S E M) (parent : Nat) (node : Node S E M) :
    (t.addNode parent node).size = t.size + 1 := by
  simp [size, addNode]

theorem node?_update (t : Tree S E M) (id i : Nat) (change : Node S E M → Node S E M) :
    (t.update id change).node? i =
      if i = id then (t.node? i).map fun node => (change node).withChildren node.children
      else t.node? i := by
  simp only [node?, update, Array.getElem?_modify, eq_comm (a := id)]

@[simp] theorem childIds_update (t : Tree S E M) (id i : Nat)
    (change : Node S E M → Node S E M) : (t.update id change).childIds i = t.childIds i := by
  rw [childIds, node?_update]
  split
  · cases h : t.node? i <;> simp [childIds, h]
  · rfl

theorem node?_addNode (t : Tree S E M) (parent : Nat) (node : Node S E M) (i : Nat) :
    (t.addNode parent node).node? i =
      if i = t.size then some (node.withChildren [])
      else if i = parent then
        (t.node? i).map fun p => p.withChildren (p.children ++ [t.size])
      else t.node? i := by
  by_cases hsize : i = t.size
  · rw [if_pos hsize, hsize]
    simp only [node?, addNode, size, Array.getElem?_push, Array.size_modify, if_pos]
  · have hsize' : i ≠ t.nodes.size := hsize
    rw [if_neg hsize]
    simp only [node?, addNode, Array.getElem?_push, Array.size_modify, if_neg hsize',
      Array.getElem?_modify, size]
    by_cases hparent : i = parent
    · rw [if_pos hparent, if_pos hparent.symm]
    · rw [if_neg hparent, if_neg (Ne.symm hparent)]

/-- The nodes of a tree to which a node was added: that node, and the old ones with the
children that they have then. -/
theorem exists_of_node?_addNode {found : Node S E M}
    (h : (t.addNode parent node).node? i = some found) :
    (i = t.size ∧ found = node.withChildren []) ∨
      (i ≠ t.size ∧ ∃ old children, t.node? i = some old ∧ found = old.withChildren children) := by
  rw [node?_addNode] at h
  by_cases hsize : i = t.size
  · rw [if_pos hsize] at h
    exact .inl ⟨hsize, (Option.some.inj h).symm⟩
  · rw [if_neg hsize] at h
    split at h
    · obtain ⟨old, hold, rfl⟩ := Option.map_eq_some_iff.1 h
      exact .inr ⟨hsize, old, _, hold, rfl⟩
    · exact .inr ⟨hsize, found, found.children, h, rfl⟩

theorem childIds_addNode (h : parent < t.size) (node : Node S E M) (i : Nat) :
    (t.addNode parent node).childIds i =
      if i = parent then t.childIds i ++ [t.size] else t.childIds i := by
  rw [childIds, node?_addNode]
  by_cases hsize : i = t.size
  · have hne : i ≠ parent := by omega
    have hnone := node?_eq_none (t := t) (Nat.le_of_eq hsize.symm)
    rw [if_pos hsize, if_neg hne]
    simp [childIds, hnone]
  · rw [if_neg hsize]
    by_cases hparent : i = parent
    · obtain ⟨found, hfound⟩ := exists_node? (hparent ▸ h)
      rw [if_pos hparent, if_pos hparent]
      simp [childIds, hfound]
    · rw [if_neg hparent, if_neg hparent]
      rfl

theorem mem_childIds_addNode (h : parent < t.size) (node : Node S E M) :
    c ∈ (t.addNode parent node).childIds i ↔ c ∈ t.childIds i ∨ i = parent ∧ c = t.size := by
  rw [childIds_addNode h]
  by_cases hi : i = parent
  · simp [hi]
  · simp [hi]

/-- Placing a sprout changes the child of its name, or adds a child. -/
theorem place_cases (t : Tree S E M) (parent : Nat) (b : Sprout S E M) :
    (∃ x, t.findChild? parent b.name = some x ∧
      t.place parent b = (t.update x b.mergeInto, x)) ∨
    (t.findChild? parent b.name = none ∧
      t.place parent b = (t.addNode parent b.toNode, t.size)) := by
  cases h : t.findChild? parent b.name with
  | some x => exact .inl ⟨x, rfl, by rw [place, h]⟩
  | none => exact .inr ⟨rfl, by rw [place, h]; rfl⟩

theorem graft_eq (t : Tree S E M) (parent : Nat) (b : Sprout S E M) :
    t.graft parent b =
      ((t.place parent b).1.graftAll (t.place parent b).2 b.children, (t.place parent b).2) := by
  obtain ⟨label, children, executor, requirement, redirect, modifier, forks⟩ := b
  rw [graft]

theorem size_le_place (t : Tree S E M) (parent : Nat) (b : Sprout S E M) :
    t.size ≤ (t.place parent b).1.size ∧ (t.place parent b).2 < (t.place parent b).1.size := by
  obtain ⟨x, hx, hplace⟩ | ⟨-, hplace⟩ := t.place_cases parent b
  · have hlt := lt_of_mem_childIds (findChild?_eq_some hx).1
    simp only [hplace, size_update]
    omega
  · simp only [hplace, size_addNode]
    omega

/-- The root is never placed. -/
theorem root_lt_place (t : Tree S E M) (parent : Nat) (b : Sprout S E M) :
    root < (t.place parent b).2 := by
  obtain ⟨x, hx, hplace⟩ | ⟨-, hplace⟩ := t.place_cases parent b
  · rw [hplace]
    exact root_lt_of_mem_childIds (findChild?_eq_some hx).1
  · rw [hplace]
    exact t.hasRoot

/-- Placing a sprout gives no child of `p` to another node. -/
theorem place_apart {p : Nat} (h : ∀ i c, c ∈ t.childIds p → c ∈ t.childIds i → i = p)
    (hlt : parent < t.size) (b : Sprout S E M) :
    ∀ i c, c ∈ (t.place parent b).1.childIds p → c ∈ (t.place parent b).1.childIds i →
      i = p := by
  intro i c hp hc
  obtain ⟨x, -, hplace⟩ | ⟨-, hplace⟩ := t.place_cases parent b
  · simp only [hplace, childIds_update] at hp hc
    exact h i c hp hc
  · -- The new child belongs to the parent alone, and the others are where they were.
    rw [hplace] at hp hc
    rcases (mem_childIds_addNode hlt b.toNode).1 hp with hold | ⟨hparent, rfl⟩
    · rcases (mem_childIds_addNode hlt b.toNode).1 hc with hold' | ⟨-, rfl⟩
      · exact h i c hold hold'
      · have := lt_of_mem_childIds hold
        omega
    · rcases (mem_childIds_addNode hlt b.toNode).1 hc with hold' | ⟨hi, -⟩
      · have := lt_of_mem_childIds hold'
        omega
      · exact hi.trans hparent.symm

/-! ## Induction over grafting -/

section Induction
variable {P : Tree S E M → Prop} {T : Nat → Prop} {Q : Sprout S E M → Prop}

mutual

/-- What placing keeps is kept by grafting, where `Q` holds of the sprouts that are placed and
`T` of the nodes under which they are. -/
theorem graft_induction (hQ : ∀ b, Q b → ∀ child ∈ b.children, Q child)
    (hstep : ∀ t parent b, P t → T parent → parent < t.size → Q b →
      P (t.place parent b).1 ∧ T (t.place parent b).2) :
    ∀ (b : Sprout S E M) {t : Tree S E M} {parent : Nat}, P t → T parent → parent < t.size →
      Q b → P (t.graft parent b).1 ∧ t.size ≤ (t.graft parent b).1.size
  | ⟨label, children, executor, requirement, redirect, modifier, forks⟩, t, parent, hP, hT, hlt,
      hb => by
    obtain ⟨hplace, hid⟩ := hstep t parent _ hP hT hlt hb
    obtain ⟨hle, hlt'⟩ := t.size_le_place parent
      (⟨label, children, executor, requirement, redirect, modifier, forks⟩ : Sprout S E M)
    obtain ⟨hall, hle'⟩ := graftAll_induction hQ hstep children hplace hid hlt' (hQ _ hb)
    rw [graft_eq]
    exact ⟨hall, Nat.le_trans hle hle'⟩

theorem graftAll_induction (hQ : ∀ b, Q b → ∀ child ∈ b.children, Q child)
    (hstep : ∀ t parent b, P t → T parent → parent < t.size → Q b →
      P (t.place parent b).1 ∧ T (t.place parent b).2) :
    ∀ (bs : List (Sprout S E M)) {t : Tree S E M} {parent : Nat}, P t → T parent →
      parent < t.size → (∀ b ∈ bs, Q b) →
        P (t.graftAll parent bs) ∧ t.size ≤ (t.graftAll parent bs).size
  | [], t, parent, hP, _, _, _ => by
    rw [graftAll]
    exact ⟨hP, Nat.le_refl _⟩
  | b :: rest, t, parent, hP, hT, hlt, hbs => by
    obtain ⟨hgraft, hle⟩ := graft_induction hQ hstep b hP hT hlt (hbs b (by simp))
    obtain ⟨hall, hle'⟩ := graftAll_induction hQ hstep rest hgraft hT (Nat.lt_of_lt_of_le hlt hle)
      fun other hother => hbs other (by simp [hother])
    rw [graftAll]
    exact ⟨hall, Nat.le_trans hle hle'⟩

end

/-- What placing keeps, whatever is placed and wherever, is kept by grafting. -/
theorem graftAll_keeps
    (place : ∀ {t : Tree S E M} {parent : Nat}, P t → parent < t.size → ∀ b,
      P (t.place parent b).1)
    (hP : P t) (hlt : parent < t.size) (bs : List (Sprout S E M)) : P (t.graftAll parent bs) :=
  (graftAll_induction (T := fun _ => True) (Q := fun _ => True) (fun _ _ _ _ => trivial)
    (fun _ _ b h _ hlt _ => ⟨place h hlt b, trivial⟩) bs hP trivial hlt fun _ _ => trivial).1

theorem graft_keeps
    (place : ∀ {t : Tree S E M} {parent : Nat}, P t → parent < t.size → ∀ b,
      P (t.place parent b).1)
    (hP : P t) (hlt : parent < t.size) (b : Sprout S E M) : P (t.graft parent b).1 :=
  graftAll_keeps place hP hlt [b]

end Induction

/-! ## What grafting leaves alone -/

/-- Grafting under a node of a region that is closed under children touches nothing else. -/
theorem graftAll_frame {T : Nat → Prop} (hclosed : ∀ i c, T i → c ∈ t.childIds i → T c)
    (hnew : ∀ i, t.size ≤ i → T i) (hT : T parent) (hlt : parent < t.size)
    (bs : List (Sprout S E M)) (hi : ¬T i) : (t.graftAll parent bs).node? i = t.node? i := by
  have hstep : ∀ (t' : Tree S E M) (q : Nat) (b : Sprout S E M),
      (t.size ≤ t'.size ∧ (∀ j c, T j → c ∈ t'.childIds j → T c) ∧ t'.node? i = t.node? i) →
      T q → q < t'.size → True →
        (t.size ≤ (t'.place q b).1.size ∧
          (∀ j c, T j → c ∈ (t'.place q b).1.childIds j → T c) ∧
          (t'.place q b).1.node? i = t.node? i) ∧ T (t'.place q b).2 := by
    rintro t' q b ⟨hsize, hcl, hsame⟩ hq hqlt -
    obtain ⟨x, hx, hplace⟩ | ⟨-, hplace⟩ := t'.place_cases q b
    · have hTx : T x := hcl q x hq (findChild?_eq_some hx).1
      have hne : i ≠ x := fun h => hi (h ▸ hTx)
      simp only [hplace, size_update, childIds_update, node?_update, if_neg hne]
      exact ⟨⟨hsize, hcl, hsame⟩, hTx⟩
    · have hTx : T t'.size := hnew _ hsize
      have hne : i ≠ t'.size := fun h => hi (h ▸ hTx)
      have hne' : i ≠ q := fun h => hi (h ▸ hq)
      simp only [hplace, size_addNode, node?_addNode, if_neg hne, if_neg hne']
      refine ⟨⟨by omega, ?_, hsame⟩, hTx⟩
      intro j c hj hc
      rcases (mem_childIds_addNode hqlt b.toNode).1 hc with hc | ⟨-, rfl⟩
      · exact hcl j c hj hc
      · exact hTx
  exact (graftAll_induction (Q := fun _ => True) (fun _ _ _ _ => trivial) hstep bs
    ⟨Nat.le_refl _, hclosed, rfl⟩ hT hlt fun _ _ => trivial).1.2.2

/-- Grafting touches nothing that comes before the node under which it is done. -/
theorem node?_graftAll_of_lt (hid : id < parent) (hlt : parent < t.size)
    (bs : List (Sprout S E M)) : (t.graftAll parent bs).node? id = t.node? id :=
  graftAll_frame (T := (id < ·)) (fun _ _ hi hc => Nat.lt_trans hi (lt_of_mem_childIds hc).1)
    (fun _ hi => Nat.lt_of_lt_of_le (Nat.lt_trans hid hlt) hi) hid hlt bs (Nat.lt_irrefl id)

/-- Grafting under one child of a node leaves the others alone. -/
theorem node?_graftAll_sibling {p y : Nat}
    (apart : ∀ i c, c ∈ t.childIds p → c ∈ t.childIds i → i = p) (hparent : parent ∈ t.childIds p)
    (bs : List (Sprout S E M)) (hy : y ∈ t.childIds p) (hne : y ≠ parent) :
    (t.graftAll parent bs).node? y = t.node? y := by
  obtain ⟨hpos, hlt⟩ := lt_of_mem_childIds hparent
  refine graftAll_frame (T := fun i => p < i ∧ (i ∈ t.childIds p → i = parent)) ?_ ?_
    ⟨hpos, fun _ => rfl⟩ hlt bs fun hT => hne (hT.2 hy)
  · rintro i c ⟨hi, -⟩ hc
    refine ⟨Nat.lt_trans hi (lt_of_mem_childIds hc).1, fun hmem => ?_⟩
    exact absurd (apart i c hmem hc) (Nat.ne_of_gt hi)
  · refine fun i hi => ⟨by omega, fun hmem => ?_⟩
    exact absurd (lt_of_mem_childIds hmem).2 (Nat.not_lt.2 hi)

/-- Grafting under a node adds to its children and leaves the rest of it alone. -/
theorem node?_graftAll_self (hlt : parent < t.size) (bs : List (Sprout S E M)) :
    ∃ children, (t.graftAll parent bs).node? parent =
      (t.node? parent).map (·.withChildren children) := by
  obtain ⟨node, hnode⟩ := exists_node? hlt
  have hstep : ∀ (t' : Tree S E M) (q : Nat) (b : Sprout S E M),
      (parent < t'.size ∧ ∃ cs, t'.node? parent = some (node.withChildren cs)) →
      parent ≤ q → q < t'.size → True →
        (parent < (t'.place q b).1.size ∧
          ∃ cs, (t'.place q b).1.node? parent = some (node.withChildren cs)) ∧
        parent ≤ (t'.place q b).2 := by
    rintro t' q b ⟨hsize, cs, hcs⟩ hq hqlt -
    obtain ⟨x, hx, hplace⟩ | ⟨-, hplace⟩ := t'.place_cases q b
    · have hqx := (lt_of_mem_childIds (findChild?_eq_some hx).1).1
      have hne : parent ≠ x := by omega
      simp only [hplace, size_update, node?_update, if_neg hne]
      exact ⟨⟨hsize, cs, hcs⟩, by omega⟩
    · have hne : parent ≠ t'.size := by omega
      simp only [hplace, size_addNode, node?_addNode, if_neg hne]
      refine ⟨⟨by omega, ?_⟩, by omega⟩
      split
      · exact ⟨cs ++ [t'.size], by rw [hcs]; rfl⟩
      · exact ⟨cs, hcs⟩
  obtain ⟨⟨-, cs, hcs⟩, -⟩ := graftAll_induction (T := (parent ≤ ·)) (Q := fun _ => True)
    (fun _ _ _ _ => trivial) hstep bs ⟨hlt, node.children, hnode⟩ (Nat.le_refl _) hlt
    fun _ _ => trivial
  exact ⟨cs, by rw [hcs, hnode]; rfl⟩

/-! ## What is checked before growing -/

theorem checkId_eq_ok_iff : t.checkId id = .ok () ↔ id < t.size := by
  simp only [checkId]
  split <;> simp [*]

theorem addChild_eq_ok {t' : Tree S E M} {x : Nat} {b : Sprout S E M}
    (h : t.addChild parent b = .ok (t', x)) :
    parent < t.size ∧ t.check (some parent) b = .ok () ∧ (t', x) = t.graft parent b := by
  simp only [addChild, bind, Except.bind, pure, Except.pure] at h
  split at h
  · simp at h
  · next hid =>
    split at h
    · simp at h
    · next hcheck => exact ⟨checkId_eq_ok_iff.1 hid, hcheck, (Except.ok.inj h).symm⟩

theorem register_eq_ok {t' : Tree S E M} {x : Nat} {b : Sprout S E M}
    (h : t.register b = .ok (t', x)) :
    b.isLiteral = true ∧ t.addChild root b = .ok (t', x) := by
  simp only [register] at h
  split at h
  · next hliteral => exact ⟨hliteral, h⟩
  · simp at h

/-! ## The children of the root -/

/-- Grafting below the root adds no child to it. -/
theorem childIds_root_graftAll (hpos : root < parent) (hlt : parent < t.size)
    (bs : List (Sprout S E M)) : (t.graftAll parent bs).childIds root = t.childIds root := by
  rw [childIds, childIds, node?_graftAll_of_lt hpos hlt bs]

/-- No child of the root is a child of another node. -/
def RootApart (t : Tree S E M) : Prop :=
  ∀ i c, c ∈ t.childIds root → c ∈ t.childIds i → i = root

theorem rootApart_empty : (empty : Tree S E M).RootApart := by
  intro i c hc
  simp at hc

theorem RootApart.place (h : t.RootApart) (hlt : parent < t.size) (b : Sprout S E M) :
    (t.place parent b).1.RootApart :=
  place_apart h hlt b

theorem RootApart.graftAll (h : t.RootApart) (hlt : parent < t.size)
    (bs : List (Sprout S E M)) : (t.graftAll parent bs).RootApart :=
  graftAll_keeps RootApart.place h hlt bs

/-- Grafting under a child of the root leaves the other children alone. -/
theorem RootApart.node?_graftAll (h : t.RootApart) (hparent : parent ∈ t.childIds root)
    (bs : List (Sprout S E M)) {y : Nat} (hy : y ∈ t.childIds root) (hne : y ≠ parent) :
    (t.graftAll parent bs).node? y = t.node? y :=
  node?_graftAll_sibling h hparent bs hy hne

end Tree
end Dispatch
