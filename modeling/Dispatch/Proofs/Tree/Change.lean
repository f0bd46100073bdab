import Dispatch.Proofs.Tree.Growth
import Mathlib.Data.List.Find
/-!
# Trees under change

A command tree starts as a root and changes by a handful of calls only. What one of them can
do is stated once (`enact_cases`): a checked sprout is grafted, or one node is updated and
gets a redirect only if it has no children. From this come two facts about all trees that
calls lead to. Every node but the root has one parent (`Grown.uniqueParents`), and nothing
that was added is ever lost (`Extends`): nodes keep their labels, lists of children only
become longer, and a redirect is replaced by another one at most.
-/
namespace Dispatch
variable {S E M : Type}

/-- A call that changes a tree. -/
inductive Change (S E M : Type) where
  | register (sprout : Sprout S E M)
  | addChild (parent : Nat) (sprout : Sprout S E M)
  | setExecutor (id : Nat) (executor : Option E)
  | setRequirement (id : Nat) (requirement : Option (S → Bool))
  | setRedirect (id target : Nat)

/-- The sprout that a call adds, and the node under which it does. -/
def Change.addition? : Change S E M → Option (Nat × Sprout S E M)
  | register sprout => some (Tree.root, sprout)
  | addChild parent sprout => some (parent, sprout)
  | _ => none

namespace Tree
variable {t t' t'' : Tree S E M} {id parent x : Nat} {b : Sprout S E M} {name : String}

/-- The tree that a call makes of a tree. -/
def enact (t : Tree S E M) : Change S E M → Except RegistrationError (Tree S E M)
  | .register sprout => (t.register sprout).map (·.1)
  | .addChild parent sprout => (t.addChild parent sprout).map (·.1)
  | .setExecutor id executor => t.setExecutor id executor
  | .setRequirement id requirement => t.setRequirement id requirement
  | .setRedirect id target => t.setRedirect id target

/-- The tree after a call; one that is refused changes nothing. -/
def after (t : Tree S E M) (change : Change S E M) : Tree S E M :=
  match t.enact change with
  | .ok t' => t'
  | .error _ => t

/-- The tree after several calls. -/
def afterAll (t : Tree S E M) (changes : List (Change S E M)) : Tree S E M :=
  changes.foldl after t

/-- Calls lead to the tree from one that is only a root. -/
def Grown (t : Tree S E M) : Prop := ∃ changes, t = empty.afterAll changes

/-! ## What one call does -/

/-- A node that gets a redirect has no children and is not the root. -/
theorem setRedirect_eq_ok {target : Nat} (h : t.setRedirect id target = .ok t') :
    target < t.size ∧ (∃ node, t.node? id = some node ∧ node.children = [] ∧ node.label ≠ none) ∧
      t' = t.update id fun node => { node with redirect := some target } := by
  simp only [setRedirect, bind, Except.bind, pure, Except.pure, throw, throwThe,
    MonadExceptOf.throw] at h
  split at h
  · simp at h
  · next hid =>
    obtain ⟨node, hnode⟩ := exists_node? (checkId_eq_ok_iff.1 hid)
    split at h
    · simp at h
    · next htarget =>
      rw [hnode] at h
      by_cases hrefused : (!node.children.isEmpty || node.label.isNone) = true
      · simp [hrefused] at h
      · simp only [hrefused, Bool.false_eq_true, if_false] at h
        rw [Bool.or_eq_true, not_or] at hrefused
        obtain ⟨hchildren, hlabel⟩ := hrefused
        refine ⟨checkId_eq_ok_iff.1 htarget, ⟨node, hnode, ?_, ?_⟩, (Except.ok.inj h).symm⟩
        · simpa using hchildren
        · simpa using hlabel

theorem setExecutor_eq_ok {executor : Option E} (h : t.setExecutor id executor = .ok t') :
    id < t.size ∧ t' = t.update id fun node => { node with executor := executor } := by
  simp only [setExecutor, bind, Except.bind, pure, Except.pure] at h
  split at h
  · simp at h
  · next hid => exact ⟨checkId_eq_ok_iff.1 hid, (Except.ok.inj h).symm⟩

theorem setRequirement_eq_ok {requirement : Option (S → Bool)}
    (h : t.setRequirement id requirement = .ok t') :
    id < t.size ∧ t' = t.update id fun node => { node with requirement := requirement } := by
  simp only [setRequirement, bind, Except.bind, pure, Except.pure] at h
  split at h
  · simp at h
  · next hid => exact ⟨checkId_eq_ok_iff.1 hid, (Except.ok.inj h).symm⟩

/-- What a call that adds no sprout does to its node. -/
structure Alters (t : Tree S E M) (id : Nat) (alter : Node S E M → Node S E M) : Prop where
  lt_size : id < t.size
  label_eq : ∀ node, (alter node).label = node.label
  /-- The redirect stays, or a node without children other than the root gets one. -/
  redirects : (∀ node, (alter node).redirect = node.redirect) ∨
    (∀ node, (alter node).redirect ≠ none) ∧
      ∃ node, t.node? id = some node ∧ node.children = [] ∧ node.label ≠ none
  /-- A new redirect leads to a node. -/
  target : ∀ node x, (alter node).redirect = some x → node.redirect = some x ∨ x < t.size
  modifier_eq : ∀ node, (alter node).modifier = node.modifier
  forks_eq : ∀ node, (alter node).forks = node.forks

/-- A call that goes through grafts a sprout that was checked, or alters a node. -/
theorem enact_cases {change : Change S E M} (h : t.enact change = .ok t') :
    (∃ parent b, change.addition? = some (parent, b) ∧ parent < t.size ∧
      t.check (some parent) b = .ok () ∧ t' = (t.graft parent b).1) ∨
    (∃ id alter, change.addition? = none ∧ t.Alters id alter ∧ t' = t.update id alter) := by
  cases change with
  | register b =>
    cases hregister : t.register b with
    | error _ => simp [enact, hregister, Except.map] at h
    | ok placed =>
      obtain ⟨t₁, x⟩ := placed
      obtain rfl : t₁ = t' := by simpa [enact, hregister, Except.map] using h
      obtain ⟨-, hadd⟩ := register_eq_ok hregister
      obtain ⟨hlt, hcheck, hgraft⟩ := addChild_eq_ok hadd
      exact .inl ⟨root, b, rfl, hlt, hcheck, congrArg Prod.fst hgraft⟩
  | addChild parent b =>
    cases hadd : t.addChild parent b with
    | error _ => simp [enact, hadd, Except.map] at h
    | ok placed =>
      obtain ⟨t₁, x⟩ := placed
      obtain rfl : t₁ = t' := by simpa [enact, hadd, Except.map] using h
      obtain ⟨hlt, hcheck, hgraft⟩ := addChild_eq_ok hadd
      exact .inl ⟨parent, b, rfl, hlt, hcheck, congrArg Prod.fst hgraft⟩
  | setExecutor id executor =>
    obtain ⟨hlt, htree⟩ := setExecutor_eq_ok h
    refine .inr ⟨id, _, rfl, ?_, htree⟩
    exact ⟨hlt, fun _ => rfl, .inl fun _ => rfl, fun _ _ => .inl, fun _ => rfl, fun _ => rfl⟩
  | setRequirement id requirement =>
    obtain ⟨hlt, htree⟩ := setRequirement_eq_ok h
    refine .inr ⟨id, _, rfl, ?_, htree⟩
    exact ⟨hlt, fun _ => rfl, .inl fun _ => rfl, fun _ _ => .inl, fun _ => rfl, fun _ => rfl⟩
  | setRedirect id target =>
    obtain ⟨htarget, ⟨node, hnode, hbare⟩, htree⟩ := setRedirect_eq_ok h
    refine .inr ⟨id, _, rfl, ?_, htree⟩
    refine ⟨lt_size_of_node? hnode, fun _ => rfl, .inr ⟨by simp, node, hnode, hbare⟩, ?_,
      fun _ => rfl, fun _ => rfl⟩
    exact fun _ x hx => .inr (Option.some.inj hx ▸ htarget)

/-- What grafting and altering keep is kept by every call, also by one that is refused. -/
theorem after_induction {P : Tree S E M → Prop} (h : P t)
    (graft : ∀ parent b, parent < t.size → P (t.graft parent b).1)
    (alter : ∀ id alter, t.Alters id alter → P (t.update id alter)) (change : Change S E M) :
    P (t.after change) := by
  rw [after]
  split
  · next t' henact =>
    obtain ⟨parent, b, -, hlt, -, rfl⟩ | ⟨id, f, -, halters, rfl⟩ := enact_cases henact
    · exact graft parent b hlt
    · exact alter id f halters
  · exact h

/-- What holds of the tree that is only a root and is kept by every call holds of all trees
that calls lead to. -/
theorem Grown.induction {P : Tree S E M → Prop} (h : t.Grown) (base : P empty)
    (step : ∀ t change, P t → P (after t change)) : P t := by
  obtain ⟨changes, rfl⟩ := h
  suffices hall : ∀ t : Tree S E M, P t → P (t.afterAll changes) from hall empty base
  induction changes with
  | nil => exact fun _ hP => hP
  | cons change rest ih => exact fun t hP => ih (t.after change) (step t change hP)

/-! ## One parent for every node -/

/-- No node is a child of two nodes. -/
def UniqueParents (t : Tree S E M) : Prop :=
  ∀ i j c, c ∈ t.childIds i → c ∈ t.childIds j → i = j

theorem uniqueParents_empty : (empty : Tree S E M).UniqueParents := by
  intro i j c hc
  simp at hc

theorem UniqueParents.place (h : t.UniqueParents) (hlt : parent < t.size) (b : Sprout S E M) :
    (t.place parent b).1.UniqueParents := by
  intro i j c hi hj
  have happart := place_apart (p := j) (fun i c hj hi => h i j c hi hj) hlt b
  exact happart i c hj hi

theorem UniqueParents.graft (h : t.UniqueParents) (hlt : parent < t.size) (b : Sprout S E M) :
    (t.graft parent b).1.UniqueParents :=
  graft_keeps UniqueParents.place h hlt b

theorem UniqueParents.after (h : t.UniqueParents) (change : Change S E M) :
    (t.after change).UniqueParents := by
  refine after_induction h (fun parent b hlt => h.graft hlt b) (fun id alter _ => ?_) change
  intro i j c hi hj
  rw [childIds_update] at hi hj
  exact h i j c hi hj

theorem Grown.uniqueParents (h : t.Grown) : t.UniqueParents :=
  h.induction uniqueParents_empty fun _ change ht => ht.after change

/-! ## Nothing is lost -/

/-- The tree has all that another one has: its nodes with their labels, their children first
among the children, and a redirect where there was one. Children that came later are nodes
that came later. -/
structure Extends (t' t : Tree S E M) : Prop where
  nodes : ∀ id node, t.node? id = some node → ∃ node', t'.node? id = some node' ∧
    node'.label = node.label ∧ (node.redirect ≠ none → node'.redirect ≠ none)
  children : ∀ id, ∃ more, t'.childIds id = t.childIds id ++ more ∧ ∀ c ∈ more, t.size ≤ c

namespace Extends

theorem refl (t : Tree S E M) : t.Extends t where
  nodes := fun _ node hnode => ⟨node, hnode, rfl, fun h => h⟩
  children := fun _ => ⟨[], by simp⟩

theorem size_le (h : t'.Extends t) : t.size ≤ t'.size := by
  refine Nat.not_lt.1 fun hlt => ?_
  obtain ⟨node, hnode⟩ := exists_node? hlt
  obtain ⟨node', hnode', -⟩ := h.nodes _ _ hnode
  exact absurd (lt_size_of_node? hnode') (Nat.lt_irrefl _)

theorem trans (h : t''.Extends t') (h' : t'.Extends t) : t''.Extends t where
  nodes := by
    intro id node hnode
    obtain ⟨node', hnode', hlabel, hredirect⟩ := h'.nodes id node hnode
    obtain ⟨node'', hnode'', hlabel', hredirect'⟩ := h.nodes id node' hnode'
    exact ⟨node'', hnode'', hlabel'.trans hlabel, fun hne => hredirect' (hredirect hne)⟩
  children := by
    intro id
    obtain ⟨more, hmore, hnew⟩ := h'.children id
    obtain ⟨more', hmore', hnew'⟩ := h.children id
    refine ⟨more ++ more', by rw [hmore', hmore, List.append_assoc], ?_⟩
    intro c hc
    rcases List.mem_append.1 hc with hc | hc
    · exact hnew c hc
    · exact Nat.le_trans h'.size_le (hnew' c hc)

/-- The child of a name is the one that had it before, or one that came later. -/
theorem findChild? (h : t'.Extends t) (id : Nat) (name : String) :
    (∃ x, t.findChild? id name = some x ∧ t'.findChild? id name = some x) ∨
      t.findChild? id name = none ∧ ∀ x, t'.findChild? id name = some x → t.size ≤ x := by
  obtain ⟨more, hmore, hnew⟩ := h.children id
  have hnames : ∀ c ∈ t.childIds id, (t'.node? c).any (fun child => child.name == name) =
      (t.node? c).any fun child => child.name == name := by
    intro c hc
    obtain ⟨node, hnode⟩ := exists_node? (lt_of_mem_childIds hc).2
    obtain ⟨node', hnode', hlabel, -⟩ := h.nodes c node hnode
    simp [hnode, hnode', Node.name, hlabel]
  have hfind : t'.findChild? id name = (t.findChild? id name).or
      (more.find? fun c => (t'.node? c).any fun child => child.name == name) := by
    rw [Tree.findChild?, hmore, List.find?_append, Tree.findChild?]
    congr 1
    exact List.find?_congr hnames
  cases hold : t.findChild? id name with
  | some x => exact .inl ⟨x, rfl, by rw [hfind, hold]; rfl⟩
  | none =>
    refine .inr ⟨rfl, fun x hx => ?_⟩
    rw [hfind, hold, Option.none_or] at hx
    exact hnew x (List.mem_of_find?_eq_some hx)

theorem findChild?_eq_some (h : t'.Extends t) (hx : t.findChild? id name = some x) :
    t'.findChild? id name = some x := by
  obtain ⟨y, hy, hy'⟩ | ⟨hnone, -⟩ := h.findChild? id name
  · rw [hy', ← hy, hx]
  · rw [hnone] at hx
    simp at hx

theorem findChild?_of_lt (h : t'.Extends t) (hx : t'.findChild? id name = some x)
    (hlt : x < t.size) : t.findChild? id name = some x := by
  obtain ⟨y, hy, hy'⟩ | ⟨-, hnew⟩ := h.findChild? id name
  · rw [hy, ← hy', hx]
  · exact absurd hlt (Nat.not_lt.2 (hnew x hx))

/-- Updating a node without taking its label or its redirect away loses nothing. -/
theorem update {change : Node S E M → Node S E M}
    (label : ∀ node, t.node? id = some node → (change node).label = node.label)
    (redirect : ∀ node, node.redirect ≠ none → (change node).redirect ≠ none) :
    (t.update id change).Extends t where
  nodes := by
    intro i node hnode
    rw [node?_update]
    split
    · next hi =>
      rw [hnode]
      exact ⟨_, rfl, label node (hi ▸ hnode), redirect node⟩
    · exact ⟨node, hnode, rfl, fun h => h⟩
  children := fun i => ⟨[], by simp⟩

theorem update_mergeInto (t : Tree S E M) (id : Nat) (b : Sprout S E M) :
    (t.update id b.mergeInto).Extends t := by
  refine update (fun node _ => Sprout.mergeInto_label b node) fun node hne => ?_
  rw [Sprout.mergeInto_redirect_eq]
  cases b.redirect <;> simp [hne]

theorem place (hlt : parent < t.size) (b : Sprout S E M) : (t.place parent b).1.Extends t := by
  obtain ⟨x, -, hplace⟩ | ⟨-, hplace⟩ := t.place_cases parent b
  · rw [hplace]
    exact update_mergeInto t x b
  · rw [hplace]
    refine ⟨fun id node hnode => ?_, fun id => ?_⟩
    · have hne : id ≠ t.size := Nat.ne_of_lt (lt_size_of_node? hnode)
      rw [node?_addNode, if_neg hne]
      split
      · rw [hnode]
        exact ⟨_, rfl, rfl, fun h => h⟩
      · exact ⟨node, hnode, rfl, fun h => h⟩
    · rw [childIds_addNode hlt]
      split
      · exact ⟨[t.size], rfl, by simp⟩
      · exact ⟨[], by simp⟩

theorem graftAll (hlt : parent < t.size) (bs : List (Sprout S E M)) :
    (t.graftAll parent bs).Extends t :=
  graftAll_keeps (P := (·.Extends t)) (fun h hlt b => (place hlt b).trans h) (refl t) hlt bs

theorem graft (hlt : parent < t.size) (b : Sprout S E M) : (t.graft parent b).1.Extends t :=
  graftAll hlt [b]

theorem after (t : Tree S E M) (change : Change S E M) : (t.after change).Extends t := by
  refine after_induction (P := (·.Extends t)) (refl t) (fun _ b hlt => graft hlt b)
    (fun id alter h => ?_) change
  refine update (fun node _ => h.label_eq node) fun node hne => ?_
  obtain hsame | ⟨hsome, -⟩ := h.redirects
  · rw [hsame]
    exact hne
  · exact hsome node

theorem afterAll (t : Tree S E M) (changes : List (Change S E M)) :
    (t.afterAll changes).Extends t := by
  induction changes generalizing t with
  | nil => exact refl t
  | cons change rest ih => exact (ih (t.after change)).trans (after t change)

end Extends

end Tree
end Dispatch
