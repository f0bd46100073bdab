import Dispatch.Proofs.Tree.RedirectsAlone
import Mathlib.Data.List.Nodup
/-!
# Numbers make a tree

The nodes of a tree stand in one array and know one another by number only. `IsArena` says
what makes of such numbers a tree with redirects: the first node is the root and no other is,
every other node is listed as a child once, by a node before it, siblings have different
names, redirects lead to nodes, and only a node that redirects has a modifier or a fork flag.

Most of this holds wherever sprouts are grafted and nodes altered (`Arranged`). That redirects
are sound takes the check of what is added, and that modifiers come with redirects the way in
which sprouts are built (`Tied`).
-/
namespace Dispatch
variable {S E M : Type}

namespace Sprout

/-- Sprouts as they are built, from a label and by one call after the other. -/
inductive Built : Sprout S E M → Prop
  | literal (text : String) : Built (.literal text)
  | argument (name : String) (parser : ArgumentParser S E M) : Built (.argument name parser)
  | child {b c : Sprout S E M} (built : b.Built) (built' : c.Built) : Built (b.child c)
  | withExecutor {b : Sprout S E M} (built : b.Built) (executor : Option E) :
    Built (b.withExecutor executor)
  | withRequirement {b : Sprout S E M} (built : b.Built) (requirement : Option (S → Bool)) :
    Built (b.withRequirement requirement)
  | forward {b : Sprout S E M} (built : b.Built) (target : Nat) (modifier : Option M)
    (forks : Bool) : Built (b.forward target modifier forks)
  | withCompleter {b : Sprout S E M} (built : b.Built) (completer : Option (Completer S E M)) :
    Built (b.withCompleter completer)
  | withLiteral {b : Sprout S E M} (built : b.Built) (text : String) : Built (b.withLiteral text)

/-- A sprout whose redirects lead to the first `n` nodes, and in which only what redirects has
a modifier or a fork flag. -/
inductive Tied (n : Nat) : Sprout S E M → Prop
  | mk {b : Sprout S E M} (target : ∀ x, b.redirect = some x → x < n)
    (modifier : b.redirect = none → b.modifier = none ∧ b.forks = false)
    (children : ∀ c ∈ b.children, c.Tied n) : Tied n b

/-- A sprout whose redirects lead to the first `n` nodes. -/
inductive TargetsBelow (n : Nat) : Sprout S E M → Prop
  | mk {b : Sprout S E M} (target : ∀ x, b.redirect = some x → x < n)
    (children : ∀ c ∈ b.children, c.TargetsBelow n) : TargetsBelow n b

variable {b : Sprout S E M}

/-- No call gives a modifier or a fork flag without a redirect, and children are built too. -/
theorem Built.modifier_and_children (h : b.Built) :
    (b.redirect = none → b.modifier = none ∧ b.forks = false) ∧ ∀ c ∈ b.children, c.Built := by
  induction h with
  | literal text => exact ⟨fun _ => ⟨rfl, rfl⟩, by simp [Sprout.literal, ofLabel]⟩
  | argument name parser => exact ⟨fun _ => ⟨rfl, rfl⟩, by simp [Sprout.argument, ofLabel]⟩
  | @child b c _ built' ih _ =>
    refine ⟨ih.1, fun d hd => ?_⟩
    rcases List.mem_append.1 hd with hd | hd
    · exact ih.2 d hd
    · exact List.mem_singleton.1 hd ▸ built'
  | withExecutor _ _ ih => exact ih
  | withRequirement _ _ ih => exact ih
  | forward _ target modifier forks ih => exact ⟨by simp [Sprout.forward], ih.2⟩
  | withCompleter _ completer ih =>
    rw [Sprout.withCompleter]
    split <;> exact ih
  | withLiteral _ text ih =>
    rw [Sprout.withLiteral]
    split <;> exact ih

end Sprout

/-- What the call adds is built as sprouts are. -/
def Change.Built (change : Change S E M) : Prop :=
  ∀ parent b, change.addition? = some (parent, b) → b.Built

namespace Tree
variable {t : Tree S E M} {id parent i : Nat} {b : Sprout S E M}

theorem nameOf_update {change : Node S E M → Node S E M}
    (label : ∀ node, (change node).label = node.label) (id i : Nat) :
    (t.update id change).nameOf i = t.nameOf i := by
  rw [nameOf, node?_update]
  split
  · cases hnode : t.node? i <;> simp [nameOf, hnode, Node.name, label]
  · rfl

theorem nameOf_addNode (t : Tree S E M) (parent : Nat) (node : Node S E M) (i : Nat) :
    (t.addNode parent node).nameOf i = if i = t.size then node.name else t.nameOf i := by
  rw [nameOf, node?_addNode]
  split
  · rfl
  · split
    · cases hnode : t.node? i <;> simp [nameOf, hnode]
    · rfl

/-! ## What holds however a tree grows -/

/-- The root is alone in having no label and does not redirect, every other node has one
parent, and siblings have different names. -/
structure Arranged (t : Tree S E M) : Prop where
  label : ∀ id node, t.node? id = some node → (node.label = none ↔ id = root)
  plain : ∀ node, t.node? root = some node → node.redirect = none
  parent : ∀ c, c < t.size → c ≠ root → ∃ id, c ∈ t.childIds id
  unique : t.UniqueParents
  names : ∀ id, ((t.childIds id).map t.nameOf).Nodup

theorem arranged_empty : (empty : Tree S E M).Arranged where
  label := by
    intro id node hnode
    obtain ⟨rfl, rfl⟩ := eq_root_of_node?_empty hnode
    simp [Node.root]
  plain := by
    intro node hnode
    rw [(eq_root_of_node?_empty hnode).2]
    rfl
  parent := by
    intro c hc hroot
    exact absurd (Nat.lt_one_iff.1 hc) hroot
  unique := uniqueParents_empty
  names := by simp

namespace Arranged

/-- Changing nodes keeps their order if labels stay and the root gets no redirect. -/
theorem update {change : Node S E M → Node S E M} (h : t.Arranged)
    (label : ∀ node, (change node).label = node.label)
    (plain : id = root → ∀ node, t.node? id = some node → (change node).redirect = none) :
    (t.update id change).Arranged where
  label := by
    intro i node hnode
    rw [node?_update] at hnode
    split at hnode
    · obtain ⟨old, hold, rfl⟩ := Option.map_eq_some_iff.1 hnode
      rw [Node.withChildren_label, label]
      exact h.label i old hold
    · exact h.label i node hnode
  plain := by
    intro node hnode
    rw [node?_update] at hnode
    split at hnode
    · next hid =>
      obtain ⟨old, hold, rfl⟩ := Option.map_eq_some_iff.1 hnode
      exact plain hid.symm old (hid ▸ hold)
    · exact h.plain node hnode
  parent := by
    intro c hc hroot
    rw [size_update] at hc
    simpa only [childIds_update] using h.parent c hc hroot
  unique := by
    intro i j c hi hj
    rw [childIds_update] at hi hj
    exact h.unique i j c hi hj
  names := by
    intro i
    rw [childIds_update, funext (nameOf_update label id)]
    exact h.names i

/-- So does adding a node under a name that no sibling has. -/
theorem addNode {node : Node S E M} (h : t.Arranged) (hlt : parent < t.size)
    (label : node.label ≠ none) (unique : (t.addNode parent node).UniqueParents)
    (fresh : node.name ∉ (t.childIds parent).map t.nameOf) : (t.addNode parent node).Arranged where
  label := by
    intro i found hfound
    obtain ⟨rfl, rfl⟩ | ⟨-, old, children, hold, rfl⟩ := exists_of_node?_addNode hfound
    · have hne : t.size ≠ root := Nat.ne_of_gt t.hasRoot
      exact iff_of_false label hne
    · exact h.label i old hold
  plain := by
    intro found hfound
    obtain ⟨hsize, -⟩ | ⟨-, old, children, hold, rfl⟩ := exists_of_node?_addNode hfound
    · exact absurd hsize (Nat.ne_of_lt t.hasRoot)
    · exact h.plain old hold
  parent := by
    intro c hc hroot
    rw [size_addNode] at hc
    by_cases hnew : c = t.size
    · exact ⟨parent, (mem_childIds_addNode hlt node).2 (.inr ⟨rfl, hnew⟩)⟩
    · obtain ⟨id, hid⟩ := h.parent c (by omega) hroot
      exact ⟨id, (mem_childIds_addNode hlt node).2 (.inl hid)⟩
  unique := unique
  names := by
    intro i
    have hold : (t.childIds i).map (t.addNode parent node).nameOf =
        (t.childIds i).map t.nameOf := by
      refine List.map_congr_left fun c hc => ?_
      rw [nameOf_addNode, if_neg (Nat.ne_of_lt (lt_of_mem_childIds hc).2)]
    rw [childIds_addNode hlt]
    split
    · next hi =>
      rw [List.map_append, hold, List.map_singleton, nameOf_addNode, if_pos rfl]
      refine List.nodup_append.2 ⟨h.names i, by simp, ?_⟩
      intro name hname other hother heq
      obtain rfl := List.mem_singleton.1 hother
      exact fresh (hi ▸ heq ▸ hname)
    · rw [hold]
      exact h.names i

theorem place (h : t.Arranged) (hlt : parent < t.size) (b : Sprout S E M) :
    (t.place parent b).1.Arranged := by
  have hunique := h.unique.place hlt b
  obtain ⟨x, hx, hplace⟩ | ⟨hnone, hplace⟩ := t.place_cases parent b
  · rw [hplace]
    refine h.update (fun node => b.mergeInto_label node) fun hroot => ?_
    exact absurd hroot (Nat.ne_of_gt (root_lt_of_mem_childIds (findChild?_eq_some hx).1))
  · rw [hplace] at hunique ⊢
    refine h.addNode hlt (by simp [Sprout.toNode]) hunique fun hmem => ?_
    obtain ⟨c, hc, hname⟩ := List.mem_map.1 hmem
    obtain ⟨child, hchild⟩ := exists_node? (lt_of_mem_childIds hc).2
    have hsame : child.name = b.toNode.name := by simpa [nameOf, hchild] using hname
    exact findChild?_eq_none hnone hc hchild hsame

theorem graft (h : t.Arranged) (hlt : parent < t.size) (b : Sprout S E M) :
    (t.graft parent b).1.Arranged :=
  graft_keeps Arranged.place h hlt b

theorem after (h : t.Arranged) (change : Change S E M) : (t.after change).Arranged := by
  refine after_induction h (fun parent b hlt => h.graft hlt b) (fun id alter halters => ?_) change
  refine h.update halters.label_eq fun hroot node hnode => ?_
  obtain hsame | ⟨-, found, hfound, -, hlabel⟩ := halters.redirects
  · rw [hsame]
    exact h.plain node (hroot ▸ hnode)
  · exact absurd ((h.label id found hfound).2 hroot) hlabel

end Arranged

theorem Grown.arranged (h : t.Grown) : t.Arranged :=
  h.induction arranged_empty fun _ change ht => ht.after change

/-- Every node but the root is listed once in all the lists of children. -/
theorem Arranged.count_childIds (h : t.Arranged) {c : Nat} (hc : c < t.size) (hroot : c ≠ root) :
    ((List.range t.size).flatMap t.childIds).count c = 1 := by
  have hnodup : ((List.range t.size).flatMap t.childIds).Nodup := by
    refine List.nodup_flatMap.2 ⟨fun i _ => List.Nodup.of_map _ (h.names i), ?_⟩
    refine List.nodup_range.pairwise_of_forall_ne fun i _ j _ hne => ?_
    exact fun d hi hj => hne (h.unique i j d hi hj)
  obtain ⟨i, hi⟩ := h.parent c hc hroot
  have hrange : i < t.size := Nat.lt_trans (lt_of_mem_childIds hi).1 hc
  exact List.count_eq_one_of_mem hnodup (List.mem_flatMap.2 ⟨i, List.mem_range.2 hrange, hi⟩)

/-! ## Redirects -/

/-- Redirects lead to nodes. -/
def RedirectsInside (t : Tree S E M) : Prop :=
  ∀ id node x, t.node? id = some node → node.redirect = some x → x < t.size

theorem redirectsInside_empty : (empty : Tree S E M).RedirectsInside := by
  intro id node x hnode hx
  rw [(eq_root_of_node?_empty hnode).2] at hx
  simp [Node.root] at hx

theorem targetsBelow_of_check (b : Sprout S E M) {q : Option Nat} (h : t.check q b = .ok ()) :
    b.TargetsBelow t.size := by
  have haccepts := check_eq_ok_iff.1 h
  refine ⟨haccepts.target, fun c hc => ?_⟩
  exact targetsBelow_of_check c (haccepts.below c hc)
termination_by sizeOf b
decreasing_by
  have := List.sizeOf_lt_of_mem hc
  cases b
  simp only [Sprout.mk.sizeOf_spec] at this ⊢
  omega

namespace RedirectsInside

theorem update {change : Node S E M → Node S E M} (h : t.RedirectsInside)
    (target : ∀ node x, (change node).redirect = some x → node.redirect = some x ∨ x < t.size) :
    (t.update id change).RedirectsInside := by
  intro i node x hnode hx
  rw [size_update]
  rw [node?_update] at hnode
  split at hnode
  · obtain ⟨old, hold, rfl⟩ := Option.map_eq_some_iff.1 hnode
    rcases target old x hx with hkept | hnew
    · exact h i old x hold hkept
    · exact hnew
  · exact h i node x hnode hx

theorem place (h : t.RedirectsInside) (target : ∀ x, b.redirect = some x → x < t.size) :
    (t.place parent b).1.RedirectsInside := by
  obtain ⟨x, -, hplace⟩ | ⟨-, hplace⟩ := t.place_cases parent b
  · rw [hplace]
    refine h.update fun node x hx => ?_
    rw [Sprout.mergeInto_redirect_eq, Option.or_eq_some_iff] at hx
    rcases hx with hx | ⟨-, hx⟩
    · exact .inr (target x hx)
    · exact .inl hx
  · rw [hplace]
    intro i found x hfound hx
    rw [size_addNode]
    obtain ⟨-, rfl⟩ | ⟨-, old, children, hold, rfl⟩ := exists_of_node?_addNode hfound
    · exact Nat.lt_succ_of_lt (target x hx)
    · exact Nat.lt_succ_of_lt (h i old x hold hx)

theorem graft {n : Nat} (h : t.RedirectsInside) (hn : n ≤ t.size) (hlt : parent < t.size)
    (hb : b.TargetsBelow n) : (t.graft parent b).1.RedirectsInside := by
  have hQ : ∀ b : Sprout S E M, b.TargetsBelow n → ∀ c ∈ b.children, c.TargetsBelow n := by
    rintro b ⟨-, hchildren⟩
    exact hchildren
  refine (graft_induction (P := fun t => t.RedirectsInside ∧ n ≤ t.size) (T := fun _ => True) hQ ?_
    b ⟨h, hn⟩ trivial hlt hb).1.1
  rintro t parent b ⟨h, hn⟩ - - ⟨target, -⟩
  refine ⟨⟨h.place fun x hx => Nat.lt_of_lt_of_le (target x hx) hn, ?_⟩, trivial⟩
  exact Nat.le_trans hn (t.size_le_place parent b).1

theorem register {t' : Tree S E M} {x : Nat} (h : t.RedirectsInside)
    (hregister : t.register b = .ok (t', x)) : t'.RedirectsInside := by
  obtain ⟨-, hadd⟩ := register_eq_ok hregister
  obtain ⟨hlt, hcheck, hgraft⟩ := addChild_eq_ok hadd
  obtain rfl : t' = (t.graft root b).1 := congrArg Prod.fst hgraft
  exact h.graft (Nat.le_refl _) hlt (targetsBelow_of_check b hcheck)

end RedirectsInside

/-- Redirects lead to nodes, and only what redirects has a modifier or a fork flag. -/
structure Tied (t : Tree S E M) : Prop where
  target : ∀ id node x, t.node? id = some node → node.redirect = some x → x < t.size
  modifier : ∀ id node, t.node? id = some node → node.redirect = none →
    node.modifier = none ∧ node.forks = false

theorem tied_empty : (empty : Tree S E M).Tied where
  target := redirectsInside_empty
  modifier := by
    intro id node hnode _
    rw [(eq_root_of_node?_empty hnode).2]
    exact ⟨rfl, rfl⟩

theorem tied_of_check {t : Tree S E M} (b : Sprout S E M) (built : b.Built) {q : Option Nat}
    (h : t.check q b = .ok ()) : b.Tied t.size := by
  obtain ⟨hmodifier, hchildren⟩ := built.modifier_and_children
  have haccepts := check_eq_ok_iff.1 h
  refine ⟨haccepts.target, hmodifier, fun c hc => ?_⟩
  exact tied_of_check c (hchildren c hc) (haccepts.below c hc)
termination_by sizeOf b
decreasing_by
  have := List.sizeOf_lt_of_mem hc
  cases b
  simp only [Sprout.mk.sizeOf_spec] at this ⊢
  omega

namespace Tied

theorem update {change : Node S E M → Node S E M} (h : t.Tied)
    (target : ∀ node x, (change node).redirect = some x → node.redirect = some x ∨ x < t.size)
    (modifier : ∀ node, (change node).redirect = none →
      (node.redirect = none → node.modifier = none ∧ node.forks = false) →
        (change node).modifier = none ∧ (change node).forks = false) :
    (t.update id change).Tied where
  target := RedirectsInside.update h.target target
  modifier := by
    intro i node hnode hplain
    rw [node?_update] at hnode
    split at hnode
    · obtain ⟨old, hold, rfl⟩ := Option.map_eq_some_iff.1 hnode
      exact modifier old hplain (h.modifier i old hold)
    · exact h.modifier i node hnode hplain

theorem place {n : Nat} (h : t.Tied) (hn : n ≤ t.size) (hb : b.Tied n) :
    (t.place parent b).1.Tied := by
  obtain ⟨target, modifier, -⟩ := hb
  have hinside : (t.place parent b).1.RedirectsInside :=
    RedirectsInside.place h.target fun x hx => Nat.lt_of_lt_of_le (target x hx) hn
  refine ⟨hinside, fun i found hfound hplain => ?_⟩
  obtain ⟨x, -, hplace⟩ | ⟨-, hplace⟩ := t.place_cases parent b
  · rw [hplace, node?_update] at hfound
    split at hfound
    · obtain ⟨old, hold, rfl⟩ := Option.map_eq_some_iff.1 hfound
      rw [Node.withChildren_redirect, Sprout.mergeInto_redirect_eq, Option.or_eq_none_iff] at hplain
      obtain ⟨hmodifier, hforks⟩ := Sprout.mergeInto_modifier hplain.1 old
      refine ⟨hmodifier.trans ?_, hforks.trans ?_⟩
      · exact (h.modifier i old hold hplain.2).1
      · exact (h.modifier i old hold hplain.2).2
    · exact h.modifier i found hfound hplain
  · rw [hplace] at hfound
    obtain ⟨-, rfl⟩ | ⟨-, old, children, hold, rfl⟩ := exists_of_node?_addNode hfound
    · exact modifier hplain
    · exact h.modifier i old hold hplain

theorem graft {n : Nat} (h : t.Tied) (hn : n ≤ t.size) (hlt : parent < t.size) (hb : b.Tied n) :
    (t.graft parent b).1.Tied := by
  have hQ : ∀ b : Sprout S E M, b.Tied n → ∀ c ∈ b.children, c.Tied n := by
    rintro b ⟨-, -, hchildren⟩
    exact hchildren
  refine (graft_induction (P := fun t => t.Tied ∧ n ≤ t.size) (T := fun _ => True) hQ ?_ b ⟨h, hn⟩
    trivial hlt hb).1.1
  rintro t parent b ⟨h, hn⟩ - - hb
  exact ⟨⟨h.place hn hb, Nat.le_trans hn (t.size_le_place parent b).1⟩, trivial⟩

theorem after {change : Change S E M} (h : t.Tied) (built : change.Built) :
    (t.after change).Tied := by
  rw [Tree.after]
  split
  · next t' henact =>
    obtain ⟨parent, b, hadds, hlt, hcheck, rfl⟩ | ⟨id, alter, -, halters, rfl⟩ :=
      enact_cases henact
    · exact h.graft (Nat.le_refl _) hlt (tied_of_check b (built parent b hadds) hcheck)
    · refine h.update halters.target fun node hplain hold => ?_
      rw [halters.modifier_eq, halters.forks_eq]
      refine hold ?_
      obtain hsame | ⟨hsome, -⟩ := halters.redirects
      · rwa [hsame] at hplain
      · exact absurd hplain (hsome node)
  · exact h

theorem afterAll {changes : List (Change S E M)} (h : t.Tied)
    (built : ∀ change ∈ changes, change.Built) : (t.afterAll changes).Tied := by
  induction changes generalizing t with
  | nil => exact h
  | cons change rest ih =>
    exact ih (h.after (built change List.mem_cons_self)) fun other hother =>
      built other (List.mem_cons_of_mem change hother)

end Tied

/-! ## Arenas -/

/-- The numbers of the nodes make a tree with redirects. -/
structure IsArena (t : Tree S E M) : Prop where
  /-- The first node is the root, and no other is. -/
  root_iff : ∀ id node, t.node? id = some node → (node.label = none ↔ id = root)
  root_plain : ∀ node, t.node? root = some node → node.redirect = none
  child_lt : ∀ id c, c ∈ t.childIds id → c < t.size
  target_lt : ∀ id node x, t.node? id = some node → node.redirect = some x → x < t.size
  /-- Every other node is listed as a child once in the whole arena. -/
  listed : ∀ c, c < t.size → c ≠ root → ((List.range t.size).flatMap t.childIds).count c = 1
  /-- What lists a child comes before it. -/
  parent_lt : ∀ id c, c ∈ t.childIds id → id < c
  names : ∀ id, ((t.childIds id).map t.nameOf).Nodup
  modifier : ∀ id node, t.node? id = some node → node.modifier ≠ none ∨ node.forks = true →
    node.redirect ≠ none

/-- Whatever calls are made, in whatever order and refused or not, they lead to an arena. -/
theorem isArena_afterAll {changes : List (Change S E M)}
    (built : ∀ change ∈ changes, change.Built) : (empty.afterAll changes).IsArena := by
  have harranged : (empty.afterAll changes).Arranged := Grown.arranged ⟨changes, rfl⟩
  have htied : (empty.afterAll changes).Tied := tied_empty.afterAll built
  refine ⟨harranged.label, harranged.plain, fun id c hc => (lt_of_mem_childIds hc).2, htied.target,
    fun c => harranged.count_childIds, fun id c hc => (lt_of_mem_childIds hc).1, harranged.names,
    fun id node hnode hcarries hplain => ?_⟩
  obtain ⟨hmodifier, hforks⟩ := htied.modifier id node hnode hplain
  rcases hcarries with hcarries | hcarries
  · exact hcarries hmodifier
  · rw [hforks] at hcarries
    exact Bool.false_ne_true hcarries

/-- `give` with a child, `each` that forks back to the root, and `give` once more. Then `each`
is pointed at `give`, and a redirect of `give`, which has a child, is refused. -/
def giveAndEach : List (Change Principal Nat Unit) :=
  [.register ((Sprout.literal "give").child (.literal "stone")),
    .register ((Sprout.literal "each").forward root (some ()) true),
    .register ((Sprout.literal "give").child ((Sprout.literal "stone").withExecutor (some 7))),
    .setRedirect 3 1, .setRedirect 1 root]

theorem isArena_giveAndEach : (∀ change ∈ giveAndEach, change.Built) ∧
    (empty.afterAll giveAndEach).IsArena ∧ (empty.afterAll giveAndEach).size = 4 := by
  have built : ∀ change ∈ giveAndEach, change.Built := by
    simp only [giveAndEach, List.forall_mem_cons]
    refine ⟨?_, ?_, ?_, ?_, ?_, by simp⟩
    · rintro _ _ ⟨⟩
      exact .child (.literal "give") (.literal "stone")
    · rintro _ _ ⟨⟩
      exact .forward (.literal "each") root (some ()) true
    · rintro _ _ ⟨⟩
      exact .child (.literal "give") (.withExecutor (.literal "stone") (some 7))
    · rintro _ _ ⟨⟩
    · rintro _ _ ⟨⟩
  exact ⟨built, isArena_afterAll built, rfl⟩

end Tree
end Dispatch
