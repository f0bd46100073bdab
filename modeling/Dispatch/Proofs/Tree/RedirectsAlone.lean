import Dispatch.Proofs.Tree.Change
/-!
# Redirects without children

Where a node redirects, matching goes on elsewhere, so a node is meant to have a redirect or
children and not both. The check of a sprout and of a redirect that is set sees to it, but it
misses two cases: the node under which a sprout is added may redirect itself, and two sprouts
of one name within an added one become one node, of which one may bring the redirect and the
other the children (`Sprout.Splits`). These are all: `redirectsAlone_afterAll_iff` says that a
tree has no node with both exactly if no call that led to it was of this kind.

A sprout lands at a node (`Lands`) where its name, and those of the sprouts above it, lead in
the tree that comes of it. What the tree has beyond what it had before is what the sprouts
brought that landed there (`Traces`), and since a node has one parent, sprouts that land at
one node are sprouts that meet.
-/
namespace Dispatch
variable {S E M : Type}

namespace Sprout

/-- Two sprouts that become one node when the listed ones are added under one node. -/
inductive Meets (bs : List (Sprout S E M)) : Sprout S E M → Sprout S E M → Prop
  | beside {b c : Sprout S E M} (mem : b ∈ bs) (mem' : c ∈ bs) (name_eq : b.name = c.name) :
    Meets bs b c
  | deeper {b c b' c' : Sprout S E M} (above : Meets bs b c) (mem : b' ∈ b.children)
    (mem' : c' ∈ c.children) (name_eq : b'.name = c'.name) : Meets bs b' c'

/-- Of two sprouts within the sprout that become one node, one redirects and one has
children. -/
def Splits (b : Sprout S E M) : Prop :=
  ∃ c d, Meets [b] c d ∧ c.redirect ≠ none ∧ d.children ≠ []

end Sprout

namespace Tree
variable {t t' T : Tree S E M} {id parent x y : Nat} {b c : Sprout S E M}
  {bs : List (Sprout S E M)} {name : String}

/-- The node redirects. -/
def RedirectsAt (t : Tree S E M) (id : Nat) : Prop := (t.node? id).bind Node.redirect ≠ none

/-- No node has a redirect and children. -/
def RedirectsAlone (t : Tree S E M) : Prop :=
  ∀ id node, t.node? id = some node → node.redirect = none ∨ node.children = []

theorem redirectsAt_iff {node : Node S E M} (hnode : t.node? id = some node) :
    t.RedirectsAt id ↔ node.redirect ≠ none := by
  rw [RedirectsAt, hnode, Option.bind_some]

theorem RedirectsAt.exists_node? (h : t.RedirectsAt id) :
    ∃ node, t.node? id = some node ∧ node.redirect ≠ none := by
  cases hnode : t.node? id with
  | none => simp [RedirectsAt, hnode] at h
  | some node => exact ⟨node, rfl, (redirectsAt_iff hnode).1 h⟩

theorem redirectsAlone_iff : t.RedirectsAlone ↔ ∀ id, t.RedirectsAt id → t.childIds id = [] := by
  constructor
  · intro h id hid
    obtain ⟨node, hnode, hredirect⟩ := hid.exists_node?
    rw [childIds_eq hnode]
    exact (h id node hnode).resolve_left hredirect
  · intro h id node hnode
    by_cases hredirect : node.redirect = none
    · exact .inl hredirect
    · rw [← childIds_eq hnode]
      exact .inr (h id ((redirectsAt_iff hnode).2 hredirect))

theorem redirectsAlone_empty : (empty : Tree S E M).RedirectsAlone := by
  intro id node hnode
  rw [(eq_root_of_node?_empty hnode).2]
  exact .inl rfl

theorem Extends.redirectsAt (h : t'.Extends t) (hid : t.RedirectsAt id) : t'.RedirectsAt id := by
  obtain ⟨node, hnode, hredirect⟩ := hid.exists_node?
  obtain ⟨node', hnode', -, hkept⟩ := h.nodes id node hnode
  exact (redirectsAt_iff hnode').2 (hkept hredirect)

theorem Extends.childIds_ne_nil (h : t'.Extends t) (hid : t.childIds id ≠ []) :
    t'.childIds id ≠ [] := by
  obtain ⟨more, hmore, -⟩ := h.children id
  rw [hmore]
  exact List.append_ne_nil_of_left_ne_nil hid more

/-- A node with a redirect and children keeps both. -/
theorem Extends.redirectsAlone (h : t'.Extends t) (alone : t'.RedirectsAlone) :
    t.RedirectsAlone := by
  rw [redirectsAlone_iff] at alone ⊢
  intro id hredirects
  by_contra hchildren
  exact h.childIds_ne_nil hchildren (alone id (h.redirectsAt hredirects))

/-! ## What is checked -/

/-- A label and a redirect pass the check against a node, if any, exactly if the redirect
leads to a node, the two are of one kind, and where one of them redirects, neither has
children. -/
theorem checkNode_eq_ok_iff {existing : Option (Node S E M)} {label : Label S E M}
    {redirect : Option Nat} {hasChildren : Bool} :
    t.checkNode existing label redirect hasChildren = .ok () ↔
      (∀ x, redirect = some x → x < t.size) ∧
      (∀ node, existing = some node → node.isLiteral = label.isLiteral) ∧
      ((redirect ≠ none ∨ ∃ node, existing = some node ∧ node.redirect ≠ none) →
        hasChildren = false ∧ ∀ node, existing = some node → node.children = []) := by
  have hsteps : t.checkNode existing label redirect hasChildren = .ok () ↔
      (∀ x, redirect = some x → t.checkId x = .ok ()) ∧
      (existing.any fun node => node.isLiteral != label.isLiteral) = false ∧
      ((redirect.isSome || existing.any fun node => node.redirect.isSome) &&
        (hasChildren || existing.any fun node => !node.children.isEmpty)) = false := by
    simp only [checkNode, bind, Except.bind, pure, Except.pure, throw, throwThe,
      MonadExceptOf.throw]
    generalize (existing.any fun node => node.isLiteral != label.isLiteral) = differs
    generalize ((redirect.isSome || existing.any fun node => node.redirect.isSome) &&
      (hasChildren || existing.any fun node => !node.children.isEmpty)) = mixes
    cases redirect with
    | none => cases differs <;> cases mixes <;> simp
    | some x => cases hid : t.checkId x <;> cases differs <;> cases mixes <;> simp [hid]
  rw [hsteps]
  simp only [checkId_eq_ok_iff, ← Option.isSome_iff_ne_none]
  cases existing <;> cases redirect <;> simp

/-- Sprouts that are to go under one node pass the check exactly if each of them does and none
clashes with one before it. -/
theorem checkSiblings_eq_ok_iff {q : Option Nat} {earlier : List (Label S E M)} :
    t.checkSiblings q earlier bs = .ok () ↔
      (∀ b ∈ bs, t.check q b = .ok ()) ∧
      (∀ label ∈ earlier, ∀ b ∈ bs, Sprout.clashes label b.label = false) ∧
      bs.Pairwise fun b c => Sprout.clashes b.label c.label = false := by
  induction bs generalizing earlier with
  | nil => simp [checkSiblings, pure, Except.pure]
  | cons first rest ih =>
    have hstep : t.checkSiblings q earlier (first :: rest) = .ok () ↔
        (earlier.any fun label => Sprout.clashes label first.label) = false ∧
        t.check q first = .ok () ∧
        t.checkSiblings q (earlier ++ [first.label]) rest = .ok () := by
      simp only [checkSiblings, bind, Except.bind, throw, throwThe, MonadExceptOf.throw]
      generalize (earlier.any fun label => Sprout.clashes label first.label) = clashes
      cases clashes <;> cases t.check q first <;> simp
    rw [hstep, ih, List.pairwise_cons, List.any_eq_false]
    simp only [List.mem_append, List.mem_singleton, or_imp, forall_and, List.forall_mem_cons,
      forall_eq, Bool.not_eq_true]
    constructor
    · rintro ⟨hfirst, hcheck, hrest, ⟨hearlier, hbeside⟩, hpairwise⟩
      exact ⟨⟨hcheck, hrest⟩, ⟨hfirst, hearlier⟩, hbeside, hpairwise⟩
    · rintro ⟨⟨hcheck, hrest⟩, ⟨hfirst, hearlier⟩, hbeside, hpairwise⟩
      exact ⟨hfirst, hcheck, hrest, ⟨hearlier, hbeside⟩, hpairwise⟩

/-- What a sprout meets that passes the check, where `existing` is the node, if any, into
which it is to be merged. -/
structure Accepts (t : Tree S E M) (existing : Option Nat) (b : Sprout S E M) : Prop where
  target : ∀ x, b.redirect = some x → x < t.size
  kind : ∀ x node, existing = some x → t.node? x = some node → node.isLiteral = b.isLiteral
  /-- Where the sprout or the node redirects, neither of them has children. -/
  alone : (b.redirect ≠ none ∨ ∃ x, existing = some x ∧ t.RedirectsAt x) →
    b.children = [] ∧ ∀ x, existing = some x → t.childIds x = []
  siblings : b.children.Pairwise fun c d => Sprout.clashes c.label d.label = false
  below : ∀ c ∈ b.children, t.check existing c = .ok ()

theorem check_eq_ok_iff {q : Option Nat} :
    t.check q b = .ok () ↔ t.Accepts (q.bind (t.findChild? · b.name)) b := by
  have hstep : t.check q b = .ok () ↔
      t.checkNode ((q.bind (t.findChild? · b.name)).bind t.node?) b.label b.redirect
        (!b.children.isEmpty) = .ok () ∧
      t.checkSiblings (q.bind (t.findChild? · b.name)) [] b.children = .ok () := by
    obtain ⟨label, children, executor, requirement, redirect, modifier, forks⟩ := b
    simp only [check, bind, Except.bind, Sprout.name]
    cases t.checkNode ((q.bind (t.findChild? · label.name)).bind t.node?) label redirect
      (!children.isEmpty) <;> simp
  have hnode : ∀ x, q.bind (t.findChild? · b.name) = some x → ∃ node, t.node? x = some node := by
    intro x hx
    obtain ⟨p, -, hfound⟩ := Option.bind_eq_some_iff.1 hx
    obtain ⟨-, node, hnode, -⟩ := findChild?_eq_some hfound
    exact ⟨node, hnode⟩
  rw [hstep, checkNode_eq_ok_iff, checkSiblings_eq_ok_iff]
  generalize q.bind (t.findChild? · b.name) = existing at hnode ⊢
  constructor
  · rintro ⟨⟨target, kind, alone⟩, below, -, siblings⟩
    refine ⟨target, fun x node hx hlookup => kind node (by rw [hx]; exact hlookup), fun h => ?_,
      siblings, below⟩
    obtain ⟨hbare, hchildren⟩ := alone <| h.imp_right <| by
      rintro ⟨x, rfl, hredirects⟩
      obtain ⟨node, hlookup, hredirect⟩ := hredirects.exists_node?
      exact ⟨node, hlookup, hredirect⟩
    refine ⟨by simpa using hbare, ?_⟩
    rintro x rfl
    obtain ⟨node, hlookup⟩ := hnode x rfl
    rw [childIds_eq hlookup]
    exact hchildren node hlookup
  · rintro ⟨target, kind, alone, siblings, below⟩
    refine ⟨⟨target, fun node hexisting => ?_, fun h => ?_⟩, below, by simp, siblings⟩
    · obtain ⟨x, hx, hlookup⟩ := Option.bind_eq_some_iff.1 hexisting
      exact kind x node hx hlookup
    · obtain ⟨hbare, hchildren⟩ := alone <| h.imp_right <| by
        rintro ⟨node, hexisting, hredirect⟩
        obtain ⟨x, hx, hlookup⟩ := Option.bind_eq_some_iff.1 hexisting
        exact ⟨x, hx, (redirectsAt_iff hlookup).2 hredirect⟩
      refine ⟨by simpa using hbare, fun node hexisting => ?_⟩
      obtain ⟨x, hx, hlookup⟩ := Option.bind_eq_some_iff.1 hexisting
      rw [← childIds_eq hlookup]
      exact hchildren x hx

/-! ## What grafting brings -/

/-- The node of a placed sprout is the child of its name. -/
theorem findChild?_place (hlt : parent < t.size) (b : Sprout S E M) :
    (t.place parent b).1.findChild? parent b.name = some (t.place parent b).2 := by
  have hextends := Extends.place hlt b
  obtain ⟨x, hx, hplace⟩ | ⟨hnone, hplace⟩ := t.place_cases parent b
  · rw [hplace] at hextends ⊢
    exact hextends.findChild?_eq_some hx
  · rw [hplace] at hextends ⊢
    have hmem := (mem_childIds_addNode hlt b.toNode).2 (.inr ⟨rfl, rfl⟩)
    have hlookup : (t.addNode parent b.toNode).node? t.size = some (b.toNode.withChildren []) := by
      rw [node?_addNode, if_pos rfl]
    obtain ⟨y, hy⟩ : ∃ y, (t.addNode parent b.toNode).findChild? parent b.name = some y :=
      findChild?_isSome hmem hlookup
    -- The children from before have other names.
    obtain ⟨z, hz, -⟩ | ⟨-, hnew⟩ := hextends.findChild? parent b.name
    · rw [hnone] at hz
      simp at hz
    · rcases (mem_childIds_addNode hlt b.toNode).1 (findChild?_eq_some hy).1 with hold | ⟨-, rfl⟩
      · exact absurd (lt_of_mem_childIds hold).2 (Nat.not_lt.2 (hnew y hy))
      · exact hy

/-- It is the only one that may have a redirect since then. -/
theorem redirectsAt_place_iff (t : Tree S E M) (parent : Nat) (b : Sprout S E M) (id : Nat) :
    (t.place parent b).1.RedirectsAt id ↔
      t.RedirectsAt id ∨ id = (t.place parent b).2 ∧ b.redirect ≠ none := by
  obtain ⟨x, hx, hplace⟩ | ⟨-, hplace⟩ := t.place_cases parent b
  · obtain ⟨-, node, hnode, -⟩ := findChild?_eq_some hx
    simp only [hplace, RedirectsAt, node?_update]
    by_cases hid : id = x
    · rw [if_pos hid, hid, hnode]
      simp only [Option.map_some, Option.bind_some, Node.withChildren_redirect,
        Sprout.mergeInto_redirect_eq, ne_eq, Option.or_eq_none_iff, not_and_or, true_and]
      exact or_comm
    · simp [hid]
  · have hnothing := node?_eq_none (Nat.le_refl t.size)
    simp only [hplace, RedirectsAt, node?_addNode]
    by_cases hid : id = t.size
    · simp [hid, hnothing, Sprout.toNode]
    · rw [if_neg hid]
      split
      · cases t.node? id <;> simp [hid]
      · simp [hid]

/-- The node above is the only one that may have children since then. -/
theorem childIds_place_ne_nil (hlt : parent < t.size) (b : Sprout S E M)
    (h : (t.place parent b).1.childIds id ≠ []) : t.childIds id ≠ [] ∨ id = parent := by
  obtain ⟨x, -, hplace⟩ | ⟨-, hplace⟩ := t.place_cases parent b
  · rw [hplace, childIds_update] at h
    exact .inl h
  · rw [hplace, childIds_addNode hlt] at h
    split at h
    · next hparent => exact .inr hparent
    · exact .inl h

/-- The node has the redirect of the sprout, if that has one, and children for those of the
sprout, which hold these. -/
inductive Holds (t : Tree S E M) : Nat → Sprout S E M → Prop
  | mk {x : Nat} {b : Sprout S E M} (redirects : b.redirect ≠ none → t.RedirectsAt x)
    (found : ∀ c ∈ b.children, ∃ y, t.findChild? x c.name = some y)
    (children : ∀ c ∈ b.children, ∀ y, t.findChild? x c.name = some y → t.Holds y c) :
    t.Holds x b

theorem Extends.holds (h : t'.Extends t) (hx : t.Holds x b) : t'.Holds x b := by
  induction hx with
  | mk redirects found _ ih =>
    refine ⟨fun hredirect => h.redirectsAt (redirects hredirect), fun c hc => ?_,
      fun c hc y hy => ?_⟩
    · obtain ⟨y, hy⟩ := found c hc
      exact ⟨y, h.findChild?_eq_some hy⟩
    · obtain ⟨z, hz⟩ := found c hc
      obtain rfl : z = y := Option.some.inj ((h.findChild?_eq_some hz).symm.trans hy)
      exact ih c hc z hz

mutual

/-- A grafted sprout is the child of its name and is held there. -/
theorem graft_holds : ∀ (b : Sprout S E M) {t : Tree S E M} {parent : Nat}, parent < t.size →
    (t.graft parent b).1.findChild? parent b.name = some (t.graft parent b).2 ∧
      (t.graft parent b).1.Holds (t.graft parent b).2 b
  | ⟨label, children, executor, requirement, redirect, modifier, forks⟩, t, parent, hlt => by
    have hfound := findChild?_place hlt
      ⟨label, children, executor, requirement, redirect, modifier, forks⟩
    have hlt' := (t.size_le_place parent
      ⟨label, children, executor, requirement, redirect, modifier, forks⟩).2
    have hall := graftAll_holds children hlt'
    have hextends := Extends.graftAll hlt' children
    rw [graft_eq]
    refine ⟨hextends.findChild?_eq_some hfound, fun hne => ?_, fun c hc => ?_, fun c hc y hy => ?_⟩
    · exact hextends.redirectsAt ((redirectsAt_place_iff ..).2 (.inr ⟨rfl, hne⟩))
    · obtain ⟨y, hy, -⟩ := hall c hc
      exact ⟨y, hy⟩
    · obtain ⟨z, hz, hholds⟩ := hall c hc
      obtain rfl : z = y := Option.some.inj (hz.symm.trans hy)
      exact hholds

theorem graftAll_holds : ∀ (bs : List (Sprout S E M)) {t : Tree S E M} {parent : Nat},
    parent < t.size → ∀ b ∈ bs, ∃ x, (t.graftAll parent bs).findChild? parent b.name = some x ∧
      (t.graftAll parent bs).Holds x b
  | [], _, _, _ => by simp
  | first :: rest, t, parent, hlt => by
    have hlt' := Nat.lt_of_lt_of_le hlt (Extends.graft hlt first).size_le
    intro b hb
    rw [graftAll]
    rcases List.mem_cons.1 hb with hfirst | hb
    · -- What is grafted later leaves the first sprout in its place.
      obtain ⟨hfound, hholds⟩ := graft_holds first hlt
      have hextends := Extends.graftAll hlt' rest
      rw [hfirst]
      exact ⟨_, hextends.findChild?_eq_some hfound, hextends.holds hholds⟩
    · exact graftAll_holds rest hlt' b hb

end

/-- Sprouts that meet are held by one node. -/
theorem exists_holds_of_meets (held : ∀ b ∈ bs, ∃ x, T.findChild? parent b.name = some x ∧
    T.Holds x b) (h : Sprout.Meets bs b c) : ∃ x, T.Holds x b ∧ T.Holds x c := by
  induction h with
  | beside mem mem' name_eq =>
    obtain ⟨x, hx, hb⟩ := held _ mem
    obtain ⟨y, hy, hc⟩ := held _ mem'
    rw [name_eq, hy] at hx
    obtain rfl := Option.some.inj hx
    exact ⟨y, hb, hc⟩
  | deeper _ mem mem' name_eq ih =>
    obtain ⟨x, ⟨-, found, below⟩, ⟨-, found', below'⟩⟩ := ih
    obtain ⟨y, hy⟩ := found _ mem
    exact ⟨y, below _ mem y hy, below' _ mem' y (name_eq ▸ hy)⟩

/-! ## Where sprouts land -/

/-- Sprouts added under `parent` lead to the node in the tree that has come of it. -/
inductive Lands (T : Tree S E M) (parent : Nat) (bs : List (Sprout S E M)) :
    Nat → Sprout S E M → Prop
  | top {b : Sprout S E M} {x : Nat} (mem : b ∈ bs) (found : T.findChild? parent b.name = some x) :
    T.Lands parent bs x b
  | deeper {b c : Sprout S E M} {x y : Nat} (above : T.Lands parent bs x b) (mem : c ∈ b.children)
    (found : T.findChild? x c.name = some y) : T.Lands parent bs y c

namespace Lands

theorem mono {more : List (Sprout S E M)} (hsub : bs ⊆ more) (h : T.Lands parent bs x b) :
    T.Lands parent more x b := by
  induction h with
  | top mem found => exact .top (hsub mem) found
  | deeper _ mem found ih => exact .deeper ih mem found

/-- What lands below a landed sprout lands with it. -/
theorem trans (above : T.Lands parent bs x b) (h : T.Lands x b.children y c) :
    T.Lands parent bs y c := by
  induction h with
  | top mem found => exact .deeper above mem found
  | deeper _ mem found ih => exact .deeper ih mem found

theorem parent_lt (h : T.Lands parent bs x b) : parent < x := by
  induction h with
  | top _ found => exact (lt_of_mem_childIds (findChild?_eq_some found).1).1
  | deeper _ _ found ih =>
    exact Nat.lt_trans ih (lt_of_mem_childIds (findChild?_eq_some found).1).1

/-- Sprouts that land at one node meet. -/
theorem meets (unique : T.UniqueParents) (h : T.Lands parent bs x b)
    (h' : T.Lands parent bs x c) : Sprout.Meets bs b c := by
  induction h generalizing c with
  | top mem found =>
    obtain ⟨hchild, node, hnode, hname⟩ := findChild?_eq_some found
    cases h' with
    | top mem' found' =>
      obtain ⟨-, node', hnode', hname'⟩ := findChild?_eq_some found'
      obtain rfl : node = node' := Option.some.inj (hnode.symm.trans hnode')
      exact .beside mem mem' (hname.symm.trans hname')
    | deeper above _ found' =>
      have hparent := unique _ _ _ hchild (findChild?_eq_some found').1
      exact absurd above.parent_lt (hparent ▸ Nat.lt_irrefl _)
  | deeper above mem found ih =>
    obtain ⟨hchild, node, hnode, hname⟩ := findChild?_eq_some found
    cases h' with
    | top mem' found' =>
      have hparent := unique _ _ _ hchild (findChild?_eq_some found').1
      exact absurd above.parent_lt (hparent ▸ Nat.lt_irrefl _)
    | deeper above' mem' found' =>
      obtain ⟨hchild', node', hnode', hname'⟩ := findChild?_eq_some found'
      obtain rfl : node = node' := Option.some.inj (hnode.symm.trans hnode')
      obtain rfl := unique _ _ _ hchild hchild'
      exact .deeper (ih above') mem mem' (hname.symm.trans hname')

/-- A sprout that lands at a node from before was checked against that node. -/
theorem checked (hextends : T.Extends t)
    (hchecked : ∀ b ∈ bs, t.check (some parent) b = .ok ()) (h : T.Lands parent bs x b) :
    ∃ q, t.check q b = .ok () ∧
      (x < t.size → q.bind (t.findChild? · b.name) = some x) := by
  induction h with
  | top mem found =>
    exact ⟨some parent, hchecked _ mem, fun hx => hextends.findChild?_of_lt found hx⟩
  | @deeper b c x y _ mem found ih =>
    obtain ⟨q, hq, hexisting⟩ := ih
    refine ⟨q.bind (t.findChild? · b.name), (check_eq_ok_iff.1 hq).below c mem, fun hy => ?_⟩
    have hxy := (lt_of_mem_childIds (findChild?_eq_some found).1).1
    rw [hexisting (Nat.lt_trans hxy hy)]
    exact hextends.findChild?_of_lt found hy

end Lands

/-- What a tree has beyond an earlier one is what sprouts brought, which land in `T` when
added under `parent`; besides, the parent may have children now. -/
structure Traces (T : Tree S E M) (parent : Nat) (bs : List (Sprout S E M)) (t t' : Tree S E M) :
    Prop where
  redirects : ∀ id, t'.RedirectsAt id →
    t.RedirectsAt id ∨ ∃ b, T.Lands parent bs id b ∧ b.redirect ≠ none
  children : ∀ id, t'.childIds id ≠ [] →
    t.childIds id ≠ [] ∨ id = parent ∧ bs ≠ [] ∨ ∃ b, T.Lands parent bs id b ∧ b.children ≠ []

mutual

/-- What grafting brings comes from sprouts that land. -/
theorem graft_traces : ∀ (b : Sprout S E M) {t : Tree S E M} {parent : Nat}, parent < t.size →
    T.Extends (t.graft parent b).1 → Traces T parent [b] t (t.graft parent b).1
  | ⟨label, children, executor, requirement, redirect, modifier, forks⟩, t, parent, hlt,
      hextends => by
    have hfound := findChild?_place hlt
      ⟨label, children, executor, requirement, redirect, modifier, forks⟩
    have hlt' := (t.size_le_place parent
      ⟨label, children, executor, requirement, redirect, modifier, forks⟩).2
    rw [graft_eq] at hextends ⊢
    have hall := graftAll_traces children hlt' hextends
    have hkept := hextends.trans (Extends.graftAll hlt' children)
    have hlands := Lands.top (T := T) (List.mem_singleton_self _) (hkept.findChild?_eq_some hfound)
    refine ⟨fun id hid => ?_, fun id hid => ?_⟩
    · rcases hall.redirects id hid with hid | ⟨c, hc, hne⟩
      · rcases (redirectsAt_place_iff ..).1 hid with hid | ⟨rfl, hne⟩
        · exact .inl hid
        · exact .inr ⟨_, hlands, hne⟩
      · exact .inr ⟨c, hlands.trans hc, hne⟩
    · rcases hall.children id hid with hid | ⟨rfl, hne⟩ | ⟨c, hc, hne⟩
      · rcases childIds_place_ne_nil hlt _ hid with hid | rfl
        · exact .inl hid
        · exact .inr (.inl ⟨rfl, by simp⟩)
      · exact .inr (.inr ⟨_, hlands, hne⟩)
      · exact .inr (.inr ⟨c, hlands.trans hc, hne⟩)

theorem graftAll_traces : ∀ (bs : List (Sprout S E M)) {t : Tree S E M} {parent : Nat},
    parent < t.size → T.Extends (t.graftAll parent bs) → Traces T parent bs t (t.graftAll parent bs)
  | [], t, parent, _, _ => by
    rw [graftAll]
    exact ⟨fun _ => .inl, fun _ => .inl⟩
  | first :: rest, t, parent, hlt, hextends => by
    have hlt' := Nat.lt_of_lt_of_le hlt (Extends.graft hlt first).size_le
    rw [graftAll] at hextends ⊢
    have hrest := graftAll_traces rest hlt' hextends
    have hfirst := graft_traces first hlt (hextends.trans (Extends.graftAll hlt' rest))
    have hsub : [first] ⊆ first :: rest := by simp
    have hsub' : rest ⊆ first :: rest := List.subset_cons_self first rest
    refine ⟨fun id hid => ?_, fun id hid => ?_⟩
    · rcases hrest.redirects id hid with hid | ⟨c, hc, hne⟩
      · rcases hfirst.redirects id hid with hid | ⟨c, hc, hne⟩
        · exact .inl hid
        · exact .inr ⟨c, hc.mono hsub, hne⟩
      · exact .inr ⟨c, hc.mono hsub', hne⟩
    · rcases hrest.children id hid with hid | ⟨rfl, -⟩ | ⟨c, hc, hne⟩
      · rcases hfirst.children id hid with hid | ⟨rfl, -⟩ | ⟨c, hc, hne⟩
        · exact .inl hid
        · exact .inr (.inl ⟨rfl, by simp⟩)
        · exact .inr (.inr ⟨c, hc.mono hsub, hne⟩)
      · exact .inr (.inl ⟨rfl, by simp⟩)
      · exact .inr (.inr ⟨c, hc.mono hsub', hne⟩)

end

/-! ## Which calls give a node both -/

/-- A checked sprout under a node that does not redirect gives no node both, unless two of its
own sprouts do. -/
theorem RedirectsAlone.graft (alone : t.RedirectsAlone) (unique : t.UniqueParents)
    (hlt : parent < t.size) (checked : t.check (some parent) b = .ok ())
    (hparent : ¬t.RedirectsAt parent) (hsplits : ¬b.Splits) :
    (t.graft parent b).1.RedirectsAlone := by
  have hextends := Extends.graft hlt b
  have htraces := graft_traces b hlt (Extends.refl _)
  have hchecked : ∀ c ∈ [b], t.check (some parent) c = .ok () := by simpa using checked
  rw [redirectsAlone_iff] at alone ⊢
  intro id hredirects
  by_contra hchildren
  -- Both the redirect and the children were there before, or came with a sprout that landed here.
  rcases htraces.redirects id hredirects with hold | ⟨c, hc, hredirect⟩
  · rcases htraces.children id hchildren with hold' | ⟨rfl, -⟩ | ⟨d, hd, hbranches⟩
    · exact hold' (alone id hold)
    · exact hparent hold
    · obtain ⟨node, hnode, -⟩ := hold.exists_node?
      obtain ⟨q, hq, hexisting⟩ := hd.checked hextends hchecked
      have hfound := hexisting (lt_size_of_node? hnode)
      exact hbranches ((check_eq_ok_iff.1 hq).alone (.inr ⟨id, hfound, hold⟩)).1
  · rcases htraces.children id hchildren with hold' | ⟨rfl, -⟩ | ⟨d, hd, hbranches⟩
    · obtain ⟨e, he⟩ := List.exists_mem_of_ne_nil _ hold'
      have hsize := lt_of_mem_childIds he
      obtain ⟨q, hq, hexisting⟩ := hc.checked hextends hchecked
      have hfound := hexisting (Nat.lt_trans hsize.1 hsize.2)
      exact hold' (((check_eq_ok_iff.1 hq).alone (.inl hredirect)).2 id hfound)
    · exact Nat.lt_irrefl _ hc.parent_lt
    · exact hsplits ⟨c, d, hc.meets (unique.graft hlt b) hd, hredirect, hbranches⟩

/-- A sprout that was checked gives a node both exactly if the node above it redirects or it
has two sprouts that become one node, of which one redirects and one has children. -/
theorem redirectsAlone_graft_iff (alone : t.RedirectsAlone) (unique : t.UniqueParents)
    (hlt : parent < t.size) (checked : t.check (some parent) b = .ok ()) :
    (t.graft parent b).1.RedirectsAlone ↔ ¬t.RedirectsAt parent ∧ ¬b.Splits := by
  constructor
  · intro h
    rw [redirectsAlone_iff] at h
    obtain ⟨hfound, hholds⟩ := graft_holds b hlt
    constructor
    · intro hparent
      have hmem := (findChild?_eq_some hfound).1
      rw [h parent ((Extends.graft hlt b).redirectsAt hparent)] at hmem
      simp at hmem
    · rintro ⟨c, d, hmeets, hredirect, hchildren⟩
      have held : ∀ c ∈ [b], ∃ x, (t.graft parent b).1.findChild? parent c.name = some x ∧
          (t.graft parent b).1.Holds x c := by
        simpa using ⟨_, hfound, hholds⟩
      obtain ⟨x, ⟨hredirects, -, -⟩, ⟨-, hbranches, -⟩⟩ := exists_holds_of_meets held hmeets
      obtain ⟨e, he⟩ := List.exists_mem_of_ne_nil _ hchildren
      obtain ⟨y, hy⟩ := hbranches e he
      have hmem := (findChild?_eq_some hy).1
      rw [h x (hredirects hredirect)] at hmem
      simp at hmem
  · rintro ⟨hparent, hsplits⟩
    exact alone.graft unique hlt checked hparent hsplits

/-- The call goes through and adds a sprout that gives a node both a redirect and children. -/
def Mixes (t : Tree S E M) (change : Change S E M) : Prop :=
  (∃ t', t.enact change = .ok t') ∧ ∃ parent b, change.addition? = some (parent, b) ∧
    (t.RedirectsAt parent ∨ b.Splits)

/-- Altering a node gives it no redirect beside its children. -/
theorem RedirectsAlone.update {alter : Node S E M → Node S E M} (alone : t.RedirectsAlone)
    (halters : t.Alters id alter) : (t.update id alter).RedirectsAlone := by
  rw [redirectsAlone_iff] at alone ⊢
  intro i hi
  rw [childIds_update]
  by_cases hold : t.RedirectsAt i
  · exact alone i hold
  · rw [RedirectsAt, node?_update] at hi
    split at hi
    · next hid =>
      rcases halters.redirects with hsame | ⟨-, node, hnode, hchildren, -⟩
      · refine absurd ?_ hold
        cases hnode : t.node? i <;> simp_all [RedirectsAt]
      · rw [hid, childIds_eq hnode, hchildren]
    · exact absurd hi hold

theorem redirectsAlone_after_iff (alone : t.RedirectsAlone) (unique : t.UniqueParents)
    (change : Change S E M) : (t.after change).RedirectsAlone ↔ ¬t.Mixes change := by
  cases henact : t.enact change with
  | error error => simp [Tree.after, henact, Mixes, alone]
  | ok t' =>
    obtain ⟨parent, b, hadds, hlt, hcheck, rfl⟩ | ⟨id, alter, hadds, halters, rfl⟩ :=
      enact_cases henact
    · simp [Tree.after, henact, Mixes, hadds, redirectsAlone_graft_iff alone unique hlt hcheck]
    · refine iff_of_true ?_ (by simp [Mixes, hadds])
      rw [Tree.after, henact]
      exact alone.update halters

/-- From a tree where no node has both, calls lead to one where a node does exactly if one of
them mixes the two. -/
theorem RedirectsAlone.afterAll_iff (alone : t.RedirectsAlone) (unique : t.UniqueParents)
    (changes : List (Change S E M)) : (t.afterAll changes).RedirectsAlone ↔
      ∀ before change later, changes = before ++ change :: later →
        ¬(t.afterAll before).Mixes change := by
  induction changes generalizing t with
  | nil => simp [afterAll, alone]
  | cons first rest ih =>
    have hfirst := redirectsAlone_after_iff alone unique first
    constructor
    · -- A node that has both after one call has both after all of them.
      intro h before change later hsplit
      have halone := (Extends.afterAll (t.after first) rest).redirectsAlone h
      rcases List.cons_eq_append_iff.1 hsplit with ⟨rfl, hcons⟩ | ⟨before', rfl, hrest⟩
      · obtain ⟨rfl, -⟩ := List.cons.inj hcons
        exact hfirst.1 halone
      · exact (ih halone (unique.after first)).1 h before' change later hrest
    · intro h
      have halone := hfirst.2 (h [] first rest rfl)
      apply (ih halone (unique.after first)).2
      intro before change later hsplit
      apply h (first :: before) change later
      rw [hsplit, List.cons_append]

/-- A tree has a node with a redirect and children exactly if one of the calls that led to it
added a sprout under a node that redirects, or one with two sprouts that become one node, of
which one redirects and one has children. -/
theorem redirectsAlone_afterAll_iff (changes : List (Change S E M)) :
    (empty.afterAll changes).RedirectsAlone ↔ ∀ before change later,
      changes = before ++ change :: later → ¬(empty.afterAll before).Mixes change :=
  redirectsAlone_empty.afterAll_iff uniqueParents_empty changes

/-- `a` redirects to the root, and then `b` is added under it. -/
def branchBehindRedirect : List (Change S E M) :=
  [.register ((Sprout.literal "a").redirectTo root), .addChild 1 (.literal "b")]

/-- One `b` under `a` redirects to the root, and another one has a child `c`. -/
def redirectBesideBranch : Sprout S E M :=
  ((Sprout.literal "a").child ((Sprout.literal "b").redirectTo root)).child
    ((Sprout.literal "b").child (.literal "c"))

/-- Neither of the two cases is refused. -/
theorem exists_redirect_and_children :
    ¬((empty : Tree Principal Nat Unit).afterAll branchBehindRedirect).RedirectsAlone ∧
      ¬((empty : Tree Principal Nat Unit).afterAll
        [.register redirectBesideBranch]).RedirectsAlone := by
  constructor
  · intro alone
    have plain := (redirectsAlone_afterAll_iff branchBehindRedirect).1 alone
      [.register ((Sprout.literal "a").redirectTo root)] (.addChild 1 (.literal "b")) [] rfl
    apply plain
    have redirects : ((empty : Tree Principal Nat Unit).afterAll
        [.register ((Sprout.literal "a").redirectTo root)]).RedirectsAt 1 :=
      Option.some_ne_none root
    exact ⟨⟨_, rfl⟩, 1, .literal "b", rfl, .inl redirects⟩
  · intro alone
    have plain := (redirectsAlone_afterAll_iff [.register redirectBesideBranch]).1 alone
      [] (.register redirectBesideBranch) [] rfl
    apply plain
    have meets : Sprout.Meets [redirectBesideBranch]
        ((Sprout.literal "b").redirectTo root : Sprout Principal Nat Unit)
        ((Sprout.literal "b").child (.literal "c")) := by
      apply Sprout.Meets.deeper (b := redirectBesideBranch) (c := redirectBesideBranch)
      · exact .beside (List.mem_singleton_self _) (List.mem_singleton_self _) rfl
      · exact List.mem_cons_self ..
      · exact List.mem_cons_of_mem _ (List.mem_cons_self ..)
      · rfl
    have splits : (redirectBesideBranch : Sprout Principal Nat Unit).Splits :=
      ⟨_, _, meets, Option.some_ne_none root, List.cons_ne_nil _ _⟩
    exact ⟨⟨_, rfl⟩, root, redirectBesideBranch, rfl, .inr splits⟩

end Tree
end Dispatch
