import Dispatch.Argument.Standard
import Dispatch.Proofs.Tree.Again
import Dispatch.Proofs.Tree.Union
import Mathlib.Data.List.Pairwise
/-!
# Kinds of what is added

A node is a literal or an argument, and a sprout that is merged into a node is meant to be of
its kind; so the names on the way to a part of a sprout that was added should lead to a node
of the part's kind (`Tree.Contains`). The check of a sprout compares each part with the node
that was there before, and siblings with one another. Two parts below different siblings of
one name become one node too, but they are never compared. They are all that the check misses:
a sprout that passes it is contained exactly if it has no two parts of different kinds to
which the same names lead (`contains_addChild_iff`).

What becomes of a part is read off where it lands: a node that was there has the kind against
which the part was checked, and a new node has the kind of some part that landed there.
-/
namespace Dispatch
variable {S E M : Type}

namespace Sprout
variable {b s : Sprout S E M} {bs : List (Sprout S E M)} {path : List String}

/-- Parts of the sprout to which the same names lead are of one kind. -/
def Uniform (b : Sprout S E M) : Prop :=
  ∀ path s s', (path, s) ∈ b.parts → (path, s') ∈ b.parts → s.isLiteral = s'.isLiteral

/-- Two siblings somewhere in the sprout share a name but not a kind. -/
def HasClash (b : Sprout S E M) : Prop :=
  ∃ part ∈ b.parts, ∃ c ∈ part.2.children, ∃ d ∈ part.2.children, clashes c.label d.label = true

/-- A part is one of the sprouts or a part below one of them. -/
theorem mem_partsAll : (path, s) ∈ partsAll bs ↔
    ∃ b ∈ bs, path = [b.name] ∧ s = b ∨
      ∃ rest, path = b.name :: rest ∧ (rest, s) ∈ partsAll b.children := by
  induction bs with
  | nil => simp [partsAll]
  | cons first rest ih =>
    rw [partsAll, List.mem_append, ih, ← partsAll_singleton, mem_partsAll_singleton]
    simp

/-- The children of a part are parts, a name further. -/
theorem mem_partsAll_child {c : Sprout S E M} (h : (path, s) ∈ partsAll bs) (hc : c ∈ s.children) :
    (path ++ [c.name], c) ∈ partsAll bs := by
  induction path generalizing bs with
  | nil =>
    obtain ⟨first, -, rest, hcons⟩ := exists_of_mem_partsAll h
    simp at hcons
  | cons name rest ih =>
    obtain ⟨b, hb, ⟨hpath, rfl⟩ | ⟨below, hpath, hmem⟩⟩ := mem_partsAll.1 h
    · refine mem_partsAll.2 ⟨s, hb, .inr ⟨[c.name], by rw [hpath]; rfl, ?_⟩⟩
      exact mem_partsAll.2 ⟨c, hc, .inl ⟨rfl, rfl⟩⟩
    · obtain ⟨rfl, rfl⟩ := List.cons.inj hpath
      exact mem_partsAll.2 ⟨b, hb, .inr ⟨rest ++ [c.name], rfl, ih hmem⟩⟩

theorem clashes_comm (a b : Label S E M) : clashes a b = clashes b a := by
  rw [clashes, clashes, Bool.beq_comm, bne_comm]

theorem clashes_self (a : Label S E M) : clashes a a = false := by
  simp [clashes]

end Sprout

namespace Tree
variable {t t' T : Tree S E M} {parent id x : Nat} {b s : Sprout S E M} {bs : List (Sprout S E M)}
  {path : List String}

/-- For every part of the sprout, the names on the way there lead from the parent to a node of
the part's name and kind. -/
def Contains (t : Tree S E M) (parent : Nat) (b : Sprout S E M) : Prop :=
  ∀ path s, (path, s) ∈ b.parts → ∃ id node, t.below? parent path = some id ∧
    t.node? id = some node ∧ node.name = s.name ∧ node.isLiteral = s.isLiteral

/-! ## Where parts are -/

/-- Parts land where the names on the way to them lead. -/
theorem lands_iff : T.Lands parent bs id s ↔
    ∃ path, (path, s) ∈ Sprout.partsAll bs ∧ T.below? parent path = some id := by
  constructor
  · intro h
    induction h with
    | @top b x mem found =>
      refine ⟨[b.name], Sprout.mem_partsAll.2 ⟨b, mem, .inl ⟨rfl, rfl⟩⟩, ?_⟩
      rw [below?_singleton, found]
    | @deeper b c x y _ mem found ih =>
      obtain ⟨path, hpart, hpath⟩ := ih
      refine ⟨path ++ [c.name], Sprout.mem_partsAll_child hpart mem, ?_⟩
      rw [below?_concat, hpath, Option.bind_some, found]
  · rintro ⟨path, hpart, hpath⟩
    induction path generalizing bs parent with
    | nil =>
      obtain ⟨first, -, rest, hcons⟩ := Sprout.exists_of_mem_partsAll hpart
      simp at hcons
    | cons name rest ih =>
      obtain ⟨b, hb, ⟨hcons, rfl⟩ | ⟨below, hcons, hmem⟩⟩ := Sprout.mem_partsAll.1 hpart
      · rw [hcons, below?_singleton] at hpath
        exact .top hb hpath
      · obtain ⟨rfl, rfl⟩ := List.cons.inj hcons
        rw [below?_cons] at hpath
        obtain ⟨x, hx, hrest⟩ := Option.bind_eq_some_iff.1 hpath
        exact (Lands.top hb hx).trans (ih hmem hrest)

/-- Parts of what is held have nodes. -/
theorem exists_below?_of_holds (held : ∀ b ∈ bs, ∃ x, T.findChild? parent b.name = some x ∧
    T.Holds x b) (hpart : (path, s) ∈ Sprout.partsAll bs) :
    ∃ id, T.below? parent path = some id := by
  induction path generalizing bs parent with
  | nil => exact ⟨parent, rfl⟩
  | cons name rest ih =>
    obtain ⟨b, hb, hcase⟩ := Sprout.mem_partsAll.1 hpart
    obtain ⟨x, hx, -, found, children⟩ := held b hb
    rcases hcase with ⟨hcons, -⟩ | ⟨below, hcons, hmem⟩
    · exact ⟨x, by rw [hcons, below?_singleton, hx]⟩
    · obtain ⟨rfl, rfl⟩ := List.cons.inj hcons
      rw [below?_cons_eq hx]
      refine ih (fun c hc => ?_) hmem
      obtain ⟨y, hy⟩ := found c hc
      exact ⟨y, hy, children c hc y hy⟩

/-- A node to which a way leads that starts at a child has the last name of the way. -/
theorem name_of_lands (h : T.Lands parent bs id s) :
    ∃ node, T.node? id = some node ∧ node.name = s.name := by
  cases h with
  | top _ found => exact (findChild?_eq_some found).2
  | deeper _ _ found => exact (findChild?_eq_some found).2

/-! ## What passes the check -/

section
variable (unique : t.UniqueParents) (hlt : parent < t.size)
  (checked : t.check (some parent) b = .ok ())
include unique hlt checked

/-- Where parts at one place are of one kind, the node there is of their kind. -/
theorem Lands.isLiteral_of_uniform (uniform : b.Uniform)
    (h : (t.graft parent b).1.Lands parent [b] id s) {node : Node S E M}
    (hnode : (t.graft parent b).1.node? id = some node) : node.isLiteral = s.isLiteral := by
  have hextends := Extends.graft hlt b
  by_cases hold : id < t.size
  · -- The part was checked against the node that was there.
    obtain ⟨q, hq, hexisting⟩ := h.checked hextends (by simpa using checked)
    obtain ⟨old, hlookup⟩ := exists_node? hold
    obtain ⟨node', hnode', hlabel, -⟩ := hextends.nodes id old hlookup
    obtain rfl : node = node' := Option.some.inj (hnode.symm.trans hnode')
    rw [← (check_eq_ok_iff.1 hq).kind id old (hexisting hold) hlookup, Node.isLiteral, hlabel,
      Node.isLiteral]
  · -- The node is new and has the label of a part to which the same names lead.
    obtain ⟨d, node', hd, hnode', hlabel⟩ := graft_labels b hlt (.refl _) id (Nat.not_lt.1 hold)
      (lt_size_of_node? hnode)
    obtain rfl : node = node' := Option.some.inj (hnode.symm.trans hnode')
    obtain ⟨path, hs, hpath⟩ := lands_iff.1 h
    obtain ⟨path', hd, hpath'⟩ := lands_iff.1 hd
    obtain rfl := (unique.graft hlt b).eq_of_below? hpath hpath'
    rw [Sprout.partsAll_singleton] at hs hd
    rw [uniform path s d hs hd]
    simp [Node.isLiteral, hlabel, Sprout.isLiteral]

theorem contains_graft_iff : (t.graft parent b).1.Contains parent b ↔ b.Uniform := by
  constructor
  · intro h path s s' hs hs'
    obtain ⟨id, node, hid, hnode, -, hkind⟩ := h path s hs
    obtain ⟨id', node', hid', hnode', -, hkind'⟩ := h path s' hs'
    obtain rfl : id = id' := Option.some.inj (hid.symm.trans hid')
    obtain rfl : node = node' := Option.some.inj (hnode.symm.trans hnode')
    rw [← hkind, hkind']
  · intro uniform path s hs
    rw [← Sprout.partsAll_singleton] at hs
    have held : ∀ c ∈ [b], ∃ x, (t.graft parent b).1.findChild? parent c.name = some x ∧
        (t.graft parent b).1.Holds x c := by
      simpa using ⟨_, graft_holds b hlt⟩
    obtain ⟨id, hid⟩ := exists_below?_of_holds held hs
    have hlands := lands_iff.2 ⟨path, hs, hid⟩
    obtain ⟨node, hnode, hname⟩ := name_of_lands hlands
    exact ⟨id, node, hid, hnode, hname,
      hlands.isLiteral_of_uniform unique hlt checked uniform hnode⟩

end

/-- Every part of a sprout that passes the check does. -/
theorem check_of_mem_partsAll {q : Option Nat} (checked : ∀ b ∈ bs, t.check q b = .ok ())
    (hpart : (path, s) ∈ Sprout.partsAll bs) : ∃ q, t.check q s = .ok () := by
  induction path generalizing bs q with
  | nil =>
    obtain ⟨first, -, rest, hcons⟩ := Sprout.exists_of_mem_partsAll hpart
    simp at hcons
  | cons name rest ih =>
    obtain ⟨b, hb, ⟨-, rfl⟩ | ⟨below, hcons, hmem⟩⟩ := Sprout.mem_partsAll.1 hpart
    · exact ⟨q, checked s hb⟩
    · obtain ⟨rfl, rfl⟩ := List.cons.inj hcons
      exact ih (check_eq_ok_iff.1 (checked b hb)).below hmem

theorem not_hasClash_of_check {q : Option Nat} (checked : t.check q b = .ok ()) : ¬b.HasClash := by
  rintro ⟨⟨path, s⟩, hpart, c, hc, d, hd, hclash⟩
  rw [← Sprout.partsAll_singleton] at hpart
  obtain ⟨q, hq⟩ := check_of_mem_partsAll (List.forall_mem_singleton.2 checked) hpart
  have hsymm : Std.Symm fun c d : Sprout S E M => Sprout.clashes c.label d.label = false :=
    ⟨fun _ _ h => (Sprout.clashes_comm ..).trans h⟩
  have hall := (check_eq_ok_iff.1 hq).siblings.forall_of_forall
    (fun e _ => Sprout.clashes_self e.label) hc hd
  rw [hclash] at hall
  exact Bool.noConfusion hall

/-! ## What is refused -/

/-- Nothing but its kind speaks against merging a part into the node, if any, that is there:
its redirect leads to a node, and where one of the two redirects, neither has children. -/
structure SoundAt (t : Tree S E M) (existing : Option Nat) (s : Sprout S E M) : Prop where
  target : ∀ x, s.redirect = some x → x < t.size
  alone : (s.redirect ≠ none ∨ ∃ x, existing = some x ∧ t.RedirectsAt x) →
    s.children = [] ∧ ∀ x, existing = some x → t.childIds x = []

/-- So it is for every part of the sprout. -/
def Sound (t : Tree S E M) (parent : Nat) (b : Sprout S E M) : Prop :=
  ∀ path s, (path, s) ∈ b.parts → t.SoundAt (t.below? parent path) s

/-- Then only the kind of the node is in the way. -/
theorem SoundAt.checkNode_eq_error {existing : Option Nat} {e : RegistrationError}
    (sound : t.SoundAt existing s)
    (h : t.checkNode (existing.bind t.node?) s.label s.redirect (!s.children.isEmpty) = .error e) :
    e = .nameConflict s.name := by
  have halone : (s.redirect ≠ none ∨
      ∃ node, existing.bind t.node? = some node ∧ node.redirect ≠ none) →
      (!s.children.isEmpty) = false ∧
        ∀ node, existing.bind t.node? = some node → node.children = [] := by
    intro hredirects
    obtain ⟨hbare, hchildren⟩ := sound.alone <| hredirects.imp_right <| by
      rintro ⟨node, hexisting, hredirect⟩
      obtain ⟨x, hx, hlookup⟩ := Option.bind_eq_some_iff.1 hexisting
      exact ⟨x, hx, (redirectsAt_iff hlookup).2 hredirect⟩
    refine ⟨by simp [hbare], fun node hexisting => ?_⟩
    obtain ⟨x, hx, hlookup⟩ := Option.bind_eq_some_iff.1 hexisting
    rw [← childIds_eq hlookup]
    exact hchildren x hx
  cases hdiffers : (existing.bind t.node?).any fun node => node.isLiteral != s.label.isLiteral with
  | false =>
    -- A node of the right kind lets the part pass.
    have hkind : ∀ node, existing.bind t.node? = some node →
        node.isLiteral = s.label.isLiteral := by
      intro node hnode
      simpa [hnode] using hdiffers
    rw [checkNode_eq_ok_iff.2 ⟨sound.target, hkind, halone⟩] at h
    simp at h
  | true =>
    simp only [checkNode, bind, Except.bind, pure, Except.pure, throw, throwThe,
      MonadExceptOf.throw, hdiffers, if_true] at h
    cases hredirect : s.redirect with
    | none =>
      rw [hredirect] at h
      exact (Except.error.inj h).symm
    | some x =>
      simp only [hredirect, checkId_eq_ok_iff.2 (sound.target x hredirect)] at h
      exact (Except.error.inj h).symm

mutual

/-- A sound sprout is refused only because of the name of a part. -/
theorem check_eq_error : ∀ (b : Sprout S E M) {q : Option Nat} {e : RegistrationError},
    (∀ path s, (path, s) ∈ b.parts → t.SoundAt (q.bind (t.below? · path)) s) →
    t.check q b = .error e → ∃ part ∈ b.parts, e = .nameConflict part.2.name
  | ⟨label, children, executor, requirement, redirect, modifier, forks⟩, q, e, sound, h => by
    have hdown : ∀ path, q.bind (t.below? · (label.name :: path)) =
        (q.bind (t.findChild? · label.name)).bind (t.below? · path) := by
      intro path
      cases q <;> rfl
    rw [Sprout.parts_eq] at sound
    simp only [check, bind, Except.bind] at h
    split at h
    · next failure hnode =>
      obtain rfl := Except.error.inj h
      have hown := sound _ _ List.mem_cons_self
      simp only [below?_singleton] at hown
      exact ⟨_, List.mem_cons_self, SoundAt.checkNode_eq_error hown hnode⟩
    · have hbelow : ∀ path s, (path, s) ∈ Sprout.partsAll children →
          t.SoundAt ((q.bind (t.findChild? · label.name)).bind (t.below? · path)) s := by
        intro path s hs
        rw [← hdown]
        exact sound _ _ (List.mem_cons_of_mem _ (List.mem_map_of_mem hs))
      obtain ⟨part, hpart, rfl⟩ := checkSiblings_eq_error children hbelow h
      rw [Sprout.parts_eq]
      exact ⟨_, List.mem_cons_of_mem _ (List.mem_map_of_mem hpart), rfl⟩

theorem checkSiblings_eq_error : ∀ (bs : List (Sprout S E M)) {q : Option Nat}
    {earlier : List (Label S E M)} {e : RegistrationError},
    (∀ path s, (path, s) ∈ Sprout.partsAll bs → t.SoundAt (q.bind (t.below? · path)) s) →
    t.checkSiblings q earlier bs = .error e →
      ∃ part ∈ Sprout.partsAll bs, e = .nameConflict part.2.name
  | [], _, _, _, _, h => by simp [checkSiblings, pure, Except.pure] at h
  | b :: rest, q, earlier, e, sound, h => by
    rw [Sprout.partsAll] at sound ⊢
    simp only [checkSiblings, bind, Except.bind, throw, throwThe, MonadExceptOf.throw] at h
    split at h
    · obtain rfl := Except.error.inj h
      refine ⟨([b.name], b), List.mem_append_left _ ?_, rfl⟩
      rw [Sprout.parts_eq]
      exact List.mem_cons_self
    · split at h
      · next failure hfirst =>
        obtain rfl := Except.error.inj h
        obtain ⟨part, hpart, rfl⟩ := check_eq_error b
          (fun path s hs => sound path s (List.mem_append_left _ hs)) hfirst
        exact ⟨part, List.mem_append_left _ hpart, rfl⟩
      · obtain ⟨part, hpart, rfl⟩ := checkSiblings_eq_error rest
          (fun path s hs => sound path s (List.mem_append_right _ hs)) h
        exact ⟨part, List.mem_append_right _ hpart, rfl⟩

end

/-- The call that adds the sprout is refused and changes nothing, and if nothing but kinds
speaks against the sprout, it is refused because of the name of a part. -/
def Rejects (t : Tree S E M) (parent : Nat) (b : Sprout S E M) : Prop :=
  ∃ e, t.addChild parent b = .error e ∧ t.after (.addChild parent b) = t ∧
    (t.Sound parent b → ∃ part ∈ b.parts, e = .nameConflict part.2.name)

theorem rejects_of_check_ne_ok (hlt : parent < t.size) (h : t.check (some parent) b ≠ .ok ()) :
    t.Rejects parent b := by
  cases hcheck : t.check (some parent) b with
  | ok _ => exact absurd hcheck h
  | error e =>
    have hadd : t.addChild parent b = .error e := by
      simp [addChild, bind, Except.bind, checkId_eq_ok_iff.2 hlt, hcheck]
    refine ⟨e, hadd, ?_, fun sound => ?_⟩
    · rw [after, enact, hadd]
      rfl
    · exact check_eq_error b (q := some parent) sound hcheck

/-- A sprout that is added is contained exactly if it has no parts of different kinds to which
the same names lead. One that has none and would not be contained is refused, and so is one in
which siblings share a name but not a kind. -/
theorem contains_addChild_iff (grown : t.Grown) (parent : Nat) (b : Sprout S E M) :
    (∀ t' x, t.addChild parent b = .ok (t', x) → (t'.Contains parent b ↔ b.Uniform)) ∧
      (parent < t.size → b.Uniform ∧ ¬(t.graft parent b).1.Contains parent b ∨ b.HasClash →
        t.Rejects parent b) := by
  have unique := grown.uniqueParents
  constructor
  · intro t' x hadd
    obtain ⟨hlt, hcheck, hgraft⟩ := addChild_eq_ok hadd
    obtain rfl : t' = (t.graft parent b).1 := congrArg Prod.fst hgraft
    exact contains_graft_iff unique hlt hcheck
  · rintro hlt (⟨uniform, hcontains⟩ | hclash)
    · exact rejects_of_check_ne_ok hlt fun hcheck =>
        hcontains ((contains_graft_iff unique hlt hcheck).2 uniform)
    · exact rejects_of_check_ne_ok hlt fun hcheck => not_hasClash_of_check hcheck hclash

/-- Below one `b` the word `x`, and below another one an argument of this name. -/
def wordBesideArgument : Sprout Unit Nat Unit :=
  ((Sprout.literal "a").child ((Sprout.literal "b").child (.literal "x"))).child
    ((Sprout.literal "b").child (.argument "x" StandardParser.word.toParser))

/-- An argument `a`, and below it nothing. -/
def argumentA : Sprout Unit Nat Unit := .argument "a" StandardParser.word.toParser

theorem not_uniform_wordBesideArgument : ¬wordBesideArgument.Uniform := by
  intro uniform
  have hkinds := uniform ["a", "b", "x"] _ _ (List.mem_of_getElem? (i := 2) rfl)
    (List.mem_of_getElem? (i := 4) rfl)
  exact Bool.noConfusion hkinds

theorem uniform_argumentA : argumentA.Uniform := by
  intro path s s' hs hs'
  have hparts : argumentA.parts = [(["a"], argumentA)] := rfl
  rw [hparts, List.mem_singleton] at hs hs'
  rw [(Prod.mk.inj hs).2, (Prod.mk.inj hs').2]

/-- Of the two parts `x` the second one is merged into the first, and is not contained. Where
that went in, an argument `a` is refused. -/
theorem contains_addChild_wordBesideArgument : ∃ t' : Tree Unit Nat Unit,
    (empty : Tree Unit Nat Unit).Grown ∧ empty.addChild root wordBesideArgument = .ok (t', 1) ∧
      ¬t'.Contains root wordBesideArgument ∧ t'.Grown ∧ t'.Rejects root argumentA ∧
      t'.addChild root argumentA = .error (.nameConflict "a") := by
  have hadd : (empty : Tree Unit Nat Unit).addChild root wordBesideArgument =
      .ok ((empty.graft root wordBesideArgument).1, 1) := rfl
  have grown : (empty : Tree Unit Nat Unit).Grown := ⟨[], rfl⟩
  have grown' : (empty.graft root wordBesideArgument).1.Grown :=
    ⟨[.addChild root wordBesideArgument], rfl⟩
  have hword := (contains_addChild_iff grown root wordBesideArgument).1 _ _ hadd
  have hargument := (contains_addChild_iff grown' root argumentA).2 (by decide)
  refine ⟨_, grown, hadd, fun h => not_uniform_wordBesideArgument (hword.1 h), grown', ?_, rfl⟩
  refine hargument (.inl ⟨uniform_argumentA, fun h => ?_⟩)
  obtain ⟨id, node, hid, hnode, -, hkind⟩ := h ["a"] argumentA List.mem_cons_self
  obtain rfl : 1 = id := Option.some.inj hid
  obtain rfl := Option.some.inj hnode
  exact Bool.noConfusion hkind

end Tree
end Dispatch
