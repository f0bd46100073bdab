import Dispatch.Proofs.Tree.RedirectsAlone
import Dispatch.Proofs.Tree.Register
/-!
# Adding a sprout again

A sprout that was added fits where it is: the nodes at which its parts land have their kinds,
and redirect or have children only if the parts do or the nodes did before. So if no two
siblings in it share a name, and so no two parts land at one node, it passes the check again
(`check_again`), also in a tree that has grown elsewhere.
-/
namespace Dispatch
variable {S E M : Type}

namespace Sprout

/-- No two siblings within the sprout share a name. -/
inductive Distinct : Sprout S E M → Prop
  | mk {b : Sprout S E M} (nodup : (b.children.map name).Nodup)
    (below : ∀ c ∈ b.children, c.Distinct) : b.Distinct

/-- What distinguishes siblings is below the sprout's own node. -/
theorem Distinct.of_children_eq {b b' : Sprout S E M} (h : b.Distinct)
    (heq : b'.children = b.children) : b'.Distinct := by
  obtain ⟨nodup, below⟩ := h
  exact ⟨heq ▸ nodup, heq ▸ below⟩

/-- Parts of such a sprout that become one node are one. -/
theorem Meets.eq_of_distinct {b c d : Sprout S E M} (h : Meets [b] c d) (distinct : b.Distinct) :
    c = d ∧ c.Distinct := by
  induction h with
  | beside mem mem' _ =>
    rw [List.mem_singleton.1 mem, List.mem_singleton.1 mem']
    exact ⟨rfl, distinct⟩
  | deeper _ mem mem' name_eq ih =>
    obtain ⟨rfl, nodup, below⟩ := ih
    exact ⟨List.inj_on_of_nodup_map nodup mem mem' name_eq, below _ mem⟩

end Sprout

namespace Tree
variable {t t' T : Tree S E M} {id parent x y : Nat} {b c : Sprout S E M}
  {bs : List (Sprout S E M)}

/-- A placed sprout gives its label to the node that is new, if one is. -/
theorem label_place (t : Tree S E M) (parent : Nat) (b : Sprout S E M) (hge : t.size ≤ id)
    (hid : id < (t.place parent b).1.size) : id = (t.place parent b).2 ∧
      ∃ node, (t.place parent b).1.node? id = some node ∧ node.label = some b.label := by
  obtain ⟨x, -, hplace⟩ | ⟨-, hplace⟩ := t.place_cases parent b
  · rw [hplace, size_update] at hid
    omega
  · rw [hplace, size_addNode] at hid
    obtain rfl : id = t.size := by omega
    rw [hplace]
    exact ⟨rfl, _, by rw [node?_addNode, if_pos rfl], rfl⟩

mutual

/-- A new node has the label of a sprout that lands there. -/
theorem graft_labels : ∀ (b : Sprout S E M) {t : Tree S E M} {parent : Nat}, parent < t.size →
    T.Extends (t.graft parent b).1 → ∀ id, t.size ≤ id → id < (t.graft parent b).1.size →
      ∃ c node, T.Lands parent [b] id c ∧ T.node? id = some node ∧ node.label = some c.label
  | ⟨label, children, executor, requirement, redirect, modifier, forks⟩, t, parent, hlt,
      hextends, id, hge, hid => by
    have hfound := findChild?_place hlt
      ⟨label, children, executor, requirement, redirect, modifier, forks⟩
    have hlt' := (t.size_le_place parent
      ⟨label, children, executor, requirement, redirect, modifier, forks⟩).2
    rw [graft_eq] at hextends hid
    have hkept := hextends.trans (Extends.graftAll hlt' children)
    have hlands := Lands.top (T := T) (List.mem_singleton_self _) (hkept.findChild?_eq_some hfound)
    by_cases hnew : id < (t.place parent
        ⟨label, children, executor, requirement, redirect, modifier, forks⟩).1.size
    · obtain ⟨rfl, node, hnode, hlabel⟩ := label_place t parent _ hge hnew
      obtain ⟨node', hnode', hlabel', -⟩ := hkept.nodes _ node hnode
      exact ⟨_, node', hlands, hnode', hlabel'.trans hlabel⟩
    · obtain ⟨c, node, hc, hnode, hlabel⟩ :=
        graftAll_labels children hlt' hextends id (Nat.not_lt.1 hnew) hid
      exact ⟨c, node, hlands.trans hc, hnode, hlabel⟩

theorem graftAll_labels : ∀ (bs : List (Sprout S E M)) {t : Tree S E M} {parent : Nat},
    parent < t.size → T.Extends (t.graftAll parent bs) → ∀ id, t.size ≤ id →
      id < (t.graftAll parent bs).size →
        ∃ c node, T.Lands parent bs id c ∧ T.node? id = some node ∧ node.label = some c.label
  | [], t, parent, _, _, id, hge, hid => by
    rw [graftAll] at hid
    omega
  | first :: rest, t, parent, hlt, hextends, id, hge, hid => by
    have hlt' := Nat.lt_of_lt_of_le hlt (Extends.graft hlt first).size_le
    rw [graftAll] at hextends hid
    by_cases hnew : id < (t.graft parent first).1.size
    · obtain ⟨c, node, hc, hnode, hlabel⟩ :=
        graft_labels first hlt (hextends.trans (Extends.graftAll hlt' rest)) id hge hnew
      exact ⟨c, node, hc.mono (by simp), hnode, hlabel⟩
    · obtain ⟨c, node, hc, hnode, hlabel⟩ :=
        graftAll_labels rest hlt' hextends id (Nat.not_lt.1 hnew) hid
      exact ⟨c, node, hc.mono (List.subset_cons_self first rest), hnode, hlabel⟩

end

/-! ## Where a sprout landed -/

section
variable (unique : t.UniqueParents) (hlt : parent < t.size)
  (checked : t.check (some parent) b = .ok ()) (distinct : b.Distinct)
include unique hlt checked distinct

omit checked in
/-- Parts that land at one node are one. -/
theorem Lands.eq_of_distinct {d : Sprout S E M} (h : (t.graft parent b).1.Lands parent [b] x c)
    (h' : (t.graft parent b).1.Lands parent [b] x d) : c = d :=
  ((h.meets (unique.graft hlt b) h').eq_of_distinct distinct).1

/-- A part that landed is of the kind of the node where it did. -/
theorem Lands.isLiteral_eq (h : (t.graft parent b).1.Lands parent [b] x c) {node : Node S E M}
    (hnode : (t.graft parent b).1.node? x = some node) : node.isLiteral = c.isLiteral := by
  have hextends := Extends.graft hlt b
  by_cases hold : x < t.size
  · -- The part was checked against the node that was there.
    obtain ⟨q, hq, hexisting⟩ := h.checked hextends (by simpa using checked)
    obtain ⟨old, hlookup⟩ := exists_node? hold
    obtain ⟨node', hnode', hlabel, -⟩ := hextends.nodes x old hlookup
    obtain rfl : node = node' := Option.some.inj (hnode.symm.trans hnode')
    rw [← (check_eq_ok_iff.1 hq).kind x old (hexisting hold) hlookup, Node.isLiteral, hlabel,
      Node.isLiteral]
  · -- The node is new and has the label of what landed there.
    obtain ⟨d, node', hd, hnode', hlabel⟩ := graft_labels b hlt (.refl _) x (Nat.not_lt.1 hold)
      (lt_size_of_node? hnode)
    obtain rfl : node = node' := Option.some.inj (hnode.symm.trans hnode')
    obtain rfl := h.eq_of_distinct unique hlt distinct hd
    simp [Node.isLiteral, hlabel, Sprout.isLiteral]

/-- Where a part or the node at which it landed redirects, neither of them has children. -/
theorem Lands.alone (h : (t.graft parent b).1.Lands parent [b] x c)
    (redirects : c.redirect ≠ none ∨ (t.graft parent b).1.RedirectsAt x) :
    c.children = [] ∧ (t.graft parent b).1.childIds x = [] := by
  have htraces := graft_traces b hlt (Extends.refl _)
  have hsame := fun {d} => h.eq_of_distinct unique hlt distinct (d := d)
  obtain ⟨q, hq, hexisting⟩ := h.checked (Extends.graft hlt b) (by simpa using checked)
  have haccepts := check_eq_ok_iff.1 hq
  -- The redirect is that of the part, or the node had it before.
  have hbefore : c.redirect ≠ none ∨
      ∃ y, q.bind (t.findChild? · c.name) = some y ∧ t.RedirectsAt y := by
    rcases redirects with hredirect | hredirects
    · exact .inl hredirect
    · rcases htraces.redirects x hredirects with hold | ⟨d, hd, hredirect⟩
      · obtain ⟨node, hnode, -⟩ := hold.exists_node?
        exact .inr ⟨x, hexisting (lt_size_of_node? hnode), hold⟩
      · exact .inl (hsame hd ▸ hredirect)
  obtain ⟨hbare, hchildren⟩ := haccepts.alone hbefore
  refine ⟨hbare, ?_⟩
  by_contra hbranches
  rcases htraces.children x hbranches with hold | ⟨rfl, -⟩ | ⟨d, hd, hbranches⟩
  · obtain ⟨e, he⟩ := List.exists_mem_of_ne_nil _ hold
    have hsize := lt_of_mem_childIds he
    exact hold (hchildren x (hexisting (Nat.lt_trans hsize.1 hsize.2)))
  · exact Nat.lt_irrefl _ h.parent_lt
  · exact hbranches (hsame hd ▸ hbare)

section
variable (hextends : T.Extends (t.graft parent b).1)
  (same : ∀ id, parent < id → id < (t.graft parent b).1.size →
    T.node? id = (t.graft parent b).1.node? id)
include hextends same

/-- A part that is held where it landed passes the check there again. -/
theorem Holds.check_again {p : Nat} (held : (t.graft parent b).1.Holds x c)
    (h : (t.graft parent b).1.Lands parent [b] x c)
    (found : (t.graft parent b).1.findChild? p c.name = some x) :
    T.check (some p) c = .ok () := by
  induction held generalizing p with
  | @mk x c _ present _ ih =>
    obtain ⟨-, node, hnode, -⟩ := findChild?_eq_some found
    have hsame := same x h.parent_lt (lt_size_of_node? hnode)
    obtain ⟨q, hq, -⟩ := h.checked (Extends.graft hlt b) (by simpa using checked)
    have haccepts := check_eq_ok_iff.1 hq
    have hexisting : (some p).bind (T.findChild? · c.name) = some x :=
      hextends.findChild?_eq_some found
    rw [check_eq_ok_iff, hexisting]
    refine ⟨fun y hy => ?_, ?_, ?_, haccepts.siblings, fun d hd => ?_⟩
    · exact Nat.lt_of_lt_of_le (haccepts.target y hy)
        (hextends.trans (Extends.graft hlt b)).size_le
    · rintro _ node' ⟨⟩ hnode'
      exact h.isLiteral_eq unique hlt checked distinct (hsame.symm.trans hnode')
    · intro redirects
      have hredirects : c.redirect ≠ none ∨ (t.graft parent b).1.RedirectsAt x := by
        refine redirects.imp_right ?_
        rintro ⟨_, ⟨⟩, hredirects⟩
        rwa [RedirectsAt, hsame] at hredirects
      obtain ⟨hbare, hchildren⟩ := h.alone unique hlt checked distinct hredirects
      refine ⟨hbare, ?_⟩
      rintro _ ⟨⟩
      rw [childIds, hsame]
      exact hchildren
    · obtain ⟨y, hy⟩ := present d hd
      exact ih d hd y hy (.deeper h hd hy) hy

/-- A sprout that was added passes the check again, also when the tree has grown elsewhere. -/
theorem check_again : T.check (some parent) b = .ok () := by
  obtain ⟨hfound, hholds⟩ := graft_holds b hlt
  exact hholds.check_again unique hlt checked distinct hextends same
    (.top (List.mem_singleton_self b) hfound) hfound

end
end

end Tree
end Dispatch
