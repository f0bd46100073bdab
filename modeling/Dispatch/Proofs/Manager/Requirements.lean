import Dispatch.Proofs.Manager.Registration
/-!
# Requirements stay

What is added to a tree never changes what its nodes ask for: a sprout that meets a node of
its name leaves its own requirement behind (`Sprout.mergeInto_requirement`). So registering
commands keeps the nodes of a tree and what each of them asks (`Tree.Retains`), whoever
registers them and whatever they are.
-/
namespace Dispatch
variable {S E M : Type}

/-- Two steps succeed only if the first one does, and then the second. -/
theorem exists_of_bind_eq_ok {ε α β : Type} {x : Except ε α} {f : α → Except ε β} {b : β}
    (h : x >>= f = .ok b) : ∃ a, x = .ok a ∧ f a = .ok b := by
  cases x with
  | error error => cases h
  | ok a => exact ⟨a, rfl, h⟩

namespace Tree
variable {t t' t'' : Tree S E M} {parent x : Nat} {b : Sprout S E M}

/-- The tree has the nodes of another one, and they ask for what they ask for there. -/
def Retains (t' t : Tree S E M) : Prop :=
  ∀ id node, t.node? id = some node →
    ∃ node', t'.node? id = some node' ∧ node'.requirement = node.requirement

namespace Retains

theorem refl (t : Tree S E M) : t.Retains t := fun _ node hnode => ⟨node, hnode, rfl⟩

theorem trans (h : t''.Retains t') (h' : t'.Retains t) : t''.Retains t := by
  intro id node hnode
  obtain ⟨node', hnode', hrequirement'⟩ := h' id node hnode
  obtain ⟨node'', hnode'', hrequirement''⟩ := h id node' hnode'
  exact ⟨node'', hnode'', hrequirement''.trans hrequirement'⟩

theorem place (t : Tree S E M) (parent : Nat) (b : Sprout S E M) :
    (t.place parent b).1.Retains t := by
  intro id node hnode
  obtain ⟨x, -, hplace⟩ | ⟨-, hplace⟩ := t.place_cases parent b
  · rw [hplace, node?_update, hnode]
    split
    · exact ⟨_, rfl, b.mergeInto_requirement node⟩
    · exact ⟨node, rfl, rfl⟩
  · rw [hplace, node?_addNode, if_neg (Nat.ne_of_lt (lt_size_of_node? hnode)), hnode]
    split
    · exact ⟨_, rfl, rfl⟩
    · exact ⟨node, rfl, rfl⟩

theorem addChild (h : t.addChild parent b = .ok (t', x)) : t'.Retains t := by
  obtain ⟨hlt, -, hgraft⟩ := addChild_eq_ok h
  obtain ⟨rfl, rfl⟩ := Prod.mk.inj hgraft
  exact graft_keeps (P := (·.Retains t)) (fun h _ b => (place _ _ b).trans h) (refl t) hlt b

theorem register (h : t.register b = .ok (t', x)) : t'.Retains t :=
  addChild (register_eq_ok h).2

end Retains
end Tree

namespace Manager
variable {m m' : Manager S E M} {owner : String} {sprout : Sprout S E M} {secondary : List String}
  {description : Description} {mapping : Mapping}

/-- Registering a command keeps the nodes that are there and what they ask for. -/
theorem registerDescribed_retains
    (h : m.registerDescribed owner sprout secondary description = .ok (m', mapping)) :
    m'.tree.Retains m.tree := by
  obtain ⟨grant, t, x, added, proceeds⟩ := registerDescribed_eq_ok_iff.1 h
  have placed : t.Retains m.tree := .register proceeds.placed
  have extended : (secondary.foldl (addSecondary m.registry m.config owner grant.name x)
      (t, [])).1.Retains m.tree := by
    refine foldl_addSecondary_induction (P := fun state => state.1.Retains m.tree) placed ?_
    intro state found t' c retains _ _ _ hregister
    exact (Tree.Retains.register hregister).trans retains
  rw [proceeds.extended] at extended
  exact extended

/-- A program that starts with registering a command goes on with a manager that keeps what
was kept so far. -/
theorem exists_retains_of_bind {α : Type} {t : Tree S E M} (retains : m.tree.Retains t)
    {f : Manager S E M × Mapping → Except RegistrationError α} {a : α}
    (h : m.register owner sprout secondary >>= f = .ok a) :
    ∃ m' mapping, m'.tree.Retains t ∧ f (m', mapping) = .ok a := by
  obtain ⟨⟨m', mapping⟩, hregister, hf⟩ := exists_of_bind_eq_ok h
  exact ⟨m', mapping, (registerDescribed_retains hregister).trans retains, hf⟩

end Manager
end Dispatch
