import Dispatch.Proofs.Manager.AliasLine
import Dispatch.Proofs.Parse.Hiding
import Dispatch.Proofs.Parse.Locality
/-!
# What owners have to themselves

The nodes of an owner are those under the literals of its aliases (`Manager.Owns`). A literal
of the root leads to one command, and a node is under one literal only, so no node has two
owners. What another owner registers goes under a literal of its own or under a new one, and
leaves them as they are (`Proceeds.node?_eq_of_owns`). Lines that start with an alias of the
owner are parsed among its nodes unless a redirect leads out of them, so they are parsed as
before (`undisturbed_after`).
-/
namespace Dispatch
variable {S E M : Type}

namespace Tree
variable {t : Tree S E M} {id c c' : Nat}

/-- What is below a node comes after it. -/
theorem Under.le (h : t.Under c id) : c ≤ id := by
  induction h with
  | refl => exact Nat.le_refl c
  | tail _ hedge ih => exact Nat.le_trans ih (Nat.le_of_lt (lt_of_mem_childIds hedge).1)

/-- A node is under one child of the root only. -/
theorem UniqueParents.eq_of_under (unique : t.UniqueParents) (hc : c ∈ t.childIds root)
    (hc' : c' ∈ t.childIds root) (h : t.Under c id) (h' : t.Under c' id) : c = c' := by
  have hroot : c ≠ root := Nat.ne_of_gt (root_lt_of_mem_childIds hc)
  have hroot' : c' ≠ root := Nat.ne_of_gt (root_lt_of_mem_childIds hc')
  induction h with
  | refl =>
    by_contra hne
    exact not_under_root hroot' (unique.under_parent hc h' hne)
  | @tail b id hunder hedge ih =>
    refine ih (unique.under_parent hedge h' ?_)
    rintro rfl
    rw [unique b root id hedge hc'] at hunder
    exact not_under_root hroot hunder

end Tree

namespace Manager
variable {m m' : Manager S E M} {config : Config} {owner registrant name : String}
  {mapping : Mapping} {id c : Nat}

/-- A node is under the literal of an alias of the owner. -/
def Owns (m : Manager S E M) (owner : String) (id : Nat) : Prop :=
  ∃ mapping ∈ m.mappings, mapping.owner = owner ∧ ∃ name ∈ mapping.aliases, ∃ c node,
    m.tree.RootLiteral name c node ∧ m.tree.Under c id

/-- No redirect of a node of the owner leads to a node that is not its own. -/
def KeepsToItself (m : Manager S E M) (owner : String) : Prop :=
  ∀ id node target, m.Owns owner id → m.tree.node? id = some node → node.redirect = some target →
    m.Owns owner target

theorem Owns.child (h : m.Owns owner id) (hc : c ∈ m.tree.childIds id) : m.Owns owner c := by
  obtain ⟨mapping, hmem, howner, name, hname, top, node, htop, hunder⟩ := h
  exact ⟨mapping, hmem, howner, name, hname, top, node, htop, hunder.tail hc⟩

theorem Owns.ne_root (h : m.Owns owner id) : id ≠ Tree.root := by
  obtain ⟨_, _, _, _, _, c, node, hc, hunder⟩ := h
  have hle := hunder.le
  have hlt := Tree.root_lt_of_mem_childIds hc.child
  omega

theorem Owns.lt_size (h : m.Owns owner id) : id < m.tree.size := by
  obtain ⟨_, _, _, _, _, c, node, hc, hunder⟩ := h
  rcases Relation.ReflTransGen.cases_tail hunder with rfl | ⟨_, -, hedge⟩
  · exact Tree.lt_size_of_node? hc.lookup
  · exact (Tree.lt_of_mem_childIds hedge).2

/-- The literal of an alias is a node of its owner. -/
theorem Coherent.owns_of_rootLiteral (hm : m.Coherent) (hmem : mapping ∈ m.mappings)
    (hname : name ∈ mapping.aliases) :
    ∃ c node, m.tree.RootLiteral name c node ∧ m.Owns mapping.owner c := by
  obtain ⟨i, hi⟩ := List.getElem?_of_mem hmem
  obtain ⟨c, node, hc⟩ := hm.literals.exists_of_mem ((hm.names name).2 ⟨i, mapping, hi, hname⟩)
  exact ⟨c, node, hc, mapping, hmem, rfl, name, hname, c, node, hc, .refl⟩

theorem Reachable.uniqueParents [Capable S] {allowed : Registration S E M → Prop}
    (h : Reachable config allowed m) : m.tree.UniqueParents := by
  refine h.tree_induction Tree.uniqueParents_empty fun t t' b x _ unique hregister => ?_
  obtain ⟨-, hgraft⟩ := Tree.register_eq_graft hregister
  obtain rfl : t' = (t.graft Tree.root b).1 := congrArg Prod.fst hgraft
  exact unique.graft t.hasRoot b

/-! ## What a registration leaves alone -/

section
variable {b : Sprout S E M} {grant : Grant} {t : Tree S E M} {x index i : Nat}
  {added : List String} {old new : Mapping}

/-- The command of a registration is none of another owner. -/
theorem Registered.index_ne (h : Registered m registrant b m' grant t x added index old new)
    (hi : m.registry.mappings[i]? = some mapping) (hother : mapping.owner ≠ registrant) :
    i ≠ index := by
  rintro rfl
  have hstarts := h.recorded.starts
  have hgrants := h.grants
  cases grant with
  | free granted => simp [hstarts.1] at hi
  | merge granted known =>
    obtain ⟨rfl, hold⟩ := hstarts
    obtain ⟨-, was, hwas, howner, -⟩ := hgrants
    obtain rfl : was = mapping := Option.some.inj (hwas.symm.trans hi)
    exact hother howner

/-- An alias of another owner leads to the command it led to. -/
theorem Registered.get?_eq (h : Registered m registrant b m' grant t x added index old new)
    (hm : m.Coherent) (hget : m.registry.get? name = some mapping)
    (hother : mapping.owner ≠ registrant) : m'.registry.get? name = some mapping := by
  obtain ⟨i, hi, hmem⟩ := hm.registry.get?_eq_some_iff.1 hget
  refine h.recorded.coherent.get?_eq_some_iff.2 ⟨i, ?_, hmem⟩
  rw [h.recorded.mappings, if_neg (h.index_ne hi hother)]
  exact hi

/-- Where the literal that is registered was there already, nothing of another owner is under
it. -/
theorem Registered.not_under_of_owns
    (h : Registered m registrant b m' grant t x added index old new) (hm : m.Coherent)
    (unique : m.tree.UniqueParents) (hother : owner ≠ registrant) {node : Node S E M}
    (hx : m.tree.RootLiteral b.name x node) (hid : m.Owns owner id) : ¬m.tree.Under x id := by
  obtain ⟨mapping, hmem, rfl, name, hname, c, found, hc, hunder⟩ := hid
  intro hunder'
  obtain rfl := unique.eq_of_under hc.child hx.child hunder hunder'
  obtain ⟨i, hi⟩ := List.getElem?_of_mem hmem
  obtain rfl : name = grant.name := hc.nameOf_eq.symm.trans (hx.nameOf_eq.trans h.name_eq)
  exact hm.registry.not_mem_of_ne h.grants h.recorded.starts hi (h.index_ne hi hother) hname

end

/-- A registration leaves the nodes of other owners as they are. -/
theorem Proceeds.node?_eq_of_owns {sprout : Sprout S E M} {secondary : List String}
    {description : Description} {grant : Grant} {t : Tree S E M} {x : Nat} {added : List String}
    (h : Proceeds m registrant sprout secondary description m' mapping grant t x added)
    (hm : m.Coherent) (unique : m.tree.UniqueParents) (hother : owner ≠ registrant)
    (hid : m.Owns owner id) : m'.tree.node? id = m.tree.node? id := by
  obtain ⟨index, old, hregistered, -⟩ := h.registered hm
  have hroot := hid.ne_root
  have hplaced : t.node? id = m.tree.node? id := by
    obtain ⟨node, _, hx, -⟩ | ⟨hnew, -⟩ := hregistered.placed.placed
    · refine Tree.register_frame (T := fun i => m.tree.Under x i ∨ m.tree.size ≤ i) h.placed ?_
        (fun _ => .inr) (.inl .refl) hroot ?_
      · rintro i c (hunder | hge) hc
        · exact .inl (hunder.tail hc)
        · exact .inr (Nat.le_trans hge (Nat.le_of_lt (Tree.lt_of_mem_childIds hc).1))
      · rintro (hunder | hge)
        · exact hregistered.not_under_of_owns hm unique hother hx hid hunder
        · exact absurd hid.lt_size (Nat.not_lt.2 hge)
    · exact (hm.literals.register_new h.placed hnew).2 id hroot hid.lt_size
  refine (h.addsAliases hm (P := fun t => t.node? id = m.tree.node? id) hplaced ?_).2
  intro t t' target name c literals hsame hname hregister
  obtain ⟨node, hnode⟩ := Tree.exists_node? hid.lt_size
  have hlt := Tree.lt_size_of_node? (hsame.trans hnode)
  exact ((literals.register_new hregister hname).2 id hroot hlt).trans hsame

/-! ## Lines that start with an alias of the owner -/

/-- Where the nodes of an owner stay as they are and do not redirect elsewhere, parses among
them stay as they are. -/
theorem agreeWithin_of_owns (config_eq : m'.config = m.config)
    (same : ∀ id, m.Owns owner id → m'.tree.node? id = m.tree.node? id)
    (keeps : m.KeepsToItself owner) (source : S) :
    m.dispatcher.AgreeWithin m'.dispatcher source (m.Owns owner) where
  config_eq := config_eq
  eligible := fun id hid r =>
    Tree.eligible_congr (same id hid) (fun c hc => same c (hid.child hc)) r source
  children := fun _ hid _ _ hchild => hid.child (Tree.mem_eligible_iff.1 hchild).1
  redirects := keeps

/-- What a manager becomes leaves an owner undisturbed. -/
structure Undisturbed (m m' : Manager S E M) (owner : String) : Prop where
  /-- An alias that the owner holds leads to the command it led to. -/
  mapping_eq : ∀ name mapping, m.mapping? name = some mapping → mapping.owner = owner →
    m'.mapping? name = some mapping
  /-- A line that starts with such an alias is parsed as before, unless a redirect leads from
  what the owner has to what it has not. -/
  parse_eq : m.KeepsToItself owner → ∀ mapping ∈ m.mappings, mapping.owner = owner →
    ∀ name ∈ mapping.aliases, ∀ line, (Reader.ofString line).peekWord = name → ∀ source,
      m'.dispatcher.parse line source = m.dispatcher.parse line source

theorem Undisturbed.refl (m : Manager S E M) (owner : String) : m.Undisturbed m owner where
  mapping_eq := fun _ _ h _ => h
  parse_eq := fun _ _ _ _ _ _ _ _ _ => rfl

section
variable [Capable S]

/-- In every manager that registrations lead to, what an owner registers, whether it is
refused or not, leaves all other owners undisturbed. -/
theorem undisturbed_after {allowed : Registration S E M → Prop} (h : Reachable config allowed m)
    {registration : Registration S E M} (hother : owner ≠ registration.owner) :
    m.Undisturbed (m.after registration) owner := by
  rw [after]
  split
  · next m' recorded henact =>
    have hm := h.coherent
    rw [enact_eq, registerDescribed_eq_ok_iff] at henact
    obtain ⟨grant, t, x, added, hproceeds⟩ := henact
    obtain ⟨index, old, hregistered, -⟩ := hproceeds.registered hm
    have hsame : ∀ id, m.Owns owner id → m'.tree.node? id = m.tree.node? id :=
      fun id hid => hproceeds.node?_eq_of_owns hm h.uniqueParents hother hid
    constructor
    · rintro name mapping hget rfl
      exact hregistered.get?_eq hm hget hother
    · rintro keeps mapping hmem rfl name hname line hline source
      have hagree := agreeWithin_of_owns hregistered.config_eq hsame keeps source
      obtain ⟨c, node, hc, howns⟩ := hm.owns_of_rootLiteral hmem hname
      -- The literal of the alias is the one that it was, and it is the only child that is tried.
      have hc' : m'.tree.RootLiteral name c node := by
        obtain ⟨node', hc', -⟩ := hregistered.rootLiteral hm hc
        obtain rfl : node' = node :=
          Option.some.inj (hc'.lookup.symm.trans ((hsame c howns).trans hc.lookup))
        exact hc'
      have htried := Tree.eligible_root hm.literals hc hline source
      have htried' := Tree.eligible_root (hregistered.coherent hm).literals hc' hline source
      refine hagree.parse_eq (htried'.trans htried.symm) ?_
      intro child hchild
      replace hchild := htried ▸ hchild
      split at hchild
      · rw [List.mem_singleton.1 hchild]
        exact howns
      · simp at hchild
  · exact .refl m owner

end

/-- `core` registers a command of its own under the names of the one of `demo`. -/
def coreTeleport : Registration Principal Nat Unit :=
  .plain "core" ((Sprout.literal "tp").executes 2) ["teleport", "home"]

theorem keepsToItself_tpWordFirst : tpWordFirst.KeepsToItself "demo" := by
  intro id node target howns hnode hredirect
  -- The alias redirects to the command, and nothing else redirects.
  have only : ∀ id < tpWordFirst.tree.size,
      (tpWordFirst.tree.node? id).bind Node.redirect = if id = 3 then some 1 else none := by decide
  have leads := only id howns.lt_size
  rw [hnode, Option.bind_some, hredirect] at leads
  split at leads
  · obtain rfl := Option.some.inj leads
    have tp : tpWordFirst.tree.RootLiteral "tp" 1 _ := ⟨by decide, rfl, rfl⟩
    exact ⟨⟨"demo", "tp", ["tp", "teleport"], 1, {}⟩, List.mem_of_getElem? (i := 0) rfl, rfl, "tp",
      by decide, 1, _, tp, .refl⟩
  · simp at leads

/-- `core` gets `core.tp`, and `teleport` still leads to `tp`. -/
theorem undisturbed_tp : Reachable {} Registration.IsStandard tpWordFirst ∧
    "demo" ≠ coreTeleport.owner ∧ tpWordFirst.KeepsToItself "demo" ∧
    (tpWordFirst.after coreTeleport).mappings.map Mapping.primary = ["tp", "core.tp"] ∧
    (tpWordFirst.after coreTeleport).mapping? "teleport" = tpWordFirst.mapping? "teleport" ∧
    (tpWordFirst.after coreTeleport).dispatcher.parse "teleport home" (.named "guest") =
      tpWordFirst.dispatcher.parse "teleport home" (.named "guest") := by
  have other : "demo" ≠ coreTeleport.owner := by decide
  have mem : (⟨"demo", "tp", ["tp", "teleport"], 1, {}⟩ : Mapping) ∈ tpWordFirst.mappings :=
    List.mem_of_getElem? (i := 0) rfl
  have undisturbed := undisturbed_after reachable_tpWordFirst other
  refine ⟨reachable_tpWordFirst, other, keepsToItself_tpWordFirst, rfl, ?_, ?_⟩
  · exact undisturbed.mapping_eq "teleport" ⟨"demo", "tp", ["tp", "teleport"], 1, {}⟩ rfl rfl
  · exact undisturbed.parse_eq keepsToItself_tpWordFirst _ mem rfl "teleport" (by decide)
      "teleport home" (by decide) _

end Manager
end Dispatch
