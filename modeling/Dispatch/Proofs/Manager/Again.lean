import Dispatch.Proofs.Manager.Ownership
import Dispatch.Proofs.Tree.Again
/-!
# Registering again

A registration that went through leaves a manager in which it goes through again (`Stands`):
its primary alias is granted to it as its own, its subtree fits where it is, and all aliases
that it asks for are taken. The last is what makes a difference. An alias that is taken is
asked for with the owner in front, whoever has it, so the second time the owner gets these
forms of its own aliases, as far as they are free. The third time there is nothing left to get
(`repeats_enact`).
-/
namespace Dispatch
variable {S E M : Type}

theorem Description.amend_amend (old new : Description) :
    (old.amend new).amend new = old.amend new := by
  cases hshort : new.short <;> cases hextended : new.extended <;>
    simp [amend, hshort, hextended]

namespace Tree
variable {t : Tree S E M} {b : Sprout S E M}

/-- A literal that passes the check is registered. -/
theorem register_of_check (hliteral : b.isLiteral = true)
    (hcheck : t.check (some root) b = .ok ()) : t.register b = .ok (t.graft root b) := by
  have hroot : t.checkId root = .ok () := checkId_eq_ok_iff.2 t.hasRoot
  simp [register, hliteral, addChild, hroot, hcheck, bind, Except.bind, pure, Except.pure]

end Tree

namespace Manager

/-! ## Which aliases are added -/

section
variable {registry : Registry} {config : Config} {owner primary name found : String}
  {x : Nat} {t t' : Tree S E M} {added : List String} {node : Node S E M}

/-- The literal of a new name is not refused. -/
theorem exists_register_aliasSprout (literals : t.HasLiterals) (hx : x < t.size)
    (hname : name ∉ t.rootNames) : ∃ t' c, t.register (aliasSprout t x name) = .ok (t', c) := by
  have hcheck : t.check (some Tree.root) (aliasSprout t x name) = .ok () := by
    rw [Tree.check_eq_ok_iff, Option.bind_some, name_aliasSprout,
      literals.findChild?_eq_none_iff.2 hname]
    refine ⟨?_, by simp, fun _ => ⟨rfl, by simp⟩, List.Pairwise.nil, by simp [children_aliasSprout]⟩
    rintro _ ⟨⟩
    exact hx
  exact ⟨_, _, Tree.register_of_check rfl hcheck⟩

variable (h : AddsAliases registry primary x t t' added) (hx : t.RootLiteral primary x node)
  (hfree : ∀ name, registry.IsFree name → name ≠ primary → name ∉ t.rootNames)
include h hx hfree

/-- An alias that is granted is added, if it was not yet. -/
theorem mem_addSecondary (hfound : registry.resolveSecondary config owner name = some found)
    (hne : found ≠ primary) :
    found ∈ (addSecondary registry config owner primary x (t', added) name).2 := by
  obtain ⟨-, hisFree⟩ := Registry.resolveSecondary_fresh hfound
  by_cases hmem : found ∈ added
  · simp [addSecondary, hfound, hmem]
  · have hlt := Tree.lt_size_of_node? (h.kept primary x node hx).lookup
    obtain ⟨t'', c, hregister⟩ := exists_register_aliasSprout h.literals hlt
      (h.not_mem_rootNames hfree hisFree hne hmem)
    simp [addSecondary, hfound, hne, hmem, hregister]

/-- All aliases that are granted are added. -/
theorem mem_foldl_addSecondary {secondary : List String} (hname : name ∈ secondary)
    (hfound : registry.resolveSecondary config owner name = some found) (hne : found ≠ primary) :
    found ∈ (secondary.foldl (addSecondary registry config owner primary x) (t', added)).2 := by
  induction secondary generalizing t' added with
  | nil => simp at hname
  | cons first rest ih =>
    rw [List.foldl_cons]
    obtain rfl | hrest := List.mem_cons.1 hname
    · -- What was added stays.
      refine foldl_addSecondary_induction (P := fun state => found ∈ state.2)
        (mem_addSecondary h hx hfree hfound hne) ?_
      exact fun _ _ _ _ hmem _ _ _ _ => List.mem_append_left _ hmem
    · obtain hsame | ⟨other, t'', c, hother, hne', hnotin, hregister, hadd⟩ :=
        addSecondary_cases registry config owner primary x (t', added) first
      · rw [hsame]
        exact ih h hrest
      · obtain ⟨halias, hisFree⟩ := Registry.resolveSecondary_fresh hother
        rw [hadd]
        exact ih (h.register hx hfree halias hisFree hne' hnotin hregister) hrest

end

section
variable {m m' : Manager S E M} {owner name : String} {sprout : Sprout S E M}
  {secondary added : List String} {description : Description} {mapping : Mapping} {grant : Grant}
  {t : Tree S E M} {x : Nat}
  (h : Proceeds m owner sprout secondary description m' mapping grant t x added) (hm : m.Coherent)
include h hm

/-- The aliases of a registration are those that were granted, apart from the primary one. -/
theorem Proceeds.mem_added_iff : name ∈ added ↔ name ≠ grant.name ∧
    ∃ requested ∈ secondary, m.registry.resolveSecondary m.config owner requested = some name := by
  have hadded := congrArg Prod.snd h.extended
  constructor
  · have hgranted : ∀ name ∈ (secondary.foldl
        (addSecondary m.registry m.config owner grant.name x) (t, [])).2, name ≠ grant.name ∧
          ∃ requested ∈ secondary,
            m.registry.resolveSecondary m.config owner requested = some name := by
      refine foldl_addSecondary_induction (P := fun state => ∀ name ∈ state.2, name ≠ grant.name ∧
        ∃ requested ∈ secondary,
          m.registry.resolveSecondary m.config owner requested = some name) (by simp) ?_
      rintro state found t' c hstate hrequested hne - - name hname
      obtain hname | hname := List.mem_append.1 hname
      · exact hstate name hname
      · obtain rfl := List.mem_singleton.1 hname
        exact ⟨hne, hrequested⟩
    rw [hadded] at hgranted
    exact hgranted name
  · rintro ⟨hne, requested, hrequested, hfound⟩
    obtain ⟨literals, node, hnode⟩ := h.exists_rootLiteral hm
    have hmem := mem_foldl_addSecondary (.refl literals) hnode
      (fun name => h.not_mem_rootNames hm) hrequested hfound hne
    rwa [hadded] at hmem

/-! ## Where the subtree is -/

/-- Adding the aliases leaves what was registered as it is. -/
theorem Proceeds.grows : m'.tree.Extends t ∧
    ∀ id, Tree.root < id → id < t.size → m'.tree.node? id = t.node? id := by
  refine (h.addsAliases hm (P := fun t' => t'.Extends t ∧
    ∀ id, Tree.root < id → id < t.size → t'.node? id = t.node? id)
    ⟨.refl t, fun _ _ _ => rfl⟩ ?_).2
  rintro t₁ t₂ target name c literals ⟨hextends, hsame⟩ hname hregister
  obtain ⟨-, hgraft⟩ := Tree.register_eq_graft hregister
  have hgrown : t₂.Extends t₁ := by
    rw [show t₂ = _ from congrArg Prod.fst hgraft]
    exact .graft t₁.hasRoot _
  refine ⟨hgrown.trans hextends, fun id hroot hlt => ?_⟩
  have hlt' := Nat.lt_of_lt_of_le hlt hextends.size_le
  rw [(literals.register_new hregister hname).2 id (Nat.ne_of_gt hroot) hlt', hsame id hroot hlt]

/-- The subtree fits where it is. -/
theorem Proceeds.check_eq_ok (unique : m.tree.UniqueParents) (distinct : sprout.Distinct) :
    m'.tree.check (some Tree.root) (sprout.withLiteral grant.name) = .ok () := by
  obtain ⟨-, hadd⟩ := Tree.register_eq_ok h.placed
  obtain ⟨hlt, hchecked, hgraft⟩ := Tree.addChild_eq_ok hadd
  obtain ⟨hextends, hsame⟩ := h.grows hm
  obtain ⟨rfl, -⟩ := Prod.mk.inj hgraft
  exact Tree.check_again unique hlt hchecked
    (distinct.of_children_eq (sprout.withLiteral_children grant.name)) hextends hsame

end

/-! ## Registrations that stand -/

/-- An alias of the registration with the owner in front that nobody has. -/
def Spares (m : Manager S E M) (registration : Registration S E M) (name : String) : Prop :=
  ∃ requested ∈ registration.secondary, ∃ kept, normalizeAlias requested = .ok kept ∧
    normalizeAlias (m.config.namespaced registration.owner kept) = .ok name ∧
      m.registry.IsFree name

section
variable [Capable S] {m m' : Manager S E M} {config : Config} {registration : Registration S E M}
  {mapping : Mapping} {index : Nat}

/-- The registration was made, and can be made again: the command with an index is what it led
to. -/
structure Stands (m : Manager S E M) (registration : Registration S E M) (index : Nat)
    (mapping : Mapping) : Prop where
  isLiteral : (registration.guardedSprout m.config).isLiteral = true
  lookup : m.registry.mappings[index]? = some mapping
  /-- The owner gets its own command for the primary alias. -/
  granted : m.registry.resolvePrimary m.config registration.owner
    (registration.guardedSprout m.config).name = .ok (.merge mapping.primary index)
  /-- The subtree is not refused. -/
  accepted : m.tree.check (some Tree.root)
    ((registration.guardedSprout m.config).withLiteral mapping.primary) = .ok ()
  /-- None of the aliases is to be had as it is. -/
  taken : ∀ requested ∈ registration.secondary, ∀ kept, normalizeAlias requested = .ok kept →
    ¬m.registry.IsFree kept
  described : mapping.description.amend registration.description = mapping.description

theorem distinct_guardedSprout (config : Config) (distinct : registration.sprout.Distinct) :
    (registration.guardedSprout config).Distinct := by
  obtain ⟨requirement, hrequirement⟩ := exists_guardedSprout_eq config registration
  exact distinct.of_children_eq (by rw [hrequirement]; rfl)

/-- A registration that goes through stands. -/
theorem exists_stands (hm : m.Coherent) (unique : m.tree.UniqueParents)
    (distinct : registration.sprout.Distinct) (henact : m.enact registration = .ok (m', mapping)) :
    ∃ index, m'.Stands registration index mapping := by
  rw [enact_eq, registerDescribed_eq_ok_iff] at henact
  obtain ⟨grant, t, x, added, h⟩ := henact
  obtain ⟨index, old, hregistered, hdescription⟩ := h.registered hm
  have hprimary : mapping.primary = grant.name := (hregistered.node_eq hm).1
  refine ⟨index, ?_, ?_, ?_, ?_, ?_, ?_⟩
  · rw [h.config_eq]
    exact h.isLiteral
  · rw [hregistered.recorded.mappings, if_pos rfl]
  · rw [h.config_eq, hprimary]
    exact hregistered.recorded.resolvePrimary_again hm.registry h.granted
  · rw [h.config_eq, hprimary]
    exact h.check_eq_ok hm unique (distinct_guardedSprout m.config distinct)
  · intro requested hrequested kept hkept
    rw [hregistered.recorded.coherent.not_isFree_iff,
      hregistered.recorded.lists_iff hm.registry hregistered.grants]
    by_cases hfree : m.registry.IsFree kept
    · -- It was granted as it is.
      by_cases hname : kept = grant.name
      · exact .inr (.inl hname)
      · have hfound : m.registry.resolveSecondary m.config registration.owner requested =
            some kept := Registry.resolveSecondary_eq_some_iff.2 ⟨kept, hkept, .inl ⟨hfree, rfl⟩⟩
        exact .inr (.inr ((h.mem_added_iff hm).2 ⟨hname, requested, hrequested, hfound⟩))
    · exact .inl (hm.registry.not_isFree_iff.1 hfree)
  · rw [hdescription, Description.amend_amend]

/-- The registration goes through and leads to a mapping that was there, which has aliases
added to it; these are also what is added to the aliases of the registry and to the names
under the root. -/
structure Repeats (m : Manager S E M) (registration : Registration S E M) (mapping : Mapping)
    (m' : Manager S E M) (more : List String) : Prop where
  enact_eq : m.enact registration =
    .ok (m', { mapping with aliases := mapping.aliases ++ more })
  rootNames_eq : m'.tree.rootNames = m.tree.rootNames ++ more
  lists_iff : ∀ name, m'.registry.Lists name ↔ m.registry.Lists name ∨ name ∈ more

/-- A registration that stands goes through all steps again. -/
theorem Stands.exists_proceeds (h : m.Stands registration index mapping) :
    ∃ m' again t x added, Proceeds m registration.owner (registration.guardedSprout m.config)
      registration.secondary registration.description m' again (.merge mapping.primary index) t x
      added := by
  have hliteral := (Sprout.withLiteral_isLiteral _ mapping.primary).trans h.isLiteral
  have hplaced := Tree.register_of_check hliteral h.accepted
  exact ⟨⟨⟨_, m.config⟩, _⟩, _, _, _, _, h.isLiteral, h.granted, hplaced, rfl, rfl, rfl⟩

theorem Stands.lists_primary (h : m.Stands registration index mapping) (hm : m.Coherent) :
    m.registry.Lists mapping.primary :=
  ⟨index, mapping, h.lookup, hm.registry.primary_mem h.lookup⟩

section
variable {again : Mapping} {t : Tree S E M} {x : Nat} {added : List String}
  (h : m.Stands registration index mapping) (hm : m.Coherent)
  (hproceeds : Proceeds m registration.owner (registration.guardedSprout m.config)
    registration.secondary registration.description m' again (.merge mapping.primary index) t x
    added)
include h hm hproceeds

/-- Since its aliases are taken, all it gets are those with the owner in front. -/
theorem Stands.mem_added_iff (name : String) : name ∈ added ↔ m.Spares registration name := by
  rw [hproceeds.mem_added_iff hm]
  constructor
  · rintro ⟨-, requested, hrequested, hfound⟩
    obtain ⟨kept, hkept, ⟨hfree, -⟩ | ⟨-, hspaced, hfree⟩⟩ :=
      Registry.resolveSecondary_eq_some_iff.1 hfound
    · exact absurd hfree (h.taken requested hrequested kept hkept)
    · exact ⟨requested, hrequested, kept, hkept, hspaced, hfree⟩
  · rintro ⟨requested, hrequested, kept, hkept, hspaced, hfree⟩
    have htaken := h.taken requested hrequested kept hkept
    refine ⟨?_, requested, hrequested, Registry.resolveSecondary_eq_some_iff.2
      ⟨kept, hkept, .inr ⟨htaken, hspaced, hfree⟩⟩⟩
    rintro rfl
    exact hm.registry.not_isFree_iff.2 (h.lists_primary hm) hfree

theorem Stands.repeats : m.Repeats registration mapping m' added := by
  obtain ⟨index', old, hregistered, hdescription⟩ := hproceeds.registered hm
  have hrecorded := hregistered.recorded
  have hlisted := h.lists_primary hm
  obtain ⟨rfl, hold⟩ := hrecorded.starts
  obtain rfl : mapping = old := Option.some.inj (h.lookup.symm.trans hold)
  refine ⟨?_, ?_, fun name => ?_⟩
  · have hagain : again = { mapping with aliases := mapping.aliases ++ added } := by
      rw [h.described] at hdescription
      cases again
      simp only [Mapping.mk.injEq]
      exact ⟨hrecorded.owner_eq, hrecorded.primary_eq, hrecorded.aliases, hrecorded.node_eq,
        hdescription⟩
    rw [enact_eq, registerDescribed_eq_ok_iff, ← hagain]
    exact ⟨_, t, x, added, hproceeds⟩
  · obtain ⟨_, _, -, -, -, hsame⟩ | ⟨hnotin, -⟩ := hregistered.placed.placed
    · rw [hregistered.aliased.names, hsame]
    · rw [hregistered.name_eq, hm.names] at hnotin
      exact absurd hlisted hnotin
  · rw [hrecorded.lists_iff hm.registry hregistered.grants]
    constructor
    · rintro (hbefore | rfl | hadded)
      · exact .inl hbefore
      · exact .inl hlisted
      · exact .inr hadded
    · exact fun hname => hname.imp_right .inr

end

/-- A registration that stands is repeated, and gets the aliases that it spares. -/
theorem Stands.exists_repeats (h : m.Stands registration index mapping) (hm : m.Coherent) :
    ∃ m' more, m.Repeats registration mapping m' more ∧ m'.Coherent ∧ more.Nodup ∧
      ∀ name, name ∈ more ↔ m.Spares registration name := by
  obtain ⟨m', again, t, x, added, hproceeds⟩ := h.exists_proceeds
  obtain ⟨_, _, hregistered, -⟩ := hproceeds.registered hm
  exact ⟨m', added, h.repeats hm hproceeds, hregistered.coherent hm, hregistered.aliased.nodup,
    h.mem_added_iff hm hproceeds⟩

/-- In every manager that registrations lead to, a registration without repeated names of
siblings that goes through goes through again, with the same mapping but for the aliases that
it spared the first time. When it is made a third time, nothing changes. -/
theorem repeats_enact {allowed : Registration S E M → Prop} (h : Reachable config allowed m)
    (distinct : registration.sprout.Distinct)
    (henact : m.enact registration = .ok (m', mapping)) :
    ∃ m₂ m₃ more, m'.Repeats registration mapping m₂ more ∧ more.Nodup ∧
      (∀ name, name ∈ more ↔ m'.Spares registration name) ∧
      m₂.Repeats registration { mapping with aliases := mapping.aliases ++ more } m₃ [] := by
  have hany : Reachable config (fun _ => True) m := h.mono fun _ _ => trivial
  have hfirst : Reachable config (fun _ => True) m' :=
    hany.tail ⟨registration, mapping, trivial, henact⟩
  obtain ⟨index, hstands⟩ := exists_stands h.coherent h.uniqueParents distinct henact
  obtain ⟨m₂, more, hrepeats, hm₂, hnodup, hmore⟩ := hstands.exists_repeats hfirst.coherent
  obtain ⟨index', hstands'⟩ :=
    exists_stands hfirst.coherent hfirst.uniqueParents distinct hrepeats.enact_eq
  obtain ⟨m₃, rest, hrepeats', -, -, hrest⟩ := hstands'.exists_repeats hm₂
  have hconfig : m₂.config = m'.config := by
    have hsecond : Reachable config (fun _ => True) m₂ :=
      hfirst.tail ⟨registration, _, trivial, hrepeats.enact_eq⟩
    exact hsecond.config_eq.trans hfirst.config_eq.symm
  -- What is spared the second time was spared the first time, and so it is taken by now.
  have hnone : rest = [] := by
    refine List.eq_nil_iff_forall_not_mem.2 fun name hname => ?_
    obtain ⟨requested, hrequested, kept, hkept, hspaced, hfree⟩ := (hrest name).1 hname
    refine hm₂.registry.not_isFree_iff.2 ((hrepeats.lists_iff name).2 ?_) hfree
    by_cases hfree' : m'.registry.IsFree name
    · rw [hconfig] at hspaced
      exact .inr ((hmore name).2 ⟨requested, hrequested, kept, hkept, hspaced, hfree'⟩)
    · exact .inl (hfirst.coherent.registry.not_isFree_iff.1 hfree')
  exact ⟨m₂, m₃, more, hrepeats, hnodup, hmore, hnone ▸ hrepeats'⟩

end

theorem distinct_tpWith (executor : Nat) (secondary : List String) :
    (tpWith executor secondary).sprout.Distinct :=
  ⟨List.nodup_nil, fun _ hchild => absurd hchild List.not_mem_nil⟩

/-- When `tp` is registered again with the alias `teleport`, it gets `demo.teleport` besides.
When it is registered a third time, it gets nothing more. -/
theorem repeats_tp : (empty {}).enact (tpWith 1 ["teleport"]) =
      .ok (tpFirst, ⟨"demo", "tp", ["tp", "teleport"], 1, {}⟩) ∧
    ∃ m₂ m₃ more, "demo.teleport" ∈ more ∧
      tpFirst.Repeats (tpWith 1 ["teleport"]) ⟨"demo", "tp", ["tp", "teleport"], 1, {}⟩ m₂ more ∧
      m₂.Repeats (tpWith 1 ["teleport"])
        ⟨"demo", "tp", ["tp", "teleport"] ++ more, 1, {}⟩ m₃ [] := by
  have start : Reachable {} (fun _ => True) (empty {} : Manager Principal Nat Unit) := .refl
  have first : (empty {}).enact (tpWith 1 ["teleport"]) =
      .ok (tpFirst, ⟨"demo", "tp", ["tp", "teleport"], 1, {}⟩) := rfl
  obtain ⟨m₂, m₃, more, second, -, spared, third⟩ :=
    repeats_enact start (distinct_tpWith 1 ["teleport"]) first
  refine ⟨first, m₂, m₃, more, (spared "demo.teleport").2 ?_, second, third⟩
  exact ⟨"teleport", List.mem_singleton_self _, "teleport", rfl, rfl, rfl⟩

/-- So registering again can change the mapping, the aliases and the literals of the root. -/
theorem exists_enact_ne : (tpWith 1 ["teleport"]).sprout.Distinct ∧
    ∃ m₁ m₂ mapping mapping', (empty {}).enact (tpWith 1 ["teleport"]) = .ok (m₁, mapping) ∧
      m₁.enact (tpWith 1 ["teleport"]) = .ok (m₂, mapping') ∧ mapping' ≠ mapping ∧
      m₁.mapping? "demo.teleport" = none ∧ m₂.mapping? "demo.teleport" = some mapping' ∧
      "demo.teleport" ∉ m₁.tree.rootNames ∧ "demo.teleport" ∈ m₂.tree.rootNames :=
  ⟨distinct_tpWith 1 ["teleport"], tpFirst, tpFirst.after (tpWith 1 ["teleport"]),
    ⟨"demo", "tp", ["tp", "teleport"], 1, {}⟩,
    ⟨"demo", "tp", ["tp", "teleport", "demo.teleport"], 1, {}⟩, rfl, rfl, by decide, rfl, rfl,
    by decide, by decide⟩

end Manager
end Dispatch
