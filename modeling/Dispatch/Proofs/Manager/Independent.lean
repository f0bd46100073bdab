import Dispatch.Proofs.Execution.Renumbering
import Dispatch.Proofs.Manager.Again
import Dispatch.Proofs.Manager.AliasLine
/-!
# Independent registrations

Two registrations that ask for names of their own, all of them free, can be made in either
order. What one of them adds is new nodes under new literals of the root, beside what the
other adds. So where a registration goes through in one manager, it goes through in every
manager where its names are free (`Opens.exists_opens`), and adds the same there, only with
other numbers (`Opens.growsAlike`). After both of them, in either order, the commands have the
same owners, aliases and descriptions, and every line runs the same; only the numbers of the
nodes and the order of what is listed differ (`after_after_comm`).
-/
namespace Dispatch
variable {S E M : Type}

namespace Sprout
variable {b b' : Sprout S E M}

theorem IsPlain.of_eq (h : b.IsPlain) (redirect : b'.redirect = b.redirect)
    (children : b'.children = b.children) : b'.IsPlain :=
  .mk (redirect.trans h.redirect_eq) (children ▸ h.child)

theorem IsPlain.withLiteral (h : b.IsPlain) (text : String) : (b.withLiteral text).IsPlain := by
  refine h.of_eq ?_ (b.withLiteral_children text)
  cases hlabel : b.label <;> simp [Sprout.withLiteral, hlabel]

theorem IsStandard.isPlain (h : b.IsStandard) : b.IsPlain := by
  induction h with
  | mk _ plain _ ih => exact .mk plain ih

end Sprout

namespace Tree
variable {t t' : Tree S E M} {b : Sprout S E M}

/-- Whether a sprout without redirects fits where nothing has its name does not depend on the
tree. -/
theorem Accepts.of_isPlain (plain : b.IsPlain) (h : t.Accepts none b) : t'.Accepts none b := by
  induction plain with
  | mk redirect _ ih =>
    refine ⟨?_, by simp, by simp [redirect], h.siblings, fun child hchild => ?_⟩
    · intro x hx
      exact absurd (redirect.symm.trans hx) nofun
    · exact check_eq_ok_iff.2 (ih child hchild (check_eq_ok_iff.1 (h.below child hchild)))

/-- A literal of a new name without redirects that is registered in one tree can be registered
in every tree where its name is new. -/
theorem HasLiterals.register_of_register {t₁ : Tree S E M} {x : Nat} (literals : t.HasLiterals)
    (literals' : t'.HasLiterals) (hname : b.name ∉ t.rootNames) (hname' : b.name ∉ t'.rootNames)
    (plain : b.IsPlain) (h : t.register b = .ok (t₁, x)) :
    t'.register b = .ok (t'.graft root b) := by
  obtain ⟨hliteral, hadd⟩ := register_eq_ok h
  obtain ⟨-, hcheck, -⟩ := addChild_eq_ok hadd
  rw [check_eq_ok_iff, Option.bind_some, literals.findChild?_eq_none_iff.2 hname] at hcheck
  refine register_of_check hliteral (check_eq_ok_iff.2 ?_)
  rw [Option.bind_some, literals'.findChild?_eq_none_iff.2 hname']
  exact hcheck.of_isPlain plain

end Tree

namespace Registry
variable {r : Registry} {config : Config} {owner requested name : String}

/-- A free name is granted as it is. -/
theorem resolvePrimary_of_isFree (hname : normalizeAlias requested = .ok name)
    (hfree : r.IsFree name) : r.resolvePrimary config owner requested = .ok (.free name) := by
  have hgrant : r.grant? owner name = some (.free name) := by
    rw [grant?, hfree]
  exact resolvePrimary_eq_ok_iff.2 ⟨name, hname, .inl hgrant⟩

theorem resolveSecondary_of_isFree (hname : normalizeAlias requested = .ok name)
    (hfree : r.IsFree name) : r.resolveSecondary config owner requested = some name :=
  resolveSecondary_eq_some_iff.2 ⟨name, hname, .inl ⟨hfree, rfl⟩⟩

/-- A command under a name that was free is listed last. -/
theorem Records.mappings_eq {node index : Nat} {added : List String} {r' : Registry}
    {old new : Mapping} (h : r.Records (.free name) owner node added r' index old new) :
    r'.mappings = r.mappings ++ [new] := by
  have hnone := h.starts.1
  have hnew : r'.mappings[index]? = some new := by rw [h.mappings, if_pos rfl]
  have hindex : index = r.mappings.length := by
    rw [List.getElem?_eq_none_iff] at hnone
    by_contra hne
    have hlength : r'.mappings.length ≤ r.mappings.length := by
      rw [← List.getElem?_eq_none_iff, h.mappings, if_neg (Ne.symm hne)]
      exact List.getElem?_eq_none (Nat.le_refl _)
    have := (List.getElem?_eq_some_iff.1 hnew).1
    omega
  subst hindex
  refine List.ext_getElem? fun i => ?_
  rw [h.mappings]
  split
  · next hi => rw [hi, List.getElem?_concat_length]
  · next hi =>
    rcases Nat.lt_or_ge i r.mappings.length with hlt | hge
    · rw [List.getElem?_append_left hlt]
    · rw [List.getElem?_eq_none hge, List.getElem?_eq_none]
      rw [List.length_append, List.length_singleton]
      omega

end Registry

/-- The command, its node under another number. -/
def Mapping.renumber (σ : Nat → Nat) (mapping : Mapping) : Mapping :=
  { mapping with node := σ mapping.node }

/-- The name is one of those that are asked for, as it would be kept. -/
def Registration.Requests (registration : Registration S E M) (name : String) : Prop :=
  ∃ requested ∈ registration.sprout.name :: registration.secondary,
    normalizeAlias requested = .ok name

namespace Manager

/-- All names are free that are asked for. -/
def Frees (m : Manager S E M) (registration : Registration S E M) : Prop :=
  ∀ name, registration.Requests name → m.registry.IsFree name

/-! ## Adding aliases alike -/

section
variable {registry registry' : Registry} {config : Config} {owner primary requested : String}
  {x s : Nat} {t₀ t₀' t t' : Tree S E M} {node node' : Node S E M}
  {state state' : Tree S E M × List String}

/-- An alias of a new node is the same but for the shift. -/
theorem toNode_aliasSprout (h : t₀.GrowsAlike t₀' s t t') (hx : t₀.size ≤ x) (name : String) :
    (aliasSprout t' (x + s) name).toNode = (aliasSprout t x name).toNode.renumber (· + s) := by
  rw [aliasSprout, h.nodes x hx, aliasSprout]
  cases t.node? x <;> rfl

/-- The same aliases of a new literal are added to two trees, which grow alike. -/
structure AddsAlike (registry registry' : Registry) (primary : String) (x s : Nat)
    (t₀ t₀' t t' : Tree S E M) (state state' : Tree S E M × List String) : Prop where
  added_eq : state'.2 = state.2
  grows : t₀.GrowsAlike t₀' s state.1 state'.1
  adds : AddsAliases registry primary x t state.1 state.2
  adds' : AddsAliases registry' primary (x + s) t' state'.1 state'.2

section
variable (hx : t.RootLiteral primary x node) (hx' : t'.RootLiteral primary (x + s) node')
  (hnew : t₀.size ≤ x)
  (hfree : ∀ name, registry.IsFree name → name ≠ primary → name ∉ t.rootNames)
  (hfree' : ∀ name, registry'.IsFree name → name ≠ primary → name ∉ t'.rootNames)
include hx hx' hnew hfree hfree'

/-- One more alias is added alike, or to neither of the trees. -/
theorem AddsAlike.addSecondary
    (h : AddsAlike registry registry' primary x s t₀ t₀' t t' state state')
    (hboth : ∀ name, normalizeAlias requested = .ok name →
      registry.IsFree name ∧ registry'.IsFree name) :
    AddsAlike registry registry' primary x s t₀ t₀' t t'
      (addSecondary registry config owner primary x state requested)
      (addSecondary registry' config owner primary (x + s) state' requested) := by
  obtain ⟨t₁, added⟩ := state
  obtain ⟨t₁', added'⟩ := state'
  obtain ⟨rfl : added' = added, hgrows, hadds, hadds'⟩ := h
  -- The name is free in both registries, so the owner is never put in front of it.
  cases hname : normalizeAlias requested with
  | error error =>
    have hnone : ∀ r : Registry, r.resolveSecondary config owner requested = none := by
      intro r
      simp [Registry.resolveSecondary, hname, Except.toOption]
    simp only [Manager.addSecondary, hnone]
    exact ⟨rfl, hgrows, hadds, hadds'⟩
  | ok name =>
    obtain ⟨hisFree, hisFree'⟩ := hboth name hname
    have hfound : registry.resolveSecondary config owner requested = some name :=
      Registry.resolveSecondary_of_isFree hname hisFree
    have hfound' : registry'.resolveSecondary config owner requested = some name :=
      Registry.resolveSecondary_of_isFree hname hisFree'
    by_cases hknown : name = primary ∨ name ∈ added'
    · simp only [Manager.addSecondary, hfound, hfound', if_pos hknown]
      exact ⟨rfl, hgrows, hadds, hadds'⟩
    · obtain ⟨hne, hnotin⟩ := not_or.1 hknown
      have halias := isAlias_of_normalizeAlias hname
      have habsent : (aliasSprout t₁ x name).name ∉ t₁.rootNames :=
        hadds.not_mem_rootNames hfree hisFree hne hnotin
      have habsent' : (aliasSprout t₁' (x + s) name).name ∉ t₁'.rootNames :=
        hadds'.not_mem_rootNames hfree' hisFree' hne hnotin
      have hlt := Tree.lt_size_of_node? (hadds.kept primary x node hx).lookup
      have hlt' := Tree.lt_size_of_node? (hadds'.kept primary (x + s) node' hx').lookup
      obtain ⟨t₂, c, hregister⟩ : ∃ t₂ c, t₁.register (aliasSprout t₁ x name) = .ok (t₂, c) :=
        exists_register_aliasSprout hadds.literals hlt habsent
      obtain ⟨t₂', c', hregister'⟩ : ∃ t₂ c,
          t₁'.register (aliasSprout t₁' (x + s) name) = .ok (t₂, c) :=
        exists_register_aliasSprout hadds'.literals hlt' habsent'
      simp only [Manager.addSecondary, hfound, hfound', if_neg hknown, hregister, hregister']
      refine ⟨rfl, ?_, hadds.register hx hfree halias hisFree hne hnotin hregister,
        hadds'.register hx' hfree' halias hisFree' hne hnotin hregister'⟩
      refine hgrows.register hadds.literals hadds'.literals habsent habsent'
        (toNode_aliasSprout hgrows hnew name) rfl ?_ ?_ hregister hregister'
      · simp [children_aliasSprout]
      · rintro y ⟨⟩
        exact ⟨hnew, hlt, rfl⟩

theorem AddsAlike.foldl (config : Config) (owner : String) {secondary : List String}
    (h : AddsAlike registry registry' primary x s t₀ t₀' t t' state state')
    (hboth : ∀ requested ∈ secondary, ∀ name, normalizeAlias requested = .ok name →
      registry.IsFree name ∧ registry'.IsFree name) :
    AddsAlike registry registry' primary x s t₀ t₀' t t'
      (secondary.foldl (Manager.addSecondary registry config owner primary x) state)
      (secondary.foldl (Manager.addSecondary registry' config owner primary (x + s)) state') := by
  induction secondary generalizing state state' with
  | nil => exact h
  | cons requested rest ih =>
    refine ih ?_ fun other hother => hboth other (List.mem_cons_of_mem requested hother)
    exact h.addSecondary hx hx' hnew hfree hfree' (hboth requested List.mem_cons_self)

end
end

/-! ## One registration -/

section
variable {m m' m₁ m₁' : Manager S E M} {owner : String} {sprout : Sprout S E M}
  {secondary added added' : List String} {description : Description} {mapping mapping' : Mapping}
  {grant grant' : Grant} {t t' : Tree S E M} {x x' s : Nat} {name : String}

/-- The steps of a registration that asks for free names only. -/
structure Opens (m : Manager S E M) (owner : String) (sprout : Sprout S E M)
    (secondary : List String) (description : Description) (m' : Manager S E M) (mapping : Mapping)
    (grant : Grant) (t : Tree S E M) (x : Nat) (added : List String) : Prop
    extends Proceeds m owner sprout secondary description m' mapping grant t x added where
  free : ∀ requested ∈ sprout.name :: secondary, ∀ name, normalizeAlias requested = .ok name →
    m.registry.IsFree name
  plain : sprout.IsPlain

section
variable (h : Opens m owner sprout secondary description m₁ mapping grant t x added)
  (hm : m.Coherent)
include h hm

/-- It is granted the name that it asks for, which becomes a new literal. -/
theorem Opens.exists_grant_eq : ∃ kept, grant = .free kept ∧
    normalizeAlias sprout.name = .ok kept ∧ kept ∉ m.tree.rootNames ∧ x = m.tree.size := by
  obtain ⟨kept, hkept, -⟩ := Registry.resolvePrimary_eq_ok_iff.1 h.granted
  have hfree := h.free sprout.name List.mem_cons_self kept hkept
  have hgranted : m.registry.resolvePrimary m.config owner sprout.name = .ok (.free kept) :=
    Registry.resolvePrimary_of_isFree hkept hfree
  obtain rfl : grant = .free kept := Except.ok.inj (h.granted.symm.trans hgranted)
  have hname : kept ∉ m.tree.rootNames := hm.not_mem_rootNames hfree
  refine ⟨kept, rfl, hkept, hname, ?_⟩
  exact (hm.literals.register_new h.placed (h.name_eq.symm ▸ hname)).1

/-- Further aliases are those that it asks for. -/
theorem Opens.exists_requested (hname : name ∈ added) :
    ∃ requested ∈ secondary, normalizeAlias requested = .ok name := by
  obtain ⟨-, requested, hrequested, hfound⟩ := (h.mem_added_iff hm).1 hname
  obtain ⟨kept, hkept, ⟨-, rfl⟩ | ⟨htaken, -⟩⟩ := Registry.resolveSecondary_eq_some_iff.1 hfound
  · exact ⟨requested, hrequested, hkept⟩
  · exact absurd (h.free requested (List.mem_cons_of_mem _ hrequested) kept hkept) htaken

/-- It adds one command. -/
theorem Opens.mappings_eq : m₁.mappings = m.mappings ++ [mapping] ∧
    mapping = ⟨owner, grant.name, grant.name :: added, m.tree.size,
      ({} : Description).amend description⟩ := by
  obtain ⟨kept, rfl, -, -, hx⟩ := h.exists_grant_eq hm
  obtain ⟨index, old, hregistered, hdescription⟩ := h.registered hm
  have hrecorded := hregistered.recorded
  refine ⟨hrecorded.mappings_eq, ?_⟩
  have hold := hrecorded.starts.2
  have howner := hrecorded.owner_eq
  have hprimary := hrecorded.primary_eq
  have haliases := hrecorded.aliases
  have hnode := hrecorded.node_eq
  rw [hold] at howner hprimary haliases hnode hdescription
  rw [hx] at hnode
  cases mapping
  simp only [Mapping.mk.injEq]
  exact ⟨howner, hprimary, haliases, hnode, hdescription⟩

/-- The names that are taken afterwards were taken before or are asked for. -/
theorem Opens.lists_cases (hname : m₁.registry.Lists name) : m.registry.Lists name ∨
    ∃ requested ∈ sprout.name :: secondary, normalizeAlias requested = .ok name := by
  obtain ⟨kept, rfl, hkept, -, -⟩ := h.exists_grant_eq hm
  obtain ⟨index, old, hregistered, -⟩ := h.registered hm
  rw [hregistered.recorded.lists_iff hm.registry hregistered.grants] at hname
  rcases hname with hbefore | rfl | hadded
  · exact .inl hbefore
  · exact .inr ⟨sprout.name, List.mem_cons_self, hkept⟩
  · obtain ⟨requested, hrequested, hkept'⟩ := h.exists_requested hm hadded
    exact .inr ⟨requested, List.mem_cons_of_mem _ hrequested, hkept'⟩

/-- It goes through in every manager where its names are free. -/
theorem Opens.exists_opens (hm' : m'.Coherent)
    (free' : ∀ requested ∈ sprout.name :: secondary, ∀ name, normalizeAlias requested = .ok name →
      m'.registry.IsFree name) :
    ∃ m₁' mapping' t' x' added',
      Opens m' owner sprout secondary description m₁' mapping' grant t' x' added' := by
  obtain ⟨kept, rfl, hkept, hname, -⟩ := h.exists_grant_eq hm
  have hfree' := free' sprout.name List.mem_cons_self kept hkept
  have hname' : kept ∉ m'.tree.rootNames := hm'.not_mem_rootNames hfree'
  have hlabel : (sprout.withLiteral kept).name = kept := h.name_eq
  have hplaced := hm.literals.register_of_register hm'.literals (hlabel.symm ▸ hname)
    (hlabel.symm ▸ hname') (h.plain.withLiteral kept) h.placed
  have hgranted : m'.registry.resolvePrimary m'.config owner sprout.name = .ok (.free kept) :=
    Registry.resolvePrimary_of_isFree hkept hfree'
  exact ⟨⟨⟨_, m'.config⟩, _⟩, _, _, _, _, ⟨h.isLiteral, hgranted, hplaced, rfl, rfl, rfl⟩, free',
    h.plain⟩

/-- It adds the same to two trees. -/
theorem Opens.growsAlike
    (h' : Opens m' owner sprout secondary description m₁' mapping' grant' t' x' added')
    (hm' : m'.Coherent) (hconfig : m'.config = m.config) (hsize : m'.tree.size = m.tree.size + s) :
    grant' = grant ∧ added' = added ∧ m.tree.GrowsAlike m'.tree s m₁.tree m₁'.tree := by
  obtain ⟨kept, rfl, hkept, hname, rfl⟩ := h.exists_grant_eq hm
  obtain ⟨kept', rfl, hkept', hname', rfl⟩ := h'.exists_grant_eq hm'
  obtain rfl : kept = kept' := Except.ok.inj (hkept.symm.trans hkept')
  have hlabel : (sprout.withLiteral kept).name = kept := h.name_eq
  have hplain := h.plain.withLiteral kept
  -- First comes the subtree, which redirects nowhere, then its aliases, which redirect to it.
  have hgrown : m.tree.GrowsAlike m'.tree s t t' := by
    refine (Tree.GrowsAlike.refl hsize).register hm.literals hm'.literals (hlabel.symm ▸ hname)
      (hlabel.symm ▸ hname') (Node.toNode_renumber hplain.redirect_eq _).symm rfl hplain.child ?_
      h.placed h'.placed
    intro y hy
    exact absurd (hplain.redirect_eq.symm.trans hy) nofun
  obtain ⟨literals, node, hnode⟩ := h.exists_rootLiteral hm
  obtain ⟨literals', node', hnode'⟩ := h'.exists_rootLiteral hm'
  rw [hsize] at hnode'
  have hstart : AddsAlike m.registry m'.registry kept m.tree.size s m.tree m'.tree t t' (t, [])
      (t', []) := ⟨rfl, hgrown, .refl literals, .refl literals'⟩
  have hadds := hstart.foldl hnode hnode' (Nat.le_refl _) (fun name => h.not_mem_rootNames hm)
    (fun name => h'.not_mem_rootNames hm') m.config owner
    fun requested hrequested name hname =>
      ⟨h.free requested (List.mem_cons_of_mem _ hrequested) name hname,
        h'.free requested (List.mem_cons_of_mem _ hrequested) name hname⟩
  have hextended' := h'.extended
  rw [hconfig, hsize] at hextended'
  rw [h.extended, hextended'] at hadds
  exact ⟨rfl, hadds.added_eq, hadds.grows⟩

theorem Opens.coherent : m₁.Coherent := by
  obtain ⟨_, _, hregistered, -⟩ := h.registered hm
  exact hregistered.coherent hm

/-- It adds nodes. -/
theorem Opens.exists_size_eq : ∃ n, 0 < n ∧ m₁.tree.size = m.tree.size + n := by
  obtain ⟨_, hmapping⟩ := h.mappings_eq hm
  obtain ⟨_, _, hregistered, -⟩ := h.registered hm
  have hlast : m₁.registry.mappings[_]? = some mapping :=
    (hregistered.recorded.mappings _).trans (if_pos rfl)
  obtain ⟨node, hnode⟩ := (h.coherent hm).primary _ mapping hlast
  have hlt := Tree.lt_size_of_node? hnode.lookup
  rw [hmapping] at hlt
  exact ⟨m₁.tree.size - m.tree.size, Nat.sub_pos_of_lt hlt,
    (Nat.add_sub_of_le (Nat.le_of_lt hlt)).symm⟩

end
end

/-! ## Two registrations -/

/-- Managers with the same settings of which one has the commands of the other, with the same
owners, aliases and descriptions, in some order, and its nodes under other numbers. -/
structure Renumbers (σ : Equiv.Perm Nat) (m m' : Manager S E M) : Prop where
  config_eq : m'.config = m.config
  mappings : m'.mappings.Perm (m.mappings.map (Mapping.renumber σ))
  mapping?_eq : ∀ name, m'.mapping? name = (m.mapping? name).map (Mapping.renumber σ)
  tree : m.tree.Renumbers σ m'.tree

section
variable {σ : Equiv.Perm Nat} {m m' ma mb mab mba : Manager S E M} {mapping : Mapping}
  {name : String}

theorem Renumbers.refl (m : Manager S E M) : Renumbers (Equiv.refl Nat) m m := by
  have hmapping : Mapping.renumber id = id := rfl
  have hnode : (Node.renumber id : Node S E M → Node S E M) = id := funext Node.renumber_id
  refine ⟨rfl, by simp [hmapping], by simp [hmapping], ⟨rfl, by simp [hnode], by simp, ?_⟩⟩
  exact fun _ _ _ _ _ _ _ => rfl

/-- A name leads to a command that is listed and has it. -/
theorem Coherent.mapping?_eq_some_iff (hm : m.Coherent) : m.mapping? name = some mapping ↔
    mapping ∈ m.mappings ∧ Text.toLower name ∈ mapping.aliases := by
  rw [mapping?, hm.registry.get?_eq_some_iff, exists_and_right, ← List.mem_iff_getElem?]
  rfl

/-- Where the commands are the same, names lead to the same. -/
theorem Coherent.mapping?_eq (hm : m.Coherent) (hm' : m'.Coherent)
    (h : m'.mappings.Perm (m.mappings.map (Mapping.renumber σ))) (name : String) :
    m'.mapping? name = (m.mapping? name).map (Mapping.renumber σ) := by
  refine Option.ext fun mapping => ?_
  rw [hm'.mapping?_eq_some_iff, h.mem_iff, List.mem_map, Option.map_eq_some_iff]
  constructor
  · rintro ⟨⟨old, hold, rfl⟩, hname⟩
    exact ⟨old, hm.mapping?_eq_some_iff.2 ⟨hold, hname⟩, rfl⟩
  · rintro ⟨old, hold, rfl⟩
    obtain ⟨hmem, hname⟩ := hm.mapping?_eq_some_iff.1 hold
    exact ⟨⟨old, hmem, rfl⟩, hname⟩

/-- The nodes of commands are in the tree. -/
theorem Coherent.node_lt_size (hm : m.Coherent) (hmem : mapping ∈ m.mappings) :
    mapping.node < m.tree.size := by
  obtain ⟨i, hi⟩ := List.getElem?_of_mem hmem
  obtain ⟨node, hnode⟩ := hm.primary i mapping hi
  exact Tree.lt_size_of_node? hnode.lookup

variable {owner owner' : String} {sprout sprout' : Sprout S E M}
  {secondary secondary' added added' addedA addedB : List String}
  {description description' : Description} {a b a' b' : Mapping} {grant grant' : Grant}
  {t t' ta tb : Tree S E M} {x x' xa xb : Nat}

/-- Two registrations of free names that are made in either order add the same, but with the
numbers exchanged. -/
theorem Opens.renumbers (hm : m.Coherent) (inside : m.tree.RedirectsInside)
    (ha : Opens m owner sprout secondary description ma a grant t x added)
    (hb : Opens m owner' sprout' secondary' description' mb b grant' t' x' added')
    (hab : Opens ma owner' sprout' secondary' description' mab b' grant' tb xb addedB)
    (hba : Opens mb owner sprout secondary description mba a' grant ta xa addedA) :
    ∃ σ, Renumbers σ mab mba := by
  have hma := ha.coherent hm
  have hmb := hb.coherent hm
  obtain ⟨na, hna, hsize⟩ := ha.exists_size_eq hm
  obtain ⟨nb, hnb, hsize'⟩ := hb.exists_size_eq hm
  obtain ⟨-, rfl, hgrown⟩ := ha.growsAlike hm hba hmb hb.config_eq hsize'
  obtain ⟨-, rfl, hgrown'⟩ := hb.growsAlike hm hab hma ha.config_eq hsize
  obtain ⟨hmappings, hcommand⟩ := ha.mappings_eq hm
  obtain ⟨hmappings', hcommand'⟩ := hb.mappings_eq hm
  obtain ⟨hlater, hsame⟩ := hba.mappings_eq hmb
  obtain ⟨hlater', hsame'⟩ := hab.mappings_eq hma
  have hold : m.mappings.map (Mapping.renumber (exchange m.tree.size na nb)) = m.mappings := by
    refine (List.map_congr_left fun mapping hmem => ?_).trans (List.map_id _)
    rw [Mapping.renumber, exchange_of_lt (hm.node_lt_size hmem)]
    rfl
  -- Each of the two new commands moves by as many numbers as the other one takes.
  have hfirst : a.renumber (exchange m.tree.size na nb) = a' := by
    rw [hcommand, hsame, Mapping.renumber, hsize', exchange_of_first (Nat.le_refl _) (by omega)]
  have hsecond : b'.renumber (exchange m.tree.size na nb) = b := by
    rw [hcommand', hsame', Mapping.renumber, hsize,
      exchange_of_second (Nat.le_refl _) (by omega)]
  have hperm : mba.mappings.Perm
      (mab.mappings.map (Mapping.renumber (exchange m.tree.size na nb))) := by
    rw [hlater, hmappings', hlater', hmappings, List.map_append, List.map_append, hold,
      List.map_singleton, List.map_singleton, hfirst, hsecond, List.append_assoc, List.append_assoc]
    exact List.perm_append_comm.append_left _
  refine ⟨exchange m.tree.size na nb, ?_, hperm, ?_, ?_⟩
  · rw [hab.config_eq, hba.config_eq, ha.config_eq, hb.config_eq]
  · exact (hab.coherent hma).mapping?_eq (hba.coherent hmb) hperm
  · exact Tree.renumbers_exchange hgrown hgrown' inside

end

section
variable [Capable S] {m m' m₁ : Manager S E M} {config : Config}
  {registration registration' : Registration S E M} {mapping : Mapping}

theorem after_of_enact (h : m.enact registration = .ok (m₁, mapping)) :
    m.after registration = m₁ := by
  rw [after, h]

theorem after_of_refused (h : ∀ m₁ mapping, m.enact registration ≠ .ok (m₁, mapping)) :
    m.after registration = m := by
  rw [after]
  split
  · next m₁ mapping henact => exact absurd henact (h m₁ mapping)
  · rfl

/-- A registration of free names goes through as `Opens` says. -/
theorem exists_opens_of_enact (free : m.Frees registration) (plain : registration.sprout.IsPlain)
    (h : m.enact registration = .ok (m₁, mapping)) : ∃ grant t x added,
      Opens m registration.owner (registration.guardedSprout m.config) registration.secondary
        registration.description m₁ mapping grant t x added := by
  obtain ⟨requirement, hsprout⟩ := exists_guardedSprout_eq m.config registration
  rw [enact_eq, registerDescribed_eq_ok_iff] at h
  obtain ⟨grant, t, x, added, hproceeds⟩ := h
  refine ⟨grant, t, x, added, hproceeds, fun requested hrequested name hname => ?_, ?_⟩
  · rw [hsprout] at hrequested
    exact free name ⟨requested, hrequested, hname⟩
  · rw [hsprout]
    exact plain.of_eq rfl rfl

/-- The names of another registration stay free. -/
theorem Opens.frees {grant : Grant} {t : Tree S E M} {x : Nat} {added : List String}
    (h : Opens m registration.owner (registration.guardedSprout m.config) registration.secondary
      registration.description m₁ mapping grant t x added) (hm : m.Coherent)
    (free' : m.Frees registration')
    (disjoint : ∀ name, registration.Requests name → ¬registration'.Requests name) :
    m₁.Frees registration' := by
  intro name hname
  by_contra htaken
  rw [(h.coherent hm).registry.not_isFree_iff] at htaken
  rcases h.lists_cases hm htaken with hbefore | ⟨requested, hrequested, hkept⟩
  · exact hm.registry.not_isFree_iff.2 hbefore (free' name hname)
  · obtain ⟨requirement, hsprout⟩ := exists_guardedSprout_eq m.config registration
    rw [hsprout] at hrequested
    exact disjoint name ⟨requested, hrequested, hkept⟩ hname

/-- What goes through in one manager goes through in every other one where its names are
free. -/
theorem Opens.exists_enact {grant : Grant} {t : Tree S E M} {x : Nat} {added : List String}
    (h : Opens m registration.owner (registration.guardedSprout m.config) registration.secondary
      registration.description m₁ mapping grant t x added) (hm : m.Coherent) (hm' : m'.Coherent)
    (hconfig : m'.config = m.config) (free' : m'.Frees registration) :
    ∃ m₁' mapping' t' x' added', m'.enact registration = .ok (m₁', mapping') ∧
      Opens m' registration.owner (registration.guardedSprout m.config) registration.secondary
        registration.description m₁' mapping' grant t' x' added' := by
  obtain ⟨m₁', mapping', t', x', added', hopens⟩ := h.exists_opens hm hm' <| by
    intro requested hrequested name hname
    obtain ⟨requirement, hsprout⟩ := exists_guardedSprout_eq m.config registration
    rw [hsprout] at hrequested
    exact free' name ⟨requested, hrequested, hname⟩
  refine ⟨m₁', mapping', t', x', added', ?_, hopens⟩
  rw [enact_eq, registerDescribed_eq_ok_iff, hconfig]
  exact ⟨grant, t', x', added', hopens.toProceeds⟩

/-- What is refused is refused as well after another registration of other names. -/
theorem after_after_of_refused (hm : m.Coherent) (free : m.Frees registration)
    (free' : m.Frees registration') (plain : registration.sprout.IsPlain)
    (plain' : registration'.sprout.IsPlain)
    (disjoint : ∀ name, registration'.Requests name → ¬registration.Requests name)
    (refused : ∀ m₁ mapping, m.enact registration ≠ .ok (m₁, mapping)) :
    (m.after registration').after registration = m.after registration' := by
  refine after_of_refused fun m₂ mapping₂ hlater => ?_
  by_cases hmade : ∃ m₁ mapping, m.enact registration' = .ok (m₁, mapping)
  · obtain ⟨m₁, mapping, hmade⟩ := hmade
    obtain ⟨grant, t, x, added, hopens⟩ := exists_opens_of_enact free' plain' hmade
    have hfree := hopens.frees hm free disjoint
    rw [after_of_enact hmade] at hlater
    obtain ⟨_, _, _, _, hlater⟩ := exists_opens_of_enact hfree plain hlater
    obtain ⟨_, _, _, _, _, henact, -⟩ :=
      hlater.exists_enact (hopens.coherent hm) hm hopens.config_eq.symm free
    exact refused _ _ henact
  · rw [after_of_refused fun m₁ mapping h => hmade ⟨m₁, mapping, h⟩] at hlater
    exact refused _ _ hlater

/-- Two registrations of free names of their own come to the same in either order. -/
theorem exists_renumbers_after {allowed : Registration S E M → Prop}
    (h : Reachable config allowed m) (free : m.Frees registration)
    (free' : m.Frees registration') (plain : registration.sprout.IsPlain)
    (plain' : registration'.sprout.IsPlain)
    (disjoint : ∀ name, registration.Requests name → ¬registration'.Requests name) :
    ∃ σ, Renumbers σ ((m.after registration).after registration')
      ((m.after registration').after registration) := by
  have hm := h.coherent
  have disjoint' : ∀ name, registration'.Requests name → ¬registration.Requests name :=
    fun name hname' hname => disjoint name hname hname'
  -- One that is refused is refused in either order, and then there is only one to make.
  by_cases hmade : ∃ ma a, m.enact registration = .ok (ma, a)
  · by_cases hmade' : ∃ mb b, m.enact registration' = .ok (mb, b)
    · obtain ⟨ma, a, hmade⟩ := hmade
      obtain ⟨mb, b, hmade'⟩ := hmade'
      obtain ⟨_, _, _, _, ha⟩ := exists_opens_of_enact free plain hmade
      obtain ⟨_, _, _, _, hb⟩ := exists_opens_of_enact free' plain' hmade'
      obtain ⟨mab, b', _, _, _, hlater, hab⟩ := hb.exists_enact hm (ha.coherent hm) ha.config_eq
        (ha.frees hm free' disjoint)
      obtain ⟨mba, a', _, _, _, hlater', hba⟩ := ha.exists_enact hm (hb.coherent hm) hb.config_eq
        (hb.frees hm free disjoint')
      rw [after_of_enact hmade, after_of_enact hmade', after_of_enact hlater,
        after_of_enact hlater']
      have inside : m.tree.RedirectsInside :=
        h.tree_induction Tree.redirectsInside_empty fun _ _ _ _ _ inside hregister =>
          inside.register hregister
      exact Opens.renumbers hm inside ha hb hab hba
    · have hrefused : ∀ mb b, m.enact registration' ≠ .ok (mb, b) :=
        fun mb b henact => hmade' ⟨mb, b, henact⟩
      rw [after_after_of_refused hm free' free plain' plain disjoint hrefused,
        after_of_refused hrefused]
      exact ⟨_, .refl _⟩
  · have hrefused : ∀ ma a, m.enact registration ≠ .ok (ma, a) :=
      fun ma a henact => hmade ⟨ma, a, henact⟩
    rw [after_after_of_refused hm free free' plain plain' disjoint' hrefused,
      after_of_refused hrefused]
    exact ⟨_, .refl _⟩

/-- Two registrations of free names of their own can be made in either order. The commands
have the same owners, aliases and descriptions afterwards, and every line runs the same for
everyone, provided that neither parsers nor executors look at the numbers of nodes, nor
modifiers at those behind their redirects. -/
theorem after_after_comm {allowed : Registration S E M → Prop}
    (h : Reachable config allowed m) (free : m.Frees registration)
    (free' : m.Frees registration') (plain : registration.sprout.IsPlain)
    (plain' : registration'.sprout.IsPlain)
    (disjoint : ∀ name, registration.Requests name → ¬registration'.Requests name) :
    (∃ σ, Renumbers σ ((m.after registration).after registration')
      ((m.after registration').after registration)) ∧
    (((m.after registration).after registration').tree.IgnoresNumbers →
      ∀ {μ : Type → Type} [Monad μ] (host : Host μ S E M), host.IgnoresNumbers → ∀ line source,
        ((m.after registration').after registration).execute host line source =
          ((m.after registration).after registration').execute host line source) := by
  obtain ⟨σ, hσ⟩ := exists_renumbers_after h free free' plain plain' disjoint
  refine ⟨⟨σ, hσ⟩, fun parsers μ _ host executors line source => ?_⟩
  have hany : Reachable config (fun _ => True) m := h.mono fun _ _ => trivial
  have hboth : Reachable config (fun _ => True) ((m.after registration).after registration') :=
    (hany.after trivial).after trivial
  have hdispatcher : Dispatcher.Renumbers σ ((m.after registration).after registration').dispatcher
      ((m.after registration').after registration).dispatcher :=
    ⟨hσ.config_eq, hσ.tree, hboth.coherent.literals, parsers⟩
  exact hdispatcher.execute_renumber executors line source

end

/-- A command of an owner that takes a word, and another alias of it. -/
def goTo (owner name other : String) (executor : Nat) : Registration Principal Nat Unit :=
  .plain owner ((Sprout.literal name).child
    ((Sprout.argument "to" StandardParser.word.toParser).executes executor)) [other]

section
variable {owner name other : String} {executor : Nat}

theorem isStandard_goTo : (goTo owner name other executor).IsStandard := by
  refine ⟨trivial, rfl, fun child hchild => ?_⟩
  obtain rfl := List.mem_singleton.1 hchild
  exact ⟨⟨.word, rfl⟩, rfl, fun _ hnone => absurd hnone List.not_mem_nil⟩

theorem requests_goTo {requested : String} (hname : normalizeAlias name = .ok name)
    (hother : normalizeAlias other = .ok other)
    (h : (goTo owner name other executor).Requests requested) :
    requested ∈ [name, other] := by
  obtain ⟨_, hmem, hrequested⟩ := h
  obtain rfl | hmem := List.mem_cons.1 hmem
  · exact List.mem_cons.2 (.inl (Except.ok.inj (hrequested.symm.trans hname)))
  · obtain rfl := List.mem_singleton.1 hmem
    simp [Except.ok.inj (hrequested.symm.trans hother)]

end

/-- `home` of `core` and `warp` of `extra` get other nodes when `warp` comes first, and the
alias of `warp` runs it in either case. -/
theorem after_after_comm_home_warp :
    Reachable {} Registration.IsStandard tpWordFirst ∧
    ((tpWordFirst.after (goTo "core" "home" "base" 2)).after
      (goTo "extra" "warp" "jump" 3)).mappings.map (fun found => (found.primary, found.node)) =
        [("tp", 1), ("home", 4), ("warp", 7)] ∧
    ((tpWordFirst.after (goTo "extra" "warp" "jump" 3)).after
      (goTo "core" "home" "base" 2)).mappings.map (fun found => (found.primary, found.node)) =
        [("tp", 1), ("warp", 4), ("home", 7)] ∧
    ∀ line source, ((tpWordFirst.after (goTo "extra" "warp" "jump" 3)).after
        (goTo "core" "home" "base" 2)).execute notingHost line source =
      ((tpWordFirst.after (goTo "core" "home" "base" 2)).after
        (goTo "extra" "warp" "jump" 3)).execute notingHost line source := by
  have home : ∀ name, (goTo "core" "home" "base" 2).Requests name → name ∈ ["home", "base"] :=
    fun _ => requests_goTo rfl rfl
  have warp : ∀ name, (goTo "extra" "warp" "jump" 3).Requests name → name ∈ ["warp", "jump"] :=
    fun _ => requests_goTo rfl rfl
  have free : ∀ name ∈ ["home", "base"] ++ ["warp", "jump"], tpWordFirst.registry.IsFree name := by
    simp only [Registry.IsFree]
    decide
  have disjoint : ∀ name ∈ ["home", "base"], name ∉ ["warp", "jump"] := by decide
  have standard := (reachable_tpWordFirst.after
    (isStandard_goTo : (goTo "core" "home" "base" 2).IsStandard)).after
    (isStandard_goTo : (goTo "extra" "warp" "jump" 3).IsStandard)
  have comm := after_after_comm reachable_tpWordFirst
    (fun name hname => free name (List.mem_append_left _ (home name hname)))
    (fun name hname => free name (List.mem_append_right _ (warp name hname)))
    isStandard_goTo.isPlain isStandard_goTo.isPlain
    fun name hhome hwarp => disjoint name (home name hhome) (warp name hwarp)
  refine ⟨reachable_tpWordFirst, rfl, rfl, ?_⟩
  exact comm.2 standard.isStandard.tree.ignoresNumbers notingHost
    ⟨fun _ _ _ => rfl, fun _ _ _ _ => rfl⟩

/-- `each` goes back to the root. -/
def eachAgain : Manager Principal Nat Unit :=
  (empty {}).after (.plain "demo" ((Sprout.literal "each").forward Tree.root (some ()) false) [])

/-- A command of an owner that is a single word. -/
def word (owner name : String) : Registration Principal Nat Unit :=
  .plain owner ((Sprout.literal name).executes 1) []

/-- Goes on for as many principals as the number of the node behind the redirect says. -/
def countingHost : Host Id Principal Nat Unit where
  run _ _ := .ok 1
  sources _ chain :=
    .ok (chain.last.nodes.flatMap fun v => List.replicate v.node chain.outer.source)

theorem isPlain_word {owner name : String} : (word owner name).sprout.IsPlain :=
  .mk rfl (by rintro _ ⟨⟩)

theorem requests_word {owner name requested : String} (hname : normalizeAlias name = .ok name)
    (h : (word owner name).Requests requested) : requested = name := by
  obtain ⟨_, hmem, hrequested⟩ := h
  obtain rfl := List.mem_singleton.1 hmem
  exact Except.ok.inj (hrequested.symm.trans hname)

/-- A modifier that looks behind its redirect sees which of `home` and `warp` came first. -/
theorem not_after_after_comm_each : Reachable {} (fun _ => True) eachAgain ∧
    eachAgain.Frees (word "core" "home") ∧ eachAgain.Frees (word "extra" "warp") ∧
    (word "core" "home").sprout.IsPlain ∧ (word "extra" "warp").sprout.IsPlain ∧
    (∀ name, (word "core" "home").Requests name → ¬(word "extra" "warp").Requests name) ∧
    ((eachAgain.after (word "core" "home")).after (word "extra" "warp")).tree.IgnoresNumbers ∧
    (∀ (σ : Equiv.Perm Nat) (executor : Nat) (c : Context Principal Nat Unit),
      countingHost.run executor (c.renumber σ) = countingHost.run executor c) ∧
    (((eachAgain.after (word "core" "home")).after (word "extra" "warp")).execute countingHost
      "each home" (.named "guest")).run = .ok 2 ∧
    (((eachAgain.after (word "extra" "warp")).after (word "core" "home")).execute countingHost
      "each home" (.named "guest")).run = .ok 3 := by
  have start : Reachable {} (fun _ => True) (empty {} : Manager Principal Nat Unit) := .refl
  have home : ∀ name, (word "core" "home").Requests name → name = "home" :=
    fun _ => requests_word rfl
  have warp : ∀ name, (word "extra" "warp").Requests name → name = "warp" :=
    fun _ => requests_word rfl
  have free : ∀ name ∈ ["home", "warp"], eachAgain.registry.IsFree name := by
    simp only [Registry.IsFree]
    decide
  refine ⟨start.after trivial, fun name hname => free name (by simp [home name hname]),
    fun name hname => free name (by simp [warp name hname]), isPlain_word, isPlain_word,
    fun name hhome hwarp => ?_,
    Tree.ignoresNumbers_of_isLiteral (by decide +kernel), fun _ _ _ => rfl, ?_, ?_⟩
  · exact absurd ((home name hhome).symm.trans (warp name hwarp)) (by decide)
  · decide +kernel
  · decide +kernel

end Manager
end Dispatch
