import Dispatch.Manager
import Dispatch.Proofs.Registry.Coherence
import Dispatch.Proofs.Tree.Register
import Mathlib.Logic.Relation
/-!
# Managers under registration

A manager changes by registrations only. What one of them does is stated once, as
`Registered`: a literal is registered under a granted alias, further aliases are added beside
it, and all that is recorded. From this comes the invariant `Manager.Coherent`, that the tree
and the registry tell the same: the children of the root are the registered aliases, a primary
alias is the node of its command, and every other alias redirects there and asks what that
node asks.
-/
namespace Dispatch
variable {S E M : Type}

/-- A registration as an owner asks for it. -/
inductive Registration (S E M : Type) where
  | plain (owner : String) (sprout : Sprout S E M) (secondary : List String)
  | permitted (owner : String) (sprout : Sprout S E M) (secondary : List String)
  | command (owner : String) (command : Command S E M) (primary : String) (secondary : List String)

/-- The subtree that is asked for. -/
def Registration.sprout : Registration S E M → Sprout S E M
  | .plain _ sprout _ => sprout
  | .permitted _ sprout _ => sprout
  | .command _ c primary _ => c.sprout primary

/-- Who asks. -/
def Registration.owner : Registration S E M → String
  | .plain owner _ _ => owner
  | .permitted owner _ _ => owner
  | .command owner _ _ _ => owner

/-- The further aliases that are asked for. -/
def Registration.secondary : Registration S E M → List String
  | .plain _ _ secondary => secondary
  | .permitted _ _ secondary => secondary
  | .command _ _ _ secondary => secondary

/-- What is said of the command. -/
def Registration.description : Registration S E M → Description
  | .plain _ _ _ => {}
  | .permitted _ _ _ => {}
  | .command _ c _ _ => ⟨c.shortDescription, c.extendedDescription⟩

/-- The subtree that is registered: the one that is asked for, with the capability asked for
if it is to be. -/
def Registration.guardedSprout [Capable S] (config : Config) :
    Registration S E M → Sprout S E M
  | .plain _ sprout _ => sprout
  | .permitted owner sprout _ =>
    Manager.guarded sprout (config.permissionFor owner sprout.name)
  | .command _ c primary _ => c.sprout primary

namespace Manager

/-- The manager after a registration, and what was recorded. -/
def enact [Capable S] (m : Manager S E M) :
    Registration S E M → Except RegistrationError (Manager S E M × Mapping)
  | .plain owner sprout secondary => m.register owner sprout secondary
  | .permitted owner sprout secondary => m.registerWithPermission owner sprout secondary
  | .command owner command primary secondary => m.registerCommand owner command primary secondary

/-- The manager after a registration; one that is refused changes nothing. -/
def after [Capable S] (m : Manager S E M) (registration : Registration S E M) : Manager S E M :=
  match m.enact registration with
  | .ok (m', _) => m'
  | .error _ => m

/-- One registration of which `allowed` holds leads from one manager to another. -/
def Step [Capable S] (allowed : Registration S E M → Prop) (m m' : Manager S E M) : Prop :=
  ∃ registration mapping, allowed registration ∧ m.enact registration = .ok (m', mapping)

/-- Registrations of which `allowed` holds lead to the manager. Those that were refused change
nothing and are left out. -/
def Reachable [Capable S] (config : Config) (allowed : Registration S E M → Prop)
    (m : Manager S E M) : Prop :=
  Relation.ReflTransGen (Step allowed) (.empty config) m

/-! ## What one registration does -/

/-- A root literal for an alias of a node: it redirects there and asks what the node asks. -/
structure IsAliasNode (t : Tree S E M) (name : String) (target c : Nat) (node : Node S E M) :
    Prop where
  literal : t.RootLiteral name c node
  redirect : node.redirect = some target
  modifier : node.modifier = none
  forks : node.forks = false
  requirement : node.requirement = (t.node? target).bind Node.requirement

/-- An alias asks the same of a principal as its command. -/
theorem IsAliasNode.canUse_eq {t : Tree S E M} {name : String} {target c : Nat}
    {node found : Node S E M} (h : IsAliasNode t name target c node)
    (hfound : t.node? target = some found) (source : S) :
    node.canUse source = found.canUse source := by
  rw [Node.canUse, Node.canUse, h.requirement, hfound]
  rfl

/-- What adding aliases of the literal `x` makes of a tree. -/
structure AddsAliases (registry : Registry) (primary : String) (x : Nat) (t t' : Tree S E M)
    (added : List String) : Prop where
  literals : t'.HasLiterals
  names : t'.rootNames = t.rootNames ++ added
  fresh : ∀ name ∈ added, IsAlias name ∧ registry.IsFree name ∧ name ≠ primary
  kept : ∀ name c node, t.RootLiteral name c node → t'.RootLiteral name c node
  aliases : ∀ name ∈ added, ∃ c node, IsAliasNode t' name x c node ∧
    node.executor = (t.node? x).bind Node.executor

variable {registry : Registry} {config : Config} {owner primary : String} {x : Nat}
  {t t' : Tree S E M} {added : List String}

theorem AddsAliases.refl (literals : t.HasLiterals) : AddsAliases registry primary x t t [] :=
  ⟨literals, by simp, by simp, fun _ _ _ h => h, by simp⟩

/-- No alias is added twice. -/
theorem AddsAliases.nodup (h : AddsAliases registry primary x t t' added) : added.Nodup := by
  have hnodup := h.literals.nodup
  rw [h.names] at hnodup
  exact (List.nodup_append.1 hnodup).2.1

theorem name_aliasSprout (t : Tree S E M) (x : Nat) (name : String) :
    (aliasSprout t x name).name = name := rfl

section
variable {node : Node S E M} (h : AddsAliases registry primary x t t' added)
  (hx : t.RootLiteral primary x node)
  (hfree : ∀ name, registry.IsFree name → name ≠ primary → name ∉ t.rootNames)
include h hx hfree

omit hx in
/-- A fresh name is no child of the root yet. -/
theorem AddsAliases.not_mem_rootNames {name : String} (hisFree : registry.IsFree name)
    (hne : name ≠ primary) (hnotin : name ∉ added) : name ∉ t'.rootNames := by
  rw [h.names, List.mem_append, not_or]
  exact ⟨hfree name hisFree hne, hnotin⟩

/-- Registering the literal of a fresh name that leads to `x` adds that alias. -/
theorem AddsAliases.register {t'' : Tree S E M} {name : String} {c : Nat} (halias : IsAlias name)
    (hisFree : registry.IsFree name) (hne : name ≠ primary) (hnotin : name ∉ added)
    (hregister : t'.register (aliasSprout t' x name) = .ok (t'', c)) :
    AddsAliases registry primary x t t'' (added ++ [name]) := by
  have hregisters := h.literals.register hregister
  have habsent := h.not_mem_rootNames hfree hisFree hne hnotin
  have hkept : ∀ {other d node}, t'.RootLiteral other d node → t''.RootLiteral other d node := by
    intro other d node hliteral
    refine hregisters.rootLiteral hliteral ?_
    rw [name_aliasSprout]
    rintro rfl
    exact habsent hliteral.mem_rootNames
  have hnode := (h.kept primary x node hx).lookup
  have hnode' := (hkept (h.kept primary x node hx)).lookup
  obtain ⟨_, _, hold, -⟩ | ⟨-, -, ⟨children, hplaced⟩, -, hnames⟩ := hregisters.placed
  · exact absurd hold.mem_rootNames habsent
  · refine ⟨hregisters.literals, ?_, ?_, fun other d node hliteral =>
      hkept (h.kept other d node hliteral), ?_⟩
    · rw [hnames, h.names, name_aliasSprout, List.append_assoc]
    · intro other hother
      rw [List.mem_append, List.mem_singleton] at hother
      obtain hother | rfl := hother
      · exact h.fresh other hother
      · exact ⟨halias, hisFree, hne⟩
    · intro other hother
      rw [List.mem_append, List.mem_singleton] at hother
      obtain hother | rfl := hother
      · obtain ⟨d, node', hd, hexecutor⟩ := h.aliases other hother
        refine ⟨d, node', { hd with literal := hkept hd.literal, requirement := ?_ }, hexecutor⟩
        rw [hd.requirement, hnode, hnode']
      · refine ⟨c, _, ⟨hplaced, rfl, rfl, rfl, ?_⟩, ?_⟩
        · rw [hnode', ← hnode]
          rfl
        · rw [hx.lookup, ← hnode]
          rfl

end

/-- The literal of one more alias is registered, or nothing changes. -/
theorem addSecondary_cases (registry : Registry) (config : Config) (owner primary : String)
    (x : Nat)
    (state : Tree S E M × List String) (name : String) :
    addSecondary registry config owner primary x state name = state ∨
      ∃ found t' c, registry.resolveSecondary config owner name = some found ∧
        found ≠ primary ∧ found ∉ state.2 ∧
        state.1.register (aliasSprout state.1 x found) = .ok (t', c) ∧
        addSecondary registry config owner primary x state name = (t', state.2 ++ [found]) := by
  obtain ⟨t, added⟩ := state
  simp only [addSecondary]
  split
  · exact .inl rfl
  · next found hfound =>
    split
    · exact .inl rfl
    · next hnew =>
      rw [not_or] at hnew
      split
      · next t' c hregister => exact .inr ⟨found, t', c, hfound, hnew.1, hnew.2, hregister, rfl⟩
      · exact .inl rfl

/-- What holds before aliases are added and is kept by registering each of them holds
afterwards. -/
theorem foldl_addSecondary_induction {P : Tree S E M × List String → Prop} {secondary : List String}
    {start : Tree S E M × List String} (base : P start)
    (step : ∀ state found t' c, P state →
      (∃ name ∈ secondary, registry.resolveSecondary config owner name = some found) →
      found ≠ primary → found ∉ state.2 →
      state.1.register (aliasSprout state.1 x found) = .ok (t', c) → P (t', state.2 ++ [found])) :
    P (secondary.foldl (addSecondary registry config owner primary x) start) := by
  induction secondary generalizing start with
  | nil => exact base
  | cons name rest ih =>
    refine ih ?_ fun state found t' c hP ⟨other, hother, hfound⟩ =>
      step state found t' c hP ⟨other, List.mem_cons_of_mem name hother, hfound⟩
    obtain hsame | ⟨found, t', c, hfound, hne, hnotin, hregister, hadd⟩ :=
      addSecondary_cases registry config owner primary x start name
    · rw [hsame]
      exact base
    · rw [hadd]
      exact step start found t' c base ⟨name, List.mem_cons_self, hfound⟩ hne hnotin hregister

/-- Further aliases are added one after the other. What registering them keeps of the tree
holds afterwards. -/
theorem addsAliases_foldl {node : Node S E M} (literals : t.HasLiterals)
    (hx : t.RootLiteral primary x node)
    (hfree : ∀ name, registry.IsFree name → name ≠ primary → name ∉ t.rootNames)
    (config : Config) (owner : String) (secondary : List String) {P : Tree S E M → Prop}
    (base : P t)
    (step : ∀ t t' name c, t.HasLiterals → P t → name ∉ t.rootNames →
      t.register (aliasSprout t x name) = .ok (t', c) → P t') :
    AddsAliases registry primary x t
        (secondary.foldl (addSecondary registry config owner primary x) (t, [])).1
        (secondary.foldl (addSecondary registry config owner primary x) (t, [])).2 ∧
      P (secondary.foldl (addSecondary registry config owner primary x) (t, [])).1 := by
  refine foldl_addSecondary_induction (P := fun state =>
    AddsAliases registry primary x t state.1 state.2 ∧ P state.1) ?_ ?_
  · exact ⟨.refl literals, base⟩
  · rintro state found t' c ⟨h, hP⟩ ⟨name, -, hfound⟩ hne hnotin hregister
    obtain ⟨halias, hisFree⟩ := Registry.resolveSecondary_fresh hfound
    have habsent := h.not_mem_rootNames hfree hisFree hne hnotin
    exact ⟨h.register hx hfree halias hisFree hne hnotin hregister,
      step state.1 t' found c h.literals hP habsent hregister⟩

/-- What one registration makes of a manager: the sprout `b` is registered as the literal `x`
under the granted alias, `added` are its further aliases, and they are recorded for the
command with an index, which becomes `new`. -/
structure Registered (m : Manager S E M) (owner : String) (b : Sprout S E M) (m' : Manager S E M)
    (grant : Grant) (t : Tree S E M) (x : Nat) (added : List String) (index : Nat)
    (old new : Mapping) : Prop where
  config_eq : m'.config = m.config
  grants : m.registry.Grants owner grant
  name_eq : b.name = grant.name
  placed : m.tree.Registers b t x
  aliased : AddsAliases m.registry grant.name x t m'.tree added
  recorded : m.registry.Records grant owner x added m'.registry index old new

/-- The tree and the registry tell the same. -/
structure Coherent (m : Manager S E M) : Prop where
  registry : m.registry.Coherent
  literals : m.tree.HasLiterals
  /-- The children of the root are the aliases of the commands. -/
  names : ∀ name, name ∈ m.tree.rootNames ↔ m.registry.Lists name
  /-- The node of a command has its primary alias. -/
  primary : ∀ (i : Nat) (mapping : Mapping), m.registry.mappings[i]? = some mapping →
    ∃ node, m.tree.RootLiteral mapping.primary mapping.node node
  /-- The other aliases lead to that node. -/
  secondary : ∀ (i : Nat) (mapping : Mapping), m.registry.mappings[i]? = some mapping →
    ∀ name ∈ mapping.aliases, name ≠ mapping.primary →
      ∃ c node, IsAliasNode m.tree name mapping.node c node

theorem coherent_empty (config : Config) : (empty config : Manager S E M).Coherent where
  registry := Registry.coherent_empty
  literals := Tree.hasLiterals_empty
  names := by
    intro name
    constructor
    · intro hname
      simp [tree, empty, Dispatcher.empty, Tree.rootNames] at hname
    · rintro ⟨i, mapping, hi, -⟩
      simp [empty, Registry.empty] at hi
  primary := by simp [empty, Registry.empty]
  secondary := by simp [empty, Registry.empty]

/-- A name that is free is no child of the root. -/
theorem Coherent.not_mem_rootNames {m : Manager S E M} (hm : m.Coherent) {name : String}
    (hfree : m.registry.IsFree name) : name ∉ m.tree.rootNames := by
  rw [hm.names]
  exact fun hlists => hm.registry.not_isFree_iff.2 hlists hfree

namespace Registered

variable {m m' : Manager S E M} {b : Sprout S E M} {grant : Grant} {index i : Nat}
  {old new mapping : Mapping} {name : String}

/-- The node of the command is the registered literal. -/
theorem node_eq (h : Registered m owner b m' grant t x added index old new) (hm : m.Coherent) :
    new.primary = grant.name ∧ new.node = x := by
  have hprimary := h.recorded.starts.primary_eq h.grants
  refine ⟨h.recorded.primary_eq.trans hprimary, ?_⟩
  rw [h.recorded.node_eq]
  have hstarts := h.recorded.starts
  cases grant with
  | free granted => rw [hstarts.2]; rfl
  | merge granted known =>
    obtain ⟨node, hnode⟩ := hm.primary index old hstarts.2
    rw [hprimary, ← h.name_eq] at hnode
    obtain ⟨_, _, hold, -⟩ | ⟨hname, -⟩ := h.placed.placed
    · exact hm.literals.unique hnode hold
    · exact absurd hnode.mem_rootNames hname

/-- The node of a command under an alias that was free is the one that the sprout becomes. -/
theorem exists_node_of_free {granted : String}
    (h : Registered m owner b m' (.free granted) t x added index old new) (hm : m.Coherent) :
    ∃ children, m'.tree.node? new.node = some (b.toNode.withChildren children) := by
  have hnotin : b.name ∉ m.tree.rootNames := h.name_eq.symm ▸ hm.not_mem_rootNames h.grants.2
  obtain ⟨_, _, hold, -⟩ | ⟨-, -, ⟨children, hnew⟩, -⟩ := h.placed.placed
  · exact absurd hold.mem_rootNames hnotin
  · rw [(h.node_eq hm).2]
    exact ⟨children, (h.aliased.kept _ _ _ hnew).lookup⟩

/-- A literal under the root stays one with its requirement, and with its redirect if the
sprout has none; if it has another name than the sprout, it stays as it is. -/
theorem rootLiteral (h : Registered m owner b m' grant t x added index old new)
    (hm : m.Coherent) {c : Nat} {node : Node S E M} (hc : m.tree.RootLiteral name c node) :
    ∃ node', m'.tree.RootLiteral name c node' ∧ node'.requirement = node.requirement ∧
      (b.redirect = none → node'.redirect = node.redirect) ∧
      (name ≠ grant.name → node' = node) := by
  by_cases hname : name = b.name
  · subst hname
    obtain ⟨found, children, hold, hnew, -⟩ | ⟨hnotin, -⟩ := h.placed.placed
    · obtain rfl := hm.literals.unique hc hold
      obtain rfl : node = found := Option.some.inj (hc.lookup.symm.trans hold.lookup)
      refine ⟨_, h.aliased.kept _ _ _ hnew, by simp, fun hplain => ?_, fun hne =>
        absurd h.name_eq hne⟩
      simp [Sprout.mergeInto_redirect hplain]
    · exact absurd hc.mem_rootNames hnotin
  · exact ⟨node, h.aliased.kept _ _ _ (h.placed.rootLiteral hc hname), rfl, fun _ => rfl,
      fun _ => rfl⟩

/-- The node of a command keeps its requirement. -/
theorem requirement_eq (h : Registered m owner b m' grant t x added index old new)
    (hm : m.Coherent) (hi : m.registry.mappings[i]? = some mapping) :
    (m'.tree.node? mapping.node).bind Node.requirement =
      (m.tree.node? mapping.node).bind Node.requirement := by
  obtain ⟨node, hnode⟩ := hm.primary i mapping hi
  obtain ⟨node', hnode', hrequirement, -⟩ := h.rootLiteral hm hnode
  rw [hnode.lookup, hnode'.lookup]
  exact hrequirement

/-- What is granted is no secondary alias. -/
theorem ne_grant (h : Registered m owner b m' grant t x added index old new) (hm : m.Coherent)
    (hi : m.registry.mappings[i]? = some mapping) (hname : name ∈ mapping.aliases)
    (hne : name ≠ mapping.primary) : name ≠ grant.name := by
  rintro rfl
  have hstarts := h.recorded.starts
  have hindex : i = index := Decidable.byContradiction fun hindex =>
    hm.registry.not_mem_of_ne h.grants hstarts hi hindex hname
  subst hindex
  cases grant with
  | free granted => simp [hstarts.1] at hi
  | merge granted known =>
    obtain rfl : old = mapping := Option.some.inj (hstarts.2.symm.trans hi)
    exact hne (hstarts.primary_eq h.grants).symm

/-- The node of a secondary alias stays as it was. -/
theorem isAliasNode (h : Registered m owner b m' grant t x added index old new) (hm : m.Coherent)
    (hi : m.registry.mappings[i]? = some mapping) (hname : name ∈ mapping.aliases)
    (hne : name ≠ mapping.primary) {c : Nat} {node : Node S E M}
    (hc : IsAliasNode m.tree name mapping.node c node) :
    IsAliasNode m'.tree name mapping.node c node := by
  obtain ⟨node', hnode', -, -, hsame⟩ := h.rootLiteral hm hc.literal
  obtain rfl := hsame (h.ne_grant hm hi hname hne)
  refine { hc with literal := hnode', requirement := ?_ }
  rw [hc.requirement, h.requirement_eq hm hi]

/-- A secondary alias was there before, or it is new and runs what the node of the command
runs. -/
theorem alias_cases (h : Registered m owner b m' grant t x added index old new)
    (hm : m.Coherent) (hi : m'.registry.mappings[i]? = some mapping)
    (hname : name ∈ mapping.aliases) (hne : name ≠ mapping.primary) :
    (∃ was, m.registry.mappings[i]? = some was ∧ was.primary = mapping.primary ∧
      was.node = mapping.node ∧ name ∈ was.aliases) ∨
    (m.registry.IsFree name ∧ ∃ c node, IsAliasNode m'.tree name mapping.node c node ∧
      node.executor = (m'.tree.node? mapping.node).bind Node.executor) := by
  rw [h.recorded.mappings] at hi
  split at hi
  · obtain rfl := Option.some.inj hi
    obtain ⟨hprimary, hnode⟩ := h.node_eq hm
    rw [h.recorded.aliases, List.mem_append] at hname
    obtain hname | hname := hname
    · have hstarts := h.recorded.starts
      cases grant with
      | free granted =>
        rw [hstarts.2] at hname
        exact absurd (List.mem_singleton.1 hname) (hprimary ▸ hne)
      | merge granted known =>
        next hindex =>
        exact .inl ⟨old, hindex ▸ hstarts.2, h.recorded.primary_eq.symm,
          h.recorded.node_eq.symm, hname⟩
    · obtain ⟨c, node, hc, hexecutor⟩ := h.aliased.aliases name hname
      obtain ⟨found, hfound⟩ := h.placed.exists_rootLiteral
      have hkept := h.aliased.kept _ _ _ hfound
      rw [hnode]
      refine .inr ⟨(h.aliased.fresh name hname).2.1, c, node, hc, ?_⟩
      rw [hexecutor, hfound.lookup, hkept.lookup]
  · exact .inl ⟨mapping, hi, rfl, rfl, hname⟩

/-- One registration keeps the tree and the registry in step. -/
theorem coherent (h : Registered m owner b m' grant t x added index old new)
    (hm : m.Coherent) : m'.Coherent where
  registry := h.recorded.coherent
  literals := h.aliased.literals
  names := by
    intro name
    rw [h.aliased.names, List.mem_append, h.placed.mem_rootNames_iff, hm.names,
      h.recorded.lists_iff hm.registry h.grants, h.name_eq, or_assoc]
  primary := by
    intro i mapping hi
    rw [h.recorded.mappings] at hi
    split at hi
    · obtain rfl := Option.some.inj hi
      obtain ⟨hprimary, hnode⟩ := h.node_eq hm
      obtain ⟨found, hfound⟩ := h.placed.exists_rootLiteral
      rw [hprimary, hnode, ← h.name_eq]
      exact ⟨found, h.aliased.kept _ _ _ hfound⟩
    · obtain ⟨node, hnode⟩ := hm.primary i mapping hi
      obtain ⟨node', hnode', -⟩ := h.rootLiteral hm hnode
      exact ⟨node', hnode'⟩
  secondary := by
    intro i mapping hi name hname hne
    obtain ⟨was, hwas, hprimary, hnode, hmem⟩ | ⟨-, c, node, hc, -⟩ := h.alias_cases hm hi hname hne
    · rw [← hprimary] at hne
      obtain ⟨c, node, hc⟩ := hm.secondary i was hwas name hmem hne
      exact ⟨c, node, hnode ▸ h.isAliasNode hm hwas hmem hne hc⟩
    · exact ⟨c, node, hc⟩

end Registered

/-! ## Reachable managers -/

section Reachable
variable {m m' : Manager S E M} {sprout : Sprout S E M} {secondary : List String}
  {description : Description} {mapping : Mapping}

/-- The steps of a registration: an alias is granted, the sprout is registered under it as the
literal `x`, further aliases are added, and all of it is recorded. -/
structure Proceeds (m : Manager S E M) (owner : String) (sprout : Sprout S E M)
    (secondary : List String) (description : Description) (m' : Manager S E M) (mapping : Mapping)
    (grant : Grant) (t : Tree S E M) (x : Nat) (added : List String) : Prop where
  isLiteral : sprout.isLiteral = true
  granted : m.registry.resolvePrimary m.config owner sprout.name = .ok grant
  placed : m.tree.register (sprout.withLiteral grant.name) = .ok (t, x)
  extended : secondary.foldl (addSecondary m.registry m.config owner grant.name x) (t, []) =
    (m'.tree, added)
  config_eq : m'.config = m.config
  recorded : m.registry.record grant owner x added description = (m'.registry, mapping)

/-- A registration goes through by going through these steps. -/
theorem registerDescribed_eq_ok_iff :
    m.registerDescribed owner sprout secondary description = .ok (m', mapping) ↔
      ∃ grant t x added,
        Proceeds m owner sprout secondary description m' mapping grant t x added := by
  constructor
  · intro h
    simp only [registerDescribed, bind, Except.bind, pure, Except.pure, throw, throwThe,
      MonadExceptOf.throw] at h
    split at h
    · simp at h
    · next hliteral =>
      split at h
      · simp at h
      · next grant hgrant =>
        split at h
        · simp at h
        · next placed hplaced =>
          obtain ⟨t, x⟩ := placed
          obtain ⟨rfl, rfl⟩ := Prod.mk.inj (Except.ok.inj h)
          exact ⟨grant, t, x, _, by simpa using hliteral, hgrant, hplaced, rfl, rfl, rfl⟩
  · rintro ⟨grant, t, x, added, hliteral, hgrant, hplaced, hextended, hconfig, hrecorded⟩
    obtain ⟨⟨tree, config⟩, registry⟩ := m'
    obtain rfl : config = m.config := hconfig
    simp only [registerDescribed, hliteral, hgrant, hplaced, bind, Except.bind, pure, Except.pure,
      hextended, hrecorded]
    rfl

section
variable {grant : Grant} {t : Tree S E M} {x : Nat} {added : List String}
  (h : Proceeds m owner sprout secondary description m' mapping grant t x added)
include h

theorem Proceeds.name_eq : (sprout.withLiteral grant.name).name = grant.name :=
  Sprout.withLiteral_name h.isLiteral grant.name

/-- The granted alias is a literal of the root. -/
theorem Proceeds.exists_rootLiteral (hm : m.Coherent) :
    t.HasLiterals ∧ ∃ node, t.RootLiteral grant.name x node := by
  have hregisters := hm.literals.register h.placed
  obtain ⟨node, hnode⟩ := hregisters.exists_rootLiteral
  rw [h.name_eq] at hnode
  exact ⟨hregisters.literals, node, hnode⟩

/-- Names that were free are no children of the root but for the granted one. -/
theorem Proceeds.not_mem_rootNames (hm : m.Coherent) {name : String}
    (hfree : m.registry.IsFree name)
    (hne : name ≠ grant.name) : name ∉ t.rootNames := by
  rw [(hm.literals.register h.placed).mem_rootNames_iff, h.name_eq]
  rintro (hname | rfl)
  · exact hm.not_mem_rootNames hfree hname
  · exact hne rfl

/-- The aliases of a registration are added to the tree. What registering literals of new
names keeps of it holds afterwards. -/
theorem Proceeds.addsAliases (hm : m.Coherent) {P : Tree S E M → Prop} (base : P t)
    (step : ∀ t t' target name c, t.HasLiterals → P t → name ∉ t.rootNames →
      t.register (aliasSprout t target name) = .ok (t', c) → P t') :
    AddsAliases m.registry grant.name x t m'.tree added ∧ P m'.tree := by
  obtain ⟨literals, node, hnode⟩ := h.exists_rootLiteral hm
  have hadds := addsAliases_foldl literals hnode
    (fun name => h.not_mem_rootNames hm) m.config owner secondary base fun t t' => step t t' x
  rwa [h.extended] at hadds

/-- A registration that goes through does what `Registered` says, and amends the
description. -/
theorem Proceeds.registered (hm : m.Coherent) : ∃ index old,
    Registered m owner (sprout.withLiteral grant.name) m' grant t x added index old mapping ∧
      mapping.description = old.description.amend description := by
  have hgrants := Registry.resolvePrimary_grants h.granted
  obtain ⟨haliased, -⟩ := h.addsAliases hm (P := fun _ => True) trivial
    fun _ _ _ _ _ _ _ _ _ => trivial
  obtain ⟨index, old, hrecords, hdescription⟩ := hm.registry.record_records hgrants haliased.fresh
    haliased.nodup x description
  rw [h.recorded] at hrecords hdescription
  exact ⟨index, old, ⟨h.config_eq, hgrants, h.name_eq, hm.literals.register h.placed, haliased,
    hrecords⟩, hdescription⟩

end

theorem withRequirement_self (b : Sprout S E M) : b.withRequirement b.requirement = b := by
  cases b
  rfl

/-- Every way to register comes down to one. -/
theorem enact_eq [Capable S] (m : Manager S E M) (registration : Registration S E M) :
    m.enact registration = m.registerDescribed registration.owner
      (registration.guardedSprout m.config) registration.secondary registration.description := by
  cases registration <;> rfl

/-- What is registered is what is asked for, but for its requirement. -/
theorem exists_guardedSprout_eq [Capable S] (config : Config)
    (registration : Registration S E M) : ∃ requirement,
      registration.guardedSprout config = registration.sprout.withRequirement requirement := by
  cases registration with
  | plain _ sprout _ => exact ⟨sprout.requirement, (withRequirement_self sprout).symm⟩
  | permitted _ _ _ => exact ⟨_, rfl⟩
  | command _ c primary _ =>
    exact ⟨(c.sprout primary).requirement, (withRequirement_self (c.sprout primary)).symm⟩

theorem Coherent.step [Capable S] {allowed : Registration S E M → Prop} (hm : m.Coherent)
    (h : Step allowed m m') :
    ∃ registration grant t x added index old new, allowed registration ∧
      Registered m registration.owner
        ((registration.guardedSprout m.config).withLiteral grant.name) m' grant t x added index old
        new := by
  obtain ⟨registration, mapping, hallowed, henact⟩ := h
  rw [enact_eq, registerDescribed_eq_ok_iff] at henact
  obtain ⟨grant, t, x, added, hproceeds⟩ := henact
  obtain ⟨index, old, hregistered, -⟩ := hproceeds.registered hm
  exact ⟨registration, grant, t, x, added, index, old, mapping, hallowed, hregistered⟩

/-- In every manager that registrations lead to, the tree and the registry tell the same. -/
theorem Reachable.coherent [Capable S] {allowed : Registration S E M → Prop}
    (h : Reachable config allowed m) : m.Coherent := by
  induction h with
  | refl => exact coherent_empty config
  | tail _ step ih =>
    obtain ⟨_, _, _, _, _, _, _, _, -, hregistered⟩ := ih.step step
    exact hregistered.coherent ih

theorem Reachable.config_eq [Capable S] {allowed : Registration S E M → Prop}
    (h : Reachable config allowed m) : m.config = config := by
  induction h with
  | refl => rfl
  | tail steps step ih =>
    obtain ⟨_, _, _, _, _, _, _, _, -, hregistered⟩ := (Reachable.coherent steps).step step
    exact hregistered.config_eq.trans ih

theorem Reachable.mono [Capable S] {allowed allowed' : Registration S E M → Prop}
    (h : Reachable config allowed m) (hall : ∀ registration, allowed registration →
      allowed' registration) : Reachable config allowed' m := by
  induction h with
  | refl => exact .refl
  | tail _ step ih =>
    obtain ⟨registration, mapping, hallowed, henact⟩ := step
    exact ih.tail ⟨registration, mapping, hall registration hallowed, henact⟩

/-- A registration, refused or not, leads to a reachable manager. -/
theorem Reachable.after [Capable S] {allowed : Registration S E M → Prop}
    (h : Reachable config allowed m) {registration : Registration S E M}
    (hallowed : allowed registration) : Reachable config allowed (m.after registration) := by
  rw [Manager.after]
  split
  · next m' mapping henact => exact h.tail ⟨registration, mapping, hallowed, henact⟩
  · exact h

/-- What registering literals keeps of a tree holds of the trees of all reachable managers. -/
theorem Reachable.tree_induction [Capable S] {allowed : Registration S E M → Prop}
    (h : Reachable config allowed m) {P : Tree S E M → Prop} (base : P .empty)
    (register : ∀ (t t' : Tree S E M) (b : Sprout S E M) (x : Nat), t.HasLiterals → P t →
      t.register b = .ok (t', x) → P t') : P m.tree := by
  induction h with
  | refl => exact base
  | tail steps step ih =>
    obtain ⟨registration, mapping, -, henact⟩ := step
    rw [enact_eq, registerDescribed_eq_ok_iff] at henact
    obtain ⟨grant, t, x, added, hproceeds⟩ := henact
    have hm := Reachable.coherent steps
    have hplaced := hproceeds.placed
    exact (hproceeds.addsAliases hm (register _ t _ x hm.literals ih hplaced)
      fun t t' target name c literals hP _ => register t t' _ c literals hP).2

end Reachable

end Manager
end Dispatch
