import Dispatch.Proofs.Manager.AliasLine
/-!
# Commands behind a permission

A command that is registered with a permission asks for a capability at its node, and so do
its aliases, which ask what that node asks. Who lacks the capability is shut out: lines that
start with one of the aliases visit nothing and run nothing. This is so where the registration
adds the node. Where the owner has a command of that name already, the registration is merged
into its node, which goes on asking what it asked before. So the permission shuts out exactly
those that the command shut out already (`shutsOut_aliases_iff`).
-/
namespace Dispatch
variable {S E M : Type}

namespace Manager

/-- A line comes to nothing for a principal: no node is visited, and running the line asks
nothing of the host and answers that there is no such command. -/
structure ShutsOut (m : Manager S E M) (line : String) (source : S) : Prop where
  visits : VisitsNothing (m.dispatcher.parse line source)
  refuses : ∀ {μ : Type → Type} [Monad μ] (host : Host μ S E M), m.execute host line source =
    pure (.error (.malformed ((Reader.ofString line).error .unknownCommand [])))

variable {m m' : Manager S E M} {config : Config} {owner name line : String}
  {mapping old new : Mapping} {i x index : Nat} {node : Node S E M} {source : S}
  {b sprout : Sprout S E M} {secondary added : List String} {t : Tree S E M} {grant : Grant}

/-- A line that starts with a literal is lost on those that may not use it. -/
theorem shutsOut_of_not_canUse (literals : m.tree.HasLiterals)
    (hx : m.tree.RootLiteral name x node) (hname : IsAlias name)
    (hline : (Reader.ofString line).peekWord = name) (huse : node.canUse source = false) :
    m.ShutsOut line source := by
  have hparse := Dispatcher.parse_of_not_canUse (d := m.dispatcher) literals hx hline huse
  have hread : (Reader.ofString line).canRead = true := by
    apply Reader.canRead_ofString
    rintro rfl
    exact hname.ne_empty (hline.symm.trans rfl)
  constructor
  · rw [hparse]
    simp [VisitsNothing, Chain.levels, Chain.single, Context.start]
  · intro μ _ host
    rw [execute, Dispatcher.execute, hparse]
    simp only [Parse.execute, Parse.isComplete, hread, Bool.not_true, Bool.false_eq_true, if_false]
    rfl

/-- The lines that start with an alias of a command are lost on those that may not use its
node, and on nobody else. -/
theorem Coherent.shutsOut_iff (hm : m.Coherent) (hi : m.registry.mappings[i]? = some mapping) :
    (∀ name ∈ mapping.aliases, ∀ line, (Reader.ofString line).peekWord = name →
      m.ShutsOut line source) ↔ m.permits mapping.node source = false := by
  obtain ⟨node, hnode⟩ := hm.primary i mapping hi
  have hpermits : m.permits mapping.node source = node.canUse source := by
    simp [permits, hnode.lookup]
  have hprimary := hm.registry.primary_mem hi
  have hisAlias := hm.registry.isAlias_of_mem hi hprimary
  rw [hpermits]
  constructor
  · intro h
    rw [Bool.eq_false_iff]
    intro huse
    have hword := Reader.peekWord_word hisAlias.ne_separator
    have hnothing := (h mapping.primary hprimary mapping.primary hword).visits
    rw [Dispatcher.parse_word hm.literals hnode hisAlias.ne_separator huse] at hnothing
    have hvisited := hnothing _ (List.mem_cons_self ..)
    simp [Parse.ended, Chain.single, firstVisit] at hvisited
  · intro huse name hname line hline
    by_cases hne : name = mapping.primary
    · exact shutsOut_of_not_canUse hm.literals hnode hisAlias (hne ▸ hline) huse
    · obtain ⟨c, found, hc⟩ := hm.secondary i mapping hi name hname hne
      have hsame : found.canUse source = node.canUse source := hc.canUse_eq hnode.lookup source
      have hname' := hm.registry.isAlias_of_mem hi hname
      exact shutsOut_of_not_canUse hm.literals hc.literal hname' hline (hsame.trans huse)

/-- A registration lets the same principals use a command as before. -/
theorem Registered.permits_eq (h : Registered m owner b m' grant t x added index old new)
    (hm : m.Coherent) (hi : m.registry.mappings[i]? = some mapping) (source : S) :
    m'.permits mapping.node source = m.permits mapping.node source := by
  obtain ⟨node, hnode⟩ := hm.primary i mapping hi
  obtain ⟨node', hnode', hrequirement, -⟩ := h.rootLiteral hm hnode
  simp [permits, hnode.lookup, hnode'.lookup, Node.canUse, hrequirement]

section
variable [Capable S] {allowed : Registration S E M → Prop}

/-- Who lacks the capability may not use a command that was registered with the permission,
unless the command was there and let the principal use it. -/
theorem Coherent.permits_of_registerWithPermission (hm : m.Coherent)
    (hregister : m.registerWithPermission owner sprout secondary = .ok (m', mapping))
    (hlacks : Capable.holds source (m.config.permissionFor owner sprout.name) = false) :
    m'.Coherent ∧ mapping ∈ m'.mappings ∧ (m'.permits mapping.node source = true ↔
      ∃ old ∈ m.mappings, old.primary = mapping.primary ∧ m.permits old.node source = true) := by
  obtain ⟨grant, t, x, added, hproceeds⟩ := registerDescribed_eq_ok_iff.1 hregister
  obtain ⟨index, old, h, -⟩ := hproceeds.registered hm
  have hmapping : m'.registry.mappings[index]? = some mapping := by
    rw [h.recorded.mappings, if_pos rfl]
  refine ⟨h.coherent hm, List.mem_of_getElem? hmapping, ?_⟩
  have hprimary : mapping.primary = grant.name := (h.node_eq hm).1
  have hstarts := h.recorded.starts
  cases grant with
  | free granted =>
    -- The node is new and asks for the capability, and no command had its name.
    obtain ⟨children, hlookup⟩ := h.exists_node_of_free hm
    have hlocked : m'.permits mapping.node source = false := by
      simp [permits, hlookup, Node.canUse, Sprout.toNode, Sprout.withLiteral_requirement, guarded,
        Sprout.withRequirement, hlacks]
    rw [hlocked]
    constructor
    · simp
    · rintro ⟨other, hother, hsame, -⟩
      obtain ⟨j, hj⟩ := List.getElem?_of_mem hother
      have hmem := hm.registry.primary_mem hj
      rw [hsame, hprimary] at hmem
      exact absurd hmem (hm.registry.isFree_iff.1 h.grants.2 j other hj)
  | merge granted known =>
    -- The node was there, and asks what it asked.
    have hpermits := h.permits_eq hm hstarts.2 source
    rw [← h.recorded.node_eq] at hpermits
    rw [hpermits, h.recorded.node_eq]
    constructor
    · intro huse
      exact ⟨old, List.mem_of_getElem? hstarts.2, h.recorded.primary_eq.symm, huse⟩
    · rintro ⟨other, hother, hsame, huse⟩
      obtain ⟨j, hj⟩ := List.getElem?_of_mem hother
      have hmem := hm.registry.primary_mem hj
      rw [hsame, h.recorded.primary_eq] at hmem
      obtain rfl := hm.registry.index_eq hj hstarts.2 hmem (hm.registry.primary_mem hstarts.2)
      obtain rfl : other = old := Option.some.inj (hj.symm.trans hstarts.2)
      exact huse

/-- A registration with a permission shuts out everyone who lacks the capability, exactly if
the owner had no command of that primary alias which let them in. -/
theorem shutsOut_aliases_iff (h : Reachable config allowed m)
    (hregister : m.registerWithPermission owner sprout secondary = .ok (m', mapping))
    (hlacks : Capable.holds source (m.config.permissionFor owner sprout.name) = false) :
    (∀ name ∈ mapping.aliases, ∀ line, (Reader.ofString line).peekWord = name →
      m'.ShutsOut line source) ↔
    ∀ old ∈ m.mappings, old.primary = mapping.primary → m.permits old.node source = false := by
  obtain ⟨hm', hmem, hpermits⟩ := h.coherent.permits_of_registerWithPermission hregister hlacks
  obtain ⟨i, hi⟩ := List.getElem?_of_mem hmem
  rw [hm'.shutsOut_iff hi, Bool.eq_false_iff, ne_eq, hpermits]
  simp

end

/-- `tp` registered once more, now with a permission. -/
def tpGuarded : Manager Principal Nat Unit :=
  tpFirst.after (.permitted "demo" ((Sprout.literal "tp").executes 2) [])

/-- The permission is asked of nobody: `tp` goes on letting everyone in. -/
theorem not_shutsOut_tp : Reachable {} (fun _ => True) tpFirst ∧
    tpFirst.registerWithPermission "demo" ((Sprout.literal "tp").executes 2) [] =
      .ok (tpGuarded, ⟨"demo", "tp", ["tp", "teleport"], 1, {}⟩) ∧
    Capable.holds (Principal.named "guest") (tpFirst.config.permissionFor "demo" "tp") = false ∧
    ¬∀ name ∈ ["tp", "teleport"], ∀ line, (Reader.ofString line).peekWord = name →
      tpGuarded.ShutsOut line (.named "guest") := by
  have first : Step (fun _ => True) (empty {}) tpFirst := ⟨tpWith 1 ["teleport"], _, trivial, rfl⟩
  have reachable : Reachable {} (fun _ => True) tpFirst := .tail .refl first
  have registered : tpFirst.registerWithPermission "demo" ((Sprout.literal "tp").executes 2) [] =
      .ok (tpGuarded, ⟨"demo", "tp", ["tp", "teleport"], 1, {}⟩) := rfl
  have lacks : Capable.holds (Principal.named "guest")
      (tpFirst.config.permissionFor "demo" "tp") = false := by decide
  refine ⟨reachable, registered, lacks, fun shutsOut => ?_⟩
  have locked := (shutsOut_aliases_iff reachable registered lacks).1 shutsOut
    ⟨"demo", "tp", ["tp", "teleport"], 1, {}⟩ (List.mem_of_getElem? (i := 0) rfl) rfl
  exact absurd locked (by decide)

end Manager
end Dispatch
