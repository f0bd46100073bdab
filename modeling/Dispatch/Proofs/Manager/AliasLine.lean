import Dispatch.Proofs.Manager.BareAlias
import Dispatch.Proofs.Parse.Abreast
import Dispatch.Proofs.Parse.FirstWord
/-!
# Lines behind an alias

What follows a secondary alias is parsed in a context of its own, at the node of the command;
what follows the primary alias is parsed in the context in which that node was visited. In
managers that grow by standard registrations the two come to the same (`SameBelow`): the same
nodes below the command, the same values, the same errors, and the same to run if any of these
nodes is visited, at offsets that differ by the lengths of the aliases. If none is visited,
the context behind the alias has nothing to run.
-/
namespace Dispatch
variable {S E M : Type}

/-- A subtree with parsers of the library and without redirects is asked for. -/
def Registration.IsStandard (registration : Registration S E M) : Prop :=
  registration.sprout.IsStandard

namespace Manager

/-- No node below the root redirects but aliases of commands, and all parsers are standard. -/
structure IsStandard (m : Manager S E M) : Prop where
  tree : m.tree.IsStandard
  /-- The nodes of the commands do not redirect. -/
  plain : ∀ (i : Nat) (mapping : Mapping), m.registry.mappings[i]? = some mapping →
    ∀ node, m.tree.node? mapping.node = some node → node.redirect = none

variable {m m' : Manager S E M} {config : Config} {owner name : String} {mapping : Mapping}
  {x c : Nat} {node : Node S E M} {source : S}

theorem children_aliasSprout (t : Tree S E M) (target : Nat) (name : String) :
    (aliasSprout t target name).children = [] := rfl

/-- The node of a command does not redirect if nothing that is registered for it does. -/
theorem Registered.plain {b : Sprout S E M} {grant : Grant} {t : Tree S E M} {added : List String}
    {index : Nat} {old new : Mapping} (h : Registered m owner b m' grant t x added index old new)
    (hm : m.Coherent) (hplain : b.redirect = none)
    (before : ∀ (i : Nat) (mapping : Mapping), m.registry.mappings[i]? = some mapping →
      ∀ node, m.tree.node? mapping.node = some node → node.redirect = none)
    {i : Nat} (hi : m'.registry.mappings[i]? = some mapping)
    (hnode : m'.tree.node? mapping.node = some node) : node.redirect = none := by
  -- A command that was there has a literal that keeps its redirect.
  have hkept : ∀ was : Mapping, m.registry.mappings[i]? = some was → was.node = mapping.node →
      node.redirect = none := by
    intro was hwas hsame
    obtain ⟨found, hfound⟩ := hm.primary i was hwas
    obtain ⟨found', hfound', -, hredirect, -⟩ := h.rootLiteral hm hfound
    obtain rfl : node = found' := by
      rw [← hsame, hfound'.lookup] at hnode
      exact (Option.some.inj hnode).symm
    rw [hredirect hplain]
    exact before i was hwas found hfound.lookup
  by_cases hindex : i = index
  · subst hindex
    rw [h.recorded.mappings, if_pos rfl] at hi
    obtain rfl := Option.some.inj hi
    have hstarts := h.recorded.starts
    cases grant with
    | merge granted known => exact hkept old hstarts.2 h.recorded.node_eq.symm
    | free granted =>
      obtain ⟨children, hlookup⟩ := h.exists_node_of_free hm
      rw [hnode] at hlookup
      rw [Option.some.inj hlookup]
      exact hplain
  · rw [h.recorded.mappings, if_neg hindex] at hi
    exact hkept mapping hi rfl

theorem isStandard_empty (config : Config) : (empty config : Manager S E M).IsStandard where
  tree := Tree.isStandard_empty
  plain := by simp [empty, Registry.empty]

theorem IsStandard.step [Capable S] (hm : m.Coherent) (h : m.IsStandard)
    (step : Step Registration.IsStandard m m') : m'.IsStandard := by
  obtain ⟨registration, mapping, hstandard, henact⟩ := step
  rw [enact_eq, registerDescribed_eq_ok_iff] at henact
  obtain ⟨grant, t, x, added, hproceeds⟩ := henact
  have hsprout : ((registration.guardedSprout m.config).withLiteral grant.name).IsStandard := by
    obtain ⟨requirement, hrequirement⟩ := exists_guardedSprout_eq m.config registration
    rw [hrequirement]
    exact (Sprout.IsStandard.withRequirement hstandard requirement).withLiteral grant.name
  obtain ⟨-, hplain, hchildren⟩ := hsprout
  obtain ⟨index, old, hregistered, -⟩ := hproceeds.registered hm
  constructor
  · have hplaced := h.tree.register hm.literals hchildren hproceeds.placed
    exact (hproceeds.addsAliases hm hplaced fun t t' target name c literals standard _ =>
      standard.register literals (by simp [children_aliasSprout])).2
  · intro i mapping hi node hnode
    exact hregistered.plain hm hplain h.plain hi hnode

theorem Reachable.isStandard [Capable S] (h : Reachable config Registration.IsStandard m) :
    m.IsStandard := by
  induction h with
  | refl => exact isStandard_empty config
  | tail steps step ih => exact IsStandard.step (Reachable.coherent steps) ih step

/-! ## Two lines -/

/-- The parse `p` of a line that starts with an alias, and the parse `q` of the line that
starts with the primary alias in place of it, have come to the same below the node of the
command: `below` and `below'` are the nodes that they visit there, `inner` and `level` the
contexts in which they do. -/
structure SameBelow (other primary : String) (target : Nat) (p q : Parse S E M)
    (outer inner level : Context S E M) (below below' : List ParsedNode) : Prop where
  alias_chain : p.chain = ⟨outer, [inner]⟩
  primary_chain : q.chain = .single level
  /-- The first context holds the alias alone. -/
  alias_nodes : ∃ id range, outer.nodes = [⟨id, range⟩] ∧ outer.arguments = []
  inner_nodes : inner.nodes = below
  /-- The node of the command comes first behind the primary alias. -/
  primary_nodes : ∃ range, level.nodes = ⟨target, range⟩ :: below'
  /-- Below it, the nodes are the same, over ranges that differ by the lengths of the
  aliases. -/
  visited : List.Forall₂ (ParsedNode.Aligned other primary) below below'
  /-- The names are bound to the same values, over ranges that differ likewise. -/
  arguments : List.Forall₂ (ParsedArgument.Aligned other primary) inner.arguments level.arguments
  /-- The last of the nodes decides what to run. -/
  latest : below ≠ [] → inner.executor = level.executor ∧
    Aligned other primary inner.range.stop level.range.stop
  complete : p.isComplete = q.isComplete
  /-- A complete parse has visited a node below the command. -/
  complete_visits : p.isComplete = true → below ≠ []
  /-- The errors have the same nodes and codes, at cursors that differ likewise. -/
  errors : List.Forall₂ (fun e e' => e.1 = e'.1 ∧ e.2.id = e'.2.id ∧
    ∃ n n', e.2.cursor = some n ∧ e'.2.cursor = some n' ∧ Aligned other primary n n')
    p.errors q.errors
  cursor : Aligned other primary p.reader.cursor q.reader.cursor

/-- A parse that nothing has gone into visits nothing. -/
def VisitsNothing (p : Parse S E M) : Prop := ∀ level ∈ p.chain.levels, level.nodes = []

/-- Behind the node of a command and behind a redirect to it, parses are abreast. -/
theorem behind_abreast {d : Dispatcher S E M} (standard : d.tree.IsStandard) (hx : x ≠ Tree.root)
    (other primary v : String) (c : Nat) (otherNode node : Node S E M) (source : S) :
    (d.parseAt x ⟨other ++ (" " ++ v), Text.size other + 1⟩
      ((firstVisit (other ++ (" " ++ v)) source c otherNode other).entrance x
        ⟨other ++ (" " ++ v), Text.size other + 1⟩)).Abreast other primary (" " ++ v) []
        [⟨x, (firstTaken (primary ++ (" " ++ v)) primary).range⟩]
      (d.parseAt x ⟨primary ++ (" " ++ v), Text.size primary + 1⟩
        (firstVisit (primary ++ (" " ++ v)) source x node primary)) := by
  have hreaders : Abreast other primary (" " ++ v) ⟨other ++ (" " ++ v), Text.size other + 1⟩
      ⟨primary ++ (" " ++ v), Text.size primary + 1⟩ :=
    ⟨rfl, rfl, Nat.le_succ _, by simp only [Aligned]; omega⟩
  have hcontexts : ((firstVisit (other ++ (" " ++ v)) source c otherNode other).entrance x
      ⟨other ++ (" " ++ v), Text.size other + 1⟩).Abreast other primary []
        [⟨x, (firstTaken (primary ++ (" " ++ v)) primary).range⟩] [] []
        (firstVisit (primary ++ (" " ++ v)) source x node primary) :=
    ⟨rfl, rfl, rfl, .nil, .nil, fun hne => absurd rfl hne⟩
  refine Dispatcher.parseAt_abreast standard.standardBelow hx hreaders hcontexts
    (Nat.le_refl _) ?_
  simp [firstVisit, Span.encompassing, Taken.range, firstTaken, Context.start, Span.point]

/-- A parse below a command that is complete has visited a node there. -/
theorem visits_of_isComplete {d : Dispatcher S E M} {r : Reader} {context : Context S E M}
    (hr : r.canRead = true) (complete : (d.parseAt x r context).isComplete = true) :
    (d.parseAt x r context).chain.outer.nodes ≠ context.nodes := by
  obtain ⟨-, hreader⟩ | ⟨first, rest, hnodes⟩ := (d.parseAt_yields x r context).stopped_or_visited
  · rw [Parse.isComplete, hreader, hr] at complete
    simp at complete
  · rw [hnodes]
    simp

/-- Neither what a principal may not use nor anything below it is visited. -/
theorem visitsNothing_of_not_canUse {d : Dispatcher S E M} {word : String}
    (literals : d.tree.HasLiterals) (hx : d.tree.RootLiteral word x node)
    (hword : ∀ ch ∈ word.toList, ch ≠ separator) (v : String)
    (huse : node.canUse source = false) :
    VisitsNothing (d.parse (word ++ (" " ++ v)) source) := by
  rw [Dispatcher.parse_of_not_canUse literals hx (Reader.peekWord_line hword v) huse]
  simp [VisitsNothing, Chain.levels, Chain.single, Context.start]

/-- A literal of the root and one that redirects to it lead to the same below the first of
them. -/
theorem sameBelow_of_redirect {d : Dispatcher S E M} {other primary : String} {found : Node S E M}
    (standard : d.tree.IsStandard) (literals : d.tree.HasLiterals)
    (hx : d.tree.RootLiteral primary x node) (hc : d.tree.RootLiteral other c found)
    (hplain : node.redirect = none) (hredirect : found.redirect = some x)
    (hdepth : 1 ≤ d.config.maxRedirectDepth)
    (hother : ∀ ch ∈ other.toList, ch ≠ separator)
    (hprimary : ∀ ch ∈ primary.toList, ch ≠ separator) {v : String} (hv : v ≠ "")
    (huse : found.canUse source = true) (huse' : node.canUse source = true) :
    ∃ outer inner level below below',
      SameBelow other primary x (d.parse (other ++ (" " ++ v)) source)
        (d.parse (primary ++ (" " ++ v)) source) outer inner level below below' := by
  have hroot : x ≠ Tree.root := Nat.ne_of_gt (Tree.lt_of_mem_childIds hx.child).1
  obtain ⟨inner, hinner, hparse⟩ := (Dispatcher.parse_line literals hc hother hv rfl huse).2 x
    hredirect hdepth
  have hparse' := (Dispatcher.parse_line literals hx hprimary hv rfl huse').1 hplain
  obtain ⟨⟨below, below', within, level, hchain, hchain', hcontexts⟩, hreaders, herrors⟩ :=
    behind_abreast standard hroot other primary v c found node source
  rw [← hinner] at hchain hreaders herrors
  rw [← hparse'] at hchain' hreaders herrors
  have hread := Reader.canRead_line other hv
  rw [hparse]
  refine ⟨firstVisit (other ++ (" " ++ v)) source c found other, within, level, below, below', ?_⟩
  refine
    { alias_chain := by rw [hchain]; rfl
      primary_chain := hchain'
      alias_nodes := ⟨c, _, rfl, rfl⟩
      inner_nodes := hcontexts.nodes
      primary_nodes := ⟨_, hcontexts.nodes'⟩
      visited := hcontexts.visited
      arguments := hcontexts.arguments
      latest := hcontexts.latest
      complete := ?_
      complete_visits := ?_
      errors := herrors.imp fun e e' he => ⟨he.1, he.2.id_eq, he.2.cursor⟩
      cursor := hreaders.aligned }
  · simp only [Parse.isComplete]
    rw [hreaders.canRead_eq]
  · intro hcomplete hnone
    have hvisits := visits_of_isComplete hread (hinner ▸ hcomplete)
    rw [← hinner, hchain] at hvisits
    exact hvisits (hcontexts.nodes.trans hnone)

theorem one_le_of_validate (h : config.validate = .ok ()) : 1 ≤ config.maxRedirectDepth := by
  by_cases hzero : config.maxRedirectDepth = 0
  · simp [Config.validate, hzero] at h
  · omega

section
variable [Capable S]

/-- In a manager that standard registrations lead to, with valid settings, a line that starts
with a secondary alias of a command and the line that starts with the primary alias in place
of it come to the same below the command, for every principal that may use it. Nothing is
visited for the others. -/
theorem parse_alias_line (h : Reachable config Registration.IsStandard m)
    (valid : config.validate = .ok ()) (hmapping : mapping ∈ m.mappings)
    (hname : name ∈ mapping.aliases) (hne : name ≠ mapping.primary) {v : String} (hv : v ≠ "")
    (source : S) :
    let p := m.dispatcher.parse (name ++ " " ++ v) source
    let q := m.dispatcher.parse (mapping.primary ++ " " ++ v) source
    ∃ node, m.tree.node? mapping.node = some node ∧
      (node.canUse source = false → VisitsNothing p ∧ VisitsNothing q) ∧
      (node.canUse source = true → ∃ outer inner level below below',
        SameBelow name mapping.primary mapping.node p q outer inner level below below') := by
  intro p q
  have hm := h.coherent
  have hstandard := h.isStandard
  obtain ⟨i, hi⟩ := List.getElem?_of_mem hmapping
  obtain ⟨node, hnode⟩ := hm.primary i mapping hi
  obtain ⟨c, found, hc⟩ := hm.secondary i mapping hi name hname hne
  have hsep := (hm.registry.isAlias_of_mem hi hname).ne_separator
  have hsep' := (hm.registry.isAlias_of_mem hi (hm.registry.primary_mem hi)).ne_separator
  have hsame : found.canUse source = node.canUse source := hc.canUse_eq hnode.lookup source
  have hp : p = m.dispatcher.parse (name ++ (" " ++ v)) source := by
    simp only [p, String.append_assoc]
  have hq : q = m.dispatcher.parse (mapping.primary ++ (" " ++ v)) source := by
    simp only [q, String.append_assoc]
  rw [hp, hq]
  refine ⟨node, hnode.lookup, fun huse => ⟨?_, ?_⟩, fun huse => ?_⟩
  · exact visitsNothing_of_not_canUse hm.literals hc.literal hsep v (hsame.trans huse)
  · exact visitsNothing_of_not_canUse hm.literals hnode hsep' v huse
  · have hconfig : m.dispatcher.config = config := h.config_eq
    have hdepth : 1 ≤ m.dispatcher.config.maxRedirectDepth := hconfig ▸ one_le_of_validate valid
    exact sameBelow_of_redirect hstandard.tree hm.literals hnode hc.literal
      (hstandard.plain i mapping hi node hnode.lookup) hc.redirect hdepth hsep hsep' hv
      (hsame.trans huse) huse

end

/-- The command `tp` with a word behind it. -/
def tpWithWord (secondary : List String) : Registration Principal Nat Unit :=
  .plain "demo" ((Sprout.literal "tp").child
    ((Sprout.argument "to" StandardParser.word.toParser).executes 1)) secondary

/-- `tp` with a word behind it and the alias `teleport`. -/
def tpWordFirst : Manager Principal Nat Unit := (empty {}).after (tpWithWord ["teleport"])

theorem reachable_tpWordFirst : Reachable {} Registration.IsStandard tpWordFirst := by
  have argument : (((Sprout.argument "to" StandardParser.word.toParser).executes 1 :
      Sprout Principal Nat Unit)).IsStandard := ⟨⟨.word, rfl⟩, rfl, by simp [Sprout.executes,
        Sprout.argument, Sprout.ofLabel]⟩
  have standard : (tpWithWord ["teleport"]).IsStandard := by
    refine ⟨trivial, rfl, fun child hchild => ?_⟩
    obtain rfl := List.mem_singleton.1 hchild
    exact argument
  exact .tail .refl ⟨tpWithWord ["teleport"], _, standard, rfl⟩

theorem sameBelow_teleport_home : ∃ outer inner level below below',
    SameBelow "teleport" "tp" 1
      (tpWordFirst.dispatcher.parse ("teleport" ++ " " ++ "home") (.named "guest"))
      (tpWordFirst.dispatcher.parse ("tp" ++ " " ++ "home") (.named "guest"))
      outer inner level below below' := by
  have mem : (⟨"demo", "tp", ["tp", "teleport"], 1, {}⟩ : Mapping) ∈ tpWordFirst.mappings :=
    List.mem_of_getElem? (i := 0) rfl
  have listed : "teleport" ∈ ["tp", "teleport"] := by decide
  obtain ⟨node, lookup, -, same⟩ := parse_alias_line reachable_tpWordFirst (by decide) mem listed
    (by decide) (v := "home") (by decide) (.named "guest")
  refine same ?_
  obtain rfl := Option.some.inj (lookup.symm.trans rfl)
  rfl

/-- Where nothing behind `teleport` is visited, no context has what `tp` runs: the one behind
the alias has nothing to run, and the alias what `tp` ran when it was added. -/
theorem executor_behind_alias :
    Reachable {} Registration.IsStandard tpSecond ∧ Config.validate {} = .ok () ∧
    (⟨"demo", "tp", ["tp", "teleport"], 1, {}⟩ : Mapping) ∈ tpSecond.mappings ∧
    tpSecond.permits 1 (.named "guest") = true ∧
    (tpSecond.dispatcher.parse ("tp" ++ " " ++ "x") (.named "guest")).chain.last.executor = some 2 ∧
    ∀ level ∈ (tpSecond.dispatcher.parse ("teleport" ++ " " ++ "x")
      (.named "guest")).chain.levels, level.executor ≠ some 2 := by
  have standard : ∀ executor secondary, (tpWith executor secondary).IsStandard := by
    intro executor secondary
    refine ⟨trivial, rfl, fun child hchild => ?_⟩
    simp [tpWith, Registration.sprout, Sprout.executes, Sprout.literal, Sprout.ofLabel] at hchild
  have first : Step Registration.IsStandard (empty {}) tpFirst :=
    ⟨tpWith 1 ["teleport"], _, standard _ _, rfl⟩
  have second : Step Registration.IsStandard tpFirst tpSecond := ⟨tpWith 2 [], _, standard _ _, rfl⟩
  have reachable : Reachable {} Registration.IsStandard tpSecond := .tail (.tail .refl first) second
  have literals := reachable.coherent.literals
  have tp : tpSecond.dispatcher.tree.RootLiteral "tp" 1 _ := ⟨by decide, rfl, rfl⟩
  have teleport : tpSecond.dispatcher.tree.RootLiteral "teleport" 2 _ := ⟨by decide, rfl, rfl⟩
  have mayUse : Node.canUse ((tpSecond.tree.node? 1).get rfl) (.named "guest") = true := rfl
  have mayUse' : Node.canUse ((tpSecond.tree.node? 2).get rfl) (.named "guest") = true := rfl
  have separate := (reachable.coherent.registry.normal "tp" 0 rfl).ne_separator
  have separate' := (reachable.coherent.registry.normal "teleport" 0 rfl).ne_separator
  have tpLine := (Dispatcher.parse_line literals tp separate (v := "x") (by decide) rfl
    mayUse).1 rfl
  obtain ⟨inner, hinner, teleportLine⟩ := (Dispatcher.parse_line literals teleport separate'
    (v := "x") (by decide) rfl mayUse').2 1 rfl (by decide)
  refine ⟨reachable, by decide, List.mem_of_getElem? (i := 0) rfl, rfl, ?_, ?_⟩
  · rw [show "tp" ++ " " ++ "x" = "tp" ++ (" " ++ "x") from rfl, tpLine,
      Dispatcher.parseAt_of_eligible_nil rfl]
    rfl
  · rw [show "teleport" ++ " " ++ "x" = "teleport" ++ (" " ++ "x") from rfl, teleportLine, hinner,
      Dispatcher.parseAt_of_eligible_nil rfl]
    intro level hlevel
    simp only [Chain.levels, Chain.enter, Chain.single, List.mem_cons, List.not_mem_nil,
      or_false] at hlevel
    obtain rfl | rfl := hlevel
    · decide
    · decide

end Manager
end Dispatch
