import Dispatch.Proofs.Parse.Derivation
import Dispatch.Proofs.Parse.FirstWord
import Dispatch.Proofs.Tree.Renumbering
import Dispatch.Proofs.Tree.Standard
import Dispatch.Execution
/-!
# Running under other numbers

The numbers of nodes are no part of a command line and of what running it answers, but
contexts show them to parsers, executors and redirect modifiers. If parsers do not look at
them, a parse in a tree with other numbers is the same parse with other numbers
(`parseAt_renumber`). If executors do not look at them either, it runs the same
(`execute_renumber`). A modifier may look at the numbers in its own context, since up to a
node whose redirect has one the numbers stay, but not at those in the contexts behind the
redirect.
-/
namespace Dispatch
variable {S E M : Type} {σ : Equiv.Perm Nat}

namespace Context

/-- The context where all nodes have other numbers. -/
def renumber (σ : Nat → Nat) (c : Context S E M) : Context S E M :=
  { c with
    root := σ c.root
    nodes := c.nodes.map fun visited => ⟨σ visited.node, visited.range⟩ }

@[simp] theorem renumber_source (σ : Nat → Nat) (c : Context S E M) :
    (c.renumber σ).source = c.source := rfl

@[simp] theorem renumber_hasNodes (σ : Nat → Nat) (c : Context S E M) :
    (c.renumber σ).hasNodes = c.hasNodes := by
  simp [hasNodes, renumber]

theorem renumber_onBehalfOf (σ : Nat → Nat) (c : Context S E M) (source : S) :
    (c.renumber σ).onBehalfOf source = (c.onBehalfOf source).renumber σ := rfl

theorem renumber_entrance (σ : Nat → Nat) (c : Context S E M) (target : Nat) (after : Reader) :
    (c.renumber σ).entrance (σ target) after = (c.entrance target after).renumber σ := rfl

theorem renumber_of_stays {σ : Nat → Nat} {c : Context S E M} (root : σ c.root = c.root)
    (nodes : ∀ visited ∈ c.nodes, σ visited.node = visited.node) : c.renumber σ = c := by
  have hnodes : (c.nodes.map fun visited : ParsedNode =>
      (⟨σ visited.node, visited.range⟩ : ParsedNode)) = c.nodes := by
    refine (List.map_congr_left fun visited hvisited => ?_).trans (List.map_id _)
    rw [nodes visited hvisited]
    rfl
  rw [renumber, root, hnodes]

end Context

/-- A parser that does not look at the numbers of nodes. -/
def ArgumentParser.IgnoresNumbers (parser : ArgumentParser S E M) : Prop :=
  ∀ (σ : Equiv.Perm Nat) (c : Context S E M) (r : Reader),
    parser.parse (c.renumber σ) r = parser.parse c r

/-- No parser of a tree looks at the numbers of nodes. -/
def Tree.IgnoresNumbers (t : Tree S E M) : Prop :=
  ∀ id node name parser completer, t.node? id = some node →
    node.label = some (.argument name parser completer) → parser.IgnoresNumbers

/-- Where there are no arguments, there are no parsers that could look at numbers. -/
theorem Tree.ignoresNumbers_of_isLiteral {t : Tree S E M}
    (h : ∀ node ∈ t.nodes, node.label.all Label.isLiteral) : t.IgnoresNumbers := by
  intro id node name parser completer hnode hlabel
  obtain ⟨text, hliteral⟩ := Tree.exists_literal h hnode hlabel
  cases hliteral

/-- No executor looks at the numbers of nodes, and no modifier at those behind its
redirect. -/
structure Host.IgnoresNumbers {m : Type → Type} (host : Host m S E M) : Prop where
  run : ∀ (σ : Equiv.Perm Nat) (executor : E) (c : Context S E M),
    host.run executor (c.renumber σ) = host.run executor c
  sources : ∀ (σ : Equiv.Perm Nat) (modifier : M) (c : Context S E M)
    (inner : List (Context S E M)),
    host.sources modifier ⟨c, inner.map (Context.renumber σ)⟩ = host.sources modifier ⟨c, inner⟩

theorem StandardParser.ignoresNumbers (p : StandardParser) :
    (p.toParser : ArgumentParser S E M).IgnoresNumbers := fun _ _ _ => rfl

theorem Tree.IsStandard.ignoresNumbers {t : Tree S E M} (h : t.IsStandard) : t.IgnoresNumbers := by
  intro id node name parser completer hnode hlabel
  obtain ⟨p, rfl⟩ := h.labels id node hnode _ hlabel
  exact p.ignoresNumbers

/-- The contexts of a chain where all nodes have other numbers. -/
def Chain.renumber (σ : Nat → Nat) (chain : Chain S E M) : Chain S E M :=
  ⟨chain.outer.renumber σ, chain.inner.map (Context.renumber σ)⟩

namespace Parse

/-- The parse where all nodes have other numbers. -/
def renumber (σ : Nat → Nat) (p : Parse S E M) : Parse S E M :=
  ⟨p.chain.renumber σ, p.reader, p.errors.map fun (id, error) => (σ id, error)⟩

theorem renumber_rank (σ : Nat → Nat) (p : Parse S E M) : (p.renumber σ).rank = p.rank := by
  simp [rank, isComplete, renumber]

theorem renumber_stuckError (σ : Nat → Nat) (p : Parse S E M) :
    (p.renumber σ).stuckError = p.stuckError := by
  obtain ⟨chain, reader, errors⟩ := p
  rw [stuckError, stuckError]
  match errors with
  | [] => rfl
  | [_] => rfl
  | _ :: _ :: _ => rfl

end Parse

/-- What came of trying a child, where all nodes have other numbers. -/
def Attempt.renumber (σ : Nat → Nat) : Attempt S E M → Attempt S E M
  | failed error => failed error
  | possible p => possible (p.renumber σ)
  | settled p => settled (p.renumber σ)

namespace Offspring

/-- The child where all nodes have other numbers. -/
def renumber (σ : Nat → Nat) (child : Offspring S E M) : Offspring S E M :=
  ⟨σ child.id, child.node.renumber σ, child.label⟩

theorem renumber_visit (σ : Nat → Nat) (child : Offspring S E M) (c : Context S E M) {r : Reader}
    (taken : Taken r) :
    (child.renumber σ).visit (c.renumber σ) taken = (child.visit c taken).renumber σ := by
  have hbind : child.label.bindTo taken (c.renumber σ) =
      (child.label.bindTo taken c).renumber σ := by
    cases hlabel : child.label with
    | literal text => rfl
    | argument name parser completer =>
      cases hvalue : taken.value with
      | none => simp [Label.bindTo, hvalue]
      | some value =>
        simp only [Label.bindTo, hvalue]
        rfl
  have hlabel : (child.renumber σ).label = child.label := rfl
  rw [visit, visit, hlabel, hbind]
  simp [Context.withExecutor, Context.withNode, Context.renumber, renumber]

end Offspring

namespace Survey

/-- The survey where all nodes have other numbers. -/
def renumber (σ : Nat → Nat) : Survey S E M → Survey S E M
  | choice errors parses =>
    choice (errors.map fun (id, error) => (σ id, error)) (parses.map (Parse.renumber σ))
  | settled p => settled (p.renumber σ)

theorem renumber_ofAttempts {σ : Nat → Nat} {attempt attempt' : Offspring S E M → Attempt S E M}
    {children : List (Offspring S E M)}
    (h : ∀ child ∈ children, attempt' (child.renumber σ) = (attempt child).renumber σ) :
    ofAttempts (children.map (Offspring.renumber σ)) (fun child _ => attempt' child) =
      (ofAttempts children fun child _ => attempt child).renumber σ := by
  induction children with
  | nil => rfl
  | cons child rest ih =>
    rw [List.map_cons, ofAttempts, ofAttempts, h child List.mem_cons_self,
      ih fun other hother => h other (List.mem_cons_of_mem child hother)]
    cases attempt child with
    | settled p => rfl
    | failed error => cases ofAttempts rest fun child _ => attempt child <;> rfl
    | possible p => cases ofAttempts rest fun child _ => attempt child <;> rfl

theorem renumber_conclude (σ : Nat → Nat) (c : Context S E M) (r : Reader)
    (survey : Survey S E M) :
    (survey.renumber σ).conclude (c.renumber σ) r = (survey.conclude c r).renumber σ := by
  match survey with
  | settled p => rfl
  | choice errors [] => rfl
  | choice errors (first :: rest) => exact Parse.best_map (Parse.renumber_rank σ) first rest

end Survey

/-! ## Trying children -/

namespace Tree
variable {t t' : Tree S E M} {id : Nat}

theorem Renumbers.tried?_eq (h : t.Renumbers σ t') (hid : id ≠ root) (r : Reader) (source : S) :
    t'.tried? r source (σ id) = (t.tried? r source id).map (Offspring.renumber σ) := by
  rw [tried?, tried?, h.nodes id hid]
  cases hnode : t.node? id with
  | none => rfl
  | some node =>
    cases hlabel : node.label with
    | none => simp [hlabel]
    | some label =>
      by_cases hfits : label.fits r.peekWord = true ∧ node.canUse source = true
      · simp [hlabel, hfits, Offspring.renumber]
      · simp [hlabel, hfits]

theorem Renumbers.childIds_eq (h : t.Renumbers σ t') (hid : id ≠ root) :
    t'.childIds (σ id) = (t.childIds id).map σ := by
  rw [childIds, h.nodes id hid, childIds]
  cases t.node? id <;> rfl

/-- Among literals of different names, at most one is tried. -/
theorem HasLiterals.eligible_root_cases (h : t.HasLiterals) (r : Reader) (source : S) :
    t.eligible root r source = [] ∨ ∃ child, t.eligible root r source = [child] := by
  cases hchildren : t.eligible root r source with
  | nil => exact .inl rfl
  | cons child rest =>
    have hmem : child ∈ t.eligible root r source := by simp [hchildren]
    obtain ⟨hchild, hlookup, hlabel, hfits, huse⟩ := mem_eligible_iff.1 hmem
    obtain ⟨name, node, hliteral⟩ := h.literal child.id hchild
    obtain rfl : node = child.node := Option.some.inj (hliteral.lookup.symm.trans hlookup)
    have hliteral' : child.label = .literal name :=
      Option.some.inj (hlabel.symm.trans hliteral.label)
    rw [hliteral', Label.fits, beq_iff_eq] at hfits
    rw [eligible_root h hliteral hfits.symm, if_pos huse] at hchildren
    exact .inr ⟨_, hchildren.symm⟩

/-- The children that are tried are the same under other numbers. -/
theorem Renumbers.eligible_eq (h : t.Renumbers σ t') (literals : t.HasLiterals) (id : Nat)
    (r : Reader) (source : S) :
    t'.eligible (σ id) r source = (t.eligible id r source).map (Offspring.renumber σ) := by
  have hchildren : ((t.childIds id).map σ).filterMap (t'.tried? r source) =
      (t.eligible id r source).map (Offspring.renumber σ) := by
    rw [Tree.eligible_eq, List.filterMap_map, List.map_filterMap]
    refine List.filterMap_congr fun c hc => ?_
    exact h.tried?_eq (Nat.ne_of_gt (root_lt_of_mem_childIds hc)) r source
  by_cases hid : id = root
  · subst hid
    have hperm := h.roots.filterMap (t'.tried? r source)
    rw [hchildren, ← Tree.eligible_eq] at hperm
    rw [h.root_eq]
    -- The order of the literals makes no difference, since one of them is tried at most.
    obtain hnone | ⟨child, hone⟩ := literals.eligible_root_cases r source
    · rw [hnone] at hperm ⊢
      exact hperm.eq_nil
    · rw [hone] at hperm ⊢
      exact List.perm_singleton.1 hperm
  · rw [Tree.eligible_eq, h.childIds_eq hid, hchildren]

end Tree

/-- The last node of a context has the greatest number. -/
theorem Context.IsDerived.le_last {d : Dispatcher S E M} {source : S} {input : String}
    {root start depth : Nat} {c : Context S E M} {v : ParsedNode}
    (h : c.IsDerived d source input root start depth) (last : c.nodes.getLast? = some v) :
    c.root ≤ v.node ∧ ∀ visited ∈ c.nodes, visited.node ≤ v.node := by
  have hpath : c.nodes.Pairwise fun u w => u.node < w.node :=
    List.isChain_iff_pairwise.1 <| h.path.imp fun u w hfollows =>
      (Tree.lt_of_mem_childIds hfollows.1).1
  obtain ⟨before, hbefore⟩ := List.getLast?_eq_some_iff.1 last
  have hle : ∀ visited ∈ c.nodes, visited.node ≤ v.node := by
    intro visited hvisited
    rw [hbefore] at hvisited hpath
    rcases List.mem_append.1 hvisited with hvisited | hvisited
    · exact Nat.le_of_lt ((List.pairwise_append.1 hpath).2.2 visited hvisited v (by simp))
    · rw [List.mem_singleton.1 hvisited]
  refine ⟨?_, hle⟩
  obtain ⟨first, hfirst⟩ : ∃ first, c.nodes.head? = some first := by
    cases hnodes : c.nodes with
    | nil => simp [hnodes] at last
    | cons first rest => exact ⟨first, rfl⟩
  have hchild := (h.first first hfirst).1
  rw [h.root_eq]
  exact Nat.le_trans (Nat.le_of_lt (Tree.lt_of_mem_childIds hchild).1)
    (hle first (List.mem_of_mem_head? hfirst))

/-! ## Parsing -/

namespace Dispatcher

/-- Dispatchers with the same settings, of which one has the nodes of the other under other
numbers. The children of the root are literals, and no parser looks at numbers. -/
structure Renumbers (σ : Equiv.Perm Nat) (d d' : Dispatcher S E M) : Prop where
  config_eq : d'.config = d.config
  tree : d.tree.Renumbers σ d'.tree
  literals : d.tree.HasLiterals
  ignores : d.tree.IgnoresNumbers

variable {d d' : Dispatcher S E M} {source : S} {input : String} {root start depth : Nat}
  {c : Context S E M} {inner : List (Context S E M)} {r : Reader} {child : Offspring S E M}

/-- Trying a child comes to the same under other numbers if going on behind it does. -/
theorem Renumbers.trial_eq (h : d.Renumbers σ d') {node : Nat}
    (mem : child ∈ d.tree.eligible node r c.source)
    (below : ∀ next (after : Reader) (visited : Context S E M),
      d.room next visited.redirectDepth < d.room node c.redirectDepth →
        d'.parseAt (σ next) after (visited.renumber σ) =
          (d.parseAt next after visited).renumber σ) :
    d'.trial (c.renumber σ) r (child.renumber σ) = (d.trial c r child).renumber σ := by
  obtain ⟨-, lookup, label, -⟩ := Tree.mem_eligible_iff.1 mem
  have htake : (child.renumber σ).label.take (c.renumber σ) r = child.label.take c r := by
    change child.label.take (c.renumber σ) r = child.label.take c r
    cases hlabel : child.label with
    | literal text => rfl
    | argument name parser completer =>
      have hignores := h.ignores child.id child.node name parser completer lookup (hlabel ▸ label)
      simp only [Label.take, Label.takeValue, hignores σ c r]
  cases hresult : child.label.take c r with
  | error error =>
    rw [hresult] at htake
    rw [trial_of_take_error htake, trial_of_take_error hresult]
    rfl
  | ok taken =>
    rw [hresult] at htake
    cases hcut : taken.isCutOff with
    | true =>
      rw [trial_of_isCutOff htake hcut, trial_of_isCutOff hresult hcut]
      rfl
    | false =>
      have hdepth : (c.renumber σ).redirectDepth = c.redirectDepth := rfl
      rw [trial_of_matches ⟨htake, hcut⟩, trial_of_matches ⟨hresult, hcut⟩, h.config_eq, hdepth,
        Offspring.renumber_visit]
      by_cases more : taken.after.canRead = true
      · rw [if_pos more, if_pos more]
        cases hredirect : child.node.redirect with
        | some target =>
          have hredirect' : (child.renumber σ).node.redirect = some (σ target) := by
            simp [Offspring.renumber, hredirect]
          simp only [hredirect', Context.renumber_entrance]
          split
          · rfl
          · next hlimit =>
            rw [below target taken.after.pastSeparator
              ((child.visit c taken).entrance target taken.after.pastSeparator)
              (room_entrance (Nat.not_lt.1 hlimit) taken)]
            rfl
        | none =>
          have hredirect' : (child.renumber σ).node.redirect = none := by
            simp [Offspring.renumber, hredirect]
          have hinner := below child.id taken.after.pastSeparator (child.visit c taken)
            (room_visit mem taken)
          simp only [hredirect']
          split
          · exact congrArg Attempt.possible hinner
          · rfl
      · rw [if_neg more, if_neg more]
        rfl

/-- A parse is the same under other numbers. -/
theorem Renumbers.parseAt_renumber (h : d.Renumbers σ d') (node : Nat) (r : Reader)
    (c : Context S E M) :
    d'.parseAt (σ node) r (c.renumber σ) = (d.parseAt node r c).renumber σ := by
  -- Behind a match there is less room, in the tree or for redirects.
  induction hroom : d.room node c.redirectDepth using Nat.strongRecOn generalizing node r c with
  | ind room ih =>
    subst hroom
    rw [parseAt_eq, parseAt_eq, survey, survey, Context.renumber_source,
      h.tree.eligible_eq h.literals, ← Survey.renumber_conclude]
    congr 1
    refine Survey.renumber_ofAttempts fun child hchild => ?_
    exact h.trial_eq hchild fun next after visited hless => ih _ hless next after visited rfl

theorem Renumbers.parse_renumber (h : d.Renumbers σ d') (input : String) (source : S) :
    d'.parse input source = (d.parse input source).renumber σ := by
  have hparse := h.parseAt_renumber Tree.root (.ofString input) (.start source input Tree.root 0)
  have hstart : (Context.start source input Tree.root 0 : Context S E M).renumber σ =
      .start source input Tree.root 0 :=
    Context.renumber_of_stays h.tree.root_eq (by simp [Context.start])
  rwa [hstart, h.tree.root_eq] at hparse

/-! ## Running -/

/-- Up to a redirect with a modifier the numbers stay. -/
theorem Derives.renumber_eq (h : d.Derives source input root start depth c inner)
    {t' : Tree S E M} (renumbers : d.tree.Renumbers σ t') :
    ∀ level ∈ (c :: inner).dropLast, level.modifier ≠ none → level.renumber σ = level := by
  induction h with
  | innermost _ => simp
  | @nested _ _ _ c next inner v node target derived last lookup redirect _ _ _ ih =>
    intro level hlevel hmodifier
    rw [List.dropLast_cons_cons, List.mem_cons] at hlevel
    rcases hlevel with rfl | hlevel
    · have hnode : level.modifier = node.modifier := by
        rw [derived.modifier_eq, Tree.lastNode?, last, Option.bind_some, lookup, Option.bind_some]
      have hredirect : node.redirect ≠ none := by simp [redirect]
      have hstays := renumbers.modifiers v.node node lookup hredirect (hnode ▸ hmodifier)
      obtain ⟨hroot, hnodes⟩ := derived.le_last last
      exact Context.renumber_of_stays (hstays _ hroot) fun visited hvisited =>
        hstays _ (hnodes visited hvisited)
    · exact ih level hlevel hmodifier

end Dispatcher

section
variable {m : Type → Type} [Monad m] {host : Host m S E M}

theorem Host.IgnoresNumbers.finish_eq (h : host.IgnoresNumbers) (level : Context S E M) :
    host.finish (level.renumber σ) = host.finish level := by
  funext tally source
  have hexecutor : (level.renumber σ).executor = level.executor := rfl
  rw [Host.finish, Host.finish, hexecutor]
  cases level.executor with
  | none => rfl
  | some executor =>
    simp only [Context.renumber_onBehalfOf, h.run σ executor (level.onBehalfOf source)]

/-- Where the numbers stay in a context with a modifier, the host is asked the same. -/
theorem Host.IgnoresNumbers.cross_eq (h : host.IgnoresNumbers) {level : Context S E M}
    (next : Context S E M) (rest : List (Context S E M))
    (stays : level.modifier ≠ none → level.renumber σ = level) :
    host.cross (level.renumber σ) (next.renumber σ) (rest.map (Context.renumber σ)) =
      host.cross level next rest := by
  funext state source
  cases hmodifier : level.modifier with
  | some modifier =>
    have hlevel : level.renumber σ = level := stays (by simp [hmodifier])
    have hsources := h.sources σ modifier (level.onBehalfOf source) (next :: rest)
    rw [List.map_cons] at hsources
    rw [hlevel, Host.cross, Host.cross, Context.renumber_hasNodes]
    simp only [hmodifier, Chain.onBehalfOf, hsources]
  | none =>
    have hmodifier' : (level.renumber σ).modifier = none := hmodifier
    simp only [Host.cross, Context.renumber_hasNodes, hmodifier, hmodifier']
    rfl

theorem Host.IgnoresNumbers.runLevels_eq (h : host.IgnoresNumbers) {level : Context S E M}
    {inner : List (Context S E M)}
    (stays : ∀ other ∈ (level :: inner).dropLast, other.modifier ≠ none → other.renumber σ = other)
    (tally : Tally) (sources : List S) :
    host.runLevels tally sources (level.renumber σ) (inner.map (Context.renumber σ)) =
      host.runLevels tally sources level inner := by
  induction inner generalizing level tally sources with
  | nil => rw [List.map_nil, Host.runLevels, Host.runLevels, h.finish_eq]
  | cons next rest ih =>
    rw [List.dropLast_cons_cons] at stays
    rw [List.map_cons, Host.runLevels, Host.runLevels,
      h.cross_eq next rest (stays level List.mem_cons_self)]
    congr 1
    funext state
    exact ih (fun other hother => stays other (List.mem_cons_of_mem level hother)) _ _

/-- A command line runs the same under other numbers. -/
theorem Dispatcher.Renumbers.execute_renumber {d d' : Dispatcher S E M} (h : d.Renumbers σ d')
    (ignores : host.IgnoresNumbers) (input : String) (source : S) :
    d'.execute host input source = d.execute host input source := by
  have hderives := d.parseAt_derives (Reader.isOnBoundary_ofString input) Tree.root source
  have hstays := hderives.renumber_eq h.tree
  rw [Dispatcher.execute, Dispatcher.execute, h.parse_renumber, Parse.execute, Parse.execute]
  have hcomplete : ((d.parse input source).renumber σ).isComplete =
      (d.parse input source).isComplete := rfl
  rw [hcomplete, Parse.renumber_stuckError]
  split
  · have hruns := ignores.runLevels_eq hstays .zero [(d.parse input source).chain.outer.source]
    exact congrArg (fun run => do
      let outcome ← ExceptT.run run
      pure (outcome.bind fun tally => tally.answer (d.parse input source).reader.input)) hruns
  · rfl

end

end Dispatch
